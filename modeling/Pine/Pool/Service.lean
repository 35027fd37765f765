import Pine.Pool.ThreadPool
import Mathlib.Data.Finset.Insert
import Mathlib.Data.List.Range

/-!
# Pool — Service

What the thread pool is for, and that it is that. A `Service` numbers the
tasks submitted to it, starts them in that order, each once, and finishes
each started task once. The pool is such a service (`simulation`),
whatever its workers do. With at least one worker, and no `enqueue` from
outside the pool once `stop_pool` has run, it also finishes the work: when
every worker has returned, every task has run (`Drained`).
-/

namespace Pine

open Transition

/-- A first-in-first-out executor. Tasks below `started` have been handed
to a worker, tasks in `finished` have run. -/
structure Service where
  submitted : Nat := 0
  started : Nat := 0
  finished : Finset Nat := ∅
  started_le : started ≤ submitted := by decide
  finished_lt : ∀ t ∈ finished, t < started := by decide

namespace Service

inductive Action where
  | submit
  | start
  | finish (task : Nat)

def submit (v : Service) : Service :=
  { v with
    submitted := v.submitted + 1
    started_le := Nat.le_succ_of_le v.started_le }

def start (v : Service) (h : v.started < v.submitted) : Service :=
  { v with
    started := v.started + 1
    started_le := h
    finished_lt := fun t ht => Nat.lt_succ_of_lt (v.finished_lt t ht) }

def finish (v : Service) (task : Nat) (h : task < v.started) : Service :=
  { v with
    finished := insert task v.finished
    finished_lt := fun t ht => by
      rcases Finset.mem_insert.mp ht with rfl | ht
      · exact h
      · exact v.finished_lt t ht }

def system : System Service Action where
  init := {}
  step
    | v, .submit => some v.submit
    | v, .start => if h : v.started < v.submitted then some (v.start h) else none
    | v, .finish task =>
        if h : task < v.started ∧ task ∉ v.finished then some (v.finish task h.1) else none

end Service

namespace ThreadPool

/-! ## The pool is a service -/

/-- The pool stands for the service: the queue is what is submitted and
not started, and a started task is run or being run, not both. -/
structure Serves (p : ThreadPool) (v : Service) : Prop where
  submitted : p.enqueued = v.submitted
  started : p.dequeued = List.range v.started
  queued : p.dequeued ++ p.tasks = List.range p.enqueued
  held : ∀ t, p.finished.count t + p.threads.count (.running t) = p.dequeued.count t
  finished : ∀ t, t ∈ v.finished ↔ t ∈ p.finished

/-- The task in front of the queue is the next one to start. -/
theorem Serves.front {p : ThreadPool} {v : Service} (h : Serves p v) {task : Nat}
    {tasks : List Nat} (htasks : p.tasks = task :: tasks) :
    task = v.started ∧ v.started < v.submitted := by
  have hqueued := h.queued
  rw [h.started, htasks, h.submitted] at hqueued
  have hlen := congrArg List.length hqueued
  simp only [List.length_append, List.length_range, List.length_cons] at hlen
  have hfront := congrArg (fun l => l[v.started]?) hqueued
  rw [List.getElem?_append_right (by simp), List.length_range, Nat.sub_self,
    List.getElem?_range (by omega)] at hfront
  exact ⟨Option.some.inj hfront, by omega⟩

/-- A worker that moves between states in which it runs nothing is
nothing to the service. -/
theorem Serves.setThread {p : ThreadPool} {v : Service} (h : Serves p v) {i : Nat}
    {w w' : Worker} (hi : p.threads[i]? = some w) (hw : ∀ t, w ≠ .running t)
    (hw' : ∀ t, w' ≠ .running t) : Serves (p.setThread i w') v := by
  refine ⟨h.submitted, h.started, h.queued, ?_, h.finished⟩
  intro t
  have hcount := count_set_add hi w' (.running t)
  rw [if_neg (hw t), if_neg (hw' t)] at hcount
  have hheld := h.held t
  simp only [ThreadPool.setThread]
  omega

theorem Serves.emplace {p : ThreadPool} {v : Service} (h : Serves p v) :
    Serves p.emplace v.submit := by
  refine ⟨congrArg (· + 1) h.submitted, h.started, ?_, h.held, h.finished⟩
  simp only [ThreadPool.emplace]
  rw [← List.append_assoc, h.queued, List.range_succ]

theorem Serves.take {p : ThreadPool} {v : Service} (h : Serves p v) {i task : Nat} {w : Worker}
    {tasks : List Nat} (hi : p.threads[i]? = some w) (hw : ∀ t, w ≠ .running t)
    (htasks : p.tasks = task :: tasks) (hlt : v.started < v.submitted) :
    Serves { p.setThread i (.running task) with
      tasks := tasks, dequeued := p.dequeued ++ [task] } (v.start hlt) := by
  refine ⟨h.submitted, ?_, ?_, ?_, h.finished⟩
  · obtain ⟨rfl, _⟩ := h.front htasks
    exact (congrArg (· ++ _) h.started).trans List.range_succ.symm
  · have hqueued := h.queued
    rw [htasks] at hqueued
    show p.dequeued ++ [task] ++ tasks = List.range p.enqueued
    rw [List.append_assoc]
    exact hqueued
  · intro t
    have hcount := count_set_add hi (.running task) (.running t)
    rw [if_neg (hw t)] at hcount
    have hheld := h.held t
    have hone : [task].count t = if Worker.running task = .running t then 1 else 0 := by
      simp [List.count_singleton]
    simp only [ThreadPool.setThread, List.count_append]
    omega

/-- A running task has been started and has not finished. -/
theorem Serves.running {p : ThreadPool} {v : Service} (h : Serves p v) {i task : Nat}
    (hi : p.threads[i]? = some (.running task)) : task < v.started ∧ task ∉ v.finished := by
  have hheld := h.held task
  rw [h.started] at hheld
  have hrunning : 0 < p.threads.count (.running task) :=
    List.count_pos_iff.mpr (List.mem_of_getElem? hi)
  have hone := List.nodup_iff_count_le_one.mp (List.nodup_range (n := v.started)) task
  constructor
  · rw [← List.mem_range, ← List.count_pos_iff]
    omega
  · rw [h.finished, ← List.count_pos_iff]
    omega

theorem Serves.finish {p : ThreadPool} {v : Service} (h : Serves p v) {i task : Nat}
    (hi : p.threads[i]? = some (.running task)) (hlt : task < v.started) :
    Serves { p.setThread i .checking with finished := p.finished ++ [task] }
      (v.finish task hlt) := by
  refine ⟨h.submitted, h.started, h.queued, ?_, ?_⟩
  · intro t
    have hcount := count_set_add hi .checking (.running t)
    rw [if_neg (show Worker.checking ≠ .running t from by intro hne; cases hne)] at hcount
    have hheld := h.held t
    have hone : [task].count t = if Worker.running task = .running t then 1 else 0 := by
      simp [List.count_singleton]
    simp only [ThreadPool.setThread, List.count_append]
    omega
  · intro t
    simp only [Service.finish, Finset.mem_insert, List.mem_append, List.mem_singleton, h.finished]
    exact or_comm

theorem count_running_wake (threads : List Worker) (t : Nat) :
    (threads.map Worker.wake).count (.running t) = threads.count (.running t) := by
  rw [List.count_eq_countP, List.count_eq_countP, List.countP_map]
  apply List.countP_congr
  intro w _
  cases w <;> rfl

/-- **Refinement**: every step of the pool is a step of the service, or
one the service does not see. -/
theorem simulation (n : Nat) : Simulation (system n) Service.system Serves := by
  constructor
  · refine ⟨rfl, rfl, rfl, ?_, ?_⟩
    · intro t
      show 0 + (List.replicate n Worker.checking).count (.running t) = 0
      rw [Nat.zero_add, List.count_eq_zero]
      intro hmem
      cases List.eq_of_mem_replicate hmem
    · intro t
      exact iff_of_false (Finset.notMem_empty t) List.not_mem_nil
  · intro p a p' v h hstep
    have hidle : ∀ {w : Worker}, w = .checking ∨ w = .notified → ∀ t, w ≠ .running t := by
      intro w hw t hne
      rcases hw with rfl | rfl <;> cases hne
    cases step_cases hstep with
    | enqueueQuiet _ _ => exact .inr ⟨.submit, _, rfl, h.emplace⟩
    | enqueueWake _ hj =>
        exact .inr ⟨.submit, _, rfl, h.emplace.setThread hj (by simp) (by simp)⟩
    | take hi hw htasks =>
        obtain ⟨_, hlt⟩ := h.front htasks
        exact .inr ⟨.start, v.start hlt, dif_pos hlt, h.take hi (hidle hw) htasks hlt⟩
    | leave hi hw _ _ => exact .inl (h.setThread hi (hidle hw) (by simp))
    | block hi hw _ _ => exact .inl (h.setThread hi (hidle hw) (by simp))
    | @finish i task hi =>
        have hrunning := h.running hi
        exact .inr ⟨.finish task, v.finish task hrunning.1, dif_pos hrunning,
          h.finish hi hrunning.1⟩
    | spuriousWakeup hi => exact .inl (h.setThread hi (by simp) (by simp))
    | stopPool _ => exact .inl ⟨h.submitted, h.started, h.queued, h.held, h.finished⟩
    | notifyAll _ =>
        refine .inl ⟨h.submitted, h.started, h.queued, ?_, h.finished⟩
        intro t
        show p.finished.count t + (p.threads.map Worker.wake).count (.running t) = _
        rw [count_running_wake]
        exact h.held t
    | join _ _ => exact .inl ⟨h.submitted, h.started, h.queued, h.held, h.finished⟩

/-! ## Shutdown -/

/-- Outside the pool, `enqueue` is called before `stop_pool` only. -/
def beforeStop (p : ThreadPool) : Action → Bool
  | .enqueue none _ => !p.stop
  | _ => true

/-- The pool under callers that keep to `beforeStop`. -/
def disciplined (numThreads : Nat) : System ThreadPool Action :=
  (system numThreads).guarded fun p a => p.beforeStop a = true

/-- A worker returns only from a stopped pool, and the last one leaves an
empty queue. -/
structure Drained (p : ThreadPool) : Prop where
  workers : p.threads ≠ []
  stopped : .returned ∈ p.threads → p.stop = true
  empty : (∀ w ∈ p.threads, w = .returned) → p.tasks = []

/-- After a worker has moved to a state other than `returned` there is a
worker left that has not returned. -/
theorem not_all_returned {threads : List Worker} {i : Nat} {w w' : Worker}
    (hi : threads[i]? = some w) (hw' : w' ≠ .returned) :
    ¬ ∀ v ∈ threads.set i w', v = .returned := by
  obtain ⟨hlt, _⟩ := List.getElem?_eq_some_iff.mp hi
  intro hall
  exact hw' (hall w' (List.mem_set hlt w'))

/-- A worker that moves on without returning. -/
theorem Drained.setThread {p : ThreadPool} (h : Drained p) {i : Nat} {w w' : Worker}
    {tasks finished dequeued : List Nat} {enqueued : Nat}
    (hi : p.threads[i]? = some w) (hw' : w' ≠ .returned) :
    Drained { p with
      threads := p.threads.set i w', tasks, finished, dequeued, enqueued } := by
  refine ⟨?_, ?_, ?_⟩
  · intro hnil
    exact h.workers (by simpa using hnil)
  · intro hmem
    rcases List.mem_or_eq_of_mem_set hmem with hmem | heq
    · exact h.stopped hmem
    · exact absurd heq.symm hw'
  · intro hall
    exact absurd hall (not_all_returned hi hw')

theorem Drained.step {p p' : ThreadPool} {a : Action} (h : Drained p)
    (hbefore : p.beforeStop a = true) (hstep : Step p a p') : Drained p' := by
  cases hstep with
  | @enqueueQuiet caller hcall _ =>
      refine ⟨h.workers, h.stopped, ?_⟩
      intro hall
      cases caller with
      | none =>
          -- the pool has not been stopped, so no worker has returned
          obtain ⟨w, hw⟩ := List.exists_mem_of_ne_nil _ h.workers
          have hstop := h.stopped (hall w hw ▸ hw)
          simp [beforeStop, hstop] at hbefore
      | some i =>
          obtain ⟨task, hi⟩ := running_of_canCall hcall
          cases hall _ (List.mem_of_getElem? hi)
  | enqueueWake _ hj => exact h.setThread hj (by decide)
  | take hi _ _ => exact h.setThread hi (by intro hne; cases hne)
  | @leave i w hi _ htasks hstop =>
      refine ⟨?_, fun _ => hstop, fun _ => htasks⟩
      intro hnil
      exact h.workers (by simpa [ThreadPool.setThread] using hnil)
  | block hi _ _ _ => exact h.setThread hi (by decide)
  | finish hi => exact h.setThread hi (by decide)
  | spuriousWakeup hi => exact h.setThread hi (by decide)
  | stopPool _ => exact ⟨h.workers, fun _ => rfl, h.empty⟩
  | notifyAll _ =>
      have hback : ∀ w : Worker, w.wake = .returned → w = .returned := by
        intro w hw
        cases w <;> first | rfl | cases hw
      refine ⟨?_, ?_, ?_⟩
      · intro hnil
        exact h.workers (List.map_eq_nil_iff.mp hnil)
      · intro hmem
        obtain ⟨w, hw, hwake⟩ := List.mem_map.mp hmem
        exact h.stopped (hback w hwake ▸ hw)
      · intro hall
        apply h.empty
        intro w hw
        exact hback w (hall _ (List.mem_map_of_mem hw))
  | join _ _ => exact ⟨h.workers, h.stopped, h.empty⟩

theorem drained_of_reachable {n : Nat} (hn : 0 < n) {p : ThreadPool}
    (h : (disciplined n).Reachable p) : Drained p := by
  apply h.induction (P := Drained)
  · have hworker : Worker.checking ∈ List.replicate n Worker.checking :=
      List.mem_replicate.mpr ⟨by omega, rfl⟩
    refine ⟨List.ne_nil_of_mem hworker, ?_, ?_⟩
    · intro hmem
      cases List.eq_of_mem_replicate hmem
    · intro _
      rfl
  · intro p a p' _ ih hstep
    obtain ⟨hbefore, hstep⟩ := System.guarded_step_eq_some.mp hstep
    exact ih.step hbefore (step_cases hstep)

/-- **Every task runs exactly once.** Tasks leave the queue in the order
in which they were enqueued, each once, and when all workers have
returned every task has run. -/
theorem tasks_run_once (n : Nat) (hn : 0 < n) {p : ThreadPool}
    (h : (disciplined n).Reachable p) :
    p.dequeued.Nodup ∧ p.dequeued ++ p.tasks = List.range p.enqueued ∧
    ((∀ w ∈ p.threads, w = .returned) →
      p.tasks = [] ∧ ∀ t, p.finished.count t = if t < p.enqueued then 1 else 0) := by
  obtain ⟨v, _, hv⟩ := (simulation n).reachable h.of_guarded
  refine ⟨hv.started ▸ List.nodup_range, hv.queued, ?_⟩
  intro hall
  have hempty := (drained_of_reachable hn h).empty hall
  refine ⟨hempty, ?_⟩
  intro t
  have hqueued := hv.queued
  rw [hempty, List.append_nil] at hqueued
  have hidle : p.threads.count (.running t) = 0 := by
    rw [List.count_eq_zero]
    intro hmem
    cases hall _ hmem
  have hheld := hv.held t
  rw [hidle, Nat.add_zero, hqueued] at hheld
  rw [hheld]
  exact List.count_range

/-- Two workers, and a task that enqueues another one after `stop_pool`
while the other worker has already returned. -/
theorem tasks_run_once_shutdown :
    let p : ThreadPool :=
      { threads := [.returned, .returned], stop := true, teardown := .stopped, enqueued := 2,
        dequeued := [0, 1], finished := [0, 1] }
    p.dequeued.Nodup ∧ p.dequeued ++ p.tasks = List.range p.enqueued ∧
    ((∀ w ∈ p.threads, w = .returned) →
      p.tasks = [] ∧ ∀ t, p.finished.count t = if t < p.enqueued then 1 else 0) :=
  tasks_run_once 2 (by decide)
    ⟨[.enqueue none none, .check 0, .stopPool, .check 1, .enqueue (some 0) none, .finish 0,
      .check 0, .finish 0, .check 0], rfl⟩

end ThreadPool

end Pine
