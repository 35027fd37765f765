import Pine.Base.Termination
import Pine.Pool.Service
import Pine.Pool.Wakeup

/-!
# Pool — Quiescence

The pool comes to rest. What is left for its workers and its destructor to
do is a number (`work`) that each of their steps lowers; only an
`enqueue` and a spurious wakeup add to it. So a run is no longer than the
work it starts from and what its own calls of `enqueue` and wakeups bring
in. And when no worker and no destructor can go on, nothing has been left
behind: every task that was enqueued has run once, and either all workers
wait for more, or the destructor has joined them all (`pool_quiesces`).
-/

namespace Pine

open Transition

/-- The steps a worker takes before it waits or returns. -/
def Worker.weight : Worker → Nat
  | .checking => 1
  | .notified => 1
  | .running _ => 2
  | .blocked => 0
  | .returned => 0

/-- The steps the destructor takes, and the ones of the `n` workers that
its `notify_all` wakes. -/
def Teardown.weight (n : Nat) : Teardown → Nat
  | .none => n + 3
  | .stopped => n + 2
  | .notifiedAll => 1
  | .joined => 0

namespace ThreadPool

/-- What is left to do. A queued task is taken by a worker, and ended by
it, and leaves the worker at one more check. -/
def work (p : ThreadPool) : Nat :=
  3 * p.tasks.length + (p.threads.map Worker.weight).sum + p.teardown.weight p.threads.length

/-- What a step brings in: a task, and a worker that is woken. -/
def Action.cost : Action → Nat
  | .enqueue _ _ => 5
  | .spuriousWakeup _ => 2
  | _ => 0

/-- The steps of workers, and of the destructor once it has begun. -/
def Action.own : Action → Bool
  | .check _ => true
  | .finish _ => true
  | .notifyAll => true
  | .join => true
  | _ => false

/-- The pool at rest, every task behind it. -/
structure Quiet (p : ThreadPool) : Prop where
  tasks : p.tasks = []
  finished : ∀ t, p.finished.count t = if t < p.enqueued then 1 else 0
  threads : (p.teardown = .none ∧ ∀ w ∈ p.threads, w = .blocked) ∨
    (p.teardown = .joined ∧ ∀ w ∈ p.threads, w = .returned)

/-! ## The work of a run -/

theorem sum_weight_wake_le (threads : List Worker) :
    ((threads.map Worker.wake).map Worker.weight).sum
      ≤ (threads.map Worker.weight).sum + threads.length := by
  induction threads with
  | nil => exact Nat.le_refl 0
  | cons w threads ih =>
      have hw : w.wake.weight ≤ w.weight + 1 := by cases w <;> simp [Worker.wake, Worker.weight]
      simp only [List.map_cons, List.sum_cons, List.length_cons]
      omega

theorem weight_of_idle {w : Worker} (hw : w = .checking ∨ w = .notified) : w.weight = 1 := by
  rcases hw with rfl | rfl <;> rfl

/-- One worker moves on, and the work changes by its weight. -/
theorem work_setThread {p : ThreadPool} {i : Nat} {w : Worker} (hi : p.threads[i]? = some w)
    (w' : Worker) : (p.setThread i w').work + w.weight = p.work + w'.weight := by
  have hsum := sum_map_set_add hi Worker.weight w'
  simp only [work, setThread, List.length_set]
  omega

theorem work_step {p p' : ThreadPool} {a : Action} (hstep : Step p a p') :
    1 + p'.work ≤ p.work + a.cost := by
  have hemplace : p.emplace.work = p.work + 3 := by
    simp only [work, emplace, List.length_append, List.length_singleton]
    omega
  cases hstep with
  | enqueueQuiet _ _ =>
      simp only [Action.cost]
      omega
  | @enqueueWake _ j _ hj =>
      have hj' : p.emplace.threads[j]? = some .blocked := hj
      have hset : (p.emplace.setThread j .notified).work + 0 = p.emplace.work + 1 :=
        work_setThread hj' .notified
      simp only [Action.cost]
      omega
  | @take i task w tasks hi hw htasks =>
      have hset : (p.setThread i (.running task)).work + w.weight = p.work + 2 :=
        work_setThread hi _
      have hone := weight_of_idle hw
      simp only [work, htasks, setThread, List.length_cons, Action.cost] at hset ⊢
      omega
  | @leave i w hi hw _ _ =>
      have hset : (p.setThread i .returned).work + w.weight = p.work + 0 := work_setThread hi _
      have hone := weight_of_idle hw
      simp only [Action.cost]
      omega
  | @block i w hi hw _ _ =>
      have hset : (p.setThread i .blocked).work + w.weight = p.work + 0 := work_setThread hi _
      have hone := weight_of_idle hw
      simp only [Action.cost]
      omega
  | @finish i task hi =>
      have hset : (p.setThread i .checking).work + 2 = p.work + 1 := work_setThread hi _
      show 1 + (p.setThread i .checking).work ≤ p.work + 0
      omega
  | @spuriousWakeup i hi =>
      have hset : (p.setThread i .checking).work + 0 = p.work + 1 := work_setThread hi _
      simp only [Action.cost]
      omega
  | stopPool hphase =>
      simp only [work, Action.cost, hphase, Teardown.weight]
      omega
  | notifyAll hphase =>
      have hwake := sum_weight_wake_le p.threads
      simp only [work, Action.cost, hphase, Teardown.weight]
      omega
  | join hphase _ =>
      simp only [work, Action.cost, hphase, Teardown.weight]
      omega

/-- Every step is paid for, out of the work or by what it brings in. -/
theorem amortized (n : Nat) :
    (disciplined n).Amortized (disciplined n).Reachable work (fun _ => 1) Action.cost :=
  fun _ _ _ hp hstep =>
    ⟨hp.step hstep, work_step (step_cases (System.guarded_step_eq_some.mp hstep).2)⟩

/-! ## Where no step is left -/

/-- A pool is stopped by its destructor, and joined with its workers
returned. -/
structure TornDown (p : ThreadPool) : Prop where
  stopped : p.stop = true ↔ p.teardown ≠ .none
  awake : p.teardown = .notifiedAll → .blocked ∉ p.threads
  joined : p.teardown = .joined → ∀ w ∈ p.threads, w = .returned

section TornDown
variable {p p' : ThreadPool} {i : Nat} {w w' : Worker}

/-- A worker that is not blocked and has not returned moves on. -/
theorem TornDown.setThread {tasks finished dequeued : List Nat} {enqueued : Nat} (h : TornDown p)
    (hi : p.threads[i]? = some w) (hw : w ≠ .returned)
    (hw' : w' = .blocked → p.teardown = .none) :
    TornDown { p with threads := p.threads.set i w', tasks, finished, dequeued, enqueued } where
  stopped := h.stopped
  awake hphase hmem := by
    have hne : w' ≠ .blocked := fun heq => by
      have hnone := hw' heq
      rw [hphase] at hnone
      cases hnone
    exact h.awake hphase (blocked_of_set hne hmem)
  joined hphase := absurd (h.joined hphase w (List.mem_of_getElem? hi)) hw

theorem TornDown.step {a : Action} (h : TornDown p) (hstep : Step p a p') : TornDown p' := by
  cases hstep with
  | enqueueQuiet _ _ => exact ⟨h.stopped, h.awake, h.joined⟩
  | enqueueWake _ hj => exact h.setThread hj nofun nofun
  | take hi hw _ =>
      exact h.setThread hi (by rcases hw with rfl | rfl <;> nofun) nofun
  | leave hi hw _ _ => exact h.setThread hi (by rcases hw with rfl | rfl <;> nofun) nofun
  | block hi hw _ hrun =>
      refine h.setThread hi (by rcases hw with rfl | rfl <;> nofun) ?_
      intro _
      by_contra hne
      rw [h.stopped.mpr hne] at hrun
      cases hrun
  | finish hi => exact h.setThread hi nofun nofun
  | spuriousWakeup hi => exact h.setThread hi nofun nofun
  | stopPool _ =>
      exact ⟨iff_of_true rfl nofun, nofun, nofun⟩
  | notifyAll hphase =>
      have hstop := h.stopped.mpr (by rw [hphase]; decide)
      exact ⟨iff_of_true hstop nofun, fun _ => blocked_not_mem_wake p.threads, nofun⟩
  | join hphase hall =>
      have hstop := h.stopped.mpr (by rw [hphase]; decide)
      exact ⟨iff_of_true hstop nofun, nofun, fun _ => hall⟩

theorem tornDown_of_reachable {n : Nat} (h : (system n).Reachable p) : TornDown p := by
  apply h.induction (P := TornDown)
  · exact ⟨iff_of_false Bool.false_ne_true (fun hne => hne rfl), nofun, nofun⟩
  · intro p a p' _ ih hstep
    exact ih.step (step_cases hstep)

end TornDown

/-- Workers that cannot go on wait or have returned. -/
theorem waiting_of_stuck {p : ThreadPool} (hcheck : ∀ i, p.step (.check i) = none)
    (hfinish : ∀ i, p.step (.finish i) = none) :
    ∀ w ∈ p.threads, w = .blocked ∨ w = .returned := by
  intro w hw
  obtain ⟨i, hi⟩ := List.mem_iff_getElem?.mp hw
  cases w with
  | checking =>
      have hnone := hcheck i
      rw [step, if_pos (.inl hi)] at hnone
      cases hnone
  | notified =>
      have hnone := hcheck i
      rw [step, if_pos (.inr hi)] at hnone
      cases hnone
  | running task =>
      have hnone := hfinish i
      simp only [step, hi] at hnone
      cases hnone
  | blocked => exact .inl rfl
  | returned => exact .inr rfl

/-- With an empty queue and no task running, every task has run. -/
theorem finished_of_idle {n : Nat} {p : ThreadPool} (h : (system n).Reachable p)
    (htasks : p.tasks = []) (hidle : ∀ t, p.threads.count (.running t) = 0) :
    ∀ t, p.finished.count t = if t < p.enqueued then 1 else 0 := by
  obtain ⟨v, _, hv⟩ := (simulation n).reachable h
  intro t
  have hqueued := hv.queued
  rw [htasks, List.append_nil] at hqueued
  have hheld := hv.held t
  rw [hidle t, Nat.add_zero, hqueued] at hheld
  rw [hheld]
  exact List.count_range

/-- **Nothing is left behind** where no step of a worker or the destructor
is left. -/
theorem quiet_of_stuck {n : Nat} (hn : 0 < n) {p : ThreadPool} (h : (disciplined n).Reachable p)
    (hstuck : ∀ a : Action, a.own = true → p.step a = none) : Quiet p := by
  have hwaiting :=
    waiting_of_stuck (fun i => hstuck (.check i) rfl) (fun i => hstuck (.finish i) rfl)
  have htorn := tornDown_of_reachable h.of_guarded
  have hdrained := drained_of_reachable hn h
  have hidle : ∀ w, (∀ t, w ≠ .running t) → (∀ v ∈ p.threads, v = w) →
      ∀ t, p.threads.count (.running t) = 0 := by
    intro w hw hall t
    rw [List.count_eq_zero]
    intro hmem
    exact hw t (hall _ hmem).symm
  cases hphase : p.teardown with
  | none =>
      -- nobody has returned from a pool that runs, so all wait, and the queue is empty
      have hrun : p.stop ≠ true := by
        rw [ne_eq, htorn.stopped, hphase]
        decide
      have hblocked : ∀ w ∈ p.threads, w = .blocked := by
        intro w hw
        refine (hwaiting w hw).resolve_right ?_
        intro heq
        subst heq
        exact hrun (hdrained.stopped hw)
      have hcovered := covered_of_reachable h.of_guarded
      have hnotified : p.threads.count .notified = 0 := by
        rw [List.count_eq_zero]
        intro hmem
        cases hblocked _ hmem
      obtain ⟨w, hw⟩ := List.exists_mem_of_ne_nil _ hdrained.workers
      have hlen := hcovered (hblocked w hw ▸ hw)
      have htasks : p.tasks = [] := List.length_eq_zero_iff.mp (by omega)
      have hidle' := hidle .blocked (fun t heq => by cases heq) hblocked
      exact ⟨htasks, finished_of_idle h.of_guarded htasks hidle', .inl ⟨hphase, hblocked⟩⟩
  | stopped =>
      have hnone := hstuck .notifyAll rfl
      rw [step, if_pos hphase] at hnone
      cases hnone
  | notifiedAll =>
      have hall : ∀ w ∈ p.threads, w = .returned := by
        intro w hw
        refine (hwaiting w hw).resolve_left ?_
        intro heq
        subst heq
        exact htorn.awake hphase hw
      have hnone := hstuck .join rfl
      rw [step, if_pos ⟨hphase, hall⟩] at hnone
      cases hnone
  | joined =>
      have hall := htorn.joined hphase
      have htasks := hdrained.empty hall
      have hidle' := hidle .returned (fun t heq => by cases heq) hall
      exact ⟨htasks, finished_of_idle h.of_guarded htasks hidle', .inr ⟨hphase, hall⟩⟩

/-- The steps of workers and destructor are never forbidden. -/
theorem disciplined_step_of_own {n : Nat} {p : ThreadPool} {a : Action} (ha : a.own = true) :
    (disciplined n).step p a = p.step a := by
  cases a with
  | enqueue _ _ => cases ha
  | _ => rfl

/-- **The pool comes to rest.** A run is no longer than the work it starts
from and what its own calls of `enqueue` and spurious wakeups bring in;
where no worker and no destructor can go on, every task that was enqueued
has run exactly once, and all workers wait or have been joined; and
workers and destructor alone get there from every state. -/
theorem pool_quiesces (n : Nat) (hn : 0 < n) {p : ThreadPool} (h : (disciplined n).Reachable p) :
    (∀ as q, (disciplined n).runFrom p as = some q →
      as.length + q.work ≤ p.work + (as.map Action.cost).sum) ∧
    ((∀ a : Action, a.own = true → (disciplined n).step p a = none) → Quiet p) ∧
    ∃ as q, (disciplined n).runFrom p as = some q ∧ (∀ a ∈ as, a.own = true) ∧ Quiet q := by
  have hstuck : ∀ {q : ThreadPool}, (disciplined n).Reachable q →
      (∀ a : Action, a.own = true → (disciplined n).step q a = none) → Quiet q := by
    intro q hq hnone
    apply quiet_of_stuck hn hq
    intro a ha
    rw [← disciplined_step_of_own (n := n) ha]
    exact hnone a ha
  refine ⟨?_, hstuck h, ?_⟩
  · intro as q hrun
    have hbound := (amortized n).run h hrun
    rwa [List.map_const', List.sum_replicate_nat, Nat.mul_one] at hbound
  · have hgain : ∀ a : Action, a.own = true → 0 < 1 ∧ a.cost = 0 := by
      intro a ha
      cases a <;> first | exact ⟨Nat.one_pos, rfl⟩ | cases ha
    exact (amortized n).exists_run_to Action.own hgain (fun _ hq => hstuck hq) h

/-- Two workers, one with a task, one notified of the next, and the
destructor at work. -/
theorem pool_quiesces_stopped :
    let p : ThreadPool :=
      { threads := [.running 0, .notified], tasks := [1], stop := true, teardown := .stopped,
        enqueued := 2, dequeued := [0] }
    (∀ as q, (disciplined 2).runFrom p as = some q →
      as.length + q.work ≤ p.work + (as.map Action.cost).sum) ∧
    ((∀ a : Action, a.own = true → (disciplined 2).step p a = none) → Quiet p) ∧
    ∃ as q, (disciplined 2).runFrom p as = some q ∧ (∀ a ∈ as, a.own = true) ∧ Quiet q :=
  pool_quiesces 2 (by decide)
    ⟨[.check 1, .enqueue none (some 1), .check 0, .enqueue none none, .stopPool], rfl⟩

end ThreadPool

end Pine
