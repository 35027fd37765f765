import Pine.Async.Execution

/-!
# Async — Shutdown

What ties the frames to the pool they run on. Every operation has one task
there, the constructor's, and every body that waits for `await_suspend` has
another (`Tied`). So the frame is destroyed when the one task has finished,
and again with its object, and a pool that is joined leaves no body behind
that a task would resume (`frames_on_pool`).
-/

namespace Pine

open Transition

namespace Execution

/-- What each task does, by its number. -/
def tasks (s : Execution) : List PoolTask := s.jobs.map Job.task

/-! ## What ties the pool to the frames -/

/-- The jobs are the tasks of the pool. Every operation has one of them,
which has finished when the frame says so, and the tasks of `await_suspend`
that have not begun are those the frames wait for. -/
structure Tied (s : Execution) : Prop where
  numbered : s.jobs.length = s.pool.enqueued
  begun : ∀ t ∈ s.pool.finished, ∃ task, s.jobs[t]? = some { task, begun := true }
  known : ∀ i, PoolTask.ctor i ∈ s.tasks ↔ i < s.frames.operations.length
  unique : ∀ (i t t' : Nat), s.tasks[t]? = some (PoolTask.ctor i) →
    s.tasks[t']? = some (PoolTask.ctor i) → t = t'
  done : ∀ (i t : Nat) (o : Operation), s.tasks[t]? = some (PoolTask.ctor i) →
    s.frames.operations[i]? = some o →
    (o.ctorTask = .done ↔ t ∈ s.pool.finished)
  waiting : ∀ j i, s.frames.awaits.count (j, i) = s.jobs.count { task := .await j i }

section tied
variable {s s' : Execution} {frames : Frames} {p : ThreadPool} {a : Frames.Action}

theorem Tied.init (n : Nat) : (system n).init.Tied where
  numbered := rfl
  begun := nofun
  known i := iff_of_false List.not_mem_nil (Nat.not_lt_zero i)
  unique i t t' ht := by cases ht
  done i t o ht := by cases ht
  waiting _ _ := rfl

/-- A step of the frames that neither starts an operation nor ends a
constructor's task. -/
theorem Tied.done_of_step (hs : s.Tied) (hstep : s.frames.Step a frames) (hstart : a ≠ .start)
    (hend : ∀ i, a ≠ .endCtorTask i) (i t : Nat) (o : Operation)
    (ht : s.tasks[t]? = some (PoolTask.ctor i)) (ho : frames.operations[i]? = some o) :
    o.ctorTask = .done ↔ t ∈ s.pool.finished := by
  rcases hstep.ctorTask ho with ⟨heq, _⟩ | ⟨o', ho', hdone⟩
  · exact absurd heq hstart
  · rw [hdone, or_iff_left (hend i)]
    exact hs.done i t o' ht ho'

theorem Tied.known_of_step (hs : s.Tied) (hstep : s.frames.Step a frames) (hstart : a ≠ .start)
    (i : Nat) : PoolTask.ctor i ∈ s.tasks ↔ i < frames.operations.length := by
  rw [hstep.length_operations, if_neg hstart]
  exact hs.known i

theorem Tied.body (hs : s.Tied) (hfree : a.free = true) (hstep : s.frames.Step a frames) :
    Tied { s with frames } := by
  have hstart : a ≠ .start := by
    rintro rfl
    cases hfree
  have hend : ∀ i, a ≠ .endCtorTask i := by
    rintro i rfl
    cases hfree
  have hawaits : frames.awaits = s.frames.awaits := by
    cases hstep <;> first | rfl | cases hfree
  refine ⟨hs.numbered, hs.begun, hs.known_of_step hstep hstart, hs.unique,
    hs.done_of_step hstep hstart hend, ?_⟩
  intro j i
  rw [hawaits]
  exact hs.waiting j i

theorem Tied.pool {a : ThreadPool.Action} (hs : s.Tied) (hidle : a.idle = true)
    (hpool : s.pool.step a = some p) : Tied { s with pool := p } := by
  obtain ⟨henqueued, hfinished⟩ := ThreadPool.books_idle hidle hpool
  refine ⟨hs.numbered.trans henqueued.symm, ?_, hs.known, hs.unique, ?_, hs.waiting⟩
  · rw [hfinished]
    exact hs.begun
  · rw [hfinished]
    exact hs.done

/-- The number of the next task is not one that has finished. -/
theorem Tied.next_not_finished (hs : s.Tied) : s.jobs.length ∉ s.pool.finished := by
  intro hmem
  obtain ⟨task, hjob⟩ := hs.begun _ hmem
  exact Nat.lt_irrefl _ (List.getElem?_eq_some_iff.mp hjob).1

/-- A job more, with the next number. -/
theorem getElem?_tasks_append {task task' : PoolTask} {t : Nat}
    (h : (s.tasks ++ [task])[t]? = some task') :
    s.tasks[t]? = some task' ∨ t = s.jobs.length ∧ task' = task := by
  have hlen : s.tasks.length = s.jobs.length := List.length_map _
  rw [List.getElem?_append] at h
  by_cases hlt : t < s.tasks.length
  · rw [if_pos hlt] at h
    exact .inl h
  · rw [if_neg hlt, List.getElem?_singleton] at h
    obtain ⟨ht, hnew⟩ := Option.ite_none_right_eq_some.mp h
    exact .inr ⟨by omega, (Option.some.inj hnew).symm⟩

/-- A task is enqueued, the one of an operation with that operation. -/
theorem Tied.enqueue {caller woken : Option Nat} {task : PoolTask} (hs : s.Tied)
    (hpool : s.pool.step (.enqueue caller woken) = some p)
    (hknown : ∀ i, PoolTask.ctor i ∈ s.tasks ++ [task] ↔ i < frames.operations.length)
    (hnew : ∀ i, task = .ctor i → PoolTask.ctor i ∉ s.tasks)
    (hdone : ∀ (i t : Nat) (o : Operation), s.tasks[t]? = some (PoolTask.ctor i) →
      frames.operations[i]? = some o → (o.ctorTask = .done ↔ t ∈ s.pool.finished))
    (hlast : ∀ i o, task = .ctor i → frames.operations[i]? = some o → o.ctorTask ≠ .done)
    (hwaiting : ∀ j i, frames.awaits.count (j, i)
      = List.count { task := .await j i } (s.jobs ++ [⟨task, false⟩])) :
    Tied { pool := p, frames, jobs := s.jobs ++ [{ task }] } := by
  obtain ⟨henqueued, hfinished⟩ := ThreadPool.books_enqueue hpool
  have htasks : tasks { pool := p, frames, jobs := s.jobs ++ [{ task }] } = s.tasks ++ [task] :=
    List.map_append
  refine ⟨?_, ?_, ?_, ?_, ?_, hwaiting⟩
  · rw [henqueued, ← hs.numbered]
    exact List.length_append
  · intro t ht
    rw [hfinished] at ht
    obtain ⟨task', hjob⟩ := hs.begun t ht
    refine ⟨task', ?_⟩
    rw [List.getElem?_append_left (List.getElem?_eq_some_iff.mp hjob).1]
    exact hjob
  · rw [htasks]
    exact hknown
  · intro i t t' ht ht'
    rw [htasks] at ht ht'
    rcases getElem?_tasks_append ht with ht | ⟨rfl, heq⟩
    · rcases getElem?_tasks_append ht' with ht' | ⟨_, heq'⟩
      · exact hs.unique i t t' ht ht'
      · exact absurd (List.mem_of_getElem? ht) (hnew i heq'.symm)
    · rcases getElem?_tasks_append ht' with ht' | ⟨rfl, _⟩
      · exact absurd (List.mem_of_getElem? ht') (hnew i heq.symm)
      · rfl
  · intro i t o ht ho
    rw [htasks] at ht
    rw [hfinished]
    rcases getElem?_tasks_append ht with ht | ⟨rfl, heq⟩
    · exact hdone i t o ht ho
    · exact iff_of_false (hlast i o heq.symm ho) hs.next_not_finished

theorem Tied.suspend {i j : Nat} {caller woken : Option Nat} (hs : s.Tied)
    (hstep : s.frames.Step (.suspend i j) frames)
    (hpool : s.pool.step (.enqueue caller woken) = some p) :
    Tied { pool := p, frames, jobs := s.jobs ++ [{ task := .await j i }] } := by
  have hawaits : frames.awaits = s.frames.awaits ++ [(j, i)] := by
    cases hstep
    rfl
  apply hs.enqueue hpool
  · intro k
    rw [List.mem_append, or_iff_left (by simp)]
    exact hs.known_of_step hstep nofun k
  · nofun
  · exact hs.done_of_step hstep nofun nofun
  · nofun
  · intro j' i'
    rw [hawaits, List.count_append, List.count_append, hs.waiting, List.count_singleton,
      List.count_singleton]
    congr 1
    simp

theorem Tied.start {caller woken : Option Nat} (hs : s.Tied)
    (hstep : s.frames.Step .start frames)
    (hpool : s.pool.step (.enqueue caller woken) = some p) :
    Tied { pool := p, frames,
           jobs := s.jobs ++ [{ task := .ctor s.frames.operations.length }] } := by
  have hawaits : frames.awaits = s.frames.awaits := by
    cases hstep
    rfl
  have hlength := hstep.length_operations
  rw [if_pos rfl] at hlength
  apply hs.enqueue hpool
  · intro k
    rw [List.mem_append, hs.known, List.mem_singleton, PoolTask.ctor.injEq, hlength]
    omega
  · intro k heq hmem
    cases heq
    exact Nat.lt_irrefl _ ((hs.known _).mp hmem)
  · intro k t o ht ho
    rcases hstep.ctorTask ho with ⟨_, rfl, _⟩ | ⟨o', ho', hdone⟩
    · exact absurd ((hs.known _).mp (List.mem_of_getElem? ht)) (Nat.lt_irrefl _)
    · rw [hdone, or_iff_left nofun]
      exact hs.done k t o' ht ho'
  · intro k o heq ho hdone
    cases heq
    rcases hstep.ctorTask ho with ⟨_, _, hpending⟩ | ⟨o', ho', _⟩
    · rw [hpending] at hdone
      cases hdone
    · exact Nat.lt_irrefl _ (List.getElem?_eq_some_iff.mp ho').1
  · intro j i
    rw [hawaits, List.count_append, hs.waiting]
    simp

theorem Tied.begin {t : Nat} {task : PoolTask} (hs : s.Tied) (hjob : s.jobs[t]? = some { task })
    (hstep : s.frames.Step task.first frames) :
    Tied { s with frames, jobs := s.jobs.set t { task, begun := true } } := by
  obtain ⟨hlt, hget⟩ := List.getElem?_eq_some_iff.mp hjob
  have hstart : task.first ≠ .start := by
    cases task <;> nofun
  have hend : ∀ i, task.first ≠ .endCtorTask i := by
    cases task <;> nofun
  have htasks :
      tasks { s with frames, jobs := s.jobs.set t { task, begun := true } } = s.tasks := by
    apply List.ext_getElem?
    intro k
    rw [tasks, tasks, List.getElem?_map, List.getElem?_map, List.getElem?_set]
    by_cases hk : t = k
    · subst hk
      rw [if_pos rfl, if_pos hlt, hjob]
      rfl
    · rw [if_neg hk]
  refine ⟨?_, ?_, ?_, ?_, ?_, ?_⟩
  · exact List.length_set.trans hs.numbered
  · intro t' ht'
    obtain ⟨task', hjob'⟩ := hs.begun t' ht'
    rw [List.getElem?_set]
    by_cases heq : t = t'
    · subst heq
      exact ⟨task, by rw [if_pos rfl, if_pos hlt]⟩
    · exact ⟨task', by rw [if_neg heq, hjob']⟩
  · rw [htasks]
    exact hs.known_of_step hstep hstart
  · rw [htasks]
    exact hs.unique
  · rw [htasks]
    exact hs.done_of_step hstep hstart hend
  · intro j i
    have hcount : List.count { task := .await j i } (s.jobs.set t { task, begun := true })
        = List.count { task := .await j i } s.jobs - if task = .await j i then 1 else 0 := by
      rw [List.count_set hlt, hget]
      simp
    rw [hcount, ← hs.waiting]
    cases task with
    | ctor k =>
        cases hstep
        rfl
    | await j' i' =>
        have hawaits : frames.awaits = s.frames.awaits.erase (j', i') := by
          cases hstep <;> rfl
        rw [hawaits, List.count_erase]
        simp

theorem Tied.finish {w t : Nat} {task : PoolTask} (hs : s.Tied)
    (hw : s.pool.threads[w]? = some (.running t))
    (hjob : s.jobs[t]? = some { task, begun := true }) (hrest : task.rest s.frames = some frames)
    (hpool : s.pool.step (.finish w) = some p) : Tied { s with pool := p, frames } := by
  obtain ⟨henqueued, hfinished⟩ := ThreadPool.books_finish hw hpool
  have htask : s.tasks[t]? = some task := by
    rw [tasks, List.getElem?_map, hjob]
    rfl
  have hbegun : ∀ t' ∈ p.finished, ∃ task, s.jobs[t']? = some { task, begun := true } := by
    intro t' ht'
    rw [hfinished] at ht'
    rcases List.mem_append.mp ht' with ht' | ht'
    · exact hs.begun t' ht'
    · rw [List.mem_singleton.mp ht']
      exact ⟨task, hjob⟩
  cases task with
  | ctor k =>
      have hstep : s.frames.Step (.endCtorTask k) frames := Frames.step_cases hrest
      refine ⟨hs.numbered.trans henqueued.symm, hbegun, hs.known_of_step hstep nofun, hs.unique,
        ?_, ?_⟩
      · intro i t' o ht' ho
        rcases hstep.ctorTask ho with ⟨heq, _⟩ | ⟨o', ho', hdone⟩
        · cases heq
        · rw [hdone, hs.done i t' o' ht' ho', hfinished, List.mem_append, List.mem_singleton]
          apply or_congr_right
          constructor
          · intro heq
            cases heq
            exact hs.unique k t' t ht' htask
          · rintro rfl
            cases htask.symm.trans ht'
            rfl
      · intro j i
        rw [← hs.waiting]
        cases hstep
        rfl
  | await j i =>
      cases hrest
      refine ⟨hs.numbered.trans henqueued.symm, hbegun, hs.known, hs.unique, ?_, hs.waiting⟩
      intro k t' o ht' ho
      rw [hs.done k t' o ht' ho, hfinished, List.mem_append, List.mem_singleton, or_iff_left]
      rintro rfl
      cases htask.symm.trans ht'

theorem Tied.step {a : Action} (hs : s.Tied) (h : Step s a s') : s'.Tied := by
  cases h with
  | start hframes _ hpool => exact hs.start (Frames.step_cases hframes) hpool
  | suspend hframes _ hpool => exact hs.suspend (Frames.step_cases hframes) hpool
  | body hfree hframes => exact hs.body hfree (Frames.step_cases hframes)
  | pool hidle hpool => exact hs.pool hidle hpool
  | begin _ hjob hframes => exact hs.begin hjob (Frames.step_cases hframes)
  | finish hw hjob hrest hpool => exact hs.finish hw hjob hrest hpool

theorem tied_of_reachable {n : Nat} (h : (system n).Reachable s) : s.Tied := by
  apply h.induction (P := Tied)
  · exact .init n
  · intro s a s' _ hs hstep
    exact hs.step (step_cases hstep)

/-! ## No worker is stuck before its task -/

/-- A constructor's task that has not begun can begin. -/
def Ready (s : Execution) : Prop :=
  ∀ i (t : Nat), s.jobs[t]? = some { task := .ctor i } →
    s.frames.holds i (·.ctorTask = .pending) = true

theorem Ready.append {task : PoolTask} (hready : s.Ready) (hstep : s.frames.Step a frames)
    (ha : ∀ i, a ≠ .runCtorTask i)
    (hnew : ∀ i, task = .ctor i → frames.holds i (·.ctorTask = .pending) = true) :
    Ready { pool := p, frames, jobs := s.jobs ++ [{ task }] } := by
  intro i t ht
  rw [List.getElem?_append] at ht
  by_cases hlt : t < s.jobs.length
  · rw [if_pos hlt] at ht
    exact hstep.pending (ha i) (hready i t ht)
  · rw [if_neg hlt, List.getElem?_singleton] at ht
    obtain ⟨_, heq⟩ := Option.ite_none_right_eq_some.mp ht
    cases heq
    exact hnew i rfl

theorem Ready.step {a : Action} (hready : s.Ready) (hs : s.Tied) (h : Step s a s') :
    s'.Ready := by
  cases h with
  | start hframes _ _ =>
      apply hready.append (Frames.step_cases hframes) (by simp)
      intro i heq
      cases heq
      cases hframes
      simp [Frames.holds]
  | suspend hframes _ _ =>
      exact hready.append (Frames.step_cases hframes) (by simp) (by simp)
  | body hfree hframes =>
      intro i t ht
      refine (Frames.step_cases hframes).pending ?_ (hready i t ht)
      rintro rfl
      cases hfree
  | pool _ _ => exact hready
  | @begin w t₀ task _ _ hjob hframes =>
      intro i t ht
      rw [List.getElem?_set] at ht
      by_cases heq : t₀ = t
      · rw [if_pos heq] at ht
        obtain ⟨_, heq⟩ := Option.ite_none_right_eq_some.mp ht
        cases heq
      · rw [if_neg heq] at ht
        refine (Frames.step_cases hframes).pending ?_ (hready i t ht)
        -- an operation has one task, and this is not the one that begins
        intro hfirst
        cases task with
        | await _ _ => cases hfirst
        | ctor k =>
            cases hfirst
            apply heq
            apply hs.unique i
            · rw [tasks, List.getElem?_map, hjob]
              rfl
            · rw [tasks, List.getElem?_map, ht]
              rfl
  | @finish w t₀ task _ _ _ _ hrest _ =>
      intro i t ht
      cases task with
      | await _ _ =>
          cases hrest
          exact hready i t ht
      | ctor k =>
          have hstep : s.frames.Step (.endCtorTask k) _ := Frames.step_cases hrest
          exact hstep.pending (by simp) (hready i t ht)

theorem ready_of_reachable {n : Nat} (h : (system n).Reachable s) : s.Ready := by
  apply h.induction (P := Ready)
  · intro i t ht
    cases ht
  · intro s a s' hs hready hstep
    exact hready.step (tied_of_reachable hs) (step_cases hstep)

/-- A task that has not begun starts with a step the frames can take. -/
theorem first_enabled (hs : s.Tied) (hready : s.Ready) {t : Nat} {task : PoolTask}
    (hjob : s.jobs[t]? = some { task }) : ∃ frames, s.frames.step task.first = some frames := by
  cases task with
  | ctor i =>
      have hpending := hready i t hjob
      simp only [PoolTask.first, Frames.step, hpending, if_true]
      exact ⟨_, rfl⟩
  | await j i =>
      have hmem : (j, i) ∈ s.frames.awaits := by
        rw [← List.count_pos_iff, hs.waiting, List.count_pos_iff]
        exact List.mem_of_getElem? hjob
      simp only [PoolTask.first, Frames.step, hmem, if_true]
      split <;> exact ⟨_, rfl⟩

end tied

/-- A worker that has taken a task can begin it. -/
theorem begin_enabled {n : Nat} {s : Execution} (h : (system n).Reachable s) {w t : Nat}
    {job : Job} (hrunning : s.running w = some (t, job)) (hbegun : job.begun = false) :
    ∃ s', s.step (.begin w) = some s' := by
  obtain ⟨task, begun⟩ := job
  obtain rfl : begun = false := hbegun
  obtain ⟨_, hjob⟩ := running_eq_some hrunning
  obtain ⟨frames, hframes⟩ := first_enabled (tied_of_reachable h) (ready_of_reachable h) hjob
  simp only [step, hrunning, Bool.false_eq_true, if_false, hframes, Option.map_some]
  exact ⟨_, rfl⟩

/-! ## The frames when the pool is gone -/

section joined
variable {n : Nat} {s : Execution}

/-- A joined pool has finished every job. -/
theorem finished_of_joined (hn : 0 < n) (h : (system n).Reachable s)
    (hjoined : s.pool.teardown = .joined) (t : Nat) (ht : t < s.jobs.length) :
    t ∈ s.pool.finished := by
  have hpool := pool_reachable h
  have hall := (ThreadPool.tornDown_of_reachable hpool.of_guarded).joined hjoined
  have hempty := (ThreadPool.drained_of_reachable hn hpool).empty hall
  have hidle : ∀ t, s.pool.threads.count (.running t) = 0 := by
    intro t
    rw [List.count_eq_zero]
    intro hmem
    cases hall _ hmem
  have hcount := ThreadPool.finished_of_idle hpool.of_guarded hempty hidle t
  rw [if_pos ((tied_of_reachable h).numbered ▸ ht)] at hcount
  exact List.count_pos_iff.mp (by omega)

/-- So no body waits for a task. -/
theorem awaits_of_joined (hn : 0 < n) (h : (system n).Reachable s)
    (hjoined : s.pool.teardown = .joined) : s.frames.awaits = [] := by
  have hs := tied_of_reachable h
  rw [List.eq_nil_iff_forall_not_mem]
  intro e he
  obtain ⟨j, i⟩ := e
  have hcount := hs.waiting j i
  have hmem : ({ task := .await j i } : Job) ∈ s.jobs := by
    rw [← List.count_pos_iff, ← hcount, List.count_pos_iff]
    exact he
  obtain ⟨t, ht⟩ := List.mem_iff_getElem?.mp hmem
  have hfinished := finished_of_joined hn h hjoined t (List.getElem?_eq_some_iff.mp ht).1
  obtain ⟨task, hbegun⟩ := hs.begun t hfinished
  rw [ht] at hbegun
  cases hbegun

end joined

/-- **Coroutines on the pool.** Whatever the bodies, the objects, the
workers and the destructor of the pool do in whatever order, the frames
are as they are with tasks that run at any time, the pool is as it is with
any tasks, and a worker can begin every task it takes. Every operation has
one task in the pool, and its frame has been destroyed once when that task
has finished and once when its object is gone. When the pool is joined no
body waits for a task, and every frame has been destroyed, twice if its
object is gone. -/
theorem frames_on_pool (n : Nat) (hn : 0 < n) {s : Execution} (h : (system n).Reachable s) :
    Frames.system.Reachable s.frames ∧ (ThreadPool.disciplined n).Reachable s.pool ∧
    (∀ w t job, s.running w = some (t, job) → job.begun = false →
      ∃ s', s.step (.begin w) = some s') ∧
    (∀ i o, s.frames.operations[i]? = some o →
      ∃ t, (∀ t', s.tasks[t']? = some (PoolTask.ctor i) ↔ t' = t) ∧
        o.destroys = (if t ∈ s.pool.finished then 1 else 0) + (if o.object then 0 else 1)) ∧
    (s.pool.teardown = .joined → s.frames.awaits = [] ∧
      ∀ o ∈ s.frames.operations, o.destroys = if o.object then 1 else 2) := by
  have hs := tied_of_reachable h
  have howned : ∀ i o, s.frames.operations[i]? = some o →
      ∃ t, s.tasks[t]? = some (PoolTask.ctor i) ∧
        o.destroys = (if t ∈ s.pool.finished then 1 else 0) + (if o.object then 0 else 1) := by
    intro i o ho
    have hmem := (hs.known i).mpr (List.getElem?_eq_some_iff.mp ho).1
    obtain ⟨t, ht⟩ := List.mem_iff_getElem?.mp hmem
    refine ⟨t, ht, ?_⟩
    rw [Frames.destroys_eq (frames_reachable h) (List.mem_of_getElem? ho)]
    simp only [hs.done i t o ht ho]
  refine ⟨frames_reachable h, pool_reachable h, fun _ _ _ => begin_enabled h, ?_, ?_⟩
  · intro i o ho
    obtain ⟨t, ht, hdestroys⟩ := howned i o ho
    refine ⟨t, ?_, hdestroys⟩
    intro t'
    constructor
    · intro ht'
      exact hs.unique i t' t ht' ht
    · rintro rfl
      exact ht
  · intro hjoined
    refine ⟨awaits_of_joined hn h hjoined, ?_⟩
    intro o ho
    obtain ⟨i, hi⟩ := List.mem_iff_getElem?.mp ho
    obtain ⟨t, ht, hdestroys⟩ := howned i o hi
    have hlt : t < s.jobs.length := by
      have hlt := (List.getElem?_eq_some_iff.mp ht).1
      rwa [tasks, List.length_map] at hlt
    rw [hdestroys, if_pos (finished_of_joined hn h hjoined t hlt)]
    cases o.object <;> rfl

/-- One operation, its object destroyed behind its task, and the pool
joined. -/
theorem frames_on_pool_joined :
    let s : Execution :=
      { pool :=
          { threads := [.returned], stop := true, teardown := .joined, enqueued := 1,
            dequeued := [0], finished := [0] }
        frames :=
          { operations := [{ frame := .destroyed, executing := 0, destroys := 2,
                             cancelled := true, ctorTask := .done, object := false }] }
        jobs := [{ task := .ctor 0, begun := true }] }
    Frames.system.Reachable s.frames ∧ (ThreadPool.disciplined 1).Reachable s.pool ∧
    (∀ w t job, s.running w = some (t, job) → job.begun = false →
      ∃ s', s.step (.begin w) = some s') ∧
    (∀ i o, s.frames.operations[i]? = some o →
      ∃ t, (∀ t', s.tasks[t']? = some (PoolTask.ctor i) ↔ t' = t) ∧
        o.destroys = (if t ∈ s.pool.finished then 1 else 0) + (if o.object then 0 else 1)) ∧
    (s.pool.teardown = .joined → s.frames.awaits = [] ∧
      ∀ o ∈ s.frames.operations, o.destroys = if o.object then 1 else 2) :=
  frames_on_pool 1 (by decide)
    ⟨[.start none none, .body (.cancel 0), .body (.finish 0), .pool (.check 0), .begin 0,
      .finish 0, .body (.dropObject 0), .pool .stopPool, .pool .notifyAll, .pool (.check 0),
      .pool .join], rfl⟩

end Execution

end Pine
