import Pine.Async.Frames
import Pine.Pool.Quiescence

/-!
# Async — Execution

Coroutines on the thread pool. The constructor of an `async_operation` and
`await_suspend` enqueue a task each; a worker that takes one calls `resume`
on a frame, and for the constructor's task `destroy` when that call has
returned. The two systems are run together: every step here is a step of
the frames, of the pool, or of both at once, so what holds of each holds
here (`framesSimulation`, `poolSimulation`).
-/

namespace Pine

open Transition

/-- What a task of the pool does. -/
inductive PoolTask where
  /-- The constructor's, of operation `i`. -/
  | ctor (i : Nat)
  /-- That of `await_suspend`: the body of `i` awaits `j`. -/
  | await (j i : Nat)
  deriving DecidableEq, Repr

/-- A task, and whether a worker has made its call of `resume`, or passed
it by. -/
structure Job where
  task : PoolTask
  begun : Bool := false
  deriving DecidableEq, Repr

/-- The step of the frames that a task starts with. -/
def PoolTask.first : PoolTask → Frames.Action
  | .ctor i => .runCtorTask i
  | .await j i => .runAwaitTask j i

/-- What is left of a task behind its call of `resume`. -/
def PoolTask.rest (frames : Frames) : PoolTask → Option Frames
  | .ctor i => frames.step (.endCtorTask i)
  | .await _ _ => some frames

/-- Steps of bodies and objects that no task of the pool is needed for. -/
def Frames.Action.free : Frames.Action → Bool
  | .finish _ => true
  | .dropObject _ => true
  | .cancel _ => true
  | _ => false

/-- Steps of the pool in which no task comes or goes. -/
def ThreadPool.Action.idle : ThreadPool.Action → Bool
  | .enqueue _ _ => false
  | .finish _ => false
  | _ => true

/-- The pool, the frames, and what each task is, by its number. -/
structure Execution where
  pool : ThreadPool
  frames : Frames := {}
  jobs : List Job := []
  deriving DecidableEq, Repr

namespace Execution

inductive Action where
  /-- A coroutine is called, and its constructor enqueues its task. -/
  | start (caller woken : Option Nat)
  /-- The body of `i` suspends at a `co_await` of `j`, and `await_suspend`
  enqueues its task. -/
  | suspend (i j : Nat) (caller woken : Option Nat)
  | body (a : Frames.Action)
  | pool (a : ThreadPool.Action)
  /-- A worker makes the call of `resume` of its task. -/
  | begin (w : Nat)
  /-- The call has returned, and the worker ends its task. -/
  | finish (w : Nat)
  deriving DecidableEq, Repr

/-- `thread_pool::enqueue`, from outside the pool before `stop_pool`
only. -/
def enqueue (s : Execution) (caller woken : Option Nat) (task : PoolTask) (frames : Frames) :
    Option Execution :=
  if s.pool.beforeStop (.enqueue caller woken) then
    (s.pool.step (.enqueue caller woken)).map fun pool =>
      { pool, frames, jobs := s.jobs ++ [{ task }] }
  else none

/-- The task that a worker is running, with its number. -/
def running (s : Execution) (w : Nat) : Option (Nat × Job) :=
  match s.pool.threads[w]? with
  | some (.running t) => s.jobs[t]?.map fun job => (t, job)
  | _ => none

/-- A call of `resume` may return at any time, when the body leaves the
thread; that of the constructor's task is followed by its `destroy`. -/
def step (s : Execution) : Action → Option Execution
  | .start caller woken =>
      (s.frames.step .start).bind fun frames =>
        s.enqueue caller woken (.ctor s.frames.operations.length) frames
  | .suspend i j caller woken =>
      (s.frames.step (.suspend i j)).bind fun frames =>
        s.enqueue caller woken (.await j i) frames
  | .body a => if a.free then (s.frames.step a).map fun frames => { s with frames } else none
  | .pool a => if a.idle then (s.pool.step a).map fun pool => { s with pool } else none
  | .begin w =>
      match s.running w with
      | some (t, job) =>
          if job.begun then none
          else (s.frames.step job.task.first).map fun frames =>
            { s with frames, jobs := s.jobs.set t { job with begun := true } }
      | none => none
  | .finish w =>
      match s.running w with
      | some (_, job) =>
          if job.begun then
            (job.task.rest s.frames).bind fun frames =>
              (s.pool.step (.finish w)).map fun pool => { s with pool, frames }
          else none
      | none => none

/-- No coroutine yet, and a pool of `numThreads` workers. -/
def system (numThreads : Nat) : System Execution Action where
  init := { pool := ThreadPool.startPool numThreads }
  step := step

/-! ## What a step can do -/

section step
variable {s s' : Execution}

/-- One constructor for each branch of `step`. -/
inductive Step (s : Execution) : Action → Execution → Prop where
  | start {caller woken : Option Nat} {frames : Frames} {pool : ThreadPool} :
      s.frames.step .start = some frames →
      s.pool.beforeStop (.enqueue caller woken) = true →
      s.pool.step (.enqueue caller woken) = some pool →
      Step s (.start caller woken)
        { pool, frames, jobs := s.jobs ++ [{ task := .ctor s.frames.operations.length }] }
  | suspend {i j : Nat} {caller woken : Option Nat} {frames : Frames} {pool : ThreadPool} :
      s.frames.step (.suspend i j) = some frames →
      s.pool.beforeStop (.enqueue caller woken) = true →
      s.pool.step (.enqueue caller woken) = some pool →
      Step s (.suspend i j caller woken)
        { pool, frames, jobs := s.jobs ++ [{ task := .await j i }] }
  | body {a : Frames.Action} {frames : Frames} :
      a.free = true → s.frames.step a = some frames → Step s (.body a) { s with frames }
  | pool {a : ThreadPool.Action} {pool : ThreadPool} :
      a.idle = true → s.pool.step a = some pool → Step s (.pool a) { s with pool }
  | begin {w t : Nat} {task : PoolTask} {frames : Frames} :
      s.pool.threads[w]? = some (.running t) → s.jobs[t]? = some { task } →
      s.frames.step task.first = some frames →
      Step s (.begin w) { s with frames, jobs := s.jobs.set t { task, begun := true } }
  | finish {w t : Nat} {task : PoolTask} {frames : Frames} {pool : ThreadPool} :
      s.pool.threads[w]? = some (.running t) → s.jobs[t]? = some { task, begun := true } →
      task.rest s.frames = some frames → s.pool.step (.finish w) = some pool →
      Step s (.finish w) { s with pool, frames }

theorem running_eq_some {w t : Nat} {job : Job} (h : s.running w = some (t, job)) :
    s.pool.threads[w]? = some (.running t) ∧ s.jobs[t]? = some job := by
  unfold running at h
  split at h
  · next t' hw =>
    obtain ⟨job', hjob, heq⟩ := Option.map_eq_some_iff.mp h
    cases heq
    exact ⟨hw, hjob⟩
  · cases h

theorem enqueue_eq_some {caller woken : Option Nat} {task : PoolTask} {frames : Frames}
    (h : s.enqueue caller woken task frames = some s') :
    s.pool.beforeStop (.enqueue caller woken) = true ∧
      ∃ pool, s.pool.step (.enqueue caller woken) = some pool ∧
        s' = { pool, frames, jobs := s.jobs ++ [{ task }] } := by
  obtain ⟨hbefore, h⟩ := Option.ite_none_right_eq_some.mp h
  obtain ⟨pool, hpool, heq⟩ := Option.map_eq_some_iff.mp h
  exact ⟨hbefore, pool, hpool, heq.symm⟩

/-- **What a step can do.** -/
theorem step_cases {a : Action} (h : s.step a = some s') : Step s a s' := by
  cases a with
  | start caller woken =>
      simp only [step] at h
      obtain ⟨frames, hframes, h⟩ := Option.bind_eq_some_iff.mp h
      obtain ⟨hbefore, pool, hpool, rfl⟩ := enqueue_eq_some h
      exact .start hframes hbefore hpool
  | suspend i j caller woken =>
      simp only [step] at h
      obtain ⟨frames, hframes, h⟩ := Option.bind_eq_some_iff.mp h
      obtain ⟨hbefore, pool, hpool, rfl⟩ := enqueue_eq_some h
      exact .suspend hframes hbefore hpool
  | body a =>
      obtain ⟨hfree, h⟩ := Option.ite_none_right_eq_some.mp h
      obtain ⟨frames, hframes, rfl⟩ := Option.map_eq_some_iff.mp h
      exact .body hfree hframes
  | pool a =>
      obtain ⟨hidle, h⟩ := Option.ite_none_right_eq_some.mp h
      obtain ⟨pool, hpool, rfl⟩ := Option.map_eq_some_iff.mp h
      exact .pool hidle hpool
  | begin w =>
      simp only [step] at h
      split at h
      · next t job hrunning =>
        obtain ⟨hw, hjob⟩ := running_eq_some hrunning
        obtain ⟨hbegun, h⟩ := Option.ite_none_left_eq_some.mp h
        obtain ⟨frames, hframes, rfl⟩ := Option.map_eq_some_iff.mp h
        obtain ⟨task, begun⟩ := job
        obtain rfl : begun = false := Bool.eq_false_iff.mpr hbegun
        exact .begin hw hjob hframes
      · cases h
  | finish w =>
      simp only [step] at h
      split at h
      · next t job hrunning =>
        obtain ⟨hw, hjob⟩ := running_eq_some hrunning
        obtain ⟨hbegun, h⟩ := Option.ite_none_right_eq_some.mp h
        obtain ⟨frames, hframes, h⟩ := Option.bind_eq_some_iff.mp h
        obtain ⟨pool, hpool, rfl⟩ := Option.map_eq_some_iff.mp h
        obtain ⟨task, begun⟩ := job
        obtain rfl : begun = true := hbegun
        exact .finish hw hjob hframes hpool
      · cases h

end step

/-! ## Both systems are here -/

theorem framesSimulation (n : Nat) :
    Simulation (system n) Frames.system fun s frames => s.frames = frames where
  init := rfl
  step s a s' frames hrel hstep := by
    subst hrel
    cases step_cases hstep with
    | start hframes _ _ => exact .inr ⟨.start, _, hframes, rfl⟩
    | @suspend i j _ _ _ _ hframes _ _ => exact .inr ⟨.suspend i j, _, hframes, rfl⟩
    | @body a _ _ hframes => exact .inr ⟨a, _, hframes, rfl⟩
    | pool _ _ => exact .inl rfl
    | @begin _ _ task _ _ _ hframes => exact .inr ⟨task.first, _, hframes, rfl⟩
    | @finish _ _ task _ _ _ _ hrest _ =>
        cases task with
        | ctor i => exact .inr ⟨.endCtorTask i, _, hrest, rfl⟩
        | await j i =>
            cases hrest
            exact .inl rfl

theorem poolSimulation (n : Nat) :
    Simulation (system n) (ThreadPool.disciplined n) fun s pool => s.pool = pool where
  init := rfl
  step s a s' pool hrel hstep := by
    subst hrel
    cases step_cases hstep with
    | start _ hbefore hpool =>
        exact .inr ⟨_, _, System.guarded_step_eq_some.mpr ⟨hbefore, hpool⟩, rfl⟩
    | suspend _ hbefore hpool =>
        exact .inr ⟨_, _, System.guarded_step_eq_some.mpr ⟨hbefore, hpool⟩, rfl⟩
    | body _ _ => exact .inl rfl
    | @pool a pool' hidle hpool =>
        have hbefore : s.pool.beforeStop a = true := by
          cases a <;> first | rfl | cases hidle
        exact .inr ⟨a, pool', System.guarded_step_eq_some.mpr ⟨hbefore, hpool⟩, rfl⟩
    | begin _ _ _ => exact .inl rfl
    | @finish w t task frames pool' _ _ _ hpool =>
        exact .inr ⟨.finish w, pool', System.guarded_step_eq_some.mpr ⟨rfl, hpool⟩, rfl⟩

section reachable
variable {n : Nat} {s : Execution}

theorem frames_reachable (h : (system n).Reachable s) : Frames.system.Reachable s.frames := by
  obtain ⟨frames, hframes, rfl⟩ := (framesSimulation n).reachable h
  exact hframes

theorem pool_reachable (h : (system n).Reachable s) :
    (ThreadPool.disciplined n).Reachable s.pool := by
  obtain ⟨pool, hpool, rfl⟩ := (poolSimulation n).reachable h
  exact hpool

end reachable

end Execution

/-! ## What a step leaves of the books -/

namespace Frames

variable {s s' : Frames} {a : Action}

/-- An operation behind a change of one. -/
theorem getElem?_modify_cases {i k : Nat} {f : Operation → Operation} {o' : Operation}
    (h : (s.modify i f).operations[k]? = some o') :
    ∃ o, s.operations[k]? = some o ∧ (i = k ∧ o' = f o ∨ i ≠ k ∧ o' = o) := by
  simp only [modify, List.getElem?_modify, Option.map_eq_map] at h
  obtain ⟨o, ho, heq⟩ := Option.map_eq_some_iff.mp h
  by_cases hik : i = k
  · rw [if_pos hik] at heq
    exact ⟨o, ho, .inl ⟨hik, heq.symm⟩⟩
  · rw [if_neg hik] at heq
    exact ⟨o, ho, .inr ⟨hik, heq.symm⟩⟩

/-- A change of one operation that does not end its constructor's task. -/
theorem ctorTask_modify {i k : Nat} {f : Operation → Operation} {o' : Operation}
    (hf : ∀ o, s.operations[i]? = some o → ((f o).ctorTask = .done ↔ o.ctorTask = .done))
    (h : (s.modify i f).operations[k]? = some o') :
    ∃ o, s.operations[k]? = some o ∧ (o'.ctorTask = .done ↔ o.ctorTask = .done) := by
  obtain ⟨o, ho, hcase⟩ := getElem?_modify_cases h
  rcases hcase with ⟨rfl, rfl⟩ | ⟨_, rfl⟩
  · exact ⟨o, ho, hf o ho⟩
  · exact ⟨_, ho, Iff.rfl⟩

theorem leave_done (o : Operation) (frame : Frame) :
    (o.leave frame).ctorTask = .done ↔ o.ctorTask = .done := by
  unfold Operation.leave
  by_cases htask : o.ctorTask = .inResume
  · simp [htask]
  · simp [htask]

/-- **The constructor's task of an operation is done** by its own last
step. -/
theorem Step.ctorTask {k : Nat} {o' : Operation} (h : Step s a s')
    (ho' : s'.operations[k]? = some o') :
    (a = .start ∧ k = s.operations.length ∧ o'.ctorTask = .pending) ∨
    ∃ o, s.operations[k]? = some o ∧
      (o'.ctorTask = .done ↔ o.ctorTask = .done ∨ a = .endCtorTask k) := by
  have hother : a ≠ .endCtorTask k →
      (∃ o, s.operations[k]? = some o ∧ (o'.ctorTask = .done ↔ o.ctorTask = .done)) →
      ∃ o, s.operations[k]? = some o ∧
        (o'.ctorTask = .done ↔ o.ctorTask = .done ∨ a = .endCtorTask k) := by
    intro hne hsame
    obtain ⟨o, ho, hdone⟩ := hsame
    exact ⟨o, ho, hdone.trans (or_iff_left hne).symm⟩
  cases h with
  | start =>
      rw [List.getElem?_append] at ho'
      by_cases hlt : k < s.operations.length
      · rw [if_pos hlt] at ho'
        exact .inr (hother nofun ⟨o', ho', Iff.rfl⟩)
      · rw [if_neg hlt] at ho'
        rw [List.getElem?_singleton] at ho'
        obtain ⟨hk, hnew⟩ := Option.ite_none_right_eq_some.mp ho'
        cases hnew
        exact .inl ⟨rfl, by omega, rfl⟩
  | suspend _ _ => exact .inr (hother nofun (ctorTask_modify (fun o _ => leave_done o _) ho'))
  | finish _ => exact .inr (hother nofun (ctorTask_modify (fun o _ => leave_done o _) ho'))
  | runCtorTask hi =>
      refine .inr (hother nofun (ctorTask_modify ?_ ho'))
      intro o ho
      have hpending : o.ctorTask = .pending := of_decide_eq_true (holds_apply hi ho)
      unfold Operation.startCtorTask
      split <;> simp [hpending]
  | endCtorTask hi =>
      obtain ⟨o, ho, hcase⟩ := getElem?_modify_cases ho'
      refine .inr ⟨o, ho, ?_⟩
      rcases hcase with ⟨rfl, rfl⟩ | ⟨hne, rfl⟩
      · exact iff_of_true rfl (.inr rfl)
      · exact (or_iff_left fun heq => hne (Action.endCtorTask.inj heq)).symm
  | skipResume _ _ => exact .inr (hother nofun ⟨o', ho', Iff.rfl⟩)
  | resume _ _ =>
      exact .inr (hother nofun
        (ctorTask_modify (f := Operation.resume) (fun _ _ => Iff.rfl) ho'))
  | dropObject _ =>
      exact .inr (hother nofun
        (ctorTask_modify (f := Operation.dropObject) (fun _ _ => Iff.rfl) ho'))
  | cancel _ =>
      exact .inr (hother nofun
        (ctorTask_modify (f := Operation.cancel) (fun _ _ => Iff.rfl) ho'))

theorem pending_modify {i k : Nat} {f : Operation → Operation} {o : Operation}
    (hf : i = k → (f o).ctorTask = o.ctorTask) (ho : s.operations[k]? = some o)
    (hpending : o.ctorTask = .pending) :
    (s.modify i f).holds k (·.ctorTask = .pending) = true := by
  simp only [holds, modify, List.getElem?_modify, Option.map_eq_map, ho, Option.map_some,
    Option.any_some, decide_eq_true_eq]
  by_cases hik : i = k
  · rw [if_pos hik, hf hik]
    exact hpending
  · rw [if_neg hik]
    exact hpending

/-- A constructor's task that no worker has begun stays so until one
does. -/
theorem Step.pending {k : Nat} (h : Step s a s') (ha : a ≠ .runCtorTask k)
    (hk : s.holds k (·.ctorTask = .pending) = true) :
    s'.holds k (·.ctorTask = .pending) = true := by
  obtain ⟨o, ho, hp⟩ := (Option.any_eq_true _ _).mp hk
  have hpending : o.ctorTask = .pending := of_decide_eq_true hp
  have hleave : ∀ frame, (o.leave frame).ctorTask = o.ctorTask := by
    intro frame
    simp [Operation.leave, hpending]
  cases h with
  | start =>
      rw [holds, List.getElem?_append_left (List.getElem?_eq_some_iff.mp ho).1]
      exact hk
  | suspend _ _ => exact pending_modify (fun _ => hleave _) ho hpending
  | finish _ => exact pending_modify (fun _ => hleave _) ho hpending
  | runCtorTask _ =>
      exact pending_modify (fun heq => absurd (congrArg Action.runCtorTask heq) ha) ho hpending
  | endCtorTask hi =>
      refine pending_modify ?_ ho hpending
      rintro rfl
      have hreturned : o.ctorTask = .returned := of_decide_eq_true (holds_apply hi ho)
      rw [hpending] at hreturned
      cases hreturned
  | skipResume _ _ => exact hk
  | resume _ _ => exact pending_modify (f := Operation.resume) (fun _ => rfl) ho hpending
  | dropObject _ => exact pending_modify (f := Operation.dropObject) (fun _ => rfl) ho hpending
  | cancel _ => exact pending_modify (f := Operation.cancel) (fun _ => rfl) ho hpending

/-- Operations are added by `start` alone. -/
theorem Step.length_operations (h : Step s a s') :
    s'.operations.length = s.operations.length + if a = .start then 1 else 0 := by
  cases h <;> simp [modify]

end Frames

namespace ThreadPool

variable {p p' : ThreadPool}

theorem books_enqueue {caller woken : Option Nat}
    (h : p.step (.enqueue caller woken) = some p') :
    p'.enqueued = p.enqueued + 1 ∧ p'.finished = p.finished := by
  cases step_cases h with
  | enqueueQuiet _ _ => exact ⟨rfl, rfl⟩
  | enqueueWake _ _ => exact ⟨rfl, rfl⟩

theorem books_idle {a : Action} (hidle : a.idle = true) (h : p.step a = some p') :
    p'.enqueued = p.enqueued ∧ p'.finished = p.finished := by
  cases step_cases h with
  | enqueueQuiet _ _ => cases hidle
  | enqueueWake _ _ => cases hidle
  | finish _ => cases hidle
  | take _ _ _ => exact ⟨rfl, rfl⟩
  | leave _ _ _ _ => exact ⟨rfl, rfl⟩
  | block _ _ _ _ => exact ⟨rfl, rfl⟩
  | spuriousWakeup _ => exact ⟨rfl, rfl⟩
  | stopPool _ => exact ⟨rfl, rfl⟩
  | notifyAll _ => exact ⟨rfl, rfl⟩
  | join _ _ => exact ⟨rfl, rfl⟩

theorem books_finish {w t : Nat} (hw : p.threads[w]? = some (.running t))
    (h : p.step (.finish w) = some p') :
    p'.enqueued = p.enqueued ∧ p'.finished = p.finished ++ [t] := by
  simp only [step, hw] at h
  cases h
  exact ⟨rfl, rfl⟩

end ThreadPool

end Pine
