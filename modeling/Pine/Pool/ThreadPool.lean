import Pine.Base.Transition
import Mathlib.Data.List.Basic

/-!
# Pool — ThreadPool

`thread_pool`: its worker loop, `enqueue`, and the destructor. Every
section under `queue_mutex` is one step, and the steps of all threads
interleave freely. A task is known by its number, the place of its
`enqueue` among all of them; what it does when it runs is left open, so
a running task may enqueue at any time.

`step` is the executable model and `Step` its inversion, one constructor
for each branch of the source; every invariant is proved from `Step`.
-/

namespace Pine

open Transition

/-- Where a worker stands in the loop of `start_pool`. -/
inductive Worker where
  /-- About to lock the mutex and check the predicate. -/
  | checking
  /-- In `condition.wait`, the mutex released. -/
  | blocked
  /-- Picked by a notification, the predicate not yet checked again. -/
  | notified
  | running (task : Nat)
  /-- The lambda has returned. -/
  | returned
  deriving DecidableEq, Repr

/-- What `notify_all` does to a worker. -/
def Worker.wake : Worker → Worker
  | .blocked => .notified
  | w => w

/-- How far `~thread_pool` has come. -/
inductive Teardown where
  | none
  /-- `stop_pool` is done. -/
  | stopped
  /-- `notify_all` is done. -/
  | notifiedAll
  /-- Every thread is joined. -/
  | joined
  deriving DecidableEq, Repr

/-- `pine::thread_pool`, with its history: how many tasks were enqueued,
which were taken from the queue, which have run. -/
structure ThreadPool where
  threads : List Worker
  tasks : List Nat := []
  stop : Bool := false
  teardown : Teardown := .none
  enqueued : Nat := 0
  dequeued : List Nat := []
  finished : List Nat := []
  deriving DecidableEq, Repr

namespace ThreadPool

/-- `thread_pool::start_pool`. -/
def startPool (numThreads : Nat) : ThreadPool :=
  { threads := List.replicate numThreads .checking }

def setThread (p : ThreadPool) (i : Nat) (w : Worker) : ThreadPool :=
  { p with threads := p.threads.set i w }

/-- `tasks.emplace`. -/
def emplace (p : ThreadPool) : ThreadPool :=
  { p with tasks := p.tasks ++ [p.enqueued], enqueued := p.enqueued + 1 }

/-- The locked section of the worker loop, from `condition.wait` to the
end of its block. -/
def takeTask (p : ThreadPool) (i : Nat) : ThreadPool :=
  match p.tasks with
  | [] => if p.stop then p.setThread i .returned else p.setThread i .blocked
  | task :: tasks =>
      { p.setThread i (.running task) with tasks := tasks, dequeued := p.dequeued ++ [task] }

inductive Action where
  /-- `enqueue`, called by the task a worker is running or by a thread
  outside the pool; `notify_one` wakes the worker named, if there is one
  to wake. -/
  | enqueue (caller : Option Nat) (woken : Option Nat)
  | check (i : Nat)
  | finish (i : Nat)
  | spuriousWakeup (i : Nat)
  | stopPool
  | notifyAll
  | join
  deriving DecidableEq, Repr

/-- Whether the caller can be executing: a worker only while it runs a
task, another thread at any time. -/
def canCall (p : ThreadPool) : Option Nat → Bool
  | none => true
  | some i =>
      match p.threads[i]? with
      | some (.running _) => true
      | _ => false

def step (p : ThreadPool) : Action → Option ThreadPool
  | .enqueue caller woken =>
      if p.canCall caller then
        match woken with
        | none => if .blocked ∈ p.threads then none else some p.emplace
        | some j =>
            if p.threads[j]? = some .blocked then some (p.emplace.setThread j .notified) else none
      else none
  | .check i =>
      if p.threads[i]? = some .checking ∨ p.threads[i]? = some .notified then some (p.takeTask i)
      else none
  | .finish i =>
      match p.threads[i]? with
      | some (.running task) =>
          some { p.setThread i .checking with finished := p.finished ++ [task] }
      | _ => none
  | .spuriousWakeup i =>
      if p.threads[i]? = some .blocked then some (p.setThread i .checking) else none
  | .stopPool =>
      if p.teardown = .none then some { p with stop := true, teardown := .stopped } else none
  | .notifyAll =>
      if p.teardown = .stopped then
        some { p with threads := p.threads.map Worker.wake, teardown := .notifiedAll }
      else none
  | .join =>
      if p.teardown = .notifiedAll ∧ ∀ w ∈ p.threads, w = .returned then
        some { p with teardown := .joined }
      else none

theorem running_of_canCall {p : ThreadPool} {i : Nat} (h : p.canCall (some i) = true) :
    ∃ task, p.threads[i]? = some (.running task) := by
  simp only [canCall] at h
  split at h
  · next task hi => exact ⟨task, hi⟩
  · cases h

/-- A pool of `numThreads` workers and every thread that uses it. -/
def system (numThreads : Nat) : System ThreadPool Action where
  init := startPool numThreads
  step := step

/-! ## What a step can do -/

/-- One constructor for each branch of `step`. -/
inductive Step (p : ThreadPool) : Action → ThreadPool → Prop where
  | enqueueQuiet {caller : Option Nat} :
      p.canCall caller = true → .blocked ∉ p.threads →
      Step p (.enqueue caller none) p.emplace
  | enqueueWake {caller : Option Nat} {j : Nat} :
      p.canCall caller = true → p.threads[j]? = some .blocked →
      Step p (.enqueue caller (some j)) (p.emplace.setThread j .notified)
  | take {i task : Nat} {w : Worker} {tasks : List Nat} :
      p.threads[i]? = some w → w = .checking ∨ w = .notified → p.tasks = task :: tasks →
      Step p (.check i)
        { p.setThread i (.running task) with tasks := tasks, dequeued := p.dequeued ++ [task] }
  | leave {i : Nat} {w : Worker} :
      p.threads[i]? = some w → w = .checking ∨ w = .notified → p.tasks = [] → p.stop = true →
      Step p (.check i) (p.setThread i .returned)
  | block {i : Nat} {w : Worker} :
      p.threads[i]? = some w → w = .checking ∨ w = .notified → p.tasks = [] → p.stop = false →
      Step p (.check i) (p.setThread i .blocked)
  | finish {i task : Nat} :
      p.threads[i]? = some (.running task) →
      Step p (.finish i) { p.setThread i .checking with finished := p.finished ++ [task] }
  | spuriousWakeup {i : Nat} :
      p.threads[i]? = some .blocked → Step p (.spuriousWakeup i) (p.setThread i .checking)
  | stopPool :
      p.teardown = .none → Step p .stopPool { p with stop := true, teardown := .stopped }
  | notifyAll :
      p.teardown = .stopped →
      Step p .notifyAll { p with threads := p.threads.map Worker.wake, teardown := .notifiedAll }
  | join :
      p.teardown = .notifiedAll → (∀ w ∈ p.threads, w = .returned) →
      Step p .join { p with teardown := .joined }

theorem step_takeTask {p : ThreadPool} {i : Nat} {w : Worker} (hi : p.threads[i]? = some w)
    (hw : w = .checking ∨ w = .notified) : Step p (.check i) (p.takeTask i) := by
  unfold takeTask
  split
  · next htasks =>
    split
    · next hstop => exact .leave hi hw htasks hstop
    · next hstop => exact .block hi hw htasks (Bool.eq_false_iff.mpr hstop)
  · next task tasks htasks => exact .take hi hw htasks

/-- **What a step can do.** -/
theorem step_cases {p p' : ThreadPool} {a : Action} (h : p.step a = some p') : Step p a p' := by
  cases a with
  | enqueue caller woken =>
      obtain ⟨hcaller, h⟩ := Option.ite_none_right_eq_some.mp h
      cases woken with
      | none =>
          obtain ⟨hquiet, h⟩ := Option.ite_none_left_eq_some.mp h
          cases h
          exact .enqueueQuiet hcaller hquiet
      | some j =>
          obtain ⟨hj, h⟩ := Option.ite_none_right_eq_some.mp h
          cases h
          exact .enqueueWake hcaller hj
  | check i =>
      obtain ⟨hi, h⟩ := Option.ite_none_right_eq_some.mp h
      cases h
      rcases hi with hi | hi
      · exact step_takeTask hi (.inl rfl)
      · exact step_takeTask hi (.inr rfl)
  | finish i =>
      simp only [step] at h
      split at h
      · next task hi =>
        cases h
        exact .finish hi
      · cases h
  | spuriousWakeup i =>
      obtain ⟨hi, h⟩ := Option.ite_none_right_eq_some.mp h
      cases h
      exact .spuriousWakeup hi
  | stopPool =>
      obtain ⟨hphase, h⟩ := Option.ite_none_right_eq_some.mp h
      cases h
      exact .stopPool hphase
  | notifyAll =>
      obtain ⟨hphase, h⟩ := Option.ite_none_right_eq_some.mp h
      cases h
      exact .notifyAll hphase
  | join =>
      obtain ⟨⟨hphase, hall⟩, h⟩ := Option.ite_none_right_eq_some.mp h
      cases h
      exact .join hphase hall

/-! ## Counting workers -/

/-- One worker moves from `w` to `w'`, the count of every other state
stands. -/
theorem count_set_add {threads : List Worker} {i : Nat} {w : Worker} (hi : threads[i]? = some w)
    (w' v : Worker) :
    (threads.set i w').count v + (if w = v then 1 else 0)
      = threads.count v + (if w' = v then 1 else 0) := by
  obtain ⟨hlt, hw⟩ := List.getElem?_eq_some_iff.mp hi
  rw [List.count_set hlt, hw]
  simp only [beq_iff_eq]
  by_cases hv : w = v
  · have hpos : 0 < threads.count v := by
      rw [List.count_pos_iff, ← hv]
      exact List.mem_of_getElem? hi
    rw [if_pos hv]
    omega
  · rw [if_neg hv]
    omega

end ThreadPool

end Pine
