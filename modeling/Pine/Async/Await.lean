import Pine.Async.Promise
import Pine.Base.Transition

/-!
# Async — Await

One `co_await` of an `async_operation`, against the completion of the
operation in any order. `await_ready` asks the promise for its future to
look whether the result is there, and `await_resume` asks it again to get
the result. A promise hands out one future, so the second request throws,
on the ready path and on the suspended one (`await_raises`).
-/

namespace Pine

open Transition

/-- Where the awaiting coroutine stands. -/
inductive AwaitPhase (α : Type) where
  /-- It has reached the `co_await`. -/
  | start
  /-- `await_ready` was true: `await_resume` comes next. -/
  | ready
  /-- `await_ready` was false: `await_suspend` comes next. -/
  | notReady
  /-- The task that resumes it is in the pool. -/
  | suspended
  /-- The task has resumed it: `await_resume` comes next. -/
  | resumed
  /-- The task found the operation cancelled and left it suspended. -/
  | dropped
  | delivered (result : Expected α)
  | raised (e : FutureErrc)

/-- An operation and the coroutine that awaits it. -/
structure Await (α : Type) where
  operation : PromiseType α := {}
  completed : Bool := false
  phase : AwaitPhase α := .start

namespace Await

variable {α : Type}

inductive Action where
  /-- The body ends. -/
  | complete
  | awaitReady
  | awaitSuspend
  /-- The pool runs the task of `await_suspend`. -/
  | runTask
  | awaitResume
  | cancel

/-- The promise after the future has been retrieved from it. -/
def withPromise (s : Await α) (promise : Promise α) (phase : AwaitPhase α) : Await α :=
  { s with operation := { s.operation with promise }, phase }

/-- `async_operation::await_ready`. The temporary future is destroyed, the
promise remembers that it was retrieved. -/
def awaitReady (s : Await α) : Await α :=
  match s.operation.promise.getFuture with
  | .error e => { s with phase := .raised e }
  | .ok promise => s.withPromise promise (if promise.value.isSome then .ready else .notReady)

/-- `async_operation::await_resume`, `none` while `get` blocks. -/
def awaitResume (s : Await α) : Option (Await α) :=
  match s.operation.promise.getFuture with
  | .error e => some { s with phase := .raised e }
  | .ok promise => promise.value.map fun result => s.withPromise promise (.delivered result)

/-- The body's last step. -/
def complete (ending : BodyEnd α) (s : Await α) : Option (Await α) :=
  match s.operation.complete ending with
  | .ok operation => some { s with operation, completed := true }
  | .error _ => none

def step (ending : BodyEnd α) (s : Await α) : Action → Option (Await α)
  | .complete => if s.completed then none else s.complete ending
  | .awaitReady =>
      match s.phase with
      | .start => some s.awaitReady
      | _ => none
  | .awaitSuspend =>
      match s.phase with
      | .notReady => some { s with phase := .suspended }
      | _ => none
  | .runTask =>
      match s.phase with
      | .suspended =>
          some { s with phase := if s.operation.cancelled then .dropped else .resumed }
      | _ => none
  | .awaitResume =>
      match s.phase with
      | .ready => s.awaitResume
      | .resumed => s.awaitResume
      | _ => none
  | .cancel => some { s with operation := { s.operation with cancelled := true } }

/-- One `co_await` of an operation whose body ends with `ending`. -/
def system (ending : BodyEnd α) : System (Await α) Action where
  init := {}
  step := step ending

/-! ## The future is gone -/

/-- From `await_ready` on the future is retrieved, and nothing has come of
the await but the exception of retrieving it again. -/
def Spent (s : Await α) : Prop :=
  match s.phase with
  | .start => True
  | .ready | .notReady | .suspended | .resumed => s.operation.promise.futureRetrieved = true
  | .dropped => s.operation.promise.futureRetrieved = true ∧ s.operation.cancelled = true
  | .delivered _ => False
  | .raised e => e = .futureAlreadyRetrieved

/-- The end of the body touches neither the future nor the awaiter. -/
theorem complete_frame {ending : BodyEnd α} {s s' : Await α} (h : s.complete ending = some s') :
    s'.phase = s.phase ∧ s'.operation.cancelled = s.operation.cancelled ∧
      s'.operation.promise.futureRetrieved = s.operation.promise.futureRetrieved := by
  cases ending <;>
    simp only [complete, PromiseType.complete, PromiseType.returnValue,
      PromiseType.unhandledException, Promise.setValue] at h <;>
    grind [Except.map]

theorem Spent.complete {ending : BodyEnd α} {s s' : Await α} (hs : s.Spent)
    (h : s.complete ending = some s') : s'.Spent := by
  obtain ⟨hphase, hcancelled, hretrieved⟩ := complete_frame h
  unfold Spent at hs ⊢
  rw [hphase, hcancelled, hretrieved]
  exact hs

theorem Spent.awaitReady (s : Await α) : s.awaitReady.Spent := by
  unfold Await.awaitReady Promise.getFuture
  by_cases hretrieved : s.operation.promise.futureRetrieved
  · rw [if_pos hretrieved]
    rfl
  · rw [if_neg hretrieved]
    by_cases hvalue : s.operation.promise.value.isSome
    · simp only [withPromise, Spent, hvalue, if_true]
    · simp only [withPromise, Spent, hvalue, if_false, Bool.false_eq_true]

/-- **The second retrieval throws.** -/
theorem awaitResume_raises {s : Await α} (h : s.operation.promise.futureRetrieved = true) :
    s.awaitResume = some { s with phase := .raised .futureAlreadyRetrieved } := by
  rw [awaitResume, Promise.getFuture, if_pos h]

theorem Spent.step {ending : BodyEnd α} {s s' : Await α} {a : Action} (hs : s.Spent)
    (h : step ending s a = some s') : s'.Spent := by
  cases a with
  | complete =>
      obtain ⟨_, h⟩ := Option.ite_none_left_eq_some.mp h
      exact hs.complete h
  | awaitReady =>
      simp only [Await.step] at h
      split at h
      · cases h
        exact Spent.awaitReady s
      · cases h
  | awaitSuspend =>
      simp only [Await.step] at h
      split at h
      · next hphase =>
        cases h
        simpa only [Spent, hphase] using hs
      · cases h
  | runTask =>
      simp only [Await.step] at h
      split at h
      · next hphase =>
        cases h
        simp only [Spent, hphase] at hs
        by_cases hcancelled : s.operation.cancelled
        · simpa only [Spent, hcancelled, if_true, and_true] using hs
        · simpa only [Spent, hcancelled, if_false, Bool.false_eq_true] using hs
      · cases h
  | awaitResume =>
      have hraised : s.operation.promise.futureRetrieved = true →
          s.awaitResume = some s' → s'.Spent := by
        intro hretrieved h
        rw [awaitResume_raises hretrieved] at h
        cases h
        rfl
      simp only [Await.step] at h
      split at h
      · next hphase => exact hraised (by simpa only [Spent, hphase] using hs) h
      · next hphase => exact hraised (by simpa only [Spent, hphase] using hs) h
      · cases h
  | cancel =>
      cases h
      unfold Spent at hs ⊢
      cases hphase : s.phase <;> simp_all

theorem spent_of_reachable {ending : BodyEnd α} {s : Await α} (h : (system ending).Reachable s) :
    s.Spent := by
  apply h.induction (P := Spent)
  · trivial
  · intro s a s' _ hs hstep
    exact hs.step hstep

/-! ## The await ends in the exception -/

section progress
variable {ending : BodyEnd α} {s : Await α}

/-- Some run from `s` ends with the exception in the awaiting coroutine. -/
def CanRaise (ending : BodyEnd α) (s : Await α) : Prop :=
  ∃ as t, (system ending).runFrom s as = some t ∧ t.phase = .raised .futureAlreadyRetrieved

theorem CanRaise.step {s' : Await α} {a : Action} (hstep : Await.step ending s a = some s')
    (h : CanRaise ending s') : CanRaise ending s := by
  obtain ⟨as, t, hrun, ht⟩ := h
  exact ⟨a :: as, t, System.runFrom_cons_eq_some.mpr ⟨s', hstep, hrun⟩, ht⟩

theorem canRaise_awaitResume (hretrieved : s.operation.promise.futureRetrieved = true)
    (hstep : Await.step ending s .awaitResume = s.awaitResume) : CanRaise ending s :=
  CanRaise.step (hstep.trans (awaitResume_raises hretrieved)) ⟨[], _, rfl, rfl⟩

theorem canRaise_suspended (hretrieved : s.operation.promise.futureRetrieved = true)
    (hcancelled : s.operation.cancelled = false) (hphase : s.phase = .suspended) :
    CanRaise ending s := by
  have hstep : Await.step ending s .runTask = some { s with phase := .resumed } := by
    simp only [Await.step, hphase, hcancelled, Bool.false_eq_true, if_false]
  apply CanRaise.step hstep
  exact canRaise_awaitResume hretrieved rfl

theorem canRaise_notReady (hretrieved : s.operation.promise.futureRetrieved = true)
    (hcancelled : s.operation.cancelled = false) (hphase : s.phase = .notReady) :
    CanRaise ending s := by
  have hstep : Await.step ending s .awaitSuspend = some { s with phase := .suspended } := by
    simp only [Await.step, hphase]
  apply CanRaise.step hstep
  exact canRaise_suspended hretrieved hcancelled rfl

theorem canRaise_start (hcancelled : s.operation.cancelled = false) (hphase : s.phase = .start) :
    CanRaise ending s := by
  have hstep : Await.step ending s .awaitReady = some s.awaitReady := by
    simp only [Await.step, hphase]
  apply CanRaise.step hstep
  unfold Await.awaitReady Promise.getFuture
  by_cases hretrieved : s.operation.promise.futureRetrieved
  · rw [if_pos hretrieved]
    exact ⟨[], _, rfl, rfl⟩
  · rw [if_neg hretrieved]
    by_cases hvalue : s.operation.promise.value.isSome
    · -- the ready path: no suspension, straight to `await_resume`
      simp only [withPromise, hvalue, if_true]
      exact canRaise_awaitResume rfl rfl
    · simp only [withPromise, hvalue, if_false, Bool.false_eq_true]
      exact canRaise_notReady rfl hcancelled rfl

theorem canRaise_of_spent (hs : s.Spent) (hcancelled : s.operation.cancelled = false) :
    CanRaise ending s := by
  cases hphase : s.phase with
  | start => exact canRaise_start hcancelled hphase
  | ready =>
      rw [Spent, hphase] at hs
      exact canRaise_awaitResume hs (by simp only [Await.step, hphase])
  | notReady =>
      rw [Spent, hphase] at hs
      exact canRaise_notReady hs hcancelled hphase
  | suspended =>
      rw [Spent, hphase] at hs
      exact canRaise_suspended hs hcancelled hphase
  | resumed =>
      rw [Spent, hphase] at hs
      exact canRaise_awaitResume hs (by simp only [Await.step, hphase])
  | dropped =>
      rw [Spent, hphase] at hs
      exact absurd (hcancelled.symm.trans hs.2) Bool.false_ne_true
  | delivered result =>
      rw [Spent, hphase] at hs
      exact hs.elim
  | raised e =>
      rw [Spent, hphase] at hs
      exact ⟨[], s, rfl, by rw [hphase, hs]⟩

end progress

/-- **Awaiting never delivers.** Whatever the body returns and in whatever
order things happen, no result reaches the awaiting coroutine, what
reaches it is the exception of the second `get_future`, and as long as
the operation is not cancelled that exception is still to come. -/
theorem await_raises (ending : BodyEnd α) {s : Await α} (h : (system ending).Reachable s) :
    (∀ result, s.phase ≠ .delivered result) ∧
    (∀ e, s.phase = .raised e → e = .futureAlreadyRetrieved) ∧
    (s.operation.cancelled = false → ∃ as t, (system ending).runFrom s as = some t ∧
      t.phase = .raised .futureAlreadyRetrieved) := by
  have hs := spent_of_reachable h
  refine ⟨?_, ?_, canRaise_of_spent hs⟩
  · intro result hphase
    rw [Spent, hphase] at hs
    exact hs
  · intro e hphase
    rw [Spent, hphase] at hs
    exact hs

/-- A message received before it is awaited. -/
theorem await_raises_message :
    let ending : BodyEnd Bytes := .returns (.value (bytes "GET / HTTP/1.1\r\n\r\n"))
    let s : Await Bytes :=
      { operation := { promise := { value := some ending.result, futureRetrieved := true } },
        completed := true, phase := .ready }
    (∀ result, s.phase ≠ .delivered result) ∧
    (∀ e, s.phase = .raised e → e = .futureAlreadyRetrieved) ∧
    (s.operation.cancelled = false → ∃ as t, (system ending).runFrom s as = some t ∧
      t.phase = .raised .futureAlreadyRetrieved) :=
  await_raises _ ⟨[.complete, .awaitReady], rfl⟩

/-- The await of a stored message raises. -/
theorem await_of_stored_raises :
    ¬ ∀ (ending : BodyEnd Bytes) (s : Await Bytes), (system ending).Reachable s →
      (∀ e, s.phase ≠ .raised e) ∧
        ∀ result, s.phase = .delivered result → result = ending.result := by
  intro h
  have hrun : (system (.returns (.value (bytes "x")))).Reachable
      { operation := { promise := { value := some (.ok (bytes "x")), futureRetrieved := true } },
        completed := true, phase := .raised .futureAlreadyRetrieved } :=
    ⟨[.complete, .awaitReady, .awaitResume], rfl⟩
  exact (h _ _ hrun).1 _ rfl

end Await

end Pine
