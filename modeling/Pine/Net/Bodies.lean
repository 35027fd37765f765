import Pine.Async.Await
import Pine.Async.Frames
import Pine.Net.Sending
import Pine.Net.Consumers

/-!
# Net — Bodies

The coroutines that await another one: `receive_request` and
`send_response` of the server, `receive_response` and `send_request` of
the client, and the loops of `start` and `listen`. Each is what it does
with the result of its `co_await`. The modules on messages hand it that
result; here it is awaited as `coroutine.h` has it, beside the task of the
constructor, which may resume the body and then destroys its frame. Then
the loops never come round, and whatever the body would have returned,
what it publishes is `operation_canceled`, or nothing if its frame goes
first (`body_publishes_canceled`).
-/

namespace Pine

open Transition

/-- A coroutine by what it does with the result of its `co_await`: it
ends, or the loop around the `co_await` goes on (`none`). -/
structure Coroutine (β α : Type) where
  resume : Expected β → Option (BodyEnd α)

namespace Coroutine

/-- `server_connection::receive_request`, behind its `co_await`. -/
def receiveRequest : Coroutine Bytes HttpRequest where
  resume
    | .error e => some (.returns (.error e))
    | .ok text => some (requestOf text)

/-- `client_connection::receive_response`. -/
def receiveResponse : Coroutine Bytes HttpResponse where
  resume
    | .error e => some (.returns (.error e))
    | .ok text => some (responseOf text)

/-- `server_connection::send_response`. -/
def sendResponse : Coroutine Unit Unit where
  resume
    | .error e => some (.returns (.error e))
    | .ok () => some (.returns (.error (makeErrorCode .success)))

/-- `client_connection::send_request`. -/
def sendRequest : Coroutine Unit Unit where
  resume
    | .error e => some (.returns (.error e))
    | .ok () => some (.returns (.error ⟨0, .system⟩))

/-- `server_connection::start`, which is over when a request fails. -/
def start : Coroutine HttpRequest Unit where
  resume
    | .error e => some (.returns (.error e))
    | .ok _ => none

/-- `client_connection::listen`. -/
def listen : Coroutine Bytes Unit where
  resume
    | .error e => some (.returns (.error e))
    | .ok _ => none

/-! ## The bodies where the result is handed over -/

/-- A receive, in which the body gets what `receive_raw_message` returned. -/
theorem receiveRequest_deliver (calls : List Recv) :
    Pine.receiveRequest calls = (receiveRawMessage calls).bind fun r =>
      (receiveRequest.resume r.1.result).map fun ending => (ending, r.2) := by
  rw [Consumers.receiveRequest_eq]
  cases receiveRawMessage calls with
  | none => rfl
  | some r =>
      simp only [Option.map_some, Option.bind_some, Consumers.Side.ending, receiveRequest]
      cases r.1.result <;> rfl

theorem receiveResponse_deliver (calls : List Recv) :
    Pine.receiveResponse calls = (receiveRawMessage calls).bind fun r =>
      (receiveResponse.resume r.1.result).map fun ending => (ending, r.2) := by
  rw [Consumers.receiveResponse_eq]
  cases receiveRawMessage calls with
  | none => rfl
  | some r =>
      simp only [Option.map_some, Option.bind_some, Consumers.Side.ending, receiveResponse]
      cases r.1.result <;> rfl

/-- A send, in which the body gets what `send_raw_message` published. -/
theorem sendResponse_deliver (response : HttpResponse) (call : Send) :
    sendResponse.resume (sendRawMessage response.toString call).result
      = some (.returns (Pine.sendResponse response call)) := by
  unfold Pine.sendResponse
  cases (sendRawMessage response.toString call).result <;> rfl

theorem sendRequest_deliver (request : HttpRequest) (call : Send) :
    sendRequest.resume (sendRawMessage request.toString call).result
      = some (.returns (Pine.sendRequest request call)) := by
  unfold Pine.sendRequest
  cases (sendRawMessage request.toString call).result <;> rfl

/-- The loop of `start` goes on behind what `receive_request` returned. -/
theorem start_deliver (received : CoReturn Bytes) :
    Consumers.server.listensOn received
      = (start.resume (Consumers.server.ending received).result).isNone := by
  simp only [Consumers.server, Consumers.Side.ending]
  cases received.result with
  | error e => rfl
  | ok text => cases h : (requestOf text).result <;> simp only [h] <;> rfl

/-- The loop of `listen` goes on behind what `receive_raw_message`
returned. -/
theorem listen_deliver (received : CoReturn Bytes) :
    Consumers.client.listensOn received = (listen.resume received.result).isNone := by
  simp only [Consumers.client]
  cases received.result <;> rfl

end Coroutine

/-! ## The bodies with the await of the library -/

/-- Whether the coroutine is suspended at its `co_await`. -/
def Await.parked {β : Type} (s : Await β) : Bool :=
  match s.phase with
  | .suspended => true
  | .dropped => true
  | _ => false

/-- An operation whose body awaits. -/
structure Awaiting (β α : Type) where
  /-- The `co_await` the body is at, and the operation it awaits. -/
  inner : Await β := {}
  /-- How many operations the body has called so far. -/
  calls : Nat := 1
  outer : PromiseType α := {}
  ended : Bool := false
  /-- The task that the constructor of the outer operation enqueued. -/
  ctorTask : CtorTask := .pending
  /-- Whether the frame of the body is destroyed. -/
  destroyed : Bool := false

namespace Awaiting

variable {β α : Type}

inductive Action where
  /-- A step of the await or of the operation awaited. -/
  | inner (a : Await.Action)
  /-- The pool runs the constructor's task, up to its `destroy`. -/
  | runCtorTask
  | endCtorTask
  /-- The object of the outer operation is destroyed, and the frame with
  it. -/
  | dropObject
  /-- The body goes on with what `await_resume` returned, or the exception
  leaves it. -/
  | proceed
  /-- The outer operation is cancelled. -/
  | cancel

/-- The error of an exception that left the body. -/
def canceled : Expected α := .error (makeErrcCode errcOperationCanceled)

/-- The call of `resume` that the constructor's task made returns when
the body is suspended again or has ended. -/
def settle (s : Awaiting β α) : Awaiting β α :=
  if s.ctorTask = .inResume ∧ (s.inner.parked ∨ s.ended) then { s with ctorTask := .returned }
  else s

/-- The body ends. -/
def finish (s : Awaiting β α) (ending : BodyEnd α) : Option (Awaiting β α) :=
  match s.outer.complete ending with
  | .ok outer => some { s with outer, ended := true }
  | .error _ => none

/-- An exception has left the body. -/
def interrupted (s : Awaiting β α) : Awaiting β α :=
  { s with
    outer := { s.outer with promise := { s.outer.promise with value := some canceled } }
    ended := true }

/-- The body is behind its `co_await`. -/
def proceed (co : Coroutine β α) (s : Awaiting β α) : Option (Awaiting β α) :=
  match s.inner.phase with
  | .raised _ => s.finish .throws
  | .delivered result =>
      match co.resume result with
      | none => some { s with inner := {}, calls := s.calls + 1 }
      | some ending => s.finish ending
  | _ => none

/-- The first half of the constructor's task. -/
def startCtorTask (s : Awaiting β α) : Awaiting β α :=
  if s.outer.cancelled then { s with ctorTask := .returned }
  else { s with inner := { s.inner with phase := .resumed }, ctorTask := .inResume }

/-- Whether a step calls `resume` on the frame of the body. -/
def resumes (s : Awaiting β α) : Action → Bool
  | .inner .runTask => !s.inner.operation.cancelled
  | .runCtorTask => !s.outer.cancelled
  | _ => false

/-- Whether it calls `destroy`. -/
def Action.destroys : Action → Bool
  | .endCtorTask => true
  | .dropObject => true
  | _ => false

/-- Steps that the language gives a meaning to: `resume` of a suspended
body and `destroy` of one that is suspended or has ended, before the frame
is gone. -/
def defined (s : Awaiting β α) (a : Action) : Bool :=
  (!s.resumes a || (s.inner.parked && !s.destroyed)) &&
    (!a.destroys || ((s.inner.parked || s.ended) && !s.destroyed))

/-- What a step does. The task of `await_suspend` that is in the pool when
the constructor's task resumes the body is not kept: it would resume a
body that is not suspended, or find the operation cancelled and do
nothing. -/
def advance (co : Coroutine β α) (endings : Nat → BodyEnd β) (s : Awaiting β α) :
    Action → Option (Awaiting β α)
  | .inner a =>
      (Await.step (endings s.calls) s.inner a).map fun inner => settle { s with inner }
  | .runCtorTask => if s.ctorTask = .pending then some s.startCtorTask else none
  | .endCtorTask =>
      if s.ctorTask = .returned then some { s with ctorTask := .done, destroyed := true }
      else none
  | .dropObject => some { s with destroyed := true }
  | .proceed => if s.ended then none else (s.proceed co).map settle
  | .cancel => some { s with outer := { s.outer with cancelled := true } }

def step (co : Coroutine β α) (endings : Nat → BodyEnd β) (s : Awaiting β α) (a : Action) :
    Option (Awaiting β α) :=
  if s.defined a then s.advance co endings a else none

/-- An operation with the body `co`, whose `n`-th call of another ends with
`endings n`. -/
def system (co : Coroutine β α) (endings : Nat → BodyEnd β) : System (Awaiting β α) Action where
  init := {}
  step := step co endings

section defined
variable {s : Awaiting β α} {a : Action}

theorem resume_defined (h : s.defined a = true) (ha : s.resumes a = true) :
    s.inner.parked = true ∧ s.destroyed = false := by
  simp only [defined, Bool.and_eq_true, Bool.or_eq_true, Bool.not_eq_true'] at h
  exact h.1.resolve_left (by simp [ha])

/-- Nobody resumes a frame that is gone. -/
theorem not_destroyed_of_resumes (h : s.defined a = true) (ha : s.resumes a = true) :
    ¬ s.destroyed = true :=
  Bool.eq_false_iff.mp (resume_defined h ha).2

theorem destroy_defined (h : s.defined a = true) (ha : a.destroys = true) :
    (s.inner.parked = true ∨ s.ended = true) ∧ s.destroyed = false := by
  simp only [defined, Bool.and_eq_true, Bool.or_eq_true, Bool.not_eq_true'] at h
  exact h.2.resolve_left (by simp [ha])

end defined

/-! ## What becomes of the constructor's task touches nothing else -/

section settle
variable (s : Awaiting β α)

theorem settle_cases : s.settle = s ∨ s.settle = { s with ctorTask := .returned } := by
  unfold settle
  split
  · exact .inr rfl
  · exact .inl rfl

@[simp] theorem settle_inner : s.settle.inner = s.inner := by
  rcases s.settle_cases with h | h <;> rw [h]

@[simp] theorem settle_calls : s.settle.calls = s.calls := by
  rcases s.settle_cases with h | h <;> rw [h]

@[simp] theorem settle_outer : s.settle.outer = s.outer := by
  rcases s.settle_cases with h | h <;> rw [h]

@[simp] theorem settle_ended : s.settle.ended = s.ended := by
  rcases s.settle_cases with h | h <;> rw [h]

@[simp] theorem settle_destroyed : s.settle.destroyed = s.destroyed := by
  rcases s.settle_cases with h | h <;> rw [h]

end settle

end Awaiting

/-! ## The body gets no result -/

namespace Await

variable {β : Type} {s s' : Await β}

/-- A suspended coroutine has asked for the future. -/
theorem Spent.retrieved (hs : s.Spent) (h : s.parked = true) :
    s.operation.promise.futureRetrieved = true := by
  unfold parked at h
  unfold Spent at hs
  split at h
  · next hphase => simpa only [hphase] using hs
  · next hphase =>
    rw [hphase] at hs
    exact hs.1
  · cases h

/-- It stays suspended, but for the task that resumes it. -/
theorem parked_step {ending : BodyEnd β} {a : Action} (hparked : s.parked = true)
    (h : step ending s a = some s') :
    s'.parked = true ∨ a = .runTask ∧ s.operation.cancelled = false := by
  have hphase : s.phase = .suspended ∨ s.phase = .dropped := by
    unfold parked at hparked
    split at hparked
    · next hphase => exact .inl hphase
    · next hphase => exact .inr hphase
    · cases hparked
  cases a with
  | complete =>
      obtain ⟨_, h⟩ := Option.ite_none_left_eq_some.mp h
      left
      rwa [parked, (complete_frame h).1]
  | runTask =>
      by_cases hcancelled : s.operation.cancelled
      · left
        rcases hphase with hphase | hphase
        · simp only [step, hphase, hcancelled, if_true] at h
          cases h
          rfl
        · simp only [step, hphase] at h
          cases h
      · exact .inr ⟨rfl, Bool.eq_false_iff.mpr hcancelled⟩
  | cancel =>
      cases h
      exact .inl hparked
  | awaitReady | awaitSuspend | awaitResume =>
      rcases hphase with hphase | hphase <;> simp only [step, hphase] at h <;> cases h

end Await

namespace Awaiting

variable {β α : Type}

/-- The body has called one operation, nothing comes of it but the
exception, and the frame goes only while no thread is in it. -/
structure Doomed (s : Awaiting β α) : Prop where
  spent : s.inner.Spent
  once : s.calls = 1
  published : s.outer.promise.value = if s.ended then some canceled else none
  gone : s.destroyed = true → s.inner.parked = true ∨ s.ended = true

theorem Doomed.init : Doomed ({} : Awaiting β α) := ⟨trivial, rfl, rfl, nofun⟩

theorem Doomed.settle {s : Awaiting β α} (hs : s.Doomed) : s.settle.Doomed := by
  refine ⟨?_, ?_, ?_, ?_⟩
  · simpa using hs.spent
  · simpa using hs.once
  · simpa using hs.published
  · simpa using hs.gone

/-- `unhandled_exception` does not ask whether the operation is
cancelled. -/
theorem finish_throws {s : Awaiting β α} (h : s.outer.promise.value = none) :
    s.finish .throws = some s.interrupted := by
  simp only [finish, PromiseType.complete, PromiseType.unhandledException, Promise.setValue, h,
    Option.isSome_none, Bool.false_eq_true, if_false, Except.map]
  rfl

/-- Behind the `co_await` there is the exception. -/
theorem Doomed.proceed_eq {co : Coroutine β α} {s s' : Awaiting β α} (hs : s.Doomed)
    (hended : s.ended = false) (h : s.proceed co = some s') : s' = s.interrupted := by
  have hspent := hs.spent
  have hnone := hs.published
  rw [hended, if_neg Bool.false_ne_true] at hnone
  unfold proceed at h
  unfold Await.Spent at hspent
  split at h
  · rw [finish_throws hnone] at h
    cases h
    rfl
  · next hphase =>
    rw [hphase] at hspent
    exact hspent.elim
  · cases h

theorem Doomed.step {co : Coroutine β α} {endings : Nat → BodyEnd β} {s s' : Awaiting β α}
    {a : Action} (hs : s.Doomed) (h : step co endings s a = some s') : s'.Doomed := by
  obtain ⟨hdefined, h⟩ := Option.ite_none_right_eq_some.mp h
  cases a with
  | inner a =>
      obtain ⟨inner, hinner, rfl⟩ := Option.map_eq_some_iff.mp h
      refine Doomed.settle ⟨hs.spent.step hinner, hs.once, hs.published, ?_⟩
      intro hdestroyed
      rcases hs.gone hdestroyed with hparked | hended
      · rcases Await.parked_step hparked hinner with hstill | ⟨rfl, hlive⟩
        · exact .inl hstill
        · have hresumes : s.resumes (.inner .runTask) = true := by
            rw [resumes, hlive]
            rfl
          have hkept := not_destroyed_of_resumes hdefined hresumes
          exact absurd hdestroyed hkept
      · exact .inr hended
  | runCtorTask =>
      obtain ⟨_, h⟩ := Option.ite_none_right_eq_some.mp h
      cases h
      unfold startCtorTask
      by_cases hcancelled : s.outer.cancelled
      · rw [if_pos hcancelled]
        exact ⟨hs.spent, hs.once, hs.published, hs.gone⟩
      · rw [if_neg hcancelled]
        have hresumes : s.resumes .runCtorTask = true := by
          rw [resumes, Bool.eq_false_iff.mpr hcancelled]
          rfl
        have hparked := (resume_defined hdefined hresumes).1
        have hkept := not_destroyed_of_resumes hdefined hresumes
        exact ⟨hs.spent.retrieved hparked, hs.once, hs.published, fun hgone => absurd hgone hkept⟩
  | endCtorTask =>
      obtain ⟨_, h⟩ := Option.ite_none_right_eq_some.mp h
      cases h
      exact ⟨hs.spent, hs.once, hs.published, fun _ => (destroy_defined hdefined rfl).1⟩
  | dropObject =>
      cases h
      exact ⟨hs.spent, hs.once, hs.published, fun _ => (destroy_defined hdefined rfl).1⟩
  | proceed =>
      obtain ⟨hended, h⟩ := Option.ite_none_left_eq_some.mp h
      obtain ⟨t, ht, rfl⟩ := Option.map_eq_some_iff.mp h
      obtain rfl := hs.proceed_eq (Bool.not_eq_true _ ▸ hended) ht
      exact Doomed.settle ⟨hs.spent, hs.once, rfl, fun _ => .inr rfl⟩
  | cancel =>
      cases h
      exact ⟨hs.spent, hs.once, hs.published, hs.gone⟩

theorem doomed_of_reachable {co : Coroutine β α} {endings : Nat → BodyEnd β} {s : Awaiting β α}
    (h : (system co endings).Reachable s) : s.Doomed := by
  apply h.induction (P := Doomed)
  · exact .init
  · intro s a s' _ hs hstep
    exact hs.step hstep

/-! ## What is still to come -/

section progress
variable {co : Coroutine β α} {endings : Nat → BodyEnd β} {s : Awaiting β α}

/-- While the frame is there the await takes its steps. -/
theorem inner_step {a : Await.Action} {inner : Await β} (hkept : s.destroyed = false)
    (h : Await.step (endings s.calls) s.inner a = some inner) :
    step co endings s (.inner a) = some (settle { s with inner }) := by
  have hdefined : s.defined (.inner a) = true := by
    cases a with
    | runTask =>
        have hparked : s.inner.parked = true := by
          unfold Await.parked
          cases hphase : s.inner.phase <;> simp only [Await.step, hphase] at h ⊢ <;> cases h
        simp [defined, hparked, hkept, Action.destroys]
    | _ => rfl
  simp only [step, hdefined, if_true, advance, h, Option.map_some]

/-- A run of the await by itself. -/
theorem inner_run (hkept : s.destroyed = false) {as : List Await.Action} {inner : Await β}
    (hrun : (Await.system (endings s.calls)).runFrom s.inner as = some inner) :
    ∃ s', (system co endings).runFrom s (as.map .inner) = some s' ∧ s'.inner = inner ∧
      s'.outer = s.outer ∧ s'.ended = s.ended := by
  induction as generalizing s with
  | nil =>
      cases hrun
      exact ⟨s, rfl, rfl, rfl, rfl⟩
  | cons a as ih =>
      obtain ⟨inner', hstep, hrest⟩ := System.runFrom_cons_eq_some.mp hrun
      have hkept' : (settle { s with inner := inner' }).destroyed = false := by
        rw [settle_destroyed]
        exact hkept
      obtain ⟨s', hrun', hinner, houter, hended⟩ := ih hkept' (by simpa using hrest)
      refine ⟨s', ?_, hinner, by simpa using houter, by simpa using hended⟩
      exact System.runFrom_cons_eq_some.mpr ⟨_, inner_step hkept hstep, hrun'⟩

/-- The body is left by the exception, unless the operation it awaits is
cancelled. -/
theorem Doomed.can_end (hs : s.Doomed) (hcancelled : s.inner.operation.cancelled = false)
    (hstill : s.ended = true ∨ s.destroyed = false) :
    ∃ as t, (system co endings).runFrom s as = some t ∧ t.outer.promise.value = some canceled := by
  by_cases hended : s.ended = true
  · refine ⟨[], s, rfl, ?_⟩
    rw [hs.published, if_pos hended]
  · have hraise : Await.CanRaise (endings s.calls) s.inner :=
      Await.canRaise_of_spent hs.spent hcancelled
    obtain ⟨as, inner, hrun, hphase⟩ := hraise
    have hkept : s.destroyed = false := hstill.resolve_left hended
    obtain ⟨s', hrun', hinner, houter, hended'⟩ : ∃ s', (system co endings).runFrom s
        (as.map .inner) = some s' ∧ s'.inner = inner ∧ s'.outer = s.outer ∧ s'.ended = s.ended :=
      inner_run hkept hrun
    have hnone : s'.outer.promise.value = none := by
      rw [houter, hs.published, if_neg hended]
    have hproceed : (system co endings).step s' .proceed = some s'.interrupted.settle := by
      have hleft : s'.proceed co = some s'.interrupted := by
        simp only [proceed, hinner, hphase]
        exact finish_throws hnone
      show (if s'.ended then none else (s'.proceed co).map Awaiting.settle) = _
      rw [if_neg (hended' ▸ hended), hleft]
      rfl
    have hlast : (system co endings).runFrom s' [.proceed] = some s'.interrupted.settle :=
      System.runFrom_cons_eq_some.mpr ⟨_, hproceed, rfl⟩
    exact ⟨_, _, System.runFrom_append hrun' hlast, by rw [settle_outer]; rfl⟩

/-- A body whose frame went while it was suspended stays there. -/
theorem Doomed.lost_step {s' : Awaiting β α} {a : Action} (hs : s.Doomed)
    (hlost : s.destroyed = true ∧ s.ended = false) (h : Awaiting.step co endings s a = some s') :
    s'.destroyed = true ∧ s'.ended = false := by
  obtain ⟨_, h⟩ := Option.ite_none_right_eq_some.mp h
  cases a with
  | inner a =>
      obtain ⟨inner, _, rfl⟩ := Option.map_eq_some_iff.mp h
      simpa using hlost
  | runCtorTask =>
      obtain ⟨_, h⟩ := Option.ite_none_right_eq_some.mp h
      cases h
      unfold startCtorTask
      split <;> exact hlost
  | endCtorTask =>
      obtain ⟨_, h⟩ := Option.ite_none_right_eq_some.mp h
      cases h
      exact ⟨rfl, hlost.2⟩
  | dropObject =>
      cases h
      exact ⟨rfl, hlost.2⟩
  | proceed =>
      have hparked : s.inner.parked = true :=
        (hs.gone hlost.1).resolve_right (by rw [hlost.2]; exact Bool.false_ne_true)
      have hnone : s.proceed co = none := by
        unfold Await.parked at hparked
        unfold proceed
        split at hparked <;> simp_all
      obtain ⟨_, h⟩ := Option.ite_none_left_eq_some.mp h
      rw [hnone] at h
      cases h
  | cancel =>
      cases h
      exact hlost

theorem Doomed.still_of_run (hs : s.Doomed) {as : List Action} {t : Awaiting β α}
    (hrun : (system co endings).runFrom s as = some t)
    (hvalue : t.outer.promise.value = some canceled) : s.ended = true ∨ s.destroyed = false := by
  by_contra hnot
  have hlost : s.destroyed = true ∧ s.ended = false := by simpa [and_comm] using hnot
  have hend : t.Doomed ∧ t.destroyed = true ∧ t.ended = false := by
    apply System.runFrom_induction
      (P := fun s : Awaiting β α => s.Doomed ∧ s.destroyed = true ∧ s.ended = false) ?_ hrun
      ⟨hs, hlost⟩
    intro s a s' hstep hs
    exact ⟨hs.1.step hstep, hs.1.lost_step hs.2 hstep⟩
  have hpublished := hend.1.published
  rw [hend.2.2, hvalue] at hpublished
  cases hpublished

end progress

/-- **A body that awaits publishes `operation_canceled`**, whatever it
would do with the result, whatever the operations it calls return and in
whatever order things happen: it calls one operation, and nothing else is
ever published, not even where the operation is cancelled. While the
operation it awaits is not cancelled this is still to come, except where
the constructor's task or the destructor took the frame from a suspended
body. -/
theorem body_publishes_canceled (co : Coroutine β α) (endings : Nat → BodyEnd β)
    {s : Awaiting β α} (h : (system co endings).Reachable s) :
    s.calls = 1 ∧
    s.outer.promise.value = (if s.ended then some canceled else none) ∧
    (s.inner.operation.cancelled = false →
      ((∃ as t, (system co endings).runFrom s as = some t ∧
        t.outer.promise.value = some canceled) ↔ (s.ended = true ∨ s.destroyed = false))) := by
  have hs := doomed_of_reachable h
  refine ⟨hs.once, hs.published, ?_⟩
  intro hcancelled
  constructor
  · intro hrun
    obtain ⟨as, t, hrun, hvalue⟩ := hrun
    exact hs.still_of_run hrun hvalue
  · exact hs.can_end hcancelled

/-- A body that waits for a request, and whose operation is cancelled: the
constructor's task has taken its frame. -/
theorem body_publishes_canceled_lost :
    let endings : Nat → BodyEnd Bytes := fun _ =>
      .returns (.value (bytes "GET / HTTP/1.1\r\n\r\n"))
    let inner : Await Bytes :=
      { operation := { promise := { futureRetrieved := true } }, phase := .suspended }
    let s : Awaiting Bytes HttpRequest :=
      { inner, outer := { cancelled := true }, ctorTask := .done, destroyed := true }
    s.calls = 1 ∧
    s.outer.promise.value = (if s.ended then some canceled else none) ∧
    (s.inner.operation.cancelled = false →
      ((∃ as t, (system Coroutine.receiveRequest endings).runFrom s as = some t ∧
        t.outer.promise.value = some canceled) ↔ (s.ended = true ∨ s.destroyed = false))) :=
  body_publishes_canceled Coroutine.receiveRequest _
    ⟨[.inner .awaitReady, .inner .awaitSuspend, .cancel, .runCtorTask, .endCtorTask], rfl⟩

end Awaiting

end Pine
