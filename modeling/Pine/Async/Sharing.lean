import Pine.Async.Await

/-!
# Async — Sharing

Any number of callers of one `async_operation`: coroutines that await it,
and callers that block in `await_resume`, as the accept loop of the server
does. They, the end of the body, cancels and the `destroy` of the frame
come in any order. The promise hands out one future, so the first to ask
decides what becomes of the result: where it is a coroutine, nobody ever
gets it, where it is a blocking caller, that one gets it or nobody does
(`result_reaches_one`).
-/

namespace Pine

open Transition

/-- How a caller asks for the result. -/
inductive Manner where
  /-- `co_await`. -/
  | awaits
  /-- A direct call of `await_resume`. -/
  | asks
  deriving DecidableEq, Repr

/-- How far a caller has come. -/
inductive Caller (α : Type) where
  | awaits (phase : AwaitPhase α)
  /-- About to call `await_resume` directly. -/
  | asks
  /-- In `get` of the future it was handed. -/
  | blocked
  | delivered (result : Expected α)
  /-- `get` threw `broken_promise`. -/
  | broken
  | raised (e : FutureErrc)

def Manner.caller {α : Type} : Manner → Caller α
  | .awaits => .awaits .start
  | .asks => .asks

/-- Whether the caller was handed the future, and did not drop it at
once. -/
def Caller.holds {α : Type} : Caller α → Bool
  | .blocked => true
  | .delivered _ => true
  | .broken => true
  | _ => false

/-- An operation and its callers. -/
structure Sharing (α : Type) where
  operation : PromiseType α := {}
  completed : Bool := false
  /-- Whether the frame, and the promise in it, is destroyed. -/
  destroyed : Bool := false
  callers : List (Caller α)

/-- Whether a step is one of the awaiting coroutine, and not of the
operation. -/
def Await.Action.own : Await.Action → Bool
  | .complete => false
  | .cancel => false
  | _ => true

/-- Whether it reads the frame of the operation. -/
def Await.Action.readsFrame : Await.Action → Bool
  | .awaitReady => true
  | .awaitResume => true
  | _ => false

namespace Sharing

variable {α : Type}

inductive Action where
  /-- The body ends. -/
  | complete
  | cancel
  /-- The frame is destroyed. -/
  | destroy
  /-- A step of the await of a coroutine. -/
  | awaiter (i : Nat) (a : Await.Action)
  /-- The `get_future` of a direct `await_resume`. -/
  | ask (i : Nat)
  /-- The `get` of a direct `await_resume`. -/
  | get (i : Nat)

def setCaller (s : Sharing α) (i : Nat) (c : Caller α) : Sharing α :=
  { s with callers := s.callers.set i c }

/-- The operation and one of the coroutines that await it. -/
def view (s : Sharing α) (phase : AwaitPhase α) : Await α :=
  { operation := s.operation, completed := s.completed, phase }

/-- The operation after a step of the two. -/
def update (s : Sharing α) (t : Await α) : Sharing α :=
  { s with operation := t.operation, completed := t.completed }

/-- `get_future`. -/
def ask (s : Sharing α) (i : Nat) : Sharing α :=
  match s.operation.promise.getFuture with
  | .error e => s.setCaller i (.raised e)
  | .ok promise => { s.setCaller i .blocked with operation := { s.operation with promise } }

/-- `std::future::get`, `none` while it blocks. The future is a view of
the shared state, which outlives the promise. -/
def get (s : Sharing α) (i : Nat) : Option (Sharing α) :=
  match s.operation.promise.value with
  | some result => some (s.setCaller i (.delivered result))
  | none => if s.destroyed then some (s.setCaller i .broken) else none

/-- A call behind the `destroy` reads a frame that is gone, and is not
modelled. -/
def step (ending : BodyEnd α) (s : Sharing α) : Action → Option (Sharing α)
  | .complete =>
      if s.completed ∨ s.destroyed then none
      else ((s.view .start).complete ending).map s.update
  | .cancel => some { s with operation := { s.operation with cancelled := true } }
  | .destroy => if s.destroyed then none else some { s with destroyed := true }
  | .awaiter i a =>
      match s.callers[i]? with
      | some (.awaits phase) =>
          if a.own = true ∧ (s.destroyed → a.readsFrame = false) then
            (Await.step ending (s.view phase) a).map fun t =>
              (s.update t).setCaller i (.awaits t.phase)
          else none
      | _ => none
  | .ask i =>
      match s.callers[i]? with
      | some .asks => if s.destroyed then none else some (s.ask i)
      | _ => none
  | .get i =>
      match s.callers[i]? with
      | some .blocked => s.get i
      | _ => none

/-- An operation whose body ends with `ending`, and its callers. -/
def system (ending : BodyEnd α) (callers : List Manner) : System (Sharing α) Action where
  init := { callers := callers.map Manner.caller }
  step := step ending

/-- The result is stored, or the body is still going to store it. -/
def Obtainable (ending : BodyEnd α) (s : Sharing α) : Prop :=
  s.operation.promise.value.isSome = true ∨
    s.completed = false ∧ s.destroyed = false ∧
      (s.operation.cancelled = true → ending = .throws)

/-- The caller has the future, or is going to get it if it asks now. -/
def Entitled (s : Sharing α) : Caller α → Prop
  | .asks => s.operation.promise.futureRetrieved = false ∧ s.destroyed = false
  | .blocked => True
  | _ => False

/-! ## What a step can do -/

section step
variable {ending : BodyEnd α} {s s' : Sharing α}

/-- One constructor for each branch of `step`. -/
inductive Step (ending : BodyEnd α) (s : Sharing α) : Action → Sharing α → Prop where
  | complete {t : Await α} :
      s.completed = false → s.destroyed = false → (s.view .start).complete ending = some t →
      Step ending s .complete (s.update t)
  | cancel : Step ending s .cancel { s with operation := { s.operation with cancelled := true } }
  | destroy : s.destroyed = false → Step ending s .destroy { s with destroyed := true }
  | awaiter {i : Nat} {a : Await.Action} {phase : AwaitPhase α} {t : Await α} :
      s.callers[i]? = some (.awaits phase) → a.own = true →
      Await.step ending (s.view phase) a = some t →
      Step ending s (.awaiter i a) ((s.update t).setCaller i (.awaits t.phase))
  | handed {i : Nat} :
      s.callers[i]? = some .asks → s.destroyed = false →
      s.operation.promise.futureRetrieved = false →
      Step ending s (.ask i)
        { s.setCaller i .blocked with
          operation :=
            { s.operation with promise := { s.operation.promise with futureRetrieved := true } } }
  | refused {i : Nat} :
      s.callers[i]? = some .asks → s.operation.promise.futureRetrieved = true →
      Step ending s (.ask i) (s.setCaller i (.raised .futureAlreadyRetrieved))
  | delivered {i : Nat} {result : Expected α} :
      s.callers[i]? = some .blocked → s.operation.promise.value = some result →
      Step ending s (.get i) (s.setCaller i (.delivered result))
  | broken {i : Nat} :
      s.callers[i]? = some .blocked → s.operation.promise.value = none → s.destroyed = true →
      Step ending s (.get i) (s.setCaller i .broken)

theorem step_ask {i : Nat} (hi : s.callers[i]? = some .asks) (hdestroyed : s.destroyed = false) :
    Step ending s (.ask i) (s.ask i) := by
  unfold ask Promise.getFuture
  by_cases hretrieved : s.operation.promise.futureRetrieved = true
  · rw [if_pos hretrieved]
    exact .refused hi hretrieved
  · rw [if_neg hretrieved]
    exact .handed hi hdestroyed (Bool.eq_false_iff.mpr hretrieved)

theorem step_get {i : Nat} (hi : s.callers[i]? = some .blocked) (h : s.get i = some s') :
    Step ending s (.get i) s' := by
  unfold get at h
  split at h
  · next result hvalue =>
    cases h
    exact .delivered hi hvalue
  · next hvalue =>
    obtain ⟨hdestroyed, h⟩ := Option.ite_none_right_eq_some.mp h
    cases h
    exact .broken hi hvalue hdestroyed

/-- **What a step can do.** -/
theorem step_cases {a : Action} (h : step ending s a = some s') : Step ending s a s' := by
  cases a with
  | complete =>
      obtain ⟨hopen, h⟩ := Option.ite_none_left_eq_some.mp h
      obtain ⟨t, ht, rfl⟩ := Option.map_eq_some_iff.mp h
      obtain ⟨hcompleted, hdestroyed⟩ := not_or.mp hopen
      exact .complete (Bool.eq_false_iff.mpr hcompleted) (Bool.eq_false_iff.mpr hdestroyed) ht
  | cancel =>
      cases h
      exact .cancel
  | destroy =>
      obtain ⟨hdestroyed, h⟩ := Option.ite_none_left_eq_some.mp h
      cases h
      exact .destroy (Bool.eq_false_iff.mpr hdestroyed)
  | awaiter i a =>
      simp only [step] at h
      split at h
      · next phase hi =>
        obtain ⟨⟨hown, _⟩, h⟩ := Option.ite_none_right_eq_some.mp h
        obtain ⟨t, ht, rfl⟩ := Option.map_eq_some_iff.mp h
        exact .awaiter hi hown ht
      · cases h
  | ask i =>
      simp only [step] at h
      split at h
      · next hi =>
        obtain ⟨hdestroyed, h⟩ := Option.ite_none_left_eq_some.mp h
        cases h
        exact step_ask hi (Bool.eq_false_iff.mpr hdestroyed)
      · cases h
  | get i =>
      simp only [step] at h
      split at h
      · next hi => exact step_get hi h
      · cases h

end step

end Sharing

/-! ## The operation between two steps -/

/-- What the end of a body stores. -/
def BodyEnd.stored {α : Type} (ending : BodyEnd α) (cancelled : Bool) : Option (Expected α) :=
  match ending with
  | .returns r => if cancelled then none else some r.result
  | .throws => some ending.result

theorem BodyEnd.result_of_stored {α : Type} {ending : BodyEnd α} {cancelled : Bool}
    {result : Expected α} (h : ending.stored cancelled = some result) :
    result = ending.result := by
  cases ending with
  | returns r =>
      obtain ⟨_, h⟩ := Option.ite_none_left_eq_some.mp h
      exact (Option.some.inj h).symm
  | throws => exact (Option.some.inj h).symm

/-- A cancelled operation stores nothing but the error of an exception. -/
theorem BodyEnd.isSome_stored {α : Type} {ending : BodyEnd α} {cancelled : Bool} :
    (ending.stored cancelled).isSome = true ↔ (cancelled = true → ending = .throws) := by
  cases ending <;> cases cancelled <;> simp [stored]

namespace Await

variable {α : Type} {ending : BodyEnd α} {s s' : Await α}

theorem complete_eq (hvalue : s.operation.promise.value = none) :
    s.complete ending = some
      { s with
        operation :=
          { s.operation with
            promise :=
              { s.operation.promise with value := ending.stored s.operation.cancelled } }
        completed := true } := by
  have hset : ∀ result, s.operation.promise.setValue result
      = .ok { s.operation.promise with value := some result } := by
    intro result
    rw [Promise.setValue, hvalue]
    rfl
  cases ending with
  | returns r =>
      by_cases hcancelled : s.operation.cancelled = true
      · simp only [complete, PromiseType.complete, PromiseType.returnValue, BodyEnd.stored,
          hcancelled, if_true, ← hvalue]
        rw [← hcancelled]
      · simp only [complete, PromiseType.complete, PromiseType.returnValue, BodyEnd.stored,
          hcancelled, if_false, Bool.false_eq_true, hset, Except.map]
  | throws =>
      simp only [complete, PromiseType.complete, PromiseType.unhandledException, hset, Except.map]
      rfl

/-- What the awaiting coroutine does to the operation: no more than
retrieve its future. -/
structure Kept (s s' : Await α) : Prop where
  completed : s'.completed = s.completed
  cancelled : s'.operation.cancelled = s.operation.cancelled
  value : s'.operation.promise.value = s.operation.promise.value
  retrieved : s.operation.promise.futureRetrieved = true →
    s'.operation.promise.futureRetrieved = true

theorem kept_awaitReady (s : Await α) : Kept s s.awaitReady := by
  unfold awaitReady Promise.getFuture
  by_cases hretrieved : s.operation.promise.futureRetrieved
  · rw [if_pos hretrieved]
    exact ⟨rfl, rfl, rfl, id⟩
  · rw [if_neg hretrieved]
    exact ⟨rfl, rfl, rfl, fun _ => rfl⟩

theorem kept_awaitResume (h : s.awaitResume = some s') : Kept s s' := by
  unfold awaitResume Promise.getFuture at h
  by_cases hretrieved : s.operation.promise.futureRetrieved
  · rw [if_pos hretrieved] at h
    cases h
    exact ⟨rfl, rfl, rfl, id⟩
  · rw [if_neg hretrieved] at h
    obtain ⟨result, _, rfl⟩ := Option.map_eq_some_iff.mp h
    exact ⟨rfl, rfl, rfl, fun _ => rfl⟩

theorem kept_of_own {a : Action} (hown : a.own = true) (h : step ending s a = some s') :
    Kept s s' := by
  cases a with
  | complete => cases hown
  | cancel => cases hown
  | awaitReady =>
      simp only [step] at h
      split at h
      · cases h
        exact kept_awaitReady s
      · cases h
  | awaitSuspend =>
      simp only [step] at h
      split at h
      · cases h
        exact ⟨rfl, rfl, rfl, id⟩
      · cases h
  | runTask =>
      simp only [step] at h
      split at h
      · cases h
        exact ⟨rfl, rfl, rfl, id⟩
      · cases h
  | awaitResume =>
      simp only [step] at h
      split at h
      · exact kept_awaitResume h
      · exact kept_awaitResume h
      · cases h

/-- What an await has come to stays true of an operation of which more
has happened. -/
theorem Spent.mono (hs : s.Spent) (hphase : s'.phase = s.phase)
    (hretrieved : s.operation.promise.futureRetrieved = true →
      s'.operation.promise.futureRetrieved = true)
    (hcancelled : s.operation.cancelled = true → s'.operation.cancelled = true) :
    s'.Spent := by
  unfold Spent at hs ⊢
  rw [hphase]
  cases hcase : s.phase <;> simp only [hcase] at hs ⊢ <;>
    first | exact hs | exact hretrieved hs | exact ⟨hretrieved hs.1, hcancelled hs.2⟩

end Await

namespace Sharing

variable {α : Type} {ending : BodyEnd α} {s s' : Sharing α}

/-- What stays true of an operation, whatever happens. -/
structure Grows (s s' : Sharing α) : Prop where
  retrieved : s.operation.promise.futureRetrieved = true →
    s'.operation.promise.futureRetrieved = true
  cancelled : s.operation.cancelled = true → s'.operation.cancelled = true
  destroyed : s.destroyed = true → s'.destroyed = true
  value : s.destroyed = true → s'.operation.promise.value = s.operation.promise.value

theorem Step.grows {a : Action} (h : Step ending s a s') : Grows s s' := by
  cases h with
  | complete _ hdestroyed ht =>
      obtain ⟨_, hcancelled, hretrieved⟩ := Await.complete_frame ht
      refine ⟨fun h => hretrieved.trans h, fun h => hcancelled.trans h, id, ?_⟩
      intro h
      exact absurd (hdestroyed.symm.trans h) Bool.false_ne_true
  | awaiter _ hown ht =>
      have hkept := Await.kept_of_own hown ht
      exact ⟨hkept.retrieved, fun h => hkept.cancelled.trans h, id, fun _ => hkept.value⟩
  | cancel => exact ⟨id, fun _ => rfl, id, fun _ => rfl⟩
  | destroy => exact ⟨id, id, fun _ => rfl, fun _ => rfl⟩
  | handed => exact ⟨fun _ => rfl, id, id, fun _ => rfl⟩
  | refused => exact ⟨id, id, id, fun _ => rfl⟩
  | delivered => exact ⟨id, id, id, fun _ => rfl⟩
  | broken => exact ⟨id, id, id, fun _ => rfl⟩

/-- What is true of a caller that has come so far. -/
def Fits (ending : BodyEnd α) (s : Sharing α) : Caller α → Prop
  | .awaits phase => (s.view phase).Spent
  | .asks => True
  | .blocked => s.operation.promise.futureRetrieved = true
  | .delivered result => s.operation.promise.futureRetrieved = true ∧ result = ending.result
  | .broken =>
      s.operation.promise.futureRetrieved = true ∧ s.destroyed = true ∧
        s.operation.promise.value = none
  | .raised e => e = .futureAlreadyRetrieved

theorem Fits.mono {c : Caller α} (h : s.Fits ending c) (hgrows : Grows s s') :
    s'.Fits ending c := by
  cases c with
  | awaits phase =>
      have hs : (s.view phase).Spent := h
      exact hs.mono rfl hgrows.retrieved hgrows.cancelled
  | asks => trivial
  | blocked => exact hgrows.retrieved h
  | delivered result => exact ⟨hgrows.retrieved h.1, h.2⟩
  | broken =>
      obtain ⟨hretrieved, hdestroyed, hvalue⟩ := h
      exact ⟨hgrows.retrieved hretrieved, hgrows.destroyed hdestroyed,
        (hgrows.value hdestroyed).trans hvalue⟩
  | raised e => exact h

/-- Who holds the future has retrieved it. -/
theorem Fits.retrieved {c : Caller α} (h : s.Fits ending c) (hc : c.holds = true) :
    s.operation.promise.futureRetrieved = true := by
  cases c with
  | blocked => exact h
  | delivered result => exact h.1
  | broken => exact h.1
  | awaits phase => cases hc
  | asks => cases hc
  | raised e => cases hc

/-- The invariant: nothing but the end of the body stores a result, and at
most one caller holds the future. -/
structure Sound (ending : BodyEnd α) (s : Sharing α) : Prop where
  stored : ∀ result, s.operation.promise.value = some result → result = ending.result
  unstored : s.completed = false → s.operation.promise.value = none
  fits : ∀ c ∈ s.callers, s.Fits ending c
  one : s.callers.countP Caller.holds ≤ 1

theorem Sound.init (ending : BodyEnd α) (callers : List Manner) :
    (system ending callers).init.Sound ending := by
  have hstart : ∀ m : Manner, (system ending callers).init.Fits ending m.caller
      ∧ (m.caller (α := α)).holds = false := by
    intro m
    cases m <;> exact ⟨trivial, rfl⟩
  refine ⟨?_, fun _ => rfl, ?_, ?_⟩
  · intro result h
    cases h
  · intro c hc
    obtain ⟨m, _, rfl⟩ := List.mem_map.mp hc
    exact (hstart m).1
  · have hnone : (system ending callers).init.callers.countP Caller.holds = 0 := by
      rw [List.countP_eq_zero]
      intro c hc
      obtain ⟨m, _, rfl⟩ := List.mem_map.mp hc
      rw [(hstart m).2]
      exact Bool.false_ne_true
    omega

theorem Sound.fits_set {i : Nat} {c : Caller α} (hs : s.Sound ending) (hgrows : Grows s s')
    (hcallers : s'.callers = s.callers.set i c) (hc : s'.Fits ending c) :
    ∀ d ∈ s'.callers, s'.Fits ending d := by
  intro d hd
  rw [hcallers] at hd
  rcases List.mem_or_eq_of_mem_set hd with hd | rfl
  · exact (hs.fits d hd).mono hgrows
  · exact hc

/-- Where the future was not retrieved nobody holds it. -/
theorem Sound.none_holds (hs : s.Sound ending)
    (hretrieved : s.operation.promise.futureRetrieved = false) :
    s.callers.countP Caller.holds = 0 := by
  rw [List.countP_eq_zero]
  intro c hc hholds
  exact Bool.false_ne_true (hretrieved.symm.trans ((hs.fits c hc).retrieved hholds))

/-- A caller changes, and holds the future only if it did so before or if
nobody did. -/
theorem Sound.one_set {i : Nat} {c d : Caller α} (hs : s.Sound ending)
    (hi : s.callers[i]? = some c)
    (hd : d.holds = true → c.holds = true ∨ s.operation.promise.futureRetrieved = false) :
    (s.callers.set i d).countP Caller.holds ≤ 1 := by
  have hone := hs.one
  obtain ⟨hlt, hc⟩ := List.getElem?_eq_some_iff.mp hi
  rw [List.countP_set hlt, hc]
  by_cases hdh : d.holds = true
  · rw [if_pos hdh]
    rcases hd hdh with hch | hretrieved
    · have hpos : 0 < s.callers.countP Caller.holds :=
        List.countP_pos_iff.mpr ⟨c, List.mem_of_getElem? hi, hch⟩
      rw [if_pos hch]
      omega
    · rw [hs.none_holds hretrieved]
      omega
  · rw [if_neg hdh]
    omega

theorem Sound.step {a : Action} (hs : s.Sound ending) (h : Step ending s a s') :
    s'.Sound ending := by
  have hgrows := h.grows
  cases h with
  | complete hcompleted hdestroyed ht =>
      have hvalue := hs.unstored hcompleted
      rw [Await.complete_eq hvalue] at ht
      cases ht
      refine ⟨fun result => BodyEnd.result_of_stored, ?_, ?_, hs.one⟩
      · intro h
        cases h
      · intro c hc
        exact (hs.fits c hc).mono hgrows
  | cancel =>
      exact ⟨hs.stored, hs.unstored, fun c hc => (hs.fits c hc).mono hgrows, hs.one⟩
  | destroy =>
      exact ⟨hs.stored, hs.unstored, fun c hc => (hs.fits c hc).mono hgrows, hs.one⟩
  | awaiter hi hown ht =>
      have hkept := Await.kept_of_own hown ht
      have hspent := (hs.fits _ (List.mem_of_getElem? hi) : Await.Spent _).step ht
      refine ⟨?_, ?_, hs.fits_set hgrows rfl hspent, hs.one_set hi .inl⟩
      · intro result h
        exact hs.stored result (hkept.value.symm.trans h)
      · intro h
        exact hkept.value.trans (hs.unstored (hkept.completed.symm.trans h))
  | handed hi hdestroyed hretrieved =>
      exact ⟨hs.stored, hs.unstored, hs.fits_set hgrows rfl rfl,
        hs.one_set hi fun _ => .inr hretrieved⟩
  | refused hi hretrieved =>
      exact ⟨hs.stored, hs.unstored, hs.fits_set hgrows rfl rfl, hs.one_set hi Bool.noConfusion⟩
  | delivered hi hvalue =>
      have hretrieved := hs.fits _ (List.mem_of_getElem? hi)
      exact ⟨hs.stored, hs.unstored,
        hs.fits_set hgrows rfl ⟨hretrieved, hs.stored _ hvalue⟩, hs.one_set hi .inl⟩
  | broken hi hvalue hdestroyed =>
      have hretrieved := hs.fits _ (List.mem_of_getElem? hi)
      exact ⟨hs.stored, hs.unstored,
        hs.fits_set hgrows rfl ⟨hretrieved, hdestroyed, hvalue⟩,
        hs.one_set hi fun _ => .inl rfl⟩

theorem sound_of_reachable {callers : List Manner} (h : (system ending callers).Reachable s) :
    s.Sound ending := by
  apply h.induction (P := Sound ending)
  · exact .init ending callers
  · intro s a s' _ hs hstep
    exact hs.step (step_cases hstep)

/-! ## Who can still get the result -/

/-- The caller has the result, or it is the one to get it and there is
one. -/
def Servable (ending : BodyEnd α) (s : Sharing α) (i : Nat) : Prop :=
  ∃ c, s.callers[i]? = some c ∧
    (c = .delivered ending.result ∨ s.Entitled c ∧ s.Obtainable ending)

/-- A result that is out of reach stays so. -/
theorem Obtainable.of_step {a : Action} (hs : s.Sound ending) (hstep : Step ending s a s')
    (h : s'.Obtainable ending) : s.Obtainable ending := by
  cases hstep with
  | complete hcompleted hdestroyed ht =>
      rw [Await.complete_eq (hs.unstored hcompleted)] at ht
      cases ht
      rcases h with h | ⟨h, _⟩
      · exact .inr ⟨hcompleted, hdestroyed, BodyEnd.isSome_stored.mp h⟩
      · cases h
  | cancel =>
      rcases h with h | ⟨hcompleted, hdestroyed, hthrows⟩
      · exact .inl h
      · exact .inr ⟨hcompleted, hdestroyed, fun _ => hthrows rfl⟩
  | destroy =>
      rcases h with h | ⟨_, h, _⟩
      · exact .inl h
      · cases h
  | awaiter hi hown ht =>
      have hkept := Await.kept_of_own hown ht
      rcases h with h | ⟨hcompleted, hdestroyed, hthrows⟩
      · exact .inl (hkept.value ▸ h)
      · exact .inr ⟨hkept.completed.symm.trans hcompleted, hdestroyed,
          fun hcancelled => hthrows (hkept.cancelled.trans hcancelled)⟩
  | handed => exact h
  | refused => exact h
  | delivered => exact h
  | broken => exact h

/-- So does a future that somebody else has. -/
theorem Entitled.of_grows {c : Caller α} (hgrows : Grows s s') (h : s'.Entitled c) :
    s.Entitled c := by
  cases c with
  | asks =>
      obtain ⟨hretrieved, hdestroyed⟩ := h
      refine ⟨Bool.eq_false_iff.mpr ?_, Bool.eq_false_iff.mpr ?_⟩
      · intro hs
        exact Bool.false_ne_true (hretrieved.symm.trans (hgrows.retrieved hs))
      · intro hs
        exact Bool.false_ne_true (hdestroyed.symm.trans (hgrows.destroyed hs))
  | blocked => trivial
  | awaits phase => exact h
  | delivered result => exact h
  | broken => exact h
  | raised e => exact h

/-- A caller that a step did not touch. -/
theorem Servable.of_same {a : Action} {i : Nat} {c : Caller α} (hs : s.Sound ending)
    (hstep : Step ending s a s') (hi : s.callers[i]? = some c)
    (hc : c = .delivered ending.result ∨ s'.Entitled c ∧ s'.Obtainable ending) :
    s.Servable ending i := by
  rcases hc with hc | ⟨hentitled, hobtainable⟩
  · exact ⟨c, hi, .inl hc⟩
  · exact ⟨c, hi, .inr ⟨hentitled.of_grows hstep.grows, hobtainable.of_step hs hstep⟩⟩

theorem Servable.of_step {a : Action} {i : Nat} (hs : s.Sound ending)
    (hstep : Step ending s a s') (h : s'.Servable ending i) : s.Servable ending i := by
  obtain ⟨c, hi, hc⟩ := h
  cases hstep with
  | complete hcompleted hdestroyed ht =>
      exact .of_same hs (.complete hcompleted hdestroyed ht) hi hc
  | cancel => exact .of_same hs .cancel hi hc
  | destroy hdestroyed => exact .of_same hs (.destroy hdestroyed) hi hc
  | awaiter hk hown ht =>
      rcases getElem?_set_cases hi with ⟨_, rfl⟩ | ⟨_, hi⟩
      · rcases hc with hc | ⟨hc, _⟩
        · cases hc
        · exact hc.elim
      · exact .of_same hs (.awaiter hk hown ht) hi hc
  | handed hk hdestroyed hretrieved =>
      rcases getElem?_set_cases hi with ⟨rfl, rfl⟩ | ⟨_, hi⟩
      · rcases hc with hc | ⟨_, hobtainable⟩
        · cases hc
        · exact ⟨.asks, hk, .inr ⟨⟨hretrieved, hdestroyed⟩, hobtainable⟩⟩
      · exact .of_same hs (.handed hk hdestroyed hretrieved) hi hc
  | refused hk hretrieved =>
      rcases getElem?_set_cases hi with ⟨_, rfl⟩ | ⟨_, hi⟩
      · rcases hc with hc | ⟨hc, _⟩
        · cases hc
        · exact hc.elim
      · exact .of_same hs (.refused hk hretrieved) hi hc
  | delivered hk hvalue =>
      rcases getElem?_set_cases hi with ⟨rfl, _⟩ | ⟨_, hi⟩
      · exact ⟨.blocked, hk, .inr ⟨trivial, .inl (Option.isSome_of_eq_some hvalue)⟩⟩
      · exact .of_same hs (.delivered hk hvalue) hi hc
  | broken hk hvalue hdestroyed =>
      rcases getElem?_set_cases hi with ⟨_, rfl⟩ | ⟨_, hi⟩
      · rcases hc with hc | ⟨hc, _⟩
        · cases hc
        · exact hc.elim
      · exact .of_same hs (.broken hk hvalue hdestroyed) hi hc

/-- A run does not give the result to one it was out of reach for. -/
theorem Servable.of_run {callers : List Manner} {i : Nat} {as : List Action} (hs : s.Sound ending)
    (hrun : (system ending callers).runFrom s as = some s') (h : s'.Servable ending i) :
    s.Servable ending i := by
  by_contra hnot
  have hrest : s'.Sound ending ∧ ¬ s'.Servable ending i := by
    refine System.runFrom_induction
      (P := fun s => s.Sound ending ∧ ¬ s.Servable ending i) ?_ hrun ⟨hs, hnot⟩
    intro s a s' hstep hs
    exact ⟨hs.1.step (step_cases hstep), fun h => hs.2 (h.of_step hs.1 (step_cases hstep))⟩
  exact hrest.2 h

section reach
variable {callers : List Manner} {i : Nat}

/-- Some run from `s` ends with the result at caller `i`. -/
def CanDeliver (ending : BodyEnd α) (callers : List Manner) (s : Sharing α) (i : Nat) : Prop :=
  ∃ as t, (system ending callers).runFrom s as = some t ∧
    t.callers[i]? = some (.delivered ending.result)

theorem CanDeliver.step {a : Action} (hstep : Sharing.step ending s a = some s')
    (h : CanDeliver ending callers s' i) : CanDeliver ending callers s i := by
  obtain ⟨as, t, hrun, ht⟩ := h
  exact ⟨a :: as, t, System.runFrom_cons_eq_some.mpr ⟨s', hstep, hrun⟩, ht⟩

theorem setCaller_get {c d : Caller α} (hi : s.callers[i]? = some d) :
    (s.setCaller i c).callers[i]? = some c :=
  List.getElem?_set_self (List.getElem?_eq_some_iff.mp hi).1

/-- The result is stored, and `get` returns. -/
theorem canDeliver_stored (hi : s.callers[i]? = some .blocked)
    (hvalue : s.operation.promise.value = some ending.result) :
    CanDeliver ending callers s i := by
  have hstep : Sharing.step ending s (.get i)
      = some (s.setCaller i (.delivered ending.result)) := by
    simp only [step, hi, get, hvalue]
  exact CanDeliver.step hstep ⟨[], _, rfl, setCaller_get hi⟩

theorem canDeliver_blocked (hs : s.Sound ending) (hi : s.callers[i]? = some .blocked)
    (h : s.Obtainable ending) : CanDeliver ending callers s i := by
  rcases h with h | ⟨hcompleted, hdestroyed, hthrows⟩
  · obtain ⟨result, hvalue⟩ := Option.isSome_iff_exists.mp h
    obtain rfl := hs.stored result hvalue
    exact canDeliver_stored hi hvalue
  · -- the body ends first, and stores the result
    obtain ⟨result, hresult⟩ := Option.isSome_iff_exists.mp (BodyEnd.isSome_stored.mpr hthrows)
    obtain rfl := BodyEnd.result_of_stored hresult
    have hstep : (s.view .start).complete ending = some _ :=
      Await.complete_eq (hs.unstored hcompleted)
    have hcomplete : Sharing.step ending s .complete = some (s.update
        { operation :=
            { s.operation with
              promise := { s.operation.promise with value := some ending.result } }
          completed := true, phase := .start }) := by
      simp only [step, hcompleted, hdestroyed, Bool.false_eq_true, or_self, if_false, hstep]
      simp only [Option.map_some, view, hresult]
    exact CanDeliver.step hcomplete (canDeliver_stored hi rfl)

theorem canDeliver_asks (hs : s.Sound ending) (hi : s.callers[i]? = some .asks)
    (hretrieved : s.operation.promise.futureRetrieved = false) (hdestroyed : s.destroyed = false)
    (h : s.Obtainable ending) : CanDeliver ending callers s i := by
  have hask : Sharing.step ending s (.ask i) = some (s.ask i) := by
    simp only [step, hi, hdestroyed, Bool.false_eq_true, if_false]
  have hnext : (s.ask i).Sound ending := hs.step (step_cases hask)
  apply CanDeliver.step hask
  have hblocked : (s.ask i).callers[i]? = some .blocked := by
    simp only [ask, Promise.getFuture, hretrieved, Bool.false_eq_true, if_false]
    exact setCaller_get hi
  have hobtainable : (s.ask i).Obtainable ending := by
    simp only [ask, Promise.getFuture, hretrieved, Bool.false_eq_true, if_false]
    exact h
  exact canDeliver_blocked hnext hblocked hobtainable

theorem Servable.can_deliver (hs : s.Sound ending) (h : s.Servable ending i) :
    CanDeliver ending callers s i := by
  obtain ⟨c, hi, rfl | ⟨hentitled, hobtainable⟩⟩ := h
  · exact ⟨[], s, rfl, hi⟩
  · cases c with
    | asks => exact canDeliver_asks hs hi hentitled.1 hentitled.2 hobtainable
    | blocked => exact canDeliver_blocked hs hi hobtainable
    | awaits phase => exact hentitled.elim
    | delivered result => exact hentitled.elim
    | broken => exact hentitled.elim
    | raised e => exact hentitled.elim

end reach

/-- **The result reaches one caller at most**, whoever asks and in
whatever order things happen: one caller at most holds the future, no
coroutine that awaits gets a result, a delivered result is the one of the
body, and every exception is the second retrieval or the broken promise of
an operation that went without storing one. A caller can still get the
result exactly if it has the future or asks for it first, and the result
is stored or still to be stored. -/
theorem result_reaches_one (ending : BodyEnd α) (callers : List Manner) {s : Sharing α}
    (h : (system ending callers).Reachable s) :
    s.callers.countP Caller.holds ≤ 1 ∧
    (∀ phase, .awaits phase ∈ s.callers →
      (∀ result, phase ≠ .delivered result) ∧
      ∀ e, phase = .raised e → e = .futureAlreadyRetrieved) ∧
    (∀ result, .delivered result ∈ s.callers → result = ending.result) ∧
    (∀ e, .raised e ∈ s.callers → e = .futureAlreadyRetrieved) ∧
    (.broken ∈ s.callers → s.destroyed = true ∧ s.operation.promise.value = none) ∧
    (∀ i, (∃ as t, (system ending callers).runFrom s as = some t ∧
      t.callers[i]? = some (.delivered ending.result)) ↔ s.Servable ending i) := by
  have hs := sound_of_reachable h
  refine ⟨hs.one, ?_, fun result hc => (hs.fits _ hc).2, fun e hc => hs.fits _ hc,
    fun hc => (hs.fits _ hc).2, ?_⟩
  · intro phase hc
    have hspent : Await.Spent (s.view phase) := hs.fits _ hc
    refine ⟨?_, ?_⟩
    · intro result hphase
      rw [hphase] at hspent
      exact hspent
    · intro e hphase
      rw [hphase] at hspent
      exact hspent
  · intro i
    constructor
    · intro hrun
      obtain ⟨as, t, hrun, ht⟩ := hrun
      have hserved : t.Servable ending i := ⟨_, ht, .inl rfl⟩
      exact hserved.of_run hs hrun
    · intro hservable
      exact hservable.can_deliver hs

/-- The accept loop of the server waits in `start`, beside a coroutine
that awaits the same operation. -/
theorem result_reaches_one_blocked :
    let ending : BodyEnd Unit := .returns (.error (makeErrorCode .success))
    let s : Sharing Unit :=
      { operation := { promise := { futureRetrieved := true } }
        callers := [.blocked, .awaits .start] }
    s.callers.countP Caller.holds ≤ 1 ∧
    (∀ phase, .awaits phase ∈ s.callers →
      (∀ result, phase ≠ .delivered result) ∧
      ∀ e, phase = .raised e → e = .futureAlreadyRetrieved) ∧
    (∀ result, .delivered result ∈ s.callers → result = ending.result) ∧
    (∀ e, .raised e ∈ s.callers → e = .futureAlreadyRetrieved) ∧
    (.broken ∈ s.callers → s.destroyed = true ∧ s.operation.promise.value = none) ∧
    (∀ i, (∃ as t, (system ending [.asks, .awaits]).runFrom s as = some t ∧
      t.callers[i]? = some (.delivered ending.result)) ↔ s.Servable ending i) :=
  result_reaches_one _ _ ⟨[.ask 0], rfl⟩

end Sharing

end Pine
