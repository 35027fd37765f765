import Pine.Base.Transition

/-!
# Async — Ownership

Which `async_operation` object holds which coroutine, and which
cancellation flag, over creations, moves and destructions of objects. The
two templates have a text of their own for every special member. The one
for `void` moves the flag along with the handle. The general one leaves
the flag where it is, in its move constructor and in its `operator=`, and
that `operator=` ends without the `return` it needs. Both overwrite the
handle of the object that is assigned to, and nobody destroys the
coroutine that was behind it.

A run whose steps do none of this keeps handles and flags together
(`ownership_paired`).
-/

namespace Pine

open Transition

/-- The two templates of `async_operation`. -/
inductive Template where
  /-- `async_operation<T, E>`. -/
  | general
  /-- `async_operation<void, E>`. -/
  | void
  deriving DecidableEq, Repr

/-- The data members of an `async_operation`. A coroutine is named by a
number, and the flag of its promise by the same one. -/
structure Object where
  coroutine : Option Nat := none
  cancelled : Option Nat := none
  deriving DecidableEq, Repr

namespace Object

/-- The move constructor: the new object, and `other` after it. A
`std::shared_ptr` that is moved from is null. -/
def moveConstruct : Template → Object → Object × Object
  | .general, other => ({ coroutine := other.coroutine }, { other with coroutine := none })
  | .void, other =>
      ({ coroutine := other.coroutine, cancelled := other.cancelled },
        { coroutine := none, cancelled := none })

/-- `operator=` from another object: `this` and `other` after it. -/
def moveAssign : Template → Object → Object → Object × Object
  | .general, this, other =>
      ({ this with coroutine := other.coroutine }, { other with coroutine := none })
  | .void, this, other =>
      ({ this with coroutine := other.coroutine, cancelled := other.cancelled },
        { coroutine := none, cancelled := none })

end Object

/-- Every object made so far, `none` once it is destroyed, and of every
coroutine whether it has been destroyed. -/
structure Ownership where
  objects : List (Option Object) := []
  destroyed : List Bool := []
  /-- A function with a return type has run off its end. -/
  undefined : Bool := false
  deriving DecidableEq, Repr

namespace Ownership

/-- Object `i`, while it is alive. -/
def objectAt (s : Ownership) (i : Nat) : Option Object := s.objects[i]?.join

/-- The coroutine that object `i` holds. -/
def handle (s : Ownership) (i : Nat) : Option Nat := (s.objectAt i).bind Object.coroutine

/-- The flag that `cancel` of object `i` sets. -/
def flag (s : Ownership) (i : Nat) : Option Nat := (s.objectAt i).bind Object.cancelled

def put (s : Ownership) (i : Nat) (o : Option Object) : Ownership :=
  { s with objects := s.objects.set i o }

def add (s : Ownership) (o : Option Object) : Ownership :=
  { s with objects := s.objects ++ [o] }

/-- `coroutine_handle::destroy`, where the handle is not null. -/
def destroy (s : Ownership) : Option Nat → Ownership
  | none => s
  | some c => { s with destroyed := s.destroyed.set c true }

/-- The end of `operator=`, which in the general template has no `return`,
whether or not it has assigned anything. -/
def assigned (T : Template) (s : Ownership) : Ownership :=
  { s with undefined := s.undefined || T = .general }

/-- A new object, move-constructed from object `i`. -/
def moveConstruct (T : Template) (s : Ownership) (i : Nat) (other : Object) : Ownership :=
  (s.put i (some (Object.moveConstruct T other).2)).add (some (Object.moveConstruct T other).1)

/-- Object `j` move-assigned to object `i`. -/
def moveAssign (T : Template) (s : Ownership) (i j : Nat) (this other : Object) : Ownership :=
  (s.put i (some (Object.moveAssign T this other).1)).put j
    (some (Object.moveAssign T this other).2)

inductive Action where
  /-- An object is default-constructed. -/
  | default
  /-- A coroutine is called: its promise, its flag and its object come to
  be. -/
  | start
  /-- An object is move-constructed from `other`. -/
  | moveConstruct (other : Nat)
  /-- `other` is move-assigned to `this`. -/
  | moveAssign (this other : Nat)
  /-- The object is destroyed. -/
  | drop (i : Nat)
  deriving DecidableEq, Repr

def step (T : Template) (s : Ownership) : Action → Option Ownership
  | .default => some (s.add (some {}))
  | .start =>
      let c := s.destroyed.length
      some { s.add (some { coroutine := some c, cancelled := some c }) with
        destroyed := s.destroyed ++ [false] }
  | .moveConstruct i =>
      match s.objectAt i with
      | none => none
      | some other => some (s.moveConstruct T i other)
  | .moveAssign i j =>
      match s.objectAt i, s.objectAt j with
      | some this, some other =>
          if i = j then some (s.assigned T)
          else some ((s.moveAssign T i j this other).assigned T)
      | _, _ => none
  | .drop i =>
      match s.objectAt i with
      | none => none
      | some o => some ((s.put i none).destroy o.coroutine)

/-- Objects of one of the templates, from none at all. -/
def system (T : Template) : System Ownership Action where
  init := {}
  step := step T

/-- An object that holds a coroutine has the flag of that coroutine, no two
hold the same one, and each that is not destroyed is held. -/
structure Paired (s : Ownership) : Prop where
  flags : ∀ i c, s.handle i = some c → s.flag i = some c
  unique : ∀ i j c, s.handle i = some c → s.handle j = some c → i = j
  owned : ∀ c, s.destroyed[c]? = some false → ∃ i, s.handle i = some c

/-- The steps that leave no handle without its flag and overwrite no
handle: the general template moves nothing from an object that holds a
coroutine, and neither template assigns to one. -/
def keepsPairing (T : Template) (s : Ownership) : Action → Bool
  | .moveConstruct i => T = .void || s.handle i = none
  | .moveAssign i j => i = j || (s.handle i = none && (T = .void || s.handle j = none))
  | _ => true

/-- The steps that do not call the `operator=` without a `return`. -/
def keepsDefined (T : Template) : Action → Bool
  | .moveAssign _ _ => T = .void
  | _ => true

/-- The runs of which every step keeps both. -/
def carefulSystem (T : Template) : System Ownership Action :=
  (system T).guarded fun s a => s.keepsPairing T a = true ∧ keepsDefined T a = true

/-- One constructor for each branch of `step`. -/
inductive Step (T : Template) (s : Ownership) : Action → Ownership → Prop where
  | default : Step T s .default (s.add (some {}))
  | start :
      Step T s .start
        { s.add (some { coroutine := some s.destroyed.length,
                        cancelled := some s.destroyed.length }) with
          destroyed := s.destroyed ++ [false] }
  | moveConstruct {i : Nat} {other : Object} :
      s.objectAt i = some other → Step T s (.moveConstruct i) (s.moveConstruct T i other)
  | selfAssign {i : Nat} : Step T s (.moveAssign i i) (s.assigned T)
  | moveAssign {i j : Nat} {this other : Object} :
      s.objectAt i = some this → s.objectAt j = some other → i ≠ j →
      Step T s (.moveAssign i j) ((s.moveAssign T i j this other).assigned T)
  | drop {i : Nat} {o : Object} :
      s.objectAt i = some o → Step T s (.drop i) ((s.put i none).destroy o.coroutine)

/-- **What a step can do.** -/
theorem step_cases {T : Template} {s s' : Ownership} {a : Action} (h : step T s a = some s') :
    Step T s a s' := by
  cases a with
  | default =>
      cases h
      exact .default
  | start =>
      cases h
      exact .start
  | moveConstruct i =>
      simp only [step] at h
      split at h
      · cases h
      · next other hi =>
        cases h
        exact .moveConstruct hi
  | moveAssign i j =>
      simp only [step] at h
      split at h
      · next this other hi hj =>
        split at h
        · next hij =>
          cases h
          subst hij
          exact .selfAssign
        · next hij =>
          cases h
          exact .moveAssign hi hj hij
      · cases h
  | drop i =>
      simp only [step] at h
      split at h
      · cases h
      · next o hi =>
        cases h
        exact .drop hi

/-! ## Handles and flags after an update -/

section update
variable {s : Ownership} {i k : Nat} {o : Option Object}

theorem lt_of_objectAt {o : Object} (h : s.objectAt i = some o) : i < s.objects.length := by
  have hi : s.objects[i]? = some (some o) := Option.join_eq_some_iff.mp h
  exact (List.getElem?_eq_some_iff.mp hi).1

theorem objectAt_put (hi : i < s.objects.length) :
    (s.put i o).objectAt k = if k = i then o else s.objectAt k := by
  rw [objectAt, put, List.getElem?_set]
  by_cases hk : k = i
  · subst hk
    simp [hi]
  · simp [hk, Ne.symm hk, objectAt]

theorem objectAt_add :
    (s.add o).objectAt k = if k = s.objects.length then o else s.objectAt k := by
  rw [objectAt, add, List.getElem?_append]
  by_cases hlt : k < s.objects.length
  · rw [if_pos hlt, if_neg (by omega)]
    rfl
  · by_cases hk : k = s.objects.length
    · subst hk
      simp
    · rw [if_neg hlt, if_neg hk, objectAt, List.getElem?_eq_none (by simp; omega),
        List.getElem?_eq_none (by omega)]

theorem handle_put (hi : i < s.objects.length) :
    (s.put i o).handle k = if k = i then o.bind Object.coroutine else s.handle k := by
  rw [handle, objectAt_put hi]
  exact apply_ite (Option.bind · Object.coroutine) _ _ _

theorem flag_put (hi : i < s.objects.length) :
    (s.put i o).flag k = if k = i then o.bind Object.cancelled else s.flag k := by
  rw [flag, objectAt_put hi]
  exact apply_ite (Option.bind · Object.cancelled) _ _ _

theorem handle_add :
    (s.add o).handle k = if k = s.objects.length then o.bind Object.coroutine else s.handle k := by
  rw [handle, objectAt_add]
  exact apply_ite (Option.bind · Object.coroutine) _ _ _

theorem flag_add :
    (s.add o).flag k = if k = s.objects.length then o.bind Object.cancelled else s.flag k := by
  rw [flag, objectAt_add]
  exact apply_ite (Option.bind · Object.cancelled) _ _ _

theorem handle_of_objectAt {o : Object} (h : s.objectAt i = some o) : s.handle i = o.coroutine := by
  rw [handle, h]
  rfl

theorem flag_of_objectAt {o : Object} (h : s.objectAt i = some o) : s.flag i = o.cancelled := by
  rw [flag, h]
  rfl

theorem handle_end : s.handle s.objects.length = none := by
  rw [handle, objectAt, List.getElem?_eq_none (Nat.le_refl _)]
  rfl

theorem ne_end_of_handle {c : Nat} (h : s.handle k = some c) : k ≠ s.objects.length := by
  rintro rfl
  rw [handle_end] at h
  cases h

/-- `destroy` ends the coroutine of its handle. -/
theorem getElem?_destroy {o : Option Nat} {c : Nat} :
    (s.destroy o).destroyed[c]? = some false ↔ s.destroyed[c]? = some false ∧ o ≠ some c := by
  cases o with
  | none => simp [destroy]
  | some d =>
      show (s.destroyed.set d true)[c]? = some false ↔ _
      rw [List.getElem?_set]
      by_cases hdc : d = c <;> simp [hdc]

/-- A coroutine that is called is one more that is not destroyed. -/
theorem getElem?_started {c : Nat} :
    (s.destroyed ++ [false])[c]? = some false ↔
      s.destroyed[c]? = some false ∨ c = s.destroyed.length := by
  rcases Nat.lt_trichotomy c s.destroyed.length with hlt | rfl | hgt
  · rw [List.getElem?_append_left hlt]
    exact ⟨.inl, fun h => h.resolve_right (Nat.ne_of_lt hlt)⟩
  · simp
  · rw [List.getElem?_append_right (Nat.le_of_lt hgt), List.getElem?_eq_none (Nat.le_of_lt hgt),
      List.getElem?_eq_none (by rw [List.length_singleton]; omega)]
    exact ⟨.inl, fun h => h.resolve_right (Nat.ne_of_gt hgt)⟩

@[simp] theorem handle_destroy {c : Option Nat} : (s.destroy c).handle k = s.handle k := by
  cases c <;> rfl

@[simp] theorem flag_destroy {c : Option Nat} : (s.destroy c).flag k = s.flag k := by
  cases c <;> rfl

@[simp] theorem handle_assigned {T : Template} : (s.assigned T).handle k = s.handle k := rfl

@[simp] theorem flag_assigned {T : Template} : (s.assigned T).flag k = s.flag k := rfl

@[simp] theorem length_put : (s.put i o).objects.length = s.objects.length := List.length_set

end update

/-! ## Moves -/

section moves
variable {T : Template} {s : Ownership} {i j k : Nat} {this other : Object}

/-- Both move constructors move the handle. -/
theorem handle_moveConstruct (hi : s.objectAt i = some other) :
    (s.moveConstruct T i other).handle k
      = if k = s.objects.length then s.handle i else if k = i then none else s.handle k := by
  rw [moveConstruct, handle_add, handle_put (lt_of_objectAt hi), length_put, handle_of_objectAt hi]
  cases T <;> rfl

/-- One of them moves the flag. -/
theorem flag_moveConstruct (hi : s.objectAt i = some other) :
    (s.moveConstruct T i other).flag k
      = if k = s.objects.length then (if T = .void then s.flag i else none)
        else if k = i then (if T = .void then none else s.flag i) else s.flag k := by
  rw [moveConstruct, flag_add, flag_put (lt_of_objectAt hi), length_put, flag_of_objectAt hi]
  cases T <;> rfl

theorem objectAt_moveAssign (hi : s.objectAt i = some this) (hj : s.objectAt j = some other)
    (hij : i ≠ j) :
    (s.moveAssign T i j this other).objectAt k
      = if k = i then some (Object.moveAssign T this other).1
        else if k = j then some (Object.moveAssign T this other).2 else s.objectAt k := by
  have hltJ : j < (s.put i (some (Object.moveAssign T this other).1)).objects.length := by
    rw [length_put]
    exact lt_of_objectAt hj
  have hne : k = j → ¬ k = i := by
    rintro rfl hki
    exact hij hki.symm
  rw [moveAssign, objectAt_put hltJ, objectAt_put (lt_of_objectAt hi)]
  exact ite_ite_comm _ _ _ _ hne

/-- Both assignments move the handle. -/
theorem handle_moveAssign (hi : s.objectAt i = some this) (hj : s.objectAt j = some other)
    (hij : i ≠ j) :
    (s.moveAssign T i j this other).handle k
      = if k = i then s.handle j else if k = j then none else s.handle k := by
  rw [handle, objectAt_moveAssign hi hj hij, handle_of_objectAt hj]
  simp only [apply_ite (Option.bind · Object.coroutine)]
  cases T <;> rfl

/-- One of them moves the flag. -/
theorem flag_moveAssign (hi : s.objectAt i = some this) (hj : s.objectAt j = some other)
    (hij : i ≠ j) :
    (s.moveAssign T i j this other).flag k
      = if k = i then (if T = .void then s.flag j else s.flag i)
        else if k = j then (if T = .void then none else s.flag j) else s.flag k := by
  rw [flag, objectAt_moveAssign hi hj hij, flag_of_objectAt hi, flag_of_objectAt hj]
  simp only [apply_ite (Option.bind · Object.cancelled)]
  cases T <;> rfl

end moves

/-! ## The invariant -/

/-- What careful runs keep: the flag of every object is that of its handle,
one object for each handle, and handles are the coroutines that are not
destroyed. -/
structure Sound (s : Ownership) : Prop where
  paired : ∀ i, s.flag i = s.handle i
  unique : ∀ i j c, s.handle i = some c → s.handle j = some c → i = j
  owned : ∀ c, s.destroyed[c]? = some false ↔ ∃ i, s.handle i = some c

namespace Sound

variable {s s' : Ownership} {i j : Nat}

theorem toPaired (h : Sound s) : Paired s where
  flags i _ hi := (h.paired i).trans hi
  unique := h.unique
  owned c := (h.owned c).mp

/-- A handle that goes from one object to another that holds none. -/
theorem transfer (h : Sound s) (hidle : s.handle j = none)
    (hpaired : ∀ k, s'.flag k = s'.handle k)
    (hhandle : ∀ k, s'.handle k = if k = j then s.handle i else if k = i then none else s.handle k)
    (hdestroyed : s'.destroyed = s.destroyed) : Sound s' := by
  -- who holds a handle now held it before, or got it from `i`
  have hold : ∀ k c, s'.handle k = some c →
      (k = j ∧ s.handle i = some c) ∨ (k ≠ j ∧ k ≠ i ∧ s.handle k = some c) := by
    intro k c hk
    rw [hhandle] at hk
    split at hk
    · next hkj => exact .inl ⟨hkj, hk⟩
    · next hkj =>
      obtain ⟨hki, hk⟩ := Option.ite_none_left_eq_some.mp hk
      exact .inr ⟨hkj, hki, hk⟩
  refine ⟨hpaired, ?_, ?_⟩
  · intro k l c hk hl
    rcases hold k c hk with ⟨rfl, hk⟩ | ⟨_, hki, hk⟩ <;>
      rcases hold l c hl with ⟨rfl, hl⟩ | ⟨_, hli, hl⟩
    · rfl
    · exact absurd (h.unique l i c hl hk) hli
    · exact absurd (h.unique k i c hk hl) hki
    · exact h.unique k l c hk hl
  · intro c
    rw [hdestroyed, h.owned]
    constructor
    · rintro ⟨k, hk⟩
      by_cases hki : k = i
      · exact ⟨j, by rw [hhandle, if_pos rfl, ← hki, hk]⟩
      · have hkj : k ≠ j := by
          rintro rfl
          rw [hidle] at hk
          cases hk
        exact ⟨k, by rw [hhandle, if_neg hkj, if_neg hki, hk]⟩
    · rintro ⟨k, hk⟩
      rcases hold k c hk with ⟨_, hi⟩ | ⟨_, _, hk⟩
      · exact ⟨i, hi⟩
      · exact ⟨k, hk⟩

/-- Handles and flags that stay where they are. -/
theorem of_eq (h : Sound s) (hhandle : ∀ k, s'.handle k = s.handle k)
    (hflag : ∀ k, s'.flag k = s.flag k) (hdestroyed : s'.destroyed = s.destroyed) : Sound s' := by
  refine ⟨?_, ?_, ?_⟩
  · intro k
    rw [hflag, hhandle, h.paired]
  · intro k l c hk hl
    rw [hhandle] at hk hl
    exact h.unique k l c hk hl
  · intro c
    simp only [hdestroyed, hhandle, h.owned]

/-- No object holds the coroutine that is called next. -/
theorem lt_of_handle (h : Sound s) {c : Nat} (hi : s.handle i = some c) : c < s.destroyed.length :=
  (List.getElem?_eq_some_iff.mp ((h.owned c).mpr ⟨i, hi⟩)).1

theorem start (h : Sound s) :
    Sound { s.add (some { coroutine := some s.destroyed.length,
                          cancelled := some s.destroyed.length }) with
      destroyed := s.destroyed ++ [false] } := by
  generalize hs' : { s.add (some { coroutine := some s.destroyed.length,
                                   cancelled := some s.destroyed.length }) with
      destroyed := s.destroyed ++ [false] } = s'
  have hhandle : ∀ k, s'.handle k
      = if k = s.objects.length then some s.destroyed.length else s.handle k := by
    intro k
    rw [← hs']
    exact handle_add
  have hflag : ∀ k, s'.flag k
      = if k = s.objects.length then some s.destroyed.length else s.flag k := by
    intro k
    rw [← hs']
    exact flag_add
  have hdestroyed : s'.destroyed = s.destroyed ++ [false] := by rw [← hs']
  refine ⟨?_, ?_, ?_⟩
  · intro k
    rw [hhandle, hflag, h.paired]
  · intro k l c hk hl
    rw [hhandle] at hk hl
    split at hk <;> split at hl
    · omega
    · cases hk
      exact absurd (h.lt_of_handle hl) (Nat.lt_irrefl _)
    · cases hl
      exact absurd (h.lt_of_handle hk) (Nat.lt_irrefl _)
    · exact h.unique k l c hk hl
  · intro c
    rw [hdestroyed, getElem?_started, h.owned]
    constructor
    · rintro (⟨k, hk⟩ | rfl)
      · exact ⟨k, by rw [hhandle, if_neg (ne_end_of_handle hk), hk]⟩
      · exact ⟨s.objects.length, by rw [hhandle, if_pos rfl]⟩
    · rintro ⟨k, hk⟩
      rw [hhandle] at hk
      split at hk
      · exact .inr (Option.some.inj hk).symm
      · exact .inl ⟨k, hk⟩

theorem drop (h : Sound s) {o : Object} (hi : s.objectAt i = some o) :
    Sound ((s.put i none).destroy o.coroutine) := by
  have hlt := lt_of_objectAt hi
  have hheld := handle_of_objectAt hi
  generalize hs' : (s.put i none).destroy o.coroutine = s'
  have hhandle : ∀ k, s'.handle k = if k = i then none else s.handle k := by
    intro k
    rw [← hs', handle_destroy, handle_put hlt]
    rfl
  have hflag : ∀ k, s'.flag k = if k = i then none else s.flag k := by
    intro k
    rw [← hs', flag_destroy, flag_put hlt]
    rfl
  have hdestroyed : ∀ c, s'.destroyed[c]? = some false ↔
      s.destroyed[c]? = some false ∧ s.handle i ≠ some c := by
    intro c
    rw [← hs', hheld]
    exact getElem?_destroy
  refine ⟨?_, ?_, ?_⟩
  · intro k
    rw [hhandle, hflag, h.paired]
  · intro k l c hk hl
    rw [hhandle] at hk hl
    exact h.unique k l c (Option.ite_none_left_eq_some.mp hk).2
      (Option.ite_none_left_eq_some.mp hl).2
  · intro c
    rw [hdestroyed, h.owned]
    constructor
    · rintro ⟨⟨k, hk⟩, hne⟩
      have hki : k ≠ i := by
        rintro rfl
        exact hne hk
      exact ⟨k, by rw [hhandle, if_neg hki, hk]⟩
    · rintro ⟨k, hk⟩
      rw [hhandle] at hk
      obtain ⟨hki, hk⟩ := Option.ite_none_left_eq_some.mp hk
      exact ⟨⟨k, hk⟩, fun hi' => hki (h.unique k i c hk hi')⟩

/-- A move construction that takes no handle away from its flag. -/
theorem moveConstruct {T : Template} (h : Sound s) {other : Object}
    (hi : s.objectAt i = some other) (hkeeps : T = .void ∨ s.handle i = none) :
    Sound (s.moveConstruct T i other) := by
  refine h.transfer handle_end ?_ (fun k => handle_moveConstruct hi) rfl
  intro k
  rw [flag_moveConstruct hi, handle_moveConstruct hi, h.paired, h.paired]
  rcases hkeeps with rfl | hnone
  · rfl
  · rw [hnone, ite_self]

/-- A move assignment that takes no handle away from its flag and
overwrites none. -/
theorem moveAssign {T : Template} (h : Sound s) {this other : Object}
    (hi : s.objectAt i = some this) (hj : s.objectAt j = some other) (hij : i ≠ j)
    (hidle : s.handle i = none) (hkeeps : T = .void ∨ s.handle j = none) :
    Sound (s.moveAssign T i j this other) := by
  refine h.transfer hidle ?_ (fun k => handle_moveAssign hi hj hij) rfl
  intro k
  rw [flag_moveAssign hi hj hij, handle_moveAssign hi hj hij, h.paired, h.paired, h.paired]
  rcases hkeeps with rfl | hnone
  · rfl
  · rw [hnone, hidle, ite_self]

/-- **What a step keeps.** -/
theorem step {T : Template} {a : Action} (h : Sound s) (hkeeps : s.keepsPairing T a = true)
    (hstep : Step T s a s') : Sound s' := by
  cases hstep with
  | default =>
      refine h.of_eq ?_ ?_ rfl
      · intro k
        rw [handle_add]
        split
        · next hk => rw [hk, handle_end]; rfl
        · rfl
      · intro k
        rw [flag_add]
        split
        · next hk => rw [hk, h.paired, handle_end]; rfl
        · rfl
  | start => exact h.start
  | moveConstruct hi =>
      apply h.moveConstruct hi
      simpa [keepsPairing] using hkeeps
  | selfAssign => exact h.of_eq (fun _ => rfl) (fun _ => rfl) rfl
  | @moveAssign i j _ _ hi hj hij =>
      have hboth : s.handle i = none ∧ (T = .void ∨ s.handle j = none) := by
        simpa [keepsPairing, hij] using hkeeps
      have hmoved := h.moveAssign hi hj hij hboth.1 hboth.2
      exact hmoved.of_eq (fun _ => rfl) (fun _ => rfl) rfl
  | drop hi => exact h.drop hi

/-- A step that keeps handles and flags together is one of those. -/
theorem keepsPairing_of_paired {T : Template} {a : Action} (h : Sound s) (hstep : Step T s a s')
    (hpaired : Paired s') : s.keepsPairing T a = true := by
  cases hstep with
  | @moveConstruct i other hi =>
      cases T with
      | void => rfl
      | general =>
          cases hc : s.handle i with
          | none => simp [keepsPairing, hc]
          | some c =>
              -- the new object holds the coroutine and has no flag
              have hflag := hpaired.flags s.objects.length c (by
                rw [handle_moveConstruct hi, if_pos rfl, hc])
              rw [flag_moveConstruct hi, if_pos rfl] at hflag
              cases hflag
  | @moveAssign i j this other hi hj hij =>
      have hidle : s.handle i = none := by
        cases hc : s.handle i with
        | none => rfl
        | some c =>
            -- nobody holds the coroutine that `this` held
            obtain ⟨k, hk⟩ := hpaired.owned c ((h.owned c).mpr ⟨i, hc⟩)
            rw [handle_assigned, handle_moveAssign hi hj hij] at hk
            split at hk
            · exact absurd (h.unique i j c hc hk) hij
            · next hki =>
              exact absurd (h.unique k i c (Option.ite_none_left_eq_some.mp hk).2 hc) hki
      cases T with
      | void => simp [keepsPairing, hidle]
      | general =>
          cases hc : s.handle j with
          | none => simp [keepsPairing, hidle, hc]
          | some c =>
              -- `this` has kept its own flag
              have hflag := hpaired.flags i c (by
                rw [handle_assigned, handle_moveAssign hi hj hij, if_pos rfl, hc])
              rw [flag_assigned, flag_moveAssign hi hj hij, if_pos rfl, if_neg (by decide),
                h.paired, hidle] at hflag
              cases hflag
  | selfAssign => simp [keepsPairing]
  | _ => rfl

end Sound

/-! ## Careful runs -/

section careful
variable {T : Template} {s s' : Ownership} {a : Action}

theorem undefined_step (hdefined : s.undefined = false) (hstep : Step T s a s') :
    keepsDefined T a = true ↔ s'.undefined = false := by
  cases hstep with
  | selfAssign => cases T <;> simp [keepsDefined, assigned, hdefined]
  | moveAssign _ _ _ => cases T <;> simp [keepsDefined, assigned, moveAssign, put, hdefined]
  | @drop _ o _ =>
      refine iff_of_true rfl ?_
      cases o.coroutine <;> exact hdefined
  | _ => exact iff_of_true rfl hdefined

theorem sound_of_reachable (h : (carefulSystem T).Reachable s) :
    Sound s ∧ s.undefined = false := by
  apply h.induction (P := fun s => Sound s ∧ s.undefined = false)
  · refine ⟨⟨fun _ => rfl, ?_, ?_⟩, rfl⟩
    · intro i j c hi
      cases hi
    · intro c
      refine iff_of_false (by intro hc; cases hc) ?_
      rintro ⟨i, hi⟩
      cases hi
  · intro s a s' _ ih hstep
    obtain ⟨⟨hpairing, hdefined⟩, hstep⟩ := System.guarded_step_eq_some.mp hstep
    have hcases := step_cases hstep
    exact ⟨ih.1.step hpairing hcases, (undefined_step ih.2 hcases).mp hdefined⟩

/-- **Ownership and cancellation stay paired** in every state that a run of
careful steps reaches; and of the steps that come next, those that keep
them paired are the ones that keep each handle with its flag and overwrite
none, and those that are defined call no `operator=` of the general
template. -/
theorem ownership_paired (h : (carefulSystem T).Reachable s) :
    Paired s ∧ s.undefined = false ∧
      ∀ a s', (system T).step s a = some s' →
        (s.keepsPairing T a = true ↔ Paired s') ∧
          (keepsDefined T a = true ↔ s'.undefined = false) := by
  obtain ⟨hsound, hdefined⟩ := sound_of_reachable h
  refine ⟨hsound.toPaired, hdefined, ?_⟩
  intro a s' hstep
  have hcases := step_cases hstep
  refine ⟨⟨?_, hsound.keepsPairing_of_paired hcases⟩, undefined_step hdefined hcases⟩
  intro hkeeps
  exact (hsound.step hkeeps hcases).toPaired

end careful

/-- An operation on `void` that is moved twice, the second time onto an
object that held none. -/
theorem ownership_paired_moved :
    let s : Ownership :=
      { objects := [some {}, some { coroutine := some 0, cancelled := some 0 }, some {}],
        destroyed := [false] }
    Paired s ∧ s.undefined = false ∧
      ∀ a s', (system .void).step s a = some s' →
        (s.keepsPairing .void a = true ↔ Paired s') ∧
          (keepsDefined .void a = true ↔ s'.undefined = false) :=
  ownership_paired ⟨[.start, .default, .moveConstruct 0, .moveAssign 1 2], rfl⟩

/-- In the general template a move construction leaves the flag behind; in
the other one an assignment leaves a coroutine behind. -/
theorem moves_unpair :
    (¬ ∀ s, (system .general).Reachable s → Paired s) ∧
      ¬ ∀ s, (system .void).Reachable s → Paired s := by
  constructor
  · intro h
    have hmoved : (system .general).Reachable
        { objects := [some { cancelled := some 0 }, some { coroutine := some 0 }],
          destroyed := [false] } := ⟨[.start, .moveConstruct 0], rfl⟩
    have hflag := (h _ hmoved).flags 1 0 rfl
    cases hflag
  · intro h
    have hassigned : (system .void).Reachable
        { objects := [some { coroutine := some 1, cancelled := some 1 }, some {}],
          destroyed := [false, false] } := ⟨[.start, .start, .moveAssign 0 1], rfl⟩
    obtain ⟨i, hi⟩ := (h _ hassigned).owned 0 rfl
    match i with
    | 0 => cases hi
    | 1 => cases hi
    | _ + 2 => cases hi

end Ownership

end Pine
