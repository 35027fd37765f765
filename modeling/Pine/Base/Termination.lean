import Mathlib.Algebra.GroupWithZero.Nat
import Pine.Base.Transition

/-!
# Base — Termination

How long the runs of a system can get, and where they end. A `potential`
pays for the steps: each one gains something out of the potential and of
what the step itself brings in, so a run gains no more than the potential
it started from and what its own steps brought in (`Amortized.run`). Where
every state that is not done has a step that leaves less potential, some
run of such steps ends in one that is (`exists_run_of_progress`,
`Amortized.exists_run_to`). Nothing here names the program this
development is about.
-/

universe u v

namespace Transition

namespace System

variable {σ : Type u} {α : Type v} {S : System σ α}

/-- From the states of an invariant, every step keeps it and gains `gain`,
out of the potential and its own `cost`. -/
def Amortized (S : System σ α) (P : σ → Prop) (potential : σ → Nat) (gain cost : α → Nat) :
    Prop :=
  ∀ s a s', P s → S.step s a = some s' → P s' ∧ gain a + potential s' ≤ potential s + cost a

/-- **Step to run**: a run gains no more than the potential and the costs. -/
theorem Amortized.run {P : σ → Prop} {potential : σ → Nat} {gain cost : α → Nat}
    (h : S.Amortized P potential gain cost) {s t : σ} {as : List α} (hs : P s)
    (hrun : S.runFrom s as = some t) :
    (as.map gain).sum + potential t ≤ potential s + (as.map cost).sum := by
  induction as generalizing s with
  | nil =>
      cases hrun
      simp
  | cons a as ih =>
      obtain ⟨s', hstep, hrest⟩ := runFrom_cons_eq_some.mp hrun
      obtain ⟨hs', hfirst⟩ := h s a s' hs hstep
      have hothers := ih hs' hrest
      rw [List.map_cons, List.map_cons, List.sum_cons, List.sum_cons]
      omega

/-- **Progress to an end**: where every state of an invariant is done, or
has a step of its own that keeps the invariant and leaves less potential,
such steps lead to a state that is done. -/
theorem exists_run_of_progress {P done : σ → Prop} (potential : σ → Nat) (own : α → Bool)
    (hprogress : ∀ s, P s → done s ∨
      ∃ a s', own a = true ∧ S.step s a = some s' ∧ P s' ∧ potential s' < potential s) {s : σ}
    (hs : P s) : ∃ as t, S.runFrom s as = some t ∧ (∀ a ∈ as, own a = true) ∧ done t := by
  induction hn : potential s using Nat.strongRecOn generalizing s with
  | ind n ih =>
      rcases hprogress s hs with hdone | ⟨a, s', hown, hstep, hs', hless⟩
      · exact ⟨[], s, rfl, List.forall_mem_nil _, hdone⟩
      · obtain ⟨as, t, hrun, hall, hend⟩ := ih (potential s') (hn ▸ hless) hs' rfl
        exact ⟨a :: as, t, runFrom_cons_eq_some.mpr ⟨s', hstep, hrun⟩,
          List.forall_mem_cons.mpr ⟨hown, hall⟩, hend⟩

/-- So they do where only states that are done have no step left that gains
and brings nothing in. -/
theorem Amortized.exists_run_to {P done : σ → Prop} {potential : σ → Nat} {gain cost : α → Nat}
    (h : S.Amortized P potential gain cost) (own : α → Bool)
    (hgain : ∀ a, own a = true → 0 < gain a ∧ cost a = 0)
    (hdone : ∀ s, P s → (∀ a, own a = true → S.step s a = none) → done s) {s : σ} (hs : P s) :
    ∃ as t, S.runFrom s as = some t ∧ (∀ a ∈ as, own a = true) ∧ done t := by
  refine exists_run_of_progress (P := P) potential own ?_ hs
  intro s hs
  by_cases hstuck : ∀ a, own a = true → S.step s a = none
  · exact .inl (hdone s hs hstuck)
  · simp only [not_forall, ← ne_eq, Option.ne_none_iff_exists'] at hstuck
    obtain ⟨a, hown, s', hstep⟩ := hstuck
    obtain ⟨hs', hless⟩ := h s a s' hs hstep
    have hpaid := hgain a hown
    exact .inr ⟨a, s', hown, hstep, hs', by omega⟩

end System

/-- Actions that gain one each are counted. -/
theorem sum_map_toNat {α : Type v} (p : α → Bool) (as : List α) :
    (as.map fun a => (p a).toNat).sum = as.countP p := by
  induction as with
  | nil => rfl
  | cons a as ih =>
      rw [List.map_cons, List.sum_cons, ih, List.countP_cons, Nat.add_comm]
      cases p a <;> rfl

/-! ## States with components -/

/-- One component changes, and the sum over all of them by as much. -/
theorem sum_map_set_add {σ : Type u} {l : List σ} {i : Nat} {x : σ} (h : l[i]? = some x)
    (f : σ → Nat) (y : σ) : ((l.set i y).map f).sum + f x = (l.map f).sum + f y := by
  induction l generalizing i with
  | nil => cases h
  | cons z l ih =>
      cases i with
      | zero =>
          cases h
          rw [List.set_cons_zero, List.map_cons, List.map_cons, List.sum_cons, List.sum_cons]
          omega
      | succ i =>
          have hrest := ih h
          rw [List.set_cons_succ, List.map_cons, List.map_cons, List.sum_cons, List.sum_cons]
          omega

end Transition
