import Mathlib.Logic.Basic

/-!
# Base — Transition

Systems given by a guarded, executable step: `step s a` is the state that
the action `a` leads to, and `none` where `a` is not enabled. A run is a
list of actions, so a concrete one is checked by evaluation, and every
statement about all runs comes down to one about a single step
(`runFrom_induction`, `Reachable.induction`). A system can be restricted
to the actions that meet a condition (`guarded`) and compared with a more
abstract one (`Simulation`). Nothing here names the program this
development is about.
-/

universe u v w x

namespace Transition

/-- An initial state and a guarded step. -/
structure System (σ : Type u) (α : Type v) where
  init : σ
  step : σ → α → Option σ

namespace System

variable {σ : Type u} {α : Type v} (S : System σ α)

/-- The state a run from `s` ends in, if every action is enabled. -/
def runFrom : σ → List α → Option σ
  | s, [] => some s
  | s, a :: as => (S.step s a).bind fun s' => runFrom s' as

def Reachable (s : σ) : Prop := ∃ as, S.runFrom S.init as = some s

variable {S}

theorem runFrom_cons_eq_some {s t : σ} {a : α} {as : List α} :
    S.runFrom s (a :: as) = some t ↔ ∃ s', S.step s a = some s' ∧ S.runFrom s' as = some t :=
  Option.bind_eq_some_iff

theorem runFrom_append {s s' t : σ} {as bs : List α} (h : S.runFrom s as = some s')
    (h' : S.runFrom s' bs = some t) : S.runFrom s (as ++ bs) = some t := by
  induction as generalizing s with
  | nil =>
      cases h
      exact h'
  | cons a as ih =>
      obtain ⟨s₁, hstep, hrun⟩ := runFrom_cons_eq_some.mp h
      exact runFrom_cons_eq_some.mpr ⟨s₁, hstep, ih hrun⟩

/-- **Step to run**: what every step preserves, every run preserves. -/
theorem runFrom_induction {P : σ → Prop}
    (hstep : ∀ s a s', S.step s a = some s' → P s → P s') {s t : σ} {as : List α}
    (hrun : S.runFrom s as = some t) (hs : P s) : P t := by
  induction as generalizing s with
  | nil =>
      cases hrun
      exact hs
  | cons a as ih =>
      obtain ⟨s', ha, hrest⟩ := runFrom_cons_eq_some.mp hrun
      exact ih hrest (hstep s a s' ha hs)

/-- A run of one system, taken in another that has its steps. -/
theorem runFrom_map {τ : Type w} {β : Type x} {T : System τ β} {f : σ → τ} {g : α → β}
    (hstep : ∀ s a s', S.step s a = some s' → T.step (f s) (g a) = some (f s')) {s t : σ}
    {as : List α} (hrun : S.runFrom s as = some t) :
    T.runFrom (f s) (as.map g) = some (f t) := by
  induction as generalizing s with
  | nil =>
      cases hrun
      rfl
  | cons a as ih =>
      obtain ⟨s', ha, hrest⟩ := runFrom_cons_eq_some.mp hrun
      exact runFrom_cons_eq_some.mpr ⟨f s', hstep s a s' ha, ih hrest⟩

theorem Reachable.init : S.Reachable S.init := ⟨[], rfl⟩

theorem Reachable.runFrom {s t : σ} {as : List α} (h : S.Reachable s)
    (hrun : S.runFrom s as = some t) : S.Reachable t := by
  obtain ⟨bs, hbs⟩ := h
  exact ⟨bs ++ as, runFrom_append hbs hrun⟩

theorem Reachable.step {s t : σ} {a : α} (h : S.Reachable s) (hstep : S.step s a = some t) :
    S.Reachable t := by
  have hrun : S.runFrom s [a] = some t := runFrom_cons_eq_some.mpr ⟨t, hstep, rfl⟩
  exact h.runFrom hrun

/-- **Invariants**: what holds at the start and is preserved by every step
from a reachable state holds in every reachable state. -/
theorem Reachable.induction {P : σ → Prop} {s : σ} (h : S.Reachable s) (hinit : P S.init)
    (hstep : ∀ s a s', S.Reachable s → P s → S.step s a = some s' → P s') : P s := by
  obtain ⟨as, hrun⟩ := h
  have hboth : S.Reachable s ∧ P s := by
    refine runFrom_induction (P := fun s => S.Reachable s ∧ P s) ?_ hrun ⟨.init, hinit⟩
    intro s a s' ha hs
    exact ⟨hs.1.step ha, hstep s a s' hs.1 hs.2 ha⟩
  exact hboth.2

/-! ## Restricted systems -/

/-- The system in which only the actions that `allowed` admits are taken. -/
def guarded (S : System σ α) (allowed : σ → α → Prop) [∀ s a, Decidable (allowed s a)] :
    System σ α where
  init := S.init
  step s a := if allowed s a then S.step s a else none

section guarded
variable {allowed : σ → α → Prop} [∀ s a, Decidable (allowed s a)]

theorem guarded_step_eq_some {s s' : σ} {a : α} :
    (S.guarded allowed).step s a = some s' ↔ allowed s a ∧ S.step s a = some s' :=
  Option.ite_none_right_eq_some

theorem runFrom_of_guarded {s t : σ} {as : List α}
    (hrun : (S.guarded allowed).runFrom s as = some t) : S.runFrom s as = some t := by
  have hmap : S.runFrom (id s) (as.map id) = some (id t) :=
    runFrom_map (fun _ _ _ hstep => (guarded_step_eq_some.mp hstep).2) hrun
  rwa [List.map_id] at hmap

theorem Reachable.of_guarded {s : σ} (h : (S.guarded allowed).Reachable s) : S.Reachable s := by
  obtain ⟨as, hrun⟩ := h
  exact ⟨as, runFrom_of_guarded hrun⟩

end guarded

end System

/-! ## States with components -/

/-- A component of a state that was updated at one place: the new one, or
another that stayed as it was. -/
theorem getElem?_set_cases {σ : Type u} {l : List σ} {i j : Nat} {x y : σ}
    (h : (l.set i x)[j]? = some y) : i = j ∧ y = x ∨ i ≠ j ∧ l[j]? = some y := by
  rw [List.getElem?_set] at h
  by_cases hij : i = j
  · rw [if_pos hij] at h
    exact .inl ⟨hij, (Option.some.inj (Option.ite_none_right_eq_some.mp h).2).symm⟩
  · rw [if_neg hij] at h
    exact .inr ⟨hij, h⟩

/-! ## Simulation -/

/-- Every step of `S` is a step of `T`, or nothing that `T` can tell, on
the states that `rel` relates. -/
structure Simulation {σ : Type u} {α : Type v} {τ : Type w} {β : Type x} (S : System σ α)
    (T : System τ β) (rel : σ → τ → Prop) : Prop where
  init : rel S.init T.init
  step : ∀ s a s' t, rel s t → S.step s a = some s' →
    rel s' t ∨ ∃ b t', T.step t b = some t' ∧ rel s' t'

/-- **Refinement**: a reachable state of the concrete system stands for a
reachable state of the abstract one. -/
theorem Simulation.reachable {σ : Type u} {α : Type v} {τ : Type w} {β : Type x}
    {S : System σ α} {T : System τ β} {rel : σ → τ → Prop} (h : Simulation S T rel) {s : σ}
    (hs : S.Reachable s) : ∃ t, T.Reachable t ∧ rel s t := by
  apply hs.induction (P := fun s => ∃ t, T.Reachable t ∧ rel s t)
  · exact ⟨T.init, .init, h.init⟩
  intro s a s' _ hs hstep
  obtain ⟨t, ht, hrel⟩ := hs
  rcases h.step s a s' t hrel hstep with hrel' | ⟨b, t', hb, hrel'⟩
  · exact ⟨t, ht, hrel'⟩
  · exact ⟨t', ht.step hb, hrel'⟩

end Transition
