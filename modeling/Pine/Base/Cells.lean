import Mathlib.Data.List.Induction

/-!
# Base — Cells

A state seen through cells: every operation writes some of them, each
with a value of its own, and leaves the rest. After a run of operations a
cell holds the value last written into it (`read_run`), so two runs end
in the same state exactly when they leave the same values
(`run_eq_iff`). Nothing here names the program this development is about.
-/

universe u v w x

namespace Cells

/-- A step that is a write of some cells, each of its own type. -/
structure Store (σ : Type u) (α : Type v) (ι : Type w) (V : ι → Type x) where
  read : σ → (i : ι) → V i
  step : σ → α → σ
  written : α → (i : ι) → Option (V i)
  read_step : ∀ s a i, read (step s a) i = (written a i).getD (read s i)

namespace Store

variable {σ : Type u} {α : Type v} {ι : Type w} {V : ι → Type x} (C : Store σ α ι V) {i : ι}

/-- The state after the operations. -/
def run (s : σ) (as : List α) : σ := as.foldl C.step s

/-- The value last written into a cell. -/
def lastWritten (as : List α) (i : ι) : Option (V i) :=
  (as.filterMap (C.written · i)).getLast?

/-- What the operations leave in a cell, from what was there. -/
def left (as : List α) (i : ι) (before : V i) : V i := (C.lastWritten as i).getD before

theorem lastWritten_concat (as : List α) (a : α) (i : ι) :
    C.lastWritten (as ++ [a]) i = (C.written a i).or (C.lastWritten as i) := by
  rw [lastWritten, List.filterMap_append, List.getLast?_append]
  cases h : C.written a i <;> simp [h, lastWritten]

/-- **The last write is what is read.** -/
theorem read_run (s : σ) (as : List α) (i : ι) :
    C.read (C.run s as) i = C.left as i (C.read s i) := by
  induction as using List.reverseRecOn with
  | nil => rfl
  | append_singleton as a ih =>
      rw [run, List.foldl_append, List.foldl_cons, List.foldl_nil, C.read_step, left,
        lastWritten_concat]
      cases C.written a i with
      | none => exact ih
      | some value => rfl

/-- What holds of every value written, and of what was there before, holds
of what is left. -/
theorem left_of_written {P : V i → Prop} {as : List α} {before : V i} (hbefore : P before)
    (hwritten : ∀ a ∈ as, ∀ value, C.written a i = some value → P value) :
    P (C.left as i before) := by
  rw [left]
  cases h : C.lastWritten as i with
  | none => exact hbefore
  | some value =>
      obtain ⟨a, hmem, hvalue⟩ := List.mem_filterMap.mp (List.mem_of_getLast? h)
      exact hwritten a hmem value hvalue

/-- **Equal states are equal cells**: two runs, where the cells tell the
states apart. -/
theorem run_eq_iff (hext : ∀ s t, (∀ i, C.read s i = C.read t i) → s = t) {s t : σ}
    {as bs : List α} :
    C.run s as = C.run t bs ↔ ∀ i, C.left as i (C.read s i) = C.left bs i (C.read t i) := by
  constructor
  · intro h i
    rw [← read_run, ← read_run, h]
  · intro h
    refine hext _ _ fun i => ?_
    rw [read_run, read_run, h i]

end Store

end Cells
