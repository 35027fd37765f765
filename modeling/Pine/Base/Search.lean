import Mathlib.Data.List.Infix

/-!
# Base — Search

First occurrences of a pattern in a list, the cut of a list there, the
first place where a pattern follows itself, and the pieces a list falls
into when it is cut again and again.
A pattern is `Unbordered` when no proper suffix of it is also a prefix
of it: two occurrences of it never overlap, so a text that is free of
the pattern can be put in front of one without creating an earlier
occurrence across the seam (`not_prefix_before`). That is what makes a
delimiter readable back, and it is all the parsers above need of one.
Nothing here names the program this development is about.
-/

universe u

namespace Search

variable {α : Type u}

/-- No proper suffix of `p` is a prefix of `p`. -/
def Unbordered (p : List α) : Prop :=
  ∀ k, k < p.length → 0 < k → ¬ p.drop k <+: p

instance [DecidableEq α] (p : List α) : Decidable (Unbordered p) :=
  inferInstanceAs (Decidable (∀ k, k < p.length → 0 < k → ¬ p.drop k <+: p))

theorem unbordered_singleton (a : α) : Unbordered [a] := by
  intro k hk h0
  simp only [List.length_singleton] at hk
  omega

/-- **No occurrence across the seam**: in front of an unbordered pattern,
a text free of it starts no occurrence either. -/
theorem not_prefix_before {p x : List α} (hu : Unbordered p) (hx : x ≠ [])
    (hfree : ¬ p <:+: x) (post : List α) : ¬ p <+: x ++ (p ++ post) := by
  intro hpre
  have hx0 : 0 < x.length := List.length_pos_iff.mpr hx
  by_cases hlen : p.length ≤ x.length
  · exact hfree (List.prefix_of_prefix_length_le hpre (List.prefix_append _ _) hlen).isInfix
  · have hxp : x <+: p :=
      List.prefix_of_prefix_length_le (List.prefix_append _ _) hpre (by omega)
    obtain ⟨q, rfl⟩ := hxp
    have hq : q <+: (x ++ q) ++ post := (List.prefix_append_right_inj x).mp hpre
    have hqp : q <+: x ++ q :=
      List.prefix_of_prefix_length_le hq (List.prefix_append _ _) (by simp)
    refine hu x.length (Nat.lt_of_not_le hlen) hx0 ?_
    simpa using hqp

/-- A pattern that does not contain `c` lies on one side of every `c`. -/
theorem infix_append_cons_iff {p a b : List α} {c : α} (hp : p ≠ []) (hc : c ∉ p) :
    p <:+: a ++ c :: b ↔ p <:+: a ∨ p <:+: b := by
  constructor
  · intro h
    induction a with
    | nil =>
        rw [List.nil_append, List.infix_cons_iff] at h
        rcases h with h | h
        · obtain ⟨x, p', rfl⟩ := List.exists_cons_of_ne_nil hp
          obtain ⟨rfl, _⟩ := List.cons_prefix_cons.mp h
          exact absurd List.mem_cons_self hc
        · exact .inr h
    | cons x a ih =>
        rw [List.cons_append, List.infix_cons_iff] at h
        rcases h with h | h
        · by_cases hlen : p.length ≤ (x :: a).length
          · exact .inl
              (List.prefix_of_prefix_length_le h (List.prefix_append (x :: a) _) hlen).isInfix
          · -- a prefix that long reaches over the `c`
            have hle : (x :: a ++ [c]).length ≤ p.length := by
              simp only [List.length_append, List.length_singleton]
              omega
            have hpre : x :: a ++ [c] <+: p :=
              List.prefix_of_prefix_length_le ⟨b, by simp⟩ h hle
            exact absurd (hpre.subset (by simp)) hc
        · exact (ih h).imp (fun h => List.infix_cons_iff.mpr (.inr h)) id
  · intro h
    rcases h with h | h
    · exact h.trans (List.prefix_append a (c :: b)).isInfix
    · exact h.trans ((List.suffix_cons c b).trans (List.suffix_append a (c :: b))).isInfix

/-- The split of a list at its first `c` is determined by the list. -/
theorem split_unique {c : α} {a₁ a₂ b₁ b₂ : List α} (h₁ : c ∉ a₁) (h₂ : c ∉ a₂)
    (h : a₁ ++ c :: b₁ = a₂ ++ c :: b₂) : a₁ = a₂ ∧ b₁ = b₂ := by
  induction a₁ generalizing a₂ with
  | nil =>
      cases a₂ with
      | nil => exact ⟨rfl, (List.cons.inj h).2⟩
      | cons x a₂ =>
          obtain ⟨rfl, _⟩ := List.cons.inj h
          exact absurd List.mem_cons_self h₂
  | cons x a₁ ih =>
      cases a₂ with
      | nil =>
          obtain ⟨rfl, _⟩ := List.cons.inj h
          exact absurd List.mem_cons_self h₁
      | cons y a₂ =>
          obtain ⟨rfl, htail⟩ := List.cons.inj h
          obtain ⟨rfl, hb⟩ := ih (fun hc => h₁ (List.mem_cons_of_mem x hc))
            (fun hc => h₂ (List.mem_cons_of_mem x hc)) htail
          exact ⟨rfl, hb⟩

section firstIndex
variable [DecidableEq α]

/-- Index of the first occurrence of `p`. -/
def firstIndex (p : List α) : List α → Option Nat
  | [] => if p = [] then some 0 else none
  | a :: s => if p <+: a :: s then some 0 else (firstIndex p s).map (· + 1)

theorem firstIndex_eq_none_iff {p s : List α} : firstIndex p s = none ↔ ¬ p <:+: s := by
  induction s with
  | nil => by_cases hp : p = [] <;> simp [firstIndex, hp]
  | cons a s ih =>
      rw [List.infix_cons_iff, firstIndex]
      by_cases hpre : p <+: a :: s <;> simp [hpre, ih]

theorem firstIndex_append {p pre : List α} (hu : Unbordered p) (hp : p ≠ [])
    (hfree : ¬ p <:+: pre) (post : List α) :
    firstIndex p (pre ++ (p ++ post)) = some pre.length := by
  induction pre with
  | nil =>
      obtain ⟨a, p', rfl⟩ := List.exists_cons_of_ne_nil hp
      simp [firstIndex]
  | cons a pre ih =>
      have hne := not_prefix_before hu (List.cons_ne_nil a pre) hfree post
      have hpre : ¬ p <:+: pre := fun h => hfree (List.infix_cons_iff.mpr (.inr h))
      rw [List.cons_append] at hne
      rw [List.cons_append, firstIndex, if_neg hne, ih hpre]
      simp

theorem firstIndex_eq_some {p s : List α} {i : Nat} (hp : p ≠ [])
    (h : firstIndex p s = some i) :
    ∃ pre post, s = pre ++ (p ++ post) ∧ pre.length = i ∧ ¬ p <:+: pre := by
  induction s generalizing i with
  | nil => simp [firstIndex, hp] at h
  | cons a s ih =>
      rw [firstIndex] at h
      split at h
      · next hpre =>
        cases h
        obtain ⟨post, hpost⟩ := hpre
        exact ⟨[], post, hpost.symm, rfl, by simpa using hp⟩
      · next hpre =>
        obtain ⟨j, hj, rfl⟩ := Option.map_eq_some_iff.mp h
        obtain ⟨pre, post, rfl, rfl, hfree⟩ := ih hj
        refine ⟨a :: pre, post, rfl, rfl, ?_⟩
        rw [List.infix_cons_iff]
        rintro (hp' | hin)
        · exact hpre (hp'.trans (by simp))
        · exact hfree hin

/-- Cut a list at the first occurrence of `p`: what stands before it and
what stands after it. -/
def cut (p s : List α) : Option (List α × List α) :=
  (firstIndex p s).map (fun i => (s.take i, s.drop (i + p.length)))

theorem cut_eq_none_iff {p s : List α} : cut p s = none ↔ ¬ p <:+: s := by
  simp [cut, firstIndex_eq_none_iff]

theorem cut_append {p pre : List α} (hu : Unbordered p) (hp : p ≠ [])
    (hfree : ¬ p <:+: pre) (post : List α) :
    cut p (pre ++ (p ++ post)) = some (pre, post) := by
  rw [cut, firstIndex_append hu hp hfree, Option.map_some, List.take_left,
    ← List.drop_drop, List.drop_left, List.drop_left]

/-- **The cut is the first occurrence**, and nothing else. -/
theorem cut_eq_some_iff {p s pre post : List α} (hu : Unbordered p) (hp : p ≠ []) :
    cut p s = some (pre, post) ↔ s = pre ++ (p ++ post) ∧ ¬ p <:+: pre := by
  constructor
  · intro h
    obtain ⟨i, hi, heq⟩ := Option.map_eq_some_iff.mp h
    obtain ⟨pre', post', rfl, rfl, hfree⟩ := firstIndex_eq_some hp hi
    have hcut := cut_append hu hp hfree post'
    rw [h] at hcut
    cases hcut
    exact ⟨rfl, hfree⟩
  · rintro ⟨rfl, hfree⟩
    exact cut_append hu hp hfree post

/-- A prefix that stops short of the first occurrence has none. -/
theorem not_infix_before {p pre post q : List α} (hu : Unbordered p) (hp : p ≠ [])
    (hfree : ¬ p <:+: pre) (hq : q <+: pre ++ (p ++ post))
    (hlen : q.length < pre.length + p.length) : ¬ p <:+: q := by
  intro hin
  cases hcut : cut p q with
  | none => exact cut_eq_none_iff.mp hcut hin
  | some split =>
      obtain ⟨a, b⟩ := split
      obtain ⟨rfl, ha⟩ := (cut_eq_some_iff hu hp).mp hcut
      obtain ⟨t, ht⟩ := hq
      rw [List.append_assoc, List.append_assoc] at ht
      -- both are the first occurrence in the longer list
      have hsame := cut_append hu hp ha (b ++ t)
      rw [ht, cut_append hu hp hfree post] at hsame
      obtain ⟨rfl, _⟩ := Prod.mk.inj (Option.some.inj hsame)
      simp only [List.length_append] at hlen
      omega

/-! ## Two patterns in a row -/

/-- No occurrence starts in a part of the list: the first one is behind
it. -/
theorem cut_skip {p x s : List α} (h : ∀ k, k < x.length → ¬ p <+: x.drop k ++ s) :
    cut p (x ++ s) = (cut p s).map fun split => (x ++ split.1, split.2) := by
  have hindex : firstIndex p (x ++ s) = (firstIndex p s).map (· + x.length) := by
    induction x with
    | nil => simp
    | cons a x ih =>
        have hrest := ih fun k hk => h (k + 1) (Nat.succ_lt_succ hk)
        have hhead : ¬ p <+: a :: (x ++ s) := h 0 (Nat.succ_pos _)
        rw [List.cons_append, firstIndex, if_neg hhead, hrest, Option.map_map]
        rfl
  rw [cut, cut, hindex, Option.map_map, Option.map_map]
  apply Option.map_congr
  intro i _
  simp only [Function.comp_apply]
  rw [Nat.add_comm i, List.take_length_add_append, Nat.add_assoc, List.drop_length_add_append]

section doubled
variable {p line : List α}

omit [DecidableEq α] in
theorem not_doubled_prefix (hu : Unbordered p) (hfree : ¬ p <:+: line) {rest : List α} {k : Nat}
    (hk : k < line.length) : ¬ p ++ p <+: line.drop k ++ (p ++ rest) := by
  intro h
  have hne : line.drop k ≠ [] := by simpa using hk
  have hfree' : ¬ p <:+: line.drop k := by
    intro hin
    exact hfree (hin.trans (List.drop_suffix k line).isInfix)
  exact not_prefix_before hu hne hfree' rest ((List.prefix_append p p).trans h)

/-- Two patterns in a row, the first of them the first of all. -/
theorem cut_doubled (hu : Unbordered p) (hp : p ≠ []) (hfree : ¬ p <:+: line) (post : List α) :
    cut (p ++ p) (line ++ (p ++ (p ++ post))) = some (line, post) := by
  rw [cut_skip fun k hk => not_doubled_prefix hu hfree hk]
  obtain ⟨a, q, rfl⟩ := List.exists_cons_of_ne_nil hp
  simp [cut, firstIndex]

/-- A pattern that stands alone is no part of two in a row. -/
theorem cut_doubled_skip (hu : Unbordered p) (hfree : ¬ p <:+: line) {rest : List α}
    (hrest : ¬ p <+: rest) :
    cut (p ++ p) (line ++ (p ++ rest))
      = (cut (p ++ p) rest).map fun split => (line ++ (p ++ split.1), split.2) := by
  have hskip : cut (p ++ p) (p ++ rest)
      = (cut (p ++ p) rest).map fun split => (p ++ split.1, split.2) := by
    apply cut_skip
    intro k hk h
    cases k with
    | zero => exact hrest ((List.prefix_append_right_inj p).mp h)
    | succ k =>
        -- an occurrence that starts inside the pattern gives it a border
        have hpre : p <+: p.drop (k + 1) ++ rest := (List.prefix_append p p).trans h
        refine hu (k + 1) hk (Nat.succ_pos k) ?_
        exact List.prefix_of_prefix_length_le (List.prefix_append _ _) hpre (by simp)
  rw [cut_skip fun k hk => not_doubled_prefix hu hfree hk, hskip, Option.map_map]
  rfl

end doubled

/-! ## Pieces -/

theorem cut_length {p s pre post : List α} (hp : p ≠ []) (h : cut p s = some (pre, post)) :
    post.length < s.length := by
  obtain ⟨i, hi, heq⟩ := Option.map_eq_some_iff.mp h
  obtain ⟨pre', post', rfl, rfl, _⟩ := firstIndex_eq_some hp hi
  cases heq
  have hpos := List.length_pos_iff.mpr hp
  simp only [List.length_drop, List.length_append]
  omega

/-- The pieces of a list between the leftmost occurrences of `p` that do
not overlap. -/
def splitOn (p s : List α) : List (List α) :=
  if _hp : p = [] then [s]
  else
    match _hcut : cut p s with
    | none => [s]
    | some (pre, post) => pre :: splitOn p post
termination_by s.length
decreasing_by exact cut_length _hp _hcut

theorem splitOn_free {p s : List α} (hfree : ¬ p <:+: s) : splitOn p s = [s] := by
  rw [splitOn]
  split
  · rfl
  · split
    · rfl
    · next _ _ hcut => exact absurd (cut_eq_none_iff.mpr hfree) (by simp [hcut])

theorem splitOn_append {p pre : List α} (hu : Unbordered p) (hp : p ≠ [])
    (hfree : ¬ p <:+: pre) (post : List α) :
    splitOn p (pre ++ (p ++ post)) = pre :: splitOn p post := by
  have happ := cut_append hu hp hfree post
  rw [splitOn, dif_neg hp]
  split
  · next hcut =>
    rw [happ] at hcut
    cases hcut
  · next hcut =>
    rw [happ] at hcut
    cases hcut
    rfl

/-- Induction along the pieces of a list. -/
@[elab_as_elim]
theorem cut_induction {p : List α} (hu : Unbordered p) (hp : p ≠ []) {motive : List α → Prop}
    (free : ∀ s, ¬ p <:+: s → motive s)
    (piece : ∀ pre post, ¬ p <:+: pre → motive post → motive (pre ++ (p ++ post)))
    (s : List α) : motive s := by
  cases hcut : cut p s with
  | none => exact free s (cut_eq_none_iff.mp hcut)
  | some split =>
      obtain ⟨pre, post⟩ := split
      have hshorter := cut_length hp hcut
      obtain ⟨rfl, hfree⟩ := (cut_eq_some_iff hu hp).mp hcut
      exact piece pre post hfree (cut_induction hu hp free piece post)
termination_by s.length

end firstIndex

end Search
