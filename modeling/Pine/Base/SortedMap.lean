import Mathlib.Data.List.Lex
import Mathlib.Order.Defs.Unbundled

/-!
# Base — SortedMap

An association list kept strictly ascending by key: the content of an
ordered map such as `std::map`, in iteration order. The order invariant
is a field, so every map met later is sorted and its iteration order is
determined by its lookups (`ext_find?`). Nothing here names the program
this development is about.

The two facts a serializer/parser pair consumes are `find?_insertAll`
(what a run of insertions leaves behind) and `ofEntries_entries`
(inserting a map's own entries rebuilds the map).
-/

universe u v w

/-- A finite map as its entries in strictly ascending key order. -/
@[ext] structure SortedMap (κ : Type u) (ν : Type v) [LT κ] where
  entries : List (κ × ν)
  sorted : entries.Pairwise (fun a b => a.1 < b.1)

namespace SortedMap

variable {κ : Type u} {ν : Type v}

/-! ## Entry lists -/

section entryLists
variable [DecidableEq κ]

/-- The value of the first entry for `k`. -/
def lookupIn (k : κ) : List (κ × ν) → Option ν
  | [] => none
  | (k', v) :: rest => if k' = k then some v else lookupIn k rest

/-- The value of the last entry for `k`: what is left after assigning the
entries one after the other. -/
def lastIn (l : List (κ × ν)) (k : κ) : Option ν := lookupIn k l.reverse

theorem lookupIn_append (k : κ) (l₁ l₂ : List (κ × ν)) :
    lookupIn k (l₁ ++ l₂) = (lookupIn k l₁).or (lookupIn k l₂) := by
  induction l₁ with
  | nil => rfl
  | cons e rest ih =>
      obtain ⟨k', v⟩ := e
      by_cases hk : k' = k
      · simp [lookupIn, hk]
      · simp [lookupIn, hk, ih]

theorem mem_of_lookupIn {k : κ} {v : ν} {l : List (κ × ν)}
    (h : lookupIn k l = some v) : (k, v) ∈ l := by
  induction l with
  | nil => cases h
  | cons e rest ih =>
      obtain ⟨k', v'⟩ := e
      simp only [lookupIn] at h
      split at h
      · next hk =>
        cases h
        simp [hk]
      · exact List.mem_cons_of_mem _ (ih h)

theorem lookupIn_eq_none_iff {k : κ} {l : List (κ × ν)} :
    lookupIn k l = none ↔ ∀ e ∈ l, e.1 ≠ k := by
  induction l with
  | nil => simp [lookupIn]
  | cons e rest ih =>
      obtain ⟨k', v⟩ := e
      by_cases hk : k' = k <;> simp [lookupIn, hk, ih]

theorem lastIn_cons (e : κ × ν) (l : List (κ × ν)) (k : κ) :
    lastIn (e :: l) k = (lastIn l k).or (if e.1 = k then some e.2 else none) := by
  simp [lastIn, lookupIn_append, lookupIn]

theorem mem_of_lastIn {l : List (κ × ν)} {k : κ} {v : ν}
    (h : lastIn l k = some v) : (k, v) ∈ l :=
  List.mem_reverse.mp (mem_of_lookupIn h)

theorem lastIn_eq_none_iff {l : List (κ × ν)} {k : κ} :
    lastIn l k = none ↔ ∀ e ∈ l, e.1 ≠ k := by
  simp [lastIn, lookupIn_eq_none_iff]

theorem lastIn_append (l₁ l₂ : List (κ × ν)) (k : κ) :
    lastIn (l₁ ++ l₂) k = (lastIn l₂ k).or (lastIn l₁ k) := by
  simp [lastIn, lookupIn_append]

/-- An entry for another key at the end changes nothing. -/
theorem lastIn_concat_of_ne {k k' : κ} (h : k ≠ k') (l : List (κ × ν)) (v : ν) :
    lastIn (l ++ [(k', v)]) k = lastIn l k := by
  rw [lastIn_append, lastIn_cons, if_neg (Ne.symm h)]
  rfl

theorem lastIn_map {μ : Type w} (f : ν → μ) (l : List (κ × ν)) (k : κ) :
    lastIn (l.map fun e => (e.1, f e.2)) k = (lastIn l k).map f := by
  induction l with
  | nil => rfl
  | cons e rest ih =>
      rw [List.map_cons, lastIn_cons, lastIn_cons, ih]
      by_cases hk : e.1 = k <;> cases lastIn rest k <;> simp [hk]

/-- The last entry for a key is the last of those with that key. -/
theorem lastIn_eq_getLast? (l : List (κ × ν)) (k : κ) :
    lastIn l k = ((l.filter fun e => e.1 = k).map Prod.snd).getLast? := by
  induction l with
  | nil => rfl
  | cons e rest ih =>
      rw [lastIn_cons, ih]
      by_cases hk : e.1 = k
      · rw [List.filter_cons_of_pos (by simpa using hk), List.map_cons, List.getLast?_cons,
          if_pos hk]
        cases ((rest.filter fun e => e.1 = k).map Prod.snd).getLast? <;> rfl
      · rw [List.filter_cons_of_neg (by simpa using hk), if_neg hk, Option.or_none]

/-- **The last entry for a key**, with what stands before and behind it. -/
theorem lastIn_eq_some_iff {l : List (κ × ν)} {k : κ} {v : ν} :
    lastIn l k = some v ↔ ∃ pre post, l = pre ++ (k, v) :: post ∧ ∀ e ∈ post, e.1 ≠ k := by
  constructor
  · intro h
    induction l with
    | nil => cases h
    | cons e rest ih =>
        rw [lastIn_cons] at h
        cases hrest : lastIn rest k with
        | some v' =>
            rw [hrest] at h
            cases h
            obtain ⟨pre, post, rfl, hpost⟩ := ih hrest
            exact ⟨e :: pre, post, rfl, hpost⟩
        | none =>
            rw [hrest, Option.none_or] at h
            obtain ⟨hk, hv⟩ := Option.ite_none_right_eq_some.mp h
            cases hv
            exact ⟨[], rest, by rw [← hk]; rfl, lastIn_eq_none_iff.mp hrest⟩
  · intro h
    obtain ⟨pre, post, rfl, hpost⟩ := h
    rw [lastIn_append, lastIn_cons, lastIn_eq_none_iff.mpr hpost]
    simp

/-- Over distinct keys the first and the last entry for a key are the
same one. -/
theorem lookupIn_of_mem {l : List (κ × ν)} (hd : l.Pairwise (fun a b => a.1 ≠ b.1))
    {k : κ} {v : ν} (h : (k, v) ∈ l) : lookupIn k l = some v := by
  induction l with
  | nil => cases h
  | cons e rest ih =>
      obtain ⟨k', v'⟩ := e
      rw [List.pairwise_cons] at hd
      rcases List.mem_cons.mp h with heq | hmem
      · cases heq
        simp [lookupIn]
      · have hne : k' ≠ k := hd.1 (k, v) hmem
        simp only [lookupIn, if_neg hne]
        exact ih hd.2 hmem

theorem lastIn_of_mem {l : List (κ × ν)} (hd : l.Pairwise (fun a b => a.1 ≠ b.1))
    {k : κ} {v : ν} (h : (k, v) ∈ l) : lastIn l k = some v := by
  refine lookupIn_of_mem ?_ (List.mem_reverse.mpr h)
  rw [List.pairwise_reverse]
  exact hd.imp Ne.symm

/-- Drop the entries for `k`. -/
def removeIn (k : κ) (l : List (κ × ν)) : List (κ × ν) :=
  l.filter (fun e => !decide (e.1 = k))

theorem lookupIn_removeIn (k k' : κ) (l : List (κ × ν)) :
    lookupIn k' (removeIn k l) = if k = k' then none else lookupIn k' l := by
  unfold removeIn
  induction l with
  | nil => simp [lookupIn]
  | cons e rest ih =>
      obtain ⟨k₀, v₀⟩ := e
      by_cases h0 : k₀ = k
      · subst h0
        by_cases hk : k₀ = k' <;> simp [lookupIn, hk] at ih ⊢ <;> exact ih
      · rw [List.filter_cons_of_pos (by simpa using h0)]
        by_cases h1 : k₀ = k'
        · subst h1
          simp [lookupIn, Ne.symm h0]
        · simp only [lookupIn, if_neg h1, ih]

variable [LT κ] [DecidableLT κ]

/-- Put `(k, v)` at its place in an ascending list, replacing the entry
that already has the key. -/
def assignIn (k : κ) (v : ν) : List (κ × ν) → List (κ × ν)
  | [] => [(k, v)]
  | (k', v') :: rest =>
      if k = k' then (k, v) :: rest
      else if k < k' then (k, v) :: (k', v') :: rest
      else (k', v') :: assignIn k v rest

theorem lookupIn_assignIn (k k' : κ) (v : ν) (l : List (κ × ν)) :
    lookupIn k' (assignIn k v l) = if k = k' then some v else lookupIn k' l := by
  induction l with
  | nil => simp [assignIn, lookupIn]
  | cons e rest ih =>
      obtain ⟨k₀, v₀⟩ := e
      simp only [assignIn]
      split
      · next h0 =>
        subst h0
        by_cases hk : k = k' <;> simp [lookupIn, hk]
      · next h0 =>
        split
        · simp [lookupIn]
        · by_cases hk : k = k'
          · subst hk
            have hne : ¬ k₀ = k := fun h => h0 h.symm
            simp [lookupIn, hne, ih]
          · by_cases h1 : k₀ = k' <;> simp [lookupIn, h1, hk, ih]

theorem mem_assignIn {k : κ} {v : ν} {l : List (κ × ν)} {e : κ × ν}
    (h : e ∈ assignIn k v l) : e = (k, v) ∨ e ∈ l := by
  induction l with
  | nil => simpa [assignIn] using h
  | cons e₀ rest ih =>
      obtain ⟨k₀, v₀⟩ := e₀
      simp only [assignIn] at h
      split at h
      · rcases List.mem_cons.mp h with h | h
        · exact .inl h
        · exact .inr (List.mem_cons_of_mem _ h)
      · split at h
        · exact List.mem_cons.mp h
        · rcases List.mem_cons.mp h with h | h
          · exact .inr (h ▸ List.mem_cons_self)
          · exact (ih h).imp id (List.mem_cons_of_mem _)

variable [IsStrictTotalOrder κ (· < ·)]

theorem assignIn_sorted (k : κ) (v : ν) {l : List (κ × ν)}
    (h : l.Pairwise (fun a b => a.1 < b.1)) :
    (assignIn k v l).Pairwise (fun a b => a.1 < b.1) := by
  induction l with
  | nil => simp [assignIn]
  | cons e₀ rest ih =>
      obtain ⟨k₀, v₀⟩ := e₀
      rw [List.pairwise_cons] at h
      simp only [assignIn]
      split
      · next h0 =>
        subst h0
        exact List.pairwise_cons.mpr h
      · next h0 =>
        split
        · next hlt =>
          refine List.pairwise_cons.mpr ⟨fun e he => ?_, List.pairwise_cons.mpr h⟩
          rcases List.mem_cons.mp he with rfl | he
          · exact hlt
          · exact trans_of (· < ·) hlt (h.1 e he)
        · next hnlt =>
          refine List.pairwise_cons.mpr ⟨fun e he => ?_, ih h.2⟩
          rcases mem_assignIn he with rfl | he
          · -- the only order left between the two keys
            rcases trichotomous_of (· < ·) k k₀ with hk | hk | hk
            · exact absurd hk hnlt
            · exact absurd hk h0
            · exact hk
          · exact h.1 e he

end entryLists

/-! ## The map -/

section map
variable [LT κ]

instance [DecidableEq κ] [DecidableEq ν] : DecidableEq (SortedMap κ ν) :=
  fun a b => decidable_of_iff (a.entries = b.entries) SortedMap.ext_iff.symm

/-- The map without entries. -/
def empty : SortedMap κ ν := ⟨[], List.Pairwise.nil⟩

@[simp] theorem entries_empty : (empty : SortedMap κ ν).entries = [] := rfl

variable [DecidableEq κ]

/-- The value stored for `k`. -/
def find? (m : SortedMap κ ν) (k : κ) : Option ν := lookupIn k m.entries

/-- Remove the entry for `k`, if there is one. -/
def erase (m : SortedMap κ ν) (k : κ) : SortedMap κ ν :=
  ⟨removeIn k m.entries, m.sorted.filter _⟩

@[simp] theorem find?_empty (k : κ) : (empty : SortedMap κ ν).find? k = none := rfl

@[simp] theorem find?_erase (m : SortedMap κ ν) (k k' : κ) :
    (m.erase k).find? k' = if k = k' then none else m.find? k' :=
  lookupIn_removeIn k k' m.entries

variable [DecidableLT κ] [IsStrictTotalOrder κ (· < ·)]

/-- Insert or overwrite, as `std::map::insert_or_assign`. -/
def insertOrAssign (m : SortedMap κ ν) (k : κ) (v : ν) : SortedMap κ ν :=
  ⟨assignIn k v m.entries, assignIn_sorted k v m.sorted⟩

/-- Assign the pairs of a list one after the other. -/
def insertAll (m : SortedMap κ ν) (l : List (κ × ν)) : SortedMap κ ν :=
  l.foldl (fun m e => m.insertOrAssign e.1 e.2) m

/-- The map left by assigning the pairs of a list, starting from nothing. -/
def ofEntries (l : List (κ × ν)) : SortedMap κ ν := insertAll empty l

@[simp] theorem find?_insertOrAssign (m : SortedMap κ ν) (k k' : κ) (v : ν) :
    (m.insertOrAssign k v).find? k' = if k = k' then some v else m.find? k' :=
  lookupIn_assignIn k k' v m.entries

@[simp] theorem insertAll_nil (m : SortedMap κ ν) : m.insertAll [] = m := rfl

@[simp] theorem insertAll_cons (m : SortedMap κ ν) (e : κ × ν) (l : List (κ × ν)) :
    m.insertAll (e :: l) = (m.insertOrAssign e.1 e.2).insertAll l := rfl

/-- **What a run of assignments leaves**: the last value given for a key,
and the old value where the run gives none. -/
theorem find?_insertAll (m : SortedMap κ ν) (l : List (κ × ν)) (k : κ) :
    (m.insertAll l).find? k = (lastIn l k).or (m.find? k) := by
  induction l generalizing m with
  | nil => rfl
  | cons e rest ih =>
      rw [insertAll_cons, ih, lastIn_cons, find?_insertOrAssign, Option.or_assoc]
      by_cases hk : e.1 = k <;> simp [hk]

theorem find?_ofEntries (l : List (κ × ν)) (k : κ) :
    (ofEntries l).find? k = lastIn l k := by
  rw [ofEntries, find?_insertAll, find?_empty, Option.or_none]

/-! ## The entries are determined by the lookups -/

omit [DecidableEq κ] [DecidableLT κ] in
theorem keys_ne (m : SortedMap κ ν) : m.entries.Pairwise (fun a b => a.1 ≠ b.1) :=
  m.sorted.imp (fun {a b} hlt heq => by
    rw [heq] at hlt
    exact irrefl_of (· < ·) b.1 hlt)

omit [DecidableLT κ] in
theorem mem_entries_iff {m : SortedMap κ ν} {k : κ} {v : ν} :
    (k, v) ∈ m.entries ↔ m.find? k = some v :=
  ⟨lookupIn_of_mem m.keys_ne, mem_of_lookupIn⟩

omit [DecidableLT κ] in
/-- The place of a key among the entries. -/
theorem entries_split {m : SortedMap κ ν} {k : κ} {v : ν} (h : m.find? k = some v) :
    ∃ before behind, m.entries = before ++ (k, v) :: behind ∧ (∀ e ∈ before, e.1 < k) ∧
      ∀ e ∈ behind, k < e.1 := by
  obtain ⟨before, behind, hentries⟩ := List.append_of_mem (mem_entries_iff.mpr h)
  have hsorted := m.sorted
  rw [hentries, List.pairwise_append, List.pairwise_cons] at hsorted
  obtain ⟨_, ⟨hbehind, _⟩, hbefore⟩ := hsorted
  exact ⟨before, behind, hentries, fun e he => hbefore e he _ List.mem_cons_self, hbehind⟩

omit [DecidableLT κ] in
/-- Two maps with the same lookups have the same entries in the same
order. -/
theorem ext_find? {m₁ m₂ : SortedMap κ ν} (h : ∀ k, m₁.find? k = m₂.find? k) :
    m₁ = m₂ := by
  have hnd : ∀ m : SortedMap κ ν, m.entries.Nodup := fun m =>
    m.keys_ne.imp (fun hne heq => hne (congrArg Prod.fst heq))
  have hperm : m₁.entries.Perm m₂.entries := by
    rw [List.perm_ext_iff_of_nodup (hnd m₁) (hnd m₂)]
    rintro ⟨k, v⟩
    rw [mem_entries_iff, mem_entries_iff, h k]
  refine SortedMap.ext (hperm.eq_of_pairwise ?_ m₁.sorted m₂.sorted)
  intro a b _ _ hab hba
  exact absurd (trans_of (· < ·) hab hba) (irrefl_of (· < ·) _)

/-- **Inserting a map's own entries rebuilds it.** -/
theorem ofEntries_entries (m : SortedMap κ ν) : ofEntries m.entries = m := by
  refine ext_find? (fun k => ?_)
  rw [find?_ofEntries]
  cases hk : m.find? k with
  | none => exact lastIn_eq_none_iff.mpr (lookupIn_eq_none_iff.mp hk)
  | some v => exact lastIn_of_mem m.keys_ne (mem_entries_iff.mpr hk)

end map

end SortedMap
