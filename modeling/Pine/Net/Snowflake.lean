import Mathlib.Data.List.Nodup
import Mathlib.Data.Nat.Bitwise

/-!
# Net — Snowflake

The ids of connections. A snowflake is four bit fields, and its id lays
them out from the timestamp down, so that ids read back and compare as
their fields do (`id_codec`). The default constructor is a generator
with a state of its own, the static `last_millisecond`, that it compares
with and does not assign: it keeps its initial zero for good
(`generateAll_eq_map`), so the sequence number never counts the snowflakes
of one millisecond.
-/

namespace Pine

/-- The bit fields of `pine::snowflake::value`. -/
structure Snowflake where
  timestamp : BitVec 42
  workerId : BitVec 5
  processId : BitVec 5
  sequence : BitVec 12
  deriving DecidableEq, Repr

namespace Snowflake

/-- `snowflake::operator uint64_t`. -/
def toId (s : Snowflake) : BitVec 64 :=
  s.timestamp.setWidth 64 <<< 22 ||| s.workerId.setWidth 64 <<< 17
    ||| s.processId.setWidth 64 <<< 12 ||| s.sequence.setWidth 64

/-- The initial value of `snowflake::last_millisecond`. -/
def initialMillisecond : BitVec 64 := 0

/-- `snowflake::snowflake()`, run at the clock reading `now` on memory
whose sequence bits are `stale`: the new snowflake and the static after
it. The fields have no initializers, so `value.sequence++` starts from
what the memory holds. -/
def generate (lastMillisecond : BitVec 64) (now : Nat) (stale : BitVec 12) :
    Snowflake × BitVec 64 :=
  let timestamp := BitVec.ofNat 42 now
  let sequence := if lastMillisecond = timestamp.setWidth 64 then stale + 1 else 0
  ({ timestamp, workerId := 0, processId := 0, sequence }, lastMillisecond)

/-- Constructions one after the other, each with its clock reading and
the memory it starts from. -/
def generateAll (lastMillisecond : BitVec 64) : List (Nat × BitVec 12) → List Snowflake
  | [] => []
  | (now, stale) :: rest =>
      let (s, lastMillisecond) := generate lastMillisecond now stale
      s :: generateAll lastMillisecond rest

/-- The ids a program gets from its constructions. -/
def ids (constructions : List (Nat × BitVec 12)) : List (BitVec 64) :=
  (generateAll initialMillisecond constructions).map toId

/-- No id twice, and each one above those before it. -/
def UniqueIncreasing (ids : List (BitVec 64)) : Prop := ids.Nodup ∧ ids.Pairwise (· < ·)

/-! ## The layout of an id -/

theorem mul_two_pow_or {a b k : Nat} (h : b < 2 ^ k) : a * 2 ^ k ||| b = a * 2 ^ k + b := by
  rw [← Nat.shiftLeft_eq, Nat.shiftLeft_add_eq_or_of_lt h]

/-- The fields do not overlap. -/
theorem toNat_toId (s : Snowflake) :
    s.toId.toNat = s.timestamp.toNat * 2 ^ 22 + s.workerId.toNat * 2 ^ 17
      + s.processId.toNat * 2 ^ 12 + s.sequence.toNat := by
  have ht := s.timestamp.isLt
  have hw := s.workerId.isLt
  have hp := s.processId.isLt
  have hs := s.sequence.isLt
  have hfields : s.toId.toNat
      = s.timestamp.toNat * 2 ^ 22 ||| s.workerId.toNat * 2 ^ 17
        ||| s.processId.toNat * 2 ^ 12 ||| s.sequence.toNat := by
    rw [toId, BitVec.toNat_or, BitVec.toNat_or, BitVec.toNat_or]
    simp only [BitVec.toNat_shiftLeft, BitVec.toNat_setWidth, Nat.shiftLeft_eq]
    congr <;> omega
  -- each field stays below the lowest bit of the one above it
  rw [hfields, mul_two_pow_or (by omega),
    show s.timestamp.toNat * 2 ^ 22 + s.workerId.toNat * 2 ^ 17
      = (s.timestamp.toNat * 2 ^ 5 + s.workerId.toNat) * 2 ^ 17 from by omega,
    mul_two_pow_or (by omega),
    show (s.timestamp.toNat * 2 ^ 5 + s.workerId.toNat) * 2 ^ 17 + s.processId.toNat * 2 ^ 12
      = ((s.timestamp.toNat * 2 ^ 5 + s.workerId.toNat) * 2 ^ 5 + s.processId.toNat) * 2 ^ 12
      from by omega,
    mul_two_pow_or (by omega)]

/-! ## Reading an id back -/

/-- `snowflake::snowflake(uint64_t const& id)`. -/
def ofId (id : BitVec 64) : Snowflake where
  timestamp := (id >>> 22).setWidth 42
  workerId := ((id >>> 17) &&& 0x1F).setWidth 5
  processId := ((id >>> 12) &&& 0x1F).setWidth 5
  sequence := (id &&& 0xFFF).setWidth 12

/-- `snowflake::operator==(snowflake const& other)`. -/
def equals (s other : Snowflake) : Bool :=
  s.timestamp == other.timestamp && s.workerId == other.workerId
    && s.processId == other.processId && s.sequence == other.sequence

/-- `snowflake::operator!=(snowflake const& other)`. -/
def differs (s other : Snowflake) : Bool := !s.equals other

/-- `snowflake::operator==(uint64_t const& other)`. -/
def equalsId (s : Snowflake) (other : BitVec 64) : Bool := s.toId == other

/-- `snowflake::operator!=(uint64_t const& other)`. -/
def differsFromId (s : Snowflake) (other : BitVec 64) : Bool := !s.equalsId other

/-- `snowflake::operator=(uint64_t const& id)`: nothing of the old value
is kept. -/
def assign (_ : Snowflake) (id : BitVec 64) : Snowflake := ofId id

/-- The fields from the most significant down. -/
def fields (s : Snowflake) : BitVec 42 × BitVec 5 × BitVec 5 × BitVec 12 :=
  (s.timestamp, s.workerId, s.processId, s.sequence)

/-- The lexicographic order of the fields. -/
def FieldsLt (a b : Snowflake) : Prop :=
  Prod.Lex (· < ·) (Prod.Lex (· < ·) (Prod.Lex (· < ·) (· < ·))) a.fields b.fields

section ofId
variable (id : BitVec 64)

theorem toNat_timestamp_ofId : (ofId id).timestamp.toNat = id.toNat / 2 ^ 22 := by
  have hid := id.isLt
  simp only [ofId, BitVec.toNat_setWidth, BitVec.toNat_ushiftRight, Nat.shiftRight_eq_div_pow]
  omega

theorem toNat_workerId_ofId : (ofId id).workerId.toNat = id.toNat / 2 ^ 17 % 2 ^ 5 := by
  have hmask : (0x1F : BitVec 64).toNat = 2 ^ 5 - 1 := rfl
  simp only [ofId, BitVec.toNat_setWidth, BitVec.toNat_and, BitVec.toNat_ushiftRight,
    Nat.shiftRight_eq_div_pow, hmask, Nat.and_two_pow_sub_one_eq_mod, Nat.mod_mod]

theorem toNat_processId_ofId : (ofId id).processId.toNat = id.toNat / 2 ^ 12 % 2 ^ 5 := by
  have hmask : (0x1F : BitVec 64).toNat = 2 ^ 5 - 1 := rfl
  simp only [ofId, BitVec.toNat_setWidth, BitVec.toNat_and, BitVec.toNat_ushiftRight,
    Nat.shiftRight_eq_div_pow, hmask, Nat.and_two_pow_sub_one_eq_mod, Nat.mod_mod]

theorem toNat_sequence_ofId : (ofId id).sequence.toNat = id.toNat % 2 ^ 12 := by
  have hmask : (0xFFF : BitVec 64).toNat = 2 ^ 12 - 1 := rfl
  simp only [ofId, BitVec.toNat_setWidth, BitVec.toNat_and, hmask,
    Nat.and_two_pow_sub_one_eq_mod, Nat.mod_mod]

/-- The fields leave no bit of an id out. -/
theorem toId_ofId : (ofId id).toId = id := by
  apply BitVec.eq_of_toNat_eq
  rw [toNat_toId, toNat_timestamp_ofId, toNat_workerId_ofId, toNat_processId_ofId,
    toNat_sequence_ofId]
  omega

end ofId

/-- The decoder takes the fields from where the encoder puts them. -/
theorem ofId_toId (s : Snowflake) : ofId s.toId = s := by
  have hid := toNat_toId s
  have hworker := s.workerId.isLt
  have hprocess := s.processId.isLt
  have hsequence := s.sequence.isLt
  have hfields : ∀ a : Snowflake, a.timestamp.toNat = s.timestamp.toNat →
      a.workerId.toNat = s.workerId.toNat → a.processId.toNat = s.processId.toNat →
      a.sequence.toNat = s.sequence.toNat → a = s := by
    intro a ht hw hp hs
    obtain ⟨t, w, p, q⟩ := a
    rw [Snowflake.mk.injEq]
    exact ⟨BitVec.eq_of_toNat_eq ht, BitVec.eq_of_toNat_eq hw, BitVec.eq_of_toNat_eq hp,
      BitVec.eq_of_toNat_eq hs⟩
  apply hfields
  · rw [toNat_timestamp_ofId, hid]
    omega
  · rw [toNat_workerId_ofId, hid]
    omega
  · rw [toNat_processId_ofId, hid]
    omega
  · rw [toNat_sequence_ofId, hid]
    omega

theorem equals_iff {a b : Snowflake} : a.equals b = true ↔ a = b := by
  obtain ⟨t, w, p, q⟩ := a
  obtain ⟨t', w', p', q'⟩ := b
  simp [equals, and_assoc]

/-- Comparing with an id is comparing with the snowflake that was assigned
it, for all four operators. -/
theorem equalsId_eq (s t : Snowflake) (id : BitVec 64) :
    s.equalsId id = s.equals (t.assign id) ∧ s.differsFromId id = s.differs (t.assign id) := by
  have heq : s.equalsId id = s.equals (t.assign id) := by
    rw [Bool.eq_iff_iff, equals_iff, equalsId, beq_iff_eq]
    constructor
    · rintro rfl
      exact (ofId_toId s).symm
    · rintro rfl
      exact toId_ofId id
  exact ⟨heq, congrArg Bool.not heq⟩

/-- Ids compare as their fields do. -/
theorem toId_lt_iff {a b : Snowflake} : a.toId < b.toId ↔ FieldsLt a b := by
  have hwa := a.workerId.isLt
  have hpa := a.processId.isLt
  have hsa := a.sequence.isLt
  have hwb := b.workerId.isLt
  have hpb := b.processId.isLt
  have hsb := b.sequence.isLt
  simp only [FieldsLt, fields, Prod.lex_def, BitVec.lt_def, ← BitVec.toNat_inj, toNat_toId]
  omega

/-- **The id of a snowflake is its fields**, one for one and in order. -/
theorem id_codec :
    (∀ id : BitVec 64, (ofId id).toId = id) ∧ (∀ s : Snowflake, ofId s.toId = s) ∧
      (∀ a b : Snowflake, a.equals b = true ↔ a.toId = b.toId) ∧
      ∀ a b : Snowflake, a.toId < b.toId ↔ FieldsLt a b := by
  refine ⟨toId_ofId, ofId_toId, ?_, fun a b => toId_lt_iff⟩
  intro a b
  rw [equals_iff]
  constructor
  · rintro rfl
    rfl
  · intro h
    rw [← ofId_toId a, h, ofId_toId]

/-! ## Runs of the generator -/

/-- The snowflake that the constructor makes while the static is zero. -/
def made (c : Nat × BitVec 12) : Snowflake := (generate initialMillisecond c.1 c.2).1

/-- **The static is never assigned**, so no construction knows of another. -/
theorem generateAll_eq_map (constructions : List (Nat × BitVec 12)) :
    generateAll initialMillisecond constructions = constructions.map made := by
  induction constructions with
  | nil => rfl
  | cons c rest ih => exact congrArg (made c :: ·) ih

theorem ids_eq_map (constructions : List (Nat × BitVec 12)) :
    ids constructions = constructions.map (fun c => (made c).toId) := by
  rw [ids, generateAll_eq_map, List.map_map]
  rfl

/-- A later millisecond gives a higher id. -/
theorem toId_made_lt {c d : Nat × BitVec 12} (h : c.1 < d.1) (hd : d.1 < 2 ^ 42) :
    (made c).toId < (made d).toId := by
  have hc : (made c).timestamp.toNat = c.1 := Nat.mod_eq_of_lt (by omega)
  have hd' : (made d).timestamp.toNat = d.1 := Nat.mod_eq_of_lt hd
  have hworker : (made c).workerId.toNat = 0 := rfl
  have hprocess : (made c).processId.toNat = 0 := rfl
  have hsequence := (made c).sequence.isLt
  rw [BitVec.lt_def, toNat_toId, toNat_toId]
  omega

/-- **Ids are unique and increasing** exactly when no two snowflakes are
generated in one millisecond. -/
theorem ids_unique_iff {readings : List Nat} (hsorted : readings.Pairwise (· ≤ ·))
    (hrange : ∀ now ∈ readings, now < 2 ^ 42) :
    (∀ constructions : List (Nat × BitVec 12), constructions.map Prod.fst = readings →
        UniqueIncreasing (ids constructions)) ↔
      readings.Nodup := by
  constructor
  · intro h
    -- the same memory under every construction
    have hmap : (readings.map (fun now => (now, (0 : BitVec 12)))).map Prod.fst = readings := by
      rw [List.map_map]
      exact List.map_id readings
    have hunique := (h _ hmap).1
    rw [ids_eq_map, List.map_map] at hunique
    exact hunique.of_map
  · rintro hnodup constructions rfl
    have hlt : (constructions.map Prod.fst).Pairwise (· < ·) :=
      (hsorted.and hnodup).imp (fun h => Nat.lt_of_le_of_ne h.1 h.2)
    rw [List.pairwise_map] at hlt
    have hincreasing : (ids constructions).Pairwise (· < ·) := by
      rw [ids_eq_map, List.pairwise_map]
      refine hlt.imp_of_mem ?_
      intro c d _ hd hcd
      exact toId_made_lt hcd (hrange d.1 (List.mem_map_of_mem hd))
    exact ⟨hincreasing.imp BitVec.ne_of_lt, hincreasing⟩

/-- Two snowflakes of two milliseconds. -/
theorem ids_unique_iff_two :
    (∀ constructions : List (Nat × BitVec 12), constructions.map Prod.fst = [5, 6] →
        UniqueIncreasing (ids constructions)) ↔
      [5, 6].Nodup :=
  ids_unique_iff (by decide) (by decide)

/-- Two snowflakes of one millisecond have one id. -/
theorem same_millisecond_same_id :
    ¬ ∀ constructions : List (Nat × BitVec 12),
        (constructions.map Prod.fst).Pairwise (· ≤ ·) →
        (∀ now ∈ constructions.map Prod.fst, now < 2 ^ 42) →
        (∀ now, (constructions.map Prod.fst).count now ≤ 4096) →
        UniqueIncreasing (ids constructions) := by
  intro h
  have hcount : ∀ now, ([(5, 0), (5, 0)].map (Prod.fst : Nat × BitVec 12 → Nat)).count now ≤ 4096 :=
    fun now => Nat.le_trans List.count_le_length (by decide)
  have hunique := h [(5, 0), (5, 0)] (by decide) (by decide) hcount
  exact absurd hunique.1 (by decide)

end Snowflake

end Pine
