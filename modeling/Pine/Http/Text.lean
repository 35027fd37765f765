import Pine.Base.SortedMap
import Pine.Base.Search
import Mathlib.Data.UInt

/-!
# Http — Text

Byte strings with the member functions of `std::string` and
`std::string_view` that the parser calls, and the two ways a call of it
can fail: an unexpected `std::error_code`, or the `std::out_of_range`
that `at` and `substr` throw. Positions and sizes are `Nat`: no
`std::string` is long enough for a position to wrap. The one unsigned
difference that can go below zero is `sizeDiff`.
-/

namespace Pine

open Search

abbrev Bytes := List UInt8

/-- The bytes of an ASCII literal. -/
def bytes (s : String) : Bytes := s.toList.map (fun c => UInt8.ofNat c.toNat)

def cr : UInt8 := 13
def lf : UInt8 := 10
def colon : UInt8 := 58
def space : UInt8 := 32
def slash : UInt8 := 47

/-- `pine::crlf`. -/
def crlf : Bytes := [cr, lf]

theorem crlf_ne_nil : crlf ≠ [] := List.cons_ne_nil _ _

@[simp] theorem crlf_length : crlf.length = 2 := rfl

theorem unbordered_crlf : Unbordered crlf := by decide

/-! ## Error codes -/

/-- `pine::error`. -/
inductive Error where
  | success
  | parseErrorMethod
  | parseErrorUri
  | parseErrorVersion
  | parseErrorHeaders
  | parseErrorBody
  | parseErrorStatus
  | clientNotFound
  deriving DecidableEq, Repr

/-- The categories an error code of the library can have. -/
inductive Category where
  | pine
  | generic
  | system
  deriving DecidableEq, Repr

/-- `std::error_code`. -/
structure ErrorCode where
  value : Int
  category : Category
  deriving DecidableEq, Repr

/-- The underlying value of an enumerator of `pine::error`. -/
def Error.toInt : Error → Int
  | .success => 0
  | .parseErrorMethod => 1
  | .parseErrorUri => 2
  | .parseErrorVersion => 3
  | .parseErrorHeaders => 4
  | .parseErrorBody => 5
  | .parseErrorStatus => 6
  | .clientNotFound => 7

/-- The errors that say what could not be parsed. -/
def Error.isParseError : Error → Bool
  | .success => false
  | .clientNotFound => false
  | _ => true

/-- `pine::make_error_code`. -/
def makeErrorCode (e : Error) : ErrorCode := ⟨e.toInt, .pine⟩

/-- `std::make_error_code` of the `std::errc` with this underlying value. -/
def makeErrcCode (errc : Int) : ErrorCode := ⟨errc, .generic⟩

/-- `std::errc::operation_canceled`, with its value on Windows. -/
def errcOperationCanceled : Int := 105

/-- `std::errc::connection_reset`. -/
def errcConnectionReset : Int := 108

/-- `std::errc::message_size`. -/
def errcMessageSize : Int := 115

/-- `std::expected<T, std::error_code>`. -/
abbrev Expected (α : Type) := Except ErrorCode α

/-! ## Outcomes of a parsing call -/

/-- How a call ends: the `std::expected` it returns, or the exception
that leaves it. -/
inductive Outcome (α : Type) where
  | value (a : α)
  | unexpected (e : ErrorCode)
  | outOfRange
  deriving DecidableEq, Repr

/-- How a call of a `try_get_` helper ends, with the offset it leaves in
its reference parameter. -/
inductive Scan (α : Type) where
  | value (a : α) (offset : Nat)
  | unexpected (e : ErrorCode) (offset : Nat)
  | outOfRange
  deriving DecidableEq, Repr

/-- Go on with the value and the offset of a helper, or return its error
at once: the `if (!result) return make_unexpected(result.error())` after
every helper call. -/
def Scan.andThen {α β : Type} (s : Scan α) (k : α → Nat → Outcome β) : Outcome β :=
  match s with
  | .value a offset => k a offset
  | .unexpected e _ => .unexpected e
  | .outOfRange => .outOfRange

section andThen
variable {α β : Type} (k : α → Nat → Outcome β)

@[simp] theorem andThen_value (a : α) (o : Nat) : (Scan.value a o).andThen k = k a o := rfl

@[simp] theorem andThen_unexpected (e : ErrorCode) (o : Nat) :
    (Scan.unexpected e o).andThen k = .unexpected e := rfl

@[simp] theorem andThen_outOfRange : (Scan.outOfRange).andThen k = .outOfRange := rfl

/-- A sequence returns a value only through values of both parts. -/
theorem andThen_eq_value_iff {s : Scan α} {b : β} :
    s.andThen k = .value b ↔ ∃ a o, s = .value a o ∧ k a o = .value b := by
  cases s <;> simp

/-- A sequence returns an error where one of its parts does. -/
theorem andThen_eq_unexpected_iff {s : Scan α} {e : ErrorCode} :
    s.andThen k = .unexpected e ↔
      (∃ o, s = .unexpected e o) ∨ ∃ a o, s = .value a o ∧ k a o = .unexpected e := by
  cases s <;> simp

/-- A sequence throws where one of its parts does. -/
theorem andThen_eq_outOfRange_iff {s : Scan α} :
    s.andThen k = .outOfRange ↔
      s = .outOfRange ∨ ∃ a o, s = .value a o ∧ k a o = .outOfRange := by
  cases s <;> simp

end andThen

/-! ## String members -/

/-- The count `last - first` handed to `substr`, as an unsigned
difference: below zero it wraps to `npos` or just under, a count no
string is long enough for, written `none`. -/
def sizeDiff (last first : Nat) : Option Nat :=
  if first ≤ last then some (last - first) else none

/-- `substr(pos, count)`; a `count` of `none` reaches to the end. Throws
when `pos` is past the end. -/
def substr (s : Bytes) (pos : Nat) (count : Option Nat) : Option Bytes :=
  if s.length < pos then none
  else match count with
    | none => some (s.drop pos)
    | some n => some ((s.drop pos).take n)

/-- `find(pattern, pos)`, with `none` for `npos`. -/
def find (s pattern : Bytes) (pos : Nat) : Option Nat :=
  if s.length < pos then none
  else (firstIndex pattern (s.drop pos)).map (pos + ·)

/-- `at(pos)`, which throws when there is no such byte. -/
def byteAt (s : Bytes) (pos : Nat) : Option UInt8 := s[pos]?

theorem substr_of_le {s : Bytes} {pos : Nat} (h : pos ≤ s.length) (count : Option Nat) :
    substr s pos count
      = some (match count with | none => s.drop pos | some n => (s.drop pos).take n) := by
  cases count <;> simp [substr, Nat.not_lt.mpr h]

theorem substr_toEnd {s : Bytes} {pos : Nat} (h : pos ≤ s.length) :
    substr s pos none = some (s.drop pos) := substr_of_le h none

theorem substr_of_lt {s : Bytes} {pos : Nat} (h : s.length < pos) (count : Option Nat) :
    substr s pos count = none := if_pos h

theorem find_of_le {s : Bytes} {pos : Nat} (h : pos ≤ s.length) (pattern : Bytes) :
    find s pattern pos = (firstIndex pattern (s.drop pos)).map (pos + ·) :=
  if_neg (Nat.not_lt.mpr h)

/-- The byte a text is cut at is found behind the part in front of it. -/
theorem find_byte {s front back : Bytes} {b : UInt8} {pos : Nat} (hle : pos ≤ s.length)
    (h : s.drop pos = front ++ b :: back) (hfree : b ∉ front) :
    find s [b] pos = some (pos + front.length) := by
  rw [find_of_le hle, h, show front ++ b :: back = front ++ ([b] ++ back) from rfl,
    firstIndex_append (unbordered_singleton b) (List.cons_ne_nil _ _)
      (by rwa [List.singleton_infix_iff])]
  rfl

end Pine
