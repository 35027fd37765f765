import Pine.Http.Response

/-!
# Http — Totality

Whether `parse` comes back with a result. Both parsers are meant to return
a message or one of the parse errors, and they do so for every text but a
few: `http_request::parse` asks `at` for the byte behind the method and
its separator, and `http_response::parse` asks `substr` for what starts
one byte behind the version, without looking whether the text is that
long (`request_returns_iff`, `response_returns_iff`).
-/

namespace Pine

/-- A call of `parse` that returns: a message, or one of the errors that
say what could not be parsed. No `at` and no `substr` on its way throws. -/
def Returns {α : Type} (outcome : Outcome α) : Prop :=
  outcome ≠ .outOfRange ∧
    ((∃ message, outcome = .value message) ∨
      ∃ e : Error, e.isParseError = true ∧ outcome = .unexpected (makeErrorCode e))

/-- All that is left to show is that nothing throws. -/
theorem returns_iff {α : Type} {outcome : Outcome α}
    (herror : ∀ e, outcome = .unexpected e →
      ∃ err : Error, err.isParseError = true ∧ e = makeErrorCode err) :
    Returns outcome ↔ outcome ≠ .outOfRange := by
  constructor
  · intro h
    exact h.1
  · intro hthrow
    refine ⟨hthrow, ?_⟩
    cases houtcome : outcome with
    | value message => exact .inl ⟨message, rfl⟩
    | unexpected e =>
        obtain ⟨err, hparse, rfl⟩ := herror e houtcome
        exact .inr ⟨err, hparse, rfl⟩
    | outOfRange => exact absurd houtcome hthrow

namespace HttpRequest

/-- The error of a stage is the error of that stage. -/
theorem parse_eq_unexpected {s : Bytes} {e : ErrorCode} (h : parse s = .unexpected e) :
    ∃ err : Error, err.isParseError = true ∧ e = makeErrorCode err := by
  rcases (andThen_eq_unexpected_iff _).mp h with ⟨o, hm⟩ | ⟨method, o₁, _, h₁⟩
  · exact ⟨.parseErrorMethod, rfl, tryGetPrefix_eq_unexpected hm⟩
  · rcases (andThen_eq_unexpected_iff _).mp h₁ with ⟨o, hu⟩ | ⟨uri, o₂, _, h₂⟩
    · exact ⟨.parseErrorUri, rfl, tryGetUri_eq_unexpected hu⟩
    · rcases (andThen_eq_unexpected_iff _).mp h₂ with ⟨o, hv⟩ | ⟨version, o₃, _, h₃⟩
      · exact ⟨.parseErrorVersion, rfl, tryGetPrefix_eq_unexpected hv⟩
      · exact ⟨.parseErrorHeaders, rfl, parseSection_eq_unexpected h₃⟩

/-- **Request parsing returns** on every text but a method with at most
one byte behind it. -/
theorem request_returns_iff (s : Bytes) :
    Returns (parse s) ↔ ∀ m : HttpMethod, m.string <+: s → m.string.length + 1 < s.length := by
  rw [returns_iff (fun e => parse_eq_unexpected), ne_eq, parse_eq_outOfRange_iff]
  constructor
  · intro h m hpre
    apply Nat.lt_of_not_le
    intro hle
    exact h ⟨m, hpre, hle⟩
  · intro h hthrow
    obtain ⟨m, hpre, hle⟩ := hthrow
    exact absurd (h m hpre) (Nat.not_lt.mpr hle)

/-- A bare method makes `parse` throw. -/
theorem bare_method_throws : ¬ ∀ s : Bytes, Returns (parse s) := by
  intro h
  have hthrow : parse (bytes "GET") = .outOfRange :=
    parse_eq_outOfRange_iff.mpr ⟨.get, List.prefix_rfl, by decide⟩
  exact (h (bytes "GET")).1 hthrow

end HttpRequest

namespace HttpResponse

/-- The error of a stage is the error of that stage. -/
theorem parse_eq_unexpected {s : Bytes} {e : ErrorCode} (h : parse s = .unexpected e) :
    ∃ err : Error, err.isParseError = true ∧ e = makeErrorCode err := by
  rcases (andThen_eq_unexpected_iff _).mp h with ⟨o, hv⟩ | ⟨version, o₁, _, h₁⟩
  · exact ⟨.parseErrorVersion, rfl, tryGetPrefix_eq_unexpected hv⟩
  · rcases (andThen_eq_unexpected_iff _).mp h₁ with ⟨o, hs⟩ | ⟨status, o₂, _, h₂⟩
    · exact ⟨.parseErrorStatus, rfl, tryGetPrefix_eq_unexpected hs⟩
    · exact ⟨.parseErrorHeaders, rfl, parseSection_eq_unexpected h₂⟩

/-- **Response parsing returns** on every text but the bare version. -/
theorem response_returns_iff (s : Bytes) :
    Returns (parse s) ↔ ∀ v : HttpVersion, s ≠ v.string := by
  rw [returns_iff (fun e => parse_eq_unexpected), ne_eq, parse_eq_outOfRange_iff]
  exact not_exists

/-- The bare version makes `parse` throw. -/
theorem bare_version_throws : ¬ ∀ s : Bytes, Returns (parse s) := by
  intro h
  have hthrow : parse (bytes "HTTP/1.1") = .outOfRange :=
    parse_eq_outOfRange_iff.mpr ⟨.http11, rfl⟩
  exact (h (bytes "HTTP/1.1")).1 hthrow

end HttpResponse

end Pine
