import Pine.Http.Request

/-!
# Http — Response

`http_response`, in the shape of the request module. The status is read
by trying every `"code reason"` text of the table in map order; the
texts are prefix-free, so the order does not matter.
-/

namespace Pine

/-- `pine::http_response`. -/
structure HttpResponse where
  body : Bytes := []
  headers : HeaderMap := SortedMap.empty
  status : HttpStatus := .ok
  version : HttpVersion := .http11
  deriving DecidableEq

/-- The status as it stands in the status line. -/
def HttpStatus.expected (s : HttpStatus) : Bytes := expectedStatus s.code s.string

namespace HttpResponse

/-- `http_response::get_header`: the empty string where there is none. -/
def getHeader (r : HttpResponse) (name : Bytes) : Bytes := (r.headers.find? name).getD []

/-- `http_response::set_body`. -/
def setBody (r : HttpResponse) (value : Bytes) : HttpResponse :=
  { r with
    body := value
    headers :=
      if value = [] then r.headers.erase contentLength
      else r.headers.insertOrAssign contentLength (decimal value.length) }

/-- `http_response::set_header`. -/
def setHeader (r : HttpResponse) (name value : Bytes) : HttpResponse :=
  { r with headers := r.headers.insertOrAssign name value }

/-- `http_response::set_status`. -/
def setStatus (r : HttpResponse) (value : HttpStatus) : HttpResponse := { r with status := value }

/-- `http_response::set_version`. -/
def setVersion (r : HttpResponse) (value : HttpVersion) : HttpResponse :=
  { r with version := value }

/-- The status line without its CRLF. -/
def statusLine (r : HttpResponse) : Bytes :=
  r.version.string ++ [space] ++ r.status.expected

/-- `http_response::to_string`. -/
def toString (r : HttpResponse) : Bytes :=
  r.statusLine ++ crlf ++ headerLines r.headers.entries ++ crlf ++ r.body

/-- `http_response::parse`. -/
def parse (response : Bytes) : Outcome HttpResponse :=
  (tryGetVersion response 0).andThen fun version offset =>
  let offset := offset + [space].length
  (tryGetStatus response offset).andThen fun status offset =>
  let offset := offset + crlf.length
  parseSection response offset fun headers body => { body, headers, status, version }

/-! ## The language of `parse` -/

theorem expected_ne_nil (status : HttpStatus) : status.expected ≠ [] := by
  cases status <;> decide

/-- `parse` on a text whose status line it can read. -/
theorem parse_statusLine (version : HttpVersion) (sep : UInt8) (status : HttpStatus)
    (after : Bytes) :
    let s := version.string ++ sep :: (status.expected ++ after)
    ∃ offset, s.drop offset = after.drop 2 ∧
      parse s = parseSection s offset fun headers body => { body, headers, status, version } := by
  intro s
  have hstatus : s.drop (version.string.length + 1) = status.expected ++ after :=
    List.drop_length_add_append 1
  have hle : version.string.length + 1 ≤ s.length :=
    le_length_of_drop_ne_nil (by
      rw [hstatus]
      intro hnil
      exact expected_ne_nil status (List.append_eq_nil_iff.mp hnil).1)
  refine ⟨version.string.length + 1 + status.expected.length + 2, ?_, ?_⟩
  · rw [← List.drop_drop, drop_of_append hstatus]
  · have hv : tryGetVersion s 0 = .value version (0 + version.string.length) :=
      tryGetPrefix_value prefixFree_version (Nat.zero_le _) (version_mem version)
        (List.prefix_append _ _)
    have hs : tryGetStatus s (version.string.length + 1)
        = .value status (version.string.length + 1 + status.expected.length) :=
      tryGetPrefix_value prefixFree_status hle (status_mem status)
        (by rw [hstatus]; exact List.prefix_append _ _)
    simp only [parse, hv, andThen_value, Nat.zero_add, List.length_singleton, hs, crlf_length]

/-- **What `parse` accepts, and what it returns.** The byte after the
version and the two bytes after the status are not looked at. -/
theorem parse_eq_value_iff {s : Bytes} {r : HttpResponse} :
    parse s = .value r ↔
      ∃ sep after fields,
        s = r.version.string ++ sep :: (r.status.expected ++ after) ∧
        HeaderBlock (after.drop 2) fields r.body ∧ r.headers = SortedMap.ofEntries fields := by
  constructor
  · intro h
    obtain ⟨version, o₁, hv, h₁⟩ := (andThen_eq_value_iff _).mp h
    obtain ⟨status, o₂, hs, _⟩ := (andThen_eq_value_iff _).mp h₁
    obtain ⟨text, hmem, ⟨rest, hrest⟩, _, rfl⟩ := tryGetPrefix_eq_value hv
    obtain rfl := string_of_version_mem hmem
    obtain ⟨text, hmem, ⟨after, hafter⟩, _, _⟩ := tryGetPrefix_eq_value hs
    obtain rfl := string_of_status_mem hmem
    rw [List.drop_zero] at hrest
    rw [Nat.zero_add, List.length_singleton, ← hrest, List.drop_length_add_append] at hafter
    obtain ⟨sep, rfl⟩ : ∃ sep, rest = sep :: (status.expected ++ after) := by
      cases rest with
      | nil => exact absurd hafter (by simp [expectedStatus])
      | cons sep tail => exact ⟨sep, congrArg (sep :: ·) hafter.symm⟩
    obtain ⟨offset, hdrop, hparse⟩ := parse_statusLine version sep status after
    rw [hrest] at hparse hdrop
    obtain ⟨fields, body, hb, rfl⟩ := parseSection_eq_value_iff.mp (hparse.symm.trans h)
    rw [hdrop] at hb
    exact ⟨sep, after, fields, hrest.symm, hb, rfl⟩
  · rintro ⟨sep, after, fields, rfl, hb, hheaders⟩
    obtain ⟨offset, hdrop, hparse⟩ := parse_statusLine r.version sep r.status after
    rw [hparse, parseSection_value (hdrop.symm ▸ hb), ← hheaders]

/-- **Where `parse` throws**: the message ends with its version, and
`substr` is asked for what starts one byte later. -/
theorem parse_eq_outOfRange_iff {s : Bytes} :
    parse s = .outOfRange ↔ ∃ v : HttpVersion, s = v.string := by
  constructor
  · intro h
    rcases (andThen_eq_outOfRange_iff _).mp h with hv | ⟨version, o₁, hv, h₁⟩
    · have hlt := (tryGetPrefix_eq_outOfRange_iff (List.cons_ne_nil _ _)).mp hv
      exact absurd hlt (Nat.not_lt_zero _)
    · obtain ⟨text, hmem, hpre, _, rfl⟩ := tryGetPrefix_eq_value hv
      obtain rfl := string_of_version_mem hmem
      rcases (andThen_eq_outOfRange_iff _).mp h₁ with hs | ⟨status, o₂, _, h₂⟩
      · have hlt := (tryGetPrefix_eq_outOfRange_iff (List.cons_ne_nil _ _)).mp hs
        rw [Nat.zero_add, List.length_singleton] at hlt
        rw [List.drop_zero] at hpre
        have hle := hpre.length_le
        exact ⟨version, (hpre.eq_of_length (by omega)).symm⟩
      · exact absurd h₂ parseSection_ne_outOfRange
  · intro h
    obtain ⟨v, rfl⟩ := h
    have hv : tryGetVersion v.string 0 = .value v (0 + v.string.length) :=
      tryGetPrefix_value prefixFree_version (Nat.zero_le _) (version_mem v) List.prefix_rfl
    have hs : tryGetStatus v.string (v.string.length + 1) = .outOfRange :=
      tryGetPrefix_pastEnd (Nat.lt_succ_self _) (List.cons_ne_nil _ _)
    simp only [parse, hv, andThen_value, Nat.zero_add, List.length_singleton, hs,
      andThen_outOfRange]

end HttpResponse

end Pine
