import Pine.Http.HeaderBlock

/-!
# Http — Request

`http_request`: its fields and defaults, its setters, `to_string` and
`parse`. `parse_eq_value_iff` is the language of `parse`: what is
compared with the text and what is only skipped (the byte after the
method, and two bytes after the version).
-/

namespace Pine

/-- `pine::http_request`. -/
structure HttpRequest where
  method : HttpMethod := .get
  uri : Bytes := []
  version : HttpVersion := .http11
  headers : HeaderMap := SortedMap.empty
  body : Bytes := []
  deriving DecidableEq

/-- The name `set_body` writes and erases. -/
def contentLength : Bytes := bytes "Content-Length"

/-- `name + ": " + value + crlf`, one pass of the loop of `to_string`. -/
def headerLine (header : Bytes × Bytes) : Bytes :=
  header.1 ++ [colon, space] ++ header.2 ++ crlf

/-- The header lines of a serialized message, in map order. -/
def headerLines (headers : List (Bytes × Bytes)) : Bytes := headers.flatMap headerLine

namespace HttpRequest

/-- `http_request::get_header`: the empty string where there is none. -/
def getHeader (r : HttpRequest) (name : Bytes) : Bytes := (r.headers.find? name).getD []

/-- `http_request::set_body`. -/
def setBody (r : HttpRequest) (value : Bytes) : HttpRequest :=
  { r with
    body := value
    headers :=
      if value = [] then r.headers.erase contentLength
      else r.headers.insertOrAssign contentLength (decimal value.length) }

/-- `http_request::set_header`. -/
def setHeader (r : HttpRequest) (name value : Bytes) : HttpRequest :=
  { r with headers := r.headers.insertOrAssign name value }

/-- `http_request::set_method`. -/
def setMethod (r : HttpRequest) (value : HttpMethod) : HttpRequest := { r with method := value }

/-- `http_request::set_uri`. -/
def setUri (r : HttpRequest) (value : Bytes) : HttpRequest := { r with uri := value }

/-- `http_request::set_version`. -/
def setVersion (r : HttpRequest) (value : HttpVersion) : HttpRequest :=
  { r with version := value }

/-- The request line without its CRLF. -/
def requestLine (r : HttpRequest) : Bytes :=
  r.method.string ++ [space] ++ (r.uri ++ [space]) ++ r.version.string

/-- `http_request::to_string`. -/
def toString (r : HttpRequest) : Bytes :=
  r.requestLine ++ crlf ++ headerLines r.headers.entries ++ crlf ++ r.body

/-- `http_request::parse`. -/
def parse (request : Bytes) : Outcome HttpRequest :=
  (tryGetMethod request 0).andThen fun method offset =>
  let offset := offset + [space].length
  (tryGetUri request offset).andThen fun uri offset =>
  let offset := offset + [space].length
  (tryGetVersion request offset).andThen fun version offset =>
  let offset := offset + crlf.length
  parseSection request offset fun headers body => { method, uri, version, headers, body }

/-! ## The language of `parse` -/

/-- `parse` on a text whose request line it can read. -/
theorem parse_requestLine (method : HttpMethod) (sep : UInt8) {uri : Bytes}
    (version : HttpVersion) (after : Bytes) (hslash : uri.head? = some slash)
    (hspace : space ∉ uri) :
    let s := method.string ++ sep :: (uri ++ space :: (version.string ++ after))
    ∃ offset, s.drop offset = after.drop 2 ∧
      parse s = parseSection s offset fun headers body =>
        { method, uri, version, headers, body } := by
  intro s
  have huri : s.drop (method.string.length + 1) = uri ++ space :: (version.string ++ after) :=
    List.drop_length_add_append 1
  have hversion : s.drop (method.string.length + 1 + uri.length + 1)
      = version.string ++ after := by
    rw [← List.drop_drop, drop_of_append huri]
    rfl
  have hle : method.string.length + 1 + uri.length + 1 ≤ s.length :=
    le_length_of_drop_ne_nil (by
      rw [hversion]
      cases version
      simp [HttpVersion.string, bytes])
  refine ⟨method.string.length + 1 + uri.length + 1 + version.string.length + 2, ?_, ?_⟩
  · rw [← List.drop_drop, drop_of_append hversion]
  · have hm : tryGetMethod s 0 = .value method (0 + method.string.length) :=
      tryGetPrefix_value prefixFree_method (Nat.zero_le _) (method_mem method)
        (List.prefix_append _ _)
    have hu := tryGetUri_value huri hslash hspace
    have hv : tryGetVersion s (method.string.length + 1 + uri.length + 1)
        = .value version (method.string.length + 1 + uri.length + 1 + version.string.length) :=
      tryGetPrefix_value prefixFree_version hle (version_mem version)
        (by rw [hversion]; exact List.prefix_append _ _)
    simp only [parse, hm, andThen_value, Nat.zero_add, List.length_singleton, hu, hv,
      crlf_length]

/-- **What `parse` accepts, and what it returns.** The byte after the
method and the two bytes after the version are not looked at. -/
theorem parse_eq_value_iff {s : Bytes} {r : HttpRequest} :
    parse s = .value r ↔
      ∃ sep after fields,
        s = r.method.string ++ sep :: (r.uri ++ space :: (r.version.string ++ after)) ∧
        r.uri.head? = some slash ∧ space ∉ r.uri ∧
        HeaderBlock (after.drop 2) fields r.body ∧ r.headers = SortedMap.ofEntries fields := by
  constructor
  · intro h
    obtain ⟨method, o₁, hm, h₁⟩ := (andThen_eq_value_iff _).mp h
    obtain ⟨uri, o₂, hu, h₂⟩ := (andThen_eq_value_iff _).mp h₁
    obtain ⟨version, o₃, hv, _⟩ := (andThen_eq_value_iff _).mp h₂
    obtain ⟨text, hmem, ⟨rest, hrest⟩, _, rfl⟩ := tryGetPrefix_eq_value hm
    obtain rfl := string_of_method_mem hmem
    obtain ⟨rest', huri, hslash, hspace, rfl⟩ := tryGetUri_eq_value hu
    obtain ⟨text, hmem, ⟨after, hafter⟩, _, _⟩ := tryGetPrefix_eq_value hv
    obtain rfl := string_of_version_mem hmem
    -- the three tokens and the two bytes between them, put back together
    rw [List.drop_zero] at hrest
    rw [Nat.zero_add, List.length_singleton] at huri hafter
    have hsep : rest.drop 1 = uri ++ space :: rest' := by
      rw [← hrest, List.drop_length_add_append] at huri
      exact huri
    have hrest' : rest' = version.string ++ after := by
      rw [← List.drop_drop, drop_of_append huri] at hafter
      exact hafter.symm
    obtain ⟨sep, rfl⟩ : ∃ sep, rest = sep :: (uri ++ space :: rest') := by
      cases rest with
      | nil => exact absurd hsep (by simp)
      | cons sep tail => exact ⟨sep, congrArg (sep :: ·) hsep⟩
    subst hrest'
    obtain ⟨offset, hdrop, hparse⟩ := parse_requestLine method sep version after hslash hspace
    rw [hrest] at hparse hdrop
    obtain ⟨fields, body, hb, rfl⟩ := parseSection_eq_value_iff.mp (hparse.symm.trans h)
    rw [hdrop] at hb
    exact ⟨sep, after, fields, hrest.symm, hslash, hspace, hb, rfl⟩
  · rintro ⟨sep, after, fields, rfl, hslash, hspace, hb, hheaders⟩
    obtain ⟨offset, hdrop, hparse⟩ :=
      parse_requestLine r.method sep r.version after hslash hspace
    rw [hparse, parseSection_value (hdrop.symm ▸ hb), ← hheaders]

/-- **Where `parse` throws**: the message ends with its method or one
byte later, and `at` is asked for the byte after that. -/
theorem parse_eq_outOfRange_iff {s : Bytes} :
    parse s = .outOfRange ↔
      ∃ m : HttpMethod, m.string <+: s ∧ s.length ≤ m.string.length + 1 := by
  constructor
  · intro h
    rcases (andThen_eq_outOfRange_iff _).mp h with hm | ⟨method, o₁, hm, h₁⟩
    · have hlt := (tryGetPrefix_eq_outOfRange_iff (List.cons_ne_nil _ _)).mp hm
      exact absurd hlt (Nat.not_lt_zero _)
    · obtain ⟨text, hmem, hpre, _, rfl⟩ := tryGetPrefix_eq_value hm
      obtain rfl := string_of_method_mem hmem
      rcases (andThen_eq_outOfRange_iff _).mp h₁ with hu | ⟨uri, o₂, hu, h₂⟩
      · have hle := tryGetUri_eq_outOfRange_iff.mp hu
        rw [Nat.zero_add, List.length_singleton] at hle
        exact ⟨method, hpre, hle⟩
      · -- the space found after the uri keeps the version in range
        obtain ⟨rest, huri, _, _, rfl⟩ := tryGetUri_eq_value hu
        rcases (andThen_eq_outOfRange_iff _).mp h₂ with hv | ⟨version, o₃, _, h₃⟩
        · have hlt := (tryGetPrefix_eq_outOfRange_iff (List.cons_ne_nil _ _)).mp hv
          have hlen := congrArg List.length huri
          simp only [List.length_drop, List.length_append, List.length_cons,
            List.length_nil] at hlt hlen
          omega
        · exact absurd h₃ parseSection_ne_outOfRange
  · intro h
    obtain ⟨m, hpre, hlen⟩ := h
    have hm : tryGetMethod s 0 = .value m (0 + m.string.length) :=
      tryGetPrefix_value prefixFree_method (Nat.zero_le _) (method_mem m) hpre
    have hu : tryGetUri s (m.string.length + 1) = .outOfRange := tryGetUri_pastEnd hlen
    simp only [parse, hm, andThen_value, Nat.zero_add, List.length_singleton, hu,
      andThen_outOfRange]

end HttpRequest

end Pine
