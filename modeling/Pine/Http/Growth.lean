import Pine.Http.HeaderLines
import Pine.Http.Response

/-!
# Http — Growth

What more text at the end of an accepted message does to it. It is more
of the body, and nothing else changes, exactly when the header section is
closed: it ends with its blank line, and no name has a last line with
nothing behind its colon, which would take the new text into its value.
A section that ends with the text is not over, whatever was read of it
(`body_grows_iff`).
-/

namespace Pine

open SortedMap

/-- The section has its blank line, and every name gets its value from its
own last line. -/
def ClosedSection (text : Bytes) : Prop :=
  ∃ lines body, text = linesText lines ++ (crlf ++ body) ∧ LinesWellFormed lines ∧
    ∀ name, lastIn lines name ≠ some []

/-- Behind the two bytes that are skipped `after` goes on as a section
with these headers, and all that is added is added to the body. -/
def Grows (after : Bytes) (headers : HeaderMap) (body : Bytes) : Prop :=
  ∀ extra, ∃ fields, HeaderBlock ((after ++ extra).drop 2) fields (body ++ extra) ∧
    ofEntries fields = headers

section grows
variable {after extra body : Bytes} {lines fields : List (Bytes × Bytes)}

/-- The section of the lines, with its blank line. -/
theorem headerBlock_closed (hlines : LinesWellFormed lines) (body : Bytes) :
    HeaderBlock (linesText lines ++ (crlf ++ body)) (lineFields lines (crlf ++ body)) body :=
  headerBlock_iff_lines.mpr ⟨lines, crlf ++ body, rfl, hlines, .blank body, rfl⟩

/-- Text behind a section that has started is text behind the section. -/
theorem drop_append_extra (h : after.drop 2 ≠ []) :
    (after ++ extra).drop 2 = after.drop 2 ++ extra := by
  rw [List.drop_append_of_le_length (le_length_of_drop_ne_nil h)]

/-- Lines that keep their values to themselves are read the same whatever
follows. -/
theorem ofEntries_lineFields_congr (h : ∀ name, lastIn lines name ≠ some []) (tail tail' : Bytes) :
    ofEntries (lineFields lines tail) = ofEntries (lineFields lines tail') := by
  apply ext_find?
  intro name
  rw [find?_ofEntries, find?_ofEntries]
  cases hlast : lastIn lines name with
  | none =>
      rw [lastIn_lineFields_eq_none_iff.mpr hlast, lastIn_lineFields_eq_none_iff.mpr hlast]
  | some after =>
      have hne : after ≠ [] := by
        intro heq
        subst heq
        exact h name hlast
      rw [lastIn_lineFields_of_ne_nil hlast hne, lastIn_lineFields_of_ne_nil hlast hne]

/-- A section that ends with the text does not grow: a CRLF ends it, or is
skipped. -/
theorem not_grows_of_eof (hdrop : after.drop 2 = linesText lines) (hlines : LinesWellFormed lines)
    (headers : HeaderMap) : ¬ Grows after headers [] := by
  intro h
  obtain ⟨fields, hblock, _⟩ := h crlf
  by_cases hlen : 2 ≤ after.length
  · rw [List.drop_append_of_le_length hlen, hdrop, ← List.append_nil crlf] at hblock
    have hbody := (hblock.unique (headerBlock_closed hlines [])).2
    cases hbody
  · have hle := hblock.body_suffix.length_le
    simp only [List.length_append, List.length_nil, List.length_drop, crlf_length] at hle
    omega

/-- A line with nothing behind its colon takes in what is added. -/
theorem not_grows_of_nil {name : Bytes} (hdrop : after.drop 2 = linesText lines ++ (crlf ++ body))
    (hlines : LinesWellFormed lines) (hnil : lastIn lines name = some []) :
    ¬ Grows after (ofEntries (lineFields lines (crlf ++ body))) body := by
  intro h
  obtain ⟨fields, hblock, hfields⟩ := h crlf
  have hne : after.drop 2 ≠ [] := by
    rw [hdrop]
    simp [crlf]
  rw [drop_append_extra hne, hdrop, List.append_assoc, List.append_assoc] at hblock
  obtain ⟨rfl, _⟩ := hblock.unique (headerBlock_closed hlines (body ++ crlf))
  obtain ⟨pre, post, rfl, hpost⟩ := lastIn_eq_some_iff.mp hnil
  have hvalue := congrArg (fun m => m.find? name) hfields
  simp only [find?_ofEntries, lastIn_lineFields hpost, fieldValue, Option.some.injEq,
    List.cons.injEq, true_and, List.append_cancel_left_eq] at hvalue
  exact absurd (List.append_right_eq_self.mp hvalue) crlf_ne_nil

theorem ClosedSection.exists_headerBlock {text : Bytes} (h : ClosedSection text) :
    ∃ fields body, HeaderBlock text fields body := by
  obtain ⟨lines, body, rfl, hlines, _⟩ := h
  exact ⟨_, body, headerBlock_closed hlines body⟩

/-- **Only the body grows** where the section is closed. -/
theorem grows_iff (h : HeaderBlock (after.drop 2) fields body) :
    Grows after (ofEntries fields) body ↔ ClosedSection (after.drop 2) := by
  obtain ⟨lines, tail, hdrop, hlines, hend, rfl⟩ := headerBlock_iff_lines.mp h
  constructor
  · intro hgrows
    cases hend with
    | eof =>
        rw [List.append_nil] at hdrop
        exact absurd hgrows (not_grows_of_eof hdrop hlines _)
    | blank _ =>
        refine ⟨lines, body, hdrop, hlines, fun name hnil => ?_⟩
        exact not_grows_of_nil hdrop hlines hnil hgrows
  · intro hsection extra
    obtain ⟨lines', body', hdrop', hlines', hfull⟩ := hsection
    have hclosed := headerBlock_closed hlines' body'
    rw [← hdrop'] at hclosed
    obtain ⟨hfields, rfl⟩ := h.unique hclosed
    have hne : after.drop 2 ≠ [] := by
      rw [hdrop']
      simp [crlf]
    refine ⟨lineFields lines' (crlf ++ (body ++ extra)), ?_, ?_⟩
    · rw [drop_append_extra hne, hdrop', List.append_assoc, List.append_assoc]
      exact headerBlock_closed hlines' _
    · rw [hfields]
      exact ofEntries_lineFields_congr hfull _ _

end grows

namespace HttpRequest

/-- The request line can be read, and a closed section follows it. -/
def Closed (s : Bytes) : Prop :=
  ∃ (method : HttpMethod) (sep : UInt8) (uri : Bytes) (version : HttpVersion) (after : Bytes),
    s = method.string ++ sep :: (uri ++ space :: (version.string ++ after)) ∧
    uri.head? = some slash ∧ space ∉ uri ∧ ClosedSection (after.drop 2)

/-- What is added to a text whose request line can be read. -/
theorem parse_append_iff_grows (r : HttpRequest) {sep : UInt8} {after : Bytes}
    (hslash : r.uri.head? = some slash) (hspace : space ∉ r.uri) :
    (∀ extra, parse (r.method.string ++ sep :: (r.uri ++ space :: (r.version.string ++ after))
        ++ extra) = .value { r with body := r.body ++ extra }) ↔
      Grows after r.headers r.body := by
  apply forall_congr'
  intro extra
  have hassoc : r.method.string ++ sep :: (r.uri ++ space :: (r.version.string ++ after)) ++ extra
      = r.method.string ++ sep :: (r.uri ++ space :: (r.version.string ++ (after ++ extra))) := by
    simp
  obtain ⟨offset, hdrop, hparse⟩ :=
    parse_requestLine r.method sep r.version (after ++ extra) hslash hspace
  rw [hassoc, hparse, parseSection_eq_value_iff, hdrop]
  constructor
  · intro hread
    obtain ⟨fields, body, hblock, heq⟩ := hread
    injection heq with _ _ _ hheaders hbody
    subst hbody
    exact ⟨fields, hblock, hheaders.symm⟩
  · intro hgrows
    obtain ⟨fields, hblock, hfields⟩ := hgrows
    exact ⟨fields, _, hblock, by rw [hfields]⟩

theorem parse_append_iff {s : Bytes} {r : HttpRequest} (h : parse s = .value r) :
    (∀ extra, parse (s ++ extra) = .value { r with body := r.body ++ extra }) ↔ Closed s := by
  constructor
  · intro hall
    obtain ⟨sep, after, fields, rfl, hslash, hspace, hblock, hheaders⟩ := parse_eq_value_iff.mp h
    rw [parse_append_iff_grows r hslash hspace, hheaders, grows_iff hblock] at hall
    exact ⟨r.method, sep, r.uri, r.version, after, rfl, hslash, hspace, hall⟩
  · intro htext
    obtain ⟨method, sep, uri, version, after, rfl, hslash, hspace, hclosed⟩ := htext
    obtain ⟨fields, body, hblock⟩ := hclosed.exists_headerBlock
    have hread : parse (method.string ++ sep :: (uri ++ space :: (version.string ++ after)))
        = .value { method, uri, version, headers := ofEntries fields, body } :=
      parse_eq_value_iff.mpr ⟨sep, after, fields, rfl, hslash, hspace, hblock, rfl⟩
    rw [hread] at h
    cases h
    exact (parse_append_iff_grows { method, uri, version, headers := ofEntries fields, body }
      hslash hspace).mpr ((grows_iff hblock).mpr hclosed)

end HttpRequest

namespace HttpResponse

/-- The status line can be read, and a closed section follows it. -/
def Closed (s : Bytes) : Prop :=
  ∃ (version : HttpVersion) (sep : UInt8) (status : HttpStatus) (after : Bytes),
    s = version.string ++ sep :: (status.expected ++ after) ∧ ClosedSection (after.drop 2)

/-- What is added to a text whose status line can be read. -/
theorem parse_append_iff_grows (r : HttpResponse) {sep : UInt8} {after : Bytes} :
    (∀ extra, parse (r.version.string ++ sep :: (r.status.expected ++ after) ++ extra)
        = .value { r with body := r.body ++ extra }) ↔
      Grows after r.headers r.body := by
  apply forall_congr'
  intro extra
  have hassoc : r.version.string ++ sep :: (r.status.expected ++ after) ++ extra
      = r.version.string ++ sep :: (r.status.expected ++ (after ++ extra)) := by
    simp
  obtain ⟨offset, hdrop, hparse⟩ := parse_statusLine r.version sep r.status (after ++ extra)
  rw [hassoc, hparse, parseSection_eq_value_iff, hdrop]
  constructor
  · intro hread
    obtain ⟨fields, body, hblock, heq⟩ := hread
    injection heq with hbody hheaders
    subst hbody
    exact ⟨fields, hblock, hheaders.symm⟩
  · intro hgrows
    obtain ⟨fields, hblock, hfields⟩ := hgrows
    exact ⟨fields, _, hblock, by rw [hfields]⟩

theorem parse_append_iff {s : Bytes} {r : HttpResponse} (h : parse s = .value r) :
    (∀ extra, parse (s ++ extra) = .value { r with body := r.body ++ extra }) ↔ Closed s := by
  constructor
  · intro hall
    obtain ⟨sep, after, fields, rfl, hblock, hheaders⟩ := parse_eq_value_iff.mp h
    rw [parse_append_iff_grows r, hheaders, grows_iff hblock] at hall
    exact ⟨r.version, sep, r.status, after, rfl, hall⟩
  · intro htext
    obtain ⟨version, sep, status, after, rfl, hclosed⟩ := htext
    obtain ⟨fields, body, hblock⟩ := hclosed.exists_headerBlock
    have hread : parse (version.string ++ sep :: (status.expected ++ after))
        = .value { body, headers := ofEntries fields, status, version } :=
      parse_eq_value_iff.mpr ⟨sep, after, fields, rfl, hblock, rfl⟩
    rw [hread] at h
    cases h
    exact (parse_append_iff_grows { body, headers := ofEntries fields, status, version }).mpr
      ((grows_iff hblock).mpr hclosed)

end HttpResponse

/-- **Only the body grows**, whatever is added to an accepted message,
exactly when its header section is closed. -/
theorem body_grows_iff :
    (∀ (s : Bytes) (r : HttpRequest), HttpRequest.parse s = .value r →
      ((∀ extra, HttpRequest.parse (s ++ extra) = .value { r with body := r.body ++ extra }) ↔
        HttpRequest.Closed s)) ∧
    (∀ (s : Bytes) (r : HttpResponse), HttpResponse.parse s = .value r →
      ((∀ extra, HttpResponse.parse (s ++ extra) = .value { r with body := r.body ++ extra }) ↔
        HttpResponse.Closed s)) :=
  ⟨fun _ _ => HttpRequest.parse_append_iff, fun _ _ => HttpResponse.parse_append_iff⟩

/-- A request that ends with its header lines, and a response whose header
has nothing behind its colon. -/
theorem body_grows_iff_open :
    ((∀ extra, HttpRequest.parse (bytes "GET / HTTP/1.1\r\n" ++ extra)
        = .value { uri := bytes "/", body := [] ++ extra }) ↔
      HttpRequest.Closed (bytes "GET / HTTP/1.1\r\n")) ∧
    ((∀ extra, HttpResponse.parse (bytes "HTTP/1.1 200 OK\r\na:\r\n\r\n" ++ extra)
        = .value { headers := ofEntries [(bytes "a", bytes "\n\r\n")], body := [] ++ extra }) ↔
      HttpResponse.Closed (bytes "HTTP/1.1 200 OK\r\na:\r\n\r\n")) :=
  ⟨body_grows_iff.1 _ { uri := bytes "/" } (by decide +kernel),
    body_grows_iff.2 _ { headers := ofEntries [(bytes "a", bytes "\n\r\n")] } (by decide +kernel)⟩

end Pine
