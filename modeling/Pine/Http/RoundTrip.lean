import Pine.Http.Response

/-!
# Http — RoundTrip

The lines `to_string` writes are a header section that reads back as the
fields they were written from, whatever section or text follows them
(`headerBlock_headerLines`). With the languages of the two parsers this
gives both round trips, and the fact the stream layer needs: text that
follows a serialized message is read as more of its body
(`parse_toString_append`).
-/

namespace Pine

/-- Fields the format can represent: no `:` and no CRLF in a name, no
CRLF in a value. -/
def FieldsWellFormed (fields : List (Bytes × Bytes)) : Prop :=
  ∀ e ∈ fields, colon ∉ e.1 ∧ ¬ crlf <:+: e.1 ∧ ¬ crlf <:+: e.2

instance (fields : List (Bytes × Bytes)) : Decidable (FieldsWellFormed fields) :=
  inferInstanceAs (Decidable (∀ e ∈ fields, _))

theorem FieldsWellFormed.tail {e : Bytes × Bytes} {fields : List (Bytes × Bytes)}
    (h : FieldsWellFormed (e :: fields)) : FieldsWellFormed fields :=
  fun e' he' => h e' (List.mem_cons_of_mem e he')

/-- A written line, split as `HeaderBlock.line` splits it. -/
theorem headerLine_append (name value rest : Bytes) :
    headerLine (name, value) ++ rest = (name ++ colon :: space :: value) ++ (crlf ++ rest) := by
  simp [headerLine]

theorem headerLine_free {name value : Bytes} (hname : ¬ crlf <:+: name)
    (hvalue : ¬ crlf <:+: value) : ¬ crlf <:+: name ++ colon :: space :: value := by
  rw [crlf_infix_colon_iff, crlf_infix_space_iff]
  rintro (h | h)
  · exact hname h
  · exact hvalue h

@[simp] theorem headerLines_nil : headerLines [] = [] := rfl

@[simp] theorem headerLines_cons (e : Bytes × Bytes) (fields : List (Bytes × Bytes)) :
    headerLines (e :: fields) = headerLine e ++ headerLines fields := rfl

/-- **Written lines read back**, in front of any section. -/
theorem headerBlock_headerLines {fields fields' : List (Bytes × Bytes)} {tail body : Bytes}
    (h : FieldsWellFormed fields) (htail : HeaderBlock tail fields' body) :
    HeaderBlock (headerLines fields ++ tail) (fields ++ fields') body := by
  induction fields with
  | nil => exact htail
  | cons e rest ih =>
      obtain ⟨name, value⟩ := e
      obtain ⟨hcolon, hname, hvalue⟩ := h (name, value) List.mem_cons_self
      have hline := HeaderBlock.line hcolon (headerLine_free hname hvalue) (ih h.tail)
      rw [headerLines_cons, List.append_assoc, headerLine_append]
      exact hline

/-- The section of a serialized message, with its blank line. -/
theorem headerBlock_serialized {m : HeaderMap} (h : FieldsWellFormed m.entries) (body : Bytes) :
    HeaderBlock (headerLines m.entries ++ (crlf ++ body)) m.entries body := by
  have hb := headerBlock_headerLines h (.blank body)
  rwa [List.append_nil] at hb

namespace HttpRequest

/-- A request the format can represent. -/
structure WellFormed (r : HttpRequest) : Prop where
  slash : r.uri.head? = some slash
  space : space ∉ r.uri
  headers : FieldsWellFormed r.headers.entries

instance (r : HttpRequest) : Decidable r.WellFormed :=
  decidable_of_iff
    (r.uri.head? = some Pine.slash ∧ Pine.space ∉ r.uri ∧ FieldsWellFormed r.headers.entries)
    ⟨fun h => ⟨h.1, h.2.1, h.2.2⟩, fun h => ⟨h.slash, h.space, h.headers⟩⟩

/-- `to_string` as `parse_eq_value_iff` splits a text. -/
theorem toString_eq (r : HttpRequest) :
    r.toString = r.method.string ++ Pine.space ::
      (r.uri ++ Pine.space :: (r.version.string ++
        (crlf ++ (headerLines r.headers.entries ++ (crlf ++ r.body))))) := by
  simp [toString, requestLine]

/-- Text after a serialized request is read as more of its body. -/
theorem parse_toString_append {r : HttpRequest} (h : r.WellFormed) (extra : Bytes) :
    parse (r.toString ++ extra) = .value { r with body := r.body ++ extra } := by
  rw [parse_eq_value_iff]
  refine ⟨Pine.space, crlf ++ (headerLines r.headers.entries ++ (crlf ++ (r.body ++ extra))),
    r.headers.entries, ?_, h.slash, h.space, ?_, (SortedMap.ofEntries_entries r.headers).symm⟩
  · rw [toString_eq]
    simp
  · exact headerBlock_serialized h.headers (r.body ++ extra)

/-- **Request round trip.** -/
theorem request_roundTrip (r : HttpRequest) (h : r.WellFormed) : parse r.toString = .value r := by
  have hparse := parse_toString_append h []
  rwa [List.append_nil, List.append_nil] at hparse

/-- A name and a value that end in a lone CR, an empty value, and a body
that starts like a blank line. -/
theorem request_roundTrip_delicate :
    parse (toString
      { method := .post, uri := bytes "/a",
        headers := SortedMap.ofEntries [(bytes "n\r", bytes "v\r"), (bytes "", bytes "")],
        body := bytes "\r\nHost: b\r\n" })
      = .value
      { method := .post, uri := bytes "/a",
        headers := SortedMap.ofEntries [(bytes "n\r", bytes "v\r"), (bytes "", bytes "")],
        body := bytes "\r\nHost: b\r\n" } :=
  request_roundTrip _ (by decide)

end HttpRequest

namespace HttpResponse

/-- A response the format can represent. -/
def WellFormed (r : HttpResponse) : Prop := FieldsWellFormed r.headers.entries

instance (r : HttpResponse) : Decidable r.WellFormed :=
  inferInstanceAs (Decidable (FieldsWellFormed r.headers.entries))

/-- `to_string` as `parse_eq_value_iff` splits a text. -/
theorem toString_eq (r : HttpResponse) :
    r.toString = r.version.string ++ space :: (r.status.expected ++
      (crlf ++ (headerLines r.headers.entries ++ (crlf ++ r.body)))) := by
  simp [toString, statusLine]

/-- Text after a serialized response is read as more of its body. -/
theorem parse_toString_append {r : HttpResponse} (h : r.WellFormed) (extra : Bytes) :
    parse (r.toString ++ extra) = .value { r with body := r.body ++ extra } := by
  rw [parse_eq_value_iff]
  refine ⟨space, crlf ++ (headerLines r.headers.entries ++ (crlf ++ (r.body ++ extra))),
    r.headers.entries, ?_, ?_, (SortedMap.ofEntries_entries r.headers).symm⟩
  · rw [toString_eq]
    simp
  · exact headerBlock_serialized h (r.body ++ extra)

/-- **Response round trip.** -/
theorem response_roundTrip (r : HttpResponse) (h : r.WellFormed) :
    parse r.toString = .value r := by
  have hparse := parse_toString_append h []
  rwa [List.append_nil, List.append_nil] at hparse

theorem response_roundTrip_notFound :
    parse (toString
      { status := .notFound, headers := SortedMap.ofEntries [(bytes "a", bytes "")],
        body := bytes "\r\n\r\n" })
      = .value
      { status := .notFound, headers := SortedMap.ofEntries [(bytes "a", bytes "")],
        body := bytes "\r\n\r\n" } :=
  response_roundTrip _ (by decide)

end HttpResponse

end Pine
