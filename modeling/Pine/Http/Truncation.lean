import Pine.Http.RoundTrip

/-!
# Http — Truncation

What `parse` makes of the beginning of a serialized message. Neither
parser reads `Content-Length`, and the header loop returns what it has
at the end of the text, so a message cut where a header line or the blank
line would start, or anywhere in its body, is accepted as a shorter
message (`SectionCut`). Nearly every other cut is refused. At the method
of a request and at the version of a response the parser throws, and it
steps over the CRLF of the first line without a look at it, so a cut
inside that goes unnoticed.
-/

namespace Pine

open Search

/-! ## A cut header section -/

/-- A beginning of a written header section that is a section itself,
with the fields and the body it is read as. -/
inductive SectionCut (fields : List (Bytes × Bytes)) (body : Bytes) :
    Bytes → List (Bytes × Bytes) → Bytes → Prop where
  /-- The cut is where a header line starts, or the blank line. -/
  | afterLine {kept : List (Bytes × Bytes)} :
      kept <+: fields → SectionCut fields body (headerLines kept) kept []
  /-- The cut is behind the blank line. -/
  | afterBlank {kept : Bytes} :
      kept <+: body → SectionCut fields body (headerLines fields ++ (crlf ++ kept)) fields kept

theorem FieldsWellFormed.prefixes {fields kept : List (Bytes × Bytes)}
    (h : FieldsWellFormed fields) (hpre : kept <+: fields) : FieldsWellFormed kept :=
  fun e he => h e (hpre.subset he)

namespace SectionCut

variable {fields kept : List (Bytes × Bytes)} {body text left : Bytes}

theorem headerBlock (h : SectionCut fields body text kept left) (hf : FieldsWellFormed fields) :
    HeaderBlock text kept left := by
  cases h with
  | afterLine hpre =>
      have hb := headerBlock_headerLines (hf.prefixes hpre) .eof
      rwa [List.append_nil, List.append_nil] at hb
  | afterBlank hpre =>
      have hb := headerBlock_headerLines hf (.blank left)
      rwa [List.append_nil] at hb

theorem cons (h : SectionCut fields body text kept left) (e : Bytes × Bytes) :
    SectionCut (e :: fields) body (headerLine e ++ text) (e :: kept) left := by
  cases h with
  | afterLine hpre => exact .afterLine ((List.prefix_cons_inj e).mpr hpre)
  | afterBlank hpre =>
      have hb : SectionCut (e :: fields) body _ _ _ := .afterBlank hpre
      rwa [headerLines_cons, List.append_assoc] at hb

end SectionCut

/-- A beginning of the line a text starts with is free of CRLF, or holds
the line and its CRLF. -/
theorem prefix_line_cases {line rest text : Bytes} (hfree : ¬ crlf <:+: line)
    (hpre : text <+: line ++ (crlf ++ rest)) :
    ¬ crlf <:+: text ∨ ∃ text', text = line ++ (crlf ++ text') ∧ text' <+: rest := by
  by_cases hlen : text.length < line.length + crlf.length
  · exact .inl (not_infix_before unbordered_crlf crlf_ne_nil hfree hpre hlen)
  · have hwhole : line ++ crlf <+: line ++ (crlf ++ rest) := ⟨rest, by simp⟩
    have hline : line ++ crlf <+: text :=
      List.prefix_of_prefix_length_le hwhole hpre (by simpa using hlen)
    obtain ⟨text', rfl⟩ := hline
    rw [List.append_assoc, List.prefix_append_right_inj, List.prefix_append_right_inj] at hpre
    exact .inr ⟨text', by simp, hpre⟩

/-- A beginning that goes on behind the first line, with more than the CR,
holds the CRLF. -/
theorem lineEnd_whole {line after rest : Bytes} (hpre : line ++ after <+: line ++ (crlf ++ rest))
    (hline : line ++ after ≠ line) (hcr : line ++ after ≠ line ++ [cr]) :
    ∃ text, after = crlf ++ text := by
  rw [List.prefix_append_right_inj] at hpre
  have hlen : crlf.length ≤ after.length := by
    by_contra hshort
    rcases after with _ | ⟨b, _ | ⟨b', text⟩⟩
    · exact hline (List.append_nil line)
    · obtain ⟨t, ht⟩ := hpre
      obtain ⟨rfl, _⟩ := List.cons.inj ht
      exact hcr rfl
    · exact hshort (Nat.le_add_left 2 text.length)
  obtain ⟨text, htext⟩ := List.prefix_of_prefix_length_le (List.prefix_append crlf rest) hpre hlen
  exact ⟨text, htext.symm⟩

/-- **The cuts of a section that read as one**, and what they read as. -/
theorem headerBlock_prefix_iff {fields kept : List (Bytes × Bytes)} {body text left : Bytes}
    (hf : FieldsWellFormed fields) (hpre : text <+: headerLines fields ++ (crlf ++ body)) :
    HeaderBlock text kept left ↔ SectionCut fields body text kept left := by
  constructor
  · intro h
    induction fields generalizing text kept with
    | nil =>
        have hnil : ¬ crlf <:+: ([] : Bytes) := by simp [crlf_ne_nil]
        rcases prefix_line_cases hnil hpre with hfree | ⟨text', rfl, hpre'⟩
        · obtain ⟨rfl, rfl, rfl⟩ := h.noLine_inv hfree
          exact .afterLine List.prefix_rfl
        · rcases h.line_inv hnil with ⟨_, rfl, rfl⟩ | ⟨_, _, _, hline, _⟩
          · exact .afterBlank hpre'
          · exact absurd hline (by simp)
    | cons e rest ih =>
        obtain ⟨name, value⟩ := e
        obtain ⟨hcolon, hname, hvalue⟩ := hf (name, value) List.mem_cons_self
        have hline := headerLine_free hname hvalue
        rw [headerLines_cons, List.append_assoc, headerLine_append] at hpre
        rcases prefix_line_cases hline hpre with hfree | ⟨text', rfl, hpre'⟩
        · obtain ⟨rfl, rfl, rfl⟩ := h.noLine_inv hfree
          exact .afterLine List.nil_prefix
        · rcases h.line_inv hline with
            ⟨hnil, _⟩ | ⟨name', after, kept', hsplit, hcolon', rfl, hrest⟩
          · exact absurd hnil (by simp)
          · obtain ⟨rfl, rfl⟩ := split_unique hcolon hcolon' hsplit
            have hcut := (ih hf.tail hpre' hrest).cons (name, value)
            rwa [headerLine_append] at hcut
  · intro h
    exact h.headerBlock hf

/-! ## Unambiguous tokens -/

/-- A text starts with at most one entry of a prefix-free table. -/
theorem PrefixFree.unique {α : Type} {table : List (α × Bytes)} (hfree : PrefixFree table)
    {a b : α} {text text' s : Bytes} (ha : (a, text) ∈ table) (hb : (b, text') ∈ table)
    (hpre : text <+: s) (hpre' : text' <+: s) : a = b := by
  have hva : tryGetPrefix .success s 0 table = .value a (0 + text.length) :=
    tryGetPrefix_value hfree (Nat.zero_le _) ha hpre
  have hvb : tryGetPrefix .success s 0 table = .value b (0 + text'.length) :=
    tryGetPrefix_value hfree (Nat.zero_le _) hb hpre'
  rw [hva] at hvb
  injection hvb

theorem method_unique {m m' : HttpMethod} {a b : Bytes} (h : m.string ++ a = m'.string ++ b) :
    m = m' ∧ a = b := by
  obtain rfl := prefixFree_method.unique (method_mem m) (method_mem m')
    (List.prefix_append m.string a) (by rw [h]; exact List.prefix_append _ _)
  exact ⟨rfl, List.append_cancel_left h⟩

theorem version_unique {v v' : HttpVersion} {a b : Bytes} (h : v.string ++ a = v'.string ++ b) :
    v = v' ∧ a = b := by
  obtain rfl := prefixFree_version.unique (version_mem v) (version_mem v')
    (List.prefix_append v.string a) (by rw [h]; exact List.prefix_append _ _)
  exact ⟨rfl, List.append_cancel_left h⟩

theorem status_unique {c c' : HttpStatus} {a b : Bytes} (h : c.expected ++ a = c'.expected ++ b) :
    c = c' ∧ a = b := by
  obtain rfl := prefixFree_status.unique (status_mem c) (status_mem c')
    (List.prefix_append c.expected a) (by rw [h]; exact List.prefix_append _ _)
  exact ⟨rfl, List.append_cancel_left h⟩

/-! ## Cut messages -/

namespace HttpRequest

/-- `p` is `r.toString` cut behind the CRLF of the request line, where a
section ends. `r'` is `r` with the headers and the body that are left. -/
def CutTo (r : HttpRequest) (p : Bytes) (r' : HttpRequest) : Prop :=
  ∃ text kept left, p = r.requestLine ++ (crlf ++ text) ∧
    SectionCut r.headers.entries r.body text kept left ∧
    r' = { r with headers := SortedMap.ofEntries kept, body := left }

/-- **What `parse` makes of a cut request.** It skips the two bytes behind
the request line, whether or not they are there. -/
theorem parse_prefix_eq_value_iff {r r' : HttpRequest} (h : r.WellFormed) {p : Bytes}
    (hp : p <+: r.toString) : parse p = .value r' ↔
      ∃ after kept left, p = r.requestLine ++ after ∧
        SectionCut r.headers.entries r.body (after.drop 2) kept left ∧
        r' = { r with headers := SortedMap.ofEntries kept, body := left } := by
  obtain ⟨t, ht⟩ := hp
  constructor
  · intro hparse
    obtain ⟨sep, after, fields, rfl, _, hspace, hb, hheaders⟩ := parse_eq_value_iff.mp hparse
    -- the tokens of the prefix are those of the whole message
    simp only [toString_eq, List.append_assoc, List.cons_append] at ht
    obtain ⟨hmethod, htail⟩ := method_unique ht
    obtain ⟨rfl, huriTail⟩ := List.cons.inj htail
    obtain ⟨huri, hversionTail⟩ := split_unique hspace h.space huriTail
    obtain ⟨hversion, hafter⟩ := version_unique hversionTail
    have hpre : after <+: crlf ++ (headerLines r.headers.entries ++ (crlf ++ r.body)) :=
      ⟨t, hafter⟩
    refine ⟨after, fields, r'.body, ?_, ?_, ?_⟩
    · rw [requestLine, hmethod, huri, hversion]
      simp
    · exact (headerBlock_prefix_iff h.headers (hpre.drop 2)).mp hb
    · rw [← hmethod, ← huri, ← hversion, ← hheaders]
  · intro hcut
    obtain ⟨after, kept, left, rfl, hsection, rfl⟩ := hcut
    rw [parse_eq_value_iff]
    exact ⟨Pine.space, after, kept, by simp [requestLine], h.slash, h.space,
      hsection.headerBlock h.headers, rfl⟩

/-- With the first line and its CRLF whole, or cut before its end. -/
theorem parse_prefix_eq_value_iff_cutTo {r r' : HttpRequest} (h : r.WellFormed) {p : Bytes}
    (hp : p <+: r.toString) (hline : p ≠ r.requestLine) (hcr : p ≠ r.requestLine ++ [cr]) :
    parse p = .value r' ↔ r.CutTo p r' := by
  rw [parse_prefix_eq_value_iff h hp]
  constructor
  · intro hcut
    obtain ⟨after, kept, left, rfl, hsection, hr⟩ := hcut
    simp only [HttpRequest.toString, List.append_assoc] at hp
    obtain ⟨text, rfl⟩ := lineEnd_whole hp hline hcr
    exact ⟨text, kept, left, rfl, hsection, hr⟩
  · intro hcut
    obtain ⟨text, kept, left, rfl, hsection, hr⟩ := hcut
    exact ⟨crlf ++ text, kept, left, rfl, hsection, hr⟩

/-- Where a cut request makes `parse` throw: at its method, or one byte
later. -/
theorem parse_prefix_eq_outOfRange_iff {r : HttpRequest} {p : Bytes} (hp : p <+: r.toString) :
    parse p = .outOfRange ↔ p = r.method.string ∨ p = r.method.string ++ [Pine.space] := by
  obtain ⟨t, ht⟩ := hp
  rw [parse_eq_outOfRange_iff]
  constructor
  · intro h
    obtain ⟨m, ⟨tail, rfl⟩, hlen⟩ := h
    rw [toString_eq, List.append_assoc] at ht
    obtain ⟨rfl, htail⟩ := method_unique ht
    rw [List.length_append] at hlen
    cases tail with
    | nil => exact .inl (List.append_nil _)
    | cons sep tail =>
        obtain ⟨rfl, _⟩ := List.cons.inj htail
        have hnil : tail = [] := List.length_eq_zero_iff.mp (by
          rw [List.length_cons] at hlen
          omega)
        exact .inr (by rw [hnil])
  · intro h
    rcases h with rfl | rfl
    · exact ⟨r.method, List.prefix_rfl, by omega⟩
    · exact ⟨r.method, List.prefix_append _ _, by simp⟩

end HttpRequest

namespace HttpResponse

/-- `p` is `r.toString` cut behind the CRLF of the status line, where a
section ends. `r'` is `r` with the headers and the body that are left. -/
def CutTo (r : HttpResponse) (p : Bytes) (r' : HttpResponse) : Prop :=
  ∃ text kept left, p = r.statusLine ++ (crlf ++ text) ∧
    SectionCut r.headers.entries r.body text kept left ∧
    r' = { r with headers := SortedMap.ofEntries kept, body := left }

/-- **What `parse` makes of a cut response.** -/
theorem parse_prefix_eq_value_iff {r r' : HttpResponse} (h : r.WellFormed) {p : Bytes}
    (hp : p <+: r.toString) : parse p = .value r' ↔
      ∃ after kept left, p = r.statusLine ++ after ∧
        SectionCut r.headers.entries r.body (after.drop 2) kept left ∧
        r' = { r with headers := SortedMap.ofEntries kept, body := left } := by
  obtain ⟨t, ht⟩ := hp
  constructor
  · intro hparse
    obtain ⟨sep, after, fields, rfl, hb, hheaders⟩ := parse_eq_value_iff.mp hparse
    simp only [toString_eq, List.append_assoc, List.cons_append] at ht
    obtain ⟨hversion, htail⟩ := version_unique ht
    obtain ⟨rfl, hstatusTail⟩ := List.cons.inj htail
    obtain ⟨hstatus, hafter⟩ := status_unique hstatusTail
    have hpre : after <+: crlf ++ (headerLines r.headers.entries ++ (crlf ++ r.body)) :=
      ⟨t, hafter⟩
    refine ⟨after, fields, r'.body, ?_, ?_, ?_⟩
    · rw [statusLine, hversion, hstatus]
      simp
    · exact (headerBlock_prefix_iff h (hpre.drop 2)).mp hb
    · rw [← hversion, ← hstatus, ← hheaders]
  · intro hcut
    obtain ⟨after, kept, left, rfl, hsection, rfl⟩ := hcut
    rw [parse_eq_value_iff]
    exact ⟨space, after, kept, by simp [statusLine], hsection.headerBlock h, rfl⟩

theorem parse_prefix_eq_value_iff_cutTo {r r' : HttpResponse} (h : r.WellFormed) {p : Bytes}
    (hp : p <+: r.toString) (hline : p ≠ r.statusLine) (hcr : p ≠ r.statusLine ++ [cr]) :
    parse p = .value r' ↔ r.CutTo p r' := by
  rw [parse_prefix_eq_value_iff h hp]
  constructor
  · intro hcut
    obtain ⟨after, kept, left, rfl, hsection, hr⟩ := hcut
    simp only [HttpResponse.toString, List.append_assoc] at hp
    obtain ⟨text, rfl⟩ := lineEnd_whole hp hline hcr
    exact ⟨text, kept, left, rfl, hsection, hr⟩
  · intro hcut
    obtain ⟨text, kept, left, rfl, hsection, hr⟩ := hcut
    exact ⟨crlf ++ text, kept, left, rfl, hsection, hr⟩

/-- Where a cut response makes `parse` throw: at its version. -/
theorem parse_prefix_eq_outOfRange_iff {r : HttpResponse} {p : Bytes} (hp : p <+: r.toString) :
    parse p = .outOfRange ↔ p = r.version.string := by
  obtain ⟨t, ht⟩ := hp
  rw [parse_eq_outOfRange_iff]
  constructor
  · intro h
    obtain ⟨v, rfl⟩ := h
    obtain ⟨hversion, _⟩ := version_unique (ht.trans r.toString_eq)
    exact congrArg HttpVersion.string hversion
  · intro h
    exact ⟨r.version, h⟩

end HttpResponse

/-! ## Truncated messages -/

/-- A call that does not throw returns a value exactly where it should, or
an error. -/
theorem refused_or_of_value_iff {α : Type} {parsed : Outcome α} {accepted : α → Prop}
    (hvalue : ∀ a, parsed = .value a ↔ accepted a) (hthrow : parsed ≠ .outOfRange) :
    (∃ a, accepted a ∧ parsed = .value a) ∨
    ((∀ a, ¬ accepted a) ∧ ∃ e, parsed = .unexpected e) := by
  cases hparsed : parsed with
  | value a => exact .inl ⟨a, (hvalue a).mp hparsed, rfl⟩
  | unexpected e =>
      refine .inr ⟨?_, e, rfl⟩
      intro a ha
      rw [(hvalue a).mpr ha] at hparsed
      cases hparsed
  | outOfRange => exact absurd hparsed hthrow

/-- **A truncated message is refused, or is cut where a shorter message
would end.** The cuts at which the parsers throw are left out, and so are
the two at the CRLF that they skip. -/
theorem truncated_refused_or_cutTo :
    (∀ (r : HttpRequest) (p : Bytes), r.WellFormed → p <+: r.toString →
      p ≠ r.method.string → p ≠ r.method.string ++ [space] →
      p ≠ r.requestLine → p ≠ r.requestLine ++ [cr] →
      (∃ r', r.CutTo p r' ∧ HttpRequest.parse p = .value r') ∨
      ((∀ r', ¬ r.CutTo p r') ∧ ∃ e, HttpRequest.parse p = .unexpected e)) ∧
    (∀ (r : HttpResponse) (p : Bytes), r.WellFormed → p <+: r.toString →
      p ≠ r.version.string →
      p ≠ r.statusLine → p ≠ r.statusLine ++ [cr] →
      (∃ r', r.CutTo p r' ∧ HttpResponse.parse p = .value r') ∨
      ((∀ r', ¬ r.CutTo p r') ∧ ∃ e, HttpResponse.parse p = .unexpected e)) := by
  constructor
  · intro r p h hp hmethod hsep hline hcr
    apply refused_or_of_value_iff fun r' =>
      HttpRequest.parse_prefix_eq_value_iff_cutTo h hp hline hcr
    intro hthrow
    rcases (HttpRequest.parse_prefix_eq_outOfRange_iff hp).mp hthrow with heq | heq
    · exact hmethod heq
    · exact hsep heq
  · intro r p h hp hversion hline hcr
    apply refused_or_of_value_iff fun r' =>
      HttpResponse.parse_prefix_eq_value_iff_cutTo h hp hline hcr
    intro hthrow
    exact hversion ((HttpResponse.parse_prefix_eq_outOfRange_iff hp).mp hthrow)

/-- A request cut inside its last header line, and a response cut inside
its body. -/
theorem truncated_refused_or_cutTo_inLine :
    let request : HttpRequest :=
      ({ uri := bytes "/", headers := SortedMap.ofEntries [(bytes "Host", bytes "b")] } :
        HttpRequest).setBody (bytes "hi")
    let response : HttpResponse := ({} : HttpResponse).setBody (bytes "hi")
    let p := bytes "GET / HTTP/1.1\r\nContent-Length: 2\r\nHo"
    let p' := bytes "HTTP/1.1 200 OK\r\nContent-Length: 2\r\n\r\nh"
    ((∃ r', request.CutTo p r' ∧ HttpRequest.parse p = .value r') ∨
      ((∀ r', ¬ request.CutTo p r') ∧ ∃ e, HttpRequest.parse p = .unexpected e)) ∧
    ((∃ r', response.CutTo p' r' ∧ HttpResponse.parse p' = .value r') ∨
      ((∀ r', ¬ response.CutTo p' r') ∧ ∃ e, HttpResponse.parse p' = .unexpected e)) :=
  ⟨truncated_refused_or_cutTo.1 _ _ (by decide +kernel) (by decide +kernel) (by decide)
      (by decide) (by decide +kernel) (by decide +kernel),
    truncated_refused_or_cutTo.2 _ _ (by decide +kernel) (by decide +kernel) (by decide)
      (by decide +kernel) (by decide +kernel)⟩

/-- A message cut one byte before its end is taken for a complete one. -/
theorem truncated_accepted :
    (¬ ∀ (r : HttpRequest) (body p : Bytes), (r.setBody body).WellFormed →
      p <+: (r.setBody body).toString → p ≠ (r.setBody body).toString →
      ∃ e, HttpRequest.parse p = .unexpected e) ∧
    (¬ ∀ (r : HttpResponse) (body p : Bytes), (r.setBody body).WellFormed →
      p <+: (r.setBody body).toString → p ≠ (r.setBody body).toString →
      ∃ e, HttpResponse.parse p = .unexpected e) := by
  constructor
  · intro h
    obtain ⟨e, he⟩ := h { uri := bytes "/" } (bytes "hi")
      (bytes "GET / HTTP/1.1\r\nContent-Length: 2\r\n\r\nh")
      (by decide +kernel) (by decide +kernel) (by decide +kernel)
    have hvalue : HttpRequest.parse (bytes "GET / HTTP/1.1\r\nContent-Length: 2\r\n\r\nh")
        = .value
          { uri := bytes "/", body := bytes "h",
            headers := SortedMap.ofEntries [(contentLength, bytes "2")] } := by decide +kernel
    rw [hvalue] at he
    cases he
  · intro h
    obtain ⟨e, he⟩ := h {} (bytes "hi")
      (bytes "HTTP/1.1 200 OK\r\nContent-Length: 2\r\n\r\nh")
      (by decide +kernel) (by decide +kernel) (by decide +kernel)
    have hvalue : HttpResponse.parse (bytes "HTTP/1.1 200 OK\r\nContent-Length: 2\r\n\r\nh")
        = .value
          { body := bytes "h",
            headers := SortedMap.ofEntries [(contentLength, bytes "2")] } := by decide +kernel
    rw [hvalue] at he
    cases he

end Pine
