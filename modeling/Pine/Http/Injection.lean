import Pine.Http.Truncation

/-!
# Http — Injection

What a response that was built by setter calls reads back as. The setters
keep their strings as they are and `to_string` writes them as they are,
so a CRLF in a name or a value ends its line: each piece between two of
them is read as a header line of its own, and an empty piece as the blank
line in front of the body. The pieces of the header lines are therefore
all that decides whether names or body are read that nobody set
(`noInjection_iff_contained`).
-/

namespace Pine

open Search SortedMap

/-! ## The pieces of a header line -/

/-- A header line without its CRLF. -/
def fieldText (field : Bytes × Bytes) : Bytes := field.1 ++ colon :: space :: field.2

/-- **A text in front of a CRLF is read by its pieces**: an empty one ends
the section, and then all that follows the text is part of the body; else
each of them gives a name. -/
theorem HeaderBlock.pieces {text rest body : Bytes} {fields : List (Bytes × Bytes)}
    (h : HeaderBlock (text ++ (crlf ++ rest)) fields body) :
    ([] ∈ splitOn crlf text ∧ rest <:+ body) ∨
      ([] ∉ splitOn crlf text ∧ ∃ fields', HeaderBlock rest fields' body ∧
        fields.map Prod.fst = (splitOn crlf text).map nameOf ++ fields'.map Prod.fst) := by
  induction text using cut_induction unbordered_crlf crlf_ne_nil generalizing fields with
  | free line hfree =>
      rw [splitOn_free hfree]
      rcases h.line_inv hfree with ⟨rfl, _, rfl⟩ | ⟨name, after, fields', rfl, hname, rfl, hrest⟩
      · exact .inl ⟨List.mem_cons_self, List.suffix_rfl⟩
      · exact .inr ⟨by simp, fields', hrest, by simp [nameOf_append hname]⟩
  | piece line tail hfree ih =>
      rw [splitOn_append unbordered_crlf crlf_ne_nil hfree]
      rw [List.append_assoc, List.append_assoc] at h
      rcases h.line_inv hfree with ⟨rfl, _, rfl⟩ | ⟨name, after, fields', rfl, hname, rfl, hrest⟩
      · refine .inl ⟨List.mem_cons_self, ?_⟩
        exact (List.suffix_append crlf rest).trans (List.suffix_append tail _)
      · rcases ih hrest with ⟨hnil, hsuffix⟩ | ⟨hnil, fields'', hblock, hnames⟩
        · exact .inl ⟨List.mem_cons_of_mem _ hnil, hsuffix⟩
        · exact .inr ⟨by simp [hnil], fields'', hblock, by simp [nameOf_append hname, hnames]⟩

/-- **What written lines are read as**, whatever their fields hold. -/
theorem HeaderBlock.written {entries fields : List (Bytes × Bytes)} {body body' : Bytes}
    (h : HeaderBlock (headerLines entries ++ (crlf ++ body)) fields body') :
    ((∃ e ∈ entries, [] ∈ splitOn crlf (fieldText e)) ∧ body.length < body'.length) ∨
      ((∀ e ∈ entries, [] ∉ splitOn crlf (fieldText e)) ∧ body' = body ∧
        fields.map Prod.fst
          = entries.flatMap (fun e => (splitOn crlf (fieldText e)).map nameOf)) := by
  induction entries generalizing fields with
  | nil =>
      have hnil : ¬ crlf <:+: ([] : Bytes) := by simp [crlf_ne_nil]
      rcases h.line_inv hnil with ⟨_, rfl, rfl⟩ | ⟨_, _, _, hline, _⟩
      · exact .inr ⟨List.forall_mem_nil _, rfl, rfl⟩
      · exact absurd hline (by simp)
  | cons e entries ih =>
      rw [headerLines_cons, List.append_assoc, headerLine_append] at h
      rcases h.pieces with ⟨hnil, hsuffix⟩ | ⟨hnil, fields', hrest, hnames⟩
      · have hlen := hsuffix.length_le
        simp only [List.length_append, crlf_length] at hlen
        exact .inl ⟨⟨e, List.mem_cons_self, hnil⟩, by omega⟩
      · rcases ih hrest with ⟨⟨e', hmem, hnil'⟩, hlen⟩ | ⟨hall, hbody, hnames'⟩
        · exact .inl ⟨⟨e', List.mem_cons_of_mem _ hmem, hnil'⟩, hlen⟩
        · refine .inr ⟨List.forall_mem_cons.mpr ⟨hnil, hall⟩, hbody, ?_⟩
          rw [hnames, hnames', List.flatMap_cons]
          rfl

theorem exists_mem_ofEntries_iff {fields : List (Bytes × Bytes)} {name : Bytes} :
    (∃ e ∈ (ofEntries fields).entries, e.1 = name) ↔ name ∈ fields.map Prod.fst := by
  have hnone : lookupIn name (ofEntries fields).entries = none ↔ lastIn fields name = none := by
    rw [← find?_ofEntries]
    rfl
  rw [lookupIn_eq_none_iff, lastIn_eq_none_iff] at hnone
  rw [List.mem_map]
  simpa using not_congr hnone

/-! ## Responses built by setters -/

namespace HttpResponse

/-- A call of a setter. -/
inductive Setter where
  | setStatus (value : HttpStatus)
  | setVersion (value : HttpVersion)
  | setHeader (name value : Bytes)
  | setBody (value : Bytes)
  deriving DecidableEq

/-- The response after the call. -/
def call (r : HttpResponse) : Setter → HttpResponse
  | .setStatus value => r.setStatus value
  | .setVersion value => r.setVersion value
  | .setHeader name value => r.setHeader name value
  | .setBody value => r.setBody value

/-- The default response after the calls. -/
def build (calls : List Setter) : HttpResponse := calls.foldl call {}

/-- The name a call passes to `set_header`. -/
def Setter.headerName : Setter → Option Bytes
  | .setHeader name _ => some name
  | _ => none

/-- The body a call passes to `set_body`. -/
def Setter.bodyValue : Setter → Option Bytes
  | .setBody value => some value
  | _ => none

/-- The names passed to `set_header`. -/
def namesSet (calls : List Setter) : List Bytes := calls.filterMap Setter.headerName

/-- The body last set; none was, it is empty. -/
def bodyLastSet (calls : List Setter) : Bytes :=
  ((calls.filterMap Setter.bodyValue).getLast?).getD []

/-- The names a reader of the response may find. -/
def Allowed (calls : List Setter) (name : Bytes) : Prop :=
  name ∈ namesSet calls ∨ name = contentLength

/-- Every name was set and so was the body. -/
def NoInjection (calls : List Setter) (parsed : HttpResponse) : Prop :=
  (∀ e ∈ parsed.headers.entries, Allowed calls e.1) ∧ parsed.body = bodyLastSet calls

/-- Between its CRLFs every header line has non-empty pieces, and what
stands before the first colon of each of them is a name that was set. -/
def Contained (calls : List Setter) : Prop :=
  ∀ e ∈ (build calls).headers.entries, ∀ piece ∈ splitOn crlf (fieldText e),
    piece ≠ [] ∧ Allowed calls (nameOf piece)

theorem build_concat (calls : List Setter) (c : Setter) :
    build (calls ++ [c]) = (build calls).call c := by
  rw [build, List.foldl_append]
  rfl

theorem body_build (calls : List Setter) : (build calls).body = bodyLastSet calls := by
  induction calls using List.reverseRecOn with
  | nil => rfl
  | append_singleton calls c ih =>
      rw [build_concat]
      cases c with
      | setBody value => simp [bodyLastSet, Setter.bodyValue, call, setBody]
      | setStatus value => simpa [bodyLastSet, Setter.bodyValue, call, setStatus] using ih
      | setVersion value => simpa [bodyLastSet, Setter.bodyValue, call, setVersion] using ih
      | setHeader name value => simpa [bodyLastSet, Setter.bodyValue, call, setHeader] using ih

theorem allowed_concat {calls : List Setter} {c : Setter} {name : Bytes}
    (h : Allowed calls name) : Allowed (calls ++ [c]) name := by
  rw [Allowed, namesSet, List.filterMap_append, List.mem_append]
  rcases h with h | h
  · exact .inl (.inl h)
  · exact .inr h

/-- The setters write no other name. -/
theorem allowed_of_find? {calls : List Setter} {name value : Bytes}
    (h : (build calls).headers.find? name = some value) : Allowed calls name := by
  induction calls using List.reverseRecOn with
  | nil => cases h
  | append_singleton calls c ih =>
      rw [build_concat] at h
      cases c with
      | setStatus _ => exact allowed_concat (ih h)
      | setVersion _ => exact allowed_concat (ih h)
      | setHeader set _ =>
          by_cases hname : set = name
          · exact .inl (by simp [namesSet, Setter.headerName, hname])
          · simp only [call, setHeader, find?_insertOrAssign, if_neg hname] at h
            exact allowed_concat (ih h)
      | setBody body =>
          by_cases hname : contentLength = name
          · exact .inr hname.symm
          · by_cases hbody : body = []
            · simp only [call, setBody, if_pos hbody, find?_erase, if_neg hname] at h
              exact allowed_concat (ih h)
            · simp only [call, setBody, if_neg hbody, find?_insertOrAssign, if_neg hname] at h
              exact allowed_concat (ih h)

/-- Fields the format can represent are contained. -/
theorem contained_of_wellFormed {calls : List Setter} (h : (build calls).WellFormed) :
    Contained calls := by
  intro e he piece hpiece
  obtain ⟨hcolon, hname, hvalue⟩ := h e he
  rw [fieldText, splitOn_free (headerLine_free hname hvalue), List.mem_singleton] at hpiece
  subst hpiece
  rw [nameOf_append hcolon]
  exact ⟨by simp, allowed_of_find? (mem_entries_iff.mp he)⟩

/-- **No header injection**: a response that can be parsed back holds the
names and the body that were set, exactly when the CRLFs in its names and
values start no line of their own. -/
theorem noInjection_iff_contained {calls : List Setter} {parsed : HttpResponse}
    (h : parse (build calls).toString = .value parsed) :
    NoInjection calls parsed ↔ Contained calls := by
  obtain ⟨sep, after, fields, heq, hblock, hheaders⟩ := parse_eq_value_iff.mp h
  rw [toString_eq] at heq
  obtain ⟨_, heq⟩ := version_unique heq
  obtain ⟨_, heq⟩ := status_unique (List.cons.inj heq).2
  have hsection : after.drop 2
      = headerLines (build calls).headers.entries ++ (crlf ++ (build calls).body) := by
    rw [← heq]
    rfl
  rw [hsection] at hblock
  have hnames : (∀ e ∈ parsed.headers.entries, Allowed calls e.1)
      ↔ ∀ name ∈ fields.map Prod.fst, Allowed calls name := by
    rw [hheaders]
    constructor
    · intro hall name hname
      obtain ⟨e, he, rfl⟩ := exists_mem_ofEntries_iff.mpr hname
      exact hall e he
    · intro hall e he
      exact hall e.1 (exists_mem_ofEntries_iff.mp ⟨e, he, rfl⟩)
  rw [NoInjection, hnames, ← body_build]
  rcases hblock.written with ⟨⟨e, he, hnil⟩, hlen⟩ | ⟨hall, hbody, hfields⟩
  · -- the body was started early
    refine iff_of_false ?_ ?_
    · rintro ⟨_, hbody⟩
      rw [hbody] at hlen
      exact Nat.lt_irrefl _ hlen
    · intro hcontained
      exact (hcontained e he [] hnil).1 rfl
  · rw [hfields]
    constructor
    · rintro ⟨hallowed, _⟩ e he piece hpiece
      refine ⟨?_, hallowed (nameOf piece) ?_⟩
      · rintro rfl
        exact hall e he hpiece
      · exact List.mem_flatMap.mpr ⟨e, he, List.mem_map_of_mem hpiece⟩
    · intro hcontained
      refine ⟨?_, hbody⟩
      intro name hname
      obtain ⟨e, he, hname⟩ := List.mem_flatMap.mp hname
      obtain ⟨piece, hpiece, rfl⟩ := List.mem_map.mp hname
      exact (hcontained e he piece hpiece).2

/-- A header and a body that stay where they were put. -/
theorem noInjection_iff_contained_plain :
    NoInjection [.setHeader (bytes "a") (bytes "b"), .setBody (bytes "c")]
        { headers := ofEntries [(bytes "Content-Length", bytes "1"), (bytes "a", bytes "b")],
          body := bytes "c" }
      ↔ Contained [.setHeader (bytes "a") (bytes "b"), .setBody (bytes "c")] :=
  noInjection_iff_contained (by decide +kernel)

/-- A value with a CRLF in it is read back as two headers. -/
theorem value_injects_header :
    ¬ ∀ (calls : List Setter) (parsed : HttpResponse),
      parse (build calls).toString = .value parsed → NoInjection calls parsed := by
  intro h
  have hparse : parse (build [.setHeader (bytes "a") (bytes "x\r\nb: y")]).toString
      = .value { headers := ofEntries [(bytes "a", bytes "x"), (bytes "b", bytes "y")] } := by
    decide +kernel
  obtain ⟨hnames, _⟩ := h _ _ hparse
  have hallowed := hnames (bytes "b", bytes "y") (by decide)
  exact absurd hallowed (by simp only [Allowed]; decide)

end HttpResponse

end Pine
