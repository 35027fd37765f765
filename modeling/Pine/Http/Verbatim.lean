import Pine.Http.Reparse
import Pine.Http.Sections

/-!
# Http — Verbatim

Which texts `to_string` gives back after `parse`, byte for byte. The first
line has its separators, and the header section is `Canonical`: its names
ascend, a space follows every colon, and the blank line is there. There is
one other kind. A section that ends with a line that has nothing behind
its colon can be followed by a body that makes `to_string` write that very
line, and all of the message in front of it (`SelfPrinting`).
-/

namespace Pine

open Search SortedMap

/-- A field as the line that is written for it. -/
def spaced (field : Bytes × Bytes) : Bytes × Bytes := (field.1, space :: field.2)

/-- The names ascend strictly. -/
def Ascending (fields : List (Bytes × Bytes)) : Prop := fields.Pairwise fun a b => a.1 < b.1

/-- The names ascend, a space follows every colon, and the blank line
comes behind. -/
def Canonical (lines : List (Bytes × Bytes)) (tail : Bytes) : Prop :=
  tail ≠ [] ∧ (∀ l ∈ lines, l.2.head? = some space) ∧ Ascending lines

/-- The line of `key` twice: as it is written for a value that starts with
a line feed, and last of all, with nothing behind its colon. -/
def twiceLines (good inner : List (Bytes × Bytes)) (key : Bytes) : List (Bytes × Bytes) :=
  good.map spaced ++ (key, [space, lf]) :: (inner ++ [(key, [])])

/-- What the lines before the last say of every other name is what was
written for it in front. -/
def SaysAgain (good inner : List (Bytes × Bytes)) (key : Bytes) : Prop :=
  ∀ name after, name ≠ key → lastIn inner name = some after →
    after ≠ [] ∧ (name, after.tail) ∈ good

/-- The greatest name has its line twice, and what stands from behind the
first to the second is the body. -/
def SelfPrinting (lines : List (Bytes × Bytes)) (tail body : Bytes) : Prop :=
  ∃ good inner key, lines = twiceLines good inner key ∧ tail = crlf ++ body ∧
    body ++ crlf = linesText (inner ++ [(key, [])]) ∧ Ascending good ∧
    (∀ e ∈ good, e.1 < key) ∧ SaysAgain good inner key

/-- What `to_string` writes for the headers and the body is the section
they were read from. -/
def Written (lines : List (Bytes × Bytes)) (tail body : Bytes) : Prop :=
  headerLines (headersOf lines tail).entries ++ (crlf ++ body) = linesText lines ++ tail

/-! ## Lines and the fields they are read as -/

theorem headerLines_eq (fields : List (Bytes × Bytes)) :
    headerLines fields = linesText (fields.map spaced) := by
  induction fields with
  | nil => rfl
  | cons e fields ih =>
      rw [headerLines_cons, ih, List.map_cons, linesText_cons]
      simp [headerLine, lineText, spaced]

theorem linesWellFormed_spaced {fields : List (Bytes × Bytes)} (h : FieldsWellFormed fields) :
    LinesWellFormed (fields.map spaced) := by
  intro l hl
  obtain ⟨e, he, rfl⟩ := List.mem_map.mp hl
  obtain ⟨hcolon, hname, hvalue⟩ := h e he
  exact ⟨hcolon, headerLine_free hname hvalue⟩

/-- Lines are told by their texts. -/
theorem map_joined_inv {lines : List (Bytes × Bytes)} (h : LinesWellFormed lines) :
    (lines.map joined).map (fun line => (nameOf line, afterColon line)) = lines := by
  rw [List.map_map]
  conv_rhs => rw [← List.map_id lines]
  apply List.map_congr_left
  intro l hl
  have hname := (h l hl).1
  simp only [Function.comp_apply, joined, nameOf_append hname, afterColon_append hname, id]

/-- A section is split into lines in one way. -/
theorem lines_unique {lines lines' : List (Bytes × Bytes)} {tail tail' body body' : Bytes}
    (h : LinesWellFormed lines) (h' : LinesWellFormed lines') (hend : SectionEnd tail body)
    (hend' : SectionEnd tail' body') (htext : linesText lines ++ tail = linesText lines' ++ tail') :
    lines = lines' ∧ tail = tail' := by
  have hjoined : lines.map joined = lines'.map joined := by
    rw [← blockLines_section h hend, htext, blockLines_section h' hend']
  have hlines : lines = lines' := by
    rw [← map_joined_inv h, hjoined, map_joined_inv h']
  subst hlines
  exact ⟨rfl, List.append_cancel_left htext⟩

theorem entries_ofEntries {fields : List (Bytes × Bytes)} (h : Ascending fields) :
    (ofEntries fields).entries = fields :=
  congrArg entries (ofEntries_entries ⟨fields, h⟩)

/-- Lines that end behind their colon nowhere are read one by one. -/
theorem lineFields_of_ne_nil {lines : List (Bytes × Bytes)} (h : ∀ l ∈ lines, l.2 ≠ [])
    (tail : Bytes) : lineFields lines tail = lines.map fun l => (l.1, l.2.tail) := by
  induction lines with
  | nil => rfl
  | cons l lines ih =>
      obtain ⟨hl, hrest⟩ := List.forall_mem_cons.mp h
      obtain ⟨name, after⟩ := l
      rw [lineFields, ih hrest, List.map_cons]
      cases after with
      | nil => exact absurd rfl hl
      | cons b value => rfl

/-! ## Canonical sections -/

section canonical
variable {lines : List (Bytes × Bytes)} {tail body : Bytes}

theorem Canonical.written (h : Canonical lines tail) (hend : SectionEnd tail body) :
    Written lines tail body := by
  obtain ⟨htail, hspace, hsorted⟩ := h
  have hfields : lineFields lines tail = lines.map fun l => (l.1, l.2.tail) := by
    apply lineFields_of_ne_nil
    intro l hl hnil
    have hhead := hspace l hl
    rw [hnil] at hhead
    cases hhead
  have hentries : (headersOf lines tail).entries = lines.map fun l => (l.1, l.2.tail) := by
    rw [headersOf, hfields]
    exact entries_ofEntries (List.pairwise_map.mpr hsorted)
  have hspaced : (lines.map fun l => (l.1, l.2.tail)).map spaced = lines := by
    rw [List.map_map]
    conv_rhs => rw [← List.map_id lines]
    apply List.map_congr_left
    intro l hl
    have hhead := List.cons_head?_tail (hspace l hl)
    simp only [Function.comp_apply, spaced, hhead, id]
  rw [Written, hentries, headerLines_eq, hspaced]
  cases hend with
  | eof => exact absurd rfl htail
  | blank body => rfl

/-- Values without a line end in them are written as canonical lines. -/
theorem canonical_of_written (hlines : LinesWellFormed lines) (hend : SectionEnd tail body)
    (hclean : Clean lines tail) (h : Written lines tail body) : Canonical lines tail := by
  have hfields := (fieldsWellFormed_iff_clean hlines hend).mpr hclean
  rw [Written, headerLines_eq] at h
  obtain ⟨hsplit, rfl⟩ := lines_unique (linesWellFormed_spaced hfields) hlines (.blank body) hend h
  refine ⟨by simp [crlf], ?_, ?_⟩
  · intro l hl
    rw [← hsplit] at hl
    obtain ⟨e, _, rfl⟩ := List.mem_map.mp hl
    rfl
  · rw [← hsplit]
    exact List.pairwise_map.mpr (headersOf lines _).sorted

end canonical

/-! ## The other kind -/

section selfPrinting
variable {good inner : List (Bytes × Bytes)} {key body : Bytes}

/-- What is written for the value of the last line, and the blank line
and the body. -/
theorem headerLines_selfPrinting (htext : body ++ crlf = linesText (inner ++ [(key, [])])) :
    headerLines (good ++ [(key, lf :: (crlf ++ body))]) ++ (crlf ++ body)
      = linesText (twiceLines good inner key) ++ (crlf ++ body) := by
  rw [twiceLines, linesText_append, linesText_cons, ← htext, headerLines_append, headerLines_eq]
  simp [headerLine, lineText]

/-- The last line of another name. -/
theorem lastIn_other {name : Bytes} (hname : name ≠ key) :
    lastIn (twiceLines good inner key) name
      = (lastIn inner name).or ((lastIn good name).map (space :: ·)) := by
  have hspaced : lastIn (good.map spaced) name = (lastIn good name).map (space :: ·) :=
    lastIn_map (space :: ·) good name
  rw [twiceLines, lastIn_append, lastIn_cons, lastIn_concat_of_ne hname, if_neg (Ne.symm hname),
    Option.or_none, hspaced]

theorem lastIn_of_ascending {fields : List (Bytes × Bytes)} {name value : Bytes}
    (h : Ascending fields) (hmem : (name, value) ∈ fields) :
    lastIn fields name = some value :=
  lastIn_of_mem (SortedMap.keys_ne ⟨fields, h⟩) hmem

/-- It says what the fields in front say. -/
theorem lastIn_lineFields_other (hsorted : Ascending good) (hinner : SaysAgain good inner key)
    {name : Bytes} (hname : name ≠ key) (tail : Bytes) :
    lastIn (lineFields (twiceLines good inner key) tail) name = lastIn good name := by
  have hlast : lastIn (twiceLines good inner key) name = _ := lastIn_other hname
  cases hin : lastIn inner name with
  | some after =>
      obtain ⟨hne, hmem⟩ := hinner name after hname hin
      rw [hin] at hlast
      rw [lastIn_lineFields_of_ne_nil hlast hne, lastIn_of_ascending hsorted hmem]
  | none =>
      rw [hin, Option.none_or] at hlast
      cases hgood : lastIn good name with
      | none =>
          rw [hgood] at hlast
          exact lastIn_lineFields_eq_none_iff.mpr hlast
      | some value =>
          rw [hgood] at hlast
          exact lastIn_lineFields_of_ne_nil hlast (List.cons_ne_nil _ _) tail

theorem SelfPrinting.written {lines : List (Bytes × Bytes)} {tail : Bytes}
    (h : SelfPrinting lines tail body) : Written lines tail body := by
  obtain ⟨good, inner, key, rfl, rfl, htext, hsorted, hlt, hinner⟩ := h
  have hheaders : headersOf (twiceLines good inner key) (crlf ++ body)
      = ofEntries (good ++ [(key, lf :: (crlf ++ body))]) := by
    apply ext_find?
    intro name
    rw [find?_headersOf, find?_ofEntries]
    by_cases hname : name = key
    · subst hname
      have hend : twiceLines good inner name
          = (good.map spaced ++ (name, [space, lf]) :: inner) ++ [(name, [])] := by
        simp [twiceLines]
      rw [hend, lastIn_lineFields (List.forall_mem_nil _), lastIn_append, lastIn_cons, if_pos rfl]
      rfl
    · rw [lastIn_lineFields_other hsorted hinner hname, lastIn_concat_of_ne hname]
  have hascending : Ascending (good ++ [(key, lf :: (crlf ++ body))]) := by
    rw [Ascending, List.pairwise_append]
    refine ⟨hsorted, List.pairwise_singleton _ _, ?_⟩
    intro e he e' he'
    rw [List.mem_singleton.mp he']
    exact hlt e he
  rw [Written, hheaders, entries_ofEntries hascending]
  exact headerLines_selfPrinting htext

/-- An echo that is written as it was read. -/
theorem selfPrinting_of_written {lines : List (Bytes × Bytes)} {tail : Bytes}
    (hlines : LinesWellFormed lines) (hecho : Echo lines tail body)
    (h : Written lines tail body) : SelfPrinting lines tail body := by
  obtain ⟨init, inner, key, rfl, rfl, hgreatest, hnoNil, htext, hinner, hvalues⟩ := hecho
  obtain ⟨good, hentries, hothers⟩ := entries_of_greatest (find?_echo init key body) (by
    intro e he hne
    obtain ⟨_, after, _, _, _, hlast, _⟩ := entry_line hlines he
    rcases List.mem_append.mp (mem_of_lastIn hlast) with hmem | hmem
    · exact hgreatest (e.1, after) hmem hne
    · exact absurd (congrArg Prod.fst (List.mem_singleton.mp hmem)) hne)
  have hmem : ∀ e ∈ good, e ∈ (headersOf (init ++ [(key, [])]) (crlf ++ body)).entries := by
    intro e he
    rw [hentries]
    exact List.mem_append_left _ he
  have hgood : FieldsWellFormed good := by
    intro e he
    apply entry_wellFormed hlines (hmem e he)
    intro hbad
    obtain ⟨pre, post, heq, hpost, _⟩ := (entry_crlf_iff hlines (.blank body) (hmem e he)).mp hbad
    exact hnoNil e.1 (hothers e he) (lastIn_eq_some_iff.mpr ⟨pre, post, heq, hpost⟩)
  have hkey := hlines (key, []) (by simp)
  have hwritten : LinesWellFormed (twiceLines good inner key) := by
    intro l hl
    rcases List.mem_append.mp hl with hl | hl
    · exact linesWellFormed_spaced hgood l hl
    · rcases List.mem_cons.mp hl with rfl | hl
      · exact ⟨hkey.1, feedLine_free hkey.2⟩
      · rcases List.mem_append.mp hl with hl | hl
        · exact hinner l hl
        · rw [List.mem_singleton.mp hl]
          exact hkey
  rw [Written, hentries, headerLines_selfPrinting htext] at h
  obtain ⟨hsplit, _⟩ := lines_unique hwritten hlines (.blank body) (.blank body) h
  have hsorted := (headersOf (init ++ [(key, [])]) (crlf ++ body)).sorted
  rw [hentries, List.pairwise_append] at hsorted
  obtain ⟨hascending, _, hlt⟩ := hsorted
  refine ⟨good, inner, key, hsplit.symm, rfl, htext, hascending, ?_, ?_⟩
  · intro e he
    exact hlt e he _ (List.mem_singleton_self _)
  · intro name after hname hlast
    obtain ⟨hne, after', hlast', htail⟩ := hvalues name after hname hlast
    have hne' : after' ≠ [] := fun hnil => hnoNil name hname (hnil ▸ hlast')
    have hentry :
        (name, after.tail) ∈ (headersOf (init ++ [(key, [])]) (crlf ++ body)).entries := by
      rw [mem_entries_iff, find?_headersOf, lastIn_lineFields_of_ne_nil hlast' hne', htail]
    rw [hentries] at hentry
    refine ⟨hne, (List.mem_append.mp hentry).resolve_right ?_⟩
    intro hmem'
    exact hname (congrArg Prod.fst (List.mem_singleton.mp hmem'))

end selfPrinting

/-- **Which sections are written as they were read.** -/
theorem written_iff {lines : List (Bytes × Bytes)} {tail body : Bytes}
    (hlines : LinesWellFormed lines) (hend : SectionEnd tail body) :
    Written lines tail body ↔ Canonical lines tail ∨ SelfPrinting lines tail body := by
  constructor
  · intro h
    -- the text is a section of these headers, so they are read back from it
    have hblock : HeaderBlock (linesText lines ++ tail) (lineFields lines tail) body :=
      headerBlock_iff_lines.mpr ⟨lines, tail, rfl, hlines, hend, rfl⟩
    have hstable : Stable (headersOf lines tail) body := by
      rw [← h] at hblock
      exact ⟨_, hblock, rfl⟩
    rcases (stable_iff hlines hend).mp hstable with hclean | hecho
    · exact .inl (canonical_of_written hlines hend hclean h)
    · exact .inr (selfPrinting_of_written hlines hecho h)
  · intro h
    rcases h with hcanonical | hself
    · exact hcanonical.written hend
    · exact hself.written

/-! ## Requests and responses -/

/-- A section that is written as it was read, behind the CRLF of the first
line. -/
def VerbatimSection (after : Bytes) : Prop :=
  ∃ lines tail body, after = crlf ++ (linesText lines ++ tail) ∧ LinesWellFormed lines ∧
    SectionEnd tail body ∧ (Canonical lines tail ∨ SelfPrinting lines tail body)

theorem VerbatimSection.exists_headerBlock {after : Bytes} (h : VerbatimSection after) :
    ∃ fields body, HeaderBlock (after.drop 2) fields body := by
  obtain ⟨lines, tail, body, rfl, hlines, hend, _⟩ := h
  exact ⟨lineFields lines tail, body,
    headerBlock_iff_lines.mpr ⟨lines, tail, rfl, hlines, hend, rfl⟩⟩

/-- What is behind the first line is what is written there. -/
theorem verbatimSection_iff {after body : Bytes} {fields : List (Bytes × Bytes)}
    (h : HeaderBlock (after.drop 2) fields body) :
    crlf ++ (headerLines (ofEntries fields).entries ++ (crlf ++ body)) = after ↔
      VerbatimSection after := by
  constructor
  · intro htext
    obtain ⟨lines, tail, hdrop, hlines, hend, rfl⟩ := headerBlock_iff_lines.mp h
    have hsection : headerLines (headersOf lines tail).entries ++ (crlf ++ body)
        = linesText lines ++ tail := by
      rw [← hdrop, ← htext]
      rfl
    refine ⟨lines, tail, body, ?_, hlines, hend, (written_iff hlines hend).mp hsection⟩
    rw [← htext, ← hsection]
    rfl
  · intro hverbatim
    obtain ⟨lines, tail, body', rfl, hlines, hend, hkind⟩ := hverbatim
    have hblock : HeaderBlock (linesText lines ++ tail) (lineFields lines tail) body' :=
      headerBlock_iff_lines.mpr ⟨lines, tail, rfl, hlines, hend, rfl⟩
    obtain ⟨rfl, rfl⟩ := h.unique hblock
    exact congrArg (crlf ++ ·) ((written_iff hlines hend).mpr hkind)

namespace HttpRequest

/-- A request line with its separators, and a section that is written as
it was read. -/
def Verbatim (s : Bytes) : Prop :=
  ∃ (method : HttpMethod) (uri : Bytes) (version : HttpVersion) (after : Bytes),
    s = method.string ++ Pine.space :: (uri ++ Pine.space :: (version.string ++ after)) ∧
    uri.head? = some slash ∧ Pine.space ∉ uri ∧ VerbatimSection after

theorem toString_eq_text_iff {s : Bytes} {r : HttpRequest} (h : parse s = .value r) :
    r.toString = s ↔ Verbatim s := by
  constructor
  · intro htext
    obtain ⟨sep, after, fields, rfl, hslash, hspace, hblock, hheaders⟩ := parse_eq_value_iff.mp h
    rw [toString_eq] at htext
    obtain ⟨rfl, htail⟩ := List.cons.inj (List.append_cancel_left htext)
    have hversion := (List.cons.inj (List.append_cancel_left htail)).2
    have hafter := List.append_cancel_left hversion
    rw [hheaders] at hafter
    exact ⟨r.method, r.uri, r.version, after, rfl, hslash, hspace,
      (verbatimSection_iff hblock).mp hafter⟩
  · intro hverbatim
    obtain ⟨method, uri, version, after, rfl, hslash, hspace, hsection⟩ := hverbatim
    obtain ⟨fields, body, hblock⟩ := hsection.exists_headerBlock
    have hread : parse (method.string ++ Pine.space :: (uri ++ Pine.space ::
        (version.string ++ after)))
        = .value { method, uri, version, headers := ofEntries fields, body } :=
      parse_eq_value_iff.mpr ⟨Pine.space, after, fields, rfl, hslash, hspace, hblock, rfl⟩
    rw [hread] at h
    cases h
    rw [toString_eq]
    simp only [(verbatimSection_iff hblock).mpr hsection]

end HttpRequest

namespace HttpResponse

/-- A status line with its separator, and a section that is written as it
was read. -/
def Verbatim (s : Bytes) : Prop :=
  ∃ (version : HttpVersion) (status : HttpStatus) (after : Bytes),
    s = version.string ++ space :: (status.expected ++ after) ∧ VerbatimSection after

theorem toString_eq_text_iff {s : Bytes} {r : HttpResponse} (h : parse s = .value r) :
    r.toString = s ↔ Verbatim s := by
  constructor
  · intro htext
    obtain ⟨sep, after, fields, rfl, hblock, hheaders⟩ := parse_eq_value_iff.mp h
    rw [toString_eq] at htext
    obtain ⟨rfl, hstatus⟩ := List.cons.inj (List.append_cancel_left htext)
    have hafter := List.append_cancel_left hstatus
    rw [hheaders] at hafter
    exact ⟨r.version, r.status, after, rfl, (verbatimSection_iff hblock).mp hafter⟩
  · intro hverbatim
    obtain ⟨version, status, after, rfl, hsection⟩ := hverbatim
    obtain ⟨fields, body, hblock⟩ := hsection.exists_headerBlock
    have hread : parse (version.string ++ space :: (status.expected ++ after))
        = .value { body, headers := ofEntries fields, status, version } :=
      parse_eq_value_iff.mpr ⟨space, after, fields, rfl, hblock, rfl⟩
    rw [hread] at h
    cases h
    rw [toString_eq]
    simp only [(verbatimSection_iff hblock).mpr hsection]

end HttpResponse

/-- **Which texts come back byte for byte** from `parse` and `to_string`:
those with the separators in their first line and a header section that is
canonical, and those that print themselves. -/
theorem text_comes_back_iff :
    (∀ (s : Bytes) (r : HttpRequest), HttpRequest.parse s = .value r →
      (r.toString = s ↔ HttpRequest.Verbatim s)) ∧
    (∀ (s : Bytes) (r : HttpResponse), HttpResponse.parse s = .value r →
      (r.toString = s ↔ HttpResponse.Verbatim s)) :=
  ⟨fun _ _ => HttpRequest.toString_eq_text_iff, fun _ _ => HttpResponse.toString_eq_text_iff⟩

/-- A request that prints itself, and a response that ends with its header
lines. -/
theorem text_comes_back_iff_self :
    (HttpRequest.toString
        { uri := bytes "/", headers := ofEntries [(bytes "k", bytes "\n\r\nk:")],
          body := bytes "k:" }
        = bytes "GET / HTTP/1.1\r\nk: \n\r\nk:\r\n\r\nk:" ↔
      HttpRequest.Verbatim (bytes "GET / HTTP/1.1\r\nk: \n\r\nk:\r\n\r\nk:")) ∧
    (HttpResponse.toString { headers := ofEntries [(bytes "a", bytes "1")] }
        = bytes "HTTP/1.1 200 OK\r\na: 1\r\n" ↔
      HttpResponse.Verbatim (bytes "HTTP/1.1 200 OK\r\na: 1\r\n")) :=
  ⟨text_comes_back_iff.1 _ _ (by decide +kernel), text_comes_back_iff.2 _ _ (by decide +kernel)⟩

end Pine
