import Pine.Http.HeaderLines
import Pine.Http.RoundTrip

/-!
# Http — Reparse

Whether what was parsed is parsed again from its own `to_string`. What
can go wrong is a header line with nothing after its colon: its value is
cut out behind the line and takes in all of the remaining text, line ends
included. `Clean` says that no such value is left in the map, which is
enough (`stable_of_fieldsWellFormed`). A map that holds one is read back only from a
message that is built to reproduce it: the line is the last one, its name
the greatest, and the body repeats the header lines (`Echo`).
-/

namespace Pine

open Search SortedMap

/-- The headers that the lines in front of `tail` are read as. -/
def headersOf (lines : List (Bytes × Bytes)) (tail : Bytes) : HeaderMap :=
  ofEntries (lineFields lines tail)

/-- Written in front of `body`, the map is read back as it is. -/
def Stable (m : HeaderMap) (body : Bytes) : Prop :=
  ∃ fields, HeaderBlock (headerLines m.entries ++ (crlf ++ body)) fields body ∧
    ofEntries fields = m

/-- A line with nothing after its colon that is the last of its name is
the last of all, and ends the message. -/
def Clean (lines : List (Bytes × Bytes)) (tail : Bytes) : Prop :=
  ∀ name, lastIn lines name = some [] → tail = [] ∧ lines.getLast? = some (name, [])

theorem find?_headersOf (lines : List (Bytes × Bytes)) (tail name : Bytes) :
    (headersOf lines tail).find? name = lastIn (lineFields lines tail) name :=
  find?_ofEntries _ _

/-! ## Values with a line end in them -/

section values
variable {lines : List (Bytes × Bytes)} {tail body : Bytes}

theorem crlf_infix_rest_iff {post : List (Bytes × Bytes)} (hend : SectionEnd tail body) :
    crlf <:+: linesText post ++ tail ↔ post ≠ [] ∨ tail ≠ [] := by
  constructor
  · intro h
    by_contra hnone
    obtain ⟨hpost, htail⟩ := not_or.mp hnone
    rw [not_not.mp hpost, not_not.mp htail] at h
    exact absurd h (by decide)
  · intro h
    cases post with
    | cons l post =>
        exact ⟨l.1 ++ colon :: l.2, linesText post ++ tail, by simp [lineText]⟩
    | nil =>
        cases hend with
        | eof => exact absurd rfl (h.resolve_left (not_not.mpr rfl))
        | blank body => exact (List.prefix_append crlf body).isInfix

/-- Where an entry of the headers comes from. -/
theorem entry_line {name value : Bytes} (hlines : LinesWellFormed lines)
    (h : (name, value) ∈ (headersOf lines tail).entries) :
    ∃ pre after post, lines = pre ++ (name, after) :: post ∧ (∀ l ∈ post, l.1 ≠ name) ∧
      lastIn lines name = some after ∧ value = fieldValue after (linesText post ++ tail) ∧
      colon ∉ name ∧ ¬ crlf <:+: name ++ colon :: after := by
  rw [mem_entries_iff, find?_headersOf] at h
  obtain ⟨pre, after, post, rfl, hpost, hlast, hvalue⟩ := lastIn_lineFields_eq_some h
  have hline := hlines (name, after) (by simp)
  exact ⟨pre, after, post, rfl, hpost, hlast, hvalue, hline.1, hline.2⟩

/-- The value of a name has a line end in it when its last line has
nothing after the colon and is not the end of the message. -/
theorem entry_crlf_iff {name value : Bytes} (hlines : LinesWellFormed lines)
    (hend : SectionEnd tail body) (h : (name, value) ∈ (headersOf lines tail).entries) :
    crlf <:+: value ↔ ∃ pre post, lines = pre ++ (name, []) :: post ∧
      (∀ l ∈ post, l.1 ≠ name) ∧ value = lf :: (linesText post ++ tail) ∧
      (post ≠ [] ∨ tail ≠ []) := by
  obtain ⟨pre, after, post, rfl, hpost, hlast, rfl, _, hfree⟩ := entry_line hlines h
  rw [crlf_infix_fieldValue hfree, crlf_infix_rest_iff hend]
  constructor
  · intro hbad
    obtain ⟨rfl, hrest⟩ := hbad
    exact ⟨pre, post, rfl, hpost, rfl, hrest⟩
  · intro hbad
    obtain ⟨pre', post', heq, hpost', hvalue, hrest⟩ := hbad
    have hlast' := lastIn_eq_some_iff.mpr ⟨pre', post', heq, hpost'⟩
    rw [hlast] at hlast'
    cases hlast'
    have htext : linesText post ++ tail = linesText post' ++ tail := (List.cons.inj hvalue).2
    rw [← crlf_infix_rest_iff hend, htext, crlf_infix_rest_iff hend]
    exact ⟨rfl, hrest⟩

/-- The other entries can be written. -/
theorem entry_wellFormed {name value : Bytes} (hlines : LinesWellFormed lines)
    (h : (name, value) ∈ (headersOf lines tail).entries) (hvalue : ¬ crlf <:+: value) :
    colon ∉ name ∧ ¬ crlf <:+: name ∧ ¬ crlf <:+: value := by
  obtain ⟨_, _, _, _, _, _, _, hcolon, hfree⟩ := entry_line hlines h
  exact ⟨hcolon, fun hname => hfree (crlf_infix_colon_iff.mpr (.inl hname)), hvalue⟩

theorem fieldsWellFormed_iff_clean (hlines : LinesWellFormed lines) (hend : SectionEnd tail body) :
    FieldsWellFormed (headersOf lines tail).entries ↔ Clean lines tail := by
  constructor
  · intro h name hlast
    obtain ⟨pre, post, rfl, hpost⟩ := lastIn_eq_some_iff.mp hlast
    have hmem : (name, fieldValue [] (linesText post ++ tail)) ∈
        (headersOf (pre ++ (name, []) :: post) tail).entries := by
      rw [mem_entries_iff, find?_headersOf, lastIn_lineFields hpost]
    have hfree := (h _ hmem).2.2
    rw [fieldValue, crlf_infix_lf_iff, crlf_infix_rest_iff hend, not_or, not_not, not_not] at hfree
    obtain ⟨rfl, rfl⟩ := hfree
    exact ⟨rfl, by simp⟩
  · intro h e he
    obtain ⟨name, value⟩ := e
    refine entry_wellFormed hlines he ?_
    intro hbad
    obtain ⟨pre, post, rfl, hpost, _, hrest⟩ := (entry_crlf_iff hlines hend he).mp hbad
    obtain ⟨rfl, hlast⟩ := h name (lastIn_eq_some_iff.mpr ⟨pre, post, rfl, hpost⟩)
    have hne := hrest.resolve_right (not_not.mpr rfl)
    obtain ⟨l, hl⟩ := List.getLast?_isSome.mpr hne |> Option.isSome_iff_exists.mp
    rw [List.getLast?_append, List.getLast?_cons, hl] at hlast
    simp only [Option.getD_some, Option.some_or, Option.some.injEq] at hlast
    have hname := hpost l (List.mem_of_getLast? hl)
    rw [hlast] at hname
    exact hname rfl

end values

/-! ## Reading a written section -/

theorem stable_of_fieldsWellFormed {m : HeaderMap} (h : FieldsWellFormed m.entries)
    (body : Bytes) : Stable m body :=
  ⟨m.entries, headerBlock_serialized h body, ofEntries_entries m⟩

/-- No section reads on behind an empty line. -/
theorem HeaderBlock.length_le_of_blank {text front behind body : Bytes}
    {fields : List (Bytes × Bytes)} (h : HeaderBlock text fields body)
    (htext : text = front ++ (crlf ++ (crlf ++ behind))) : behind.length ≤ body.length := by
  induction h generalizing front with
  | eof =>
      have hlen := congrArg List.length htext
      simp only [List.length_nil, List.length_append, crlf_length] at hlen
      omega
  | blank body =>
      have hlen := congrArg List.length htext
      simp only [List.length_append, crlf_length] at hlen
      omega
  | @line name after rest fields body hname hfree hrest ih =>
      -- a line that ends at the empty line leaves that line to the rest
      have hlast : ∀ rest', rest' = crlf ++ behind → HeaderBlock rest' fields body →
          behind.length ≤ body.length := by
        intro rest' heq hblock
        subst heq
        have hblock' : HeaderBlock ([] ++ (crlf ++ behind)) fields body := hblock
        rcases hblock'.line_inv (by simp [crlf_ne_nil]) with ⟨_, _, rfl⟩ | ⟨_, _, _, hnil, _⟩
        · exact Nat.le_refl _
        · exact absurd hnil (by simp)
      rcases List.append_eq_append_iff.mp htext with ⟨d, hd, hbehind⟩ | ⟨d, hd, hbehind⟩
      · match d with
        | [] => exact hlast rest (List.append_cancel_left hbehind) hrest
        | [a] => exact absurd (List.cons.inj (List.cons.inj hbehind).2).1 (by decide)
        | a :: b :: d => exact ih (List.cons.inj (List.cons.inj hbehind).2).2
      · have hdfree : ¬ crlf <:+: d := by
          intro hin
          exact hfree (hin.trans ⟨front, [], by rw [hd]; simp⟩)
        obtain ⟨_, hrest'⟩ := line_unique (by simp [crlf_ne_nil]) hdfree
          (show [] ++ (crlf ++ (crlf ++ behind)) = d ++ (crlf ++ rest) from hbehind)
        exact hlast rest hrest'.symm hrest

/-- Written lines are read first, as they were written. -/
theorem headerBlock_strip {good fields : List (Bytes × Bytes)} {text body : Bytes}
    (h : FieldsWellFormed good) (hblock : HeaderBlock (headerLines good ++ text) fields body) :
    ∃ fields', fields = good ++ fields' ∧ HeaderBlock text fields' body := by
  induction good generalizing fields with
  | nil => exact ⟨fields, rfl, hblock⟩
  | cons e good ih =>
      obtain ⟨name, value⟩ := e
      obtain ⟨hcolon, hname, hvalue⟩ := h (name, value) List.mem_cons_self
      rw [headerLines_cons, List.append_assoc, headerLine_append] at hblock
      rcases hblock.line_inv (headerLine_free hname hvalue) with
        ⟨hnil, _⟩ | ⟨name', after, fields', hline, hcolon', rfl, hrest⟩
      · exact absurd hnil (by simp)
      · obtain ⟨rfl, rfl⟩ := split_unique hcolon hcolon' hline
        obtain ⟨fields'', rfl, hblock'⟩ := ih h.tail hrest
        exact ⟨fields'', rfl, hblock'⟩

theorem headerLines_append (a b : List (Bytes × Bytes)) :
    headerLines (a ++ b) = headerLines a ++ headerLines b := List.flatMap_append

section stable
variable {lines : List (Bytes × Bytes)} {tail body : Bytes}

/-- **A value with a line end in it** survives in the last line only, with
the body behind it: anything else it could hold would write an empty line
in front of the one that ends the headers. -/
theorem Stable.line_is_last {name value : Bytes} (hstable : Stable (headersOf lines tail) body)
    (hlines : LinesWellFormed lines) (hend : SectionEnd tail body)
    (hmem : (name, value) ∈ (headersOf lines tail).entries) (hbad : crlf <:+: value) :
    ∃ init, lines = init ++ [(name, [])] ∧ tail = crlf ++ body := by
  obtain ⟨pre, post, rfl, hpost, rfl, hrest⟩ := (entry_crlf_iff hlines hend hmem).mp hbad
  obtain ⟨fields, hblock, _⟩ := hstable
  obtain ⟨before, behind, hentries⟩ := List.append_of_mem hmem
  rw [hentries] at hblock
  rcases List.eq_nil_or_concat post with rfl | ⟨post, l, rfl⟩
  · cases hend with
    | eof => exact absurd rfl (hrest.resolve_left (not_not.mpr rfl))
    | blank body => exact ⟨pre, rfl, rfl⟩
  · exfalso
    -- the last line's CRLF and the one behind it make an empty line
    let front := headerLines before ++ (name ++ [colon, space] ++
      (lf :: (linesText post ++ (l.1 ++ colon :: l.2))))
    cases hend with
    | eof =>
        have htext :
            headerLines (before ++ (name, lf :: (linesText (post.concat l) ++ [])) :: behind)
              ++ (crlf ++ [])
            = front ++ (crlf ++ (crlf ++ (headerLines behind ++ (crlf ++ [])))) := by
          simp [front, headerLines_append, headerLine, lineText]
        have hle := hblock.length_le_of_blank htext
        simp at hle
    | blank body =>
        have htext : headerLines (before ++
            (name, lf :: (linesText (post.concat l) ++ (crlf ++ body))) :: behind) ++ (crlf ++ body)
            = front ++ (crlf ++ (crlf ++ (body ++ (crlf ++ (headerLines behind ++
              (crlf ++ body)))))) := by
          simp [front, headerLines_append, headerLine, lineText]
        have hle := hblock.length_le_of_blank htext
        simp only [List.length_append, crlf_length] at hle
        omega

end stable

/-! ## The last line of a text -/

theorem linesText_end (lines : List (Bytes × Bytes)) :
    linesText lines = [] ∨ crlf <:+ linesText lines := by
  rcases List.eq_nil_or_concat lines with rfl | ⟨lines, l, rfl⟩
  · exact .inl rfl
  · exact .inr ⟨linesText lines ++ (l.1 ++ colon :: l.2), by simp [lineText]⟩

/-- What stands in front of the last line ends with a line end, so that
end is where the line starts. -/
theorem line_start_unique {x y d l : Bytes} (hx : x = [] ∨ crlf <:+ x) (hy : y = [] ∨ crlf <:+ y)
    (hd : y = x ++ d) (hfree : ¬ crlf <:+: d ++ l) : d = [] := by
  rcases hy with rfl | ⟨z, rfl⟩
  · exact (List.append_eq_nil_iff.mp hd.symm).2
  · rcases List.eq_nil_or_concat d with rfl | ⟨d, b, rfl⟩
    · rfl
    · rw [List.concat_eq_append, ← List.append_assoc, show crlf = [cr] ++ [lf] from rfl,
        ← List.append_assoc] at hd
      obtain ⟨hd, hb⟩ := List.append_inj' hd rfl
      rcases List.eq_nil_or_concat d with rfl | ⟨d, c, rfl⟩
      · -- `x` would end with a CR
        exfalso
        rw [List.append_nil] at hd
        rcases hx with rfl | ⟨w, rfl⟩
        · exact absurd hd (by simp)
        · rw [show crlf = [cr] ++ [lf] from rfl, ← List.append_assoc] at hd
          obtain ⟨_, hlast⟩ := List.append_inj' hd rfl
          exact absurd hlast (by decide)
      · exfalso
        rw [List.concat_eq_append, ← List.append_assoc] at hd
        obtain ⟨_, hc⟩ := List.append_inj' hd rfl
        cases hb
        cases hc
        exact hfree ⟨d, l, by simp [crlf]⟩

theorem last_line_unique {x y l l' : Bytes} (hx : x = [] ∨ crlf <:+ x) (hy : y = [] ∨ crlf <:+ y)
    (hl : ¬ crlf <:+: l) (hl' : ¬ crlf <:+: l') (h : x ++ l = y ++ l') : l = l' := by
  rcases List.append_eq_append_iff.mp h with ⟨d, hd, rfl⟩ | ⟨d, hd, rfl⟩
  · rw [line_start_unique hx hy hd hl]
    rfl
  · rw [line_start_unique hy hx hd hl']
    rfl

/-! ## Messages that reproduce such a value -/

/-- The one value with a line end in it belongs to the last header line
and to the greatest name, and the body repeats header lines: it ends with
that same line, and says of every other name what the headers say. -/
def Echo (lines : List (Bytes × Bytes)) (tail body : Bytes) : Prop :=
  ∃ init inner key, lines = init ++ [(key, [])] ∧ tail = crlf ++ body ∧
    (∀ l ∈ init, l.1 ≠ key → l.1 < key) ∧
    (∀ name, name ≠ key → lastIn lines name ≠ some []) ∧
    body ++ crlf = linesText (inner ++ [(key, [])]) ∧ LinesWellFormed inner ∧
    ∀ name after, name ≠ key → lastIn inner name = some after →
      after ≠ [] ∧ ∃ after', lastIn lines name = some after' ∧ after'.tail = after.tail

section echo
variable {init : List (Bytes × Bytes)} {key body : Bytes}

/-- The first line that the value of `key` is written to. -/
theorem feedLine_free (h : ¬ crlf <:+: key ++ colon :: []) :
    ¬ crlf <:+: key ++ colon :: [space, lf] := by
  rw [crlf_infix_colon_iff] at h ⊢
  intro hin
  rcases hin with hin | hin
  · exact h (.inl hin)
  · exact absurd hin (by decide)

/-- The value that the last line gives its name. -/
theorem find?_echo (init : List (Bytes × Bytes)) (key body : Bytes) :
    (headersOf (init ++ [(key, [])]) (crlf ++ body)).find? key
      = some (lf :: (crlf ++ body)) := by
  rw [find?_headersOf, lastIn_lineFields (List.forall_mem_nil _)]
  rfl

/-- A line with nothing after its colon leaves a value with a line end. -/
theorem crlf_infix_of_lastIn_nil {lines : List (Bytes × Bytes)} {name : Bytes} (body : Bytes)
    (h : lastIn lines name = some []) :
    ∃ value, (name, value) ∈ (headersOf lines (crlf ++ body)).entries ∧ crlf <:+: value := by
  obtain ⟨pre, post, rfl, hpost⟩ := lastIn_eq_some_iff.mp h
  refine ⟨_, mem_entries_iff.mpr ((find?_headersOf _ _ _).trans (lastIn_lineFields hpost)), ?_⟩
  rw [fieldValue, crlf_infix_lf_iff, crlf_infix_rest_iff (.blank body)]
  exact .inr (by simp [crlf_ne_nil])

/-- The entries around that of `key` can be written. -/
theorem others_wellFormed (hlines : LinesWellFormed (init ++ [(key, [])]))
    (hstable : Stable (headersOf (init ++ [(key, [])]) (crlf ++ body)) body) {name value : Bytes}
    (hmem : (name, value) ∈ (headersOf (init ++ [(key, [])]) (crlf ++ body)).entries)
    (hne : name ≠ key) : colon ∉ name ∧ ¬ crlf <:+: name ∧ ¬ crlf <:+: value := by
  apply entry_wellFormed hlines hmem
  intro hbad
  obtain ⟨init', heq, _⟩ := hstable.line_is_last hlines (.blank body) hmem hbad
  obtain ⟨_, hlast⟩ := List.append_inj' heq rfl
  cases hlast
  exact hne rfl

/-- A section that reads `key` as a line end and all that follows it ends
with the line of `key`. -/
theorem HeaderBlock.ends_with_line {text : Bytes} {fields : List (Bytes × Bytes)}
    (h : HeaderBlock text fields body) (hlast : lastIn fields key = some (lf :: (crlf ++ body))) :
    ∃ inner, LinesWellFormed (inner ++ [(key, [])]) ∧
      text = linesText (inner ++ [(key, [])]) ++ (crlf ++ body) ∧
      fields = lineFields (inner ++ [(key, [])]) (crlf ++ body) := by
  obtain ⟨lines, tail, rfl, hlines, _, rfl⟩ := headerBlock_iff_lines.mp h
  obtain ⟨inner, after, post, rfl, _, _, hvalue⟩ := lastIn_lineFields_eq_some hlast
  have hfree := (hlines (key, after) (by simp)).2
  have hbad : crlf <:+: fieldValue after (linesText post ++ tail) := by
    rw [← hvalue, crlf_infix_lf_iff]
    exact (List.prefix_append crlf body).isInfix
  obtain ⟨rfl, _⟩ := (crlf_infix_fieldValue hfree).mp hbad
  have htail : crlf ++ body = linesText post ++ tail := (List.cons.inj hvalue).2
  cases post with
  | nil =>
      rw [linesText_nil, List.nil_append] at htail
      subst htail
      exact ⟨inner, hlines, rfl, rfl⟩
  | cons l post =>
      -- no line is empty
      rw [linesText_cons, List.append_assoc, lineText_append] at htail
      obtain ⟨hnil, _⟩ := line_unique (by simp [crlf_ne_nil]) (hlines l (by simp)).2
        (show [] ++ (crlf ++ body) = _ from htail)
      exact absurd hnil (by simp)

/-- What reading the map's lines back says about the body: it ends with
the line of `key`, whatever entries follow that of `key` in the map. -/
theorem Stable.read_back {good post : List (Bytes × Bytes)}
    (hlines : LinesWellFormed (init ++ [(key, [])]))
    (hstable : Stable (headersOf (init ++ [(key, [])]) (crlf ++ body)) body)
    (hgood : FieldsWellFormed good)
    (hentries : (headersOf (init ++ [(key, [])]) (crlf ++ body)).entries
      = good ++ (key, lf :: (crlf ++ body)) :: post) :
    ∃ inner, LinesWellFormed (inner ++ [(key, [])]) ∧
      body ++ (crlf ++ headerLines post) = linesText (inner ++ [(key, [])]) ∧
      ofEntries (good ++ (key, [lf]) :: lineFields (inner ++ [(key, [])]) (crlf ++ body))
        = headersOf (init ++ [(key, [])]) (crlf ++ body) := by
  obtain ⟨fields, hblock, hof⟩ := hstable
  rw [hentries, headerLines_append, List.append_assoc] at hblock
  obtain ⟨fields', rfl, hblock'⟩ := headerBlock_strip hgood hblock
  -- the line of `key` is read as a line feed, and its value as lines
  have hkey := hlines (key, []) (by simp)
  have htext : headerLines ((key, lf :: (crlf ++ body)) :: post) ++ (crlf ++ body)
      = (key ++ colon :: [space, lf]) ++
        (crlf ++ (body ++ (crlf ++ (headerLines post ++ (crlf ++ body))))) := by
    simp [headerLine]
  rw [htext] at hblock'
  rcases hblock'.line_inv (feedLine_free hkey.2) with
    ⟨hnil, _⟩ | ⟨name, after, fields'', hline, hcolon, rfl, hrest⟩
  · exact absurd hnil (by simp)
  · obtain ⟨rfl, rfl⟩ := split_unique hkey.1 hcolon hline
    -- so the value of `key` comes from a line in that text
    have hlast : lastIn fields'' key = some (lf :: (crlf ++ body)) := by
      have hfind := find?_echo init key body
      rw [← hof, find?_ofEntries, lastIn_append, lastIn_cons, if_pos rfl] at hfind
      cases hin : lastIn fields'' key with
      | some value =>
          rw [hin] at hfind
          exact hfind
      | none =>
          rw [hin] at hfind
          have hlen := congrArg (Option.map List.length) hfind
          simp [fieldValue, crlf_length] at hlen
    obtain ⟨inner, hinner, hrestText, rfl⟩ := hrest.ends_with_line hlast
    refine ⟨inner, hinner, ?_, hof⟩
    rw [← List.append_left_inj (crlf ++ body), ← hrestText]
    simp

/-- Nothing follows the entry of `key`: the line in front of the blank
line would be that entry's, and its colon is followed by a space. -/
theorem last_entry {post inner : List (Bytes × Bytes)} (hpost : FieldsWellFormed post)
    (hinner : LinesWellFormed (inner ++ [(key, [])]))
    (htext : body ++ (crlf ++ headerLines post) = linesText (inner ++ [(key, [])])) :
    post = [] := by
  rcases List.eq_nil_or_concat post with rfl | ⟨post, e, rfl⟩
  · rfl
  · exfalso
    obtain ⟨name, value⟩ := e
    obtain ⟨hcolon, hname, hvalue⟩ := hpost (name, value) (by simp)
    obtain ⟨hkey, hfree⟩ := hinner (key, []) (by simp)
    have hlines : body ++ (crlf ++ headerLines post) ++ (name ++ colon :: space :: value)
        = linesText inner ++ (key ++ colon :: []) := by
      rw [← List.append_left_inj crlf]
      simpa [headerLines_append, headerLine, lineText] using htext
    have hstart : body ++ (crlf ++ headerLines post) = [] ∨
        crlf <:+ body ++ (crlf ++ headerLines post) := by
      rcases List.eq_nil_or_concat post with rfl | ⟨post, e, rfl⟩
      · exact .inr ⟨body, by simp⟩
      · exact .inr ⟨body ++ (crlf ++ (headerLines post ++ (e.1 ++ [colon, space] ++ e.2))),
          by simp [headerLines_append, headerLine]⟩
    have hsame := last_line_unique hstart (linesText_end inner) (headerLine_free hname hvalue)
      hfree hlines
    exact absurd (split_unique hcolon hkey hsame).2 (by simp)

/-- Where the entry of `key` is the last one, `key` is the greatest name. -/
theorem name_lt_key {good : List (Bytes × Bytes)} {value : Bytes}
    (hentries : (headersOf (init ++ [(key, [])]) (crlf ++ body)).entries = good ++ [(key, value)])
    (hbefore : ∀ e ∈ good, e.1 < key) : ∀ l ∈ init, l.1 ≠ key → l.1 < key := by
  intro l hl hne
  cases hfind : (headersOf (init ++ [(key, [])]) (crlf ++ body)).find? l.1 with
  | none =>
      rw [find?_headersOf, lastIn_lineFields_eq_none_iff, lastIn_eq_none_iff] at hfind
      exact absurd rfl (hfind l (List.mem_append_left _ hl))
  | some value' =>
      have hmem := mem_entries_iff.mpr hfind
      rw [hentries] at hmem
      rcases List.mem_append.mp hmem with hmem | hmem
      · exact hbefore (l.1, value') hmem
      · cases List.mem_singleton.mp hmem
        exact absurd rfl hne

/-- What the lines in the body say of another name, the headers say. -/
theorem inner_value {good inner : List (Bytes × Bytes)} {name after : Bytes}
    (hlines : LinesWellFormed (init ++ [(key, [])]))
    (hstable : Stable (headersOf (init ++ [(key, [])]) (crlf ++ body)) body)
    (hof : ofEntries (good ++ (key, [lf]) :: lineFields (inner ++ [(key, [])]) (crlf ++ body))
      = headersOf (init ++ [(key, [])]) (crlf ++ body))
    (hnoNil : lastIn (init ++ [(key, [])]) name ≠ some []) (hne : name ≠ key)
    (hlast : lastIn inner name = some after) :
    after ≠ [] ∧ ∃ after', lastIn (init ++ [(key, [])]) name = some after' ∧
      after'.tail = after.tail := by
  rw [← lastIn_concat_of_ne hne inner []] at hlast
  obtain ⟨pre, post, heq, hpost⟩ := lastIn_eq_some_iff.mp hlast
  have hfind : (headersOf (init ++ [(key, [])]) (crlf ++ body)).find? name
      = some (fieldValue after (linesText post ++ (crlf ++ body))) := by
    rw [← hof, find?_ofEntries, lastIn_append, lastIn_cons, heq, lastIn_lineFields hpost]
    rfl
  -- the value is one that can be written, so the line has something in it
  have hfree := (others_wellFormed hlines hstable (mem_entries_iff.mpr hfind) hne).2.2
  have hafter : after ≠ [] := by
    intro hnil
    rw [hnil, fieldValue, crlf_infix_lf_iff, crlf_infix_rest_iff (.blank body)] at hfree
    exact hfree (.inr (by simp [crlf_ne_nil]))
  rw [find?_headersOf] at hfind
  obtain ⟨_, after', _, _, _, hlast', hvalue⟩ := lastIn_lineFields_eq_some hfind
  refine ⟨hafter, after', hlast', ?_⟩
  cases after with
  | nil => exact absurd rfl hafter
  | cons b value =>
      cases after' with
      | nil => exact absurd hlast' hnoNil
      | cons b' value' => exact hvalue.symm

/-- **A stable value with a line end in it** is in a message that is an
echo. -/
theorem Stable.echo (hlines : LinesWellFormed (init ++ [(key, [])]))
    (hstable : Stable (headersOf (init ++ [(key, [])]) (crlf ++ body)) body) :
    Echo (init ++ [(key, [])]) (crlf ++ body) body := by
  obtain ⟨good, post, hentries, hbefore, hbehind⟩ := entries_split (find?_echo init key body)
  have hgood : FieldsWellFormed good := by
    intro e he
    refine others_wellFormed hlines hstable (hentries ▸ List.mem_append_left _ he) ?_
    intro hname
    exact irrefl_of (· < ·) key (hname ▸ hbefore e he)
  have hpost : FieldsWellFormed post := by
    intro e he
    refine others_wellFormed hlines hstable
      (hentries ▸ List.mem_append_right _ (List.mem_cons_of_mem _ he)) ?_
    intro hname
    exact irrefl_of (· < ·) key (hname ▸ hbehind e he)
  obtain ⟨inner, hinner, htext, hof⟩ := hstable.read_back hlines hgood hentries
  obtain rfl := last_entry hpost hinner htext
  have hnoNil : ∀ name, name ≠ key → lastIn (init ++ [(key, [])]) name ≠ some [] := by
    intro name hne hlast
    obtain ⟨value, hmem, hbad⟩ := crlf_infix_of_lastIn_nil body hlast
    exact (others_wellFormed hlines hstable hmem hne).2.2 hbad
  refine ⟨init, inner, key, rfl, rfl, name_lt_key hentries hbefore, hnoNil,
    by simpa using htext, fun l hl => hinner l (List.mem_append_left _ hl), ?_⟩
  intro name after hne hlast
  exact inner_value hlines hstable hof (hnoNil name hne) hne hlast

end echo

section echoStable
variable {lines : List (Bytes × Bytes)} {tail body : Bytes}

/-- The greatest name has the last entry. -/
theorem entries_of_greatest {m : HeaderMap} {key value : Bytes} (hfind : m.find? key = some value)
    (hgreatest : ∀ e ∈ m.entries, e.1 ≠ key → e.1 < key) :
    ∃ good, m.entries = good ++ [(key, value)] ∧ ∀ e ∈ good, e.1 ≠ key := by
  obtain ⟨good, post, hentries, hbefore, hbehind⟩ := entries_split hfind
  cases post with
  | nil =>
      refine ⟨good, hentries, ?_⟩
      intro e he hname
      exact irrefl_of (· < ·) key (hname ▸ hbefore e he)
  | cons e post =>
      have hlt := hbehind e List.mem_cons_self
      have hne : e.1 ≠ key := by
        intro hname
        exact irrefl_of (· < ·) key (hname ▸ hlt)
      have hgt := hgreatest e (by rw [hentries]; simp) hne
      exact absurd (trans_of (· < ·) hlt hgt) (irrefl_of (· < ·) _)

/-- The section of a map whose last entry is that of `key`, when the body
ends with the line of `key`. -/
theorem headerBlock_echo {good inner : List (Bytes × Bytes)} {key : Bytes}
    (hgood : FieldsWellFormed good) (hinner : LinesWellFormed (inner ++ [(key, [])]))
    (htext : body ++ crlf = linesText (inner ++ [(key, [])])) :
    HeaderBlock (headerLines (good ++ [(key, lf :: (crlf ++ body))]) ++ (crlf ++ body))
      (good ++ (key, [lf]) :: lineFields (inner ++ [(key, [])]) (crlf ++ body)) body := by
  have hkey := hinner (key, []) (by simp)
  have hrest : HeaderBlock (linesText (inner ++ [(key, [])]) ++ (crlf ++ body))
      (lineFields (inner ++ [(key, [])]) (crlf ++ body)) body :=
    headerBlock_iff_lines.mpr ⟨_, _, rfl, hinner, .blank body, rfl⟩
  have hblock := headerBlock_headerLines hgood (.line hkey.1 (feedLine_free hkey.2) hrest)
  have hlines : headerLines (good ++ [(key, lf :: (crlf ++ body))]) ++ (crlf ++ body)
      = headerLines good ++ ((key ++ colon :: [space, lf]) ++
        (crlf ++ ((body ++ crlf) ++ (crlf ++ body)))) := by
    simp [headerLines_append, headerLine]
  rw [hlines, htext]
  exact hblock

/-- The repeated lines overwrite what the first pass left with the same
values. -/
theorem ofEntries_echo {init inner good : List (Bytes × Bytes)} {key : Bytes}
    (hentries : (headersOf (init ++ [(key, [])]) (crlf ++ body)).entries
      = good ++ [(key, lf :: (crlf ++ body))])
    (hnoNil : ∀ name, name ≠ key → lastIn (init ++ [(key, [])]) name ≠ some [])
    (hvalues : ∀ name after, name ≠ key → lastIn inner name = some after →
      after ≠ [] ∧ ∃ after', lastIn (init ++ [(key, [])]) name = some after' ∧
        after'.tail = after.tail) :
    ofEntries (good ++ (key, [lf]) :: lineFields (inner ++ [(key, [])]) (crlf ++ body))
      = headersOf (init ++ [(key, [])]) (crlf ++ body) := by
  apply ext_find?
  intro name
  rw [find?_ofEntries, lastIn_append, lastIn_cons]
  by_cases hname : name = key
  · subst hname
    rw [lastIn_lineFields (List.forall_mem_nil _), find?_echo]
    rfl
  · rw [if_neg (Ne.symm hname), Option.or_none]
    cases hlast : lastIn inner name with
    | none =>
        have hnone : lastIn (lineFields (inner ++ [(key, [])]) (crlf ++ body)) name = none := by
          rw [lastIn_lineFields_eq_none_iff, lastIn_concat_of_ne hname, hlast]
        rw [hnone, Option.none_or, ← ofEntries_entries (headersOf _ _), find?_ofEntries, hentries,
          lastIn_concat_of_ne hname]
    | some after =>
        obtain ⟨hafter, after', hlast', htail⟩ := hvalues name after hname hlast
        have hin : lastIn (inner ++ [(key, [])]) name = some after := by
          rw [lastIn_concat_of_ne hname, hlast]
        have hafter' : after' ≠ [] := fun hnil => hnoNil name hname (hnil ▸ hlast')
        rw [lastIn_lineFields_of_ne_nil hin hafter, find?_headersOf,
          lastIn_lineFields_of_ne_nil hlast' hafter', htail]
        rfl

/-- **An echo is read back.** -/
theorem Echo.stable (h : Echo lines tail body) (hlines : LinesWellFormed lines) :
    Stable (headersOf lines tail) body := by
  obtain ⟨init, inner, key, rfl, rfl, hgreatest, hnoNil, htext, hinner, hvalues⟩ := h
  obtain ⟨good, hentries, hothers⟩ := entries_of_greatest (find?_echo init key body) (by
    intro e he hne
    obtain ⟨_, after, _, _, _, hlast, _⟩ := entry_line hlines he
    rcases List.mem_append.mp (mem_of_lastIn hlast) with hmem | hmem
    · exact hgreatest (e.1, after) hmem hne
    · exact absurd (congrArg Prod.fst (List.mem_singleton.mp hmem)) hne)
  have hgood : FieldsWellFormed good := by
    intro e he
    have hmem : (e.1, e.2) ∈ (headersOf (init ++ [(key, [])]) (crlf ++ body)).entries := by
      rw [hentries]
      exact List.mem_append_left _ he
    apply entry_wellFormed hlines hmem
    intro hbad
    obtain ⟨pre, post, heq, hpost, _⟩ := (entry_crlf_iff hlines (.blank body) hmem).mp hbad
    exact hnoNil e.1 (hothers e he) (lastIn_eq_some_iff.mpr ⟨pre, post, heq, hpost⟩)
  have hinner' : LinesWellFormed (inner ++ [(key, [])]) := by
    intro l hl
    rcases List.mem_append.mp hl with hl | hl
    · exact hinner l hl
    · rw [List.mem_singleton.mp hl]
      exact hlines (key, []) (by simp)
  refine ⟨_, ?_, ofEntries_echo hentries hnoNil hvalues⟩
  rw [hentries]
  exact headerBlock_echo hgood hinner' htext

end echoStable

/-- **What is read back**: headers without a line end in a value, and
those of an echo. -/
theorem stable_iff {lines : List (Bytes × Bytes)} {tail body : Bytes}
    (hlines : LinesWellFormed lines) (hend : SectionEnd tail body) :
    Stable (headersOf lines tail) body ↔ Clean lines tail ∨ Echo lines tail body := by
  constructor
  · intro hstable
    by_cases hfree : ∀ e ∈ (headersOf lines tail).entries, ¬ crlf <:+: e.2
    · have hclean : FieldsWellFormed (headersOf lines tail).entries :=
        fun e he => entry_wellFormed hlines he (hfree e he)
      exact .inl ((fieldsWellFormed_iff_clean hlines hend).mp hclean)
    · -- some value has a line end in it, so its line is the last one
      simp only [not_forall, not_not] at hfree
      obtain ⟨e, he, hvalue⟩ := hfree
      obtain ⟨init, rfl, rfl⟩ := hstable.line_is_last hlines hend he hvalue
      exact .inr (hstable.echo hlines)
  · intro h
    rcases h with hclean | hecho
    · exact stable_of_fieldsWellFormed ((fieldsWellFormed_iff_clean hlines hend).mpr hclean) body
    · exact hecho.stable hlines

/-! ## Requests -/

namespace HttpRequest

/-- A request is read back when its headers are. -/
theorem parse_toString_iff_stable {r : HttpRequest} (hslash : r.uri.head? = some slash)
    (hspace : space ∉ r.uri) : parse r.toString = .value r ↔ Stable r.headers r.body := by
  rw [parse_eq_value_iff, toString_eq]
  constructor
  · intro h
    obtain ⟨sep, after, fields, htext, _, _, hblock, hheaders⟩ := h
    have htail := (List.cons.inj (List.append_cancel_left htext)).2
    have hversion := (List.cons.inj (List.append_cancel_left htail)).2
    have hafter : crlf ++ (headerLines r.headers.entries ++ (crlf ++ r.body)) = after :=
      List.append_cancel_left hversion
    rw [← hafter] at hblock
    exact ⟨fields, hblock, hheaders.symm⟩
  · intro h
    obtain ⟨fields, hblock, hheaders⟩ := h
    exact ⟨space, _, fields, rfl, hslash, hspace, hblock, hheaders.symm⟩

/-- A text whose header lines leave no value with a line end in it, or
which is an echo. -/
def Reproducible (s : Bytes) : Prop :=
  ∃ (method : HttpMethod) (sep : UInt8) (uri : Bytes) (version : HttpVersion)
    (after tail body : Bytes) (lines : List (Bytes × Bytes)),
    s = method.string ++ sep :: (uri ++ space :: (version.string ++ after)) ∧
    uri.head? = some slash ∧ space ∉ uri ∧ after.drop 2 = linesText lines ++ tail ∧
    LinesWellFormed lines ∧ SectionEnd tail body ∧ (Clean lines tail ∨ Echo lines tail body)

/-- **Reparse stability**, and where it holds. -/
theorem reparse_iff {s : Bytes} {r : HttpRequest} (h : parse s = .value r) :
    parse r.toString = .value r ↔ Reproducible s := by
  obtain ⟨sep, after, fields, hs, hslash, hspace, hblock, hheaders⟩ := parse_eq_value_iff.mp h
  rw [parse_toString_iff_stable hslash hspace]
  constructor
  · intro hstable
    obtain ⟨lines, tail, hafter, hlines, hend, rfl⟩ := headerBlock_iff_lines.mp hblock
    rw [hheaders] at hstable
    exact ⟨r.method, sep, r.uri, r.version, after, tail, r.body, lines, hs, hslash, hspace, hafter,
      hlines, hend, (stable_iff hlines hend).mp hstable⟩
  · intro hrep
    obtain ⟨method, sep', uri, version, after', tail, body, lines, hs', hslash', hspace', hafter,
      hlines, hend, hgood⟩ := hrep
    have hparse : parse s
        = .value { method, uri, version, headers := headersOf lines tail, body } := by
      rw [parse_eq_value_iff]
      exact ⟨sep', after', lineFields lines tail, hs', hslash', hspace',
        headerBlock_iff_lines.mpr ⟨lines, tail, hafter, hlines, hend, rfl⟩, rfl⟩
    rw [h] at hparse
    rw [Outcome.value.inj hparse]
    exact (stable_iff hlines hend).mpr hgood

/-- An echo: the body is the line with nothing after its colon. -/
theorem reparse_iff_echo :
    let r : HttpRequest :=
      { uri := bytes "/", headers := ofEntries [(bytes "k", bytes "\n\r\nk:")], body := bytes "k:" }
    parse r.toString = .value r ↔ Reproducible (bytes "GET / HTTP/1.1\r\nk:\r\n\r\nk:") :=
  reparse_iff (by decide +kernel)

/-- A header line with nothing after its colon takes the line end behind
it into its value, and the value is not read back. -/
theorem reparse_unstable :
    ¬ ∀ (s : Bytes) (r : HttpRequest), parse s = .value r → parse r.toString = .value r := by
  intro h
  let r : HttpRequest :=
    { uri := bytes "/", headers := ofEntries [(bytes "a", bytes "\n\r\n")] }
  have hparse : parse (bytes "GET / HTTP/1.1\r\na:\r\n\r\n") = .value r := by decide +kernel
  have hagain : parse r.toString ≠ .value r := by decide +kernel
  exact hagain (h _ r hparse)

end HttpRequest

end Pine
