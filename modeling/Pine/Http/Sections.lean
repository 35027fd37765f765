import Pine.Http.HeaderLines
import Pine.Http.RoundTrip

/-!
# Http — Sections

`try_get_headers` against the pieces of the text between its CRLFs. The
lines of a section are the pieces before the first empty one
(`blockLines`). The loop succeeds when there is an empty piece and a
colon in every line before it, and stops right behind that piece
(`tryGetHeaders_language`). It cuts every value two bytes behind the
colon: that is the value of the line itself exactly when a space follows
the colon (`headers_own_iff`). Lines as `to_string` writes them have that
space, so any list of them is read as its last values, wherever it
stands (`headerLines_read`).
-/

namespace Pine

open Search SortedMap

/-! ## The pieces of a section -/

/-- The lines of a section: the pieces of the text before the first empty
one. -/
def blockLines (text : Bytes) : List Bytes := (splitOn crlf text).takeWhile (· ≠ [])

/-- The pieces from the first empty one on. -/
def blockRest (text : Bytes) : List Bytes := (splitOn crlf text).dropWhile (· ≠ [])

/-- There is an empty piece, and every piece before the first has a
colon. -/
def BlockAccepted (text : Bytes) : Prop :=
  [] ∈ splitOn crlf text ∧ ∀ line ∈ blockLines text, colon ∈ line

/-- Where the section that starts at `offset` ends: just past the blank
line, or at the end of the text where the first empty piece is the last
one. Past the end of the text there is nothing to move over. -/
def blockEnd (s : Bytes) (offset : Nat) : Nat :=
  if s.length < offset then offset
  else if (blockRest (s.drop offset)).length = 1 then s.length
  else offset + ((blockLines (s.drop offset)).map fun line => line.length + crlf.length).sum
    + crlf.length

/-- A line as the text in front of its CRLF. -/
def joined (line : Bytes × Bytes) : Bytes := line.1 ++ colon :: line.2

theorem joined_ne_nil (line : Bytes × Bytes) : joined line ≠ [] := by simp [joined]

theorem splitOn_linesText {lines : List (Bytes × Bytes)} (h : LinesWellFormed lines)
    (tail : Bytes) :
    splitOn crlf (linesText lines ++ tail) = lines.map joined ++ splitOn crlf tail := by
  induction lines with
  | nil => rfl
  | cons line lines ih =>
      obtain ⟨⟨_, hfree⟩, hrest⟩ := List.forall_mem_cons.mp h
      rw [linesText_cons, List.append_assoc, lineText_append,
        splitOn_append unbordered_crlf crlf_ne_nil hfree, ih hrest]
      rfl

theorem SectionEnd.pieces {tail body : Bytes} (h : SectionEnd tail body) :
    (splitOn crlf tail = [[]] ∧ tail = [] ∧ body = []) ∨
      (splitOn crlf tail = [] :: splitOn crlf body ∧ tail = crlf ++ body) := by
  have hnil : ¬ crlf <:+: ([] : Bytes) := by simp [crlf_ne_nil]
  cases h with
  | eof => exact .inl ⟨splitOn_free hnil, rfl, rfl⟩
  | blank body => exact .inr ⟨splitOn_append unbordered_crlf crlf_ne_nil hnil body, rfl⟩

section lines
variable {lines : List (Bytes × Bytes)} {tail body : Bytes}

theorem joined_nonempty : ∀ line ∈ lines.map joined, decide (line ≠ []) = true := by
  intro line hline
  obtain ⟨l, _, rfl⟩ := List.mem_map.mp hline
  exact decide_eq_true (joined_ne_nil l)

/-- The lines of a section, read off its pieces. -/
theorem blockLines_section (h : LinesWellFormed lines) (hend : SectionEnd tail body) :
    blockLines (linesText lines ++ tail) = lines.map joined := by
  rw [blockLines, splitOn_linesText h, List.takeWhile_append_of_pos joined_nonempty]
  rcases hend.pieces with ⟨hsplit, _⟩ | ⟨hsplit, _⟩ <;> simp [hsplit]

theorem blockRest_section (h : LinesWellFormed lines) (hend : SectionEnd tail body) :
    blockRest (linesText lines ++ tail) = splitOn crlf tail := by
  rw [blockRest, splitOn_linesText h, List.dropWhile_append_of_pos joined_nonempty]
  rcases hend.pieces with ⟨hsplit, _⟩ | ⟨hsplit, _⟩ <;> simp [hsplit]

theorem length_linesText :
    (linesText lines).length
      = ((lines.map joined).map fun line => line.length + crlf.length).sum := by
  induction lines with
  | nil => rfl
  | cons line lines ih =>
      rw [linesText_cons, List.length_append, ih, List.map_cons, List.map_cons, List.sum_cons]
      simp only [lineText, joined, List.length_append]

end lines

theorem splitOn_ne_nil (text : Bytes) : splitOn crlf text ≠ [] := by
  induction text using cut_induction unbordered_crlf crlf_ne_nil with
  | free s hfree => simp [splitOn_free hfree]
  | piece pre post hfree _ => simp [splitOn_append unbordered_crlf crlf_ne_nil hfree]

/-- The pieces of a section, a line that is not blank in front. -/
theorem blockAccepted_line_iff {line rest : Bytes} (hfree : ¬ crlf <:+: line) (hline : line ≠ []) :
    BlockAccepted (line ++ (crlf ++ rest)) ↔ colon ∈ line ∧ BlockAccepted rest := by
  have hsplit := splitOn_append unbordered_crlf crlf_ne_nil hfree rest
  have hblock : blockLines (line ++ (crlf ++ rest)) = line :: blockLines rest := by
    rw [blockLines, hsplit, List.takeWhile_cons_of_pos (by simpa using hline)]
    rfl
  have hmem : [] ∈ line :: splitOn crlf rest ↔ [] ∈ splitOn crlf rest := by
    rw [List.mem_cons, or_iff_right (Ne.symm hline)]
  rw [BlockAccepted, BlockAccepted, hblock, hsplit, hmem, List.forall_mem_cons]
  exact and_left_comm

/-- **Which texts are sections**, by their pieces. -/
theorem exists_headerBlock_iff {text : Bytes} :
    (∃ fields body, HeaderBlock text fields body) ↔ BlockAccepted text := by
  constructor
  · intro h
    obtain ⟨fields, body, hb⟩ := h
    obtain ⟨lines, tail, rfl, hlines, hend, _⟩ := headerBlock_iff_lines.mp hb
    refine ⟨?_, ?_⟩
    · rw [splitOn_linesText hlines, List.mem_append]
      rcases hend.pieces with ⟨hsplit, _⟩ | ⟨hsplit, _⟩ <;> simp [hsplit]
    · rw [blockLines_section hlines hend]
      intro line hline
      obtain ⟨l, _, rfl⟩ := List.mem_map.mp hline
      simp [joined]
  · intro h
    induction text using cut_induction unbordered_crlf crlf_ne_nil with
    | free s hfree =>
        -- the only piece is the text, so it is empty
        have hnil := h.1
        rw [splitOn_free hfree, List.mem_singleton] at hnil
        exact ⟨[], [], hnil ▸ .eof⟩
    | piece line rest hfree ih =>
        by_cases hline : line = []
        · subst hline
          exact ⟨[], rest, .blank rest⟩
        · obtain ⟨hcolon, hrest⟩ := (blockAccepted_line_iff hfree hline).mp h
          obtain ⟨fields, body, hb⟩ := ih hrest
          obtain ⟨name, after, rfl, hname⟩ := exists_name_of_colon_mem hcolon
          exact ⟨_, _, .line hname hfree hb⟩

/-- The offset behind a section, by its pieces. -/
theorem blockEnd_eq {s : Bytes} {offset : Nat} {fields : List (Bytes × Bytes)} {body : Bytes}
    (h : HeaderBlock (s.drop offset) fields body) :
    blockEnd s offset = max offset (s.length - body.length) := by
  obtain ⟨lines, tail, htext, hlines, hend, _⟩ := headerBlock_iff_lines.mp h
  have hlength := congrArg List.length htext
  rw [List.length_drop, List.length_append, length_linesText] at hlength
  rw [blockEnd, htext, blockRest_section hlines hend, blockLines_section hlines hend]
  rcases hend.pieces with ⟨hsplit, rfl, rfl⟩ | ⟨hsplit, rfl⟩
  · rw [hsplit, List.length_nil, Nat.sub_zero]
    simp only [List.length_singleton, if_true]
    split <;> omega
  · have hone : ¬ (splitOn crlf (crlf ++ body)).length = 1 := by
      have hpos := List.length_pos_iff.mpr (splitOn_ne_nil body)
      rw [hsplit, List.length_cons]
      omega
    rw [List.length_append, crlf_length] at hlength
    rw [if_neg hone, if_neg (by omega), crlf_length, Nat.max_eq_right (by omega)]
    omega

/-- **The language of `try_get_headers`**, by the pieces of the text from
the offset on. The loop is total and nothing in it throws; it succeeds
where there is an empty piece behind lines that have a colon each, and
leaves the offset behind that piece. -/
theorem tryGetHeaders_language (s : Bytes) (offset : Nat) :
    tryGetHeaders s offset ≠ .outOfRange ∧
      ((∃ m o, tryGetHeaders s offset = .value m o) ↔ BlockAccepted (s.drop offset)) ∧
      ∀ m o, tryGetHeaders s offset = .value m o → o = blockEnd s offset := by
  refine ⟨?_, ?_, ?_⟩
  · intro hthrow
    by_cases hblock : ∃ fields body, HeaderBlock (s.drop offset) fields body
    · obtain ⟨fields, body, hb⟩ := hblock
      rw [tryGetHeaders_eq_value_iff.mpr ⟨fields, body, hb, rfl, rfl⟩] at hthrow
      cases hthrow
    · obtain ⟨o, ho⟩ := tryGetHeaders_unexpected fun fields body hb => hblock ⟨fields, body, hb⟩
      rw [ho] at hthrow
      cases hthrow
  · rw [← exists_headerBlock_iff]
    constructor
    · rintro ⟨m, o, hvalue⟩
      obtain ⟨fields, body, hb, _⟩ := tryGetHeaders_eq_value_iff.mp hvalue
      exact ⟨fields, body, hb⟩
    · rintro ⟨fields, body, hb⟩
      exact ⟨_, _, tryGetHeaders_eq_value_iff.mpr ⟨fields, body, hb, rfl, rfl⟩⟩
  · intro m o hvalue
    obtain ⟨fields, body, hb, _, rfl⟩ := tryGetHeaders_eq_value_iff.mp hvalue
    exact (blockEnd_eq hb).symm

/-! ## What the values are -/

/-- The text of a line behind its first colon. -/
def afterColon (line : Bytes) : Bytes := (line.dropWhile (· ≠ colon)).tail

/-- With at most one leading space removed. -/
def stripSpace (after : Bytes) : Bytes :=
  match after with
  | [] => []
  | b :: value => if b = space then value else b :: value

/-- The names and values of the lines of a section, each read from its
own line. -/
def ownFields (text : Bytes) : List (Bytes × Bytes) :=
  (blockLines text).map fun line => (nameOf line, stripSpace (afterColon line))

/-- A space follows the colon in the last line of every name. -/
def LastSpaced (lines : List Bytes) : Prop :=
  ∀ before line behind, lines = before ++ line :: behind →
    (∀ l ∈ behind, nameOf l ≠ nameOf line) → (afterColon line).head? = some space

theorem afterColon_append {name : Bytes} (h : colon ∉ name) (after : Bytes) :
    afterColon (name ++ colon :: after) = after := by
  have hname : ∀ b ∈ name, decide (b ≠ colon) = true := by
    intro b hb
    exact decide_eq_true (ne_of_mem_of_not_mem hb h)
  rw [afterColon, List.dropWhile_append_of_pos hname]
  simp

/-- The value that is cut out is that of the line when there is a space to
skip. -/
theorem fieldValue_eq_stripSpace_iff {after rest : Bytes} :
    fieldValue after rest = stripSpace after ↔ after.head? = some space := by
  cases after with
  | nil => exact iff_of_false (List.cons_ne_nil lf rest) (by simp)
  | cons b value =>
      rw [fieldValue, stripSpace, List.head?_cons, Option.some.injEq]
      by_cases hb : b = space <;> simp [hb]

section lines
variable {lines : List (Bytes × Bytes)} {tail body : Bytes}

theorem ownFields_section (h : LinesWellFormed lines) (hend : SectionEnd tail body) :
    ownFields (linesText lines ++ tail) = lines.map fun l => (l.1, stripSpace l.2) := by
  rw [ownFields, blockLines_section h hend, List.map_map]
  apply List.map_congr_left
  intro l hl
  have hname := (h l hl).1
  simp only [Function.comp_apply, joined, nameOf_append hname, afterColon_append hname]

/-- The condition on the lines, name by name. -/
theorem lastSpaced_iff (h : LinesWellFormed lines) :
    LastSpaced (lines.map joined) ↔
      ∀ name after, lastIn lines name = some after → after.head? = some space := by
  constructor
  · intro hspaced name after hlast
    obtain ⟨pre, post, rfl, hpost⟩ := lastIn_eq_some_iff.mp hlast
    have hname : colon ∉ name := (h (name, after) (by simp)).1
    rw [← afterColon_append hname after]
    apply hspaced (pre.map joined) (joined (name, after)) (post.map joined) (by simp)
    intro line hline
    obtain ⟨l, hl, rfl⟩ := List.mem_map.mp hline
    have hl' := (h l (by simp [hl])).1
    rw [joined, joined, nameOf_append hl', nameOf_append hname]
    exact hpost l hl
  · intro hall before line behind hsplit hbehind
    obtain ⟨pre, rest, rfl, rfl, hrest⟩ := List.map_eq_append_iff.mp hsplit
    obtain ⟨⟨name, after⟩, post, rfl, rfl, rfl⟩ := List.map_eq_cons_iff.mp hrest
    have hname : colon ∉ name := (h (name, after) (by simp)).1
    rw [joined, afterColon_append hname]
    apply hall name after
    refine lastIn_eq_some_iff.mpr ⟨pre, post, rfl, ?_⟩
    intro l hl
    have hne := hbehind (joined l) (List.mem_map_of_mem hl)
    have hl' := (h l (by simp [hl])).1
    rwa [joined, joined, nameOf_append hl', nameOf_append hname] at hne

/-- Two maps, compared name by name. -/
theorem ofEntries_lineFields_eq_iff :
    ofEntries (lineFields lines tail) = ofEntries (lines.map fun l => (l.1, stripSpace l.2)) ↔
      ∀ name after, lastIn lines name = some after → after.head? = some space := by
  constructor
  · intro heq name after hlast
    have hfind := congrArg (fun m => m.find? name) heq
    obtain ⟨pre, post, rfl, hpost⟩ := lastIn_eq_some_iff.mp hlast
    simp only [find?_ofEntries, lastIn_map, hlast, lastIn_lineFields hpost,
      Option.map_some] at hfind
    exact fieldValue_eq_stripSpace_iff.mp (Option.some.inj hfind)
  · intro hall
    apply ext_find?
    intro name
    rw [find?_ofEntries, find?_ofEntries, lastIn_map]
    cases hlast : lastIn lines name with
    | none => exact lastIn_lineFields_eq_none_iff.mpr hlast
    | some after =>
        have hspace := hall name after hlast
        obtain ⟨pre, post, rfl, hpost⟩ := lastIn_eq_some_iff.mp hlast
        rw [lastIn_lineFields hpost, fieldValue_eq_stripSpace_iff.mpr hspace]
        rfl

end lines

/-- **Headers come from their own lines** exactly when a space follows the
colon in the last line of every name. -/
theorem headers_own_iff {s : Bytes} {offset o : Nat} {m : HeaderMap}
    (h : tryGetHeaders s offset = .value m o) :
    m = ofEntries (ownFields (s.drop offset)) ↔ LastSpaced (blockLines (s.drop offset)) := by
  obtain ⟨fields, body, hb, rfl, _⟩ := tryGetHeaders_eq_value_iff.mp h
  obtain ⟨lines, tail, htext, hlines, hend, rfl⟩ := headerBlock_iff_lines.mp hb
  rw [htext, ownFields_section hlines hend, blockLines_section hlines hend,
    ofEntries_lineFields_eq_iff, lastSpaced_iff hlines]

/-- A line with nothing behind its colon, and a later one of its name that
has a space there. -/
theorem headers_own_iff_overwritten :
    let s := bytes "\r\na:\r\na: 1\r\n\r\nb"
    ofEntries [(bytes "a", bytes "1")] = ofEntries (ownFields (s.drop 2))
      ↔ LastSpaced (blockLines (s.drop 2)) :=
  headers_own_iff (o := 14) (by decide +kernel)

/-- The value of a line with nothing behind its colon is its line feed and
all that follows. -/
theorem value_from_next_line :
    ¬ ∀ (s : Bytes) (offset o : Nat) (m : HeaderMap), tryGetHeaders s offset = .value m o →
      m = ofEntries (ownFields (s.drop offset)) := by
  intro h
  have hvalue : tryGetHeaders (bytes "a:\r\n\r\nb") 0
      = .value (ofEntries [(bytes "a", bytes "\n\r\nb")]) 6 := by decide +kernel
  have hown := h _ _ _ _ hvalue
  exact absurd hown (by decide +kernel)

/-! ## Lines as they are written -/

/-- A reordering that keeps the relative order of equal names. -/
structure Reordered (fields fields' : List (Bytes × Bytes)) : Prop where
  perm : fields'.Perm fields
  order : ∀ name, (fields'.filter fun e => e.1 = name) = fields.filter fun e => e.1 = name

theorem Reordered.ofEntries_eq {fields fields' : List (Bytes × Bytes)}
    (h : Reordered fields fields') : ofEntries fields' = ofEntries fields := by
  apply ext_find?
  intro name
  rw [find?_ofEntries, find?_ofEntries, lastIn_eq_getLast?, lastIn_eq_getLast?, h.order name]

theorem Reordered.wellFormed {fields fields' : List (Bytes × Bytes)}
    (h : Reordered fields fields') (hf : FieldsWellFormed fields) : FieldsWellFormed fields' :=
  fun e he => hf e (h.perm.mem_iff.mp he)

/-- Written lines are read to their last byte, wherever they stand. -/
theorem tryGetHeaders_headerLines {fields : List (Bytes × Bytes)} (h : FieldsWellFormed fields)
    (front back : Bytes) :
    tryGetHeaders (front ++ (headerLines fields ++ (crlf ++ back))) front.length
      = .value (ofEntries fields) (front.length + (headerLines fields ++ crlf).length) := by
  have hblock := headerBlock_headerLines h (.blank back)
  rw [List.append_nil] at hblock
  refine tryGetHeaders_eq_value_iff.mpr ⟨fields, back, ?_, rfl, ?_⟩
  · rwa [List.drop_left]
  · simp only [List.length_append]
    omega

/-- **Repeated names and any order**: a list of fields is read as the last
value of each name and nothing else, up to the first byte behind the
blank line, and so is every list with the same fields in an order that
agrees on equal names. -/
theorem headerLines_read {fields : List (Bytes × Bytes)} (h : FieldsWellFormed fields)
    (front back : Bytes) :
    ∃ m,
      tryGetHeaders (front ++ (headerLines fields ++ (crlf ++ back))) front.length
        = .value m (front.length + (headerLines fields ++ crlf).length) ∧
      (∀ name, m.find? name = ((fields.filter fun e => e.1 = name).map Prod.snd).getLast?) ∧
      ∀ fields', Reordered fields fields' →
        tryGetHeaders (front ++ (headerLines fields' ++ (crlf ++ back))) front.length
          = .value m (front.length + (headerLines fields' ++ crlf).length) := by
  refine ⟨ofEntries fields, tryGetHeaders_headerLines h front back, ?_, ?_⟩
  · intro name
    rw [find?_ofEntries, lastIn_eq_getLast?]
  · intro fields' hreordered
    rw [tryGetHeaders_headerLines (hreordered.wellFormed h), hreordered.ofEntries_eq]

/-- A name given twice, between texts with colons and line ends of their
own. -/
theorem headerLines_read_twice :
    let fields := [(bytes "a", bytes "1"), (bytes "b", bytes ""), (bytes "a", bytes "2\r")]
    let front := bytes "x: y\r\n"
    let back := bytes "\r\na: 3\r\n"
    ∃ m,
      tryGetHeaders (front ++ (headerLines fields ++ (crlf ++ back))) front.length
        = .value m (front.length + (headerLines fields ++ crlf).length) ∧
      (∀ name, m.find? name = ((fields.filter fun e => e.1 = name).map Prod.snd).getLast?) ∧
      ∀ fields', Reordered fields fields' →
        tryGetHeaders (front ++ (headerLines fields' ++ (crlf ++ back))) front.length
          = .value m (front.length + (headerLines fields' ++ crlf).length) :=
  headerLines_read (by decide) _ _

end Pine
