import Pine.Http.HeaderBlock

/-!
# Http — HeaderLines

A header section as its lines. Each line is a name, a colon and the text
after the colon, and the section ends with the text or with a blank line
in front of the body (`headerBlock_iff_lines`). What a name is read as is
then a matter of the last line with that name (`lastIn_lineFields`), and
it holds a CRLF in one case only: that line has nothing after its colon,
and it is not the end of the text (`crlf_infix_fieldValue`).
-/

namespace Pine

open Search SortedMap

/-- A header line as it is received: a name, and the text after its
colon. -/
def lineText (line : Bytes × Bytes) : Bytes := line.1 ++ colon :: line.2 ++ crlf

def linesText (lines : List (Bytes × Bytes)) : Bytes := lines.flatMap lineText

/-- The colon of a line is its first, and its CRLF too. -/
def LinesWellFormed (lines : List (Bytes × Bytes)) : Prop :=
  ∀ l ∈ lines, colon ∉ l.1 ∧ ¬ crlf <:+: l.1 ++ colon :: l.2

/-- What stands behind the last header line. -/
inductive SectionEnd : Bytes → Bytes → Prop where
  | eof : SectionEnd [] []
  | blank (body : Bytes) : SectionEnd (crlf ++ body) body

/-- The fields that the lines in front of `tail` are read as. -/
def lineFields : List (Bytes × Bytes) → Bytes → List (Bytes × Bytes)
  | [], _ => []
  | (name, after) :: lines, tail =>
      (name, fieldValue after (linesText lines ++ tail)) :: lineFields lines tail

@[simp] theorem linesText_nil : linesText [] = [] := rfl

@[simp] theorem linesText_cons (line : Bytes × Bytes) (lines : List (Bytes × Bytes)) :
    linesText (line :: lines) = lineText line ++ linesText lines := rfl

@[simp] theorem linesText_append (lines lines' : List (Bytes × Bytes)) :
    linesText (lines ++ lines') = linesText lines ++ linesText lines' :=
  List.flatMap_append

theorem lineText_append (line : Bytes × Bytes) (rest : Bytes) :
    lineText line ++ rest = (line.1 ++ colon :: line.2) ++ (crlf ++ rest) := by
  simp [lineText]

/-- **A section is its lines.** -/
theorem headerBlock_iff_lines {text body : Bytes} {fields : List (Bytes × Bytes)} :
    HeaderBlock text fields body ↔
      ∃ lines tail, text = linesText lines ++ tail ∧ LinesWellFormed lines ∧
        SectionEnd tail body ∧ fields = lineFields lines tail := by
  constructor
  · intro h
    induction h with
    | eof => exact ⟨[], [], rfl, List.forall_mem_nil _, .eof, rfl⟩
    | blank body => exact ⟨[], _, rfl, List.forall_mem_nil _, .blank body, rfl⟩
    | @line name after rest fields body hname hfree _ ih =>
        obtain ⟨lines, tail, rfl, hlines, hend, rfl⟩ := ih
        refine ⟨(name, after) :: lines, tail, ?_, List.forall_mem_cons.mpr ⟨⟨hname, hfree⟩, hlines⟩,
          hend, rfl⟩
        show _ = lineText (name, after) ++ linesText lines ++ tail
        rw [List.append_assoc (lineText _), lineText_append]
  · intro h
    obtain ⟨lines, tail, rfl, hlines, hend, rfl⟩ := h
    induction lines with
    | nil =>
        cases hend with
        | eof => exact .eof
        | blank body => exact .blank body
    | cons line lines ih =>
        obtain ⟨⟨hname, hfree⟩, hrest⟩ := List.forall_mem_cons.mp hlines
        have hblock := HeaderBlock.line hname hfree (ih hrest)
        rw [linesText_cons, List.append_assoc, lineText_append]
        exact hblock

theorem lineFields_append (lines lines' : List (Bytes × Bytes)) (tail : Bytes) :
    lineFields (lines ++ lines') tail
      = lineFields lines (linesText lines' ++ tail) ++ lineFields lines' tail := by
  induction lines with
  | nil => rfl
  | cons line lines ih =>
      obtain ⟨name, after⟩ := line
      simp only [List.cons_append, lineFields, ih, linesText_append, List.append_assoc]

theorem lineFields_names (lines : List (Bytes × Bytes)) (tail : Bytes) :
    (lineFields lines tail).map Prod.fst = lines.map Prod.fst := by
  induction lines with
  | nil => rfl
  | cons line lines ih =>
      obtain ⟨name, after⟩ := line
      simp only [lineFields, List.map_cons, ih]

theorem lastIn_lineFields_eq_none_iff {lines : List (Bytes × Bytes)} {tail name : Bytes} :
    lastIn (lineFields lines tail) name = none ↔ lastIn lines name = none := by
  have hnames : ∀ l : List (Bytes × Bytes), (∀ e ∈ l, e.1 ≠ name) ↔ name ∉ l.map Prod.fst := by
    intro l
    simp only [List.mem_map, not_exists, not_and]
  rw [lastIn_eq_none_iff, lastIn_eq_none_iff, hnames, hnames, lineFields_names]

/-- **What a name is read as** is decided by its last line. -/
theorem lastIn_lineFields {pre post : List (Bytes × Bytes)} {name after tail : Bytes}
    (hpost : ∀ l ∈ post, l.1 ≠ name) :
    lastIn (lineFields (pre ++ (name, after) :: post) tail) name
      = some (fieldValue after (linesText post ++ tail)) := by
  have hnone : lastIn (lineFields post tail) name = none :=
    lastIn_lineFields_eq_none_iff.mpr (lastIn_eq_none_iff.mpr hpost)
  rw [lineFields_append, lastIn_append, lineFields, lastIn_cons, hnone]
  simp

theorem lastIn_lineFields_of_ne_nil {lines : List (Bytes × Bytes)} {name after : Bytes}
    (h : lastIn lines name = some after) (hafter : after ≠ []) (tail : Bytes) :
    lastIn (lineFields lines tail) name = some after.tail := by
  obtain ⟨pre, post, rfl, hpost⟩ := lastIn_eq_some_iff.mp h
  rw [lastIn_lineFields hpost]
  cases after with
  | nil => exact absurd rfl hafter
  | cons b value => rfl

/-- A value that is there comes from the last line of its name. -/
theorem lastIn_lineFields_eq_some {lines : List (Bytes × Bytes)} {tail name value : Bytes}
    (h : lastIn (lineFields lines tail) name = some value) :
    ∃ pre after post, lines = pre ++ (name, after) :: post ∧ (∀ l ∈ post, l.1 ≠ name) ∧
      lastIn lines name = some after ∧ value = fieldValue after (linesText post ++ tail) := by
  cases hlast : lastIn lines name with
  | none =>
      rw [lastIn_lineFields_eq_none_iff.mpr hlast] at h
      cases h
  | some after =>
      obtain ⟨pre, post, rfl, hpost⟩ := lastIn_eq_some_iff.mp hlast
      rw [lastIn_lineFields hpost] at h
      exact ⟨pre, after, post, rfl, hpost, rfl, (Option.some.inj h).symm⟩

theorem crlf_infix_lf_iff {rest : Bytes} : crlf <:+: lf :: rest ↔ crlf <:+: rest := by
  rw [List.infix_cons_iff]
  constructor
  · intro h
    rcases h with hpre | h
    · obtain ⟨heq, _⟩ := List.cons_prefix_cons.mp hpre
      exact absurd heq (by decide)
    · exact h
  · exact Or.inr

/-- The line end that a value can hold is the one of the text behind its
line. -/
theorem crlf_infix_fieldValue {name after rest : Bytes}
    (hfree : ¬ crlf <:+: name ++ colon :: after) :
    crlf <:+: fieldValue after rest ↔ after = [] ∧ crlf <:+: rest := by
  cases after with
  | nil =>
      rw [fieldValue, crlf_infix_lf_iff]
      exact (and_iff_right rfl).symm
  | cons b value =>
      refine iff_of_false ?_ (by simp)
      intro h
      exact hfree (h.trans ⟨name ++ [colon, b], [], by simp [fieldValue]⟩)

end Pine
