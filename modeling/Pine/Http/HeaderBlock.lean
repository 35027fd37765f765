import Pine.Http.Utils

/-!
# Http — HeaderBlock

The language of `try_get_headers`. `HeaderBlock text fields rest` says
that `text` is a header section, one derivation step for each line:
`fields` are the names and values it is read as, and `rest` is what
follows it. The loop of the source is then this relation, with the
fields assigned to the map in order (`tryGetHeaders_eq_value_iff`).

The relation also records what the loop does to a line that ends in its
colon: the value is cut two bytes after the colon, past the end of the
line, and the count wraps, so it is the line feed of that line with all
of the remaining text (`fieldValue`).
-/

namespace Pine

open Search

/-- The value `try_get_header` cuts out, from the text of the line after
its colon and the text after the line. -/
def fieldValue (after rest : Bytes) : Bytes :=
  match after with
  | [] => lf :: rest
  | _ :: value => value

/-- A header section, its fields in order, and the text after it. -/
inductive HeaderBlock : Bytes → List (Bytes × Bytes) → Bytes → Prop where
  /-- The message ends where a line would start. -/
  | eof : HeaderBlock [] [] []
  /-- An empty line ends the section. -/
  | blank (body : Bytes) : HeaderBlock (crlf ++ body) [] body
  | line {name after rest : Bytes} {fields : List (Bytes × Bytes)} {body : Bytes} :
      colon ∉ name → ¬ crlf <:+: name ++ colon :: after → HeaderBlock rest fields body →
      HeaderBlock ((name ++ colon :: after) ++ (crlf ++ rest))
        ((name, fieldValue after rest) :: fields) body

/-! ## Lines -/

theorem colon_not_mem_crlf : colon ∉ crlf := by decide

theorem crlf_infix_colon_iff {a b : Bytes} :
    crlf <:+: a ++ colon :: b ↔ crlf <:+: a ∨ crlf <:+: b :=
  infix_append_cons_iff crlf_ne_nil colon_not_mem_crlf

theorem crlf_infix_space_iff {b : Bytes} : crlf <:+: space :: b ↔ crlf <:+: b := by
  have hspace : space ∉ crlf := by decide
  have h : crlf <:+: [] ++ space :: b ↔ _ := infix_append_cons_iff crlf_ne_nil hspace
  simpa [crlf_ne_nil] using h

/-- The first line of a text is determined by the text. -/
theorem line_unique {l₁ l₂ r₁ r₂ : Bytes} (h₁ : ¬ crlf <:+: l₁) (h₂ : ¬ crlf <:+: l₂)
    (h : l₁ ++ (crlf ++ r₁) = l₂ ++ (crlf ++ r₂)) : l₁ = l₂ ∧ r₁ = r₂ := by
  have hcut := cut_append unbordered_crlf crlf_ne_nil h₁ r₁
  rw [h, cut_append unbordered_crlf crlf_ne_nil h₂ r₂] at hcut
  simpa [eq_comm] using hcut

theorem exists_name_of_colon_mem {line : Bytes} (h : colon ∈ line) :
    ∃ name after, line = name ++ colon :: after ∧ colon ∉ name := by
  rw [← List.singleton_infix_iff] at h
  cases hi : firstIndex [colon] line with
  | none => exact absurd h (firstIndex_eq_none_iff.mp hi)
  | some i =>
      obtain ⟨name, after, hline, _, hfree⟩ := firstIndex_eq_some (List.cons_ne_nil _ _) hi
      rw [List.singleton_infix_iff] at hfree
      exact ⟨name, after, hline, hfree⟩

/-- The name a line is read as: what stands before its first colon. -/
def nameOf (line : Bytes) : Bytes := line.takeWhile (· ≠ colon)

theorem nameOf_append {name : Bytes} (h : colon ∉ name) (after : Bytes) :
    nameOf (name ++ colon :: after) = name := by
  have hname : ∀ b ∈ name, decide (b ≠ colon) = true := by
    intro b hb
    exact decide_eq_true (ne_of_mem_of_not_mem hb h)
  rw [nameOf, List.takeWhile_append_of_pos hname]
  simp

theorem drop_line {s line rest : Bytes} {offset : Nat}
    (h : s.drop offset = line ++ (crlf ++ rest)) :
    s.drop (offset + (line ++ crlf).length) = rest := by
  apply drop_of_append
  rw [h, List.append_assoc]

/-! ## One header line -/

section tryGetHeader
variable {request : Bytes} {offset : Nat}

theorem find_crlf {line rest : Bytes} (hle : offset ≤ request.length)
    (h : request.drop offset = line ++ (crlf ++ rest)) (hfree : ¬ crlf <:+: line) :
    find request crlf offset = some (offset + line.length) := by
  rw [find_of_le hle, h, firstIndex_append unbordered_crlf crlf_ne_nil hfree]
  rfl

/-- **One line read**: the name up to the first colon, `fieldValue` of
what follows it, and the offset past the line. -/
theorem tryGetHeader_value {name after rest : Bytes}
    (h : request.drop offset = (name ++ colon :: after) ++ (crlf ++ rest))
    (hname : colon ∉ name) (hfree : ¬ crlf <:+: name ++ colon :: after) :
    tryGetHeader request offset = .value (name, fieldValue after rest)
      (offset + (name ++ colon :: after ++ crlf).length) := by
  have hle : offset ≤ request.length := le_length_of_drop_ne_nil (by rw [h]; simp)
  have h' : request.drop offset = name ++ colon :: (after ++ (crlf ++ rest)) := by simpa using h
  have hlast := find_crlf hle h hfree
  have hcolon := find_byte hle h' hname
  have hlen : (request.drop offset).length
      = name.length + (after.length + 1) + (rest.length + 2) := by
    rw [h]
    simp only [List.length_append, List.length_cons, crlf_length]
    omega
  rw [List.length_drop] at hlen
  have hsubName : substr request offset (sizeDiff (offset + name.length) offset)
      = some name := by
    rw [sizeDiff, if_pos (by omega), substr_of_le hle, h', Nat.add_sub_cancel_left]
    simp
  have hvalueStart : offset + name.length + 2 ≤ request.length := by omega
  have hdrop : request.drop (offset + name.length + 2) = (after ++ (crlf ++ rest)).drop 1 := by
    rw [show offset + name.length + 2 = offset + (name ++ [colon]).length + 1 from by
      simp only [List.length_append, List.length_singleton]; omega, ← List.drop_drop]
    exact congrArg (List.drop 1) (drop_of_append (by simpa using h'))
  have hsubValue : substr request (offset + name.length + 2)
      (sizeDiff (offset + (name ++ colon :: after).length) (offset + name.length + 2))
      = some (fieldValue after rest) := by
    rw [substr_of_le hvalueStart, hdrop]
    cases after with
    | nil =>
        -- the value would start past the line feed: the count wraps
        rw [sizeDiff, if_neg (by simp only [List.length_append, List.length_singleton]; omega)]
        rfl
    | cons b value =>
        rw [sizeDiff, if_pos (by simp only [List.length_append, List.length_cons]; omega)]
        simp only [List.length_append, List.length_cons, fieldValue, List.cons_append,
          List.drop_succ_cons, List.drop_zero]
        rw [show offset + (name.length + (value.length + 1 + 1)) - (offset + name.length + 2)
          = value.length from by omega, List.take_left]
  unfold tryGetHeader
  simp only [hlast, hcolon, hsubName, hsubValue]
  rw [if_neg (by simp only [List.length_append, List.length_cons]; omega)]
  simp only [List.length_append, Nat.add_assoc]

/-- Without a CRLF ahead there is no header line. -/
theorem tryGetHeader_noLine (h : ¬ crlf <:+: request.drop offset) :
    tryGetHeader request offset = .unexpected (makeErrorCode .parseErrorHeaders) offset := by
  have hlast : find request crlf offset = none := by
    unfold find
    split
    · rfl
    · rw [firstIndex_eq_none_iff.mpr h]
      rfl
  unfold tryGetHeader
  dsimp only
  rw [hlast]
  cases find request [colon] offset <;> rfl

/-- A line without a colon is refused, whatever colons come after it. -/
theorem tryGetHeader_noColon {line rest : Bytes}
    (h : request.drop offset = line ++ (crlf ++ rest)) (hfree : ¬ crlf <:+: line)
    (hcolon : colon ∉ line) :
    tryGetHeader request offset = .unexpected (makeErrorCode .parseErrorHeaders) offset := by
  have hle : offset ≤ request.length := le_length_of_drop_ne_nil (by rw [h]; simp [crlf])
  have hlast := find_crlf hle h hfree
  unfold tryGetHeader
  simp only [hlast]
  cases hc : find request [colon] offset with
  | none => rfl
  | some c =>
      rw [find_of_le hle] at hc
      obtain ⟨j, hj, rfl⟩ := Option.map_eq_some_iff.mp hc
      obtain ⟨pre, post, hdrop, rfl, _⟩ := firstIndex_eq_some (List.cons_ne_nil _ _) hj
      -- a colon before the end of the line would lie in the line
      have hlt : line.length < pre.length := by
        apply Nat.lt_of_not_le
        intro hlen
        have hpre : pre ++ [colon] <+: line ++ [cr] := by
          have h₁ : pre ++ [colon] <+: request.drop offset := ⟨post, by rw [hdrop]; simp⟩
          have h₂ : line ++ [cr] <+: request.drop offset := ⟨lf :: rest, by rw [h]; simp [crlf]⟩
          exact List.prefix_of_prefix_length_le h₁ h₂ (by simpa using hlen)
        have hmem : colon ∈ line ++ [cr] := hpre.subset (by simp)
        rcases List.mem_append.mp hmem with hmem | hmem
        · exact hcolon hmem
        · exact absurd (List.mem_singleton.mp hmem) (by decide)
      dsimp only
      rw [if_pos (by omega)]

end tryGetHeader

/-! ## The whole section -/

namespace HeaderBlock

variable {text body : Bytes} {fields : List (Bytes × Bytes)}

theorem body_suffix (h : HeaderBlock text fields body) : body <:+ text := by
  induction h with
  | eof => exact List.suffix_rfl
  | blank body => exact List.suffix_append crlf body
  | line _ _ _ ih =>
      exact ih.trans ((List.suffix_append _ _).trans (List.suffix_append _ _))

/-- A text without a line is a section only when it is empty. -/
theorem noLine_inv (h : HeaderBlock text fields body) (hfree : ¬ crlf <:+: text) :
    text = [] ∧ fields = [] ∧ body = [] := by
  cases h with
  | eof => exact ⟨rfl, rfl, rfl⟩
  | blank body => exact absurd (List.prefix_append crlf body).isInfix hfree
  | line _ _ _ => exact absurd ⟨_, _, by rw [List.append_assoc]⟩ hfree

/-- **What a section says about its first line.** -/
theorem line_inv {line rest : Bytes} (h : HeaderBlock (line ++ (crlf ++ rest)) fields body)
    (hfree : ¬ crlf <:+: line) :
    (line = [] ∧ fields = [] ∧ body = rest) ∨
    ∃ name after fields', line = name ++ colon :: after ∧ colon ∉ name ∧
      fields = (name, fieldValue after rest) :: fields' ∧ HeaderBlock rest fields' body := by
  generalize htext : line ++ (crlf ++ rest) = text at h
  cases h with
  | eof => exact absurd htext (by simp [crlf])
  | blank body =>
      obtain ⟨hl, hr⟩ := line_unique hfree (by simp [crlf_ne_nil])
        (show line ++ (crlf ++ rest) = [] ++ (crlf ++ body) from htext)
      exact .inl ⟨hl, rfl, hr.symm⟩
  | @line name after rest' fields' _ hname hfree' hrest =>
      obtain ⟨rfl, rfl⟩ := line_unique hfree hfree' htext
      exact .inr ⟨name, after, fields', rfl, hname, rfl, hrest⟩

/-- A section is read in one way. -/
theorem unique {fields' : List (Bytes × Bytes)} {body' : Bytes}
    (h : HeaderBlock text fields body) (h' : HeaderBlock text fields' body') :
    fields = fields' ∧ body = body' := by
  induction h generalizing fields' body' with
  | eof =>
      obtain ⟨_, rfl, rfl⟩ := h'.noLine_inv (by simp [crlf_ne_nil])
      exact ⟨rfl, rfl⟩
  | blank body =>
      have hnil : ¬ crlf <:+: ([] : Bytes) := by simp [crlf_ne_nil]
      rcases line_inv h' hnil with ⟨_, rfl, rfl⟩ | ⟨_, _, _, hnil, _⟩
      · exact ⟨rfl, rfl⟩
      · exact absurd hnil (by simp)
  | line hname hfree _ ih =>
      rcases h'.line_inv hfree with
        ⟨hnil, _⟩ | ⟨name', after', fields'', hline, hname', rfl, hrest'⟩
      · exact absurd hnil (by simp)
      · obtain ⟨rfl, rfl⟩ := split_unique hname hname' hline
        obtain ⟨rfl, rfl⟩ := ih hrest'
        exact ⟨rfl, rfl⟩

end HeaderBlock

/-! ## The loop reads the section -/

section loop
variable {request : Bytes} {offset : Nat} {m : HeaderMap}

theorem tryGetHeadersLoop_end (h : request.length ≤ offset) :
    tryGetHeadersLoop request offset m = .value m offset := by
  rw [tryGetHeadersLoop, dif_neg (Nat.not_lt.mpr h)]

theorem tryGetHeadersLoop_blank (h : crlf <+: request.drop offset) :
    tryGetHeadersLoop request offset m = .value m (offset + 2) := by
  have hlt : offset < request.length := by
    have hlen := h.length_le
    rw [List.length_drop, crlf_length] at hlen
    omega
  rw [tryGetHeadersLoop, dif_pos hlt, substr_toEnd (Nat.le_of_lt hlt)]
  dsimp only
  rw [if_pos h]
  rfl

/-- One pass of the loop, over a header line. -/
theorem tryGetHeadersLoop_line (hlt : offset < request.length)
    (hblank : ¬ crlf <+: request.drop offset) :
    tryGetHeadersLoop request offset m =
      match tryGetHeader request offset with
      | .value field o => tryGetHeadersLoop request o (m.insertOrAssign field.1 field.2)
      | .unexpected e o => .unexpected e o
      | .outOfRange => .outOfRange := by
  rw [tryGetHeadersLoop, dif_pos hlt, substr_toEnd (Nat.le_of_lt hlt)]
  dsimp only
  rw [if_neg hblank]
  split <;> next h => rw [h]

theorem tryGetHeadersLoop_field {name value : Bytes} {o : Nat} (hlt : offset < request.length)
    (hblank : ¬ crlf <+: request.drop offset)
    (hheader : tryGetHeader request offset = .value (name, value) o) :
    tryGetHeadersLoop request offset m
      = tryGetHeadersLoop request o (m.insertOrAssign name value) := by
  rw [tryGetHeadersLoop_line hlt hblank, hheader]

theorem tryGetHeadersLoop_unexpected {e : ErrorCode} {o : Nat} (hlt : offset < request.length)
    (hblank : ¬ crlf <+: request.drop offset)
    (hheader : tryGetHeader request offset = .unexpected e o) :
    tryGetHeadersLoop request offset m = .unexpected e o := by
  rw [tryGetHeadersLoop_line hlt hblank, hheader]

/-- **Every section is read**, each field assigned in order, and the
offset left at the text after it. -/
theorem tryGetHeadersLoop_value {fields : List (Bytes × Bytes)} {body : Bytes}
    (h : HeaderBlock (request.drop offset) fields body) :
    tryGetHeadersLoop request offset m
      = .value (m.insertAll fields) (max offset (request.length - body.length)) := by
  generalize htext : request.drop offset = text at h
  induction h generalizing offset m with
  | eof =>
      have hle : request.length ≤ offset := List.drop_eq_nil_iff.mp htext
      rw [tryGetHeadersLoop_end hle, List.length_nil, Nat.sub_zero, Nat.max_eq_left hle]
      rfl
  | blank body =>
      have hpre : crlf <+: request.drop offset := ⟨body, htext.symm⟩
      have hlen := congrArg List.length htext
      simp only [List.length_drop, List.length_append, crlf_length] at hlen
      rw [tryGetHeadersLoop_blank hpre, Nat.max_eq_right (by omega),
        show request.length - body.length = offset + 2 from by omega]
      rfl
  | @line name after rest fields body hname hfree hrest ih =>
      have hheader := tryGetHeader_value htext hname hfree
      have hdrop := drop_line htext
      have hblank : ¬ crlf <+: request.drop offset := by
        rw [htext]
        exact not_prefix_before unbordered_crlf (by simp) hfree rest
      have hlt : offset < request.length := by
        have hlen := congrArg List.length htext
        simp only [List.length_drop, List.length_append, List.length_cons] at hlen
        omega
      rw [tryGetHeadersLoop_field hlt hblank hheader, ih hdrop]
      -- the body lies behind this line, so the line does not matter to the maximum
      have hbody := hrest.body_suffix.length_le
      have hlen := congrArg List.length hdrop
      rw [List.length_drop] at hlen
      have hle : offset + (name ++ colon :: after ++ crlf).length ≤ request.length := by
        have hlen' := congrArg List.length htext
        simp only [List.length_drop, List.length_append, List.length_cons] at hlen' ⊢
        omega
      rw [Nat.max_eq_right (by omega), Nat.max_eq_right (by omega), SortedMap.insertAll_cons]

/-- A text is a section, or the loop stops at the line that spoils it. -/
theorem headerBlock_or_unexpected (request : Bytes) (offset : Nat) (m : HeaderMap) :
    (∃ fields body, HeaderBlock (request.drop offset) fields body) ∨
    ∃ o, tryGetHeadersLoop request offset m = .unexpected (makeErrorCode .parseErrorHeaders) o := by
  by_cases hlt : offset < request.length
  · by_cases hblank : crlf <+: request.drop offset
    · obtain ⟨body, hbody⟩ := hblank
      exact .inl ⟨[], body, hbody ▸ .blank body⟩
    · cases hcut : cut crlf (request.drop offset) with
      | none =>
          rw [cut_eq_none_iff] at hcut
          exact .inr ⟨offset,
            tryGetHeadersLoop_unexpected hlt hblank (tryGetHeader_noLine hcut)⟩
      | some split =>
          obtain ⟨line, rest⟩ := split
          obtain ⟨htext, hfree⟩ := (cut_eq_some_iff unbordered_crlf crlf_ne_nil).mp hcut
          by_cases hcolon : colon ∈ line
          · obtain ⟨name, after, rfl, hname⟩ := exists_name_of_colon_mem hcolon
            have hheader := tryGetHeader_value htext hname hfree
            have hdrop := drop_line htext
            rcases headerBlock_or_unexpected request
                (offset + (name ++ colon :: after ++ crlf).length)
                (m.insertOrAssign name (fieldValue after rest))
              with ⟨fields, body, hblock⟩ | ⟨o, ho⟩
            · rw [hdrop] at hblock
              rw [htext]
              exact .inl ⟨_, body, .line hname hfree hblock⟩
            · exact .inr ⟨o, by rw [tryGetHeadersLoop_field hlt hblank hheader, ho]⟩
          · exact .inr ⟨offset,
              tryGetHeadersLoop_unexpected hlt hblank (tryGetHeader_noColon htext hfree hcolon)⟩
  · exact .inl ⟨[], [], by rw [List.drop_eq_nil_of_le (Nat.not_lt.mp hlt)]; exact .eof⟩
termination_by request.length - offset
decreasing_by
  simp only [List.length_append, List.length_cons]
  omega

end loop

/-- **The language of `try_get_headers`.** -/
theorem tryGetHeaders_eq_value_iff {request : Bytes} {offset o : Nat} {m : HeaderMap} :
    tryGetHeaders request offset = .value m o ↔
      ∃ fields body, HeaderBlock (request.drop offset) fields body ∧
        m = SortedMap.ofEntries fields ∧ o = max offset (request.length - body.length) := by
  constructor
  · intro h
    rcases headerBlock_or_unexpected request offset SortedMap.empty with
      ⟨fields, body, hb⟩ | ⟨o', ho⟩
    · have hval : tryGetHeaders request offset = _ := tryGetHeadersLoop_value hb
      rw [h] at hval
      cases hval
      exact ⟨fields, body, hb, rfl, rfl⟩
    · rw [tryGetHeaders, ho] at h
      cases h
  · rintro ⟨fields, body, hb, rfl, rfl⟩
    exact tryGetHeadersLoop_value hb

/-- Outside its language `try_get_headers` returns its own parse error;
it throws nothing. -/
theorem tryGetHeaders_unexpected {request : Bytes} {offset : Nat}
    (h : ∀ fields body, ¬ HeaderBlock (request.drop offset) fields body) :
    ∃ o, tryGetHeaders request offset = .unexpected (makeErrorCode .parseErrorHeaders) o := by
  rcases headerBlock_or_unexpected request offset SortedMap.empty with ⟨fields, body, hb⟩ | ho
  · exact absurd hb (h fields body)
  · exact ho

/-! ## The end of both parsers -/

/-- What `http_request::parse` and `http_response::parse` both end with:
the headers, and the body when text is left. The body they start from is
empty. -/
def parseSection {α : Type} (message : Bytes) (offset : Nat) (result : HeaderMap → Bytes → α) :
    Outcome α :=
  (tryGetHeaders message offset).andThen fun headers offset =>
  if offset < message.length then
    (tryGetBody message offset).andThen fun body _ => .value (result headers body)
  else .value (result headers [])

section parseSection
variable {α : Type} {message : Bytes} {offset : Nat} {result : HeaderMap → Bytes → α}

/-- The text after a section, as `parse` takes it from the offset. -/
theorem HeaderBlock.body_eq_drop {fields : List (Bytes × Bytes)} {body : Bytes}
    (h : HeaderBlock (message.drop offset) fields body) :
    message.drop (max offset (message.length - body.length)) = body := by
  have hsuffix := List.suffix_iff_eq_drop.mp (h.body_suffix.trans (List.drop_suffix offset message))
  have hlen := h.body_suffix.length_le
  rw [List.length_drop] at hlen
  by_cases hle : offset ≤ message.length
  · rw [Nat.max_eq_right (by omega)]
    exact hsuffix.symm
  · -- past the end there is no text and no body
    have hnil : body = [] := List.length_eq_zero_iff.mp (by omega)
    rw [hnil, List.drop_eq_nil_of_le (by omega)]

theorem parseSection_value {fields : List (Bytes × Bytes)} {body : Bytes}
    (h : HeaderBlock (message.drop offset) fields body) :
    parseSection message offset result = .value (result (SortedMap.ofEntries fields) body) := by
  have hdrop := h.body_eq_drop
  rw [parseSection, tryGetHeaders_eq_value_iff.mpr ⟨fields, body, h, rfl, rfl⟩, andThen_value]
  split
  · next hlt => rw [tryGetBody_value hlt, andThen_value, hdrop]
  · next hge =>
    rw [List.drop_eq_nil_of_le (Nat.not_lt.mp hge)] at hdrop
    rw [← hdrop]

theorem parseSection_eq_value_iff {a : α} :
    parseSection message offset result = .value a ↔
      ∃ fields body, HeaderBlock (message.drop offset) fields body ∧
        a = result (SortedMap.ofEntries fields) body := by
  constructor
  · intro h
    obtain ⟨headers, o, hheaders, _⟩ := (andThen_eq_value_iff _).mp h
    obtain ⟨fields, body, hb, _, _⟩ := tryGetHeaders_eq_value_iff.mp hheaders
    rw [parseSection_value hb] at h
    cases h
    exact ⟨fields, body, hb, rfl⟩
  · rintro ⟨fields, body, hb, rfl⟩
    exact parseSection_value hb

theorem parseSection_unexpected
    (h : ∀ fields body, ¬ HeaderBlock (message.drop offset) fields body) :
    parseSection message offset result = .unexpected (makeErrorCode .parseErrorHeaders) := by
  obtain ⟨o, ho⟩ := tryGetHeaders_unexpected h
  rw [parseSection, ho, andThen_unexpected]

/-- The one error from the headers on is that of the headers: the body is
only asked for when there is text left. -/
theorem parseSection_eq_unexpected {e : ErrorCode}
    (h : parseSection message offset result = .unexpected e) :
    e = makeErrorCode .parseErrorHeaders := by
  by_cases hblock : ∃ fields body, HeaderBlock (message.drop offset) fields body
  · obtain ⟨fields, body, hb⟩ := hblock
    rw [parseSection_value hb] at h
    cases h
  · rw [parseSection_unexpected (fun fields body hb => hblock ⟨fields, body, hb⟩)] at h
    cases h
    rfl

/-- Nothing throws from the headers on. -/
theorem parseSection_ne_outOfRange : parseSection message offset result ≠ .outOfRange := by
  intro hthrow
  by_cases h : ∃ fields body, HeaderBlock (message.drop offset) fields body
  · obtain ⟨fields, body, hb⟩ := h
    rw [parseSection_value hb] at hthrow
    cases hthrow
  · rw [parseSection_unexpected (fun fields body hb => h ⟨fields, body, hb⟩)] at hthrow
    cases hthrow

end parseSection

end Pine
