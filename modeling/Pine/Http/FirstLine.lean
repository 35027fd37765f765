import Pine.Http.Truncation

/-!
# Http — FirstLine

What `parse` makes of the first line of a message. The tokens of the line
are compared with the text, but the separators between them are skipped
by their length: any byte may stand for the space after the method, any
two bytes for the CRLF, and the search for the space after the uri does
not stop at the end of the line. A request is read by the grammar of its
first line exactly where its own bytes stand at these three places
(`requestLine_iff_separated`), and a response where they stand behind the
version and behind the status (`statusLine_iff_separated`).
-/

namespace Pine

open Search

/-! ## Two tokens and the bytes behind them -/

section tokens
variable {first second after : Bytes} {sep : UInt8}

theorem byteAt_append_cons : byteAt (first ++ sep :: after) first.length = some sep := by
  rw [byteAt, List.getElem?_append_right (Nat.le_refl _), Nat.sub_self]
  rfl

/-- Two tokens are a line where a space is between them and a CRLF behind
them. -/
theorem cut_tokens_iff (hfree : cr ∉ first ++ space :: second) :
    (∃ rest, cut crlf (first ++ sep :: (second ++ after)) = some (first ++ space :: second, rest))
      ↔ sep = space ∧ crlf <+: after := by
  constructor
  · intro h
    obtain ⟨rest, hcut⟩ := h
    obtain ⟨heq, _⟩ := (cut_eq_some_iff unbordered_crlf crlf_ne_nil).mp hcut
    simp only [List.append_assoc, List.cons_append] at heq
    obtain ⟨rfl, htail⟩ := List.cons.inj (List.append_cancel_left heq)
    exact ⟨rfl, rest, (List.append_cancel_left htail).symm⟩
  · rintro ⟨rfl, rest, rfl⟩
    refine ⟨rest, (cut_eq_some_iff unbordered_crlf crlf_ne_nil).mpr ⟨by simp, ?_⟩⟩
    intro hin
    -- a CRLF in the line would bring its CR into one of the tokens
    exact hfree (hin.subset List.mem_cons_self)

end tokens

namespace HttpRequest

/-- The first line of `s` is the request line of `r`, by the grammar. -/
def FirstLine (s : Bytes) (r : HttpRequest) : Prop :=
  (∃ rest, cut crlf s
      = some (r.method.string ++ space :: (r.uri ++ space :: bytes "HTTP/1.1"), rest)) ∧
    r.uri.head? = some slash ∧ space ∉ r.uri ∧ cr ∉ r.uri ∧ lf ∉ r.uri

/-- The bytes `parse` skips are the separators they are skipped as: a
space follows the method, no CR and no LF comes before the next space,
and a CRLF starts one version behind that space. -/
def Separated (s : Bytes) : Prop :=
  ∃ m : HttpMethod, m.string <+: s ∧ byteAt s m.string.length = some space ∧
    ∃ last, find s [space] (m.string.length + 1) = some last ∧
      (∀ b ∈ (s.take last).drop (m.string.length + 1), b ≠ cr ∧ b ≠ lf) ∧
      crlf <+: s.drop (last + 1 + (bytes "HTTP/1.1").length)

section line
variable {m : HttpMethod} {sep : UInt8} {uri after : Bytes}

/-- The grammar, on a text cut where `parse` cuts it. -/
theorem cut_line_iff (huri : cr ∉ uri) :
    (∃ rest, cut crlf (m.string ++ sep :: (uri ++ space :: (bytes "HTTP/1.1" ++ after)))
      = some (m.string ++ space :: (uri ++ space :: bytes "HTTP/1.1"), rest))
      ↔ sep = space ∧ crlf <+: after := by
  have hmethod : cr ∉ m.string := by cases m <;> decide
  have hversion : cr ∉ bytes "HTTP/1.1" := by decide
  have hspace : cr ≠ space := by decide
  have hfree : cr ∉ m.string ++ space :: (uri ++ space :: bytes "HTTP/1.1") := by
    simp [hmethod, hversion, hspace, huri]
  have hsplit : uri ++ space :: (bytes "HTTP/1.1" ++ after)
      = (uri ++ space :: bytes "HTTP/1.1") ++ after := by simp
  rw [hsplit]
  exact cut_tokens_iff hfree

/-- The positions, on a text cut where `parse` cuts it. -/
theorem separated_line_iff (hspace : space ∉ uri) :
    Separated (m.string ++ sep :: (uri ++ space :: (bytes "HTTP/1.1" ++ after)))
      ↔ sep = space ∧ cr ∉ uri ∧ lf ∉ uri ∧ crlf <+: after := by
  generalize hs : m.string ++ sep :: (uri ++ space :: (bytes "HTTP/1.1" ++ after)) = s
  have hsep : byteAt s m.string.length = some sep := by
    rw [← hs]
    exact byteAt_append_cons
  have huri : s.drop (m.string.length + 1) = uri ++ space :: (bytes "HTTP/1.1" ++ after) := by
    rw [← hs]
    exact List.drop_length_add_append 1
  have hle : m.string.length + 1 ≤ s.length :=
    le_length_of_drop_ne_nil (by rw [huri]; simp)
  have hfind := find_byte hle huri hspace
  have hbytes : (s.take (m.string.length + 1 + uri.length)).drop (m.string.length + 1) = uri := by
    rw [List.drop_take, huri, Nat.add_sub_cancel_left, List.take_left]
  have hafter : s.drop (m.string.length + 1 + uri.length + 1 + (bytes "HTTP/1.1").length)
      = after := by
    apply drop_of_append
    rw [← List.drop_drop, drop_of_append huri]
    rfl
  constructor
  · rintro ⟨m', hpre, hbyte, last, hlast, hfree, hcrlf⟩
    obtain ⟨rest, hrest⟩ := hpre
    obtain ⟨rfl, _⟩ := method_unique (hrest.trans hs.symm)
    rw [hsep] at hbyte
    rw [hfind] at hlast
    obtain rfl := Option.some.inj hbyte
    obtain rfl := Option.some.inj hlast
    rw [hbytes] at hfree
    rw [hafter] at hcrlf
    exact ⟨rfl, fun hcr => (hfree cr hcr).1 rfl, fun hlf => (hfree lf hlf).2 rfl, hcrlf⟩
  · rintro ⟨rfl, hcr, hlf, hcrlf⟩
    refine ⟨m, hs ▸ List.prefix_append _ _, hsep, _, hfind, ?_, by rwa [hafter]⟩
    rw [hbytes]
    intro b hb
    exact ⟨ne_of_mem_of_not_mem hb hcr, ne_of_mem_of_not_mem hb hlf⟩

end line

/-- **The request line is read by its grammar** exactly where the bytes
that are skipped are the separators. -/
theorem requestLine_iff_separated {s : Bytes} {r : HttpRequest} (h : parse s = .value r) :
    FirstLine s r ↔ Separated s := by
  obtain ⟨sep, after, fields, rfl, hslash, hspace, _, _⟩ := parse_eq_value_iff.mp h
  rw [version_string, separated_line_iff hspace]
  constructor
  · rintro ⟨hcut, _, _, hcr, hlf⟩
    obtain ⟨hsep, hcrlf⟩ := (cut_line_iff hcr).mp hcut
    exact ⟨hsep, hcr, hlf, hcrlf⟩
  · rintro ⟨hsep, hcr, hlf, hcrlf⟩
    exact ⟨(cut_line_iff hcr).mpr ⟨hsep, hcrlf⟩, hslash, hspace, hcr, hlf⟩

/-- A request that is read by the grammar of its first line. -/
theorem requestLine_iff_separated_get :
    FirstLine (bytes "GET / HTTP/1.1\r\n\r\n") { uri := bytes "/" }
      ↔ Separated (bytes "GET / HTTP/1.1\r\n\r\n") :=
  requestLine_iff_separated (by decide +kernel)

/-- The byte after the method is not compared with the space. -/
theorem any_separator_accepted :
    ¬ ∀ (s : Bytes) (r : HttpRequest), parse s = .value r → FirstLine s r := by
  intro h
  have hparse : parse (bytes "GETx/ HTTP/1.1\r\n\r\n") = .value { uri := bytes "/" } := by
    decide +kernel
  obtain ⟨⟨rest, hcut⟩, _⟩ := h _ _ hparse
  have hline : cut crlf (bytes "GETx/ HTTP/1.1\r\n\r\n")
      = some (bytes "GETx/ HTTP/1.1", crlf) := by decide +kernel
  rw [hline] at hcut
  exact absurd (Prod.mk.inj (Option.some.inj hcut)).1 (by decide)

end HttpRequest

namespace HttpResponse

/-- The first line of `s` is the status line of `r`, by the grammar. -/
def FirstLine (s : Bytes) (r : HttpResponse) : Prop :=
  ∃ rest, cut crlf s
    = some (bytes "HTTP/1.1" ++ space :: (decimal r.status.code ++ space :: r.status.string), rest)

/-- The bytes `parse` skips are the separators they are skipped as: a
space follows the version, and a CRLF follows the text of the status. -/
def Separated (s : Bytes) : Prop :=
  byteAt s (bytes "HTTP/1.1").length = some space ∧
    ∃ status : HttpStatus, status.expected <+: s.drop ((bytes "HTTP/1.1").length + 1) ∧
      crlf <+: s.drop ((bytes "HTTP/1.1").length + 1 + status.expected.length)

section line
variable {status : HttpStatus} {sep : UInt8} {after : Bytes}

/-- The grammar, on a text cut where `parse` cuts it. -/
theorem cut_line_iff :
    (∃ rest, cut crlf (bytes "HTTP/1.1" ++ sep :: (status.expected ++ after))
      = some (bytes "HTTP/1.1" ++ space :: status.expected, rest))
      ↔ sep = space ∧ crlf <+: after := by
  have hfree : cr ∉ bytes "HTTP/1.1" ++ space :: status.expected := by cases status <;> decide
  exact cut_tokens_iff hfree

/-- The positions, on a text cut where `parse` cuts it. -/
theorem separated_line_iff :
    Separated (bytes "HTTP/1.1" ++ sep :: (status.expected ++ after))
      ↔ sep = space ∧ crlf <+: after := by
  generalize hs : bytes "HTTP/1.1" ++ sep :: (status.expected ++ after) = s
  have hsep : byteAt s (bytes "HTTP/1.1").length = some sep := by
    rw [← hs]
    exact byteAt_append_cons
  have hstatus : s.drop ((bytes "HTTP/1.1").length + 1) = status.expected ++ after := by
    rw [← hs]
    exact List.drop_length_add_append 1
  have hafter : s.drop ((bytes "HTTP/1.1").length + 1 + status.expected.length) = after :=
    drop_of_append hstatus
  constructor
  · rintro ⟨hbyte, status', ⟨rest, hrest⟩, hcrlf⟩
    -- only one status text fits
    rw [hstatus] at hrest
    obtain ⟨rfl, _⟩ := status_unique hrest
    rw [hsep] at hbyte
    rw [hafter] at hcrlf
    exact ⟨Option.some.inj hbyte, hcrlf⟩
  · rintro ⟨rfl, hcrlf⟩
    exact ⟨hsep, status, hstatus ▸ List.prefix_append _ _, by rwa [hafter]⟩

end line

/-- **The status line is read by its grammar** exactly where the bytes
that are skipped are the separators. -/
theorem statusLine_iff_separated {s : Bytes} {r : HttpResponse} (h : parse s = .value r) :
    FirstLine s r ↔ Separated s := by
  obtain ⟨sep, after, fields, rfl, _, _⟩ := parse_eq_value_iff.mp h
  rw [version_string, separated_line_iff]
  exact cut_line_iff

/-- A response that is read by the grammar of its first line. -/
theorem statusLine_iff_separated_ok :
    FirstLine (bytes "HTTP/1.1 200 OK\r\n\r\n") {}
      ↔ Separated (bytes "HTTP/1.1 200 OK\r\n\r\n") :=
  statusLine_iff_separated (by decide +kernel)

/-- A longer reason phrase passes for the CRLF. -/
theorem longer_reason_accepted :
    ¬ ∀ (s : Bytes) (r : HttpResponse), parse s = .value r → FirstLine s r := by
  intro h
  have hparse : parse (bytes "HTTP/1.1 200 OKAY\r\n") = .value {} := by decide +kernel
  obtain ⟨rest, hcut⟩ := h _ _ hparse
  have hline : cut crlf (bytes "HTTP/1.1 200 OKAY\r\n")
      = some (bytes "HTTP/1.1 200 OKAY", []) := by decide +kernel
  rw [hline] at hcut
  exact absurd (Prod.mk.inj (Option.some.inj hcut)).1 (by decide)

end HttpResponse

end Pine
