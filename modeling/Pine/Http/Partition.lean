import Pine.Http.Sections

/-!
# Http — Partition

Where an accepted request is cut. The loop of `try_get_headers` walks
line by line and never looks for the end of the section, but every line
it reads has a colon, so the blank line it stops at is the first place
where a CRLF follows a CRLF (`cutSection_headerBlock`). The parts of the
message put together are the whole message (`request_partition`).
-/

namespace Pine

open Search

/-- Cut a text behind its header section: behind a CRLF it starts with,
else behind its first CRLF CRLF, else at its end. -/
def cutSection (text : Bytes) : Bytes × Bytes :=
  if crlf <+: text then (crlf, text.drop crlf.length)
  else
    match cut (crlf ++ crlf) text with
    | some (lines, body) => (lines ++ (crlf ++ crlf), body)
    | none => (text, [])

theorem cutSection_blank (body : Bytes) : cutSection (crlf ++ body) = (crlf, body) := by
  rw [cutSection, if_pos (List.prefix_append crlf body), List.drop_left]

/-- **The loop stops at the first blank line.** -/
theorem cutSection_headerBlock {text body : Bytes} {fields : List (Bytes × Bytes)}
    (h : HeaderBlock text fields body) : ∃ block, text = block ++ body ∧
      cutSection text = (block, body) := by
  induction h with
  | eof => exact ⟨[], rfl, rfl⟩
  | blank body => exact ⟨crlf, rfl, cutSection_blank body⟩
  | @line name after rest fields body hname hfree hrest ih =>
      obtain ⟨block, hrest', hcutRest⟩ := ih
      have hstart : ¬ crlf <+: (name ++ colon :: after) ++ (crlf ++ rest) :=
        not_prefix_before unbordered_crlf (by simp) hfree rest
      refine ⟨(name ++ colon :: after) ++ (crlf ++ block), by rw [hrest']; simp, ?_⟩
      rw [cutSection, if_neg hstart]
      by_cases hblank : crlf <+: rest
      · -- the blank line comes next, and its CRLF follows that of the line
        obtain ⟨body', rfl⟩ := hblank
        rw [cutSection_blank] at hcutRest
        cases hcutRest
        rw [cut_doubled unbordered_crlf crlf_ne_nil hfree]
      · rw [cutSection, if_neg hblank] at hcutRest
        rw [cut_doubled_skip unbordered_crlf hfree hblank]
        cases hcut : cut (crlf ++ crlf) rest with
        | none =>
            rw [hcut] at hcutRest
            cases hcutRest
            rfl
        | some split =>
            rw [hcut] at hcutRest
            cases hcutRest
            simp

namespace HttpRequest

/-- **No byte of an accepted request is lost**, and none is in two
parts: the method, a byte, the uri, a space, the version, two bytes or
what is left of them, the header section and the body. -/
theorem request_partition {s : Bytes} {r : HttpRequest} (h : parse s = .value r) :
    ∃ (sep : UInt8) (skipped block : Bytes),
      s = r.method.string ++ sep :: (r.uri ++ Pine.space :: (bytes "HTTP/1.1"
        ++ (skipped ++ (block ++ r.body)))) ∧
      r.uri.head? = some slash ∧ Pine.space ∉ r.uri ∧
      skipped = (skipped ++ (block ++ r.body)).take 2 ∧
      cutSection (block ++ r.body) = (block, r.body) := by
  obtain ⟨sep, after, fields, rfl, hslash, hspace, hb, _⟩ := parse_eq_value_iff.mp h
  obtain ⟨block, hwhole, hcut⟩ := cutSection_headerBlock hb
  have hafter : after.take 2 ++ (block ++ r.body) = after := by
    rw [← hwhole, List.take_append_drop]
  refine ⟨sep, after.take 2, block, ?_, hslash, hspace, ?_, ?_⟩
  · rw [hafter, version_string]
  · rw [hafter]
  · rw [← hwhole, hcut]

/-- A request whose body has a blank line of its own. -/
theorem request_partition_blank :
    ∃ (sep : UInt8) (skipped block : Bytes),
      bytes "GET / HTTP/1.1\r\na: 1\r\n\r\nb\r\n\r\n"
        = bytes "GET" ++ sep :: (bytes "/" ++ Pine.space :: (bytes "HTTP/1.1"
          ++ (skipped ++ (block ++ bytes "b\r\n\r\n")))) ∧
      (bytes "/").head? = some slash ∧ Pine.space ∉ bytes "/" ∧
      skipped = (skipped ++ (block ++ bytes "b\r\n\r\n")).take 2 ∧
      cutSection (block ++ bytes "b\r\n\r\n") = (block, bytes "b\r\n\r\n") :=
  request_partition (s := bytes "GET / HTTP/1.1\r\na: 1\r\n\r\nb\r\n\r\n")
    (r := { uri := bytes "/", headers := SortedMap.ofEntries [(bytes "a", bytes "1")],
            body := bytes "b\r\n\r\n" })
    (by decide +kernel)

end HttpRequest

end Pine
