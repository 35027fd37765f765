import Pine.Net.Receiving

/-!
# Net — Framing

A stream of requests, from the client's `to_string` to the server's
`receive_request`. The requests come out as they were sent exactly when
each of them arrives as one delivery (`Framed`). A longer piece is read
with what follows the request as more of its body. A shorter one can
still be read as the whole request, when what is missing is the end of
its blank line, but then the next message starts inside that line
(`parse_cut_self`).
-/

namespace Pine

/-- Each request arrives as one delivery. -/
inductive Framed : List HttpRequest → List Bytes → Prop where
  | nil : Framed [] []
  | cons {r : HttpRequest} {rs : List HttpRequest} {pieces rest : List Bytes} :
      Delivery r.toString pieces → Framed rs rest → Framed (r :: rs) (pieces ++ rest)

/-! ## Messages that are not the sent ones -/

/-- No request starts with a byte of a line end. -/
theorem parse_lineEnd_ne_value {b : UInt8} (hb : b = cr ∨ b = lf) (text : Bytes)
    (r : HttpRequest) : HttpRequest.parse (b :: text) ≠ .value r := by
  intro h
  obtain ⟨sep, after, fields, htext, _⟩ := HttpRequest.parse_eq_value_iff.mp h
  have hhead := congrArg List.head? htext
  rcases hb with rfl | rfl <;> cases hm : r.method <;>
    simp [hm, HttpMethod.string, bytes, cr, lf] at hhead

theorem ofEntries_prefix_inj {m : HeaderMap} {kept : List (Bytes × Bytes)}
    (hpre : kept <+: m.entries) (h : m = SortedMap.ofEntries kept) : kept = m.entries := by
  have hsorted : kept.Pairwise (fun a b => a.1 < b.1) := m.sorted.sublist hpre.sublist
  have hkept := SortedMap.ofEntries_entries (⟨kept, hsorted⟩ : HeaderMap)
  rw [h]
  exact (congrArg SortedMap.entries hkept).symm

/-- **A cut request that reads as the request.** What is cut off is
nothing, or starts inside a line end and is at most two of them. -/
theorem parse_cut_self {r : HttpRequest} (h : r.WellFormed) {p y : Bytes}
    (hp : p ++ y = r.toString) (hparse : HttpRequest.parse p = .value r) :
    y = [] ∨ ∃ b tail, y = b :: tail ∧ (b = cr ∨ b = lf) ∧ y.length ≤ 4 := by
  obtain ⟨after, kept, left, rfl, hcut, hr⟩ :=
    (HttpRequest.parse_prefix_eq_value_iff h ⟨y, hp⟩).mp hparse
  have hheaders : r.headers = SortedMap.ofEntries kept := congrArg HttpRequest.headers hr
  have hbody : r.body = left := congrArg HttpRequest.body hr
  have hafter : after ++ y = crlf ++ (headerLines r.headers.entries ++ (crlf ++ r.body)) := by
    rw [← List.append_right_inj r.requestLine, ← List.append_assoc, hp]
    simp [HttpRequest.toString]
  generalize htext : after.drop 2 = text at hcut
  cases hcut with
  | afterLine hpre =>
      rw [ofEntries_prefix_inj hpre hheaders] at htext
      rw [hbody] at hafter
      refine .inr ?_
      rcases after with _ | ⟨a, _ | ⟨b, rest⟩⟩
      · -- no header: the whole of both line ends is missing
        rw [← htext] at hafter
        exact ⟨cr, [lf, cr, lf], hafter, .inl rfl, by rw [show y = _ from hafter]; decide⟩
      · rw [← htext] at hafter
        have hy : y = [lf, cr, lf] := (List.cons.inj hafter).2
        exact ⟨lf, [cr, lf], hy, .inr rfl, by rw [hy]; decide⟩
      · have hrest : rest ++ y = headerLines r.headers.entries ++ (crlf ++ []) :=
          (List.cons.inj (List.cons.inj hafter).2).2
        rw [← htext] at hrest
        have hy : y = [cr, lf] := List.append_cancel_left hrest
        exact ⟨cr, [lf], hy, .inl rfl, by rw [hy]; decide⟩
  | afterBlank hpre =>
      rw [← hbody] at htext
      have hlen := congrArg List.length hafter
      have hdrop := congrArg List.length htext
      simp only [List.length_append, List.length_drop, crlf_length] at hlen hdrop
      exact .inl (List.length_eq_zero_iff.mp (by omega))

/-! ## The stream -/

/-- A stream of pieces that holds nothing has no pieces. -/
theorem Pieces.eq_nil {chunks : List Bytes} (h : Pieces chunks) (hflat : chunks.flatten = []) :
    chunks = [] := by
  cases chunks with
  | nil => rfl
  | cons c chunks =>
      have hpos := (h c List.mem_cons_self).1
      rw [List.flatten_cons, List.append_eq_nil_iff] at hflat
      rw [hflat.1] at hpos
      exact absurd hpos (Nat.lt_irrefl 0)

theorem Delivery.ne_nil {text : Bytes} {pieces : List Bytes} (h : Delivery text pieces)
    (hpieces : Pieces pieces) : text ≠ [] := by
  obtain ⟨full, last, rfl, _, _, rfl⟩ := h
  have hpos := (hpieces last (by simp)).1
  intro hnil
  rw [(List.append_eq_nil_iff.mp hnil).2] at hpos
  exact Nat.lt_irrefl 0 hpos

theorem Framed.receiveRequests {rs : List HttpRequest} {chunks : List Bytes}
    (h : Framed rs chunks) (hrs : ∀ r ∈ rs, r.WellFormed) (hchunks : Pieces chunks) :
    receiveRequests (chunks.map .data) = rs.map .ok := by
  induction h with
  | nil => exact receiveRequests_full (List.forall_mem_nil _)
  | @cons r rs pieces rest hdelivery _ ih =>
      obtain ⟨hpieces, hrest⟩ := hchunks.of_append
      have hparse := HttpRequest.parse_toString_append (hrs r List.mem_cons_self) []
      rw [List.append_nil, List.append_nil] at hparse
      rw [List.map_append, receiveRequests_delivery hdelivery hpieces,
        result_requestOf_eq_ok.mpr hparse,
        ih (fun r' hr' => hrs r' (List.mem_cons_of_mem r hr')) hrest, List.map_cons]

/-- The stream behind a message that stopped short of its request is not
read as the requests that remain. -/
theorem receiveRequests_lineEnd {rs : List HttpRequest} {chunks : List Bytes}
    (hchunks : Pieces chunks) {b : UInt8} {tail : Bytes} (hb : b = cr ∨ b = lf)
    (hlen : (b :: tail).length ≤ 4)
    (hstream : chunks.flatten = (b :: tail) ++ rs.flatMap HttpRequest.toString) :
    Pine.receiveRequests (chunks.map .data) ≠ rs.map .ok := by
  intro hresults
  rcases full_or_delivery hchunks with hfull | ⟨text, pieces, rest, rfl, hdelivery⟩
  · -- nothing is returned, and what is left is too short for a full buffer
    rw [receiveRequests_full hfull] at hresults
    rw [List.map_eq_nil_iff.mp hresults.symm, List.flatMap_nil, List.append_nil] at hstream
    cases chunks with
    | nil => cases hstream
    | cons c chunks =>
        have hc := hfull c List.mem_cons_self
        have hlen' := congrArg List.length hstream
        rw [List.flatten_cons, List.length_append, hc, chunkSize] at hlen'
        omega
  · obtain ⟨hpieces, _⟩ := hchunks.of_append
    rw [List.map_append, receiveRequests_delivery hdelivery hpieces] at hresults
    cases rs with
    | nil => cases hresults
    | cons r rs =>
        have hparse := result_requestOf_eq_ok.mp (List.cons.inj hresults).1
        rw [List.flatten_append, hdelivery.flatten] at hstream
        cases text with
        | nil => exact hdelivery.ne_nil hpieces rfl
        | cons b' text =>
            obtain ⟨rfl, _⟩ := List.cons.inj hstream
            exact parse_lineEnd_ne_value hb text r hparse

/-- Requests read from their stream arrived one delivery each. -/
theorem framed_of_receiveRequests {rs : List HttpRequest} {chunks : List Bytes}
    (hrs : ∀ r ∈ rs, r.WellFormed) (hchunks : Pieces chunks)
    (hstream : chunks.flatten = rs.flatMap HttpRequest.toString)
    (hresults : receiveRequests (chunks.map .data) = rs.map .ok) : Framed rs chunks := by
  induction rs generalizing chunks with
  | nil =>
      rw [hchunks.eq_nil hstream]
      exact .nil
  | cons r rs ih =>
      have hr := hrs r List.mem_cons_self
      rcases full_or_delivery hchunks with hfull | ⟨text, pieces, rest, rfl, hdelivery⟩
      · rw [receiveRequests_full hfull] at hresults
        cases hresults
      · obtain ⟨hpieces, hrest⟩ := hchunks.of_append
        rw [List.map_append, receiveRequests_delivery hdelivery hpieces] at hresults
        obtain ⟨hfirst, hothers⟩ := List.cons.inj hresults
        have hparse := result_requestOf_eq_ok.mp hfirst
        rw [List.flatten_append, hdelivery.flatten, List.flatMap_cons] at hstream
        rcases List.append_eq_append_iff.mp hstream with ⟨y, hy, hrestStream⟩ | ⟨x, rfl, hx⟩
        · rcases parse_cut_self hr hy.symm hparse with rfl | ⟨b, tail, rfl, hb, hlen⟩
          · rw [List.append_nil] at hy
            rw [← hy] at hdelivery
            exact .cons hdelivery
              (ih (fun r' hr' => hrs r' (List.mem_cons_of_mem r hr')) hrest hrestStream hothers)
          · exact absurd hothers (receiveRequests_lineEnd hrest hb hlen hrestStream)
        · -- the message goes on behind the request: that would be its body
          rw [HttpRequest.parse_toString_append hr x] at hparse
          have hbody : r.body ++ x = r.body := congrArg HttpRequest.body (Outcome.value.inj hparse)
          obtain rfl := List.append_right_eq_self.mp hbody
          rw [List.append_nil] at hdelivery
          exact .cons hdelivery
            (ih (fun r' hr' => hrs r' (List.mem_cons_of_mem r hr')) hrest hx.symm hothers)

/-- **The requests of a stream.** Whatever the pieces, the server's calls
return the requests that were sent exactly when each request arrived as
one delivery: full buffers, then a shorter piece that ends it. -/
theorem requests_received_iff {rs : List HttpRequest} {chunks : List Bytes}
    (hrs : ∀ r ∈ rs, r.WellFormed) (hchunks : Pieces chunks)
    (hstream : chunks.flatten = rs.flatMap HttpRequest.toString) :
    receiveRequests (chunks.map .data) = rs.map .ok ↔ Framed rs chunks := by
  constructor
  · intro hresults
    exact framed_of_receiveRequests hrs hchunks hstream hresults
  · intro h
    exact h.receiveRequests hrs hchunks

/-- A request of one kilobyte and a little more, in two pieces, and one
without a header behind it. -/
theorem requests_received_iff_long :
    let long : HttpRequest :=
      { method := .post, uri := bytes "/", body := List.replicate 1010 (48 : UInt8) }
    let short : HttpRequest := { uri := bytes "/a" }
    let chunks := [long.toString.take 1024, long.toString.drop 1024, short.toString]
    receiveRequests (chunks.map .data) = [long, short].map .ok ↔ Framed [long, short] chunks :=
  requests_received_iff (by decide +kernel) (by unfold Pieces; decide +kernel) (by decide +kernel)

/-- Two requests without body or headers, delivered together. -/
theorem coalesced_requests_lost :
    ¬ ∀ (rs : List HttpRequest) (chunks : List Bytes), (∀ r ∈ rs, r.WellFormed) →
      (∀ r ∈ rs, ∃ r₀ body, r = HttpRequest.setBody r₀ body) → Pieces chunks →
      chunks.flatten = rs.flatMap HttpRequest.toString →
      receiveRequests (chunks.map .data) = rs.map .ok := by
  intro h
  let twice : Bytes := bytes "GET / HTTP/1.1\r\n\r\nGET / HTTP/1.1\r\n\r\n"
  have hpieces : Pieces [twice] := by
    unfold Pieces
    decide
  have hdelivery : Delivery twice [twice] :=
    ⟨[], twice, rfl, List.forall_mem_nil _, by decide, rfl⟩
  have hbodies : ∀ r ∈ ([{ uri := bytes "/" }, { uri := bytes "/" }] : List HttpRequest),
      ∃ r₀ body, r = HttpRequest.setBody r₀ body := by
    intro r hr
    simp only [List.mem_cons, List.not_mem_nil, or_false, or_self] at hr
    exact ⟨{ uri := bytes "/" }, [], by rw [hr]; rfl⟩
  have hresults := h [{ uri := bytes "/" }, { uri := bytes "/" }] [twice] (by decide) hbodies
    hpieces (by decide)
  -- one piece is one message, whatever is in it
  have hone := receiveRequests_delivery hdelivery hpieces []
  rw [receiveRequests_none (show receiveRequest [] = none from rfl), List.append_nil, hresults]
    at hone
  cases (List.cons.inj hone).2

end Pine
