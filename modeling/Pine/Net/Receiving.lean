import Pine.Net.Connection
import Pine.Http.Truncation

/-!
# Net — Receiving

`receive_request` call after call. `receive_raw_message` stops at the
first `recv` that does not fill its buffer, and nothing else ends a
message: a message is full buffers and one part of a buffer (`Delivery`).
What the calls return is then a matter of where the short pieces of the
stream are.
-/

namespace Pine

/-- `server_connection::receive_request`. The inner `co_await` delivers
what `receive_raw_message` returns; an exception of `parse` ends the
body. -/
def receiveRequest (calls : List Recv) : Option (BodyEnd HttpRequest × List Recv) :=
  match receiveRawMessage calls with
  | none => none
  | some (received, calls) =>
      match received.result with
      | .error e => some (.returns (.error e), calls)
      | .ok requestString =>
          match HttpRequest.parse requestString with
          | .value request => some (.returns (.value request), calls)
          | .unexpected e => some (.returns (.error e), calls)
          | .outOfRange => some (.throws, calls)

/-- Every call of `recv` is made once. -/
theorem receiveLoop_lt {buffer message : Bytes} {calls rest : List Recv} {r : CoReturn Bytes}
    (h : receiveLoop buffer message calls = some (r, rest)) : rest.length < calls.length := by
  induction calls generalizing buffer message with
  | nil => cases h
  | cons call calls ih =>
      simp only [receiveLoop] at h
      split at h
      · cases h
        exact Nat.lt_succ_self _
      · split at h
        · cases h
          exact Nat.lt_succ_self _
        · split at h
          · cases h
            exact Nat.lt_succ_self _
          · exact Nat.lt_succ_of_lt (ih h)

theorem receiveRequest_lt {calls rest : List Recv} {ending : BodyEnd HttpRequest}
    (h : receiveRequest calls = some (ending, rest)) : rest.length < calls.length := by
  unfold receiveRequest at h
  split at h
  · cases h
  · next received rest' hraw =>
    have hlt := receiveLoop_lt hraw
    split at h
    · cases h
      exact hlt
    · split at h <;> cases h <;> exact hlt

/-- What the calls of `receive_request` return, one after the other, until
one blocks. -/
def receiveRequests (calls : List Recv) : List (Expected HttpRequest) :=
  match _h : receiveRequest calls with
  | none => []
  | some (ending, rest) => ending.result :: receiveRequests rest
termination_by calls.length
decreasing_by exact receiveRequest_lt _h

theorem receiveRequests_none {calls : List Recv} (h : receiveRequest calls = none) :
    receiveRequests calls = [] := by
  rw [receiveRequests]
  split
  · rfl
  · next h' =>
    rw [h] at h'
    cases h'

theorem receiveRequests_some {calls rest : List Recv} {ending : BodyEnd HttpRequest}
    (h : receiveRequest calls = some (ending, rest)) :
    receiveRequests calls = ending.result :: receiveRequests rest := by
  rw [receiveRequests]
  split
  · next h' =>
    rw [h] at h'
    cases h'
  · next h' =>
    rw [h] at h'
    cases h'
    rfl

/-! ## The end of a message -/

/-- A message in the pieces that `receive_raw_message` takes for one: full
buffers, and one part of a buffer. -/
def Delivery (text : Bytes) (pieces : List Bytes) : Prop :=
  ∃ full last, pieces = full ++ [last] ∧ (∀ c ∈ full, c.length = chunkSize) ∧
    last.length < chunkSize ∧ text = full.flatten ++ last

section receiveLoop
variable {buffer message chunk : Bytes} {calls : List Recv}

theorem ret_data (hle : chunk.length ≤ chunkSize) :
    sizeOfInt (Recv.data chunk).ret = chunk.length := by
  have hlt : (chunk.length : Int) < 2 ^ 31 := by
    unfold chunkSize at hle
    omega
  exact sizeOfInt_of_nonneg (Int.natCast_nonneg _) hlt

theorem length_fill (hbuffer : buffer.length = chunkSize) (hle : chunk.length ≤ chunkSize) :
    ((Recv.data chunk).fill buffer).length = chunkSize := by
  simp only [Recv.fill, List.length_append, List.length_drop, hbuffer]
  omega

/-- One call of `recv` that returns data. -/
theorem receiveLoop_data (hbuffer : buffer.length = chunkSize) (hpos : 0 < chunk.length)
    (hle : chunk.length ≤ chunkSize) :
    receiveLoop buffer message (.data chunk :: calls) =
      if chunk.length < chunkSize then some (.value (message ++ chunk), calls)
      else receiveLoop ((Recv.data chunk).fill buffer) (message ++ chunk) calls := by
  have htake : ((Recv.data chunk).fill buffer).take chunk.length = chunk := List.take_left
  have hlt : chunk.length < 2 ^ 64 - 1 := by
    unfold chunkSize at hle
    omega
  simp only [receiveLoop, ret_data hle, sizeOfInt_socketError, htake, length_fill hbuffer hle]
  rw [if_neg (by omega), if_neg (by omega)]

/-- Full buffers are collected, whatever comes behind them. -/
theorem receiveLoop_full_append {full : List Bytes} (hbuffer : buffer.length = chunkSize)
    (hfull : ∀ c ∈ full, c.length = chunkSize) (message : Bytes) (calls : List Recv) :
    ∃ buffer', buffer'.length = chunkSize ∧
      receiveLoop buffer message (full.map .data ++ calls)
        = receiveLoop buffer' (message ++ full.flatten) calls := by
  induction full generalizing buffer message with
  | nil => exact ⟨buffer, hbuffer, by simp⟩
  | cons c full ih =>
      obtain ⟨hc, hfull'⟩ := List.forall_mem_cons.mp hfull
      have hle : c.length ≤ chunkSize := Nat.le_of_eq hc
      obtain ⟨buffer', hbuffer', hrest⟩ := ih (length_fill hbuffer hle) hfull' (message ++ c)
      refine ⟨buffer', hbuffer', ?_⟩
      rw [List.map_cons, List.cons_append,
        receiveLoop_data hbuffer (by rw [hc]; decide) hle, if_neg (by omega), hrest]
      simp

/-- The loop takes a whole delivery, and not a call more. -/
theorem receiveLoop_delivery {full : List Bytes} {last : Bytes}
    (hbuffer : buffer.length = chunkSize) (hfull : ∀ c ∈ full, c.length = chunkSize)
    (hpos : 0 < last.length) (hlast : last.length < chunkSize) :
    receiveLoop buffer message ((full ++ [last]).map .data ++ calls)
      = some (.value (message ++ (full.flatten ++ last)), calls) := by
  obtain ⟨buffer', hbuffer', hloop⟩ :=
    receiveLoop_full_append hbuffer hfull message (.data last :: calls)
  have hsplit : (full ++ [last]).map Recv.data ++ calls
      = full.map .data ++ .data last :: calls := by simp
  rw [hsplit, hloop, receiveLoop_data hbuffer' hpos (Nat.le_of_lt hlast), if_pos hlast,
    List.append_assoc]

/-- While every piece fills the buffer, the loop asks for more. -/
theorem receiveLoop_full {full : List Bytes} (hbuffer : buffer.length = chunkSize)
    (hfull : ∀ c ∈ full, c.length = chunkSize) :
    receiveLoop buffer message (full.map .data) = none := by
  obtain ⟨buffer', _, hloop⟩ := receiveLoop_full_append hbuffer hfull message []
  rw [List.append_nil] at hloop
  rw [hloop]
  rfl

end receiveLoop

/-- The pieces in which a stream can arrive. -/
def Pieces (chunks : List Bytes) : Prop := ∀ c ∈ chunks, 0 < c.length ∧ c.length ≤ chunkSize

theorem Pieces.of_append {pieces rest : List Bytes} (h : Pieces (pieces ++ rest)) :
    Pieces pieces ∧ Pieces rest :=
  List.forall_mem_append.mp h

/-- Full buffers and one part of a buffer are a message, and can arrive. -/
theorem delivery_concat {full : List Bytes} {last : Bytes}
    (hfull : ∀ c ∈ full, c.length = chunkSize) (hpos : 0 < last.length)
    (hlast : last.length < chunkSize) :
    Delivery (full.flatten ++ last) (full ++ [last]) ∧ Pieces (full ++ [last]) := by
  refine ⟨⟨full, last, rfl, hfull, hlast, rfl⟩, List.forall_mem_append.mpr ⟨?_, ?_⟩⟩
  · intro c hc
    rw [hfull c hc]
    decide
  · exact List.forall_mem_singleton.mpr ⟨hpos, Nat.le_of_lt hlast⟩

/-- Every stream starts with a delivery, or nothing ends its first
message. -/
theorem full_or_delivery {chunks : List Bytes} (h : Pieces chunks) :
    (∀ c ∈ chunks, c.length = chunkSize) ∨
    ∃ text pieces rest, chunks = pieces ++ rest ∧ Delivery text pieces := by
  induction chunks with
  | nil => exact .inl (List.forall_mem_nil _)
  | cons c chunks ih =>
      obtain ⟨hpos, hle⟩ := h c List.mem_cons_self
      by_cases hc : c.length < chunkSize
      · exact .inr ⟨c, [c], chunks, rfl, [], c, rfl, List.forall_mem_nil _, hc, rfl⟩
      · have hfull : c.length = chunkSize := by omega
        rcases ih (fun c' hc' => h c' (List.mem_cons_of_mem c hc')) with
          hall | ⟨_, _, rest, rfl, full, last, rfl, hpieces, hlast, rfl⟩
        · exact .inl (List.forall_mem_cons.mpr ⟨hfull, hall⟩)
        · exact .inr ⟨_, c :: (full ++ [last]), rest, rfl, c :: full, last, rfl,
            List.forall_mem_cons.mpr ⟨hfull, hpieces⟩, hlast, rfl⟩

theorem Delivery.flatten {text : Bytes} {pieces : List Bytes} (h : Delivery text pieces) :
    pieces.flatten = text := by
  obtain ⟨full, last, rfl, _, _, rfl⟩ := h
  simp

/-- **One message, one delivery.** -/
theorem receiveRawMessage_delivery {text : Bytes} {pieces : List Bytes} (h : Delivery text pieces)
    (hpieces : Pieces pieces) (calls : List Recv) :
    receiveRawMessage (pieces.map .data ++ calls) = some (.value text, calls) := by
  obtain ⟨full, last, rfl, hfull, hlast, rfl⟩ := h
  have hpos := (hpieces last (by simp)).1
  exact receiveLoop_delivery List.length_replicate hfull hpos hlast

theorem receiveRawMessage_full {chunks : List Bytes} (h : ∀ c ∈ chunks, c.length = chunkSize) :
    receiveRawMessage (chunks.map .data) = none :=
  receiveLoop_full List.length_replicate h

/-! ## The requests of a stream -/

/-- What `receive_request` makes of a message. -/
def requestOf (text : Bytes) : BodyEnd HttpRequest :=
  match HttpRequest.parse text with
  | .value request => .returns (.value request)
  | .unexpected e => .returns (.error e)
  | .outOfRange => .throws

theorem result_requestOf_eq_ok {text : Bytes} {r : HttpRequest} :
    (requestOf text).result = .ok r ↔ HttpRequest.parse text = .value r := by
  unfold requestOf
  cases HttpRequest.parse text with
  | value request =>
      show Except.ok request = .ok r ↔ Outcome.value request = .value r
      simp
  | unexpected e => exact iff_of_false (by intro h; cases h) (by intro h; cases h)
  | outOfRange => exact iff_of_false (by intro h; cases h) (by intro h; cases h)

theorem receiveRequests_delivery {text : Bytes} {pieces : List Bytes} (h : Delivery text pieces)
    (hpieces : Pieces pieces) (calls : List Recv) :
    receiveRequests (pieces.map .data ++ calls)
      = (requestOf text).result :: receiveRequests calls := by
  apply receiveRequests_some
  rw [receiveRequest, receiveRawMessage_delivery h hpieces]
  unfold requestOf
  simp only [CoReturn.result]
  cases HttpRequest.parse text <;> rfl

theorem receiveRequests_full {chunks : List Bytes} (h : ∀ c ∈ chunks, c.length = chunkSize) :
    receiveRequests (chunks.map .data) = [] := by
  apply receiveRequests_none
  rw [receiveRequest, receiveRawMessage_full h]

end Pine
