import Pine.Net.Receiving

/-!
# Net — RawMessages

`receive_raw_message` call after call, over every sequence of results of
`recv`. A call takes full buffers and one result more
(`receiveRawMessage_cases`): a part of a buffer, and then the call returns
everything it took (`received_conserved`); or the end of the connection
or an error, and then it returns that and drops the full buffers in front
of it. So errors lose nothing exactly where no full buffer comes right
before one (`errors_lose_nothing_iff`).
-/

namespace Pine

/-- What `recv` can come back with: between one byte and a full buffer, the
end of the connection, or an error. -/
def Recv.Valid : Recv → Prop
  | .data chunk => 0 < chunk.length ∧ chunk.length ≤ chunkSize
  | _ => True

instance (call : Recv) : Decidable call.Valid :=
  match call with
  | .data _ => inferInstanceAs (Decidable (_ ∧ _))
  | .closed => inferInstanceAs (Decidable True)
  | .failed _ => inferInstanceAs (Decidable True)

def ValidRecvs (calls : List Recv) : Prop := ∀ call ∈ calls, call.Valid

instance (calls : List Recv) : Decidable (ValidRecvs calls) :=
  inferInstanceAs (Decidable (∀ call ∈ calls, _))

/-- The bytes that a call of `recv` delivers. -/
def Recv.bytes : Recv → Bytes
  | .data chunk => chunk
  | _ => []

/-- The error that `receive_raw_message` makes of a result without data. -/
def Recv.endError : Recv → Option ErrorCode
  | .data _ => none
  | .closed => some (makeErrcCode errcConnectionReset)
  | .failed lastError => some (makeErrcCode lastError)

/-- What `n` calls of `receive_raw_message` return one after the other, and
the results of `recv` that are left. -/
def receiveRawMessages : Nat → List Recv → Option (List (Expected Bytes) × List Recv)
  | 0, calls => some ([], calls)
  | n + 1, calls =>
      (receiveRawMessage calls).bind fun first =>
        (receiveRawMessages n first.2).map fun others => (first.1.result :: others.1, others.2)

section results
variable {call : Recv}

theorem endError_eq_none_iff : call.endError = none ↔ ∃ chunk, call = .data chunk := by
  cases call with
  | data chunk => exact iff_of_true rfl ⟨chunk, rfl⟩
  | closed => exact iff_of_false (by intro h; cases h) (by rintro ⟨_, h⟩; cases h)
  | failed lastError => exact iff_of_false (by intro h; cases h) (by rintro ⟨_, h⟩; cases h)

theorem bytes_of_endError {e : ErrorCode} (h : call.endError = some e) : call.bytes = [] := by
  cases call with
  | data chunk => cases h
  | closed => rfl
  | failed lastError => rfl

end results

/-! ## One call -/

section receiveLoop
variable {buffer message : Bytes} {calls rest : List Recv} {full : List Bytes}

/-- One call of `recv` without data ends the loop. -/
theorem receiveLoop_end {call : Recv} {e : ErrorCode} (hcall : call.endError = some e) :
    receiveLoop buffer message (call :: calls) = some (.error e, calls) := by
  cases call with
  | data chunk => cases hcall
  | closed =>
      cases hcall
      rfl
  | failed lastError =>
      cases hcall
      have hzero : sizeOfInt socketError ≠ 0 := by decide
      show receiveLoop buffer message (.failed lastError :: calls) = _
      simp only [receiveLoop, Recv.ret, if_neg hzero]
      rfl

/-- A call that returns has taken full buffers and one result more. -/
theorem receiveLoop_taken {r : CoReturn Bytes} (hvalid : ValidRecvs calls)
    (hbuffer : buffer.length = chunkSize) (h : receiveLoop buffer message calls = some (r, rest)) :
    ∃ (full : List Bytes) (last : Recv), calls = full.map .data ++ last :: rest ∧
      (∀ c ∈ full, c.length = chunkSize) ∧
      ∀ chunk, last = .data chunk → chunk.length < chunkSize := by
  induction calls generalizing buffer message with
  | nil => cases h
  | cons call calls ih =>
      cases hcall : call.endError with
      | some e =>
          rw [receiveLoop_end hcall] at h
          cases h
          refine ⟨[], call, rfl, List.forall_mem_nil _, ?_⟩
          rintro chunk rfl
          cases hcall
      | none =>
          obtain ⟨chunk, rfl⟩ := endError_eq_none_iff.mp hcall
          obtain ⟨⟨hpos, hle⟩, hvalid'⟩ := List.forall_mem_cons.mp hvalid
          rw [receiveLoop_data hbuffer hpos hle] at h
          split at h
          · next hlt =>
            cases h
            refine ⟨[], .data chunk, rfl, List.forall_mem_nil _, ?_⟩
            rintro chunk' hchunk
            cases hchunk
            exact hlt
          · next hge =>
            obtain ⟨full, last, rfl, hfull, hlast⟩ := ih hvalid' (length_fill hbuffer hle) h
            exact ⟨chunk :: full, last, rfl, List.forall_mem_cons.mpr ⟨by omega, hfull⟩, hlast⟩

end receiveLoop

section receiveRawMessage
variable {calls rest : List Recv} {full : List Bytes}

/-- Behind full buffers, a result without data is what the call returns. -/
theorem receiveRawMessage_end {call : Recv} {e : ErrorCode}
    (hfull : ∀ c ∈ full, c.length = chunkSize) (hcall : call.endError = some e)
    (rest : List Recv) :
    receiveRawMessage (full.map .data ++ call :: rest) = some (.error e, rest) := by
  obtain ⟨buffer', _, hloop⟩ :=
    receiveLoop_full_append List.length_replicate hfull [] (call :: rest)
  rw [receiveRawMessage, hloop, receiveLoop_end hcall]

/-- **What one call does**: it returns the delivery in front, or the error
behind full buffers. -/
theorem receiveRawMessage_cases {r : CoReturn Bytes} (hvalid : ValidRecvs calls)
    (h : receiveRawMessage calls = some (r, rest)) :
    (∃ (text : Bytes) (pieces : List Bytes), calls = pieces.map .data ++ rest ∧
      Delivery text pieces ∧ Pieces pieces ∧ r = .value text) ∨
    ∃ (full : List Bytes) (last : Recv) (e : ErrorCode), calls = full.map .data ++ last :: rest ∧
      (∀ c ∈ full, c.length = chunkSize) ∧ last.endError = some e ∧ r = .error e := by
  obtain ⟨full, last, rfl, hfull, hlast⟩ := receiveLoop_taken hvalid List.length_replicate h
  cases hcall : last.endError with
  | some e =>
      rw [receiveRawMessage_end hfull hcall rest] at h
      cases h
      exact .inr ⟨full, last, e, rfl, hfull, hcall, rfl⟩
  | none =>
      obtain ⟨chunk, rfl⟩ := endError_eq_none_iff.mp hcall
      have hpos := (hvalid (.data chunk) (by simp)).1
      obtain ⟨hdelivery, hpieces⟩ := delivery_concat hfull hpos (hlast chunk rfl)
      have hsplit : full.map Recv.data ++ .data chunk :: rest
          = (full ++ [chunk]).map .data ++ rest := by simp
      rw [hsplit, receiveRawMessage_delivery hdelivery hpieces] at h
      cases h
      exact .inl ⟨_, _, hsplit, hdelivery, hpieces, rfl⟩

theorem receiveRawMessage_suffix {r : CoReturn Bytes} (hvalid : ValidRecvs calls)
    (h : receiveRawMessage calls = some (r, rest)) : rest <:+ calls := by
  obtain ⟨full, last, rfl, _⟩ := receiveLoop_taken hvalid List.length_replicate h
  exact (List.suffix_cons last rest).trans (List.suffix_append _ _)

end receiveRawMessage

/-! ## Call after call -/

theorem ValidRecvs.of_suffix {calls rest : List Recv} (h : ValidRecvs calls)
    (hrest : rest <:+ calls) : ValidRecvs rest :=
  fun call hcall => h call (hrest.subset hcall)

section receiveRawMessages
variable {n : Nat} {calls rest : List Recv} {results : List (Expected Bytes)}

theorem receiveRawMessages_succ_eq_some :
    receiveRawMessages (n + 1) calls = some (results, rest) ↔
      ∃ r mid others, receiveRawMessage calls = some (r, mid) ∧
        receiveRawMessages n mid = some (others, rest) ∧ results = r.result :: others := by
  constructor
  · intro h
    obtain ⟨⟨r, mid⟩, hfirst, h⟩ := Option.bind_eq_some_iff.mp h
    obtain ⟨⟨others, rest'⟩, hothers, h⟩ := Option.map_eq_some_iff.mp h
    cases h
    exact ⟨r, mid, others, hfirst, hothers, rfl⟩
  · rintro ⟨r, mid, others, hfirst, hothers, rfl⟩
    rw [receiveRawMessages, hfirst, Option.bind_some, hothers]
    rfl

/-- One call more. -/
theorem receiveRawMessages_concat {r : CoReturn Bytes} {rest' : List Recv}
    (h : receiveRawMessages n calls = some (results, rest))
    (hlast : receiveRawMessage rest = some (r, rest')) :
    receiveRawMessages (n + 1) calls = some (results ++ [r.result], rest') := by
  induction n generalizing calls results with
  | zero =>
      cases h
      rw [receiveRawMessages, hlast]
      rfl
  | succ n ih =>
      obtain ⟨first, mid, others, hfirst, hothers, rfl⟩ := receiveRawMessages_succ_eq_some.mp h
      exact receiveRawMessages_succ_eq_some.mpr ⟨first, mid, _, hfirst, ih hothers, rfl⟩

theorem receiveRawMessages_suffix (hvalid : ValidRecvs calls)
    (h : receiveRawMessages n calls = some (results, rest)) : rest <:+ calls := by
  induction n generalizing calls results with
  | zero =>
      cases h
      exact List.suffix_rfl
  | succ n ih =>
      obtain ⟨r, mid, others, hfirst, hothers, _⟩ := receiveRawMessages_succ_eq_some.mp h
      have hmid := receiveRawMessage_suffix hvalid hfirst
      exact (ih (hvalid.of_suffix hmid) hothers).trans hmid

/-- **Received bytes are conserved.** Calls that all return messages have
taken nothing but data from `recv`. Each message is the chunks it took:
full buffers and a shorter one that is not empty, and one after the other
the messages are all the chunks in order. -/
theorem received_conserved {messages : List Bytes} (hvalid : ValidRecvs calls)
    (h : receiveRawMessages n calls = some (messages.map .ok, rest)) :
    ∃ chunks : List (List Bytes), calls = chunks.flatten.map .data ++ rest ∧
      List.Forall₂ (fun message pieces => Delivery message pieces ∧ Pieces pieces)
        messages chunks ∧
      messages.flatten = chunks.flatten.flatten := by
  induction n generalizing calls messages with
  | zero =>
      obtain ⟨hnil, rfl⟩ := Prod.mk.inj (Option.some.inj h)
      obtain rfl := List.map_eq_nil_iff.mp hnil.symm
      exact ⟨[], rfl, .nil, rfl⟩
  | succ n ih =>
      obtain ⟨r, mid, others, hfirst, hothers, hresults⟩ := receiveRawMessages_succ_eq_some.mp h
      obtain ⟨message, messages, rfl, hr, rfl⟩ := List.map_eq_cons_iff.mp hresults
      have hmid := hvalid.of_suffix (receiveRawMessage_suffix hvalid hfirst)
      obtain ⟨chunks, rfl, hall, hflat⟩ := ih hmid hothers
      rcases receiveRawMessage_cases hvalid hfirst with
        ⟨text, pieces, rfl, hdelivery, hpieces, rfl⟩ | ⟨_, _, e, _, _, _, rfl⟩
      · cases hr
        refine ⟨pieces :: chunks, by simp, .cons ⟨hdelivery, hpieces⟩ hall, ?_⟩
        rw [List.flatten_cons, List.flatten_cons, List.flatten_append, hdelivery.flatten, hflat]
      · cases hr

end receiveRawMessages

/-- Three calls, the second of a message that is longer than the buffer. -/
theorem received_conserved_long :
    let long : Bytes := List.replicate 1024 48
    ∃ chunks : List (List Bytes),
      [.data (bytes "a"), .data long, .data (bytes "b"), .data (bytes "c"), .closed]
        = chunks.flatten.map Recv.data ++ [.closed] ∧
      List.Forall₂ (fun message pieces => Delivery message pieces ∧ Pieces pieces)
        [bytes "a", long ++ bytes "b", bytes "c"] chunks ∧
      [bytes "a", long ++ bytes "b", bytes "c"].flatten = chunks.flatten.flatten :=
  received_conserved (n := 3) (by decide +kernel) (by decide +kernel)

/-! ## Errors -/

/-- No call that returns an error has taken bytes, and what `recv` delivers
before it reports the end of the connection is returned before that is. -/
structure ErrorsLoseNothing (calls : List Recv) : Prop where
  consumed : ∀ n before taken rest r e,
    receiveRawMessages n calls = some (before, taken ++ rest) →
    receiveRawMessage (taken ++ rest) = some (r, rest) → r.result = .error e →
    taken.flatMap Recv.bytes = []
  beforeClose : ∀ n before (chunks : List Bytes) rest,
    receiveRawMessages n calls = some (before, chunks.map .data ++ .closed :: rest) →
    ∃ (k : Nat) (messages : List Bytes),
      receiveRawMessages k (chunks.map .data ++ .closed :: rest)
        = some (messages.map .ok, .closed :: rest) ∧
      messages.flatten = chunks.flatten

/-- Every full buffer has more data right behind it. -/
def FullContinued (calls : List Recv) : Prop :=
  ∀ before chunk call behind, calls = before ++ .data chunk :: call :: behind →
    chunk.length = chunkSize → ∃ next, call = .data next

theorem FullContinued.of_suffix {calls rest : List Recv} (h : FullContinued calls)
    (hrest : rest <:+ calls) : FullContinued rest := by
  obtain ⟨front, rfl⟩ := hrest
  rintro before chunk call behind rfl hfull
  exact h (front ++ before) chunk call behind (by simp) hfull

/-- In front of a result without data no full buffer stands. -/
theorem FullContinued.full_eq_nil {calls rest : List Recv} {full : List Bytes} {call : Recv}
    {e : ErrorCode} (h : FullContinued calls) (hcalls : calls = full.map .data ++ call :: rest)
    (hfull : ∀ c ∈ full, c.length = chunkSize) (hcall : call.endError = some e) : full = [] := by
  rcases List.eq_nil_or_concat full with hnil | ⟨front, c, rfl⟩
  · exact hnil
  · have hc := hfull c (by simp)
    obtain ⟨next, rfl⟩ := h (front.map .data) c call rest (by rw [hcalls]; simp) hc
    cases hcall

/-- **Where the calls come to**: past any part of the sequence some number
of calls has taken all but full buffers at its end. -/
theorem exists_pending {front tail : List Recv} (hvalid : ValidRecvs (front ++ tail)) :
    ∃ (n : Nat) (before : List (Expected Bytes)) (full : List Bytes),
      receiveRawMessages n (front ++ tail) = some (before, full.map .data ++ tail) ∧
        ∀ c ∈ full, c.length = chunkSize := by
  induction front using List.reverseRecOn generalizing tail with
  | nil => exact ⟨0, [], [], rfl, List.forall_mem_nil _⟩
  | append_singleton front call ih =>
      rw [List.append_assoc] at hvalid ⊢
      obtain ⟨n, before, full, hrun, hfull⟩ := ih hvalid
      cases hcall : call.endError with
      | some e =>
          have hlast := receiveRawMessage_end hfull hcall tail
          exact ⟨n + 1, _, [], receiveRawMessages_concat hrun hlast, List.forall_mem_nil _⟩
      | none =>
          obtain ⟨chunk, rfl⟩ := endError_eq_none_iff.mp hcall
          obtain ⟨hpos, hle⟩ := hvalid (.data chunk) (by simp)
          have hsplit : full.map Recv.data ++ ([.data chunk] ++ tail)
              = (full ++ [chunk]).map .data ++ tail := by simp
          rw [hsplit] at hrun
          by_cases hchunk : chunk.length < chunkSize
          · -- a part of a buffer ends the message
            obtain ⟨hdelivery, hpieces⟩ := delivery_concat hfull hpos hchunk
            have hlast := receiveRawMessage_delivery hdelivery hpieces tail
            exact ⟨n + 1, _, [], receiveRawMessages_concat hrun hlast, List.forall_mem_nil _⟩
          · have heq : chunk.length = chunkSize := Nat.le_antisymm hle (Nat.le_of_not_lt hchunk)
            exact ⟨n, before, full ++ [chunk], hrun,
              List.forall_mem_append.mpr ⟨hfull, List.forall_mem_singleton.mpr heq⟩⟩

/-- Data in front of the end of the connection is returned message after
message. -/
theorem receiveRawMessages_beforeClose {chunks : List Bytes} {rest : List Recv}
    (hpieces : Pieces chunks) (h : FullContinued (chunks.map .data ++ .closed :: rest)) :
    ∃ (k : Nat) (messages : List Bytes),
      receiveRawMessages k (chunks.map .data ++ .closed :: rest)
        = some (messages.map .ok, .closed :: rest) ∧
      messages.flatten = chunks.flatten := by
  rcases full_or_delivery hpieces with hfull | ⟨text, pieces, behind, rfl, hdelivery⟩
  · have hclosed : Recv.closed.endError = some (makeErrcCode errcConnectionReset) := rfl
    obtain rfl := h.full_eq_nil rfl hfull hclosed
    exact ⟨0, [], rfl, rfl⟩
  · have hboth := hpieces.of_append
    have hlt : behind.length < (pieces ++ behind).length := by
      obtain ⟨full, last, rfl, _⟩ := hdelivery
      simp only [List.length_append, List.length_singleton]
      omega
    have hsplit : (pieces ++ behind).map Recv.data ++ .closed :: rest
        = pieces.map .data ++ (behind.map .data ++ .closed :: rest) := by simp
    rw [hsplit] at h ⊢
    obtain ⟨k, messages, hrun, hflat⟩ := receiveRawMessages_beforeClose hboth.2
      (h.of_suffix (List.suffix_append _ _))
    have hfirst :=
      receiveRawMessage_delivery hdelivery hboth.1 (behind.map .data ++ .closed :: rest)
    refine ⟨k + 1, text :: messages,
      receiveRawMessages_succ_eq_some.mpr ⟨_, _, _, hfirst, hrun, rfl⟩, ?_⟩
    rw [List.flatten_cons, List.flatten_append, hdelivery.flatten, hflat]
termination_by chunks.length

/-- A full buffer in front of an error is taken by the call that returns
the error. -/
theorem ErrorsLoseNothing.fullContinued {calls : List Recv} (hvalid : ValidRecvs calls)
    (h : ErrorsLoseNothing calls) : FullContinued calls := by
  rintro before chunk call behind rfl hchunk
  by_contra hdata
  obtain ⟨e, hcall⟩ : ∃ e, call.endError = some e := by
    rw [← Option.ne_none_iff_exists', ne_eq, endError_eq_none_iff]
    exact hdata
  obtain ⟨n, results, full, hrun, hfull⟩ := exists_pending hvalid
  have hfull' : ∀ c ∈ full ++ [chunk], c.length = chunkSize :=
    List.forall_mem_append.mpr ⟨hfull, List.forall_mem_singleton.mpr hchunk⟩
  have hend := receiveRawMessage_end hfull' hcall behind
  have hsplit : full.map Recv.data ++ .data chunk :: call :: behind
      = ((full ++ [chunk]).map .data ++ [call]) ++ behind := by simp
  have hsplit' : (full ++ [chunk]).map Recv.data ++ call :: behind
      = ((full ++ [chunk]).map .data ++ [call]) ++ behind := by simp
  rw [hsplit] at hrun
  rw [hsplit'] at hend
  have hnone := h.consumed n results _ behind _ e hrun hend rfl
  -- the chunk is among the bytes taken
  simp only [List.flatMap_append, List.map_append, List.append_eq_nil_iff] at hnone
  have hnil : chunk = [] := by simpa [Recv.bytes] using hnone.1.2
  rw [hnil] at hchunk
  exact absurd hchunk (by decide)

theorem FullContinued.errorsLoseNothing {calls : List Recv} (hvalid : ValidRecvs calls)
    (h : FullContinued calls) : ErrorsLoseNothing calls := by
  refine ⟨?_, ?_⟩
  · intro n before taken rest r e hrun hlast hr
    have hsuffix := receiveRawMessages_suffix hvalid hrun
    rcases receiveRawMessage_cases (hvalid.of_suffix hsuffix) hlast with
      ⟨_, _, _, _, _, rfl⟩ | ⟨full, last, e', hcalls, hfull, hcall, _⟩
    · cases hr
    · obtain rfl := (h.of_suffix hsuffix).full_eq_nil hcalls hfull hcall
      have htaken : taken = [last] := by
        have hsame : taken ++ rest = [last] ++ rest := hcalls
        exact List.append_cancel_right hsame
      rw [htaken, List.flatMap_singleton, bytes_of_endError hcall]
  · intro n before chunks rest hrun
    have hsuffix := receiveRawMessages_suffix hvalid hrun
    have hpieces : Pieces chunks := by
      intro c hc
      exact hvalid.of_suffix hsuffix (.data c) (List.mem_append_left _ (List.mem_map_of_mem hc))
    exact receiveRawMessages_beforeClose hpieces (h.of_suffix hsuffix)

/-- **Errors lose nothing** exactly when every full buffer has more data
right behind it. -/
theorem errors_lose_nothing_iff {calls : List Recv} (hvalid : ValidRecvs calls) :
    ErrorsLoseNothing calls ↔ FullContinued calls := by
  constructor
  · intro h
    exact h.fullContinued hvalid
  · intro h
    exact h.errorsLoseNothing hvalid

/-- A message longer than the buffer, and then an error. -/
theorem errors_lose_nothing_iff_long :
    let calls : List Recv := [.data (List.replicate 1024 48), .data (bytes "b"), .failed 10054]
    ErrorsLoseNothing calls ↔ FullContinued calls :=
  errors_lose_nothing_iff (by decide +kernel)

/-- A message as long as the buffer is lost to the end of the connection
behind it. -/
theorem full_buffer_lost :
    ¬ ∀ calls : List Recv, ValidRecvs calls → ErrorsLoseNothing calls := by
  intro h
  obtain ⟨chunk, hchunk⟩ : ∃ chunk : Bytes, chunk.length = chunkSize :=
    ⟨List.replicate chunkSize 48, List.length_replicate⟩
  have hvalid : ValidRecvs [.data chunk, .closed] := by
    rw [ValidRecvs, List.forall_mem_cons]
    exact ⟨⟨by rw [hchunk]; decide, Nat.le_of_eq hchunk⟩, by decide⟩
  have hend : receiveRawMessage ([.data chunk, .closed] ++ [])
      = some (.error (makeErrcCode errcConnectionReset), []) := by
    have hfull : ∀ c ∈ [chunk], c.length = chunkSize := by simpa using hchunk
    exact receiveRawMessage_end hfull rfl []
  have hnone := (h _ hvalid).consumed 0 [] _ [] _ _ rfl hend rfl
  have hnil : chunk = [] := by simpa [Recv.bytes] using hnone
  rw [hnil] at hchunk
  exact absurd hchunk (by decide)

end Pine
