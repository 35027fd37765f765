import Pine.Net.RawMessages
import Pine.Net.Sending
import Pine.Base.Termination

/-!
# Net — Link

One direction of a connection: one end calls `send_raw_message`, the other
`receive_raw_message`, call after call, and what `send` has accepted is on
the way until some `recv` returns it. Whatever the order of the calls and
the sizes of the pieces, no byte is lost between the two ends, none comes
twice and none overtakes another: what the receives took and what is on
the way is what the sends put there (`link_conserves`).

The bytes are kept, the messages are not. Even if nothing is sent before
the message in front of it has been received, and `recv` returns all there
is, a message comes back as it was sent exactly when its length is no
multiple of the buffer's (`lockstep_completes_iff`).
-/

namespace Pine

open Transition

namespace Link

structure State where
  /-- The messages sent so far, each with what `send` made of it. -/
  sends : List (Bytes × Send) := []
  /-- The bytes that `send` has accepted and no `recv` returned. -/
  inFlight : Bytes := []
  /-- The sender has closed its connection. -/
  closed : Bool := false
  /-- The results of `recv` that the receive under way has taken. -/
  taken : List Recv := []
  /-- The same of the receives that have ended. -/
  ended : List (List Recv) := []
  deriving DecidableEq

inductive Action where
  /-- A call of `send_raw_message`, before the `close`. -/
  | send (message : Bytes) (call : Send)
  | close
  /-- `recv` returns `n` bytes. -/
  | recv (n : Nat)
  /-- `recv` returns zero. -/
  | recvEnd
  | recvFails (lastError : Int)
  deriving DecidableEq

/-- The part of the message that `send` has accepted. -/
def accepted (sent : Bytes × Send) : Bytes := sent.1.take sent.2.ret.toNat

/-- The receive under way gets the result, and the next one begins when
that ends it. -/
def State.take (s : State) (call : Recv) : State :=
  match receiveRawMessage (s.taken ++ [call]) with
  | none => { s with taken := s.taken ++ [call] }
  | some _ => { s with taken := [], ended := s.ended ++ [s.taken ++ [call]] }

def step (s : State) : Action → Option State
  | .send message call =>
      if s.closed = false ∧ call.Valid (intOfSize message.length) then
        some { s with
          sends := s.sends ++ [(message, call)]
          inFlight := s.inFlight ++ accepted (message, call) }
      else none
  | .close => some { s with closed := true }
  | .recv n =>
      if 0 < n ∧ n ≤ chunkSize ∧ n ≤ s.inFlight.length then
        some ({ s with inFlight := s.inFlight.drop n }.take (.data (s.inFlight.take n)))
      else none
  | .recvEnd => if s.closed ∧ s.inFlight = [] then some (s.take .closed) else none
  | .recvFails lastError => some (s.take (.failed lastError))

def system : System State Action where
  init := {}
  step := step

/-! ## One receive -/

/-- What a receive that got these results has returned: all their bytes,
or the error behind full buffers. -/
def Ended (call : List Recv) : Prop :=
  ∃ r, receiveRawMessage call = some (r, []) ∧
    (r.result = .ok (call.flatMap Recv.bytes) ∨
      ∃ (full : List Bytes) (last : Recv) (e : ErrorCode), call = full.map .data ++ [last] ∧
        (∀ c ∈ full, c.length = chunkSize) ∧ last.endError = some e ∧ r.result = .error e)

section receive
variable {s : State} {full : List Bytes} {call : Recv}

theorem flatMap_bytes_data (pieces : List Bytes) :
    (pieces.map Recv.data).flatMap Recv.bytes = pieces.flatten := by
  rw [List.flatMap_map]
  exact List.flatMap_id

/-- A full buffer keeps the receive going. -/
theorem take_full {chunk : Bytes} (htaken : s.taken = full.map .data)
    (hfull : ∀ c ∈ full, c.length = chunkSize) (hchunk : chunk.length = chunkSize) :
    s.take (.data chunk) = { s with taken := (full ++ [chunk]).map .data } := by
  have hmap : full.map Recv.data ++ [.data chunk] = (full ++ [chunk]).map .data := by simp
  have hfull' : ∀ c ∈ full ++ [chunk], c.length = chunkSize :=
    List.forall_mem_append.mpr ⟨hfull, List.forall_mem_singleton.mpr hchunk⟩
  have hwaits := receiveRawMessage_full hfull'
  rw [State.take, htaken, hmap, hwaits]

/-- Part of a buffer ends the receive with all that was taken. -/
theorem take_short {chunk : Bytes} (htaken : s.taken = full.map .data)
    (hfull : ∀ c ∈ full, c.length = chunkSize) (hpos : 0 < chunk.length)
    (hlt : chunk.length < chunkSize) :
    s.take (.data chunk)
        = { s with taken := [], ended := s.ended ++ [(full ++ [chunk]).map .data] } ∧
      receiveRawMessage ((full ++ [chunk]).map .data)
        = some (.value (full.flatten ++ chunk), []) := by
  have hmap : full.map Recv.data ++ [.data chunk] = (full ++ [chunk]).map .data := by simp
  obtain ⟨hdelivery, hpieces⟩ := delivery_concat hfull hpos hlt
  have hreturns := receiveRawMessage_delivery hdelivery hpieces []
  rw [List.append_nil] at hreturns
  exact ⟨by rw [State.take, htaken, hmap, hreturns], hreturns⟩

/-- A result without data ends the receive with an error. -/
theorem take_end {e : ErrorCode} (htaken : s.taken = full.map .data)
    (hfull : ∀ c ∈ full, c.length = chunkSize) (hcall : call.endError = some e) :
    s.take call = { s with taken := [], ended := s.ended ++ [full.map .data ++ [call]] } ∧
      Ended (full.map .data ++ [call]) := by
  have hreturns := receiveRawMessage_end hfull hcall []
  refine ⟨by rw [State.take, htaken, hreturns], _, hreturns, .inr ?_⟩
  exact ⟨full, call, e, rfl, hfull, hcall, rfl⟩

end receive

/-! ## No byte is lost -/

/-- `send` did what it can do; what was taken and what is on the way is
what was accepted; the receive under way has taken full buffers, and the
others have ended. -/
structure Conserved (s : State) : Prop where
  valid : ∀ sent ∈ s.sends, sent.2.Valid (intOfSize sent.1.length)
  stream : s.sends.flatMap accepted = (s.ended.flatten ++ s.taken).flatMap Recv.bytes ++ s.inFlight
  waiting : ∃ full : List Bytes, s.taken = full.map .data ∧ ∀ c ∈ full, c.length = chunkSize
  ended : ∀ call ∈ s.ended, Ended call

section Conserved
variable {s s' : State}

/-- The receive under way gets a result, with its bytes from what is on
the way. -/
theorem Conserved.take {call : Recv} {inFlight : Bytes} (h : Conserved s) (hvalid : call.Valid)
    (hstream : s.inFlight = call.bytes ++ inFlight) :
    Conserved ({ s with inFlight }.take call) := by
  obtain ⟨full, htaken, hfull⟩ := h.waiting
  have hbytes : s.sends.flatMap accepted
      = ((s.ended.flatten ++ s.taken) ++ [call]).flatMap Recv.bytes ++ inFlight := by
    rw [h.stream, hstream]
    simp
  cases hcall : call.endError with
  | some e =>
      obtain ⟨heq, hended⟩ := take_end (s := { s with inFlight }) htaken hfull hcall
      rw [heq]
      refine ⟨h.valid, ?_, ⟨[], rfl, List.forall_mem_nil _⟩, ?_⟩
      · rw [hbytes, htaken]
        simp
      · exact List.forall_mem_append.mpr ⟨h.ended, List.forall_mem_singleton.mpr hended⟩
  | none =>
      obtain ⟨chunk, rfl⟩ := endError_eq_none_iff.mp hcall
      obtain ⟨hpos, hle⟩ := hvalid
      by_cases hlt : chunk.length < chunkSize
      · obtain ⟨heq, hreturns⟩ := take_short (s := { s with inFlight }) htaken hfull hpos hlt
        rw [heq]
        refine ⟨h.valid, ?_, ⟨[], rfl, List.forall_mem_nil _⟩, ?_⟩
        · rw [hbytes, htaken]
          simp
        · refine List.forall_mem_append.mpr ⟨h.ended, List.forall_mem_singleton.mpr ?_⟩
          refine ⟨_, hreturns, .inl ?_⟩
          rw [flatMap_bytes_data]
          simp [CoReturn.result]
      · have hchunk : chunk.length = chunkSize := by omega
        rw [take_full (s := { s with inFlight }) htaken hfull hchunk]
        refine ⟨h.valid, ?_, ⟨full ++ [chunk], rfl, ?_⟩, h.ended⟩
        · rw [hbytes, htaken]
          simp
        · exact List.forall_mem_append.mpr ⟨hfull, List.forall_mem_singleton.mpr hchunk⟩

theorem Conserved.step {a : Action} (h : Conserved s) (hstep : system.step s a = some s') :
    Conserved s' := by
  cases a with
  | send message call =>
      obtain ⟨⟨_, hvalid⟩, hstep⟩ := Option.ite_none_right_eq_some.mp hstep
      cases hstep
      have hsent : ∀ sent ∈ s.sends ++ [(message, call)],
          sent.2.Valid (intOfSize sent.1.length) :=
        List.forall_mem_append.mpr ⟨h.valid, List.forall_mem_singleton.mpr hvalid⟩
      refine ⟨hsent, ?_, h.waiting, h.ended⟩
      rw [List.flatMap_append, h.stream, List.append_assoc]
      simp
  | close =>
      cases hstep
      exact ⟨h.valid, h.stream, h.waiting, h.ended⟩
  | recv n =>
      obtain ⟨⟨hpos, hle, hlen⟩, hstep⟩ := Option.ite_none_right_eq_some.mp hstep
      cases hstep
      apply h.take
      · have hmin : (s.inFlight.take n).length = n := List.length_take_of_le hlen
        exact ⟨by omega, by omega⟩
      · exact (List.take_append_drop n s.inFlight).symm
  | recvEnd =>
      obtain ⟨_, hstep⟩ := Option.ite_none_right_eq_some.mp hstep
      cases hstep
      exact h.take trivial rfl
  | recvFails lastError =>
      cases hstep
      exact h.take trivial rfl

theorem conserved_of_reachable (h : system.Reachable s) : Conserved s := by
  apply h.induction (P := Conserved)
  · exact ⟨List.forall_mem_nil _, rfl, ⟨[], rfl, List.forall_mem_nil _⟩, List.forall_mem_nil _⟩
  · intro s a s' _ ih hstep
    exact ih.step hstep

end Conserved

/-- A send that reports `success` has put its whole message on the way. -/
theorem accepted_of_success {message : Bytes} {call : Send}
    (hvalid : call.Valid (intOfSize message.length))
    (h : (sendRawMessage message call).result = .error (makeErrorCode .success)) :
    accepted (message, call) = message := by
  rw [result_sendRawMessage hvalid] at h
  by_cases hall : SentAll message call
  · rcases hall with rfl | hret
    · exact List.take_nil
    · rw [accepted, hret]
      exact List.take_length
  · -- the errors of a send that fell short are of another category
    rw [if_neg hall] at h
    injection h with hcode
    unfold Send.error at hcode
    split at hcode <;> cases congrArg ErrorCode.category hcode

/-- **No byte is lost, repeated or reordered between the two ends.** The
bytes that the receives took, in the order of the calls, and the bytes on
the way are the bytes that the sends put there, and a send that reports
`success` has put its whole message there. Each receive that has ended
returned all the bytes it took, or an error that came behind full buffers;
the one under way has taken full buffers only. -/
theorem link_conserves {s : State} (h : system.Reachable s) :
    s.sends.flatMap accepted = (s.ended.flatten ++ s.taken).flatMap Recv.bytes ++ s.inFlight ∧
    (∀ sent ∈ s.sends, (sendRawMessage sent.1 sent.2).result = .error (makeErrorCode .success) →
      accepted sent = sent.1) ∧
    (∀ call ∈ s.ended, Ended call) ∧
    ∃ full : List Bytes, s.taken = full.map .data ∧ ∀ c ∈ full, c.length = chunkSize := by
  have hconserved := conserved_of_reachable h
  refine ⟨hconserved.stream, ?_, hconserved.ended, hconserved.waiting⟩
  intro sent hsent hsuccess
  exact accepted_of_success (hconserved.valid sent hsent) hsuccess

/-- Two messages, the second cut short by `send`, of which the first has
been received together with the start of the second. -/
theorem link_conserves_coalesced :
    let s : State :=
      { sends := [(bytes "ab", ⟨2, 0⟩), (bytes "cde", ⟨2, 0⟩)], inFlight := bytes "d",
        ended := [[.data (bytes "abc")]] }
    s.sends.flatMap accepted = (s.ended.flatten ++ s.taken).flatMap Recv.bytes ++ s.inFlight ∧
    (∀ sent ∈ s.sends, (sendRawMessage sent.1 sent.2).result = .error (makeErrorCode .success) →
      accepted sent = sent.1) ∧
    (∀ call ∈ s.ended, Ended call) ∧
    ∃ full : List Bytes, s.taken = full.map .data ∧ ∀ c ∈ full, c.length = chunkSize :=
  link_conserves
    ⟨[.send (bytes "ab") ⟨2, 0⟩, .send (bytes "cde") ⟨2, 0⟩, .recv 3], by decide +kernel⟩

/-! ## One message at a time -/

/-- The message ends with a part of a buffer. -/
def endsShort (message : Bytes) : Bool := message.length % chunkSize ≠ 0

/-- The messages are sent in order, each when nothing is on the way and no
receive has taken a part of the one before; `send` takes all of it, and
`recv` returns all there is. Nobody closes, and nothing fails. -/
def prompt (messages : List Bytes) (s : State) : Action → Bool
  | .send message call =>
      messages[s.sends.length]? = some message ∧ s.inFlight = [] ∧ s.taken = [] ∧
        call.ret = message.length
  | .recv n => n = min chunkSize s.inFlight.length
  | _ => false

def lockstep (messages : List Bytes) : System State Action :=
  system.guarded fun s a => prompt messages s a = true

/-- What the receives have returned. -/
def State.results (s : State) : List (Expected Bytes) :=
  s.ended.filterMap fun call => (receiveRawMessage call).map fun r => r.1.result

/-- Nothing is under way, or a part of the last message is. The ones in
front of it have been received, but for those that do not end short. -/
inductive InStep (messages : List Bytes) (s : State) : Prop where
  | idle (sent rest : List Bytes) :
      messages = sent ++ rest → s.sends.length = sent.length → s.inFlight = [] → s.taken = [] →
      s.results = (sent.filter endsShort).map .ok → InStep messages s
  | busy (sent rest full : List Bytes) (message : Bytes) :
      messages = sent ++ message :: rest → s.sends.length = sent.length + 1 → message ≠ [] →
      message = full.flatten ++ s.inFlight → s.taken = full.map .data →
      (∀ c ∈ full, c.length = chunkSize) → s.results = (sent.filter endsShort).map .ok →
      InStep messages s

section lockstep
variable {messages : List Bytes} {s s' : State}

theorem endsShort_full_append {full : List Bytes} (h : ∀ c ∈ full, c.length = chunkSize)
    (rest : Bytes) : endsShort (full.flatten ++ rest) = endsShort rest := by
  induction full with
  | nil => rfl
  | cons c full ih =>
      obtain ⟨hc, hfull⟩ := List.forall_mem_cons.mp h
      have hlen : (c ++ (full.flatten ++ rest)).length
          = chunkSize + (full.flatten ++ rest).length := by
        rw [List.length_append, hc]
      rw [List.flatten_cons, List.append_assoc, ← ih hfull, endsShort, hlen, Nat.add_mod_left,
        endsShort]

theorem results_concat {call : List Recv} {r : CoReturn Bytes} {ended : List (List Recv)}
    {taken : List Recv} {inFlight : Bytes} (h : receiveRawMessage call = some (r, [])) :
    ({ s with ended := ended ++ [call], taken, inFlight } : State).results
      = ({ s with ended } : State).results ++ [r.result] := by
  simp [State.results, h]

/-- The next message is sent. -/
theorem InStep.send {message : Bytes} {call : Send} (h : InStep messages s)
    (hprompt : prompt messages s (.send message call) = true) :
    InStep messages { s with
      sends := s.sends ++ [(message, call)]
      inFlight := s.inFlight ++ accepted (message, call) } := by
  obtain ⟨hnext, hflight, htaken, hret⟩ := of_decide_eq_true hprompt
  have haccepted : accepted (message, call) = message := by
    rw [accepted, hret]
    exact List.take_length
  cases h with
  | idle sent rest hmessages hsends _ _ hresults =>
      rw [hmessages, hsends, List.getElem?_append_right (Nat.le_refl _), Nat.sub_self] at hnext
      cases rest with
      | nil => cases hnext
      | cons m rest =>
          obtain rfl := Option.some.inj hnext
          by_cases hnil : m = []
          · -- nothing is put on the way, and nothing will be received
            refine .idle (sent ++ [m]) rest (by simp [hmessages]) ?_ ?_ htaken ?_
            · simp [hsends]
            · rw [hflight, haccepted, hnil]
              rfl
            · show s.results = _
              rw [hresults, List.filter_append, hnil]
              simp [endsShort]
          · refine .busy sent rest [] m hmessages ?_ hnil ?_ htaken (List.forall_mem_nil _) hresults
            · simp [hsends]
            · rw [hflight, haccepted]
              rfl
  | busy _ _ _ _ _ _ hne hmessage htaken' _ _ =>
      rw [htaken, eq_comm, List.map_eq_nil_iff] at htaken'
      rw [htaken', hflight] at hmessage
      exact absurd hmessage hne

/-- A piece of the message is received: a full buffer, or the rest. -/
theorem InStep.recv {n : Nat} (h : InStep messages s) (hprompt : prompt messages s (.recv n) = true)
    (hpos : 0 < n) :
    InStep messages
      ({ s with inFlight := s.inFlight.drop n }.take (.data (s.inFlight.take n))) := by
  have hn : n = min chunkSize s.inFlight.length := of_decide_eq_true hprompt
  cases h with
  | idle _ _ _ _ hflight _ _ =>
      rw [hflight] at hn
      simp only [List.length_nil, Nat.min_zero] at hn
      omega
  | busy sent rest full message hmessages hsends hne hmessage htaken hfull hresults =>
      by_cases hlt : s.inFlight.length < chunkSize
      · have htake : s.inFlight.take n = s.inFlight := List.take_of_length_le (by omega)
        have hdrop : s.inFlight.drop n = [] := List.drop_of_length_le (by omega)
        rw [htake, hdrop]
        obtain ⟨heq, hreturns⟩ :=
          take_short (s := { s with inFlight := [] }) htaken hfull (by omega) hlt
        rw [heq]
        have hshort : endsShort message = true := by
          rw [hmessage, endsShort_full_append hfull]
          exact decide_eq_true (by rw [Nat.mod_eq_of_lt hlt]; omega)
        refine .idle (sent ++ [message]) rest (by simp [hmessages]) ?_ rfl rfl ?_
        · rw [List.length_append]
          exact hsends
        · rw [results_concat hreturns, hmessage.symm]
          show s.results ++ [.ok message] = _
          rw [hresults, List.filter_append, List.filter_singleton, hshort]
          simp
      · have hchunk : (s.inFlight.take n).length = chunkSize := by
          rw [List.length_take]
          omega
        rw [take_full (s := { s with inFlight := s.inFlight.drop n }) htaken hfull hchunk]
        refine .busy sent rest (full ++ [s.inFlight.take n]) message hmessages hsends hne ?_ rfl ?_
          hresults
        · rw [hmessage, List.flatten_append, List.append_assoc]
          simp
        · exact List.forall_mem_append.mpr ⟨hfull, List.forall_mem_singleton.mpr hchunk⟩

theorem inStep_of_reachable (h : (lockstep messages).Reachable s) : InStep messages s := by
  apply h.induction (P := InStep messages)
  · exact .idle [] messages rfl rfl rfl rfl rfl
  · intro s a s' _ ih hstep
    obtain ⟨hprompt, hstep⟩ := System.guarded_step_eq_some.mp hstep
    cases a with
    | send message call =>
        obtain ⟨_, hstep⟩ := Option.ite_none_right_eq_some.mp hstep
        cases hstep
        exact ih.send hprompt
    | recv n =>
        obtain ⟨⟨hpos, _⟩, hstep⟩ := Option.ite_none_right_eq_some.mp hstep
        cases hstep
        exact ih.recv hprompt hpos
    | _ => cases hprompt

theorem take_closed (call : Recv) : (s.take call).closed = s.closed := by
  unfold State.take
  split <;> rfl

theorem not_closed_of_reachable (h : (lockstep messages).Reachable s) : s.closed = false := by
  apply h.induction (P := fun s => s.closed = false)
  · rfl
  · intro s a s' _ ih hstep
    obtain ⟨hprompt, hstep⟩ := System.guarded_step_eq_some.mp hstep
    cases a with
    | send message call =>
        obtain ⟨_, hstep⟩ := Option.ite_none_right_eq_some.mp hstep
        cases hstep
        exact ih
    | recv n =>
        obtain ⟨_, hstep⟩ := Option.ite_none_right_eq_some.mp hstep
        cases hstep
        rw [take_closed]
        exact ih
    | _ => cases hprompt

/-- What is left to send, each message with a step of its own, and to
receive. -/
def left (messages : List Bytes) (s : State) : Nat :=
  ((messages.drop s.sends.length).map fun m => m.length + 1).sum + s.inFlight.length

theorem left_take (call : Recv) : left messages (s.take call) = left messages s := by
  unfold State.take
  split <;> rfl

theorem left_step {a : Action} (hstep : (lockstep messages).step s a = some s') :
    1 + left messages s' ≤ left messages s := by
  obtain ⟨hprompt, hstep⟩ := System.guarded_step_eq_some.mp hstep
  cases a with
  | send message call =>
      obtain ⟨_, hstep⟩ := Option.ite_none_right_eq_some.mp hstep
      cases hstep
      obtain ⟨hnext, _⟩ := of_decide_eq_true hprompt
      obtain ⟨hlt, hget⟩ := List.getElem?_eq_some_iff.mp hnext
      have hle : (accepted (message, call)).length ≤ message.length := List.length_take_le' _ _
      rw [left, left, List.drop_eq_getElem_cons hlt, hget]
      simp only [List.length_append, List.length_singleton, List.map_cons, List.sum_cons]
      omega
  | recv n =>
      obtain ⟨⟨hpos, _, hlen⟩, hstep⟩ := Option.ite_none_right_eq_some.mp hstep
      cases hstep
      rw [left_take]
      simp only [left, List.length_drop]
      omega
  | _ => cases hprompt

/-- `send` can take all of a message. -/
theorem send_enabled {message : Bytes} (hclosed : s.closed = false)
    (hlen : message.length < 2 ^ 31) :
    ∃ s', system.step s (.send message ⟨message.length, 0⟩) = some s' := by
  have hvalid : (Send.mk message.length 0).Valid (intOfSize message.length) := by
    refine .inr ⟨Int.natCast_nonneg _, ?_⟩
    show (message.length : Int) ≤ Int.bmod message.length (2 ^ 32)
    rw [Int.bmod_eq_of_le (by omega) (by omega)]
  exact ⟨_, if_pos ⟨hclosed, hvalid⟩⟩

/-- What is on the way can be received. -/
theorem recv_enabled (hflight : s.inFlight ≠ []) :
    ∃ s', system.step s (.recv (min chunkSize s.inFlight.length)) = some s' := by
  have hpos := List.length_pos_iff.mpr hflight
  have hchunk : 0 < chunkSize := by decide
  exact ⟨_, if_pos ⟨by omega, Nat.min_le_left _ _, Nat.min_le_right _ _⟩⟩

/-- The next message can be sent. -/
theorem send_step {message : Bytes} (hclosed : s.closed = false) (hlen : message.length < 2 ^ 31)
    (hnext : messages[s.sends.length]? = some message) (hflight : s.inFlight = [])
    (htaken : s.taken = []) :
    ∃ a s', (lockstep messages).step s a = some s' := by
  obtain ⟨s', hstep⟩ := send_enabled hclosed hlen
  exact ⟨.send message ⟨message.length, 0⟩, s', System.guarded_step_eq_some.mpr
    ⟨decide_eq_true ⟨hnext, hflight, htaken, rfl⟩, hstep⟩⟩

theorem recv_step (hflight : s.inFlight ≠ []) : ∃ a s', (lockstep messages).step s a = some s' := by
  obtain ⟨s', hstep⟩ := recv_enabled hflight
  exact ⟨.recv (min chunkSize s.inFlight.length), s', System.guarded_step_eq_some.mpr
    ⟨decide_eq_true rfl, hstep⟩⟩

/-- Where nothing can go on, everything was received. -/
theorem results_of_stuck (h : (lockstep messages).Reachable s)
    (hlen : ∀ m ∈ messages, m.length < 2 ^ 31) (hshort : ∀ m ∈ messages, endsShort m = true)
    (hstuck : ∀ a, (lockstep messages).step s a = none) : s.results = messages.map .ok := by
  have hnone : ¬ ∃ a s', (lockstep messages).step s a = some s' := by
    intro hany
    obtain ⟨a, s', hstep⟩ := hany
    rw [hstuck a] at hstep
    cases hstep
  cases inStep_of_reachable h with
  | idle sent rest hmessages hsends hflight htaken hresults =>
      cases rest with
      | nil =>
          rw [List.append_nil] at hmessages
          rw [hresults, ← hmessages, List.filter_eq_self.mpr hshort]
      | cons m rest =>
          have hmem : m ∈ messages := by
            rw [hmessages]
            exact List.mem_append_right _ List.mem_cons_self
          have hnext : messages[s.sends.length]? = some m := by
            rw [hmessages, hsends, List.getElem?_append_right (Nat.le_refl _), Nat.sub_self]
            rfl
          exact absurd
            (send_step (not_closed_of_reachable h) (hlen m hmem) hnext hflight htaken) hnone
  | busy sent rest full message hmessages _ _ hmessage _ hfull _ =>
      have hflight : s.inFlight = [] := by
        by_contra hne
        exact hnone (recv_step hne)
      have hmem : message ∈ messages := by
        rw [hmessages]
        exact List.mem_append_right _ List.mem_cons_self
      have hend := hshort message hmem
      rw [hmessage, hflight, endsShort_full_append hfull] at hend
      cases hend

/-- What has been received, of what was sent. -/
theorem InStep.results_inOrder (h : InStep messages s) :
    s.results <+: (messages.filter endsShort).map .ok := by
  cases h with
  | idle _ _ hmessages _ _ _ hresults =>
      rw [hmessages, hresults, List.filter_append, List.map_append]
      exact List.prefix_append _ _
  | busy _ _ _ _ hmessages _ _ _ _ _ hresults =>
      rw [hmessages, hresults, List.filter_append, List.map_append]
      exact List.prefix_append _ _

/-- As many results as messages: none of them fell out. -/
theorem InStep.all_endsShort (h : InStep messages s)
    (hcount : messages.length ≤ s.results.length) : ∀ m ∈ messages, endsShort m = true := by
  have hlength := h.results_inOrder.length_le
  rw [List.length_map] at hlength
  have hle := List.length_filter_le endsShort messages
  exact List.length_filter_eq_length_iff.mp (by omega)

/-- Messages that end short all come through. -/
theorem completes_of_endsShort (hlen : ∀ m ∈ messages, m.length < 2 ^ 31)
    (hshort : ∀ m ∈ messages, endsShort m = true) (h : (lockstep messages).Reachable s) :
    ∃ as t, (lockstep messages).runFrom s as = some t ∧ t.results = messages.map .ok := by
  have hamortized : (lockstep messages).Amortized (lockstep messages).Reachable (left messages)
      (fun _ => 1) (fun _ => 0) := fun _ _ _ hs hstep => ⟨hs.step hstep, left_step hstep⟩
  obtain ⟨as, t, hrun, _, hdone⟩ := hamortized.exists_run_to (fun _ => true)
    (fun _ _ => ⟨Nat.one_pos, rfl⟩)
    (fun t ht hstuck => results_of_stuck ht hlen hshort fun a => hstuck a rfl) h
  exact ⟨as, t, hrun, hdone⟩

end lockstep

/-- **One message at a time.** With one message on the way, and `recv`
returning all there is, nothing is received but messages as they were
sent, in order, and those of which the length is a multiple of 1024 never
are: the sender gets through all its messages, from wherever it is,
exactly when there is none of these. -/
theorem lockstep_completes_iff {messages : List Bytes} (hlen : ∀ m ∈ messages, m.length < 2 ^ 31) :
    (∀ s, (lockstep messages).Reachable s →
      s.results <+: (messages.filter endsShort).map .ok) ∧
    ((∀ s, (lockstep messages).Reachable s →
        ∃ as t, (lockstep messages).runFrom s as = some t ∧ t.results = messages.map .ok) ↔
      ∀ m ∈ messages, m.length % 1024 ≠ 0) := by
  have hends : (∀ m ∈ messages, m.length % 1024 ≠ 0) ↔ ∀ m ∈ messages, endsShort m = true := by
    exact forall₂_congr fun m _ => decide_eq_true_iff.symm
  refine ⟨fun s hs => (inStep_of_reachable hs).results_inOrder, ?_⟩
  rw [hends]
  constructor
  · intro h
    obtain ⟨as, t, hrun, hresults⟩ := h _ .init
    apply (inStep_of_reachable (System.Reachable.init.runFrom hrun)).all_endsShort
    rw [hresults, List.length_map]
  · intro hshort s hs
    exact completes_of_endsShort hlen hshort hs

/-- A short message, one of a full buffer and a bit, and one that fills
the buffer. -/
theorem lockstep_completes_iff_full :
    let messages : List Bytes :=
      [bytes "a", List.replicate 1030 (48 : UInt8), List.replicate 1024 (48 : UInt8)]
    (∀ s, (lockstep messages).Reachable s →
      s.results <+: (messages.filter endsShort).map .ok) ∧
    ((∀ s, (lockstep messages).Reachable s →
        ∃ as t, (lockstep messages).runFrom s as = some t ∧ t.results = messages.map .ok) ↔
      ∀ m ∈ messages, m.length % 1024 ≠ 0) :=
  lockstep_completes_iff (by decide +kernel)

end Link

end Pine
