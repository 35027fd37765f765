import Pine.Net.Bodies
import Pine.Net.RawMessages
import Pine.Server.Registry

/-!
# Server — Serving

The accept loop over connections on which something arrives. `start` of a
client is called and its result is asked for on the thread of the loop,
inside the mutex. Its body calls `receive_request`, that body calls
`receive_raw_message`, and `recv` blocks: the pass takes the first message
of its client, however that ends, and what it gets of it is
`operation_canceled` (`startPass_eq`). So the server serves one client
after the other, each of them for one message, and one that does not end
its first message is the last one (`serves_one_at_a_time`).
-/

namespace Pine

open Transition

/-! ## A coroutine on the thread that calls it -/

/-- A body that awaits an operation which is complete when the call of it
comes back. The tasks in the pool take no part. -/
def Awaiting.runOn {β α : Type} (co : Coroutine β α) (operation : PromiseType β) :
    Option (Awaiting β α) :=
  (system co fun _ => .throws).runFrom { inner := { operation, completed := true } }
    [.inner .awaitReady, .inner .awaitResume, .proceed]

/-- A call of `receive_raw_message`: the operation it returns, and the
results of `recv` that are left. It is `none` while `recv` blocks. -/
def callReceiveRawMessage (calls : List Recv) : Option (PromiseType Bytes × List Recv) :=
  (receiveRawMessage calls).bind fun r =>
    match PromiseType.complete {} (.returns r.1) with
    | .ok operation => some (operation, r.2)
    | .error _ => none

/-- A call of `receive_request`. -/
def callReceiveRequest (calls : List Recv) : Option (PromiseType HttpRequest × List Recv) :=
  (callReceiveRawMessage calls).bind fun r =>
    (Awaiting.runOn Coroutine.receiveRequest r.1).map fun s => (s.outer, r.2)

theorem callReceiveRawMessage_eq (calls : List Recv) :
    callReceiveRawMessage calls = (receiveRawMessage calls).map fun r =>
      ({ promise := { value := some r.1.result } }, r.2) := by
  rw [callReceiveRawMessage]
  cases receiveRawMessage calls <;> rfl

/-- **The thread gets the exception**, whatever is stored. -/
theorem Awaiting.runOn_eq {β α : Type} (co : Coroutine β α) (result : Expected β) :
    ∃ s, runOn co { promise := { value := some result } } = some s ∧ s.ended = true ∧
      s.outer = { promise := { value := some canceled } } :=
  ⟨_, rfl, rfl, rfl⟩

theorem callReceiveRequest_eq (calls : List Recv) :
    callReceiveRequest calls = (receiveRawMessage calls).map fun r =>
      ({ promise := { value := some Awaiting.canceled } }, r.2) := by
  rw [callReceiveRequest, callReceiveRawMessage_eq]
  cases receiveRawMessage calls with
  | none => rfl
  | some r =>
      obtain ⟨s, hrun, _, houter⟩ := Awaiting.runOn_eq Coroutine.receiveRequest r.1.result
      rw [Option.map_some, Option.bind_some, hrun, Option.map_some, houter]
      rfl

theorem callReceiveRequest_lt {calls rest : List Recv} {operation : PromiseType HttpRequest}
    (h : callReceiveRequest calls = some (operation, rest)) : rest.length < calls.length := by
  rw [callReceiveRequest_eq] at h
  obtain ⟨⟨received, rest'⟩, hraw, heq⟩ := Option.map_eq_some_iff.mp h
  cases heq
  exact receiveLoop_lt hraw

/-- A call of `start`, with its loop. -/
def callStart (calls : List Recv) : Option (PromiseType Unit × List Recv) :=
  match _h : callReceiveRequest calls with
  | none => none
  | some (operation, rest) =>
      match Awaiting.runOn Coroutine.start operation with
      | none => none
      | some s => if s.ended then some (s.outer, rest) else callStart rest
termination_by calls.length
decreasing_by exact callReceiveRequest_lt _h

/-- `client->start().await_resume()`. -/
def startPass (calls : List Recv) : Option (Expected Unit × List Recv) :=
  (callStart calls).bind fun r =>
    match r.1.promise.getFuture with
    | .ok promise => promise.value.map fun result => (result, r.2)
    | .error _ => none

/-- **One message and no more**: the pass takes what
`receive_raw_message` takes, and the loop of `start` does not come
round. -/
theorem startPass_eq (calls : List Recv) :
    startPass calls = (receiveRawMessage calls).map fun r => (Awaiting.canceled, r.2) := by
  have hrequest := callReceiveRequest_eq calls
  rw [startPass, callStart]
  cases hraw : receiveRawMessage calls with
  | none =>
      rw [hraw, Option.map_none] at hrequest
      split
      · rfl
      · next h => cases hrequest.symm.trans h
  | some r =>
      rw [hraw, Option.map_some] at hrequest
      split
      · next h => cases hrequest.symm.trans h
      · next h =>
        cases hrequest.symm.trans h
        rfl

/-! ## The end of a first message -/

/-- A result of `recv` that fills the buffer. -/
def Recv.Full : Recv → Prop
  | .data chunk => chunk.length = chunkSize
  | _ => False

/-- Nothing that `recv` returns ends the first message. -/
def NeverEnds (calls : List Recv) : Prop := ∀ call ∈ calls, call.Full

theorem NeverEnds.exists_chunks {calls : List Recv} (h : NeverEnds calls) :
    ∃ chunks : List Bytes, calls = chunks.map .data ∧ ∀ c ∈ chunks, c.length = chunkSize := by
  induction calls with
  | nil => exact ⟨[], rfl, List.forall_mem_nil _⟩
  | cons call calls ih =>
      obtain ⟨hcall, hcalls⟩ := List.forall_mem_cons.mp h
      obtain ⟨chunks, rfl, hchunks⟩ := ih hcalls
      cases call with
      | data chunk => exact ⟨chunk :: chunks, rfl, List.forall_mem_cons.mpr ⟨hcall, hchunks⟩⟩
      | closed => exact hcall.elim
      | failed _ => exact hcall.elim

theorem receiveLoop_none {buffer message : Bytes} {calls : List Recv} (hvalid : ValidRecvs calls)
    (hbuffer : buffer.length = chunkSize) (h : receiveLoop buffer message calls = none) :
    NeverEnds calls := by
  induction calls generalizing buffer message with
  | nil => exact List.forall_mem_nil _
  | cons call calls ih =>
      obtain ⟨hcall, hcalls⟩ := List.forall_mem_cons.mp hvalid
      cases hend : call.endError with
      | some e =>
          rw [receiveLoop_end hend] at h
          cases h
      | none =>
          obtain ⟨chunk, rfl⟩ := endError_eq_none_iff.mp hend
          obtain ⟨hpos, hle⟩ := hcall
          rw [receiveLoop_data hbuffer hpos hle] at h
          split at h
          · cases h
          · have hfull : chunk.length = chunkSize := by omega
            exact List.forall_mem_cons.mpr ⟨hfull, ih hcalls (length_fill hbuffer hle) h⟩

/-- `receive_raw_message` blocks while every result fills its buffer. -/
theorem receiveRawMessage_eq_none_iff {calls : List Recv} (hvalid : ValidRecvs calls) :
    receiveRawMessage calls = none ↔ NeverEnds calls := by
  constructor
  · exact receiveLoop_none hvalid List.length_replicate
  · intro h
    obtain ⟨chunks, rfl, hchunks⟩ := h.exists_chunks
    exact receiveRawMessage_full hchunks

/-- The error that a pass gets. -/
def passError : ErrorCode := makeErrcCode errcOperationCanceled

/-- The pass of a client ends as soon as its first message does. -/
theorem startPass_of_ends {calls : List Recv} (hvalid : ValidRecvs calls) (h : ¬ NeverEnds calls) :
    ∃ rest, startPass calls = some (.error passError, rest) := by
  rw [← receiveRawMessage_eq_none_iff hvalid] at h
  obtain ⟨⟨received, rest⟩, hraw⟩ := Option.ne_none_iff_exists'.mp h
  refine ⟨rest, ?_⟩
  rw [startPass_eq, hraw]
  rfl

theorem startPass_of_neverEnds {calls : List Recv} (hvalid : ValidRecvs calls)
    (h : NeverEnds calls) : startPass calls = none := by
  rw [startPass_eq, (receiveRawMessage_eq_none_iff hvalid).mpr h]
  rfl

/-! ## The server over its connections -/

namespace Registry

section serving
variable (streams : Nat → List Recv)

/-- `start` of client `c` ends when its body does, over the results of
`recv` on its connection. -/
def fed (s : Registry) : Action → Bool
  | .startEnds e =>
      match s.loop with
      | .starting c =>
          match startPass (streams c) with
          | some (.error e', _) => e = e'
          | _ => false
      | _ => false
  | _ => true

/-- The server, where `recv` returns the results of `streams c` on the
connection of client `c`. -/
def serving : System Registry Action := system.guarded fun s a => fed streams s a = true

/-- Everybody whose pass is over has ended a message, and got the same
error for it. -/
structure Served (s : Registry) : Prop where
  others : ∀ c, c < s.connections.length → s.loop.client ≠ some c → ¬ NeverEnds (streams c)
  ended : ∀ c r, s.loop = .ended c r → r = .error passError ∧ ¬ NeverEnds (streams c)

end serving

section serving
variable {streams : Nat → List Recv} {s s' : Registry}

theorem fed_startEnds {c : Nat} {e : ErrorCode} (hloop : s.loop = .starting c) :
    fed streams s (.startEnds e) = true ↔
      ∃ rest, startPass (streams c) = some (.error e, rest) := by
  simp only [fed, hloop]
  split
  · next e' rest h =>
    rw [h]
    simp [eq_comm]
  · next h =>
    refine iff_of_false Bool.false_ne_true ?_
    intro hends
    obtain ⟨rest, hpass⟩ := hends
    exact h e rest hpass

/-- What `start` of a client ends with. -/
theorem passError_of_fed {c : Nat} {e : ErrorCode} (hvalid : ValidRecvs (streams c))
    (hloop : s.loop = .starting c) (hfed : fed streams s (.startEnds e) = true) :
    e = passError ∧ ¬ NeverEnds (streams c) := by
  obtain ⟨rest, hpass⟩ := (fed_startEnds hloop).mp hfed
  have hends : ¬ NeverEnds (streams c) := by
    intro hnever
    rw [startPass_of_neverEnds hvalid hnever] at hpass
    cases hpass
  obtain ⟨rest', hpass'⟩ := startPass_of_ends hvalid hends
  rw [hpass'] at hpass
  cases hpass
  exact ⟨rfl, hends⟩

/-- A step that is not one of the pass leaves the loop where it is. -/
theorem stays_starting {c : Nat} {a : Action} (hloop : s.loop = .starting c)
    (hfed : ∀ e, fed streams s (.startEnds e) = false)
    (h : (serving streams).step s a = some s') :
    s'.loop = .starting c ∧ s'.connections.length = s.connections.length := by
  obtain ⟨hallowed, hstep⟩ := System.guarded_step_eq_some.mp h
  cases step_cases hstep with
  | check hat => cases hloop.symm.trans hat
  | acceptFails hat => cases hloop.symm.trans hat
  | accept hat _ => cases hloop.symm.trans hat
  | insert hat _ => cases hloop.symm.trans hat
  | startClient hat => cases hloop.symm.trans hat
  | @startEnds _ e _ => exact absurd hallowed (by rw [hfed e]; exact Bool.false_ne_true)
  | erase hat _ => cases hloop.symm.trans hat
  | keep hat => cases hloop.symm.trans hat
  | disconnectUnknown hfree _ =>
      rw [hloop] at hfree
      cases hfree
  | disconnectClient hfree _ =>
      rw [hloop] at hfree
      cases hfree
  | callStop => exact ⟨hloop, rfl⟩
  | flag _ => exact ⟨hloop, rfl⟩
  | closeServerSocket _ => exact ⟨hloop, rfl⟩
  | closeClients _ => exact ⟨(closeAll_loop _).trans hloop, length_closeAll _⟩
  | clear _ => exact ⟨hloop, rfl⟩

/-- **Who waits for a client that never ends its message waits for
good.** -/
theorem stays_starting_run {c : Nat} (hvalid : ValidRecvs (streams c))
    (hnever : NeverEnds (streams c)) (hloop : s.loop = .starting c) {as : List Action}
    (hrun : (serving streams).runFrom s as = some s') :
    s'.loop = .starting c ∧ s'.connections.length = s.connections.length := by
  apply System.runFrom_induction (P := fun t => t.loop = .starting c ∧
    t.connections.length = s.connections.length) ?_ hrun ⟨hloop, rfl⟩
  intro t a t' hstep hkept
  obtain ⟨ht, hlen⟩ := hkept
  have hblocked : ∀ e, fed streams t (.startEnds e) = false := by
    intro e
    rw [Bool.eq_false_iff]
    intro hfed
    exact (passError_of_fed hvalid ht hfed).2 hnever
  obtain ⟨ht', hlen'⟩ := stays_starting ht hblocked hstep
  exact ⟨ht', hlen'.trans hlen⟩

/-- The pass goes on with the client it has. -/
theorem Served.sameClient (h : Served streams s) (hclient : s'.loop.client = s.loop.client)
    (hlen : s'.connections.length = s.connections.length)
    (hended : ∀ c r, s'.loop = .ended c r → r = .error passError ∧ ¬ NeverEnds (streams c)) :
    Served streams s' := by
  refine ⟨?_, hended⟩
  intro c hlt hne
  rw [hclient] at hne
  rw [hlen] at hlt
  exact h.others c hlt hne

/-- A step that changes neither the loop nor what was accepted. -/
theorem Served.frame (h : Served streams s) (hloop : s'.loop = s.loop)
    (hlen : s'.connections.length = s.connections.length) : Served streams s' := by
  refine h.sameClient (congrArg Loop.client hloop) hlen ?_
  rw [hloop]
  exact h.ended

/-- The pass is over. -/
theorem Served.over (h : Served streams s) {c : Nat} {r : Expected Unit}
    (hloop : s.loop = .ended c r) (hchecking : s'.loop = .checking)
    (hlen : s'.connections.length = s.connections.length) : Served streams s' := by
  constructor
  · intro c' hlt _
    rw [hlen] at hlt
    by_cases hcurrent : c' = c
    · rw [hcurrent]
      exact (h.ended c r hloop).2
    · refine h.others c' hlt ?_
      rw [hloop]
      intro hc
      cases hc
      exact hcurrent rfl
  · intro c' r' hended
    rw [hchecking] at hended
    cases hended

theorem Served.step {a : Action} (hvalid : ∀ c, ValidRecvs (streams c)) (h : Served streams s)
    (hstep : (serving streams).step s a = some s') : Served streams s' := by
  obtain ⟨hallowed, hstep⟩ := System.guarded_step_eq_some.mp hstep
  cases step_cases hstep with
  | check hloop =>
      refine h.sameClient ?_ rfl ?_
      · rw [hloop]
        split <;> rfl
      · intro c r hended
        split at hended <;> cases hended
  | acceptFails hloop =>
      exact h.sameClient (by rw [hloop]; rfl) rfl (fun _ _ hended => by cases hended)
  | accept hloop _ =>
      -- the new client is the one of the pass, all others are as before
      refine ⟨?_, fun _ _ hended => by cases hended⟩
      intro c hlt hne
      have hc : c ≠ s.connections.length := fun heq => hne (congrArg some heq.symm)
      simp only [length_connect] at hlt
      refine h.others c (by omega) ?_
      rw [hloop]
      intro hnone
      cases hnone
  | insert hloop _ =>
      exact h.sameClient (by rw [hloop]; rfl) rfl (fun _ _ hended => by cases hended)
  | startClient hloop =>
      exact h.sameClient (by rw [hloop]; rfl) rfl (fun _ _ hended => by cases hended)
  | @startEnds c e hloop =>
      obtain ⟨rfl, hends⟩ := passError_of_fed (hvalid c) hloop hallowed
      refine h.sameClient (by rw [hloop]; rfl) rfl ?_
      intro c' r hended
      cases hended
      exact ⟨rfl, hends⟩
  | erase hloop _ => exact h.over hloop rfl rfl
  | keep hloop => exact h.over hloop rfl rfl
  | disconnectUnknown _ _ => exact h
  | disconnectClient _ _ => exact h.frame rfl (length_close _)
  | callStop => exact h.frame rfl rfl
  | flag _ => exact h.frame rfl rfl
  | closeServerSocket _ => exact h.frame rfl rfl
  | closeClients _ => exact h.frame (closeAll_loop _) (length_closeAll _)
  | clear _ => exact h.frame rfl rfl

theorem served_of_reachable (hvalid : ∀ c, ValidRecvs (streams c))
    (h : (serving streams).Reachable s) : Served streams s := by
  apply h.induction (P := Served streams)
  · exact ⟨fun c hlt => absurd hlt (Nat.not_lt_zero c), fun _ _ hended => by cases hended⟩
  · intro s a s' _ hs hstep
    exact hs.step hvalid hstep

end serving

/-- **One client at a time, one message each.** Every client but the one
in its pass has ended a first message, and a pass that is over has taken
that message off the connection and has the error `operation_canceled` for
it. And the server gets on behind a client if and only if `recv` returns
something on its connection that does not fill the buffer, the end of a
message or an error, as it does behind the close of a `stop`: until then
nobody else is accepted and the mutex is held. -/
theorem serves_one_at_a_time {streams : Nat → List Recv} (hvalid : ∀ c, ValidRecvs (streams c))
    {s : Registry} (h : (serving streams).Reachable s) :
    (∀ c, c < s.connections.length → s.loop.client ≠ some c → ¬ NeverEnds (streams c)) ∧
    (∀ c r, s.loop = .ended c r → ∃ received rest,
      receiveRawMessage (streams c) = some (received, rest) ∧
        startPass (streams c) = some (r, rest) ∧ r = .error passError) ∧
    ∀ c, s.loop = .starting c →
      ((∃ as t, (serving streams).runFrom s as = some t ∧
          (t.loop ≠ .starting c ∨ t.connections.length ≠ s.connections.length)) ↔
        ¬ NeverEnds (streams c)) := by
  have hserved := served_of_reachable hvalid h
  refine ⟨hserved.others, ?_, ?_⟩
  · intro c r hended
    obtain ⟨rfl, hends⟩ := hserved.ended c r hended
    rw [← receiveRawMessage_eq_none_iff (hvalid c)] at hends
    obtain ⟨⟨received, rest⟩, hraw⟩ := Option.ne_none_iff_exists'.mp hends
    refine ⟨received, rest, hraw, ?_, rfl⟩
    rw [startPass_eq, hraw]
    rfl
  · intro c hloop
    constructor
    · intro hmoves hnever
      obtain ⟨as, t, hrun, hmoved⟩ := hmoves
      obtain ⟨ht, hlen⟩ := stays_starting_run (hvalid c) hnever hloop hrun
      exact hmoved.elim (· ht) (· hlen)
    · intro hends
      obtain ⟨rest, hpass⟩ := startPass_of_ends (hvalid c) hends
      have hstep : (serving streams).step s (.startEnds passError)
          = some { s with loop := .ended c (.error passError) } := by
        refine System.guarded_step_eq_some.mpr ⟨(fed_startEnds hloop).mpr ⟨rest, hpass⟩, ?_⟩
        show Registry.step s (.startEnds passError) = _
        simp only [Registry.step, hloop]
        rfl
      refine ⟨[.startEnds passError], _, System.runFrom_cons_eq_some.mpr ⟨_, hstep, rfl⟩, .inl ?_⟩
      intro hstill
      cases hstill

/-- A client that has sent a part of its message, in its pass. -/
theorem serves_one_at_a_time_started :
    let streams : Nat → List Recv := fun _ => [.data (bytes "GET / HTTP/1.1\r\n"), .closed]
    let s : Registry :=
      { connections := [{ id := 7, socket := some 0 }],
        clients := SortedMap.empty.insertOrAssign 7 0, loop := .starting 0 }
    (∀ c, c < s.connections.length → s.loop.client ≠ some c → ¬ NeverEnds (streams c)) ∧
    (∀ c r, s.loop = .ended c r → ∃ received rest,
      receiveRawMessage (streams c) = some (received, rest) ∧
        startPass (streams c) = some (r, rest) ∧ r = .error passError) ∧
    ∀ c, s.loop = .starting c →
      ((∃ as t, (serving streams).runFrom s as = some t ∧
          (t.loop ≠ .starting c ∨ t.connections.length ≠ s.connections.length)) ↔
        ¬ NeverEnds (streams c)) :=
  serves_one_at_a_time (fun _ => by decide) ⟨[.check, .accept 7, .insert, .startClient], rfl⟩

end Registry

end Pine
