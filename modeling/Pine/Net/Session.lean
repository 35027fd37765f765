import Pine.Net.Exchange

/-!
# Net — Session

A client and a server that talk in turns over the two directions of one
connection. The client sends a request and waits for its response before
the next one; the server answers every request it has received, with what
the application makes of it. The `co_await`s hand over their results, and
`recv` returns all there is. Then each direction is in step by itself
(`Direction`): the turns see to it that nothing is sent before the message
in front of it has come through. Every response the client receives is
the one to its own request, and the client gets all of them, from wherever
the session is, exactly when no text has a length that is a multiple of
the buffer's (`session_completes_iff`).
-/

namespace Pine

open Transition

namespace Link

/-! ## One direction, in turns -/

section counts
variable {messages : List Bytes} {s : State}

/-- As many results as sends: nothing is under way, and nothing fell
out. -/
theorem InStep.all_received (h : InStep messages s) (hcount : s.sends.length ≤ s.results.length) :
    s.inFlight = [] ∧ s.taken = [] ∧ ∀ m ∈ messages.take s.sends.length, endsShort m = true := by
  cases h with
  | idle sent rest hmessages hsends hflight htaken hresults =>
      refine ⟨hflight, htaken, ?_⟩
      rw [hresults, List.length_map, hsends] at hcount
      rw [hmessages, hsends, List.take_left]
      have hle := List.length_filter_le endsShort sent
      exact List.length_filter_eq_length_iff.mp (by omega)
  | busy sent rest full message _ hsends _ _ _ _ hresults =>
      rw [hresults, List.length_map, hsends] at hcount
      have hle := List.length_filter_le endsShort sent
      omega

/-- Where only the last message sent may have fallen out, the results are
the messages. -/
theorem InStep.results_whole (h : InStep messages s)
    (hfront : ∀ m ∈ messages.take (s.sends.length - 1), endsShort m = true) :
    s.results <+: messages.map .ok := by
  cases h with
  | idle sent rest hmessages hsends _ _ hresults =>
      cases sent using List.reverseRecOn with
      | nil =>
          rw [hresults]
          exact List.nil_prefix
      | append_singleton front last _ =>
          have hlen : s.sends.length - 1 = front.length := by simp [hsends]
          rw [hmessages, hlen, List.append_assoc, List.take_left] at hfront
          rw [hresults, hmessages, List.filter_append, List.filter_eq_self.mpr hfront,
            List.append_assoc, List.map_append, List.map_append, List.prefix_append_right_inj]
          rw [List.filter_singleton]
          cases endsShort last with
          | false => exact List.nil_prefix
          | true => exact List.prefix_append _ _
  | busy sent rest full message hmessages hsends _ _ _ _ hresults =>
      have hlen : s.sends.length - 1 = sent.length := by omega
      rw [hmessages, hlen, List.take_left] at hfront
      rw [hresults, hmessages, List.filter_eq_self.mpr hfront, List.map_append]
      exact List.prefix_append _ _

end counts

/-- One direction of a session: every message but the last one has come
through. -/
structure Direction (messages : List Bytes) (s : State) : Prop where
  lockstep : (lockstep messages).Reachable s
  front : ∀ m ∈ messages.take (s.sends.length - 1), endsShort m = true

namespace Direction

variable {messages : List Bytes} {s s' : State}

theorem init : Direction messages {} := ⟨.init, by simp⟩

theorem results (h : Direction messages s) : s.results <+: messages.map .ok :=
  (inStep_of_reachable h.lockstep).results_whole h.front

theorem results_le (h : Direction messages s) : s.results.length ≤ s.sends.length := by
  cases inStep_of_reachable h.lockstep with
  | idle sent _ _ hsends _ _ hresults =>
      rw [hresults, List.length_map, hsends]
      exact List.length_filter_le _ _
  | busy sent _ _ _ _ hsends _ _ _ _ hresults =>
      rw [hresults, List.length_map, hsends]
      exact Nat.le_succ_of_le (List.length_filter_le _ _)

/-- A message is sent when all in front of it have been received. -/
theorem send {message : Bytes} {call : Send} (h : Direction messages s)
    (hnext : messages[s.sends.length]? = some message) (hret : call.ret = message.length)
    (hcount : s.sends.length ≤ s.results.length)
    (hstep : Link.system.step s (.send message call) = some s') :
    Direction messages s' ∧ 1 + left messages s' ≤ left messages s ∧
      s'.sends.length = s.sends.length + 1 ∧ s'.ended = s.ended := by
  obtain ⟨hflight, htaken, hshort⟩ := (inStep_of_reachable h.lockstep).all_received hcount
  have hlockstep : (Link.lockstep messages).step s (.send message call) = some s' :=
    System.guarded_step_eq_some.mpr ⟨decide_eq_true ⟨hnext, hflight, htaken, hret⟩, hstep⟩
  obtain ⟨_, hstep⟩ := Option.ite_none_right_eq_some.mp hstep
  cases hstep
  have hsends : (s.sends ++ [(message, call)]).length = s.sends.length + 1 := List.length_append
  refine ⟨⟨h.lockstep.step hlockstep, ?_⟩, left_step hlockstep, hsends, rfl⟩
  show ∀ m ∈ messages.take ((s.sends ++ [(message, call)]).length - 1), endsShort m = true
  rw [hsends]
  exact hshort

theorem take_frame (call : Recv) :
    (s.take call).sends = s.sends ∧ s.ended <+: (s.take call).ended := by
  unfold State.take
  split
  · exact ⟨rfl, List.prefix_rfl⟩
  · exact ⟨rfl, List.prefix_append _ _⟩

/-- A piece is received. -/
theorem recv {n : Nat} (h : Direction messages s) (hn : n = min chunkSize s.inFlight.length)
    (hstep : Link.system.step s (.recv n) = some s') :
    Direction messages s' ∧ 1 + left messages s' ≤ left messages s ∧
      s'.sends = s.sends ∧ s.ended <+: s'.ended := by
  have hlockstep : (Link.lockstep messages).step s (.recv n) = some s' :=
    System.guarded_step_eq_some.mpr ⟨decide_eq_true hn, hstep⟩
  obtain ⟨_, hstep⟩ := Option.ite_none_right_eq_some.mp hstep
  cases hstep
  obtain ⟨hsends, hended⟩ := take_frame (s := { s with inFlight := s.inFlight.drop n })
    (.data (s.inFlight.take n))
  refine ⟨⟨h.lockstep.step hlockstep, ?_⟩, left_step hlockstep, hsends, hended⟩
  rw [hsends]
  exact h.front

/-- Where nothing is on the way and every message ends short, all that was
sent has been received. -/
theorem results_of_quiet (h : Direction messages s) (hshort : ∀ m ∈ messages, endsShort m = true)
    (hflight : s.inFlight = []) : s.results.length = s.sends.length := by
  cases inStep_of_reachable h.lockstep with
  | idle sent rest hmessages hsends _ _ hresults =>
      have hsent : ∀ m ∈ sent, endsShort m = true := by
        intro m hm
        exact hshort m (hmessages ▸ List.mem_append_left rest hm)
      rw [hresults, List.filter_eq_self.mpr hsent, List.length_map, hsends]
  | busy sent rest full message hmessages _ _ hmessage _ hfull _ =>
      have hmem : message ∈ messages := by
        rw [hmessages]
        exact List.mem_append_right _ List.mem_cons_self
      have hend := hshort message hmem
      rw [hmessage, hflight, endsShort_full_append hfull] at hend
      cases hend

end Direction

/-- What an end makes of the messages of a direction. -/
theorem readAll_prefix {α : Type} (side : Consumers.Side α) {text : α → Bytes} {values : List α}
    (hread : ∀ a ∈ values, (side.result (text a)).result = .ok a) {s : State}
    (h : Direction (values.map text) s) : readAll side s.results <+: values.map .ok := by
  have hvalues : readAll side ((values.map text).map .ok) = values.map .ok := by
    rw [readAll, List.map_map, List.map_map]
    exact List.map_congr_left hread
  rw [← hvalues]
  exact h.results.map _

theorem length_requests (s : State) : s.requests.length = s.results.length := by
  rw [requests_eq, readAll, List.length_map]

theorem length_requests_mono {s s' : State} (h : s.ended <+: s'.ended) :
    s.requests.length ≤ s'.requests.length := (h.filterMap _).length_le

theorem length_responses_mono {s s' : State} (h : s.ended <+: s'.ended) :
    s.responses.length ≤ s'.responses.length := (h.filterMap _).length_le

theorem length_responses (s : State) : s.responses.length = s.results.length := by
  rw [responses_eq, readAll, List.length_map]

end Link

/-! ## The session -/

/-- A connection in both directions. -/
structure Session where
  /-- From the client to the server. -/
  up : Link.State := {}
  /-- From the server to the client. -/
  down : Link.State := {}

namespace Session

inductive Action where
  | up (a : Link.Action)
  | down (a : Link.Action)

def step (s : Session) : Action → Option Session
  | .up a => (Link.system.step s.up a).map fun up => { s with up }
  | .down a => (Link.system.step s.down a).map fun down => { s with down }

section session
variable (handler : HttpRequest → HttpResponse) (requests : List HttpRequest)

/-- Whose turn it is. The client has a response for every request it has
sent when it sends the next one; the server sends what `handler` makes of
the first request it has not answered yet. `send` takes all of a message
and `recv` returns all there is; nobody closes, and nothing fails. -/
def turn (s : Session) : Action → Bool
  | .up (.send message call) =>
      requests[s.up.sends.length]?.map HttpRequest.toString = some message ∧
        s.down.responses.length = s.up.sends.length ∧ call.ret = message.length
  | .up (.recv n) => n = min chunkSize s.up.inFlight.length
  | .down (.send message call) =>
      match s.up.requests[s.down.sends.length]? with
      | some (.ok request) => message = (handler request).toString ∧ call.ret = message.length
      | _ => false
  | .down (.recv n) => n = min chunkSize s.down.inFlight.length
  | _ => false

/-- The client sends `requests`, and the server answers with `handler`. -/
def system : System Session Action :=
  System.guarded { init := {}, step } fun s a => turn handler requests s a = true

/-- The texts that are sent up, and those that are to come down. -/
def upTexts : List Bytes := requests.map HttpRequest.toString

def downTexts : List Bytes := (requests.map handler).map HttpResponse.toString

/-- Each direction is in step, and the two take turns. -/
structure Paired (s : Session) : Prop where
  up : Link.Direction (upTexts requests) s.up
  down : Link.Direction (downTexts handler requests) s.down
  turns : s.up.sends.length ≤ s.down.responses.length + 1
  answered : s.down.sends.length ≤ s.up.requests.length

/-- What is left to do in both directions. -/
def left (s : Session) : Nat :=
  Link.left (upTexts requests) s.up + Link.left (downTexts handler requests) s.down

end session

section session
variable {handler : HttpRequest → HttpResponse} {requests : List HttpRequest} {s s' : Session}

/-- The two sides of a step: the action of a direction, and its turn. -/
theorem step_cases {a : Action} (h : (system handler requests).step s a = some s') :
    turn handler requests s a = true ∧
      ((∃ b up, a = .up b ∧ Link.system.step s.up b = some up ∧ s' = { s with up }) ∨
        ∃ b down, a = .down b ∧ Link.system.step s.down b = some down ∧ s' = { s with down }) := by
  obtain ⟨hturn, hstep⟩ := System.guarded_step_eq_some.mp h
  refine ⟨hturn, ?_⟩
  cases a with
  | up b =>
      obtain ⟨up, hup, heq⟩ := Option.map_eq_some_iff.mp hstep
      exact .inl ⟨b, up, rfl, hup, heq.symm⟩
  | down b =>
      obtain ⟨down, hdown, heq⟩ := Option.map_eq_some_iff.mp hstep
      exact .inr ⟨b, down, rfl, hdown, heq.symm⟩

theorem Paired.requests_inOrder (h : Paired handler requests s)
    (hread : ∀ r ∈ requests, r.WellFormed) : s.up.requests <+: requests.map .ok := by
  rw [Link.requests_eq]
  exact Link.readAll_prefix Consumers.server (fun r hr => Link.result_requestOf (hread r hr)) h.up

theorem Paired.responses_inOrder (h : Paired handler requests s)
    (hread : ∀ r ∈ requests, (handler r).WellFormed) :
    s.down.responses <+: (requests.map handler).map .ok := by
  rw [Link.responses_eq]
  refine Link.readAll_prefix Consumers.client (fun r hr => Link.result_responseOf ?_) h.down
  obtain ⟨request, hmem, rfl⟩ := List.mem_map.mp hr
  exact hread request hmem

/-- Where the two are: nobody is ahead of the messages. -/
theorem Paired.counts (h : Paired handler requests s) :
    s.down.responses.length ≤ s.down.sends.length ∧ s.up.requests.length ≤ s.up.sends.length := by
  rw [Link.length_responses, Link.length_requests]
  exact ⟨h.down.results_le, h.up.results_le⟩

/-- The client's turn. -/
theorem Paired.sendUp {message : Bytes} {call : Send} {up : Link.State}
    (h : Paired handler requests s)
    (hturn : turn handler requests s (.up (.send message call)) = true)
    (hup : Link.system.step s.up (.send message call) = some up) :
    Paired handler requests { s with up } ∧
      1 + left handler requests { s with up } ≤ left handler requests s := by
  obtain ⟨hnext, hcount, hret⟩ := of_decide_eq_true hturn
  obtain ⟨hdown, _⟩ := h.counts
  have hanswered := h.answered
  have hnext' : (upTexts requests)[s.up.sends.length]? = some message := by
    rw [upTexts, List.getElem?_map]
    exact hnext
  have hreceived : s.up.sends.length ≤ s.up.results.length := by
    rw [← Link.length_requests]
    omega
  obtain ⟨hdirection, hless, hsends, hended⟩ := h.up.send hnext' hret hreceived hup
  have hmono := Link.length_requests_mono (hended ▸ List.prefix_rfl : s.up.ended <+: up.ended)
  refine ⟨⟨hdirection, h.down, ?_, Nat.le_trans hanswered hmono⟩, ?_⟩
  · show up.sends.length ≤ s.down.responses.length + 1
    omega
  · simp only [left]
    omega

/-- The server's turn. -/
theorem Paired.sendDown {message : Bytes} {call : Send} {down : Link.State}
    (hread : ∀ r ∈ requests, r.WellFormed) (h : Paired handler requests s)
    (hturn : turn handler requests s (.down (.send message call)) = true)
    (hdown : Link.system.step s.down (.send message call) = some down) :
    Paired handler requests { s with down } ∧
      1 + left handler requests { s with down } ≤ left handler requests s := by
  simp only [turn] at hturn
  split at hturn
  · next request hrequest =>
    obtain ⟨rfl, hret⟩ := of_decide_eq_true hturn
    obtain ⟨hlt, _⟩ := List.getElem?_eq_some_iff.mp hrequest
    obtain ⟨_, hup⟩ := h.counts
    have hturns := h.turns
    -- the request it answers is the one the client has sent
    have hsent : requests[s.down.sends.length]? = some request := by
      obtain ⟨rest, hrest⟩ := h.requests_inOrder hread
      have hget := congrArg (fun results => results[s.down.sends.length]?) hrest
      rw [List.getElem?_append_left hlt, hrequest, List.getElem?_map] at hget
      obtain ⟨sent, hsent, heq⟩ := Option.map_eq_some_iff.mp hget.symm
      cases heq
      exact hsent
    have hnext : (downTexts handler requests)[s.down.sends.length]?
        = some (handler request).toString := by
      rw [downTexts, List.getElem?_map, List.getElem?_map, hsent]
      rfl
    have hreceived : s.down.sends.length ≤ s.down.results.length := by
      rw [← Link.length_responses]
      omega
    obtain ⟨hdirection, hless, hsends, hended⟩ := h.down.send hnext hret hreceived hdown
    have hpre : s.down.ended <+: down.ended := hended ▸ List.prefix_rfl
    have hmono := Link.length_responses_mono hpre
    refine ⟨⟨h.up, hdirection, ?_, ?_⟩, ?_⟩
    · show s.up.sends.length ≤ down.responses.length + 1
      omega
    · show down.sends.length ≤ s.up.requests.length
      omega
    · simp only [left]
      omega
  · cases hturn

theorem Paired.step {a : Action} (hread : ∀ r ∈ requests, r.WellFormed)
    (h : Paired handler requests s) (hstep : (system handler requests).step s a = some s') :
    Paired handler requests s' ∧ 1 + left handler requests s' ≤ left handler requests s := by
  obtain ⟨hturn, ⟨b, up, rfl, hup, rfl⟩ | ⟨b, down, rfl, hdown, rfl⟩⟩ := step_cases hstep
  · cases b with
    | send message call => exact h.sendUp hturn hup
    | recv n =>
        obtain ⟨hdirection, hless, hsends, hended⟩ := h.up.recv (of_decide_eq_true hturn) hup
        have hmono := Link.length_requests_mono hended
        refine ⟨⟨hdirection, h.down, ?_, Nat.le_trans h.answered hmono⟩, ?_⟩
        · rw [hsends]
          exact h.turns
        · simp only [left]
          omega
    | _ => cases hturn
  · cases b with
    | send message call => exact h.sendDown hread hturn hdown
    | recv n =>
        obtain ⟨hdirection, hless, hsends, hended⟩ := h.down.recv (of_decide_eq_true hturn) hdown
        have hmono := Link.length_responses_mono hended
        have hturns := h.turns
        refine ⟨⟨h.up, hdirection, ?_, ?_⟩, ?_⟩
        · show s.up.sends.length ≤ down.responses.length + 1
          omega
        · rw [hsends]
          exact h.answered
        · simp only [left]
          omega
    | _ => cases hturn

theorem paired_of_reachable (hread : ∀ r ∈ requests, r.WellFormed)
    (h : (system handler requests).Reachable s) : Paired handler requests s := by
  apply h.induction (P := Paired handler requests)
  · exact ⟨.init, .init, Nat.zero_le _, Nat.zero_le _⟩
  · intro s a s' _ hs hstep
    exact (hs.step hread hstep).1

/-! ## Progress -/

/-- A direction that has the turn can go on. -/
theorem step_up {b : Link.Action} {up : Link.State}
    (hturn : turn handler requests s (.up b) = true) (h : Link.system.step s.up b = some up) :
    (system handler requests).step s (.up b) = some { s with up } :=
  System.guarded_step_eq_some.mpr ⟨hturn, Option.map_eq_some_iff.mpr ⟨up, h, rfl⟩⟩

theorem step_down {b : Link.Action} {down : Link.State}
    (hturn : turn handler requests s (.down b) = true)
    (h : Link.system.step s.down b = some down) :
    (system handler requests).step s (.down b) = some { s with down } :=
  System.guarded_step_eq_some.mpr ⟨hturn, Option.map_eq_some_iff.mpr ⟨down, h, rfl⟩⟩

/-- What is on the way can be received, in both directions. -/
theorem can_recv (h : s.up.inFlight ≠ [] ∨ s.down.inFlight ≠ []) :
    ∃ a s', (system handler requests).step s a = some s' := by
  rcases h with hne | hne
  · obtain ⟨up, hstep⟩ := Link.recv_enabled hne
    have hturn :
        turn handler requests s (.up (.recv (min chunkSize s.up.inFlight.length))) = true :=
      decide_eq_true rfl
    exact ⟨_, _, step_up hturn hstep⟩
  · obtain ⟨down, hstep⟩ := Link.recv_enabled hne
    have hturn :
        turn handler requests s (.down (.recv (min chunkSize s.down.inFlight.length))) = true :=
      decide_eq_true rfl
    exact ⟨_, _, step_down hturn hstep⟩

/-- The requests that were sent but not answered: the server can answer
the first of them. -/
theorem Paired.can_answer (h : Paired handler requests s) (hread : ∀ r ∈ requests, r.WellFormed)
    (hlen : ∀ r ∈ requests, (handler r).toString.length < 2 ^ 31)
    (hlt : s.down.sends.length < s.up.requests.length) :
    ∃ a s', (system handler requests).step s a = some s' := by
  obtain ⟨request, hmem, hrequest⟩ : ∃ request ∈ requests,
      s.up.requests[s.down.sends.length]? = some (.ok request) := by
    have hget := List.getElem?_eq_getElem hlt
    have hin := (h.requests_inOrder hread).subset (List.getElem_mem hlt)
    obtain ⟨request, hmem, heq⟩ := List.mem_map.mp hin
    exact ⟨request, hmem, hget.trans (congrArg some heq.symm)⟩
  obtain ⟨down, hdown⟩ := Link.send_enabled (Link.not_closed_of_reachable h.down.lockstep)
    (hlen request hmem)
  refine ⟨_, _, step_down ?_ hdown⟩
  rw [turn, hrequest]
  exact decide_eq_true ⟨rfl, rfl⟩

/-- Where nothing can go on, the client has all its responses. -/
theorem Paired.done_of_stuck (h : Paired handler requests s)
    (hread : ∀ r ∈ requests, r.WellFormed ∧ r.toString.length < 2 ^ 31)
    (hlen : ∀ r ∈ requests, (handler r).toString.length < 2 ^ 31)
    (hup : ∀ m ∈ upTexts requests, Link.endsShort m = true)
    (hdown : ∀ m ∈ downTexts handler requests, Link.endsShort m = true)
    (hstuck : ∀ a, (system handler requests).step s a = none) :
    s.down.responses.length = requests.length := by
  have hnone : ¬ ∃ a s', (system handler requests).step s a = some s' := by
    intro hany
    obtain ⟨a, s', hstep⟩ := hany
    rw [hstuck a] at hstep
    cases hstep
  have hupFlight : s.up.inFlight = [] := by
    by_contra hne
    exact hnone (can_recv (.inl hne))
  have hdownFlight : s.down.inFlight = [] := by
    by_contra hne
    exact hnone (can_recv (.inr hne))
  -- all that was sent has been received, and every request was answered
  have hrequests := h.up.results_of_quiet hup hupFlight
  have hresponses := h.down.results_of_quiet hdown hdownFlight
  rw [← Link.length_requests] at hrequests
  rw [← Link.length_responses] at hresponses
  have hanswered : s.down.sends.length = s.up.requests.length := by
    by_contra hne
    have hle := h.answered
    exact hnone (h.can_answer (fun r hr => (hread r hr).1) hlen (by omega))
  have hsent : ¬ s.up.sends.length < requests.length := by
    intro hlt
    have hnext := List.getElem?_eq_getElem hlt
    obtain ⟨up, hstep⟩ := Link.send_enabled (Link.not_closed_of_reachable h.up.lockstep)
      (hread _ (List.getElem_mem hlt)).2
    refine hnone ⟨_, _, step_up ?_ hstep⟩
    refine decide_eq_true ⟨?_, by omega, rfl⟩
    rw [hnext]
    rfl
  have hle := (h.requests_inOrder fun r hr => (hread r hr).1).length_le
  rw [List.length_map] at hle
  omega

/-- The client gets all its responses where every text ends short. -/
theorem completes_of_endsShort
    (hrequests : ∀ r ∈ requests, r.WellFormed ∧ r.toString.length < 2 ^ 31)
    (hresponses : ∀ r ∈ requests, (handler r).WellFormed ∧ (handler r).toString.length < 2 ^ 31)
    (hup : ∀ m ∈ upTexts requests, Link.endsShort m = true)
    (hdown : ∀ m ∈ downTexts handler requests, Link.endsShort m = true)
    (h : (system handler requests).Reachable s) :
    ∃ as t, (system handler requests).runFrom s as = some t ∧
      t.down.responses = (requests.map handler).map .ok := by
  have hread : ∀ r ∈ requests, r.WellFormed := fun r hr => (hrequests r hr).1
  have hamortized : (system handler requests).Amortized (Paired handler requests)
      (left handler requests) (fun _ => 1) (fun _ => 0) := fun _ _ _ hs hstep => hs.step hread hstep
  have hend : ∀ t, Paired handler requests t →
      (∀ a, true = true → (system handler requests).step t a = none) →
      t.down.responses = (requests.map handler).map .ok := by
    intro t ht hstuck
    have hcount := ht.done_of_stuck hrequests (fun r hr => (hresponses r hr).2) hup hdown
      (fun a => hstuck a rfl)
    refine (ht.responses_inOrder fun r hr => (hresponses r hr).1).eq_of_length ?_
    rw [hcount, List.length_map, List.length_map]
  obtain ⟨as, t, hrun, _, hdone⟩ := hamortized.exists_run_to (fun _ => true)
    (fun _ _ => ⟨Nat.one_pos, rfl⟩) hend (paired_of_reachable hread h)
  exact ⟨as, t, hrun, hdone⟩

/-- All responses were received, so no text was swallowed. -/
theorem Paired.all_endsShort (h : Paired handler requests s)
    (hcount : s.down.responses.length = requests.length) :
    (∀ m ∈ upTexts requests, Link.endsShort m = true) ∧
      ∀ m ∈ downTexts handler requests, Link.endsShort m = true := by
  obtain ⟨hdown, _⟩ := h.counts
  have hanswered := h.answered
  rw [Link.length_responses] at hcount hdown
  rw [Link.length_requests] at hanswered
  constructor
  · apply (Link.inStep_of_reachable h.up.lockstep).all_endsShort
    rw [upTexts, List.length_map]
    omega
  · apply (Link.inStep_of_reachable h.down.lockstep).all_endsShort
    rw [downTexts, List.length_map, List.length_map]
    omega

theorem endsShort_iff :
    (∀ r ∈ requests, r.toString.length % 1024 ≠ 0 ∧ (handler r).toString.length % 1024 ≠ 0) ↔
      (∀ m ∈ upTexts requests, Link.endsShort m = true) ∧
        ∀ m ∈ downTexts handler requests, Link.endsShort m = true := by
  have hends : ∀ m : Bytes, Link.endsShort m = true ↔ m.length % 1024 ≠ 0 :=
    fun _ => decide_eq_true_iff
  simp only [upTexts, downTexts, List.forall_mem_map, hends]
  exact forall₂_and

end session

/-- **Every response is the one to its own request.** What the server has
received are the client's requests in order, what the client has received
are the responses to the first of them, and never more than the server has
received. The client gets them all, from wherever the session is, exactly
when no request and no response has a text of which the length is a
multiple of 1024. -/
theorem session_completes_iff {handler : HttpRequest → HttpResponse} {requests : List HttpRequest}
    (hrequests : ∀ r ∈ requests, r.WellFormed ∧ r.toString.length < 2 ^ 31)
    (hresponses : ∀ r ∈ requests, (handler r).WellFormed ∧ (handler r).toString.length < 2 ^ 31) :
    (∀ s, (system handler requests).Reachable s →
      s.up.requests <+: requests.map .ok ∧ s.down.responses <+: (requests.map handler).map .ok ∧
        s.down.responses.length ≤ s.up.requests.length) ∧
    ((∀ s, (system handler requests).Reachable s →
        ∃ as t, (system handler requests).runFrom s as = some t ∧
          t.down.responses = (requests.map handler).map .ok) ↔
      ∀ r ∈ requests, r.toString.length % 1024 ≠ 0 ∧ (handler r).toString.length % 1024 ≠ 0) := by
  have hread : ∀ r ∈ requests, r.WellFormed := fun r hr => (hrequests r hr).1
  constructor
  · intro s hs
    have hpaired := paired_of_reachable hread hs
    refine ⟨hpaired.requests_inOrder hread,
      hpaired.responses_inOrder fun r hr => (hresponses r hr).1, ?_⟩
    exact Nat.le_trans hpaired.counts.1 hpaired.answered
  · rw [endsShort_iff]
    constructor
    · intro h
      obtain ⟨as, t, hrun, hdone⟩ := h _ .init
      apply (paired_of_reachable hread (System.Reachable.init.runFrom hrun)).all_endsShort
      rw [hdone, List.length_map, List.length_map]
    · intro hshort s hs
      exact completes_of_endsShort hrequests hresponses hshort.1 hshort.2 hs

/-- A server that answers with the uri it was asked for. -/
theorem session_completes_iff_echo :
    let handler : HttpRequest → HttpResponse := fun r => { body := r.uri }
    let requests : List HttpRequest :=
      [{ uri := bytes "/" }, { method := .post, uri := bytes "/a" }]
    (∀ s, (system handler requests).Reachable s →
      s.up.requests <+: requests.map .ok ∧ s.down.responses <+: (requests.map handler).map .ok ∧
        s.down.responses.length ≤ s.up.requests.length) ∧
    ((∀ s, (system handler requests).Reachable s →
        ∃ as t, (system handler requests).runFrom s as = some t ∧
          t.down.responses = (requests.map handler).map .ok) ↔
      ∀ r ∈ requests, r.toString.length % 1024 ≠ 0 ∧ (handler r).toString.length % 1024 ≠ 0) :=
  session_completes_iff (by decide) (by decide)

end Session

end Pine
