import Pine.Base.Termination
import Pine.Server.Serving
import Pine.Server.Sockets
import Pine.Server.Stop

/-!
# Server — Passes

What the passes of the accept loop leave to everybody else, and how they
end. The registry is filled and emptied inside the mutex, so a
`disconnect_client`, which needs the mutex, never finds the client that it
is asked for, and the only call that closes an accepted socket is a `stop`
that runs its loop over the clients during a pass (`pass_owns_client`).
The accept loop returns only after a `stop` has begun. From there on the
loop and the calls of `stop` have a bounded number of statements left. Two
of them wait: `accept_socket` for a client or for the socket to be closed,
and `start` for the first message of its client. So they come to an end in
which nothing listens and nobody is registered, or to a client that never
ends its message (`server_winds_down`).
-/

namespace Pine

open Transition SortedMap

/-- The statements the loop has left once it sees that nothing listens. -/
def Loop.remaining : Loop → Nat
  | .checking => 1
  | .accepting => 6
  | .accepted _ => 5
  | .inserted _ => 4
  | .starting _ => 3
  | .ended _ _ => 2
  | .returned => 0

/-- The statements a call of `stop` has left. -/
def StopCall.remaining : StopCall → Nat
  | .called => 4
  | .flagged => 3
  | .socketClosed => 2
  | .clientsClosed => 1
  | .returned => 0

namespace Registry

/-- What `disconnect_client` ends with. -/
def disconnectClientEnds (s : Registry) (id : ClientId) : BodyEnd Unit :=
  match s.clients.find? id with
  | none => .returns (.error (makeErrorCode .clientNotFound))
  | some _ => .returns (.error (makeErrorCode .success))

/-! ## Clients of other passes -/

section pass
variable {s s' : Registry} {n : Nat}

theorem mem_closed_close {c : Nat} (h : n ∈ (s.close c).closed) :
    n ∈ s.closed ∨ s.socketOf c = some n := by
  rw [close, List.mem_append, Option.mem_toList] at h
  exact h.symm

/-- A socket that the loop of `stop` closes is that of some client. -/
theorem mem_closed_closeAll {clients : List (ClientId × Nat)}
    (h : n ∈ (s.closeAll clients).closed) :
    n ∈ s.closed ∨ ∃ client ∈ clients, s.socketOf client.2 = some n := by
  induction clients generalizing s with
  | nil => exact .inl h
  | cons client rest ih =>
      rcases ih h with hclosed | ⟨other, hother, hopen⟩
      · rcases mem_closed_close hclosed with hclosed | hopen
        · exact .inl hclosed
        · exact .inr ⟨client, List.mem_cons_self, hopen⟩
      · rw [socketOf_close] at hopen
        exact .inr ⟨other, List.mem_cons_of_mem _ hother, (Option.ite_none_left_eq_some.mp hopen).2⟩

/-- A step that closes a socket. -/
theorem closes_cases {a : Action} (hregistered : Registered s) (hsockets : Sockets s)
    (hstep : Step s a s') (hopen : n ∉ s.closed) (hclosed : n ∈ s'.closed) :
    s.loop.locked = some n ∧ ∃ k, a = .stop k ∧ s.stops[k]? = some .socketClosed := by
  cases hstep with
  | disconnectClient hfree hfind =>
      rw [hregistered.find?_eq_none hfree] at hfind
      cases hfind
  | @closeClients k hk =>
      rcases mem_closed_closeAll hclosed with hclosed | ⟨⟨id, c⟩, hmem, hsocket⟩
      · exact absurd hclosed hopen
      · obtain rfl := hsockets.own c n hsocket
        exact ⟨(hregistered.locked id n (mem_entries_iff.mp hmem)).1, k, rfl, hk⟩
  | _ => exact absurd hclosed hopen

end pass

/-- **A pass owns its client.** Whoever is outside the mutex finds no
client, under whatever id: a `disconnect_client` ends with
`client_not_found` and changes nothing, and an insert replaces no other
client, whichever ids the connections got. And an accepted socket is
closed by one statement only, the loop of `stop` over the clients, while
the client is in its pass. -/
theorem pass_owns_client {s : Registry} (h : system.Reachable s) :
    (s.loop.locked = none → ∀ id, s.clients.find? id = none ∧
      (s.disconnectClientEnds id).result = .error (makeErrorCode .clientNotFound) ∧
      system.step s (.disconnectClient id) = some s) ∧
    ∀ a s' n, system.step s a = some s' → n ∉ s.closed → n ∈ s'.closed →
      s.loop.locked = some n ∧ ∃ k, a = .stop k ∧ s.stops[k]? = some .socketClosed := by
  constructor
  · intro hfree id
    have hnone := (registered_of_reachable h).find?_eq_none hfree id
    refine ⟨hnone, ?_, ?_⟩
    · rw [disconnectClientEnds, hnone]
      rfl
    · show (if s.loop.locked = none then some (s.disconnectClient id) else none) = some s
      rw [if_pos hfree, disconnectClient, hnone]
  · intro a s' n hstep
    exact closes_cases (registered_of_reachable h) (sockets_of_reachable h) (step_cases hstep)

/-- Two connections with one id, the second about to be inserted. -/
theorem pass_owns_client_sameId :
    let s : Registry :=
      { connections := [{ id := 7, socket := some 0 }, { id := 7, socket := some 1 }],
        clients := (SortedMap.empty.insertOrAssign 7 0).erase 7, loop := .accepted 1 }
    (s.loop.locked = none → ∀ id, s.clients.find? id = none ∧
      (s.disconnectClientEnds id).result = .error (makeErrorCode .clientNotFound) ∧
      system.step s (.disconnectClient id) = some s) ∧
    ∀ a s' n, system.step s a = some s' → n ∉ s.closed → n ∈ s'.closed →
      s.loop.locked = some n ∧ ∃ k, a = .stop k ∧ s.stops[k]? = some .socketClosed :=
  pass_owns_client ⟨[.check, .accept 7, .insert, .startClient,
    .startEnds (makeErrcCode errcConnectionReset), .endPass, .check, .accept 7], rfl⟩

/-! ## The end of the accept loop -/

/-- What the accept loop and the calls of `stop` have left to do. -/
def remaining (s : Registry) : Nat :=
  s.loop.remaining + (s.stops.map StopCall.remaining).sum

/-- The statements of the accept loop and of `stop`. -/
def Action.own : Action → Bool
  | .disconnectClient _ => false
  | .callStop => false
  | _ => true

/-- How many statements an action brings in. -/
def Action.cost : Action → Nat
  | .callStop => 4
  | _ => 0

/-- Steps that need nobody from outside. `accept_socket` returns when its
socket is closed. -/
def unaided (s : Registry) : Action → Bool
  | .accept _ => false
  | .acceptFails => !s.serverSocketOpen
  | _ => true

/-- The server to which no further client comes, and in which `recv`
returns the results of `streams c` on the connection of client `c`. -/
def waiting (streams : Nat → List Recv) : System Registry Action :=
  (serving streams).guarded fun s a => s.unaided a = true

/-- Nothing listens, nobody is registered, and every call has returned. -/
structure Down (s : Registry) : Prop where
  listening : s.isListening = false
  socket : s.serverSocketOpen = false
  clients : s.clients = SortedMap.empty
  loop : s.loop = .returned
  stops : ∀ p ∈ s.stops, p = .returned

/-- Every `stop` has returned, and the loop is in `start` of a client that
never ends its first message. -/
structure Waits (streams : Nat → List Recv) (s : Registry) (c : Nat) : Prop where
  loop : s.loop = .starting c
  never : NeverEnds (streams c)
  stops : ∀ p ∈ s.stops, p = .returned

section ending
variable {s s' : Registry}

/-- The loop goes on. -/
theorem remaining_loop {loop loop' : Loop} (hloop : s.loop = loop)
    (hnext : 1 + loop'.remaining ≤ loop.remaining) :
    1 + (loop'.remaining + (s.stops.map StopCall.remaining).sum) ≤ s.remaining := by
  rw [remaining, hloop]
  omega

/-- A call of `stop` goes on. -/
theorem remaining_stop {k : Nat} {p q : StopCall} (hk : s.stops[k]? = some p)
    (hnext : 1 + q.remaining = p.remaining) :
    1 + (s.loop.remaining + ((s.stops.set k q).map StopCall.remaining).sum) ≤ s.remaining := by
  have hsum := sum_map_set_add hk StopCall.remaining q
  rw [remaining]
  omega

/-- Once nothing listens, every statement leaves one less. -/
theorem remaining_step {a : Action} (hstop : s.isListening = false) (hstep : Step s a s') :
    s'.isListening = false ∧ a.own.toNat + s'.remaining ≤ s.remaining + a.cost := by
  cases hstep with
  | check hloop =>
      rw [hstop]
      exact ⟨rfl, remaining_loop hloop (Nat.le_refl _)⟩
  | acceptFails hloop =>
      have hless : 1 + Loop.checking.remaining ≤ Loop.accepting.remaining := by decide
      exact ⟨hstop, remaining_loop hloop hless⟩
  | accept hloop _ => exact ⟨hstop, remaining_loop hloop (Nat.le_refl _)⟩
  | insert hloop _ => exact ⟨hstop, remaining_loop hloop (Nat.le_refl _)⟩
  | startClient hloop => exact ⟨hstop, remaining_loop hloop (Nat.le_refl _)⟩
  | startEnds hloop => exact ⟨hstop, remaining_loop hloop (Nat.le_refl _)⟩
  | erase hloop _ => exact ⟨hstop, remaining_loop hloop (Nat.le_refl _)⟩
  | keep hloop => exact ⟨hstop, remaining_loop hloop (Nat.le_refl _)⟩
  | disconnectUnknown _ _ => exact ⟨hstop, Nat.le_of_eq (Nat.zero_add _)⟩
  | disconnectClient _ _ => exact ⟨hstop, Nat.le_of_eq (Nat.zero_add _)⟩
  | callStop =>
      refine ⟨hstop, ?_⟩
      have hsum : ((s.stops ++ [StopCall.called]).map StopCall.remaining).sum
          = (s.stops.map StopCall.remaining).sum + 4 := by
        rw [List.map_append, List.sum_append]
        rfl
      show 0 + (s.loop.remaining + ((s.stops ++ [StopCall.called]).map StopCall.remaining).sum)
        ≤ s.loop.remaining + (s.stops.map StopCall.remaining).sum + 4
      omega
  | flag hk => exact ⟨rfl, remaining_stop hk rfl⟩
  | closeServerSocket hk => exact ⟨hstop, remaining_stop hk rfl⟩
  | closeClients hk =>
      obtain ⟨connections, closed, heq⟩ := s.closeAll_eq s.clients.entries
      rw [heq]
      exact ⟨hstop, remaining_stop hk rfl⟩
  | clear hk => exact ⟨hstop, remaining_stop hk rfl⟩

/-- The loop stops listening only for a call of `stop`. -/
theorem exists_flagged (h : system.Reachable s) :
    s.isListening = false → ∃ p ∈ s.stops, p.hasFlagged = true := by
  apply h.induction (P := fun s => s.isListening = false → ∃ p ∈ s.stops, p.hasFlagged = true)
  · nofun
  · intro s a s' _ ih hstep hlistening
    have hset : ∀ {k p q}, s.stops[k]? = some p → q.hasFlagged = true →
        ∃ r ∈ s.stops.set k q, r.hasFlagged = true := by
      intro k p q hk hq
      exact ⟨q, List.mem_set (List.getElem?_eq_some_iff.mp hk).1 q, hq⟩
    cases step_cases hstep with
    | callStop =>
        obtain ⟨p, hp, hflagged⟩ := ih hlistening
        exact ⟨p, List.mem_append_left _ hp, hflagged⟩
    | flag hk => exact hset hk rfl
    | closeServerSocket hk => exact hset hk rfl
    | closeClients hk =>
        obtain ⟨connections, closed, heq⟩ := s.closeAll_eq s.clients.entries
        rw [heq]
        exact hset hk rfl
    | clear hk => exact hset hk rfl
    | _ => exact ih hlistening

/-- The loop returns only when nothing listens. -/
theorem listening_of_returned (h : system.Reachable s) :
    s.loop = .returned → s.isListening = false := by
  apply h.induction (P := fun s => s.loop = .returned → s.isListening = false)
  · nofun
  · intro s a s' _ ih hstep hreturned
    cases step_cases hstep with
    | check _ =>
        dsimp only at hreturned ⊢
        split at hreturned
        · cases hreturned
        · next hlistening => exact Bool.eq_false_of_not_eq_true hlistening
    | disconnectUnknown _ _ => exact ih hreturned
    | disconnectClient _ _ => exact ih hreturned
    | callStop => exact ih hreturned
    | flag _ => rfl
    | closeServerSocket _ => exact ih hreturned
    | closeClients _ =>
        obtain ⟨connections, closed, heq⟩ := s.closeAll_eq s.clients.entries
        rw [heq] at hreturned ⊢
        exact ih hreturned
    | clear _ => exact ih hreturned
    | _ => cases hreturned

/-- Nobody is registered when the loop has returned. -/
theorem down_of_returned (h : system.Reachable s) (hstop : s.isListening = false)
    (hloop : s.loop = .returned) (hstops : ∀ p ∈ s.stops, p = .returned) : Down s := by
  obtain ⟨p, hp, _⟩ := exists_flagged h hstop
  have hshut : p.hasShut = true := by rw [hstops p hp]; rfl
  refine ⟨hstop, (stopped_of_reachable h).socket p hp hshut, ?_, hloop, hstops⟩
  apply ext_find?
  intro id
  rw [(registered_of_reachable h).find?_eq_none (by rw [hloop]; rfl) id, find?_empty]

/-- A call of `stop` that has not returned goes on, whatever the loop
does. -/
theorem stop_enabled {k : Nat} {p : StopCall} (hk : s.stops[k]? = some p) (hp : p ≠ .returned) :
    ∃ s', system.step s (.stop k) = some s' ∧ s'.loop = s.loop := by
  have hstep : ∀ r, s.continueStop p = some r →
      system.step s (.stop k) = some { r.1 with stops := r.1.stops.set k r.2 } := by
    intro r hr
    simp only [system, step, hk, Option.bind_some, hr, Option.map_some]
  cases p with
  | returned => exact absurd rfl hp
  | called => exact ⟨_, hstep _ rfl, rfl⟩
  | flagged => exact ⟨_, hstep _ rfl, rfl⟩
  | socketClosed => exact ⟨_, hstep _ rfl, closeAll_loop _⟩
  | clientsClosed => exact ⟨_, hstep _ rfl, rfl⟩

end ending

section waiting
variable {streams : Nat → List Recv} {s s' : Registry} {c : Nat}

theorem waiting_step {a : Action} (hfed : fed streams s a = true)
    (hunaided : s.unaided a = true) (hstep : system.step s a = some s') :
    (waiting streams).step s a = some s' :=
  System.guarded_step_eq_some.mpr ⟨hunaided, System.guarded_step_eq_some.mpr ⟨hfed, hstep⟩⟩

/-- The client of the pass has an id. -/
theorem exists_idOf (h : system.Reachable s) (hclient : s.loop.client = some c) :
    ∃ id, s.idOf c = some id :=
  ⟨_, congrArg (Option.map Connection.id) (List.getElem?_eq_getElem (client_lt h c hclient))⟩

/-- A pass whose `start` is over ends. -/
theorem endPass_enabled (h : system.Reachable s) {r : Expected Unit}
    (hloop : s.loop = .ended c r) :
    ∃ s', system.step s .endPass = some s' ∧ s'.loop = .checking := by
  obtain ⟨id, hid⟩ := exists_idOf h (c := c) (by rw [hloop]; rfl)
  obtain ⟨e, rfl⟩ := (registered_of_reachable h).failed c r hloop
  refine ⟨{ s with clients := s.clients.erase id, loop := .checking }, ?_, rfl⟩
  simp only [system, step, hloop, hid, Option.map_some]

/-- A statement of the loop or of `stop` can run, with no client but the
one that the loop has. -/
def GoesOn (streams : Nat → List Recv) (s : Registry) : Prop :=
  ∃ a s', a.own = true ∧ (waiting streams).step s a = some s' ∧
    ∀ c, s'.loop.client = some c → s.loop.client = some c

/-- The loop goes on once every `stop` has returned, unless its client
never ends its message. -/
theorem loop_goesOn (hvalid : ∀ c, ValidRecvs (streams c)) (h : (serving streams).Reachable s)
    (hstop : s.isListening = false) (hstops : ∀ p ∈ s.stops, p = .returned) :
    Down s ∨ (∃ c, Waits streams s c) ∨ GoesOn streams s := by
  have hsystem := h.of_guarded
  cases hloop : s.loop with
  | checking =>
      refine .inr (.inr ⟨.check, { s with loop := .returned }, rfl, ?_, fun c hc => by cases hc⟩)
      apply waiting_step rfl rfl
      simp [system, step, hloop, hstop]
  | accepting =>
      -- a `stop` that has returned has closed the socket
      obtain ⟨p, hp, _⟩ := exists_flagged hsystem hstop
      have hshut : p.hasShut = true := by rw [hstops p hp]; rfl
      have hsocket := (stopped_of_reachable hsystem).socket p hp hshut
      have hunaided : s.unaided .acceptFails = true := congrArg not hsocket
      refine .inr (.inr ⟨.acceptFails, { s with loop := .checking }, rfl, ?_,
        fun c hc => by cases hc⟩)
      apply waiting_step rfl hunaided
      simp only [system, step, hloop, if_true]
  | accepted c =>
      have hclient : s.loop.client = some c := by rw [hloop]; rfl
      obtain ⟨id, hid⟩ := exists_idOf hsystem hclient
      have hstep : (waiting streams).step s .insert = _ :=
        waiting_step rfl rfl (insert_step hloop hid)
      exact .inr (.inr ⟨.insert, _, rfl, hstep, fun _ hc => hclient.trans hc⟩)
  | inserted c =>
      have hclient : s.loop.client = some c := by rw [hloop]; rfl
      have hstep : (waiting streams).step s .startClient = _ :=
        waiting_step rfl rfl (startClient_step hloop)
      exact .inr (.inr ⟨.startClient, _, rfl, hstep, fun _ hc => hclient.trans hc⟩)
  | starting c =>
      have hclient : s.loop.client = some c := by rw [hloop]; rfl
      by_cases hnever : NeverEnds (streams c)
      · exact .inr (.inl ⟨c, hloop, hnever, hstops⟩)
      · obtain ⟨rest, hpass⟩ := startPass_of_ends (hvalid c) hnever
        refine .inr (.inr ⟨.startEnds passError,
          { s with loop := .ended c (.error passError) }, rfl, ?_, fun _ hc => hclient.trans hc⟩)
        apply waiting_step ((fed_startEnds hloop).mpr ⟨rest, hpass⟩) rfl
        simp only [system, step, hloop]
        rfl
  | ended c r =>
      obtain ⟨s', hstep, hloop'⟩ := endPass_enabled hsystem hloop
      refine .inr (.inr ⟨.endPass, s', rfl, waiting_step rfl rfl hstep, ?_⟩)
      intro c hc
      rw [hloop'] at hc
      cases hc
  | returned => exact .inl (down_of_returned hsystem hstop hloop hstops)

/-- **Who can go on**, once nothing listens: a call of `stop` that has not
returned, or the loop. -/
theorem progress (hvalid : ∀ c, ValidRecvs (streams c)) (h : (serving streams).Reachable s)
    (hstop : s.isListening = false) :
    Down s ∨ (∃ c, Waits streams s c) ∨ GoesOn streams s := by
  by_cases hstops : ∀ p ∈ s.stops, p = .returned
  · exact loop_goesOn hvalid h hstop hstops
  · simp only [not_forall] at hstops
    obtain ⟨p, hp, hne⟩ := hstops
    obtain ⟨k, hk⟩ := List.mem_iff_getElem?.mp hp
    obtain ⟨s', hstep, hloop⟩ := stop_enabled hk hne
    refine .inr (.inr ⟨.stop k, s', rfl, waiting_step rfl rfl hstep, ?_⟩)
    rw [hloop]
    exact fun _ hc => hc

/-- The loop has this client, and its `start` is not over. -/
def Holding (s : Registry) (c : Nat) : Prop :=
  s.loop = .accepted c ∨ s.loop = .inserted c ∨ s.loop = .starting c

theorem holding_of_client (h : Served streams s) (hnever : NeverEnds (streams c))
    (hclient : s.loop.client = some c) : Holding s c := by
  cases hloop : s.loop with
  | accepted c' =>
      rw [hloop] at hclient
      cases hclient
      exact .inl hloop
  | inserted c' =>
      rw [hloop] at hclient
      cases hclient
      exact .inr (.inl hloop)
  | starting c' =>
      rw [hloop] at hclient
      cases hclient
      exact .inr (.inr hloop)
  | ended c' r =>
      rw [hloop] at hclient
      cases hclient
      exact absurd hnever (h.ended c r hloop).2
  | _ =>
      rw [hloop] at hclient
      cases hclient

/-- **A client that never ends its message keeps the loop.** -/
theorem Holding.step {a : Action} (hvalid : ValidRecvs (streams c))
    (hnever : NeverEnds (streams c)) (hs : Holding s c)
    (h : (serving streams).step s a = some s') : Holding s' c := by
  obtain ⟨hallowed, hstep⟩ := System.guarded_step_eq_some.mp h
  have hat : ∀ {loop}, s.loop = loop →
      loop = .accepted c ∨ loop = .inserted c ∨ loop = .starting c := by
    rintro loop rfl
    exact hs
  cases step_cases hstep with
  | check hloop => simpa using hat hloop
  | acceptFails hloop => simpa using hat hloop
  | accept hloop _ => simpa using hat hloop
  | @insert c' _ hloop _ =>
      obtain rfl : c' = c := by simpa using hat hloop
      exact .inr (.inl rfl)
  | @startClient c' hloop =>
      obtain rfl : c' = c := by simpa using hat hloop
      exact .inr (.inr rfl)
  | @startEnds c' e hloop =>
      obtain rfl : c' = c := by simpa using hat hloop
      exact absurd hnever (passError_of_fed hvalid hloop hallowed).2
  | erase hloop _ => simpa using hat hloop
  | keep hloop => simpa using hat hloop
  | disconnectUnknown _ _ => exact hs
  | disconnectClient _ _ => exact hs
  | callStop => exact hs
  | flag _ => exact hs
  | closeServerSocket _ => exact hs
  | closeClients _ => simpa [Holding] using hs
  | clear _ => exact hs

end waiting

/-- **The server winds down**, or waits for a client. The accept loop
returns only after a `stop` has set `is_listening` to false. From there on
a run has a bounded number of statements of the loop and of `stop`. Where
none of them can go on, nothing listens, nobody is registered and every
call has returned, or the loop is in `start` of a client that never ends
its first message. And these statements alone, with no further client, get
to the former exactly if the client that the loop has, if it has one, ends
its message. -/
theorem server_winds_down {streams : Nat → List Recv} (hvalid : ∀ c, ValidRecvs (streams c))
    {s : Registry} (h : (serving streams).Reachable s) :
    (s.loop = .returned → ∃ p ∈ s.stops, p.hasFlagged = true) ∧
    ((∃ p ∈ s.stops, p.hasFlagged = true) →
      (∀ as t, (serving streams).runFrom s as = some t →
        as.countP Action.own + t.remaining ≤ s.remaining + (as.map Action.cost).sum) ∧
      ((∀ a : Action, a.own = true → (waiting streams).step s a = none) →
        Down s ∨ ∃ c, Waits streams s c) ∧
      ((∃ as t, (waiting streams).runFrom s as = some t ∧ (∀ a ∈ as, a.own = true) ∧ Down t) ↔
        ∀ c, s.loop.client = some c → ¬ NeverEnds (streams c))) := by
  refine ⟨fun hloop => exists_flagged h.of_guarded (listening_of_returned h.of_guarded hloop), ?_⟩
  intro hcalled
  obtain ⟨p, hp, hflagged⟩ := hcalled
  have hstop := (stopped_of_reachable h.of_guarded).listening p hp hflagged
  refine ⟨?_, ?_, ?_, ?_⟩
  · intro as t hrun
    have hamortized : (serving streams).Amortized (fun s => s.isListening = false) remaining
        (fun a => a.own.toNat) Action.cost := fun s a s' hs hstep =>
      remaining_step hs (step_cases (System.guarded_step_eq_some.mp hstep).2)
    have hbound := hamortized.run hstop hrun
    rwa [sum_map_toNat] at hbound
  · intro hstuck
    rcases progress hvalid h hstop with hdown | hwaits | ⟨a, s', hown, hstep, _⟩
    · exact .inl hdown
    · exact .inr hwaits
    · rw [hstuck a hown] at hstep
      cases hstep
  · intro hrun c hclient hnever
    obtain ⟨as, t, hrun, _, hdown⟩ := hrun
    have hholding := holding_of_client (served_of_reachable hvalid h) hnever hclient
    have hend : Holding t c := by
      refine System.runFrom_induction (P := fun t => Holding t c) ?_
        (System.runFrom_of_guarded hrun) hholding
      exact fun _ _ _ hstep hs => hs.step (hvalid c) hnever hstep
    rw [Holding, hdown.loop] at hend
    simp at hend
  · intro hends
    refine System.exists_run_of_progress (P := fun s => (serving streams).Reachable s ∧
      s.isListening = false ∧ ∀ c, s.loop.client = some c → ¬ NeverEnds (streams c))
      remaining Action.own ?_ ⟨h, hstop, hends⟩
    intro s hs
    obtain ⟨hs, hstop, hends⟩ := hs
    rcases progress hvalid hs hstop with hdown | ⟨c, hwaits⟩ | ⟨a, s', hown, hstep, hclient⟩
    · exact .inl hdown
    · exact absurd hwaits.never (hends c (by rw [hwaits.loop]; rfl))
    · have hserving := (System.guarded_step_eq_some.mp hstep).2
      obtain ⟨hstop', hless⟩ :=
        remaining_step hstop (step_cases (System.guarded_step_eq_some.mp hserving).2)
      refine .inr ⟨a, s', hown, hstep,
        ⟨hs.step hserving, hstop', fun c hc => hends c (hclient c hc)⟩, ?_⟩
      have hcost : a.cost = 0 := by cases a <;> first | rfl | cases hown
      rw [hown, hcost] at hless
      exact Nat.lt_of_succ_le (by simpa [Nat.add_comm] using hless)

/-- A `stop` that has closed the listening socket while a client is in its
connection callbacks. -/
theorem server_winds_down_inPass :
    let streams : Nat → List Recv := fun _ => [.data (bytes "GET / HTTP/1.1\r\n"), .closed]
    let s : Registry :=
      { isListening := false, serverSocketOpen := false,
        connections := [{ id := 7, socket := some 0 }],
        clients := SortedMap.empty.insertOrAssign 7 0, loop := .inserted 0,
        stops := [.socketClosed] }
    (s.loop = .returned → ∃ p ∈ s.stops, p.hasFlagged = true) ∧
    ((∃ p ∈ s.stops, p.hasFlagged = true) →
      (∀ as t, (serving streams).runFrom s as = some t →
        as.countP Action.own + t.remaining ≤ s.remaining + (as.map Action.cost).sum) ∧
      ((∀ a : Action, a.own = true → (waiting streams).step s a = none) →
        Down s ∨ ∃ c, Waits streams s c) ∧
      ((∃ as t, (waiting streams).runFrom s as = some t ∧ (∀ a ∈ as, a.own = true) ∧ Down t) ↔
        ∀ c, s.loop.client = some c → ¬ NeverEnds (streams c))) :=
  server_winds_down (fun _ => by decide)
    ⟨[.check, .accept 7, .insert, .callStop, .stop 0, .stop 0], rfl⟩

end Registry

end Pine
