import Pine.Server.Registry

/-!
# Server — Stop

What a call of `stop` leaves behind. It takes no mutex, so it can return
at any point of a pass of the accept loop. What it has switched off stays
off, and what it has cleared is only filled again by a pass that was past
its test of `is_listening`: after a `stop` that returns while such a pass
has yet to insert or to start its client, a client is inserted or started
(`stop_final_iff`).
-/

namespace Pine

open Transition

/-- The call has set `is_listening` to false. -/
def StopCall.hasFlagged : StopCall → Bool
  | .called => false
  | _ => true

/-- The call has closed the listening socket. -/
def StopCall.hasShut : StopCall → Bool
  | .called => false
  | .flagged => false
  | _ => true

namespace Registry

/-- What a call of `stop` has switched off stays off. -/
structure Stopped (s : Registry) : Prop where
  listening : ∀ p ∈ s.stops, p.hasFlagged = true → s.isListening = false
  socket : ∀ p ∈ s.stops, p.hasShut = true → s.serverSocketOpen = false

section stop
variable {s s' : Registry}

/-- A call of `stop` that goes on to a phase of which all is switched off. -/
theorem Stopped.set (h : Stopped s) (k : Nat) {p : StopCall} {isListening serverSocketOpen : Bool}
    (hlistening : s.isListening = false → isListening = false)
    (hsocket : s.serverSocketOpen = false → serverSocketOpen = false)
    (hflagged : p.hasFlagged = true → isListening = false)
    (hshut : p.hasShut = true → serverSocketOpen = false) :
    Stopped { s with isListening, serverSocketOpen, stops := s.stops.set k p } where
  listening q hq hphase := by
    rcases List.mem_or_eq_of_mem_set hq with hq | rfl
    · exact hlistening (h.listening q hq hphase)
    · exact hflagged hphase
  socket q hq hphase := by
    rcases List.mem_or_eq_of_mem_set hq with hq | rfl
    · exact hsocket (h.socket q hq hphase)
    · exact hshut hphase

theorem Stopped.step {a : Action} (h : Stopped s) (hstep : Step s a s') : Stopped s' := by
  have hphase : ∀ {k p}, s.stops[k]? = some p → p ∈ s.stops := List.mem_of_getElem?
  cases hstep with
  | callStop =>
      constructor
      · intro p hp hflagged
        rcases List.mem_append.mp hp with hp | hp
        · exact h.listening p hp hflagged
        · rw [List.mem_singleton.mp hp] at hflagged
          cases hflagged
      · intro p hp hshut
        rcases List.mem_append.mp hp with hp | hp
        · exact h.socket p hp hshut
        · rw [List.mem_singleton.mp hp] at hshut
          cases hshut
  | @flag k hk => exact h.set k (fun _ => rfl) id (fun _ => rfl) (fun hshut => by cases hshut)
  | @closeServerSocket k hk =>
      exact h.set k id (fun _ => rfl) (fun _ => h.listening _ (hphase hk) rfl) (fun _ => rfl)
  | @closeClients k hk =>
      obtain ⟨connections, closed, heq⟩ := s.closeAll_eq s.clients.entries
      rw [heq]
      have hset := h.set k (p := .clientsClosed) id id
        (fun _ => h.listening _ (hphase hk) rfl) (fun _ => h.socket _ (hphase hk) rfl)
      exact ⟨hset.listening, hset.socket⟩
  | @clear k hk =>
      have hset := h.set k (p := .returned) id id
        (fun _ => h.listening _ (hphase hk) rfl) (fun _ => h.socket _ (hphase hk) rfl)
      exact ⟨hset.listening, hset.socket⟩
  | _ => exact ⟨h.listening, h.socket⟩

theorem stopped_of_reachable (h : system.Reachable s) : Stopped s := by
  apply h.induction (P := Stopped)
  · constructor
    · intro p hp
      cases hp
    · intro p hp
      cases hp
  · intro s a s' _ ih hstep
    exact ih.step (step_cases hstep)

/-- The client of a pass has its connection. -/
theorem client_lt (h : system.Reachable s) :
    ∀ c, s.loop.client = some c → c < s.connections.length := by
  apply h.induction (P := fun s => ∀ c, s.loop.client = some c → c < s.connections.length)
  · intro c hc
    cases hc
  · intro s a s' _ ih hstep c hc
    have hpass : ∀ {d}, s.loop.client = some d → some d = some c → c < s.connections.length := by
      intro d hd hdc
      exact ih c (hd.trans hdc)
    cases step_cases hstep with
    | check _ =>
        dsimp only at hc
        split at hc <;> cases hc
    | acceptFails _ => cases hc
    | accept _ _ =>
        rw [← Option.some.inj hc, length_connect]
        exact Nat.lt_succ_self _
    | insert hloop _ => exact hpass (by rw [hloop]; rfl) hc
    | startClient hloop => exact hpass (by rw [hloop]; rfl) hc
    | startEnds hloop => exact hpass (by rw [hloop]; rfl) hc
    | erase _ _ => cases hc
    | keep _ => cases hc
    | disconnectClient _ _ =>
        rw [length_close]
        exact ih c hc
    | closeClients _ =>
        rw [closeAll_loop] at hc
        rw [length_closeAll]
        exact ih c hc
    | _ => exact ih c hc

/-- The server has stopped for good: it neither listens nor accepts, no
client is in the registry, and the accept loop is not about to start one. -/
structure Final (s : Registry) : Prop where
  listening : s.isListening = false
  socket : s.serverSocketOpen = false
  clients : s.clients = SortedMap.empty
  loop : s.loop.aboutToStart = false

theorem Final.step {a : Action} (h : Final s) (hstep : Step s a s') : Final s' := by
  obtain ⟨hlistening, hsocket, hclients, hloop⟩ := h
  cases hstep with
  | check _ => exact ⟨hlistening, hsocket, hclients, by rw [hlistening]; rfl⟩
  | acceptFails _ => exact ⟨hlistening, hsocket, hclients, rfl⟩
  | accept _ hopen =>
      rw [hsocket] at hopen
      cases hopen
  | insert haccepted _ =>
      rw [haccepted] at hloop
      cases hloop
  | startClient hinserted =>
      rw [hinserted] at hloop
      cases hloop
  | startEnds _ => exact ⟨hlistening, hsocket, hclients, rfl⟩
  | erase _ _ => exact ⟨hlistening, hsocket, by rw [hclients]; rfl, rfl⟩
  | keep _ => exact ⟨hlistening, hsocket, hclients, rfl⟩
  | disconnectUnknown _ _ => exact ⟨hlistening, hsocket, hclients, hloop⟩
  | disconnectClient _ hfind =>
      rw [hclients] at hfind
      cases hfind
  | callStop => exact ⟨hlistening, hsocket, hclients, hloop⟩
  | flag _ => exact ⟨rfl, hsocket, hclients, hloop⟩
  | closeServerSocket _ => exact ⟨hlistening, rfl, hclients, hloop⟩
  | closeClients _ =>
      rw [hclients]
      exact ⟨hlistening, hsocket, hclients, hloop⟩
  | clear _ => exact ⟨hlistening, hsocket, rfl, hloop⟩

theorem Final.no_start (h : Final s) : system.step s .startClient = none := by
  cases hstep : system.step s .startClient with
  | none => rfl
  | some t =>
      cases step_cases hstep with
      | startClient hinserted =>
          have hloop := h.loop
          rw [hinserted] at hloop
          cases hloop

theorem insert_step {c : Nat} {id : ClientId} (hloop : s.loop = .accepted c)
    (hid : s.idOf c = some id) :
    system.step s .insert
      = some { s with clients := s.clients.insertOrAssign id c, loop := .inserted c } := by
  simp only [system, step, hloop, hid]
  rfl

theorem startClient_step {c : Nat} (hloop : s.loop = .inserted c) :
    system.step s .startClient = some { s with loop := .starting c } := by
  simp only [system, step, hloop]

/-- **Stop is final** exactly when it returns while the accept loop has no
client that it is about to start. -/
theorem stop_final_iff {k : Nat} (hs : system.Reachable s)
    (hk : s.stops[k]? = some .clientsClosed) (hstep : system.step s (.stop k) = some s') :
    (∀ as t, system.runFrom s' as = some t →
        t.clients = SortedMap.empty ∧ system.step t .startClient = none) ↔
      s.loop.aboutToStart = false := by
  obtain ⟨hlistening, hsocket, hclients, hloop', hids⟩ :
      s'.isListening = false ∧ s'.serverSocketOpen = false ∧ s'.clients = SortedMap.empty ∧
        s'.loop = s.loop ∧ ∀ c, s'.idOf c = s.idOf c := by
    have hmem := List.mem_of_getElem? hk
    have hstopped := stopped_of_reachable hs
    cases step_cases hstep with
    | clear _ =>
        exact ⟨hstopped.listening _ hmem rfl, hstopped.socket _ hmem rfl, rfl, rfl, fun _ => rfl⟩
    | flag hk' => cases hk.symm.trans hk'
    | closeServerSocket hk' => cases hk.symm.trans hk'
    | closeClients hk' => cases hk.symm.trans hk'
  constructor
  · intro h
    cases hloop : s.loop with
    | accepted c =>
        -- the insert is not far
        obtain ⟨id, hid⟩ : ∃ id, s.idOf c = some id := by
          have hlt := client_lt hs c (by rw [hloop]; rfl)
          exact ⟨_, congrArg (Option.map Connection.id) (List.getElem?_eq_getElem hlt)⟩
        have hinsert := insert_step (hloop'.trans hloop) ((hids c).trans hid)
        have hrun : system.runFrom s' [.insert] = some _ :=
          System.runFrom_cons_eq_some.mpr ⟨_, hinsert, rfl⟩
        have hempty := congrArg (fun m => m.find? id) (h [.insert] _ hrun).1
        rw [SortedMap.find?_insertOrAssign, if_pos rfl] at hempty
        cases hempty
    | inserted c =>
        have hstart := (h [] s' rfl).2
        rw [startClient_step (hloop'.trans hloop)] at hstart
        cases hstart
    | _ => rfl
  · intro hloop as t hrun
    have hfinal : Final t := by
      apply System.runFrom_induction (P := Final) ?_ hrun
      · exact ⟨hlistening, hsocket, hclients, by rw [hloop', hloop]⟩
      · intro u a u' hu hfinal
        exact hfinal.step (step_cases hu)
    exact ⟨hfinal.clients, hfinal.no_start⟩

end stop

/-- A `stop` that returns while the accept loop waits for a socket. -/
theorem stop_final_iff_waiting :
    let s : Registry :=
      { isListening := false, serverSocketOpen := false, loop := .accepting,
        stops := [.clientsClosed] }
    let s' : Registry := { s with stops := [.returned] }
    (∀ as t, system.runFrom s' as = some t →
        t.clients = SortedMap.empty ∧ system.step t .startClient = none) ↔
      s.loop.aboutToStart = false :=
  stop_final_iff (k := 0) ⟨[.check, .callStop, .stop 0, .stop 0, .stop 0], rfl⟩ rfl rfl

/-- The accept loop inserts and starts a client after `stop` returned. -/
theorem insert_after_stop :
    ¬ ∀ s s' k, system.Reachable s → s.stops[k]? = some .clientsClosed →
      system.step s (.stop k) = some s' →
      ∀ as t, system.runFrom s' as = some t →
        t.clients = SortedMap.empty ∧ system.step t .startClient = none := by
  intro h
  have hreach : system.Reachable
      { isListening := false, serverSocketOpen := false,
        connections := [{ id := 7, socket := some 0 }], loop := .accepted 0,
        stops := [.clientsClosed] } :=
    ⟨[.check, .accept 7, .callStop, .stop 0, .stop 0, .stop 0], rfl⟩
  have hstart := (h _ _ 0 hreach rfl rfl [.insert] _ rfl).2
  cases hstart

end Registry

end Pine
