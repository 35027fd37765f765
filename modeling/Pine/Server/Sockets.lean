import Pine.Server.Registry
import Mathlib.Data.List.Nodup

/-!
# Server — Sockets

Which accepted sockets are open, and who can still close them. A socket
is closed by the connection that holds it, once (`Sockets`). A client
leaves the registry on three paths: `disconnect_client` and `stop` close
it, and the accept loop, at the end of a pass, does not. As long as the
loop only ends passes with a client that somebody has closed, the one open
socket is that of the pass under way (`OpenInPass`); the first time it
does otherwise, a socket stays open for good (`sockets_kept_iff`).
-/

namespace Pine

open Transition SortedMap

namespace Registry

/-! ## Sockets -/

/-- A connection holds its own socket or none, the sockets that were
closed are the ones that nobody holds, and none was closed twice. -/
structure Sockets (s : Registry) : Prop where
  own : ∀ c n, s.socketOf c = some n → n = c
  closed : ∀ n, n ∈ s.closed ↔ n < s.connections.length ∧ s.socketOf n = none
  once : s.closed.Nodup

theorem Sockets.lt_length {s : Registry} {c n : Nat} (h : s.socketOf c = some n) :
    c < s.connections.length := by
  obtain ⟨conn, hconn, _⟩ := Option.bind_eq_some_iff.mp h
  exact (List.getElem?_eq_some_iff.mp hconn).1

namespace Sockets

variable {s s' : Registry}

theorem close (h : Sockets s) (c : Nat) : Sockets (s.close c) where
  own d n hd := by
    rw [socketOf_close] at hd
    exact h.own d n (Option.ite_none_left_eq_some.mp hd).2
  closed n := by
    have hmem : n ∈ (s.close c).closed ↔ s.socketOf c = some n ∨ n ∈ s.closed := by
      rw [Registry.close, List.mem_append, Option.mem_toList]
    rw [hmem, h.closed, length_close, socketOf_close]
    by_cases hcn : c = n
    · subst hcn
      rw [if_pos rfl]
      constructor
      · rintro (hc | hc)
        · exact ⟨lt_length hc, rfl⟩
        · exact ⟨hc.1, rfl⟩
      · rintro ⟨hlt, _⟩
        cases hc : s.socketOf c with
        | none => exact .inr ⟨hlt, rfl⟩
        | some n => exact .inl (by rw [h.own c n hc])
    · rw [if_neg hcn]
      refine ⟨fun hn => hn.resolve_left ?_, .inr⟩
      intro hc
      exact hcn (h.own c n hc).symm
  once := by
    cases hc : s.socketOf c with
    | none =>
        rw [Registry.close, hc]
        exact h.once
    | some n =>
        obtain rfl := h.own c n hc
        have hopen : n ∉ s.closed := by
          intro hmem
          rw [((h.closed n).mp hmem).2] at hc
          cases hc
        rw [Registry.close, hc]
        exact List.nodup_cons.mpr ⟨hopen, h.once⟩

/-- An accepted socket is open, and held by the connection made of it. -/
theorem connect (h : Sockets s) (id : ClientId) : Sockets (s.connect id) where
  own d n hd := by
    rw [socketOf_connect] at hd
    by_cases heq : d = s.connections.length
    · rw [if_pos heq] at hd
      exact (Option.some.inj hd).symm
    · rw [if_neg heq] at hd
      exact h.own d n hd
  closed n := by
    rw [Registry.connect, h.closed, ← Registry.connect, length_connect, socketOf_connect]
    by_cases heq : n = s.connections.length
    · rw [if_pos heq]
      exact iff_of_false (fun hn => by omega) (fun hn => by cases hn.2)
    · rw [if_neg heq]
      exact and_congr_left (fun _ => by omega)
  once := h.once

theorem closeAll (h : Sockets s) (clients : List (ClientId × Nat)) :
    Sockets (s.closeAll clients) :=
  closeAll_induction (P := Sockets) (fun _ c ht => ht.close c) clients h

theorem step {a : Action} (h : Sockets s) (hstep : Step s a s') : Sockets s' := by
  cases hstep with
  | @accept id _ _ =>
      have hconnect := h.connect id
      exact ⟨hconnect.own, hconnect.closed, hconnect.once⟩
  | @disconnectClient _ c _ _ =>
      have hclose := h.close c
      exact ⟨hclose.own, hclose.closed, hclose.once⟩
  | closeClients _ =>
      have hclose := h.closeAll s.clients.entries
      exact ⟨hclose.own, hclose.closed, hclose.once⟩
  | _ => exact ⟨h.own, h.closed, h.once⟩

end Sockets

theorem sockets_of_reachable {s : Registry} (h : system.Reachable s) : Sockets s := by
  apply h.induction (P := Sockets)
  · constructor
    · intro c n hopen
      cases hopen
    · intro n
      exact iff_of_false List.not_mem_nil (fun hn => Nat.not_lt_zero n hn.1)
    · exact List.nodup_nil
  · intro s a s' _ ih hstep
    exact ih.step (step_cases hstep)

/-! ## Accepted sockets -/

/-- Between two passes of the accept loop every accepted socket is closed
or held by a client in the registry; and none was closed twice. -/
structure SocketsKept (s : Registry) : Prop where
  registered : s.loop = .checking ∨ s.loop = .returned →
    ∀ n, n < s.connections.length → n ∉ s.closed →
      ∃ id c, s.clients.find? id = some c ∧ s.socketOf c = some n
  once : s.closed.Nodup

/-- The accept loop ends no pass with a client whose socket is open. -/
def careful (s : Registry) : Action → Bool
  | .endPass => s.loop.client.bind s.socketOf = none
  | _ => true

/-- The runs of which every step is careful. -/
def carefulSystem : System Registry Action := system.guarded fun s a => s.careful a = true

/-- The one client that is open is the one of the pass under way. -/
def OpenInPass (s : Registry) : Prop := ∀ c n, s.socketOf c = some n → s.loop.client = some c

section OpenInPass
variable {s s' : Registry}

/-- A careful end of a pass leaves no connection open. -/
theorem closed_of_careful (h : OpenInPass s) (hcareful : s.careful .endPass = true) (c n : Nat) :
    ¬ s.socketOf c = some n := by
  intro hopen
  have hclosed : s.loop.client.bind s.socketOf = none := of_decide_eq_true hcareful
  rw [h c n hopen, Option.bind_some, hopen] at hclosed
  cases hclosed

theorem OpenInPass.step {a : Action} (h : OpenInPass s) (hcareful : s.careful a = true)
    (hstep : Step s a s') : OpenInPass s' := by
  intro c n hopen
  cases hstep with
  | check hloop =>
      have hclient := h c n hopen
      rw [hloop] at hclient
      cases hclient
  | acceptFails hloop =>
      have hclient := h c n hopen
      rw [hloop] at hclient
      cases hclient
  | @accept id hloop _ =>
      have hopen : (s.connect id).socketOf c = some n := hopen
      rw [socketOf_connect] at hopen
      by_cases heq : c = s.connections.length
      · rw [heq]
        rfl
      · rw [if_neg heq] at hopen
        have hclient := h c n hopen
        rw [hloop] at hclient
        cases hclient
  | insert hloop _ =>
      have hclient := h c n hopen
      rw [hloop] at hclient
      exact hclient
  | startClient hloop =>
      have hclient := h c n hopen
      rw [hloop] at hclient
      exact hclient
  | startEnds hloop =>
      have hclient := h c n hopen
      rw [hloop] at hclient
      exact hclient
  | erase _ _ => exact absurd hopen (closed_of_careful h hcareful c n)
  | keep _ => exact absurd hopen (closed_of_careful h hcareful c n)
  | @disconnectClient _ d _ _ =>
      have hopen : (s.close d).socketOf c = some n := hopen
      rw [socketOf_close] at hopen
      exact h c n (Option.ite_none_left_eq_some.mp hopen).2
  | closeClients _ =>
      rw [closeAll_loop]
      exact h c n (socketOf_of_closeAll hopen)
  | _ => exact h c n hopen

theorem openInPass_of_reachable (h : carefulSystem.Reachable s) : OpenInPass s := by
  apply h.induction (P := OpenInPass)
  · intro c n hopen
    cases hopen
  · intro s a s' _ ih hstep
    obtain ⟨hcareful, hstep⟩ := System.guarded_step_eq_some.mp hstep
    exact ih.step hcareful (step_cases hstep)

/-- With every open socket in the pass under way, none is left between two
passes. -/
theorem OpenInPass.socketsKept (h : OpenInPass s) (hsockets : Sockets s) : SocketsKept s where
  registered hloop n hn hnot := by
    cases hopen : s.socketOf n with
    | none => exact absurd ((hsockets.closed n).mpr ⟨hn, hopen⟩) hnot
    | some m =>
        have hclient := h n m hopen
        rcases hloop with hloop | hloop
        · rw [hloop] at hclient
          cases hclient
        · rw [hloop] at hclient
          cases hclient
  once := hsockets.once

/-- The registry is empty where a pass begins, so a socket that is kept
there is closed. -/
theorem SocketsKept.closed (h : SocketsKept s) (hsockets : Sockets s) (hregistered : Registered s)
    (hloop : s.loop = .checking) (c : Nat) : s.socketOf c = none := by
  cases hopen : s.socketOf c with
  | none => rfl
  | some n =>
      obtain rfl := hsockets.own c n hopen
      have hnot : n ∉ s.closed := by
        intro hmem
        rw [hsockets.closed, hopen] at hmem
        cases hmem.2
      obtain ⟨id, d, hfind, _⟩ := h.registered (.inl hloop) n (Sockets.lt_length hopen) hnot
      rw [hregistered.find?_eq_none (by rw [hloop]; rfl)] at hfind
      cases hfind

/-- A pass that ends with an open socket loses it. -/
theorem careful_of_socketsKept {a : Action} (hs : system.Reachable s) (hstep : Step s a s')
    (h : SocketsKept s') : s.careful a = true := by
  have hclosed := h.closed ((sockets_of_reachable hs).step hstep)
    ((registered_of_reachable hs).step hstep)
  cases hstep with
  | @erase c _ _ hloop _ => exact decide_eq_true (by rw [hloop]; exact hclosed rfl c)
  | @keep c hloop => exact decide_eq_true (by rw [hloop]; exact hclosed rfl c)
  | _ => rfl

/-- **Accepted sockets are kept or closed** in every state that careful
steps reach, and the first step that is not careful loses one. -/
theorem sockets_kept_iff (h : carefulSystem.Reachable s) :
    SocketsKept s ∧
      ∀ a s', system.step s a = some s' → (s.careful a = true ↔ SocketsKept s') := by
  refine ⟨(openInPass_of_reachable h).socketsKept (sockets_of_reachable h.of_guarded), ?_⟩
  intro a s' hstep
  constructor
  · intro hcareful
    have h' := h.step (System.guarded_step_eq_some.mpr ⟨hcareful, hstep⟩)
    exact (openInPass_of_reachable h').socketsKept (sockets_of_reachable h'.of_guarded)
  · exact careful_of_socketsKept h.of_guarded (step_cases hstep)

end OpenInPass

/-- A client whose receive failed after a `stop` had closed it. -/
theorem sockets_kept_iff_stopped :
    let s : Registry :=
      { isListening := false, serverSocketOpen := false,
        connections := [{ id := 7, socket := none }],
        clients := SortedMap.empty.insertOrAssign 7 0, closed := [0],
        loop := .ended 0 (.error (makeErrcCode errcConnectionReset)), stops := [.clientsClosed] }
    SocketsKept s ∧
      ∀ a s', system.step s a = some s' → (s.careful a = true ↔ SocketsKept s') :=
  sockets_kept_iff ⟨[.check, .accept 7, .insert, .startClient, .callStop, .stop 0, .stop 0, .stop 0,
    .startEnds (makeErrcCode errcConnectionReset)], rfl⟩

/-- A client whose receive fails is erased with its socket open. -/
theorem erased_socket_lost : ¬ ∀ s, system.Reachable s → SocketsKept s := by
  intro h
  have hreach : system.Reachable
      { connections := [{ id := 7, socket := some 0 }],
        clients := (SortedMap.empty.insertOrAssign 7 0).erase 7 } :=
    ⟨[.check, .accept 7, .insert, .startClient,
      .startEnds (makeErrcCode errcConnectionReset), .endPass], rfl⟩
  obtain ⟨id, c, hfind, _⟩ :=
    (h _ hreach).registered (.inl rfl) 0 (by decide) List.not_mem_nil
  rw [find?_erase, find?_insertOrAssign] at hfind
  obtain ⟨hne, hfind⟩ := Option.ite_none_left_eq_some.mp hfind
  rw [if_neg hne] at hfind
  cases hfind

end Registry

end Pine
