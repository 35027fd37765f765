import Pine.Base.Transition

/-!
# Server — Locking

Who holds `mutate_clients_mutex` when a thread asks for it. A thread is
its stack of calls into the server: `accept_clients`, which `start` runs
on the thread that calls it, `disconnect_client`, whose coroutine starts
on the thread that calls it and drops its lock at its `co_return`, and the
callbacks that `accept_clients` calls. A callback is known by the calls
that its body may make before it suspends; what it does after that runs on
another thread, with nothing of this stack below it.

`accept_clients` calls the connection callbacks with the mutex held and
all others without it. So a thread comes to lock what it holds exactly
when a connection callback may call `disconnect_client`, or `start`, which
locks at the next connection it accepts (`no_selfLock_iff`).
-/

namespace Pine

open Transition

namespace Locking

/-- The four lists of callbacks. -/
inductive Kind where
  | ready
  | attempt
  | failed
  | connection
  deriving DecidableEq, Repr

/-- The public methods of `server`. -/
inductive Call where
  | start
  | stop
  | disconnectClient
  /-- One of the methods that add a callback to their list. -/
  | register (k : Kind)
  deriving DecidableEq, Repr

/-- Where `accept_clients` is. -/
inductive Point where
  /-- At the head of the loop over the callbacks, `i` of them called. -/
  | callbacks (k : Kind) (i : Nat)
  /-- At the test of `is_listening`. -/
  | checking
  /-- In `accept_socket`. -/
  | accepting
  /-- At the `unique_lock`. -/
  | locking
  /-- In `start` of the client. -/
  | starting
  deriving DecidableEq, Repr

/-- A call on the stack of a thread. -/
inductive Frame where
  | acceptClients (point : Point)
  /-- `disconnect_client`, at its `unique_lock` or behind it. -/
  | disconnectClient (locked : Bool)
  | callback (k : Kind)
  deriving DecidableEq, Repr

structure State where
  /-- The stack of each thread, the call that runs first. A thread without
  a call is in the code of the application. -/
  threads : List (List Frame) := []
  /-- The thread that holds `mutate_clients_mutex`. -/
  owner : Option Nat := none
  registered : List Kind := []
  isListening : Bool := false
  deriving DecidableEq, Repr

def State.setStack (s : State) (t : Nat) (stack : List Frame) : State :=
  { s with threads := s.threads.set t stack }

/-- What comes after the loop over the callbacks. -/
def afterCallbacks : Kind → Point
  | .ready => .checking
  | .attempt => .locking
  | .failed => .checking
  | .connection => .starting

/-- A thread calls a method. A `start` that fails before `accept_clients`
changes nothing here, and `stop` takes no mutex. -/
def State.enter (s : State) (t : Nat) (stack : List Frame) : Call → State
  | .start =>
      { s.setStack t (.acceptClients (.callbacks .ready 0) :: stack) with isListening := true }
  | .stop => { s with isListening := false }
  | .disconnectClient => s.setStack t (.disconnectClient false :: stack)
  | .register k => { s with registered := k :: s.registered }

/-- The next statement of `accept_clients`. `accepts` is what
`accept_socket` comes to, where that is next. -/
def State.acceptClients (s : State) (t : Nat) (below : List Frame) (accepts : Bool) :
    Point → Option State
  | .callbacks k i =>
      some (s.setStack t
        (if i < s.registered.count k then
          .callback k :: .acceptClients (.callbacks k (i + 1)) :: below
        else .acceptClients (afterCallbacks k) :: below))
  | .checking =>
      some (s.setStack t (if s.isListening then .acceptClients .accepting :: below else below))
  | .accepting =>
      some (s.setStack t
        (.acceptClients (.callbacks (if accepts then .attempt else .failed) 0) :: below))
  | .locking =>
      if s.owner = none then
        some { s.setStack t (.acceptClients (.callbacks .connection 0) :: below) with
               owner := some t }
      else none
  | .starting =>
      some { s.setStack t (.acceptClients .checking :: below) with owner := none }

/-- The next statement of the call on top. -/
def State.runTop (s : State) (t : Nat) (below : List Frame) (accepts : Bool) :
    Frame → Option State
  | .acceptClients point => s.acceptClients t below accepts point
  | .disconnectClient false =>
      if s.owner = none then
        some { s.setStack t (.disconnectClient true :: below) with owner := some t }
      else none
  | .disconnectClient true => some { s.setStack t below with owner := none }
  | .callback _ => some (s.setStack t below)

/-- Whether the code that runs may make the call. The application may make
every call, a callback those of its kind. -/
def mayCall (may : Kind → Call → Bool) (c : Call) : List Frame → Bool
  | [] => true
  | .callback k :: _ => may k c
  | _ => false

inductive Action where
  /-- The application starts a thread. -/
  | spawn
  | call (t : Nat) (c : Call)
  /-- Thread `t` runs its next statement in the server, or returns from a
  callback. -/
  | run (t : Nat) (accepts : Bool)
  deriving DecidableEq, Repr

def step (may : Kind → Call → Bool) (s : State) : Action → Option State
  | .spawn => some { s with threads := s.threads ++ [[]] }
  | .call t c =>
      s.threads[t]?.bind fun stack =>
        if mayCall may c stack then some (s.enter t stack c) else none
  | .run t accepts =>
      s.threads[t]?.bind fun stack =>
        match stack with
        | [] => none
        | frame :: below => s.runTop t below accepts frame

/-- A server whose callbacks make the calls that `may` tells. -/
def system (may : Kind → Call → Bool) : System State Action where
  init := {}
  step := step may

/-- The thread asks for the mutex next. -/
def aboutToLock : List Frame → Bool
  | .acceptClients .locking :: _ => true
  | .disconnectClient false :: _ => true
  | _ => false

/-- Some thread is about to lock the mutex that it holds. -/
def SelfLock (s : State) : Prop :=
  ∃ t stack, s.threads[t]? = some stack ∧ aboutToLock stack = true ∧ s.owner = some t

/-! ## Who holds the mutex -/

/-- The call has the mutex locked. -/
def Frame.holds : Frame → Bool
  | .acceptClients (.callbacks .connection _) => true
  | .acceptClients .starting => true
  | .disconnectClient locked => locked
  | _ => false

/-- No call on the stack has the mutex locked. -/
def Free (stack : List Frame) : Prop := ∀ f ∈ stack, f.holds = false

/-- One call has the mutex locked. Above it there is nothing, or a
connection callback. -/
inductive Holding : List Frame → Prop where
  | top {f : Frame} {below : List Frame} : f.holds = true → Free below → Holding (f :: below)
  | callback {f : Frame} {below : List Frame} :
      f.holds = true → Free below → Holding (.callback .connection :: f :: below)

theorem free_nil : Free [] := List.forall_mem_nil _

theorem free_cons {f : Frame} {below : List Frame} (hf : f.holds = false) (h : Free below) :
    Free (f :: below) := List.forall_mem_cons.mpr ⟨hf, h⟩

theorem Free.tail {f : Frame} {below : List Frame} (h : Free (f :: below)) : Free below :=
  (List.forall_mem_cons.mp h).2

theorem Free.head {f : Frame} {below : List Frame} (h : Free (f :: below)) : f.holds = false :=
  (List.forall_mem_cons.mp h).1

/-- Below the call that holds the mutex none does. -/
theorem Holding.free_below {f : Frame} {below : List Frame} (h : Holding (f :: below))
    (hf : f.holds = true) : Free below := by
  cases h with
  | top _ hfree => exact hfree
  | callback _ _ => cases hf

/-- The thread that owns the mutex holds it in one of its calls, and no
other thread has a call that does. -/
structure Owned (s : State) : Prop where
  exists_thread : ∀ t, s.owner = some t → t < s.threads.length
  holding : ∀ t stack, s.threads[t]? = some stack → s.owner = some t → Holding stack
  free : ∀ t stack, s.threads[t]? = some stack → s.owner ≠ some t → Free stack

section Owned
variable {s : State} {t : Nat} {old new : List Frame}

theorem length_setStack : (s.setStack t new).threads.length = s.threads.length :=
  List.length_set

/-- A thread goes on without the mutex changing hands. -/
theorem Owned.setStack (h : Owned s) (hold : s.threads[t]? = some old)
    (hholding : Holding old → Holding new) (hfree : Free old → Free new) :
    Owned (s.setStack t new) where
  exists_thread u howner := by
    rw [length_setStack]
    exact h.exists_thread u howner
  holding u stack hu howner := by
    rcases getElem?_set_cases hu with ⟨rfl, rfl⟩ | ⟨_, hu⟩
    · exact hholding (h.holding t old hold howner)
    · exact h.holding u stack hu howner
  free u stack hu howner := by
    rcases getElem?_set_cases hu with ⟨rfl, rfl⟩ | ⟨_, hu⟩
    · exact hfree (h.free t old hold howner)
    · exact h.free u stack hu howner

theorem Owned.lock (h : Owned s) (hold : s.threads[t]? = some old) (hnone : s.owner = none)
    (hnew : Free old → Holding new) : Owned { s.setStack t new with owner := some t } where
  exists_thread u howner := by
    obtain rfl := Option.some.inj howner
    show t < (s.setStack t new).threads.length
    rw [length_setStack]
    exact (List.getElem?_eq_some_iff.mp hold).1
  holding u stack hu howner := by
    rcases getElem?_set_cases hu with ⟨rfl, rfl⟩ | ⟨hne, hu⟩
    · exact hnew (h.free t old hold (by simp [hnone]))
    · exact absurd (Option.some.inj howner) hne
  free u stack hu howner := by
    rcases getElem?_set_cases hu with ⟨rfl, rfl⟩ | ⟨_, hu⟩
    · exact absurd rfl howner
    · exact h.free u stack hu (by simp [hnone])

theorem Owned.unlock {f : Frame} {below : List Frame} (h : Owned s)
    (hold : s.threads[t]? = some (f :: below)) (hf : f.holds = true)
    (hnew : Free below → Free new) : Owned { s.setStack t new with owner := none } := by
  have howner : s.owner = some t := by
    apply Decidable.byContradiction
    intro hnot
    have hfree := (h.free t _ hold hnot).head
    rw [hf] at hfree
    cases hfree
  have hholding := h.holding t _ hold howner
  constructor
  · intro u hnone
    cases hnone
  · intro u stack _ hnone
    cases hnone
  · intro u stack hu _
    rcases getElem?_set_cases hu with ⟨rfl, rfl⟩ | ⟨hne, hu⟩
    · exact hnew (hholding.free_below hf)
    · apply h.free u stack hu
      rw [howner]
      exact fun heq => hne (Option.some.inj heq)

/-- No connection callback may make a call that locks. -/
def Harmless (may : Kind → Call → Bool) : Prop :=
  may .connection .disconnectClient = false ∧ may .connection .start = false

theorem Owned.spawn (h : Owned s) : Owned { s with threads := s.threads ++ [[]] } where
  exists_thread t howner := by
    have hlt := h.exists_thread t howner
    simp only [List.length_append, List.length_singleton]
    omega
  holding t stack hstack howner := by
    rw [List.getElem?_append_left (h.exists_thread t howner)] at hstack
    exact h.holding t stack hstack howner
  free t stack hstack howner := by
    rw [List.getElem?_append] at hstack
    split at hstack
    · exact h.free t stack hstack howner
    · obtain rfl := List.mem_singleton.mp (List.mem_of_getElem? hstack)
      exact free_nil

/-- The code that makes a call does not hold the mutex, unless it is that
of a connection callback. -/
theorem not_holding_of_mayCall {may : Kind → Call → Bool} {c : Call}
    (hc : may .connection c = false) (hmay : mayCall may c old = true) : ¬ Holding old := by
  intro h
  cases h with
  | @top f below hf _ =>
      cases f with
      | callback k => cases hf
      | acceptClients point => cases hmay
      | disconnectClient locked => cases hmay
  | callback _ _ =>
      rw [mayCall, hc] at hmay
      cases hmay

/-- A call that takes no lock before its first statement is made. -/
theorem Owned.push {may : Kind → Call → Bool} {c : Call} {f : Frame} (h : Owned s)
    (hold : s.threads[t]? = some old) (hc : may .connection c = false)
    (hmay : mayCall may c old = true) (hf : f.holds = false) :
    Owned (s.setStack t (f :: old)) :=
  h.setStack hold (fun hholding => absurd hholding (not_holding_of_mayCall hc hmay))
    (free_cons hf)

theorem Owned.enter {may : Kind → Call → Bool} (hharmless : Harmless may) {c : Call}
    (h : Owned s) (hold : s.threads[t]? = some old) (hmay : mayCall may c old = true) :
    Owned (s.enter t old c) := by
  cases c with
  | start =>
      have hpush := h.push (f := .acceptClients (.callbacks .ready 0)) hold hharmless.2 hmay rfl
      exact ⟨hpush.exists_thread, hpush.holding, hpush.free⟩
  | stop => exact ⟨h.exists_thread, h.holding, h.free⟩
  | disconnectClient => exact h.push hold hharmless.1 hmay rfl
  | register k => exact ⟨h.exists_thread, h.holding, h.free⟩

/-- `accept_clients` outside the mutex. -/
theorem Owned.move {below : List Frame} {point : Point} (h : Owned s)
    (hold : s.threads[t]? = some (.acceptClients point :: below))
    (hpoint : (Frame.acceptClients point).holds = false) (hnew : Free below → Free new) :
    Owned (s.setStack t new) := by
  apply h.setStack hold
  · intro hholding
    cases hholding with
    | top hf _ =>
        rw [hpoint] at hf
        cases hf
  · exact fun hfree => hnew hfree.tail

theorem Owned.acceptClients {below : List Frame} {accepts : Bool} {point : Point} {s' : State}
    (h : Owned s) (hold : s.threads[t]? = some (.acceptClients point :: below))
    (hstep : s.acceptClients t below accepts point = some s') : Owned s' := by
  cases point with
  | callbacks k i =>
      cases hstep
      by_cases hk : k = .connection
      · -- the mutex stays locked, in the callback and after the last of them
        subst hk
        apply h.setStack hold
        · intro hholding
          have hfree := hholding.free_below rfl
          split
          · exact .callback rfl hfree
          · exact .top rfl hfree
        · intro hfree
          cases hfree.head
      · have hout : ∀ j, (Frame.acceptClients (.callbacks k j)).holds = false := by
          cases k with
          | connection => exact absurd rfl hk
          | _ => exact fun _ => rfl
        apply h.move hold (hout i)
        intro hfree
        split
        · exact free_cons rfl (free_cons (hout (i + 1)) hfree)
        · refine free_cons ?_ hfree
          cases k with
          | connection => exact absurd rfl hk
          | _ => rfl
  | checking =>
      cases hstep
      apply h.move hold rfl
      intro hfree
      split
      · exact free_cons rfl hfree
      · exact hfree
  | accepting =>
      cases hstep
      apply h.move hold rfl
      intro hfree
      cases accepts with
      | true => exact free_cons rfl hfree
      | false => exact free_cons rfl hfree
  | locking =>
      obtain ⟨hnone, hstep⟩ := Option.ite_none_right_eq_some.mp hstep
      cases hstep
      exact h.lock hold hnone (fun hfree => .top rfl hfree.tail)
  | starting =>
      cases hstep
      exact h.unlock hold rfl (free_cons rfl)

theorem Owned.runTop {below : List Frame} {accepts : Bool} {f : Frame} {s' : State}
    (h : Owned s) (hold : s.threads[t]? = some (f :: below))
    (hstep : s.runTop t below accepts f = some s') : Owned s' := by
  cases f with
  | acceptClients point => exact h.acceptClients hold hstep
  | disconnectClient locked =>
      cases locked with
      | false =>
          obtain ⟨hnone, hstep⟩ := Option.ite_none_right_eq_some.mp hstep
          cases hstep
          exact h.lock hold hnone (fun hfree => .top rfl hfree.tail)
      | true =>
          cases hstep
          exact h.unlock hold rfl id
  | callback k =>
      cases hstep
      apply h.setStack hold
      · intro hholding
        cases hholding with
        | top hf _ => cases hf
        | callback hf hfree => exact .top hf hfree
      · exact Free.tail

theorem Owned.step {may : Kind → Call → Bool} (hharmless : Harmless may) {a : Action} {s' : State}
    (h : Owned s) (hstep : (system may).step s a = some s') : Owned s' := by
  cases a with
  | spawn =>
      cases hstep
      exact h.spawn
  | call t c =>
      obtain ⟨stack, hstack, hstep⟩ := Option.bind_eq_some_iff.mp hstep
      obtain ⟨hmay, hstep⟩ := Option.ite_none_right_eq_some.mp hstep
      cases hstep
      exact h.enter hharmless hstack hmay
  | run t accepts =>
      obtain ⟨stack, hstack, hstep⟩ := Option.bind_eq_some_iff.mp hstep
      cases stack with
      | nil => cases hstep
      | cons f below => exact h.runTop hstack hstep

theorem owned_of_reachable {may : Kind → Call → Bool} (hharmless : Harmless may)
    (h : (system may).Reachable s) : Owned s := by
  apply h.induction (P := Owned)
  · constructor
    · intro t howner
      cases howner
    · intro t stack _ howner
      cases howner
    · intro t stack hstack _
      cases hstack
  · intro s a s' _ ih hstep
    exact ih.step hharmless hstep

/-- The thread that asks for the mutex does not hold it. -/
theorem not_holding_of_aboutToLock (h : aboutToLock old = true) : ¬ Holding old := by
  intro hholding
  cases hholding with
  | callback _ _ => cases h
  | @top f below hf _ =>
      cases f with
      | callback k => cases hf
      | acceptClients point =>
          cases point with
          | locking => cases hf
          | _ => cases h
      | disconnectClient locked =>
          cases locked with
          | false => cases hf
          | true => cases h

end Owned

/-! ## Self-deadlock -/

/-- A connection callback, called from the locked section. -/
def callbackStack : List Frame :=
  [.callback .connection, .acceptClients (.callbacks .connection 1)]

/-- One thread, in a connection callback. -/
def inConnectionCallback : State :=
  { threads := [callbackStack], owner := some 0, registered := [.connection], isListening := true }

theorem inConnectionCallback_reachable (may : Kind → Call → Bool) :
    (system may).Reachable inConnectionCallback :=
  ⟨[.spawn, .call 0 (.register .connection), .call 0 .start, .run 0 true, .run 0 true, .run 0 true,
    .run 0 true, .run 0 true, .run 0 true], rfl⟩

/-- **No thread locks the mutex that it holds**, whatever the callbacks
do and the connections come to, exactly when no connection callback may
call `disconnect_client` or `start`. -/
theorem no_selfLock_iff (may : Kind → Call → Bool) :
    (∀ s, (system may).Reachable s → ¬ SelfLock s) ↔
      may .connection .disconnectClient = false ∧ may .connection .start = false := by
  constructor
  · intro h
    have hreach := inConnectionCallback_reachable may
    constructor
    · apply Bool.eq_false_iff.mpr
      intro hmay
      have hstep : (system may).step inConnectionCallback (.call 0 .disconnectClient)
          = some (inConnectionCallback.enter 0 callbackStack .disconnectClient) := if_pos hmay
      exact h _ (hreach.step hstep) ⟨0, _, rfl, rfl, rfl⟩
    · apply Bool.eq_false_iff.mpr
      intro hmay
      have hstep : (system may).step inConnectionCallback (.call 0 .start)
          = some (inConnectionCallback.enter 0 callbackStack .start) := if_pos hmay
      -- the inner accept loop comes to its lock with the next connection
      have hrun : (system may).runFrom (inConnectionCallback.enter 0 callbackStack .start)
          [.run 0 true, .run 0 true, .run 0 true, .run 0 true]
          = some (inConnectionCallback.setStack 0 (.acceptClients .locking :: callbackStack)) := rfl
      exact h _ ((hreach.step hstep).runFrom hrun) ⟨0, _, rfl, rfl, rfl⟩
  · rintro hharmless s hs ⟨t, stack, hstack, hlock, howner⟩
    have hholding := (owned_of_reachable hharmless hs).holding t stack hstack howner
    exact not_holding_of_aboutToLock hlock hholding

/-- A connection callback that disconnects the client it is given. -/
theorem disconnect_in_callback_selfLocks :
    ¬ ∀ (may : Kind → Call → Bool) (s : State), (system may).Reachable s → ¬ SelfLock s := by
  intro h
  have hreach : (system fun _ _ => true).Reachable
      (inConnectionCallback.setStack 0 (.disconnectClient false :: callbackStack)) :=
    ⟨[.spawn, .call 0 (.register .connection), .call 0 .start, .run 0 true, .run 0 true,
      .run 0 true, .run 0 true, .run 0 true, .run 0 true, .call 0 .disconnectClient], rfl⟩
  exact h _ _ hreach ⟨0, _, rfl, rfl, rfl⟩

end Locking

end Pine
