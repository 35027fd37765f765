import Pine.Server.Locking

/-!
# Server — Deadlock

Whether a thread that is in the server gets on. It waits in three places:
for `mutate_clients_mutex`, in `accept_socket`, and in `start` of a client,
which reads from the connection. The last two may never return, and the
thread in `start` has the mutex. With connection callbacks that make no
call that locks, nothing else is in the way: a thread gets on, once the
owner of the mutex has had its turn, unless it is in a call that never
returns or waits for the mutex of a thread that is. With a connection
callback that does lock, the thread of the accept loop waits for itself,
whatever the calls come to and whatever other threads do
(`progress_or_deadlock`).
-/

namespace Pine

open Transition

namespace Locking

section step
variable {may : Kind → Call → Bool} {s s' : State} {t u : Nat} {f : Frame}
  {stack below : List Frame}

/-- A thread runs the call on top of its stack. -/
theorem run_step (may : Kind → Call → Bool) (hstack : s.threads[t]? = some (f :: below))
    (accepts : Bool) :
    (system may).step s (.run t accepts) = s.runTop t below accepts f := by
  simp only [system, step, hstack]
  rfl

theorem getElem?_setStack_ne (h : u ≠ t) (new : List Frame) :
    (s.setStack t new).threads[u]? = s.threads[u]? := List.getElem?_set_ne (Ne.symm h)

theorem getElem?_setStack_self (hstack : s.threads[t]? = some stack) (new : List Frame) :
    (s.setStack t new).threads[t]? = some new :=
  List.getElem?_set_self (List.getElem?_eq_some_iff.mp hstack).1

/-- A thread that does not ask for the mutex gets on. -/
theorem runTop_of_not_aboutToLock (h : aboutToLock (f :: below) = false) (accepts : Bool) :
    ∃ s', s.runTop t below accepts f = some s' := by
  cases f with
  | callback k => exact ⟨_, rfl⟩
  | disconnectClient locked =>
      cases locked with
      | false => cases h
      | true => exact ⟨_, rfl⟩
  | acceptClients point =>
      cases point with
      | locking => cases h
      | _ => exact ⟨_, rfl⟩

/-- A thread that asks for the mutex gets on exactly when nobody holds it. -/
theorem runTop_of_aboutToLock (h : aboutToLock (f :: below) = true) (accepts : Bool) :
    (∃ s', s.runTop t below accepts f = some s') ↔ s.owner = none := by
  have hite : ∀ {x : State}, (∃ s', (if s.owner = none then some x else none) = some s') ↔
      s.owner = none := by
    intro x
    by_cases howner : s.owner = none
    · rw [if_pos howner]
      exact iff_of_true ⟨x, rfl⟩ howner
    · rw [if_neg howner]
      exact iff_of_false nofun howner
  cases f with
  | callback k => cases h
  | disconnectClient locked =>
      cases locked with
      | false => exact hite
      | true => cases h
  | acceptClients point =>
      cases point with
      | locking => exact hite
      | _ => cases h

/-- A call changes the stack of its thread only. -/
theorem runTop_threads {accepts : Bool} (h : s.runTop t below accepts f = some s') :
    ∃ new, s'.threads = s.threads.set t new := by
  cases f with
  | callback k =>
      cases h
      exact ⟨_, rfl⟩
  | disconnectClient locked =>
      cases locked with
      | false =>
          obtain ⟨_, h⟩ := Option.ite_none_right_eq_some.mp h
          cases h
          exact ⟨_, rfl⟩
      | true =>
          cases h
          exact ⟨_, rfl⟩
  | acceptClients point =>
      cases point with
      | locking =>
          obtain ⟨_, h⟩ := Option.ite_none_right_eq_some.mp h
          cases h
          exact ⟨_, rfl⟩
      | _ =>
          cases h
          exact ⟨_, rfl⟩

end step

/-! ## Calls that never return -/

/-- The call may wait for good. -/
def Frame.waits : Frame → Bool
  | .acceptClients .accepting => true
  | .acceptClients .starting => true
  | _ => false

/-- The thread that acts. -/
def Action.thread : Action → Option Nat
  | .spawn => none
  | .call t _ => some t
  | .run t _ => some t

/-- The server, and the threads that are in an `accept_socket` or a `start`
that never returns. -/
structure Silence where
  state : State := {}
  silent : List Nat := []
  deriving DecidableEq, Repr

inductive Event where
  | act (a : Action)
  /-- What thread `t` waits for will never come. -/
  | silence (t : Nat)
  deriving DecidableEq, Repr

/-- Any call that waits may turn out never to return, at any time. -/
def waiting (may : Kind → Call → Bool) : System Silence Event where
  init := {}
  step s
    | .act a =>
        if a.thread.any (· ∈ s.silent) then none
        else (step may s.state a).map fun state => { s with state }
    | .silence t =>
        if (s.state.threads[t]?.bind List.head?).any Frame.waits then
          some { s with silent := t :: s.silent }
        else none

section waiting
variable {may : Kind → Call → Bool} {s s' : Silence} {a : Action} {t : Nat}

theorem act_eq_some : (waiting may).step s (.act a) = some s' ↔
    (∀ t, a.thread = some t → t ∉ s.silent) ∧
      ∃ state, (system may).step s.state a = some state ∧ s' = { s with state } := by
  simp only [waiting, Option.ite_none_left_eq_some, Option.map_eq_some_iff, Option.any_eq_true,
    decide_eq_true_eq, not_exists, not_and, eq_comm (b := s')]
  rfl

theorem act_of_step {state : State} (ha : ∀ t, a.thread = some t → t ∉ s.silent)
    (h : (system may).step s.state a = some state) :
    (waiting may).step s (.act a) = some { s with state } :=
  act_eq_some.mpr ⟨ha, state, h, rfl⟩

/-- A silent thread does nothing. -/
theorem act_of_silent (ht : t ∈ s.silent) (ha : a.thread = some t) :
    (waiting may).step s (.act a) = none := by
  rw [Option.eq_none_iff_forall_ne_some]
  intro s' h
  exact (act_eq_some.mp h).1 t ha ht

theorem silence_eq_some (h : (waiting may).step s (.silence t) = some s') :
    s' = { s with silent := t :: s.silent } :=
  (Option.some.inj (Option.ite_none_right_eq_some.mp h).2).symm

/-- Who is silent stays so. -/
theorem silent_of_run {es : List Event} (hrun : (waiting may).runFrom s es = some s')
    (ht : t ∈ s.silent) : t ∈ s'.silent := by
  refine System.runFrom_induction (P := fun s => t ∈ s.silent) ?_ hrun ht
  intro s e s' hstep ht
  cases e with
  | act a =>
      obtain ⟨_, state, _, rfl⟩ := act_eq_some.mp hstep
      exact ht
  | silence u =>
      rw [silence_eq_some hstep]
      exact List.mem_cons_of_mem u ht

theorem stateSimulation (may : Kind → Call → Bool) :
    Simulation (waiting may) (system may) fun s state => s.state = state where
  init := rfl
  step s e s' state hrel hstep := by
    subst hrel
    cases e with
    | act a =>
        obtain ⟨_, state, hstate, rfl⟩ := act_eq_some.mp hstep
        exact .inr ⟨a, state, hstate, rfl⟩
    | silence t =>
        rw [silence_eq_some hstep]
        exact .inl rfl

theorem state_reachable (h : (waiting may).Reachable s) : (system may).Reachable s.state := by
  obtain ⟨state, hstate, rfl⟩ := (stateSimulation may).reachable h
  exact hstate

/-- A run in which every call returns. -/
theorem reachable_of_state {state : State} (h : (system may).Reachable state) :
    (waiting may).Reachable { state } := by
  obtain ⟨as, hrun⟩ := h
  have hmap : (waiting may).runFrom { state := (system may).init } (as.map .act)
      = some { state } := by
    refine System.runFrom_map (f := fun state => ({ state } : Silence)) ?_ hrun
    intro state a state' hstep
    exact act_of_step (fun _ _ => List.not_mem_nil) hstep
  exact ⟨_, hmap⟩

/-- A run of one thread that is not silent. -/
theorem run_of_state {u : Nat} {as : List Action} {state : State} (hu : u ∉ s.silent)
    (hrun : (system may).runFrom s.state as = some state) (hall : ∀ a ∈ as, a = .run u true) :
    (waiting may).runFrom s (as.map .act) = some { s with state } := by
  induction as generalizing s with
  | nil =>
      cases hrun
      rfl
  | cons a as ih =>
      obtain ⟨rfl, htail⟩ := List.forall_mem_cons.mp hall
      obtain ⟨state', hstep, hrest⟩ := System.runFrom_cons_eq_some.mp hrun
      have hact : (waiting may).step s (.act (.run u true)) = some { s with state := state' } := by
        apply act_of_step ?_ hstep
        intro t ht
        cases ht
        exact hu
      have hrun' := ih (s := { s with state := state' }) hu hrest htail
      exact System.runFrom_cons_eq_some.mpr ⟨_, hact, hrun'⟩

end waiting

/-! ## The owner releases the mutex -/

/-- Statements of thread `u` alone release the mutex. -/
def Releases (may : Kind → Call → Bool) (s : State) (u : Nat) : Prop :=
  ∃ as s', (system may).runFrom s as = some s' ∧ (∀ a ∈ as, a = .run u true) ∧
    s'.owner = none ∧ ∀ v, v ≠ u → s'.threads[v]? = s.threads[v]?

section release
variable {may : Kind → Call → Bool} {s s' : State} {u : Nat} {f : Frame} {below : List Frame}

theorem Releases.cons (hstep : (system may).step s (.run u true) = some s')
    (hothers : ∀ v, v ≠ u → s'.threads[v]? = s.threads[v]?) (h : Releases may s' u) :
    Releases may s u := by
  obtain ⟨as, t, hrun, hall, hnone, hrest⟩ := h
  refine ⟨.run u true :: as, t, System.runFrom_cons_eq_some.mpr ⟨s', hstep, hrun⟩,
    List.forall_mem_cons.mpr ⟨rfl, hall⟩, hnone, ?_⟩
  intro v hv
  rw [hrest v hv, hothers v hv]

/-- The statement that unlocks. -/
theorem releases_of_unlock {new : List Frame}
    (hstep : (system may).step s (.run u true) = some { s.setStack u new with owner := none }) :
    Releases may s u :=
  Releases.cons hstep (fun _ hv => getElem?_setStack_ne hv new)
    ⟨[], _, rfl, List.forall_mem_nil _, rfl, fun _ _ => rfl⟩

/-- The connection callbacks return one after the other, and the client is
started. -/
theorem releases_of_callbacks {i : Nat}
    (hstack : s.threads[u]? = some (.acceptClients (.callbacks .connection i) :: below)) :
    Releases may s u := by
  induction hleft : s.registered.count .connection - i generalizing s i with
  | zero =>
      have hstep := run_step may hstack true
      simp only [State.runTop, State.acceptClients] at hstep
      rw [if_neg (by omega)] at hstep
      refine Releases.cons hstep (fun _ hv => getElem?_setStack_ne hv _) ?_
      exact releases_of_unlock (run_step may (getElem?_setStack_self hstack _) true)
  | succ left ih =>
      have hstep := run_step may hstack true
      simp only [State.runTop, State.acceptClients] at hstep
      rw [if_pos (by omega)] at hstep
      refine Releases.cons hstep (fun _ hv => getElem?_setStack_ne hv _) ?_
      have hreturn := run_step may (getElem?_setStack_self hstack
        (.callback .connection :: .acceptClients (.callbacks .connection (i + 1)) :: below)) true
      refine Releases.cons hreturn (fun _ hv => getElem?_setStack_ne hv _) ?_
      exact ih (getElem?_setStack_self (getElem?_setStack_self hstack _) _)
        (by simp only [State.setStack]; omega)

/-- A call with the mutex locked, on top of the stack. -/
theorem releases_of_holds (hstack : s.threads[u]? = some (f :: below)) (hf : f.holds = true) :
    Releases may s u := by
  cases f with
  | callback k => cases hf
  | disconnectClient locked =>
      cases locked with
      | false => cases hf
      | true => exact releases_of_unlock (run_step may hstack true)
  | acceptClients point =>
      cases point with
      | callbacks k i =>
          cases k with
          | connection => exact releases_of_callbacks hstack
          | _ => cases hf
      | starting => exact releases_of_unlock (run_step may hstack true)
      | _ => cases hf

/-- **The owner comes to its unlock** by statements of its own. -/
theorem releases_of_owner (may : Kind → Call → Bool) (h : Owned s) (howner : s.owner = some u) :
    Releases may s u := by
  obtain ⟨stack, hstack⟩ : ∃ stack, s.threads[u]? = some stack :=
    ⟨_, List.getElem?_eq_getElem (h.exists_thread u howner)⟩
  cases h.holding u stack hstack howner with
  | top hf _ => exact releases_of_holds hstack hf
  | callback hf _ =>
      refine Releases.cons (run_step may hstack true) (fun _ hv => getElem?_setStack_ne hv _) ?_
      exact releases_of_holds (getElem?_setStack_self hstack _) hf

end release

/-- The thread takes its next step, at once or when the owner of the mutex
has released it by statements of its own. -/
def GetsOn (may : Kind → Call → Bool) (s : Silence) (t : Nat) : Prop :=
  ∃ es s', (waiting may).runFrom s es = some s' ∧
    (∀ e ∈ es, ∃ u, u ≠ t ∧ s.state.owner = some u ∧ e = .act (.run u true)) ∧
    ∃ s'', (waiting may).step s' (.act (.run t true)) = some s''

/-- The thread is in a call that never returns, or asks for the mutex while
its owner is in one. -/
def Silence.Blocked (s : Silence) (t : Nat) : Prop :=
  t ∈ s.silent ∨ ∃ u ∈ s.silent, s.state.owner = some u ∧
    ∃ stack, s.state.threads[t]? = some stack ∧ aboutToLock stack = true

theorem getsOn_of_owned {may : Kind → Call → Bool} {s : Silence} {t : Nat} {f : Frame}
    {below : List Frame} (h : Owned s.state) (hstack : s.state.threads[t]? = some (f :: below))
    (hblocked : ¬ s.Blocked t) : GetsOn may s t := by
  have hsilent : t ∉ s.silent := fun ht => hblocked (.inl ht)
  have hact : ∀ {state state' : State}, (system may).step state (.run t true) = some state' →
      (waiting may).step { s with state } (.act (.run t true))
        = some { s with state := state' } := by
    intro state state' hstep
    apply act_of_step ?_ hstep
    intro t' ht'
    cases ht'
    exact hsilent
  by_cases hnext : ∃ s', s.state.runTop t below true f = some s'
  · rw [← run_step may hstack true] at hnext
    obtain ⟨state', hstep⟩ := hnext
    exact ⟨[], s, rfl, List.forall_mem_nil _, _, hact hstep⟩
  · have hlock : aboutToLock (f :: below) = true := by
      rw [← Bool.not_eq_false]
      exact fun hnot => hnext (runTop_of_not_aboutToLock hnot true)
    rw [runTop_of_aboutToLock hlock] at hnext
    obtain ⟨u, howner⟩ := Option.ne_none_iff_exists'.mp hnext
    have hne : u ≠ t := by
      intro heq
      subst heq
      exact not_holding_of_aboutToLock hlock (h.holding u _ hstack howner)
    have hu : u ∉ s.silent := fun hu => hblocked (.inr ⟨u, hu, howner, _, hstack, hlock⟩)
    obtain ⟨as, state, hrun, hall, hnone, hothers⟩ := releases_of_owner may h howner
    have hstack' : state.threads[t]? = some (f :: below) := (hothers t (Ne.symm hne)).trans hstack
    have hnext' : ∃ s', state.runTop t below true f = some s' :=
      (runTop_of_aboutToLock hlock true).mpr hnone
    rw [← run_step may hstack' true] at hnext'
    obtain ⟨state', hstep⟩ := hnext'
    refine ⟨_, _, run_of_state hu hrun hall, ?_, _, hact hstep⟩
    intro e he
    obtain ⟨a, ha, rfl⟩ := List.mem_map.mp he
    exact ⟨u, hne, howner, congrArg Event.act (hall a ha)⟩

/-! ## A mutex that is never released -/

/-- Thread `u` owns the mutex, and nobody else has it locked. -/
structure Holder (s : State) (u : Nat) : Prop where
  owner : s.owner = some u
  free : ∀ v stack, v ≠ u → s.threads[v]? = some stack → Free stack

section holder
variable {may : Kind → Call → Bool} {s s' : State} {t u v : Nat} {old new : List Frame}
  {a : Action}

theorem holder_of_owned (h : Owned s) (howner : s.owner = some u) : Holder s u := by
  refine ⟨howner, ?_⟩
  intro v stack hne hstack
  apply h.free v stack hstack
  rw [howner]
  exact fun heq => hne (Option.some.inj heq).symm

/-- Another thread goes on. -/
theorem Holder.setStack (h : Holder s u) (hfree : Free new) : Holder (s.setStack v new) u where
  owner := h.owner
  free w stack hw hstack := by
    rcases getElem?_set_cases hstack with ⟨rfl, rfl⟩ | ⟨_, hstack⟩
    · exact hfree
    · exact h.free w stack hw hstack

theorem Holder.enter (h : Holder s u) (hfree : Free old) (c : Call) :
    Holder (s.enter v old c) u := by
  cases c with
  | start =>
      have hpush : Holder (s.setStack v (.acceptClients (.callbacks .ready 0) :: old)) u :=
        h.setStack (free_cons rfl hfree)
      exact ⟨hpush.owner, hpush.free⟩
  | stop => exact ⟨h.owner, h.free⟩
  | disconnectClient => exact h.setStack (free_cons rfl hfree)
  | register k => exact ⟨h.owner, h.free⟩

/-- A thread that has nothing locked, while another one holds the mutex. -/
theorem Holder.runTop {f : Frame} {below : List Frame} {accepts : Bool} (h : Holder s u)
    (hfree : Free (f :: below)) (hstep : s.runTop v below accepts f = some s') :
    Holder s' u := by
  have hbelow := hfree.tail
  have hheld : s.owner ≠ none := by simp [h.owner]
  cases f with
  | callback k =>
      cases hstep
      exact h.setStack hbelow
  | disconnectClient locked =>
      cases locked with
      | false => exact absurd (Option.ite_none_right_eq_some.mp hstep).1 hheld
      | true => cases hfree.head
  | acceptClients point =>
      cases point with
      | callbacks k i =>
          cases hstep
          have hk : k ≠ .connection := by
            intro heq
            subst heq
            cases hfree.head
          apply h.setStack
          cases k with
          | connection => exact absurd rfl hk
          | _ =>
              split
              · exact free_cons rfl (free_cons rfl hbelow)
              · exact free_cons rfl hbelow
      | checking =>
          cases hstep
          apply h.setStack
          split
          · exact free_cons rfl hbelow
          · exact hbelow
      | accepting =>
          cases hstep
          cases accepts with
          | true => exact h.setStack (free_cons rfl hbelow)
          | false => exact h.setStack (free_cons rfl hbelow)
      | locking => exact absurd (Option.ite_none_right_eq_some.mp hstep).1 hheld
      | starting => cases hfree.head

theorem Holder.spawn (h : Holder s u) : Holder { s with threads := s.threads ++ [[]] } u where
  owner := h.owner
  free v stack hne hstack := by
    rw [List.getElem?_append] at hstack
    split at hstack
    · exact h.free v stack hne hstack
    · obtain rfl := List.mem_singleton.mp (List.mem_of_getElem? hstack)
      exact free_nil

/-- **Who else acts leaves the mutex with its owner.** -/
theorem Holder.step (h : Holder s u) (ha : a.thread ≠ some u)
    (hstep : (system may).step s a = some s') : Holder s' u := by
  cases a with
  | spawn =>
      cases hstep
      exact h.spawn
  | call v c =>
      obtain ⟨stack, hstack, hstep⟩ := Option.bind_eq_some_iff.mp hstep
      obtain ⟨_, hstep⟩ := Option.ite_none_right_eq_some.mp hstep
      cases hstep
      exact h.enter (h.free v stack (fun heq => ha (congrArg some heq)) hstack) c
  | run v accepts =>
      obtain ⟨stack, hstack, hstep⟩ := Option.bind_eq_some_iff.mp hstep
      cases stack with
      | nil => cases hstep
      | cons f below =>
          exact h.runTop (h.free v _ (fun heq => ha (congrArg some heq)) hstack) hstep

/-- The stack of a thread is its own. -/
theorem getElem?_step_ne (ha : a.thread ≠ some t) (hold : s.threads[t]? = some old)
    (hstep : (system may).step s a = some s') : s'.threads[t]? = some old := by
  cases a with
  | spawn =>
      cases hstep
      rw [List.getElem?_append_left (List.getElem?_eq_some_iff.mp hold).1]
      exact hold
  | call v c =>
      have hne : t ≠ v := fun heq => ha (congrArg some heq.symm)
      obtain ⟨stack, _, hstep⟩ := Option.bind_eq_some_iff.mp hstep
      obtain ⟨_, hstep⟩ := Option.ite_none_right_eq_some.mp hstep
      cases hstep
      cases c with
      | start => exact (getElem?_setStack_ne hne _).trans hold
      | stop => exact hold
      | disconnectClient => exact (getElem?_setStack_ne hne _).trans hold
      | register k => exact hold
  | run v accepts =>
      have hne : t ≠ v := fun heq => ha (congrArg some heq.symm)
      obtain ⟨stack, _, hstep⟩ := Option.bind_eq_some_iff.mp hstep
      cases stack with
      | nil => cases hstep
      | cons f below =>
          obtain ⟨new, hthreads⟩ := runTop_threads hstep
          rw [hthreads, List.getElem?_set_ne hne.symm]
          exact hold

/-- Code that asks for the mutex makes no call. -/
theorem not_mayCall_of_aboutToLock {c : Call} (h : aboutToLock old = true) :
    mayCall may c old = false := by
  cases old with
  | nil => cases h
  | cons f below =>
      cases f with
      | callback k => cases h
      | _ => rfl

/-- Who asks for a mutex that somebody holds does nothing. -/
theorem step_of_aboutToLock (hold : s.threads[t]? = some old) (hlock : aboutToLock old = true)
    (hheld : s.owner ≠ none) (ha : a.thread = some t) : (system may).step s a = none := by
  cases a with
  | spawn => cases ha
  | call v c =>
      cases ha
      simp only [system, Locking.step, hold, Option.bind_some, not_mayCall_of_aboutToLock hlock,
        Bool.false_eq_true, if_false]
  | run v accepts =>
      cases ha
      cases old with
      | nil => cases hlock
      | cons f below =>
          rw [run_step may hold, Option.eq_none_iff_forall_ne_some]
          intro s' h
          exact hheld ((runTop_of_aboutToLock hlock accepts).mp ⟨s', h⟩)

end holder

/-- Thread `t` asks for the mutex, and its owner is silent or is `t`
itself. -/
structure Stuck (s : Silence) (t u : Nat) : Prop where
  holder : Holder s.state u
  waits : ∃ stack, s.state.threads[t]? = some stack ∧ aboutToLock stack = true
  idle : u ∈ s.silent ∨ u = t

section stuck
variable {may : Kind → Call → Bool} {s s' : Silence} {t u : Nat}

/-- The thread that waits runs nothing. -/
theorem Stuck.act_eq_none {a : Action} (h : Stuck s t u) (ha : a.thread = some t) :
    (waiting may).step s (.act a) = none := by
  obtain ⟨stack, hstack, hlock⟩ := h.waits
  have hnone : (system may).step s.state a = none :=
    step_of_aboutToLock hstack hlock (by simp [h.holder.owner]) ha
  rw [Option.eq_none_iff_forall_ne_some]
  intro s' hstep
  obtain ⟨_, state, hstate, _⟩ := act_eq_some.mp hstep
  rw [hnone] at hstate
  cases hstate

/-- Nothing that a thread does helps the one that waits. -/
theorem Stuck.step {e : Event} (h : Stuck s t u) (hstep : (waiting may).step s e = some s') :
    Stuck s' t u := by
  cases e with
  | act a =>
      have ht : a.thread ≠ some t := by
        intro ha
        rw [h.act_eq_none ha] at hstep
        cases hstep
      obtain ⟨hloud, state, hstate, rfl⟩ := act_eq_some.mp hstep
      have hu : a.thread ≠ some u := by
        rcases h.idle with hsilent | rfl
        · exact fun ha => hloud u ha hsilent
        · exact ht
      obtain ⟨stack, hstack, hlock⟩ := h.waits
      exact ⟨h.holder.step hu hstate, ⟨stack, getElem?_step_ne ht hstack hstate, hlock⟩, h.idle⟩
  | silence v =>
      rw [silence_eq_some hstep]
      exact ⟨h.holder, h.waits, h.idle.imp_left (List.mem_cons_of_mem v)⟩

theorem Stuck.run {es : List Event} (h : Stuck s t u)
    (hrun : (waiting may).runFrom s es = some s') : Stuck s' t u :=
  System.runFrom_induction (P := fun s => Stuck s t u) (fun _ _ _ hstep h => h.step hstep) hrun h

/-- **A blocked thread never takes another step.** -/
theorem Silence.Blocked.never (howned : Owned s.state) (h : s.Blocked t) {es : List Event}
    (hrun : (waiting may).runFrom s es = some s') (accepts : Bool) :
    (waiting may).step s' (.act (.run t accepts)) = none := by
  rcases h with ht | ⟨u, hu, howner, hwaits⟩
  · exact act_of_silent (silent_of_run hrun ht) rfl
  · have hstuck : Stuck s t u := ⟨holder_of_owned howned howner, hwaits, .inl hu⟩
    exact (hstuck.run hrun).act_eq_none rfl

end stuck

/-! ## A thread that waits for itself -/

/-- The thread of the accept loop, the only one, asks for the mutex that
it holds. -/
theorem stuck_of_aboutToLock {state : State} {stack : List Frame}
    (hthreads : state.threads = [stack]) (howner : state.owner = some 0)
    (hlock : aboutToLock stack = true) : Stuck { state } 0 0 where
  holder := by
    refine ⟨howner, ?_⟩
    intro v stack' hne hstack'
    rw [hthreads] at hstack'
    cases v with
    | zero => exact absurd rfl hne
    | succ v => cases hstack'
  waits := ⟨stack, by rw [hthreads]; rfl, hlock⟩
  idle := .inr rfl

/-- A connection callback that may lock brings its thread to wait for
itself. -/
theorem exists_stuck {may : Kind → Call → Bool} (h : ¬ Harmless may) :
    ∃ state t, (system may).Reachable state ∧ Stuck { state } t t := by
  have hreach := inConnectionCallback_reachable may
  by_cases hmay : may .connection .disconnectClient = true
  · have hstep : (system may).step inConnectionCallback (.call 0 .disconnectClient)
        = some (inConnectionCallback.enter 0 callbackStack .disconnectClient) := if_pos hmay
    exact ⟨_, 0, hreach.step hstep, stuck_of_aboutToLock rfl rfl rfl⟩
  · have hmay : may .connection .start = true := by
      rw [← Bool.not_eq_false]
      exact fun hstart => h ⟨Bool.eq_false_iff.mpr hmay, hstart⟩
    have hstep : (system may).step inConnectionCallback (.call 0 .start)
        = some (inConnectionCallback.enter 0 callbackStack .start) := if_pos hmay
    -- the inner accept loop comes to its lock with the next connection
    have hrun : (system may).runFrom (inConnectionCallback.enter 0 callbackStack .start)
        [.run 0 true, .run 0 true, .run 0 true, .run 0 true]
        = some (inConnectionCallback.setStack 0 (.acceptClients .locking :: callbackStack)) := rfl
    exact ⟨_, 0, (hreach.step hstep).runFrom hrun, stuck_of_aboutToLock rfl rfl rfl⟩

/-- **Progress or deadlock.** With connection callbacks that call neither
`disconnect_client` nor `start`, a thread that is in the server gets on, at
once or after statements of the owner of the mutex alone, unless it is
blocked: it is in an `accept_socket` or a `start` that never returns, or
asks for the mutex while the owner is in one, and then it never takes
another step. With any other connection callbacks some run, in which every
call has returned, comes to a thread that is in the server and never gets
on, and the mutex is never released again, whatever runs from there. -/
theorem progress_or_deadlock (may : Kind → Call → Bool) :
    (may .connection .disconnectClient = false ∧ may .connection .start = false →
      ∀ s, (waiting may).Reachable s →
        ∀ t f below, s.state.threads[t]? = some (f :: below) →
          (¬ s.Blocked t → GetsOn may s t) ∧
          (s.Blocked t → ∀ es s', (waiting may).runFrom s es = some s' →
            ∀ accepts, (waiting may).step s' (.act (.run t accepts)) = none)) ∧
    (¬ (may .connection .disconnectClient = false ∧ may .connection .start = false) →
      ∃ s t, (waiting may).Reachable s ∧ s.silent = [] ∧
        (∃ f below, s.state.threads[t]? = some (f :: below)) ∧
        ∀ es s', (waiting may).runFrom s es = some s' → s'.state.owner = some t ∧
          ∀ accepts, (waiting may).step s' (.act (.run t accepts)) = none) := by
  constructor
  · intro hharmless s hs t f below hstack
    have howned := owned_of_reachable hharmless (state_reachable hs)
    refine ⟨getsOn_of_owned howned hstack, ?_⟩
    intro hblocked es s' hrun accepts
    exact hblocked.never howned hrun accepts
  · intro hharmful
    obtain ⟨state, t, hs, hstuck⟩ := exists_stuck hharmful
    obtain ⟨stack, hstack, hlock⟩ := hstuck.waits
    refine ⟨{ state }, t, reachable_of_state hs, rfl, ?_, ?_⟩
    · cases stack with
      | nil => cases hlock
      | cons f below => exact ⟨f, below, hstack⟩
    · intro es s' hrun
      have hstuck' := hstuck.run hrun
      exact ⟨hstuck'.holder.owner, fun accepts => hstuck'.act_eq_none rfl⟩

end Locking

end Pine
