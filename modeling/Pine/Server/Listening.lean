import Pine.Http.Text

/-!
# Server — Listening

What `server::start` acquires and what `server::stop` releases: a
reference on the socket library, an address info and the listening
socket. `start` returns at its first error with all it acquired so far,
`stop` releases what the two fields name and leaves them as they are, and
nothing calls `cleanup_wsa`: a reference is never released. The calls that
keep acquisitions and releases in balance are therefore the ones that
never have to release a reference (`balanced_iff_unended`).
-/

namespace Pine

namespace Listening

/-- A listening resource, numbered in order of acquisition. -/
inductive Resource where
  | wsaReference (n : Nat)
  | addressInfo (n : Nat)
  | socket (n : Nat)
  deriving DecidableEq, Repr

/-- The fields of `pine::server` that `start` and `stop` share, and the
ledger of what was acquired and released. -/
structure State where
  /-- `server_socket`, with `none` for `INVALID_SOCKET`. -/
  serverSocket : Option Nat := none
  /-- `address_info`, with `none` for `nullptr`. -/
  addressInfo : Option Nat := none
  isListening : Bool := false
  acquired : List Resource := []
  released : List Resource := []
  deriving DecidableEq, Repr

def State.acquire (s : State) (r : Resource) : State := { s with acquired := r :: s.acquired }

def State.release (s : State) (r : Option Resource) : State :=
  { s with released := r.toList ++ s.released }

/-- The number of the next resource. -/
def State.fresh (s : State) : Nat := s.acquired.length

/-- What the system calls of one `start` answer: an error number where
zero is success, or the `WSAGetLastError` of a call that failed. -/
structure StartCalls where
  wsaStartup : Int := 0
  getaddrinfo : Int := 0
  socket : Except Int Unit := .ok ()
  bind : Except Int Unit := .ok ()
  listen : Except Int Unit := .ok ()
  deriving Repr

/-- Some system call fails. -/
def StartCalls.Fails (calls : StartCalls) : Prop :=
  calls.wsaStartup ≠ 0 ∨ calls.getaddrinfo ≠ 0 ∨
    calls.socket ≠ .ok () ∨ calls.bind ≠ .ok () ∨ calls.listen ≠ .ok ()

/-! ## The calls of `wsa.cpp` -/

/-- `initialize_wsa`. -/
def initializeWsa (result : Int) (s : State) : Expected Unit × State :=
  if result ≠ 0 then (.error (makeErrcCode result), s)
  else (.ok (), s.acquire (.wsaReference s.fresh))

/-- `get_address_info`. -/
def getAddressInfo (error : Int) (s : State) : Expected Nat × State :=
  if error ≠ 0 then (.error (makeErrcCode error), s)
  else (.ok s.fresh, s.acquire (.addressInfo s.fresh))

/-- `create_socket`. -/
def createSocket (socket : Except Int Unit) (s : State) : Expected Nat × State :=
  match socket with
  | .error lastError => (.error (makeErrcCode lastError), s)
  | .ok _ => (.ok s.fresh, s.acquire (.socket s.fresh))

/-- `bind_socket`. -/
def bindSocket (bind : Except Int Unit) : Expected Unit := bind.mapError makeErrcCode

/-- `listen_socket`. -/
def listenSocket (listen : Except Int Unit) : Expected Unit := listen.mapError makeErrcCode

/-- `close_socket`; on `INVALID_SOCKET` there is nothing to close. -/
def closeSocket (socket : Option Nat) (s : State) : State :=
  s.release (socket.map Resource.socket)

/-! ## `server` -/

/-- `server::start`, up to its accept loop, which acquires and releases
none of these resources and returns no error. -/
def start (calls : StartCalls) (s : State) : Expected Unit × State :=
  match initializeWsa calls.wsaStartup s with
  | (.error e, s) => (.error e, s)
  | (.ok _, s) =>
  match getAddressInfo calls.getaddrinfo s with
  | (.error e, s) => (.error e, s)
  | (.ok addressInfo, s) =>
  let s := { s with addressInfo := some addressInfo }
  match createSocket calls.socket s with
  | (.error e, s) => (.error e, s)
  | (.ok socket, s) =>
  let s := { s with serverSocket := some socket }
  match bindSocket calls.bind with
  | .error e => (.error e, s)
  | .ok _ =>
  match listenSocket calls.listen with
  | .error e => (.error e, s)
  | .ok _ => (.ok (), { s with isListening := true })

/-- `server::stop`, without the clients. `delete` counts as the release of
an address info; on a null pointer it does nothing. The fields keep their
values. -/
def stop (s : State) : State :=
  let s := { s with isListening := false }
  let s := closeSocket s.serverSocket s
  s.release (s.addressInfo.map Resource.addressInfo)

/-- A call on the server. -/
inductive Call where
  | start (calls : StartCalls)
  | stop
  deriving Repr

def State.call (s : State) : Call → State
  | .start calls => (Listening.start calls s).2
  | .stop => Listening.stop s

/-- The server after the calls. -/
def run (calls : List Call) : State := calls.foldl State.call {}

/-- The call returns with nothing left to listen on: a `start` with an
error, or a `stop`. -/
def State.Returned (s : State) : Call → Prop
  | .start calls => ∃ e, (Listening.start calls s).1 = .error e
  | .stop => True

/-- After each call no resource was released twice, and after a call that
returns with nothing left to listen on none is unreleased. -/
def Balanced (calls : List Call) : Prop :=
  ∀ before c after, calls = before ++ c :: after →
    (∀ r, (run (before ++ [c])).released.count r ≤ 1) ∧
    ((run before).Returned c →
      ∀ r ∈ (run (before ++ [c])).acquired, r ∈ (run (before ++ [c])).released)

/-! ## What the calls do -/

/-- The call is a `stop`, or a `start` some system call of which fails. -/
def Call.Ends : Call → Prop
  | .start calls => calls.Fails
  | .stop => True

/-- The call is a `start` whose `WSAStartup` succeeds. -/
def Call.Initializes : Call → Prop
  | .start calls => calls.wsaStartup = 0
  | .stop => False

/-- No `stop` and no failing `start` comes at or after the first `start`
whose `WSAStartup` succeeds. -/
def Unended (calls : List Call) : Prop :=
  ∀ before c after, calls = before ++ c :: after → c.Ends → ∀ d ∈ before ++ [c], ¬ d.Initializes

theorem run_concat (calls : List Call) (c : Call) : run (calls ++ [c]) = (run calls).call c := by
  rw [run, List.foldl_append]
  rfl

section start
variable {calls : StartCalls} {s : State}

/-- `start` returns an error when a system call fails. -/
theorem start_error_iff : (∃ e, (start calls s).1 = .error e) ↔ calls.Fails := by
  obtain ⟨wsaStartup, getaddrinfo, socket, bind, listen⟩ := calls
  by_cases hwsa : wsaStartup = 0
  · by_cases haddress : getaddrinfo = 0
    · cases socket <;> cases bind <;> cases listen <;>
        simp [start, initializeWsa, getAddressInfo, createSocket, bindSocket, listenSocket,
          Except.mapError, StartCalls.Fails, hwsa, haddress]
    · simp [start, initializeWsa, getAddressInfo, StartCalls.Fails, hwsa, haddress]
  · simp [start, initializeWsa, StartCalls.Fails, hwsa]

/-- Without a reference `start` does nothing. -/
theorem start_uninitialized (h : calls.wsaStartup ≠ 0) : (start calls s).2 = s := by
  simp [start, initializeWsa, h]

/-- At whichever step `start` ends, it has released nothing and, past the
first, holds a reference. -/
theorem start_ledger :
    (start calls s).2.released = s.released ∧
      (∀ r ∈ s.acquired, r ∈ (start calls s).2.acquired) ∧
      (calls.wsaStartup = 0 → .wsaReference s.fresh ∈ (start calls s).2.acquired) := by
  obtain ⟨wsaStartup, getaddrinfo, socket, bind, listen⟩ := calls
  by_cases hwsa : wsaStartup = 0
  · by_cases haddress : getaddrinfo = 0
    · cases socket <;> cases bind <;> cases listen <;>
        simp +contextual [start, initializeWsa, getAddressInfo, createSocket, bindSocket,
          listenSocket, Except.mapError, State.acquire, hwsa, haddress]
    · simp +contextual [start, initializeWsa, getAddressInfo, State.acquire, hwsa, haddress]
  · simp [start, initializeWsa, hwsa]

end start

/-- No call releases a reference. -/
theorem wsaReference_not_released (calls : List Call) (n : Nat) :
    .wsaReference n ∉ (run calls).released := by
  induction calls using List.reverseRecOn with
  | nil => exact List.not_mem_nil
  | append_singleton calls c ih =>
      rw [run_concat]
      cases c with
      | start k =>
          rw [State.call, start_ledger.1]
          exact ih
      | stop => simp [State.call, stop, closeSocket, State.release, ih]

theorem acquired_call {s : State} {r : Resource} (h : r ∈ s.acquired) (c : Call) :
    r ∈ (s.call c).acquired := by
  cases c with
  | start k => exact start_ledger.2.1 r h
  | stop => exact h

/-- A reference acquired by one of the calls is there after all of them. -/
theorem wsaReference_acquired {calls : List Call} {c : Call} (hmem : c ∈ calls)
    (h : c.Initializes) : ∃ n, .wsaReference n ∈ (run calls).acquired := by
  induction calls using List.reverseRecOn with
  | nil => cases hmem
  | append_singleton calls d ih =>
      rw [run_concat]
      rcases List.mem_append.mp hmem with hmem | hmem
      · obtain ⟨n, hn⟩ := ih hmem
        exact ⟨n, acquired_call hn d⟩
      · obtain rfl := List.mem_singleton.mp hmem
        cases c with
        | start k => exact ⟨_, start_ledger.2.2 h⟩
        | stop => cases h

/-- Calls that acquire no reference leave the server as it was
constructed. -/
theorem run_uninitialized {calls : List Call} (h : ∀ c ∈ calls, ¬ c.Initializes) :
    run calls = {} := by
  induction calls using List.reverseRecOn with
  | nil => rfl
  | append_singleton calls c ih =>
      rw [run_concat, ih (fun d hd => h d (List.mem_append_left _ hd))]
      have hc := h c (by simp)
      cases c with
      | start k => exact start_uninitialized hc
      | stop => rfl

theorem Unended.of_append {calls more : List Call} (h : Unended (calls ++ more)) :
    Unended calls := by
  intro before c after heq
  exact h before c (after ++ more) (by rw [heq, List.append_assoc, List.cons_append])

/-- Unended calls release nothing. -/
theorem released_unended {calls : List Call} (h : Unended calls) : (run calls).released = [] := by
  induction calls using List.reverseRecOn with
  | nil => rfl
  | append_singleton calls c ih =>
      rw [run_concat]
      cases c with
      | start k =>
          rw [State.call, start_ledger.1]
          exact ih h.of_append
      | stop =>
          have hnone : ∀ d ∈ calls, ¬ d.Initializes := by
            intro d hd
            exact h calls .stop [] rfl trivial d (List.mem_append_left _ hd)
          rw [run_uninitialized hnone]
          rfl

theorem returned_iff_ends {s : State} {c : Call} : s.Returned c ↔ c.Ends := by
  cases c with
  | start k => exact start_error_iff
  | stop => exact Iff.rfl

/-- **Start and stop are in balance** exactly while no reference on the
socket library would have to be released. -/
theorem balanced_iff_unended (calls : List Call) : Balanced calls ↔ Unended calls := by
  constructor
  · intro h before c after heq hends d hd hinit
    obtain ⟨n, hn⟩ := wsaReference_acquired hd hinit
    have hreleased := (h before c after heq).2 (returned_iff_ends.mpr hends) _ hn
    exact wsaReference_not_released _ n hreleased
  · intro h before c after heq
    have hfront : Unended (before ++ [c]) := by
      rw [heq, ← List.singleton_append, ← List.append_assoc] at h
      exact h.of_append
    constructor
    · intro r
      rw [released_unended hfront]
      exact Nat.zero_le 1
    · intro hreturned r hr
      rw [run_uninitialized (hfront before c [] rfl (returned_iff_ends.mp hreturned))] at hr
      cases hr

/-- A server that is started and stopped keeps its reference. -/
theorem stop_leaks_reference : ¬ ∀ calls, Balanced calls := by
  intro h
  have hstop := (h [.start {}, .stop] [.start {}] .stop [] rfl).2 trivial (.wsaReference 0)
    (by decide)
  exact absurd hstop (by decide)

end Listening

end Pine
