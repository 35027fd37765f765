import Pine.Net.Receiving
import Pine.Base.Transition

/-!
# Net — Consumers

Several receives on one connection. `server_connection::start` and
`client_connection::listen` keep a receive of their own going and throw
its messages away, while the application calls `receive_request` or
`receive_response` on the same connection. Nothing tells one receive from
another: each result of `recv` goes to the call that happens to make it.

A message that arrives whole is returned to the application exactly when
the call that takes its last piece is one of the application's, and has
taken the other pieces and no more (`nothing_swallowed_iff`).
-/

namespace Pine

open Transition

/-- What `receive_response` makes of a message. -/
def responseOf (text : Bytes) : BodyEnd HttpResponse :=
  match HttpResponse.parse text with
  | .value response => .returns (.expected (.ok response))
  | .unexpected e => .returns (.expected (.error e))
  | .outOfRange => .throws

/-- `client_connection::receive_response`. -/
def receiveResponse (calls : List Recv) : Option (BodyEnd HttpResponse × List Recv) :=
  match receiveRawMessage calls with
  | none => none
  | some (received, calls) =>
      match received.result with
      | .error e => some (.returns (.error e), calls)
      | .ok responseString => some (responseOf responseString, calls)

namespace Consumers

/-- One end of a connection. -/
structure Side (α : Type) where
  /-- What a receive of the application makes of a message. -/
  result : Bytes → BodyEnd α
  /-- Whether the background loop receives again after what it received. -/
  listensOn : CoReturn Bytes → Bool

/-- What a receive of the application ends with. -/
def Side.ending {α : Type} (side : Side α) (received : CoReturn Bytes) : BodyEnd α :=
  match received.result with
  | .error e => .returns (.error e)
  | .ok text => side.result text

/-- The server: `start` receives requests until one fails. -/
def server : Side HttpRequest where
  result := requestOf
  listensOn received :=
    match received.result with
    | .error _ => false
    | .ok text => (requestOf text).result.isOk

/-- The client: `listen` receives raw messages until one fails. -/
def client : Side HttpResponse where
  result := responseOf
  listensOn received := received.result.isOk

/-- The receive of the server's application is `receive_request`. -/
theorem receiveRequest_eq (calls : List Recv) :
    receiveRequest calls = (receiveRawMessage calls).map fun r => (server.ending r.1, r.2) := by
  unfold receiveRequest
  cases receiveRawMessage calls with
  | none => rfl
  | some r =>
      obtain ⟨received, rest⟩ := r
      simp only [Option.map_some, Side.ending, server, requestOf]
      cases received.result with
      | error e => rfl
      | ok text =>
          dsimp only
          cases HttpRequest.parse text <;> rfl

/-- The receive of the client's application is `receive_response`. -/
theorem receiveResponse_eq (calls : List Recv) :
    receiveResponse calls = (receiveRawMessage calls).map fun r => (client.ending r.1, r.2) := by
  unfold receiveResponse
  cases receiveRawMessage calls with
  | none => rfl
  | some r =>
      obtain ⟨received, rest⟩ := r
      simp only [Option.map_some, Side.ending, client]
      cases received.result <;> rfl

/-! ## Receives -/

/-- A receive under way or ended: whose it is, and which results of `recv`
it got, by their places in the stream. -/
structure Receive where
  background : Bool
  taken : List Nat := []
  deriving DecidableEq, Repr

/-- The receive gets the result at `p`. -/
def Receive.take (r : Receive) (p : Nat) : Receive := { r with taken := r.taken ++ [p] }

structure State where
  /-- How many results `recv` has returned. -/
  next : Nat := 0
  receives : List Receive := []
  deriving DecidableEq, Repr

/-- New receives begin. -/
def State.make (s : State) (made : List Receive) : State :=
  { s with receives := s.receives ++ made }

/-- The next result goes to `r`, which is the `i`-th receive. -/
def State.take (s : State) (i : Nat) (r : Receive) : State :=
  { next := s.next + 1, receives := s.receives.set i (r.take s.next) }

/-- The body of the receive, over the results it got: `none` while it
waits for more. -/
def Receive.received (stream : List Recv) (r : Receive) : Option (CoReturn Bytes) :=
  (receiveRawMessage (r.taken.filterMap (stream[·]?))).map Prod.fst

inductive Action where
  /-- `start` or `listen` is called, and makes its first receive. -/
  | listen
  /-- The application makes a receive. -/
  | receive
  /-- The next result of `recv` goes to the `i`-th receive. -/
  | recv (i : Nat)
  deriving DecidableEq, Repr

section system
variable {α : Type} (side : Side α) (stream : List Recv)

/-- The receives that the background makes after one of its own ended. -/
def listenAgain (r : Receive) : List Receive :=
  match r.received stream with
  | none => []
  | some received =>
      if r.background && side.listensOn received then [{ background := true }] else []

def step (s : State) : Action → Option State
  | .listen => some (s.make [{ background := true }])
  | .receive => some (s.make [{ background := false }])
  | .recv i =>
      s.receives[i]?.bind fun r =>
        if r.received stream = none ∧ s.next < stream.length then
          some ((s.take i r).make (listenAgain side stream (r.take s.next)))
        else none

/-- A connection on which `recv` returns the results of `stream`. -/
def system : System State Action where
  init := {}
  step := step side stream

end system

/-! ## Messages -/

section messages
variable (stream : List Recv)

/-- The bytes of a result. -/
def chunkAt (p : Nat) : Bytes :=
  match stream[p]? with
  | some (.data chunk) => chunk
  | _ => []

/-- The result fills the buffer. -/
def isFull (p : Nat) : Bool := (chunkAt stream p).length = chunkSize

/-- The result is the last piece of a message. -/
def isLast (p : Nat) : Bool := 0 < (chunkAt stream p).length ∧ (chunkAt stream p).length < chunkSize

/-- Where the message that goes on at `p` has started. -/
def messageStart : Nat → Nat
  | 0 => 0
  | p + 1 => if isFull stream p then messageStart p else p + 1

/-- The places of the pieces in front of `p` in its message. -/
def earlierPieces (p : Nat) : List Nat :=
  List.range' (messageStart stream p) (p - messageStart stream p)

/-- The message whose last piece is at `p`. -/
def messageText (p : Nat) : Bytes := ((earlierPieces stream p ++ [p]).map (chunkAt stream)).flatten

end messages

section claims
variable {α : Type} (side : Side α) (stream : List Recv)

/-- The `i`-th receive is one of the application's, took the message that
ends at `p` and nothing else, and ended with it. -/
def Returned (s : State) (p i : Nat) : Prop :=
  ∃ r, s.receives[i]? = some r ∧ r.background = false ∧ r.taken = earlierPieces stream p ++ [p] ∧
    (r.received stream).map side.ending = some (side.result (messageText stream p))

/-- Every message that `recv` has delivered was returned by exactly one
receive of the application. -/
def NothingSwallowed (s : State) : Prop :=
  ∀ p, p < s.next → isLast stream p = true → ∃! i, Returned side stream s p i

/-- The last piece of a message goes to a receive of the application that
has the other pieces. -/
def careful (s : State) : Action → Bool
  | .recv i =>
      !isLast stream s.next ||
        s.receives[i]?.any fun r => !r.background && r.taken = earlierPieces stream s.next
  | _ => true

/-- The runs of which every step is careful. -/
def carefulSystem : System State Action :=
  (system side stream).guarded fun s a => careful stream s a = true

end claims

/-! ## What a message is received as -/

section messages
variable {stream : List Recv} {p q : Nat}

theorem getElem?_of_chunkAt (h : 0 < (chunkAt stream p).length) :
    stream[p]? = some (.data (chunkAt stream p)) := by
  unfold chunkAt at h ⊢
  split at h
  · next chunk hp => rw [hp]
  · exact absurd h (Nat.lt_irrefl 0)

theorem messageStart_le (stream : List Recv) (p : Nat) : messageStart stream p ≤ p := by
  induction p with
  | zero => exact Nat.le_refl 0
  | succ p ih =>
      rw [messageStart]
      split
      · omega
      · exact Nat.le_refl _

theorem isFull_of_mem (h : q ∈ earlierPieces stream p) : isFull stream q = true := by
  induction p with
  | zero => cases h
  | succ p ih =>
      have hle := messageStart_le stream p
      simp only [earlierPieces, List.mem_range'_1, messageStart] at h ih
      split at h
      · next hfull =>
        by_cases hq : q = p
        · rw [hq]
          exact hfull
        · exact ih (by omega)
      · omega

/-- The results at places that hold data are these data. -/
theorem filterMap_getElem? {places : List Nat} (h : ∀ q ∈ places, 0 < (chunkAt stream q).length) :
    places.filterMap (stream[·]?) = (places.map (chunkAt stream)).map .data := by
  induction places with
  | nil => rfl
  | cons q places ih =>
      rw [List.filterMap_cons, getElem?_of_chunkAt (h q List.mem_cons_self),
        ih (fun q' hq' => h q' (List.mem_cons_of_mem q hq'))]
      rfl

/-- **A receive of the pieces of a message ends with it.** -/
theorem received_message {r : Receive} (hlast : isLast stream p = true)
    (htaken : r.taken = earlierPieces stream p ++ [p]) :
    r.received stream = some (.value (messageText stream p)) := by
  have hlen : 0 < (chunkAt stream p).length ∧ (chunkAt stream p).length < chunkSize :=
    of_decide_eq_true hlast
  have hfull : ∀ c ∈ (earlierPieces stream p).map (chunkAt stream), c.length = chunkSize := by
    intro c hc
    obtain ⟨q, hq, rfl⟩ := List.mem_map.mp hc
    exact of_decide_eq_true (isFull_of_mem hq)
  have hsplit : (earlierPieces stream p ++ [p]).map (chunkAt stream)
      = (earlierPieces stream p).map (chunkAt stream) ++ [chunkAt stream p] := by simp
  have htext : messageText stream p
      = ((earlierPieces stream p).map (chunkAt stream)).flatten ++ chunkAt stream p := by
    rw [messageText, hsplit, List.flatten_append, List.flatten_singleton]
  obtain ⟨hdelivery, hpieces⟩ := delivery_concat hfull hlen.1 hlen.2
  rw [← hsplit] at hpieces hdelivery
  rw [← htext] at hdelivery
  have hplaces : ∀ q ∈ earlierPieces stream p ++ [p], 0 < (chunkAt stream q).length :=
    fun q hq => (hpieces _ (List.mem_map_of_mem hq)).1
  have hraw := receiveRawMessage_delivery hdelivery hpieces []
  rw [List.append_nil] at hraw
  rw [Receive.received, htaken, filterMap_getElem? hplaces, hraw]
  rfl

end messages

/-! ## Every result goes to one receive -/

/-- The receives have taken results that `recv` has returned, and no two
of them the same one. -/
structure Shared (s : State) : Prop where
  lt_next : ∀ (i : Nat) (r : Receive), s.receives[i]? = some r → ∀ p ∈ r.taken, p < s.next
  once : ∀ (i j : Nat) (r r' : Receive) (p : Nat), s.receives[i]? = some r →
    s.receives[j]? = some r' → p ∈ r.taken → p ∈ r'.taken → i = j

section runs
variable {α : Type} {side : Side α} {stream : List Recv} {s s' : State}

/-- A receive that has just begun has taken nothing. -/
theorem receives_make {made : List Receive} (hmade : ∀ r ∈ made, r.taken = []) {i p : Nat}
    {r : Receive} (hr : (s.make made).receives[i]? = some r) (hp : p ∈ r.taken) :
    s.receives[i]? = some r := by
  rw [State.make, List.getElem?_append] at hr
  split at hr
  · exact hr
  · rw [hmade r (List.mem_of_getElem? hr)] at hp
    cases hp

theorem receives_make_of {made : List Receive} {i : Nat} {r : Receive}
    (hr : s.receives[i]? = some r) : (s.make made).receives[i]? = some r := by
  rw [State.make, List.getElem?_append_left (List.getElem?_eq_some_iff.mp hr).1]
  exact hr

theorem Shared.make {made : List Receive} (h : Shared s) (hmade : ∀ r ∈ made, r.taken = []) :
    Shared (s.make made) where
  lt_next i r hr p hp := h.lt_next i r (receives_make hmade hr hp) p hp
  once i j r r' p hr hr' hp hp' :=
    h.once i j r r' p (receives_make hmade hr hp) (receives_make hmade hr' hp') hp hp'

/-- What a receive has taken after a step was there before, or is the
result that the step takes. -/
theorem mem_taken_take {i j p : Nat} {r r' : Receive} (h : Shared s)
    (hr : s.receives[i]? = some r) (hr' : (s.take i r).receives[j]? = some r')
    (hp : p ∈ r'.taken) :
    p = s.next ∧ i = j ∨ p < s.next ∧ ∃ r₀, s.receives[j]? = some r₀ ∧ p ∈ r₀.taken := by
  rcases getElem?_set_cases hr' with ⟨rfl, rfl⟩ | ⟨_, hr'⟩
  · rcases List.mem_append.mp hp with hp | hp
    · exact .inr ⟨h.lt_next i r hr p hp, r, hr, hp⟩
    · exact .inl ⟨List.mem_singleton.mp hp, rfl⟩
  · exact .inr ⟨h.lt_next j r' hr' p hp, r', hr', hp⟩

theorem Shared.take {i : Nat} {r : Receive} (h : Shared s) (hr : s.receives[i]? = some r) :
    Shared (s.take i r) where
  lt_next j r' hr' p hp := by
    show p < s.next + 1
    rcases mem_taken_take h hr hr' hp with ⟨rfl, _⟩ | ⟨hlt, _⟩
    · exact Nat.lt_succ_self _
    · exact Nat.lt_succ_of_lt hlt
  once j k r₁ r₂ p hr₁ hr₂ hp₁ hp₂ := by
    rcases mem_taken_take h hr hr₁ hp₁ with ⟨rfl, rfl⟩ | ⟨hlt, r₁', hr₁', hp₁'⟩
    · rcases mem_taken_take h hr hr₂ hp₂ with ⟨_, rfl⟩ | ⟨hlt, _⟩
      · rfl
      · exact absurd hlt (Nat.lt_irrefl _)
    · rcases mem_taken_take h hr hr₂ hp₂ with ⟨rfl, _⟩ | ⟨_, r₂', hr₂', hp₂'⟩
      · exact absurd hlt (Nat.lt_irrefl _)
      · exact h.once j k r₁' r₂' p hr₁' hr₂' hp₁' hp₂'

theorem taken_listenAgain {r : Receive} :
    ∀ r' ∈ listenAgain side stream r, r'.taken = [] := by
  intro r' hr'
  unfold listenAgain at hr'
  split at hr'
  · cases hr'
  · split at hr'
    · rw [List.mem_singleton.mp hr']
    · cases hr'

/-- One constructor for each branch of `step`. -/
inductive Step (side : Side α) (stream : List Recv) (s : State) : Action → State → Prop where
  | listen : Step side stream s .listen (s.make [{ background := true }])
  | receive : Step side stream s .receive (s.make [{ background := false }])
  | recv {i : Nat} {r : Receive} :
      s.receives[i]? = some r → r.received stream = none →
      Step side stream s (.recv i) ((s.take i r).make (listenAgain side stream (r.take s.next)))

theorem step_cases {a : Action} (h : (system side stream).step s a = some s') :
    Step side stream s a s' := by
  cases a with
  | listen =>
      cases h
      exact .listen
  | receive =>
      cases h
      exact .receive
  | recv i =>
      obtain ⟨r, hr, h⟩ := Option.bind_eq_some_iff.mp h
      obtain ⟨⟨hwaits, _⟩, h⟩ := Option.ite_none_right_eq_some.mp h
      cases h
      exact .recv hr hwaits

theorem Shared.step {a : Action} (h : Shared s) (hstep : Step side stream s a s') : Shared s' := by
  cases hstep with
  | listen => exact h.make (by simp)
  | receive => exact h.make (by simp)
  | recv hr _ => exact (h.take hr).make taken_listenAgain

theorem shared_of_reachable (h : (system side stream).Reachable s) : Shared s := by
  apply h.induction (P := Shared)
  · constructor
    · intro i r hr
      cases hr
    · intro i j r r' p hr
      cases hr
  · intro s a s' _ ih hstep
    exact ih.step (step_cases hstep)

/-! ## Returned messages -/

variable {p i : Nat}

theorem mem_taken_of_returned (h : Returned side stream s p i) :
    ∃ r, s.receives[i]? = some r ∧ p ∈ r.taken := by
  obtain ⟨r, hr, _, htaken, _⟩ := h
  exact ⟨r, hr, by simp [htaken]⟩

/-- A message is returned by one receive at most. -/
theorem Shared.existsUnique (h : Shared s) (hreturned : Returned side stream s p i) :
    ∃! i, Returned side stream s p i := by
  refine ⟨i, hreturned, ?_⟩
  intro j hj
  obtain ⟨r, hr, hp⟩ := mem_taken_of_returned hreturned
  obtain ⟨r', hr', hp'⟩ := mem_taken_of_returned hj
  exact h.once j i r' r p hr' hr hp' hp

theorem Returned.make {made : List Receive} (h : Returned side stream s p i) :
    Returned side stream (s.make made) p i := by
  obtain ⟨r, hr, hreturned⟩ := h
  exact ⟨r, receives_make_of hr, hreturned⟩

/-- A receive that has ended takes no more. -/
theorem Returned.take {j : Nat} {r : Receive} (h : Returned side stream s p i)
    (hr : s.receives[j]? = some r) (hwaits : r.received stream = none) :
    Returned side stream (s.take j r) p i := by
  obtain ⟨r', hr', hback, htaken, hended⟩ := h
  have hne : j ≠ i := by
    rintro rfl
    rw [hr] at hr'
    cases hr'
    rw [hwaits] at hended
    cases hended
  refine ⟨r', ?_, hback, htaken, hended⟩
  rw [State.take, List.getElem?_set_ne hne]
  exact hr'

/-- A receive of the application that gets the last piece of the message
it has the others of. -/
theorem returned_take {r : Receive} (hr : s.receives[i]? = some r)
    (hlast : isLast stream s.next = true) (hback : r.background = false)
    (htaken : r.taken = earlierPieces stream s.next) :
    Returned side stream (s.take i r) s.next i := by
  have htaken' : (r.take s.next).taken = earlierPieces stream s.next ++ [s.next] :=
    congrArg (· ++ [s.next]) htaken
  refine ⟨r.take s.next, ?_, hback, htaken', ?_⟩
  · rw [State.take, List.getElem?_set_self (List.getElem?_eq_some_iff.mp hr).1]
  · rw [received_message hlast htaken']
    rfl

theorem NothingSwallowed.step {a : Action} (h : NothingSwallowed side stream s)
    (hshared : Shared s) (hcareful : careful stream s a = true)
    (hstep : Step side stream s a s') : NothingSwallowed side stream s' := by
  intro p hp hlast
  have hshared' := hshared.step hstep
  cases hstep with
  | listen =>
      obtain ⟨i, hi, _⟩ := h p hp hlast
      exact hshared'.existsUnique hi.make
  | receive =>
      obtain ⟨i, hi, _⟩ := h p hp hlast
      exact hshared'.existsUnique hi.make
  | @recv j r hr hwaits =>
      by_cases hnext : p = s.next
      · subst hnext
        have hchosen := ((Bool.or_eq_true _ _).mp hcareful).resolve_left (by simp [hlast])
        rw [hr] at hchosen
        obtain ⟨hback, htaken⟩ := Bool.and_eq_true_iff.mp hchosen
        exact hshared'.existsUnique (returned_take hr hlast (by simpa using hback)
          (of_decide_eq_true htaken)).make
      · have hlt : p < s.next + 1 := hp
        obtain ⟨i, hi, _⟩ := h p (by omega) hlast
        exact hshared'.existsUnique (hi.take hr hwaits).make

theorem nothingSwallowed_of_reachable (h : (carefulSystem side stream).Reachable s) :
    NothingSwallowed side stream s := by
  apply h.induction (P := NothingSwallowed side stream)
  · intro p hp
    cases hp
  · intro s a s' hs ih hstep
    obtain ⟨hcareful, hstep⟩ := System.guarded_step_eq_some.mp hstep
    exact ih.step (shared_of_reachable hs.of_guarded) hcareful (step_cases hstep)

/-- The last piece of a message that is returned went to its receive. -/
theorem careful_of_nothingSwallowed {a : Action} (hshared : Shared s)
    (hstep : Step side stream s a s') (h : NothingSwallowed side stream s') :
    careful stream s a = true := by
  cases hstep with
  | listen => rfl
  | receive => rfl
  | @recv i r hr _ =>
      cases hlast : isLast stream s.next with
      | false => exact (Bool.or_eq_true _ _).mpr (.inl (by rw [hlast]; rfl))
      | true =>
          obtain ⟨j, ⟨r', hr', hback, htaken, _⟩, _⟩ := h s.next (Nat.lt_succ_self _) hlast
          have hmem : s.next ∈ r'.taken := by simp [htaken]
          have hr' := receives_make taken_listenAgain hr' hmem
          -- no other receive has the result of this step
          rcases getElem?_set_cases hr' with ⟨rfl, rfl⟩ | ⟨_, hr'⟩
          · have htaken : r.taken = earlierPieces stream s.next := List.append_cancel_right htaken
            have hback : r.background = false := hback
            apply (Bool.or_eq_true _ _).mpr
            right
            rw [hr, Option.any_some, hback, htaken]
            simp
          · exact absurd (hshared.lt_next j r' hr' s.next hmem) (Nat.lt_irrefl _)

/-- **No message is swallowed** in a state that careful steps reach, and
the first step that is not careful swallows one. -/
theorem nothing_swallowed_iff (h : (carefulSystem side stream).Reachable s) :
    NothingSwallowed side stream s ∧
      ∀ a s', (system side stream).step s a = some s' →
        (careful stream s a = true ↔ NothingSwallowed side stream s') := by
  refine ⟨nothingSwallowed_of_reachable h, ?_⟩
  intro a s' hstep
  have hshared := shared_of_reachable h.of_guarded
  constructor
  · intro hcareful
    exact (nothingSwallowed_of_reachable h).step hshared hcareful (step_cases hstep)
  · exact careful_of_nothingSwallowed hshared (step_cases hstep)

end runs

/-- One response, received by the application while the client listens. -/
theorem nothing_swallowed_iff_response :
    let stream : List Recv := [.data (bytes "HTTP/1.1 200 OK\r\n\r\n")]
    let s : State :=
      { next := 1, receives := [{ background := true }, { background := false, taken := [0] }] }
    NothingSwallowed client stream s ∧
      ∀ a s', (system client stream).step s a = some s' →
        (careful stream s a = true ↔ NothingSwallowed client stream s') :=
  nothing_swallowed_iff ⟨[.listen, .receive, .recv 1], by decide +kernel⟩

/-- The background loop of the client takes the response that the
application waits for. -/
theorem listen_swallows_response :
    ¬ ∀ (stream : List Recv) (s : State), (system client stream).Reachable s →
      NothingSwallowed client stream s := by
  intro h
  have hreach : (system client [.data (bytes "HTTP/1.1 200 OK\r\n\r\n")]).Reachable
      { next := 1, receives := [{ background := true, taken := [0] }, { background := false },
                                { background := true }] } :=
    ⟨[.listen, .receive, .recv 0], by decide +kernel⟩
  obtain ⟨i, ⟨r, hr, hback, htaken, _⟩, _⟩ := h _ _ hreach 0 Nat.zero_lt_one (by decide)
  have hmem := List.mem_of_getElem? hr
  simp only [List.mem_cons, List.not_mem_nil, or_false] at hmem
  rcases hmem with rfl | rfl | rfl
  · cases hback
  · cases htaken
  · cases hback

end Consumers

end Pine
