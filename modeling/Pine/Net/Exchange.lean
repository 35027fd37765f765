import Pine.Net.Consumers
import Pine.Net.Link

/-!
# Net — Exchange

Requests and responses over a link, from the `to_string` of one end to the
`parse` of the other. What an end makes of a message that came as it was
sent is the value it was written from, so the values come through when the
texts do: one at a time, they all do exactly when no text fills the last
buffer (`exchange_completes_iff`).
-/

namespace Pine

open Transition

namespace Link

/-- What the calls of `receive_request` have returned. -/
def State.requests (s : State) : List (Expected HttpRequest) :=
  s.ended.filterMap fun call => (receiveRequest call).map fun r => r.1.result

/-- What the calls of `receive_response` have returned. -/
def State.responses (s : State) : List (Expected HttpResponse) :=
  s.ended.filterMap fun call => (receiveResponse call).map fun r => r.1.result

section side
variable {α : Type} (side : Consumers.Side α)

/-- What an end makes of the raw messages it received. -/
def readAll (results : List (Expected Bytes)) : List (Expected α) :=
  results.map fun received => received.bind fun text => (side.result text).result

theorem result_ending (received : CoReturn Bytes) :
    (side.ending received).result = received.result.bind fun text => (side.result text).result := by
  unfold Consumers.Side.ending
  cases received.result <;> rfl

theorem readAll_results (s : State) :
    readAll side s.results
      = s.ended.filterMap fun call =>
          (receiveRawMessage call).map fun r => (side.ending r.1).result := by
  simp only [readAll, State.results, List.map_filterMap, Option.map_map, result_ending]
  rfl

/-- The values come through one at a time exactly when no text fills the
last buffer. -/
theorem readAll_completes_iff {text : α → Bytes} {values : List α}
    (hread : ∀ a ∈ values, (side.result (text a)).result = .ok a)
    (hlen : ∀ a ∈ values, (text a).length < 2 ^ 31) :
    (∀ s, (lockstep (values.map text)).Reachable s →
        ∃ as t, (lockstep (values.map text)).runFrom s as = some t ∧
          readAll side t.results = values.map .ok) ↔
      ∀ a ∈ values, (text a).length % 1024 ≠ 0 := by
  have hends : (∀ a ∈ values, (text a).length % 1024 ≠ 0) ↔
      ∀ m ∈ values.map text, endsShort m = true := by
    rw [List.forall_mem_map]
    exact forall₂_congr fun a _ => decide_eq_true_iff.symm
  have hlen' : ∀ m ∈ values.map text, m.length < 2 ^ 31 := List.forall_mem_map.mpr hlen
  rw [hends]
  constructor
  · intro h
    obtain ⟨as, t, hrun, hvalues⟩ := h _ .init
    apply (inStep_of_reachable (System.Reachable.init.runFrom hrun)).all_endsShort
    have hcount := congrArg List.length hvalues
    simp only [readAll, List.length_map] at hcount ⊢
    exact Nat.le_of_eq hcount.symm
  · intro hshort s hs
    obtain ⟨as, t, hrun, hresults⟩ := completes_of_endsShort hlen' hshort hs
    refine ⟨as, t, hrun, ?_⟩
    rw [hresults, readAll, List.map_map, List.map_map]
    exact List.map_congr_left hread

end side

theorem requests_eq (s : State) : s.requests = readAll Consumers.server s.results := by
  rw [readAll_results]
  simp only [State.requests, Consumers.receiveRequest_eq, Option.map_map]
  rfl

theorem responses_eq (s : State) : s.responses = readAll Consumers.client s.results := by
  rw [readAll_results]
  simp only [State.responses, Consumers.receiveResponse_eq, Option.map_map]
  rfl

/-- A response is read from its own text. -/
theorem result_responseOf {r : HttpResponse} (h : r.WellFormed) :
    (responseOf r.toString).result = .ok r := by
  have hparse := HttpResponse.parse_toString_append h []
  rw [List.append_nil, List.append_nil] at hparse
  rw [responseOf, hparse]
  rfl

/-- A request is read from its own text. -/
theorem result_requestOf {r : HttpRequest} (h : r.WellFormed) :
    (requestOf r.toString).result = .ok r := by
  have hparse := HttpRequest.parse_toString_append h []
  rw [List.append_nil, List.append_nil] at hparse
  exact result_requestOf_eq_ok.mpr hparse

/-- **Requests and responses come through** one at a time, from wherever
the sender is, exactly when the text of none of them has a length that is
a multiple of 1024. -/
theorem exchange_completes_iff {requests : List HttpRequest} {responses : List HttpResponse}
    (hrequests : ∀ r ∈ requests, r.WellFormed ∧ r.toString.length < 2 ^ 31)
    (hresponses : ∀ r ∈ responses, r.WellFormed ∧ r.toString.length < 2 ^ 31) :
    ((∀ s, (lockstep (requests.map HttpRequest.toString)).Reachable s →
        ∃ as t, (lockstep (requests.map HttpRequest.toString)).runFrom s as = some t ∧
          t.requests = requests.map .ok) ↔
      ∀ r ∈ requests, r.toString.length % 1024 ≠ 0) ∧
    ((∀ s, (lockstep (responses.map HttpResponse.toString)).Reachable s →
        ∃ as t, (lockstep (responses.map HttpResponse.toString)).runFrom s as = some t ∧
          t.responses = responses.map .ok) ↔
      ∀ r ∈ responses, r.toString.length % 1024 ≠ 0) := by
  simp only [requests_eq, responses_eq]
  constructor
  · exact readAll_completes_iff Consumers.server (fun r hr => result_requestOf (hrequests r hr).1)
      (fun r hr => (hrequests r hr).2)
  · exact readAll_completes_iff Consumers.client (fun r hr => result_responseOf (hresponses r hr).1)
      (fun r hr => (hresponses r hr).2)

/-- Two requests, and a response of 1024 bytes. -/
theorem exchange_completes_iff_full :
    let requests : List HttpRequest := [{ uri := bytes "/" }, { uri := bytes "/a" }]
    let responses : List HttpResponse := [{ body := List.replicate 1005 (48 : UInt8) }]
    ((∀ s, (lockstep (requests.map HttpRequest.toString)).Reachable s →
        ∃ as t, (lockstep (requests.map HttpRequest.toString)).runFrom s as = some t ∧
          t.requests = requests.map .ok) ↔
      ∀ r ∈ requests, r.toString.length % 1024 ≠ 0) ∧
    ((∀ s, (lockstep (responses.map HttpResponse.toString)).Reachable s →
        ∃ as t, (lockstep (responses.map HttpResponse.toString)).runFrom s as = some t ∧
          t.responses = responses.map .ok) ↔
      ∀ r ∈ responses, r.toString.length % 1024 ≠ 0) :=
  exchange_completes_iff (by decide +kernel) (by decide +kernel)

end Link

end Pine
