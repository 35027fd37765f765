import Pine.Net.Connection
import Pine.Http.RoundTrip

/-!
# Net — Sending

What a send reports. `send_raw_message` returns the error `success` when
`send` took every byte, and the `void` template stores whatever it is
given as an error, so its result never tests true. `send_response` and
`send_request` branch on that result and pass its error on. A send that
fell short is reported as it should be, a complete one never is
(`sendReported_iff`).
-/

namespace Pine

/-- `server_connection::send_response`. The inner `co_await` delivers what
`send_raw_message` publishes. -/
def sendResponse (response : HttpResponse) (call : Send) : CoReturn Unit :=
  match (sendRawMessage response.toString call).result with
  | .error e => .error e
  | .ok () => .error (makeErrorCode .success)

/-- `client_connection::send_request`: `co_return {}` returns a default
`std::error_code`. -/
def sendRequest (request : HttpRequest) (call : Send) : CoReturn Unit :=
  match (sendRawMessage request.toString call).result with
  | .error e => .error e
  | .ok () => .error ⟨0, .system⟩

/-- Whether an `std::expected` tests true. -/
def testsTrue {α : Type} : Expected α → Bool
  | .ok _ => true
  | .error _ => false

/-- There was nothing to send, or `send` accepted every byte. -/
def SentAll (rawMessage : Bytes) (call : Send) : Prop :=
  rawMessage = [] ∨ call.ret = rawMessage.length

instance (rawMessage : Bytes) (call : Send) : Decidable (SentAll rawMessage call) :=
  inferInstanceAs (Decidable (_ ∨ _))

/-- The error of a send that fell short. -/
def Send.error (call : Send) : ErrorCode :=
  if call.ret = socketError then makeErrcCode call.lastError else makeErrcCode errcMessageSize

/-- `result` is a value when all was sent, and the send error when it was
not. -/
def Reports (rawMessage : Bytes) (call : Send) (result : Expected Unit) : Prop :=
  (testsTrue result = true ↔ SentAll rawMessage call) ∧
    (¬ SentAll rawMessage call → result = .error call.error)

section sendRawMessage
variable {rawMessage : Bytes} {call : Send}

theorem sendRawMessage_of_sentAll (hvalid : call.Valid (intOfSize rawMessage.length))
    (h : SentAll rawMessage call) :
    sendRawMessage rawMessage call = .error (makeErrorCode .success) := by
  unfold sendRawMessage
  by_cases hempty : rawMessage = []
  · rw [if_pos hempty]
  · have hret := h.resolve_left hempty
    rcases hvalid with hfailed | ⟨hnonneg, hle⟩
    · rw [hfailed, socketError] at hret
      omega
    · -- the count is below `INT_MAX`, so neither conversion changes it
      have hlt := intOfSize_lt rawMessage.length
      have hsize := sizeOfInt_of_nonneg hnonneg (by omega)
      rw [if_neg hempty, hsize, sizeOfInt_socketError, if_neg (by omega), if_neg (by omega)]

theorem sendRawMessage_of_not_sentAll (hvalid : call.Valid (intOfSize rawMessage.length))
    (h : ¬ SentAll rawMessage call) :
    sendRawMessage rawMessage call = .error call.error := by
  obtain ⟨hempty, hret⟩ := not_or.mp h
  unfold sendRawMessage Send.error
  rw [if_neg hempty]
  rcases hvalid with hfailed | ⟨hnonneg, hle⟩
  · rw [hfailed, if_pos rfl, if_pos rfl]
  · have hlt := intOfSize_lt rawMessage.length
    have hsize := sizeOfInt_of_nonneg hnonneg (by omega)
    have hne : call.ret ≠ socketError := by
      rw [socketError]
      omega
    rw [hsize, sizeOfInt_socketError, if_neg (by omega), if_pos (by omega), if_neg hne]

/-- The error that `send_raw_message` publishes, whatever happened. -/
theorem result_sendRawMessage (hvalid : call.Valid (intOfSize rawMessage.length)) :
    (sendRawMessage rawMessage call).result
      = .error (if SentAll rawMessage call then makeErrorCode .success else call.error) := by
  by_cases h : SentAll rawMessage call
  · rw [sendRawMessage_of_sentAll hvalid h, if_pos h]
    rfl
  · rw [sendRawMessage_of_not_sentAll hvalid h, if_neg h]
    rfl

end sendRawMessage

/-- What `send_response` returns is what `send_raw_message` published. -/
theorem sendResponse_eq {response : HttpResponse} {call : Send}
    (hvalid : call.Valid (intOfSize response.toString.length)) :
    (sendResponse response call).result = (sendRawMessage response.toString call).result := by
  rw [sendResponse, result_sendRawMessage hvalid]
  rfl

/-- What `send_request` returns is what `send_raw_message` published. -/
theorem sendRequest_eq {request : HttpRequest} {call : Send}
    (hvalid : call.Valid (intOfSize request.toString.length)) :
    (sendRequest request call).result = (sendRawMessage request.toString call).result := by
  rw [sendRequest, result_sendRawMessage hvalid]
  rfl

/-- A result that is always an error reports the incomplete sends only. -/
theorem reports_iff {rawMessage : Bytes} {call : Send} {result : Expected Unit}
    (hresult : result
      = .error (if SentAll rawMessage call then makeErrorCode .success else call.error)) :
    Reports rawMessage call result ↔ ¬ SentAll rawMessage call := by
  subst hresult
  constructor
  · intro h hall
    exact absurd (h.1.mpr hall) Bool.false_ne_true
  · intro h
    refine ⟨iff_of_false Bool.false_ne_true h, ?_⟩
    intro _
    rw [if_neg h]

/-- **Success is reported when nothing succeeded.** A published result
says what became of the send exactly when the send was not complete. -/
theorem sendReported_iff (rawMessage : Bytes) (response : HttpResponse) (request : HttpRequest)
    (call : Send) :
    (call.Valid (intOfSize rawMessage.length) →
      ∃ result, published (.returns (sendRawMessage rawMessage call)) = some result ∧
        ((testsTrue result = true ↔ SentAll rawMessage call) ↔ ¬ SentAll rawMessage call)) ∧
    (call.Valid (intOfSize response.toString.length) →
      ∃ result, published (.returns (sendResponse response call)) = some result ∧
        (Reports response.toString call result ↔ ¬ SentAll response.toString call)) ∧
    (call.Valid (intOfSize request.toString.length) →
      ∃ result, published (.returns (sendRequest request call)) = some result ∧
        (Reports request.toString call result ↔ ¬ SentAll request.toString call)) := by
  refine ⟨?_, ?_, ?_⟩
  · intro hvalid
    refine ⟨_, published_eq _, ?_⟩
    rw [BodyEnd.result_returns, result_sendRawMessage hvalid]
    show (false = true ↔ SentAll rawMessage call) ↔ ¬ SentAll rawMessage call
    exact iff_false_left Bool.false_ne_true
  · intro hvalid
    refine ⟨_, published_eq _, reports_iff ?_⟩
    rw [BodyEnd.result_returns, sendResponse_eq hvalid, result_sendRawMessage hvalid]
  · intro hvalid
    refine ⟨_, published_eq _, reports_iff ?_⟩
    rw [BodyEnd.result_returns, sendRequest_eq hvalid, result_sendRawMessage hvalid]

/-- A send cut short, one that failed, and one of which the socket took
all. -/
theorem sendReported_iff_short :
    (∃ result, published (.returns (sendRawMessage (bytes "abc") ⟨2, 0⟩)) = some result ∧
      ((testsTrue result = true ↔ SentAll (bytes "abc") ⟨2, 0⟩)
        ↔ ¬ SentAll (bytes "abc") ⟨2, 0⟩)) ∧
    (∃ result, published (.returns (sendResponse {} ⟨-1, 10054⟩)) = some result ∧
      (Reports (HttpResponse.toString {}) ⟨-1, 10054⟩ result
        ↔ ¬ SentAll (HttpResponse.toString {}) ⟨-1, 10054⟩)) ∧
    (∃ result, published (.returns (sendRequest { uri := bytes "/" } ⟨18, 0⟩)) = some result ∧
      (Reports (HttpRequest.toString { uri := bytes "/" }) ⟨18, 0⟩ result
        ↔ ¬ SentAll (HttpRequest.toString { uri := bytes "/" }) ⟨18, 0⟩)) :=
  ⟨(sendReported_iff _ {} {} _).1 (by decide), (sendReported_iff [] _ {} _).2.1 (by decide),
    (sendReported_iff [] {} _ _).2.2 (by decide)⟩

/-- A message of one byte that the socket takes is reported as an error. -/
theorem complete_send_tests_false :
    ¬ ∀ (rawMessage : Bytes) (call : Send), rawMessage.length < 2 ^ 64 →
      call.Valid (intOfSize rawMessage.length) →
      ∀ result, published (.returns (sendRawMessage rawMessage call)) = some result →
        (testsTrue result = true ↔ SentAll rawMessage call) := by
  intro h
  have htrue := (h (bytes "x") ⟨1, 0⟩ (by decide) (by decide) _ rfl).mpr (by decide)
  exact absurd htrue (by decide)

end Pine
