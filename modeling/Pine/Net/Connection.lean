import Pine.Async.Promise

/-!
# Net — Connection

`connection::receive_raw_message` and `connection::send_raw_message` over
the calls of the socket library. `recv` and `send` return an `int` that
the code stores in a `size_t`, and `send` is passed a `size_t` cut to an
`int`; the conversions are written out.
-/

namespace Pine

/-! ## Integer conversions -/

/-- The `size_t` of an `int`: negative values wrap. -/
def sizeOfInt (i : Int) : Nat := (i % 2 ^ 64).toNat

/-- `static_cast<int>` of a `size_t`: the low 32 bits, as a signed value. -/
def intOfSize (n : Nat) : Int := Int.bmod n (2 ^ 32)

/-- `SOCKET_ERROR`. -/
def socketError : Int := -1

theorem sizeOfInt_of_nonneg {i : Int} (h : 0 ≤ i) (hlt : i < 2 ^ 31) : sizeOfInt i = i.toNat := by
  unfold sizeOfInt
  rw [Int.emod_eq_of_lt h (by omega)]

theorem sizeOfInt_socketError : sizeOfInt socketError = 2 ^ 64 - 1 := by decide

theorem intOfSize_lt (n : Nat) : intOfSize n < 2 ^ 31 := by
  have h := Int.bmod_lt (x := n) (show 0 < 2 ^ 32 by decide)
  exact h

/-! ## Receiving -/

/-- How one call of `recv` ends. -/
inductive Recv where
  /-- The bytes it wrote to the buffer. -/
  | data (chunk : Bytes)
  /-- The peer has closed the connection. -/
  | closed
  /-- It failed, and `WSAGetLastError` gives the reason. -/
  | failed (lastError : Int)
  deriving DecidableEq, Repr

/-- The `int` that `recv` returns. -/
def Recv.ret : Recv → Int
  | .data chunk => chunk.length
  | .closed => 0
  | .failed _ => socketError

/-- The buffer after the call: the bytes behind those received stay. -/
def Recv.fill (buffer : Bytes) : Recv → Bytes
  | .data chunk => chunk ++ buffer.drop chunk.length
  | _ => buffer

def Recv.lastError : Recv → Int
  | .failed lastError => lastError
  | _ => 0

/-- `chunk_size`. -/
def chunkSize : Nat := 1024

/-- The loop of `receive_raw_message` over the calls of `recv` to come.
It is `none` when they run out, so that the next call blocks; else it is
what the body returns, with the calls it has not made. -/
def receiveLoop (buffer message : Bytes) : List Recv → Option (CoReturn Bytes × List Recv)
  | [] => none
  | call :: calls =>
      let bytesReceived := sizeOfInt call.ret
      if bytesReceived = 0 then some (.error (makeErrcCode errcConnectionReset), calls)
      else if bytesReceived = sizeOfInt socketError then
        some (.error (makeErrcCode call.lastError), calls)
      else
        let buffer := call.fill buffer
        let message := message ++ buffer.take bytesReceived
        if bytesReceived < buffer.length then some (.value message, calls)
        else receiveLoop buffer message calls

/-- `connection::receive_raw_message`. -/
def receiveRawMessage (calls : List Recv) : Option (CoReturn Bytes × List Recv) :=
  receiveLoop (List.replicate chunkSize 0) [] calls

/-! ## Sending -/

/-- How a call of `send` ends: the `int` it returns, and what
`WSAGetLastError` gives after it. -/
structure Send where
  ret : Int
  lastError : Int
  deriving DecidableEq, Repr

/-- `send` fails, or accepts at most the length it was passed. -/
def Send.Valid (call : Send) (len : Int) : Prop :=
  call.ret = socketError ∨ (0 ≤ call.ret ∧ call.ret ≤ len)

instance (call : Send) (len : Int) : Decidable (call.Valid len) :=
  inferInstanceAs (Decidable (_ ∨ _))

/-- `connection::send_raw_message`: the error its body returns. -/
def sendRawMessage (rawMessage : Bytes) (call : Send) : CoReturn Unit :=
  if rawMessage = [] then .error (makeErrorCode .success)
  else
    let bytesSent := sizeOfInt call.ret
    if bytesSent = sizeOfInt socketError then .error (makeErrcCode call.lastError)
    else if bytesSent ≠ rawMessage.length then .error (makeErrcCode errcMessageSize)
    else .error (makeErrorCode .success)

end Pine
