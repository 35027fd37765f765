import Pine.Http.Text

/-!
# Async — Promise

The `promise_type` of `async_operation`, with the `std::promise` behind
it. Both templates are the same text but for the overloads of
`return_value`: the general one takes an `std::expected`, a value or an
error, the one for `void` takes an error and nothing else. A
`std::promise` takes one value and hands out one future; a second call of
either throws.
-/

namespace Pine

/-- `std::future_errc`, the two conditions a promise can raise here. -/
inductive FutureErrc where
  | futureAlreadyRetrieved
  | promiseAlreadySatisfied
  deriving DecidableEq, Repr

/-- The shared state of `std::promise<std::expected<T, E>>`. -/
structure Promise (α : Type) where
  value : Option (Expected α) := none
  futureRetrieved : Bool := false

namespace Promise

variable {α : Type}

/-- `std::promise::set_value`. -/
def setValue (p : Promise α) (result : Expected α) : Except FutureErrc (Promise α) :=
  if p.value.isSome then .error .promiseAlreadySatisfied else .ok { p with value := some result }

/-- `std::promise::get_future`: the future is a view of the shared state. -/
def getFuture (p : Promise α) : Except FutureErrc (Promise α) :=
  if p.futureRetrieved then .error .futureAlreadyRetrieved
  else .ok { p with futureRetrieved := true }

end Promise

/-- What a body hands to `return_value`, one constructor for each
overload. The template for `void` has the last one only. -/
inductive CoReturn (α : Type) where
  | expected (result : Expected α)
  | value (result : α)
  | error (e : ErrorCode)

/-- What `return_value` stores. -/
def CoReturn.result {α : Type} : CoReturn α → Expected α
  | .expected result => result
  | .value result => .ok result
  | .error e => .error e

/-- `async_operation::promise_type`. -/
structure PromiseType (α : Type) where
  promise : Promise α := {}
  cancelled : Bool := false

namespace PromiseType

variable {α : Type}

/-- `promise_type::return_value`. -/
def returnValue (p : PromiseType α) (r : CoReturn α) : Except FutureErrc (PromiseType α) :=
  if p.cancelled then .ok p
  else (p.promise.setValue r.result).map fun promise => { p with promise }

/-- `promise_type::unhandled_exception`. -/
def unhandledException (p : PromiseType α) : Except FutureErrc (PromiseType α) :=
  (p.promise.setValue (.error (makeErrcCode errcOperationCanceled))).map
    fun promise => { p with promise }

end PromiseType

/-- How the body of a coroutine ends. -/
inductive BodyEnd (α : Type) where
  | returns (r : CoReturn α)
  | throws

/-- The result that the operation stores. -/
def BodyEnd.result {α : Type} : BodyEnd α → Expected α
  | .returns r => r.result
  | .throws => .error (makeErrcCode errcOperationCanceled)

@[simp] theorem BodyEnd.result_returns {α : Type} (r : CoReturn α) :
    (BodyEnd.returns r).result = r.result := rfl

/-- The body's last step: `return_value`, or `unhandled_exception`. -/
def PromiseType.complete {α : Type} (p : PromiseType α) :
    BodyEnd α → Except FutureErrc (PromiseType α)
  | .returns r => p.returnValue r
  | .throws => p.unhandledException

/-- What an operation publishes that nobody has cancelled. -/
def published {α : Type} (ending : BodyEnd α) : Option (Expected α) :=
  match PromiseType.complete {} ending with
  | .ok p => p.promise.value
  | .error _ => none

@[simp] theorem published_eq {α : Type} (ending : BodyEnd α) :
    published ending = some ending.result := by
  cases ending <;> rfl

end Pine
