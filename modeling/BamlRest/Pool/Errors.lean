import BamlRest.Text.Bytes

/-!
# Errors of the worker pool

The pool retries a request when its worker failed, and passes on the errors of the application.
-/

namespace BamlRest.Pool

/-! ### Substrings -/

def afterFirst (sub : Bytes) : Bytes → Option Bytes
  | [] => if sub = [] then some [] else none
  | b :: s => if sub.isPrefixOf (b :: s) then some ((b :: s).drop sub.length) else afterFirst sub s

def contains (s sub : Bytes) : Bool :=
  (afterFirst sub s).isSome

/-! ### Errors -/

/-- The status codes of gRPC that the pool distinguishes. -/
inductive Code where
  | canceled
  | deadlineExceeded
  | unavailable
  | other (n : ℕ)
  deriving DecidableEq

structure Status where
  code : Code
  message : Bytes
  deriving DecidableEq

/-- A Go error: its text, whether `errors.Is` finds the two sentinels of the pool in it, and what
`status.FromError` finds. -/
structure Error where
  text : Bytes
  isPoolRetriesExhausted : Bool
  isPoolUnavailable : Bool
  status : Option Status
  deriving DecidableEq

def errPoolRetriesExhausted : Error :=
  ⟨"pool retries exhausted", true, false, none⟩

def errPoolUnavailable : Error :=
  ⟨"pool unavailable", false, true, none⟩

/-- `fmt.Errorf` with a text and the errors that it wraps. -/
def errorf (text : Bytes) (wraps : List Error) : Error where
  text := text
  isPoolRetriesExhausted := wraps.any Error.isPoolRetriesExhausted
  isPoolUnavailable := wraps.any Error.isPoolUnavailable
  status := (wraps.findSome? Error.status).map fun st => { st with message := text }

def grpcSerializedPrefix : Bytes := "rpc error: code = "

def parseSerializedGRPCCode (errStr : Bytes) : Option Bytes :=
  match afterFirst grpcSerializedPrefix errStr with
  | none => none
  | some [] => none
  | some rest =>
    let code := rest.takeWhile (· != ' '.toUInt8)
    if code = [] then some rest else some code

def isTransportText (s : Bytes) : Bool :=
  contains s "connection reset" || contains s "error reading from server: EOF" ||
    contains s "transport is closing"

def isRetryableWorkerError : Option Error → Bool
  | none => false
  | some err =>
    if err.isPoolRetriesExhausted || err.isPoolUnavailable then true
    else
      match err.status with
      | some st =>
        match st.code with
        | .unavailable | .canceled | .deadlineExceeded => true
        | .other _ => isTransportText st.message
      | none =>
        if grpcSerializedPrefix.isPrefixOf err.text then
          match parseSerializedGRPCCode err.text with
          | some code =>
            code = "Unavailable" || code = "Canceled" ||
              code = "DeadlineExceeded"
          | none => isTransportText err.text
        else isTransportText err.text

end BamlRest.Pool
