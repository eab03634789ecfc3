import RedGreen.Integer.Numeral
import RedGreen.Key

set_option autoImplicit false

/-! # Errors

Everything that can make a request fail is a `QueryError`. Six of its cases are raised by the system
itself; the seventh carries a failure of the computation's own domain. A failure can be wrapped in a
context, which is what a reader sees first; the failure underneath stays reachable. -/

namespace RedGreen

/-- The kinds of errors, by which a computation chooses what to recover from. -/
inductive ErrorKind where
  | unsetInput
  | cycle
  | cancelled
  | suspended
  | busy
  | kindMismatch
  | computationFailed
deriving DecidableEq, Repr

/-- The name of a kind. -/
def ErrorKind.name : ErrorKind → String
  | .unsetInput => "UnsetInput"
  | .cycle => "Cycle"
  | .cancelled => "Cancelled"
  | .suspended => "Suspended"
  | .busy => "Busy"
  | .kindMismatch => "KindMismatch"
  | .computationFailed => "ComputationFailed"

mutual

/-- Why a request failed. -/
inductive QueryError where
  /-- An input was read before it was written. -/
  | unsetInput (query : QueryId) (key : String)
  /-- A value was requested while it was in progress: the slots in progress, then that value. -/
  | cycle (path : List String)
  /-- The request was cancelled. -/
  | cancelled
  /-- An immediate call reached a computation that has to wait. -/
  | suspended (slot : String)
  /-- A blocking request came while a waiting one holds the system. -/
  | busy
  /-- An identity was used with other types, or both as an input and as a query. -/
  | kindMismatch (query : QueryId)
  /-- A computation failed in its own domain. -/
  | computationFailed (failure : Failure)
deriving DecidableEq, Repr

/-- A failure of a computation's own domain. -/
inductive Failure where
  /-- A plain text. -/
  | message (text : String)
  /-- A text with a numeric code. -/
  | coded (number : Int) (text : String)
  /-- A text that is no integer. -/
  | numeral (error : Integer.NumeralError)
  /-- An error of the system, seen as a failure. -/
  | error (cause : QueryError)
  /-- A failure seen from a wider context. -/
  | context (text : String) (failure : Failure)
deriving DecidableEq, Repr

end

mutual

/-- The text of an error. -/
def QueryError.message : QueryError → String
  | .unsetInput query key => "input " ++ query.name ++ "(" ++ key ++ ") was read before it was set"
  | .cycle path => "dependency cycle detected: " ++ " -> ".intercalate path
  | .cancelled => "query cancelled"
  | .suspended slot => "query " ++ slot ++ " suspended: it must be awaited through the async API"
  | .busy => "dependency system is busy with an async request; use the async entry points"
  | .kindMismatch query =>
    "query " ++ query.name ++
      " was accessed with a different kind or type than it was created with"
  | .computationFailed failure => "computation failed: " ++ failure.headline

/-- The outermost text of a failure. -/
def Failure.headline : Failure → String
  | .message text => text
  | .coded number text => "code " ++ Int.repr number ++ ": " ++ text
  | .numeral error => error.message
  | .error cause => cause.message
  | .context text _ => text

end

namespace Failure

/-- The texts of a failure, the outermost context first. An error of the system ends the chain. -/
def chain : Failure → List String
  | .context text failure => text :: failure.chain
  | failure => [failure.headline]

/-- The failure below all contexts. -/
def root : Failure → Failure
  | .context _ failure => failure.root
  | failure => failure

/-- The numeric code below all contexts. -/
def code? (failure : Failure) : Option Int :=
  match failure.root with
  | .coded number _ => some number
  | _ => none

/-- Whether a text that is no integer lies below all contexts. -/
def isNumeral (failure : Failure) : Bool :=
  match failure.root with
  | .numeral _ => true
  | _ => false

/-- The error of the system below all contexts. -/
def cause? (failure : Failure) : Option QueryError :=
  match failure.root with
  | .error cause => some cause
  | _ => none

end Failure

namespace QueryError

/-- The kind of an error. -/
def kind : QueryError → ErrorKind
  | .unsetInput _ _ => .unsetInput
  | .cycle _ => .cycle
  | .cancelled => .cancelled
  | .suspended _ => .suspended
  | .busy => .busy
  | .kindMismatch _ => .kindMismatch
  | .computationFailed _ => .computationFailed

/-- A domain failure with a plain text. -/
def failed (text : String) : QueryError := .computationFailed (.message text)

/-- The failure of a computation that wraps this error in a context. -/
def inContext (error : QueryError) (text : String) : QueryError :=
  .computationFailed (.context text (.error error))

/-- The domain failure, if the error is one. -/
def failure? : QueryError → Option Failure
  | .computationFailed failure => some failure
  | _ => none

/-- Names an error's case and fields; a domain failure has no such text. -/
def debugText? : QueryError → Option String
  | .unsetInput query key =>
    some ("UnsetInput \x7b query: " ++ Text.quote query.name ++ ", key: " ++ Text.quote key ++
      " \x7d")
  | .cycle path => some ("Cycle \x7b path: " ++ Text.bracketed (path.map Text.quote) ++ " \x7d")
  | .cancelled => some "Cancelled"
  | .suspended slot => some ("Suspended \x7b query: " ++ Text.quote slot ++ " \x7d")
  | .busy => some "Busy"
  | .kindMismatch query =>
    some ("KindMismatch \x7b query: " ++ Text.quote query.name ++ " \x7d")
  | .computationFailed _ => none

end QueryError

end RedGreen
