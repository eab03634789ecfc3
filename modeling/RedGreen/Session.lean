import RedGreen.Named
import RedGreen.Task

set_option autoImplicit false

/-! # Sessions: one system and a client that drives it by hand

A client of a session makes requests, keeps some of them as named tasks that it polls, runs or
drops, cancels named tokens, puts slots on the active stack under named guards, and looks at the
system. Every step has an answer, and a report tells beside it what observers saw during the
step. -/

namespace RedGreen

/-! ## Steps and answers -/

/-- A step of a session. Where a request has no named token, it gets one of its own. -/
inductive Step where
  /-- Make a request and poll it for as long as it asks for it; drop it if it still waits then. -/
  | perform (request : Request) (token : Option String)
  /-- Keep a request as a task; nothing is polled yet. A task of that name is dropped before. -/
  | spawn (name : String) (request : Request) (token : Option String)
  | poll (name : String) (times : Nat)
  /-- Poll a task for as long as it asks for it. -/
  | run (name : String)
  | drop (name : String)
  | cancel (token : String)
  | lookAtToken (token : String)
  /-- Put a slot on the active stack. A guard of that name leaves after the new one has entered. -/
  | enter (name : String) (slot : SlotId)
  | leave (name : String)
  | stack
  | slots
  | describe (slot : SlotId)
  | stamps (query : QueryId) (key : Key)
  | debug
  | resultsFor (slot : String)
  | takeEvents
  | cache (query : QueryId) (keyType : KeyType) (valueType : ValueType)
  | clearCache (query : QueryId) (keyType : KeyType) (valueType : ValueType) (before : Revision)
  | clearSlot (query : QueryId) (valueType : ValueType) (key : Key) (before : Revision)
  | makeInput (query : QueryId) (valueType : ValueType) (key : Key)
  | inspect (query : QueryId) (valueType : ValueType) (key : Key)
  | gatherDeps (query : QueryId) (keyType : KeyType) (valueType : ValueType) (keys : List Key)

/-- What can be seen of a slot. -/
inductive SlotView where
  | input (id : SlotId) (info : SlotInfo) (changedAt verifiedAt : Revision)
      (content : Except QueryError Value)
  | derived (id : SlotId) (info : SlotInfo) (changedAt verifiedAt : Revision) (key : Key)
      (deps : List SlotId) (cached : Option Value)

/-- The answer to a step. -/
inductive Answer where
  | done
  /-- There is no slot to be seen. -/
  | absent
  | failed (error : QueryError)
  | reply (r : Reply)
  | pending
  /-- Whether there was something to drop. -/
  | existed (b : Bool)
  | token (cancelled : Bool)
  | stack (slots : List SlotId)
  | slots (names : List String)
  | description (info : Option SlotInfo)
  | stamps (stamps : Option (Revision × Revision))
  | system (text : String) (memoize : Bool)
  | outcomes (outcomes : List Outcome)
  | cache (query : QueryId) (slots : Nat)
  /-- Whether a memo was dropped; nothing if there is no such derived slot. -/
  | cleared (dropped : Option Bool)
  | slot (view : SlotView)
  | deps (deps : List SlotId) (stamps : List (Revision × Revision))
  /-- There is no task of that name. -/
  | unknownTask (name : String)

/-- The answer to a request. -/
def Answer.ofResult : Except QueryError Reply → Answer
  | .ok r => .reply r
  | .error e => .failed e

/-! ## The state of a session -/

/-- The state of a session. -/
structure Session where
  world : World := {}
  /-- Whether a tracer keeps the events. -/
  traced : Bool := true
  collector : Collector := {}
  tokens : Named Token := {}
  /-- How many tokens have been made. -/
  tokenCount : Nat := 0
  tasks : Named Task := {}
  guards : Named SlotId := {}

namespace Session

/-- A session with a fresh system. -/
def fresh (memoize traced : Bool) : Session := { world := { memoize }, traced }

/-- Makes a token. -/
def newToken (s : Session) : Token × Session :=
  (s.tokenCount, { s with tokenCount := s.tokenCount + 1 })

/-- The token of a name, made on first use; without a name, a new one. -/
def tokenFor (s : Session) : Option String → Token × Session
  | none => s.newToken
  | some name =>
    match s.tokens.get? name with
    | some token => (token, s)
    | none =>
      let (token, s) := s.newToken
      (token, { s with tokens := s.tokens.insert name token })

/-- The answer to an operation on the world. -/
def answering {α : Type} (s : Session) (answer : α → Answer)
    (result : Except QueryError α × World) : Answer × Session :=
  (match result.1 with
    | .ok a => answer a
    | .error e => .failed e,
    { s with world := result.2 })

/-- Keeps what a poll has left of a named task. -/
def afterPoll (s : Session) (name : String) (result : Poll × World) : Answer × Session :=
  let s := { s with world := result.2 }
  match result.1 with
  | .ready r => (.ofResult r, { s with tasks := s.tasks.erase name })
  | .pending _ task => (.pending, { s with tasks := s.tasks.insert name task })

/-- Drops a named task, if there is one. -/
def dropTask (s : Session) (name : String) : Session :=
  match s.tasks.get? name with
  | some task => { s with world := task.drop s.world, tasks := s.tasks.erase name }
  | none => s

/-- Drops a named guard, if there is one. -/
def dropGuard (s : Session) (name : String) : Session :=
  match s.guards.get? name with
  | some slot => { s with world := s.world.leave slot, guards := s.guards.erase name }
  | none => s

end Session

end RedGreen
