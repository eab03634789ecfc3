import RedGreen.Evaluation.Run

set_option autoImplicit false

/-! # Requests from outside

What a caller can ask a system for. The requests of the public surface go through the entry lock, so
that one of them is in progress at a time: a *waiting* request waits for its turn, a *blocking* one
is refused while a waiting one holds the system, because that one may be parked on the very thread
that would block. The other requests are *free*: they do not look at the lock. -/

namespace RedGreen

/-- How a request goes about the entry lock. -/
inductive Access where
  | free
  | blocking
  | waiting
deriving DecidableEq, Repr

/-- A request. -/
inductive Request where
  /-- Write an input. -/
  | write (access : Access) (query : QueryId) (key : Key) (value : Value)
  /-- Read an input without recording a dependency. -/
  | read (query : QueryId) (valueType : ValueType) (key : Key)
  /-- Ask for a derived value. -/
  | query (access : Access) (label : Label) (key : Key)
  /-- Ask for a derived value, binding a new slot to the given equality instead of the query's. -/
  | derive (label : Label) (key : Key) (equality : Equivalence)
  /-- Make the slot of a derived value, and nothing else. -/
  | prepare (label : Label) (key : Key) (equality : Equivalence)
  /-- Bring the value of an existing slot up to date. -/
  | touch (query : QueryId) (valueType : ValueType) (key : Key)
  /-- Drop every memo last verified before a revision. -/
  | clear (access : Access) (before : Revision)

/-- The answer to a request that did not fail. -/
inductive Reply where
  | value (v : Value)
  | revision (r : Revision)
  | slot (id : SlotId)
  | count (n : Nat)
  | nothing
deriving DecidableEq, Repr

namespace Request

/-- How a request goes about the entry lock. -/
def access : Request → Access
  | .write access .. => access
  | .query access .. => access
  | .clear access _ => access
  | _ => .free

/-- What a request is answered when its evaluation ends with a value: `touch` asks only when the
    value last changed. -/
def replyOf (request : Request) (result : Stamped) : Reply :=
  match request with
  | .touch .. => .revision result.changedAt
  | _ => .value result.value

end Request

/-- How far a request gets at once. -/
inductive Begun where
  | answered (result : Except QueryError Reply)
  | evaluating (e : Evaluation)

namespace Begun

/-- An answer that comes from an operation on the world. -/
def ofResult {α : Type} (reply : α → Reply) (result : Except QueryError α × World) :
    Begun × World :=
  (.answered (result.1.map reply), result.2)

/-- The evaluation of a slot, or the error of finding it. -/
def ofSlot (result : Except QueryError SlotId × World) : Begun × World :=
  match result with
  | (.error e, w) => (.answered (.error e), w)
  | (.ok slot, w) => (.evaluating (.request slot), w)

end Begun

/-- Begins a request that has been admitted. -/
def Request.begin (p : Program) (request : Request) (w : World) : Begun × World :=
  match request with
  | .write _ id key value =>
    let (value, w) := w.ownCopy value
    Begun.ofResult .revision (w.write id key value)
  | .read id valueType key => Begun.ofResult .value (w.inputValue id valueType key)
  | .query _ label key =>
    Begun.ofSlot (w.derivedSlot (p label).id (p label).valueType key label (p label).equality)
  | .derive label key equality =>
    Begun.ofSlot (w.derivedSlot (p label).id (p label).valueType key label equality)
  | .prepare label key equality =>
    Begun.ofResult .slot (w.derivedSlot (p label).id (p label).valueType key label equality)
  | .touch id valueType key =>
    match w.openCache id key.type valueType with
    | (.error e, w) => (.answered (.error e), w)
    | (.ok (), w) =>
      match w.find? id key with
      | none => (.answered (.ok .nothing), w)
      | some slot =>
        if w.kind? slot = some .derived then (.evaluating (.request slot), w)
        else (.answered (.ok (.revision (w.changedAt slot))), w)
  | .clear _ before => let (n, w) := w.clear before; (.answered (.ok (.count n)), w)

end RedGreen
