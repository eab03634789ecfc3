import RedGreen.Error
import RedGreen.Slot

set_option autoImplicit false

/-! # Computations: bodies as trees of interactions

The body of a query is a finite tree. At a leaf it is done. At an inner node it performs an
operation, calls another query, or yields, and goes on with a subtree chosen by the answer. A body
has no other access to the system, so everything its result depends on is in the answers along its
path. And since the tree is well founded, a body takes finitely many steps once its calls are
answered. -/

namespace RedGreen

/-- What a body can ask for and is answered at once. -/
inductive Operation where
  /-- Read an input, as a dependency. -/
  | read (query : QueryId) (valueType : ValueType) (key : Key)
  /-- Fail if the request was cancelled. -/
  | check
  /-- Cancel the request. -/
  | cancel
  /-- The revision at which this run started. -/
  | revision
  /-- The slot that is being computed. -/
  | slot
  /-- The number of a fresh allocation. -/
  | allocate
deriving DecidableEq, Repr

/-- The answer to an operation. -/
def Operation.Reply : Operation → Type
  | .read _ _ _ => Except QueryError Value
  | .check => Except QueryError Unit
  | .cancel => Unit
  | .revision => Revision
  | .slot => SlotId
  | .allocate => Nat

/-- How a nested query is called. -/
inductive CallMode where
  /-- The caller waits with the callee. -/
  | awaited
  /-- The callee has to finish without waiting. -/
  | immediate
deriving DecidableEq, Repr

/-- A computation that ends in an `α`. -/
inductive Computation (α : Type) : Type where
  | done (result : α)
  | perform (op : Operation) (next : op.Reply → Computation α)
  | call (mode : CallMode) (label : Label) (key : Key)
      (next : Except QueryError Value → Computation α)
  | yield (next : Computation α)

namespace Computation

variable {α β : Type}

/-- Goes on with `f` where the first computation is done. -/
def bind (c : Computation α) (f : α → Computation β) : Computation β :=
  match c with
  | .done a => f a
  | .perform op next => .perform op fun r => (next r).bind f
  | .call mode label key next => .call mode label key fun r => (next r).bind f
  | .yield next => .yield (next.bind f)

instance : Monad Computation where
  pure := .done
  bind := bind

/-- Performs one operation. -/
def ask (op : Operation) : Computation op.Reply := .perform op .done

/-- Yields a number of times. -/
def yields : Nat → Computation Unit
  | 0 => .done ()
  | n + 1 => .yield (yields n)

end Computation

/-- The body of a query: what it computes is a value or an error. -/
abbrev Body := Computation (Except QueryError Value)

end RedGreen
