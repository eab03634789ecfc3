import RedGreen.Value

set_option autoImplicit false

/-! # Equalities for early cutoff

A query says when a recomputed value counts as unchanged. That need not be equality by content: it
may be finer (the bits of a number, the identity of a list, nothing at all) or coarser (anything,
the parity of an integer, all failures alike). -/

namespace RedGreen

/-- When a recomputed value counts as unchanged. -/
abbrev Equivalence := Value → Value → Bool

/-- The equalities a query can ask for by name. -/
inductive Equality where
  | content
  | never
  | always
  | parity
  | bits
  | okOrInvalidate
  | ignoreErr
  | pointer
deriving DecidableEq, Repr

namespace Attempt

/-- Only two equal successes are equal, so whoever depends on a failure is always recomputed. -/
def okOrInvalidate : Attempt → Attempt → Bool
  | .ok a, .ok b => a == b
  | _, _ => false

/-- Equal successes are equal, and any two failures are. -/
def ignoreErr : Attempt → Attempt → Bool
  | .ok a, .ok b => a == b
  | .err _, .err _ => true
  | _, _ => false

end Attempt

namespace Equality

/-- Whether an old and a new value count as the same. A named equality that is meant for one type
    holds of no two values of another. An allocation never changes what it holds, so lists of one identity
    also have the same items. -/
def same : Equality → Equivalence
  | .content, a, b => a.equal b
  | .never, _, _ => false
  | .always, _, _ => true
  | .parity, .int a, .int b => (a - b) % 2 == 0
  | .bits, .float a, .float b => a.sameBits b
  | .okOrInvalidate, .res a, .res b => a.okOrInvalidate b
  | .ignoreErr, .res a, .res b => a.ignoreErr b
  | .pointer, .list a items, .list b items' => a == b && items == items'
  | _, _, _ => false

end Equality

end RedGreen
