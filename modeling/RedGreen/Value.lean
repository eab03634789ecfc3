import RedGreen.Float64

set_option autoImplicit false

/-! # Values

The values that inputs hold and computations produce. A list is shared rather than copied, so it has
an identity beside its items: the number of the allocation that made it. Two lists with the same
items can be told apart by that number only, and only by a query that asks for it
(`Equality.pointer`). -/

namespace RedGreen

/-- The types that values have. -/
inductive ValueType where
  | int
  | str
  | bool
  | float
  | res
  | list
deriving DecidableEq, Repr

/-- A result that may be a failure with a text. -/
inductive Attempt where
  | ok (n : Int)
  | err (text : String)
deriving DecidableEq, Repr

/-- A value. -/
inductive Value where
  | int (n : Int)
  | str (s : String)
  | bool (b : Bool)
  | float (x : Float64)
  | res (a : Attempt)
  | list (allocation : Nat) (items : List Int)
deriving DecidableEq, Repr

namespace Value

/-- The type of a value. -/
def type : Value → ValueType
  | .int _ => .int
  | .str _ => .str
  | .bool _ => .bool
  | .float _ => .float
  | .res _ => .res
  | .list _ _ => .list

/-- Equality by content: numbers as numbers, lists by their items; values of different types are
    different. -/
def equal : Value → Value → Bool
  | .int a, .int b => a == b
  | .str a, .str b => a == b
  | .bool a, .bool b => a == b
  | .float a, .float b => a.equal b
  | .res a, .res b => a == b
  | .list _ a, .list _ b => a == b
  | _, _ => false

end Value

end RedGreen
