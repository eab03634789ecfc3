set_option autoImplicit false

/-! # Integers of the script language

The integers of a script are those that fit in a signed word of 64 bits. They are kept as plain
integers; an operation whose result does not fit is a fault, so a value that was computed without a
fault is the true result. -/

namespace RedGreen.Integer

/-- The smallest integer of a script. -/
def least : Int := -9223372036854775808

/-- The largest integer of a script. -/
def greatest : Int := 9223372036854775807

/-- Whether an integer fits. -/
def fits (n : Int) : Bool := least ≤ n && n ≤ greatest

/-- What can go wrong in an operation on two integers. -/
inductive Fault where
  | overflow
  | zeroDivisor
deriving DecidableEq, Repr

/-- The wording of a fault. -/
def Fault.message : Fault → String
  | .overflow => "arithmetic overflow"
  | .zeroDivisor => "division by zero"

/-- The binary operations. -/
inductive Operator where
  | add
  | subtract
  | multiply
  | divide
  | remainder
deriving DecidableEq, Repr

/-- A result that has to fit. -/
def checked (n : Int) : Except Fault Int := if fits n then .ok n else .error .overflow

/-- Applies an operator. Division goes toward zero and the remainder takes the sign of the dividend.
    A remainder is refused together with its quotient: the least integer modulo minus one overflows,
    although the remainder itself would fit. -/
def Operator.apply (op : Operator) (a b : Int) : Except Fault Int :=
  match op with
  | .add => checked (a + b)
  | .subtract => checked (a - b)
  | .multiply => checked (a * b)
  | .divide => if b = 0 then .error .zeroDivisor else checked (a.tdiv b)
  | .remainder =>
    if b = 0 then .error .zeroDivisor else (checked (a.tdiv b)).map fun _ => a.tmod b

end RedGreen.Integer
