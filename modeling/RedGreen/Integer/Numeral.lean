import RedGreen.Integer

set_option autoImplicit false

/-! # Reading an integer from its decimal digits

An optional sign, then one or more ASCII digits, and nothing else. The digits are taken from left to
right and the first problem decides: a character that is no digit, or a value that left the range of
`Integer`. A sign alone is an invalid digit. -/

namespace RedGreen.Integer

/-- Why a text is not an integer. -/
inductive NumeralError where
  | empty
  | invalidDigit
  | tooLarge
  | tooSmall
deriving DecidableEq, Repr

/-- The wording of the reason. -/
def NumeralError.message : NumeralError → String
  | .empty => "cannot parse integer from empty string"
  | .invalidDigit => "invalid digit found in string"
  | .tooLarge => "number too large to fit in target type"
  | .tooSmall => "number too small to fit in target type"

/-- The value of an ASCII digit. -/
def digit? (c : Char) : Option Nat := if c.isDigit then some (c.toNat - '0'.toNat) else none

/-- Reads on from a value read so far, adding each digit with the given sign. -/
def readDigits (sign : Int) (overflow : NumeralError) : Int → List Char → Except NumeralError Int
  | value, [] => .ok value
  | value, c :: rest =>
    match digit? c with
    | none => .error .invalidDigit
    | some d =>
      if fits (value * 10 + sign * d) then readDigits sign overflow (value * 10 + sign * d) rest
      else .error overflow

/-- Reads an integer from characters. -/
def ofChars : List Char → Except NumeralError Int
  | [] => .error .empty
  | ['+'] => .error .invalidDigit
  | ['-'] => .error .invalidDigit
  | '+' :: digits => readDigits 1 .tooLarge 0 digits
  | '-' :: digits => readDigits (-1) .tooSmall 0 digits
  | digits => readDigits 1 .tooLarge 0 digits

/-- Reads an integer from a text. -/
def ofText (s : String) : Except NumeralError Int := ofChars s.toList

end RedGreen.Integer
