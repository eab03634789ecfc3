set_option autoImplicit false

/-! # Floating-point numbers as bit patterns

No arithmetic is done on floating-point numbers here: they are stored, handed on and compared. So a
number is its IEEE 754 binary64 pattern, with sign and payload kept, and the numeric comparison is
said on the pattern: no NaN equals anything, the two zeros are equal, and any other two numbers are
equal exactly when their patterns are. -/

namespace RedGreen

/-- A floating-point number: its 64 bits. -/
structure Float64 where
  bits : UInt64
deriving DecidableEq, Repr

namespace Float64

/-- The pattern without the sign bit. -/
def magnitude (x : Float64) : UInt64 := x.bits &&& 0x7fffffffffffffff

/-- Whether the pattern is that of a NaN: above the pattern of infinity. -/
def isNaN (x : Float64) : Bool := 0x7ff0000000000000 < x.magnitude

/-- Whether the number is one of the two zeros. -/
def isZero (x : Float64) : Bool := x.magnitude == 0

/-- Equality of numbers. -/
def equal (x y : Float64) : Bool :=
  !x.isNaN && !y.isNaN && (x == y || (x.isZero && y.isZero))

/-- Equality of patterns. -/
def sameBits (x y : Float64) : Bool := x.bits == y.bits

theorem equal_comm (x y : Float64) : x.equal y = y.equal x := by
  unfold equal
  cases x.isNaN <;> cases y.isNaN <;> cases x.isZero <;> cases y.isZero <;>
    simp [BEq.comm (a := x)]

/-- The value of a hexadecimal digit in lower case. -/
def hexDigit? (c : Char) : Option Nat :=
  if c.isDigit then some (c.toNat - '0'.toNat)
  else if 'a' ≤ c ∧ c ≤ 'f' then some (c.toNat - 'a'.toNat + 10)
  else none

/-- Reads a pattern from sixteen hexadecimal digits. -/
def ofHex? (s : String) : Option Float64 :=
  if s.length = 16 then
    (s.toList.foldlM (fun n c => (hexDigit? c).map (n * 16 + ·)) 0).map fun n => ⟨n.toUInt64⟩
  else none

/-- The pattern in sixteen hexadecimal digits. -/
def toHex (x : Float64) : String :=
  let digits := Nat.toDigits 16 x.bits.toNat
  String.ofList (List.replicate (16 - digits.length) '0' ++ digits)

end Float64

end RedGreen
