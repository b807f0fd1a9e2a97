-- The 64-bit binary floating-point numbers, as bits. A finite number is a significand times
-- a power of two, and everything about it is whole-number arithmetic on those two.
import TreePasses.Decimal.Ratio

namespace TreePasses.Decimal

/-- A floating-point number of 64 bits: a sign bit, eleven exponent bits, and 52 bits of
fraction. -/
structure Binary64 where
  bits : UInt64
deriving DecidableEq, Repr

namespace Binary64

/-- Two to the 52nd, the least significand of a number that is not subnormal. -/
def hidden : Nat := 0x10000000000000

/-- The sign bit on its own. -/
def signBit : Nat := 0x8000000000000000

/-- The bits of positive infinity. -/
def infinityBits : Nat := 0x7FF0000000000000

/-- Whether the sign bit is set. -/
def isNegative (x : Binary64) : Bool := signBit ≤ x.bits.toNat

/-- All bits but the sign. -/
def magnitude (x : Binary64) : Nat := x.bits.toNat % signBit

/-- Whether the bits stand for no number at all. -/
def isNaN (x : Binary64) : Bool := infinityBits < x.magnitude

/-- Whether the number is one of the two infinities. -/
def isInfinite (x : Binary64) : Bool := x.magnitude = infinityBits

/-- Whether the number is one of the two zeros. -/
def isZero (x : Binary64) : Bool := x.magnitude = 0

/-- Equality of numbers: what is no number equals nothing, and the two zeros are equal. -/
def same (x y : Binary64) : Bool :=
  !x.isNaN && !y.isNaN && (x.bits = y.bits || (x.isZero && y.isZero))

/-! ## Significand and scale -/

/-- The exponent bits. -/
def exponentField (x : Binary64) : Nat := x.magnitude / hidden

/-- The whole number that a power of two scales. -/
def significand (x : Binary64) : Nat :=
  if x.exponentField = 0 then x.magnitude % hidden else hidden + x.magnitude % hidden

/-- The exponent of that power of two. The two lowest exponent fields share a scale. -/
def scale (x : Binary64) : Int :=
  if x.exponentField = 0 then -1074 else Int.ofNat x.exponentField - 1075

/-- Whether the numbers below are packed more densely than those above: so it is at a power
of two, but for the lowest of them. -/
def isPacked (x : Binary64) : Bool := x.significand = hidden && 1 < x.exponentField

/-! ## The nearest number -/

/-- The bits of the number nearest to a positive quotient; a half goes to the even neighbour,
and what lies beyond the greatest number becomes infinity. -/
def nearestMagnitude (r : Ratio) : Nat :=
  let unit := if r.log2 < -1022 then -1074 else r.log2 - 52
  let steps := (r.scale 2 (-unit)).roundEven
  let bits := (unit + 1074).toNat * hidden + steps
  if bits < infinityBits then bits else infinityBits

/-- A magnitude with a sign. -/
def ofMagnitude (negative : Bool) (magnitude : Nat) : Binary64 :=
  ⟨(if negative then signBit + magnitude else magnitude).toUInt64⟩

/-- The number nearest to a decimal fraction, given as digits and a power of ten. A fraction
far outside the range of these numbers is settled by its size alone. -/
def nearest (negative : Bool) (digits : Nat) (exponent : Int) : Binary64 :=
  let size := Int.ofNat (Nat.toDigits 10 digits).length + exponent
  ofMagnitude negative <|
    if digits = 0 || size < -400 then 0
    else if 400 < size then infinityBits
    else nearestMagnitude ((Ratio.ofNat digits).scale 10 exponent)

end Binary64

end TreePasses.Decimal
