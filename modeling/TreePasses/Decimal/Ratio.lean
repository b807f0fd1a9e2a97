-- Exact quotients of whole numbers, for comparing decimal and binary fractions without any
-- rounding but the one that is asked for.

namespace TreePasses.Decimal

/-- A quotient of two whole numbers. The divisor is positive in every quotient made here. -/
structure Ratio where
  num : Nat
  den : Nat
deriving DecidableEq, Repr

namespace Ratio

/-- A whole number. -/
def ofNat (n : Nat) : Ratio := ⟨n, 1⟩

/-- A quotient times a power of a base, with an exponent of either sign. -/
def scale (r : Ratio) (base : Nat) : Int → Ratio
  | .ofNat k => ⟨r.num * Nat.pow base k, r.den⟩
  | .negSucc k => ⟨r.num, r.den * Nat.pow base (k + 1)⟩

/-- Less than. -/
def lt (r s : Ratio) : Bool := r.num * s.den < s.num * r.den

/-- Less than or equal. -/
def le (r s : Ratio) : Bool := r.num * s.den ≤ s.num * r.den

/-- The greatest whole number that is not greater. -/
def floor (r : Ratio) : Nat := r.num / r.den

/-- How the part after the whole number compares with one half. -/
def compareHalf (r : Ratio) : Ordering := compare (2 * (r.num % r.den)) r.den

/-- The nearest whole number; a half goes to the even neighbour. -/
def roundEven (r : Ratio) : Nat :=
  match r.compareHalf with
  | .lt => r.floor
  | .gt => r.floor + 1
  | .eq => if r.floor % 2 = 0 then r.floor else r.floor + 1

/-- The greatest exponent whose power of two is not greater than a positive quotient. -/
def log2 (r : Ratio) : Int :=
  let guess : Int := Int.ofNat r.num.log2 - Int.ofNat r.den.log2
  if (((ofNat 1).scale 2 guess).le r) then guess else guess - 1

end Ratio

end TreePasses.Decimal
