-- The shortest decimal fraction that reads back as a given binary number: the coarsest
-- decimal grid with a point in the interval of fractions that round to the number, and on
-- that grid the point nearest to it.
import TreePasses.Decimal.Binary64

namespace TreePasses.Decimal

/-- A decimal fraction: a whole number times a power of ten. -/
structure Fraction where
  digits : Nat
  exponent : Int
deriving DecidableEq, Repr

/-- The fractions that round to a number, and the number among them. -/
structure Interval where
  low : Ratio
  value : Ratio
  high : Ratio
  /-- Whether the two ends themselves round to the number. -/
  closed : Bool
deriving DecidableEq, Repr

namespace Interval

/-- The fractions that round to a positive finite number. They reach half way to its
neighbours; the ends go to the even significand. -/
def of (x : Binary64) : Interval :=
  let quarter (n : Nat) := (Ratio.ofNat n).scale 2 (x.scale - 2)
  let m := x.significand
  { low := quarter (if x.isPacked then 4 * m - 1 else 4 * m - 2)
    value := quarter (4 * m)
    high := quarter (4 * m + 2)
    closed := m % 2 = 0 }

/-- Whether a fraction rounds to the number. -/
def holds (i : Interval) (r : Ratio) : Bool :=
  if i.closed then i.low.le r && r.le i.high else i.low.lt r && r.lt i.high

/-- The multiple of a power of ten that rounds to the number, if there is one. Only the two
multiples around the number come into question; of both, the nearer is taken, and the upper
one if they are equally near. -/
def point? (i : Interval) (exponent : Int) : Option Nat :=
  let onGrid := i.value.scale 10 (-exponent)
  let below := onGrid.floor
  let reaches (n : Nat) := i.holds ((Ratio.ofNat n).scale 10 exponent)
  if reaches below && (!reaches (below + 1) || onGrid.compareHalf = .lt) then some below
  else if reaches (below + 1) then some (below + 1)
  else none

/-- The finest power of ten that is ever needed: any two numbers are farther apart. -/
def finest : Int := -324

/-- The coarsest point, looking from the grid `steps` above the finest one downwards. -/
def coarsest (i : Interval) : Nat → Fraction
  | 0 => ⟨(i.point? finest).getD 0, finest⟩
  | steps + 1 =>
    let exponent := finest + Int.ofNat (steps + 1)
    match i.point? exponent with
    | some digits => ⟨digits, exponent⟩
    | none => i.coarsest steps

end Interval

/-- The shortest decimal fraction that reads back as a positive finite number. The powers of
ten from 10^-324 up to 10^309 are enough for all of them. -/
def shortest (x : Binary64) : Fraction := (Interval.of x).coarsest 633

/-! ## Layout -/

/-- How a decimal fraction is written: the exponents of the first digit from which and up
to which all places are written out. -/
structure Layout where
  leastPlain : Int
  mostPlain : Int
deriving DecidableEq, Repr

namespace Layout

/-- A power of ten with a sign, as digits. -/
def exponentChars : Int → List Char
  | .ofNat n => Nat.toDigits 10 n
  | .negSucc n => '-' :: Nat.toDigits 10 (n + 1)

/-- All places written out, with at least one after the point. -/
def plain (digits : List Char) : Int → List Char
  | .ofNat zeros => digits ++ List.replicate zeros '0' ++ ['.', '0']
  | .negSucc n =>
    let places := n + 1
    if places < digits.length then
      digits.take (digits.length - places) ++ '.' :: digits.drop (digits.length - places)
    else '0' :: '.' :: (List.replicate (places - digits.length) '0' ++ digits)

/-- One digit before the point and a power of ten; no point without digits after it. -/
def scientific (digits : List Char) (lead : Int) : List Char :=
  match digits with
  | [] => []
  | [d] => d :: 'e' :: exponentChars lead
  | d :: more => d :: '.' :: (more ++ 'e' :: exponentChars lead)

/-- A positive decimal fraction as text. -/
def write (layout : Layout) (f : Fraction) : List Char :=
  let digits := Nat.toDigits 10 f.digits
  let lead := f.exponent + Int.ofNat digits.length - 1
  if layout.leastPlain ≤ lead && lead ≤ layout.mostPlain then plain digits f.exponent
  else scientific digits lead

end Layout

end TreePasses.Decimal
