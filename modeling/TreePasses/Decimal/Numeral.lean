-- The texts that stand for numbers: a sign, digits, and for a decimal fraction a point and
-- an exponent.
import TreePasses.Decimal.Binary64

namespace TreePasses.Decimal

/-- Splits off a sign. Without one, the number is not negative. -/
def splitSign : List Char → Bool × List Char
  | '-' :: rest => (true, rest)
  | '+' :: rest => (false, rest)
  | rest => (false, rest)

/-- The value of digits, read from left to right. -/
def digitsValue (digits : List Char) : Nat :=
  digits.foldl (fun value d => 10 * value + (d.toNat - '0'.toNat)) 0

/-- The number that a text of digits alone stands for. -/
def natural? (text : List Char) : Option Nat :=
  if !text.isEmpty && text.all Char.isDigit then some (digitsValue text) else none

/-- The number that an optional sign and digits stand for. -/
def integer? (text : List Char) : Option Int :=
  match splitSign text with
  | (true, digits) => (natural? digits).map fun n => -Int.ofNat n
  | (false, digits) => (natural? digits).map Int.ofNat

/-- The number that a text stands for, if it is an integer of 64 bits. -/
def int64? (text : List Char) : Option Int64 :=
  match integer? text with
  | some i =>
    if -9223372036854775808 ≤ i && i ≤ 9223372036854775807 then some (Int64.ofInt i) else none
  | none => none

/-- The exponent that a text ends with: none at all, or a letter and an integer. -/
def exponent? : List Char → Option Int
  | [] => some 0
  | 'e' :: rest => integer? rest
  | 'E' :: rest => integer? rest
  | _ :: _ => none

/-- The number nearest to the decimal fraction that a text stands for: an optional sign,
digits with at most one point among or around them, and at most one exponent. -/
def binary64? (text : List Char) : Option Binary64 :=
  let (negative, unsigned) := splitSign text
  let whole := unsigned.takeWhile Char.isDigit
  let (places, tail) :=
    match unsigned.dropWhile Char.isDigit with
    | '.' :: rest => (rest.takeWhile Char.isDigit, rest.dropWhile Char.isDigit)
    | rest => ([], rest)
  match natural? (whole ++ places), exponent? tail with
  | some digits, some exponent =>
    some (Binary64.nearest negative digits (exponent - Int.ofNat places.length))
  | _, _ => none

end TreePasses.Decimal
