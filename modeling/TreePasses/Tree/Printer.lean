-- The text of a tree: one line, lists in parentheses with one space between items, and
-- texts in quotes.
import TreePasses.Decimal.Shortest
import TreePasses.Text.Spaced
import TreePasses.Tree.Basic

namespace TreePasses

open Decimal (Binary64 Layout)

namespace Atom

/-- Floating numbers are written out in full from 10^-4 up to but not including 10^16. -/
def floatLayout : Layout := ⟨-4, 15⟩

/-- A floating number that is not negative. -/
def unsignedFloatChars (x : Binary64) : List Char :=
  if x.isInfinite then ['i', 'n', 'f']
  else if x.isZero then ['0', '.', '0']
  else floatLayout.write (Decimal.shortest x)

/-- A floating number: the fewest digits that read back as it. -/
def floatChars (x : Binary64) : List Char :=
  if x.isNaN then ['N', 'a', 'N']
  else if x.isNegative then '-' :: unsignedFloatChars x
  else unsignedFloatChars x

/-- A whole number in decimal. -/
def intChars : Int → List Char
  | .ofNat n => Nat.toDigits 10 n
  | .negSucc n => '-' :: Nat.toDigits 10 (n + 1)

/-- A character inside quotes. Four of them need a backslash. -/
def escaped : Char → List Char
  | '"' => ['\\', '"']
  | '\\' => ['\\', '\\']
  | '\n' => ['\\', 'n']
  | '\t' => ['\\', 't']
  | c => [c]

/-- A text in quotes. -/
def quoted (text : List Char) : List Char := '"' :: (text.flatMap escaped ++ ['"'])

/-- The text of an atom. -/
def chars : Atom → List Char
  | .symbol name => name.toList
  | .int value => intChars value.toInt
  | .float value => floatChars value
  | .string text => quoted text.toList
  | .bool true => ['t', 'r', 'u', 'e']
  | .bool false => ['f', 'a', 'l', 's', 'e']

end Atom

namespace Tree

mutual

/-- The characters of a tree's text. -/
def chars : Tree → List Char
  | .atom a => a.chars
  | .list items => '(' :: (Text.spaced (words items) ++ [')'])

/-- The texts of trees, one by one. -/
def words : List Tree → List (List Char)
  | [] => []
  | t :: ts => t.chars :: words ts

end

/-- The text of a tree. -/
def text (t : Tree) : String := String.ofList t.chars

end Tree

end TreePasses
