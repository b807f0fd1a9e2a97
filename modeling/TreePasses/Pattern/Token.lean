-- The words of the pattern language: brackets, quantifier signs, literals and terminals.
import TreePasses.Text.CharClass
import TreePasses.Text.Position

namespace TreePasses.Pattern

/-- A word of a pattern. -/
inductive Token where
  | openList
  | closeList
  | openGroup
  | closeGroup
  | plus
  | star
  | literal (name : String)
  | terminal (name : String)
deriving DecidableEq, Repr

namespace Token

/-- A word as it is written. A literal has a quote before its name. -/
def chars : Token → List Char
  | .openList => ['(']
  | .closeList => [')']
  | .openGroup => ['[']
  | .closeGroup => [']']
  | .plus => ['+']
  | .star => ['*']
  | .literal name => '\'' :: name.toList
  | .terminal name => name.toList

/-- A word as text. -/
def text (t : Token) : String := String.ofList t.chars

end Token

/-- A word and the place of its first character. -/
structure PlacedToken where
  token : Token
  position : Text.Position
deriving DecidableEq, Repr

/-- The characters with a meaning of their own. -/
def reserved : List Char := ['(', ')', '[', ']', '+', '*', '\'', ';']

/-- Whether a character may stand in a name. -/
def isNameChar (c : Char) : Bool :=
  !Text.isBlank c && !Text.isControl c && !reserved.contains c

/-- Whether a character may start the name of a terminal: any of a name but a digit. -/
def startsTerminal (c : Char) : Bool := isNameChar c && !c.isDigit

/-- The word that one character is. -/
def punctuation? : Char → Option Token
  | '(' => some .openList
  | ')' => some .closeList
  | '[' => some .openGroup
  | ']' => some .closeGroup
  | '+' => some .plus
  | '*' => some .star
  | _ => none

end TreePasses.Pattern
