-- The signature of a clause: its pattern with one space between neighbours and no comments.
-- Two clauses of a language are the same if their signatures are.
import TreePasses.Clause.Basic
import TreePasses.Text.Spaced

namespace TreePasses.Clause

mutual

/-- The characters of a signature. -/
def chars : Clause → List Char
  | .list body q => '(' :: (Text.spaced (bodyChars body) ++ ')' :: q.suffix)
  | .group body q => '[' :: (Text.spaced (bodyChars body) ++ ']' :: q.suffix)
  | .literal name q => '\'' :: (name.toList ++ q.suffix)
  | .terminal name q => name.toList ++ q.suffix

/-- The signatures of the clauses in a body, one by one. -/
def bodyChars : List Clause → List (List Char)
  | [] => []
  | c :: cs => c.chars :: bodyChars cs

end

/-- The signature of a clause. -/
def signature (c : Clause) : String := String.ofList c.chars

end TreePasses.Clause
