-- Terminals: the named classes of trees that clauses are built on.
import TreePasses.Tree.Basic

namespace TreePasses

/-- What a name in a pattern may stand for. -/
inductive Terminal where
  /-- Any symbol. -/
  | symbol
  /-- A symbol that names a built-in operation. -/
  | primitive
  /-- A number, a text or a truth value. -/
  | constant
  /-- Any tree. -/
  | datum
  /-- Any form of the language itself. -/
  | expression
deriving DecidableEq, Repr

/-- The built-in operations. -/
def primitives : List String :=
  ["+", "-", "*", "/", "cons", "car", "cdr", "pair?", "vector", "make-vector", "vector-length",
    "vector-ref", "vector-set!", "vector?", "string", "make-string", "string-length",
    "string-ref", "string-set!", "string?", "void"]

/-- Whether a name is that of a built-in operation. -/
def isPrimitive (name : String) : Bool := primitives.contains name

namespace Terminal

/-- The word for a terminal. -/
def label : Terminal → String
  | .symbol => "variable"
  | .primitive => "primitive"
  | .constant => "constant"
  | .datum => "datum"
  | .expression => "expression"

/-- Whether a tree is in the class of a terminal, given which trees are forms. -/
def holds (accepts : Tree → Bool) : Terminal → Tree → Bool
  | .symbol, t => t.symbol?.isSome
  | .primitive, t => t.symbol?.any isPrimitive
  | .constant, t => t.isConstant
  | .datum, _ => true
  | .expression, t => accepts t

end Terminal

end TreePasses
