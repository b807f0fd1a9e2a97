-- Reading a clause from the words of a pattern, one word at a time. The brackets that are
-- still open are held on a stack, so a prefix of a pattern is a value of its own.
import TreePasses.Clause.Basic
import TreePasses.Pattern.Scan

namespace TreePasses.Clause

open Pattern (Token PlacedToken ScanFault)
open Text (Position Diagnostic)

/-- Why words are not a pattern. -/
inductive Fault where
  /-- This word cannot stand here. -/
  | unexpected (token : Token)
  /-- The list opened here is never closed. -/
  | unterminatedList
  /-- The group opened here is never closed. -/
  | unterminatedGroup
  /-- There are no words. -/
  | emptyPattern
  /-- A group stands outside every list. -/
  | groupOutsideList
  /-- A group has no body. -/
  | emptyGroup
  /-- This word follows a pattern that is complete. -/
  | trailing (token : Token)
deriving DecidableEq, Repr

namespace Fault

/-- What is wrong, in words. -/
def message : Fault → String
  | .unexpected token => "unexpected '" ++ token.text ++ "'"
  | .unterminatedList => "unterminated list: expected ')'"
  | .unterminatedGroup => "unterminated group: expected ']'"
  | .emptyPattern => "empty pattern"
  | .groupOutsideList => "a group '[...]' is only valid inside a list"
  | .emptyGroup => "empty group '[]'"
  | .trailing token => "unexpected '" ++ token.text ++ "' after the end of the pattern"

end Fault

/-! ## What has been read so far -/

/-- The two kinds of bracket. -/
inductive Bracket where
  | list
  | group
deriving DecidableEq, Repr

/-- An open bracket, its place, and the clauses in it so far, latest first. -/
structure Frame where
  bracket : Bracket
  opened : Position
  body : List Clause
deriving DecidableEq, Repr

/-- How far a pattern has been read. `fresh` says that the latest clause ended with the
latest word, so that a quantifier may follow it. -/
inductive Progress where
  /-- No word yet. -/
  | start
  /-- Inside brackets: the innermost, and those around it from the inside out. -/
  | inside (top : Frame) (outer : List Frame) (fresh : Bool)
  /-- The clause is complete. -/
  | complete (root : Clause) (fresh : Bool)
deriving DecidableEq, Repr

/-- A fault and its place. -/
abbrev FaultAt := Fault × Position

namespace Progress

/-- A clause has been read to its end. It stands in the innermost brackets, or it is all. -/
def push (c : Clause) : List Frame → Progress
  | [] => .complete c true
  | top :: outer => .inside { top with body := c :: top.body } outer true

/-- The frames around the next word, innermost first. -/
def frames : Progress → List Frame
  | .inside top outer _ => top :: outer
  | _ => []

/-- A quantifier sign, which takes the latest clause if that is fresh. -/
def quantify (q : Quantifier) (placed : PlacedToken) : Progress → Except FaultAt Progress
  | .inside ⟨bracket, opened, c :: body⟩ outer true =>
    .ok (.inside ⟨bracket, opened, c.quantified q :: body⟩ outer false)
  | .complete root true => .ok (.complete (root.quantified q) false)
  | .complete _ false => .error (.trailing placed.token, placed.position)
  | _ => .error (.unexpected placed.token, placed.position)

/-- A closing bracket, which must close one of its own kind. -/
def close (bracket : Bracket) (placed : PlacedToken) : Progress → Except FaultAt Progress
  | .inside top outer _ =>
    if top.bracket = bracket then
      match bracket, top.body with
      | .list, body => .ok (.push (.list body.reverse .one) outer)
      | .group, [] => .error (.emptyGroup, top.opened)
      | .group, body => .ok (.push (.group body.reverse .one) outer)
    else .error (.unexpected placed.token, placed.position)
  | .start => .error (.unexpected placed.token, placed.position)
  | .complete _ _ => .error (.trailing placed.token, placed.position)

/-- A word that is a clause on its own. -/
def word (c : Clause) (placed : PlacedToken) : Progress → Except FaultAt Progress
  | .complete _ _ => .error (.trailing placed.token, placed.position)
  | p => .ok (.push c p.frames)

/-- An opening bracket. The whole pattern cannot be a group. -/
def openBracket (bracket : Bracket) (placed : PlacedToken) : Progress → Except FaultAt Progress
  | .complete _ _ => .error (.trailing placed.token, placed.position)
  | .inside top outer _ => .ok (.inside ⟨bracket, placed.position, []⟩ (top :: outer) false)
  | .start =>
    match bracket with
    | .list => .ok (.inside ⟨.list, placed.position, []⟩ [] false)
    | .group => .error (.groupOutsideList, placed.position)

/-- The next word. -/
def step (p : Progress) (placed : PlacedToken) : Except FaultAt Progress :=
  match placed.token with
  | .openList => p.openBracket .list placed
  | .openGroup => p.openBracket .group placed
  | .closeList => p.close .list placed
  | .closeGroup => p.close .group placed
  | .star => p.quantify .zeroOrMore placed
  | .plus => p.quantify .oneOrMore placed
  | .literal name => p.word (.literal name .one) placed
  | .terminal name => p.word (.terminal name .one) placed

/-- The clause, if the words may end here, at the end of the text. -/
def finish (last : Position) : Progress → Except FaultAt Clause
  | .start => .error (.emptyPattern, last)
  | .inside ⟨.list, opened, _⟩ _ _ => .error (.unterminatedList, opened)
  | .inside ⟨.group, opened, _⟩ _ _ => .error (.unterminatedGroup, opened)
  | .complete root _ => .ok root

end Progress

/-- The clause that words stand for, in a text that ends at `last`. -/
def ofTokens (tokens : List PlacedToken) (last : Position) : Except FaultAt Clause := do
  (← tokens.foldlM Progress.step .start).finish last

/-! ## Patterns -/

/-- Why a text is not a pattern: it cannot be cut into words, or its words do not fit
together. -/
inductive PatternError where
  | scan (cause : Diagnostic ScanFault)
  | shape (cause : Diagnostic Fault)
deriving DecidableEq, Repr

namespace PatternError

/-- The place of the fault. -/
def position : PatternError → Position
  | .scan cause => cause.position
  | .shape cause => cause.position

/-- What is wrong, in words, with the line at fault. -/
def message : PatternError → String
  | .scan cause => cause.message ScanFault.message
  | .shape cause => cause.message Fault.message

end PatternError

/-- The clause that a pattern stands for. All of the text is cut into words first. -/
def read (source : String) : Except PatternError Clause :=
  match Pattern.tokens source with
  | .error cause => .error (.scan cause)
  | .ok tokens =>
    (ofTokens tokens (.after source.toList)).mapError fun (fault, position) =>
      .shape (.of source.toList fault position)

end TreePasses.Clause
