-- The piece of a text that a message about it shows: the line at fault, and below it a
-- caret under the column at fault.
import TreePasses.Text.Position

namespace TreePasses.Text

/-! ## Lines -/

/-- The lines of a text without their ends. A line ends with a line feed, or with a carriage
return and a line feed; what follows the last line end is a line only if it is not empty. -/
def lines : List Char → List (List Char)
  | [] => []
  | '\n' :: rest => [] :: lines rest
  | '\r' :: '\n' :: rest => [] :: lines rest
  | c :: rest =>
    match lines rest with
    | [] => [[c]]
    | line :: later => (c :: line) :: later

/-! ## Excerpts -/

/-- A line of a text, and a column of it to point at. -/
structure Excerpt where
  line : List Char
  column : UInt32
deriving DecidableEq, Repr

namespace Excerpt

/-- The line that a position stands on. Past the last line there is nothing to show. -/
def of (source : List Char) (p : Position) : Excerpt where
  line := ((lines source)[p.line.toNat - 1]?).getD []
  column := p.column

/-- What stands below the line: blanks up to the column, then a caret. A tab is kept, so
that the caret lines up however wide tabs are shown. -/
def marker (e : Excerpt) : List Char :=
  (e.line.take (e.column.toNat - 1)).map (fun c => if c = '\t' then '\t' else ' ') ++ ['^']

/-- Both lines, indented. -/
def text (e : Excerpt) : String :=
  "\t" ++ String.ofList e.line ++ "\n\t" ++ String.ofList e.marker

end Excerpt

/-! ## Diagnostics -/

/-- A fault, where it stands, and the line it stands on. -/
structure Diagnostic (Fault : Type) where
  fault : Fault
  position : Position
  excerpt : Excerpt
deriving DecidableEq, Repr

namespace Diagnostic

variable {Fault : Type}

/-- A fault at a place of a source text. -/
def of (source : List Char) (fault : Fault) (position : Position) : Diagnostic Fault where
  fault
  position
  excerpt := Excerpt.of source position

/-- The place, what is wrong there, and the excerpt. -/
def message (describe : Fault → String) (d : Diagnostic Fault) : String :=
  d.position.text ++ ": " ++ describe d.fault ++ "\n" ++ d.excerpt.text

end Diagnostic

end TreePasses.Text
