-- Where a character stands in a text: the bytes before it, its line, and its column. A
-- position is what one gets by walking over all that comes before.

namespace TreePasses.Text

/-- A place in a text: the number of bytes before it, and its line and column, both counted
from one. Columns count characters. The numbers are 32 bits wide. -/
structure Position where
  offset : UInt32
  line : UInt32
  column : UInt32
deriving DecidableEq, Repr

namespace Position

/-- The place of the first character. -/
def start : Position := ⟨0, 1, 1⟩

/-- The place right after a character that stands here. A line feed ends its line. -/
def advance (p : Position) (c : Char) : Position :=
  if c = '\n' then ⟨p.offset + c.utf8Size.toUInt32, p.line + 1, 1⟩
  else ⟨p.offset + c.utf8Size.toUInt32, p.line, p.column + 1⟩

/-- The place right after a text. -/
def after (text : List Char) : Position := text.foldl advance start

/-- A place as people write it: line and column. -/
def text (p : Position) : String := toString p.line.toNat ++ ":" ++ toString p.column.toNat

@[simp]
theorem after_nil : after [] = start := rfl

theorem after_append_singleton (text : List Char) (c : Char) :
    after (text ++ [c]) = (after text).advance c := by
  simp [after]

end Position

end TreePasses.Text
