-- Reading trees from text, one character at a time. What has been read so far is a value of
-- its own, so the reader says at every character whether the text can still become a tree.
import TreePasses.Decimal.Numeral
import TreePasses.Text.CharClass
import TreePasses.Tree.Basic

namespace TreePasses

/-- Why a text is not a tree. Places are counted in bytes. -/
inductive ReadError where
  /-- The text ends before its tree does. -/
  | unexpectedEnd
  /-- A list is closed that was never opened. -/
  | unexpectedClose (offset : Nat)
  /-- The quotes opened here are never closed. -/
  | unterminatedString (start : Nat)
  /-- The backslash here stands before a character that needs none. -/
  | unknownEscape (escape : Char) (offset : Nat)
  /-- Something follows the tree. -/
  | trailingInput (offset : Nat)
deriving DecidableEq, Repr

namespace ReadError

/-- What is wrong, in words. -/
def message : ReadError → String
  | .unexpectedEnd => "unexpected end of input"
  | .unexpectedClose offset => "unexpected ')' at byte " ++ toString offset
  | .unterminatedString start => "unterminated string starting at byte " ++ toString start
  | .unknownEscape escape offset =>
    "unknown escape '\\" ++ String.singleton escape ++ "' at byte " ++ toString offset
  | .trailingInput offset => "trailing input at byte " ++ toString offset

end ReadError

namespace Atom

/-- Whether a text may stand for a floating number: past all its signs it starts with a digit
or a point. -/
def startsNumber (text : List Char) : Bool :=
  match text.dropWhile (fun c => c = '+' || c = '-') with
  | [] => false
  | c :: _ => c.isDigit || c = '.'

/-- The floating number that a text stands for. -/
def float? (text : List Char) : Option Decimal.Binary64 :=
  if startsNumber text then Decimal.binary64? text else none

/-- The atom that a word without quotes stands for: a truth value, a number if it can be
one, and a symbol otherwise. -/
def ofWord (word : List Char) : Atom :=
  if word = ['t', 'r', 'u', 'e'] then .bool true
  else if word = ['f', 'a', 'l', 's', 'e'] then .bool false
  else
    match Decimal.int64? word with
    | some value => .int value
    | none =>
      match float? word with
      | some value => .float value
      | none => .symbol (String.ofList word)

/-- The character that a backslash and a letter stand for inside quotes. -/
def unescape? : Char → Option Char
  | '"' => some '"'
  | '\\' => some '\\'
  | 'n' => some '\n'
  | 't' => some '\t'
  | _ => none

/-- Whether a character can stand in a word: it is no blank and starts nothing else. -/
def isWordChar (c : Char) : Bool :=
  !Text.isBlank c && c ≠ '(' && c ≠ ')' && c ≠ '"' && c ≠ ';'

end Atom

namespace Tree

/-! ## What has been read so far -/

/-- The lists that are still open, innermost first, each with its items so far, latest first;
or the whole tree once it is complete. -/
inductive Outline where
  | inside (lists : List (List Tree))
  | complete (tree : Tree)
deriving Repr

namespace Outline

/-- A tree has been read to its end. It is an item of the innermost list, or it is all. -/
def push (t : Tree) : List (List Tree) → Outline
  | [] => .complete t
  | items :: outer => .inside ((t :: items) :: outer)

end Outline

/-- What the last character belongs to. -/
inductive Mode where
  /-- Nothing that goes on. -/
  | between
  /-- A comment, which goes on to the end of its line. -/
  | comment
  /-- A word, held with its latest character first. -/
  | word (chars : List Char)
  /-- A text whose quotes opened at `start`, held with its latest character first. -/
  | quotes (start : Nat) (chars : List Char)
  /-- A backslash at `offset` in such a text. -/
  | backslash (start : Nat) (chars : List Char) (offset : Nat)
deriving Repr

/-- A text read in part: how many bytes of it, the tree so far, and what goes on. -/
structure Reading where
  offset : Nat
  outline : Outline
  mode : Mode
deriving Repr

namespace Reading

/-- Before the first character. -/
def start : Reading := ⟨0, .inside [], .between⟩

/-- A character that belongs to nothing before it, at a place in an outline. -/
def begin (offset : Nat) (outline : Outline) (c : Char) : Except ReadError (Outline × Mode) :=
  if Text.isBlank c then .ok (outline, .between)
  else if c = ';' then .ok (outline, .comment)
  else
    match outline with
    | .complete _ => .error (.trailingInput offset)
    | .inside lists =>
      if c = '(' then .ok (.inside ([] :: lists), .between)
      else if c = ')' then
        match lists with
        | [] => .error (.unexpectedClose offset)
        | items :: outer => .ok (.push (.list items.reverse) outer, .between)
      else if c = '"' then .ok (outline, .quotes offset [])
      else .ok (outline, .word [c])

/-- A word has come to its end. -/
def endWord (chars : List Char) : Outline → Outline
  | .inside lists => .push (.atom (.ofWord chars.reverse)) lists
  | .complete t => .complete t

/-- A text in quotes has come to its end. -/
def endQuotes (chars : List Char) : Outline → Outline
  | .inside lists => .push (.atom (.string (String.ofList chars.reverse))) lists
  | .complete t => .complete t

/-- The next character. -/
def step (r : Reading) (c : Char) : Except ReadError Reading := do
  let (outline, mode) ←
    match r.mode with
    | .between => begin r.offset r.outline c
    | .comment => .ok (r.outline, if c = '\n' then .between else .comment)
    | .word chars =>
      if Atom.isWordChar c then .ok (r.outline, .word (c :: chars))
      else begin r.offset (endWord chars r.outline) c
    | .quotes start chars =>
      if c = '"' then .ok (endQuotes chars r.outline, .between)
      else if c = '\\' then .ok (r.outline, .backslash start chars r.offset)
      else .ok (r.outline, .quotes start (c :: chars))
    | .backslash start chars offset =>
      match Atom.unescape? c with
      | some d => .ok (r.outline, .quotes start (d :: chars))
      | none => .error (.unknownEscape c offset)
  return ⟨r.offset + c.utf8Size, outline, mode⟩

/-- The tree, if the text may end here. -/
def finish (r : Reading) : Except ReadError Tree :=
  let outline : Except ReadError Outline :=
    match r.mode with
    | .between => .ok r.outline
    | .comment => .ok r.outline
    | .word chars => .ok (endWord chars r.outline)
    | .quotes start _ => .error (.unterminatedString start)
    | .backslash start _ _ => .error (.unterminatedString start)
  match outline with
  | .ok (.complete t) => .ok t
  | .ok (.inside _) => .error .unexpectedEnd
  | .error e => .error e

end Reading

/-- The tree that a text stands for. Blanks separate words, and a semicolon starts a comment
that goes on to the end of its line. -/
def read (text : List Char) : Except ReadError Tree := do
  (← text.foldlM Reading.step Reading.start).finish

end Tree

end TreePasses
