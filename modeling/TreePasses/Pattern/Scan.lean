-- Cutting a pattern into words, one character at a time. Names are as long as they can be;
-- blanks and comments only separate.
import TreePasses.Pattern.Token
import TreePasses.Text.Excerpt

namespace TreePasses.Pattern

open Text (Position Diagnostic)

/-- Why a text cannot be cut into words. -/
inductive ScanFault where
  /-- No word starts with this character. -/
  | unrecognized (c : Char)
  /-- No name follows a quote. -/
  | namelessLiteral
deriving DecidableEq, Repr

namespace ScanFault

/-- A character as a message shows it. Control characters are shown by number. -/
def shown (c : Char) : String :=
  if c.toNat = 0 then "'\\0'"
  else if Text.isControl c then
    "'\\u\x7b" ++ String.ofList (Nat.toDigits 16 c.toNat) ++ "\x7d'"
  else "'" ++ String.singleton c ++ "'"

/-- What is wrong, in words. -/
def message : ScanFault → String
  | .unrecognized c => "unrecognized character " ++ shown c
  | .namelessLiteral => "expected a symbol name after '"

end ScanFault

/-- What the last character belongs to. -/
inductive ScanMode where
  /-- Nothing that goes on. -/
  | between
  /-- A comment, which goes on to the end of its line. -/
  | comment
  /-- A literal whose quote stands at `start`, its name held with the latest character first. -/
  | literal (start : Position) (name : List Char)
  /-- A terminal that starts at `start`, held with the latest character first. -/
  | terminal (start : Position) (name : List Char)
deriving DecidableEq, Repr

/-- A pattern cut into words in part: the place reached, the words so far with the latest
first, and what goes on. -/
structure Scan where
  position : Position
  tokens : List PlacedToken
  mode : ScanMode
deriving DecidableEq, Repr

/-- A fault and its place. -/
abbrev ScanError := ScanFault × Position

namespace Scan

/-- Before the first character. -/
def start : Scan := ⟨.start, [], .between⟩

/-- A character that belongs to nothing before it. -/
def begin (position : Position) (tokens : List PlacedToken) (c : Char) :
    Except ScanError (List PlacedToken × ScanMode) :=
  if Text.isBlank c then .ok (tokens, .between)
  else if c = ';' then .ok (tokens, .comment)
  else if c = '\'' then .ok (tokens, .literal position [])
  else
    match punctuation? c with
    | some token => .ok (⟨token, position⟩ :: tokens, .between)
    | none =>
      if startsTerminal c then .ok (tokens, .terminal position [c])
      else .error (.unrecognized c, position)

/-- The words once the name of a literal or terminal has come to its end. -/
def settle (tokens : List PlacedToken) : ScanMode → Except ScanError (List PlacedToken)
  | .between => .ok tokens
  | .comment => .ok tokens
  | .literal start [] => .error (.namelessLiteral, start)
  | .literal start (c :: cs) =>
    .ok (⟨.literal (String.ofList (c :: cs).reverse), start⟩ :: tokens)
  | .terminal start name => .ok (⟨.terminal (String.ofList name.reverse), start⟩ :: tokens)

/-- What goes on, if a character belongs to it. -/
def extend? (c : Char) : ScanMode → Option ScanMode
  | .between => none
  | .comment => some (if c = '\n' then .between else .comment)
  | .literal start name => if isNameChar c then some (.literal start (c :: name)) else none
  | .terminal start name => if isNameChar c then some (.terminal start (c :: name)) else none

/-- The next character. -/
def step (s : Scan) (c : Char) : Except ScanError Scan :=
  match extend? c s.mode with
  | some mode => .ok ⟨s.position.advance c, s.tokens, mode⟩
  | none => do
    let tokens ← settle s.tokens s.mode
    let (tokens, mode) ← begin s.position tokens c
    return ⟨s.position.advance c, tokens, mode⟩

/-- All the words in order, if the text may end here. -/
def finish (s : Scan) : Except ScanError (List PlacedToken) := do
  return (← settle s.tokens s.mode).reverse

end Scan

/-- The words of a text, or its first fault. -/
def scan (text : List Char) : Except ScanError (List PlacedToken) := do
  (← text.foldlM Scan.step Scan.start).finish

/-- The words of a pattern, each with its place. -/
def tokens (source : String) : Except (Diagnostic ScanFault) (List PlacedToken) :=
  (scan source.toList).mapError fun (fault, position) => .of source.toList fault position

end TreePasses.Pattern
