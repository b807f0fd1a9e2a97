-- Changing the clauses of a language. Each clause put in gets an id that no clause had
-- before it; an id once spent stays spent, also if what follows it fails.
import TreePasses.Clause.Reader
import TreePasses.Language.Basic

namespace TreePasses

/-- Why a language or pass cannot be built as asked. -/
inductive GrammarError where
  | invalidPattern (pattern : String) (cause : Clause.PatternError)
  | unknownClause (signature language : String)
  | duplicateClause (signature language : String)
  | unknownTerminal (name signature : String)
  | leftRecursive (signature language : String)
  | duplicateRule (pass signature : String)
deriving DecidableEq, Repr

namespace GrammarError

/-- A name in backquotes. -/
def marked (name : String) : String := "`" ++ name ++ "`"

/-- What is wrong, in words. -/
def message : GrammarError → String
  | .invalidPattern pattern cause => "invalid pattern " ++ marked pattern ++ "\n" ++ cause.message
  | .unknownClause signature language =>
    "no clause " ++ marked signature ++ " in language " ++ marked language
  | .duplicateClause signature language =>
    "clause " ++ marked signature ++ " is already defined in language " ++ marked language
  | .unknownTerminal name signature =>
    "unknown terminal " ++ marked name ++ " in clause " ++ marked signature
  | .leftRecursive signature language =>
    "clause " ++ marked signature ++ " in language " ++ marked language ++ " is left-recursive"
  | .duplicateRule pass signature =>
    "pass " ++ marked pass ++ " defines more than one rewrite for clause " ++ marked signature

end GrammarError

/-! ## Fresh ids -/

/-- The ids not yet spent, by the number of entries created so far. Ids count up from zero and
start over after 32 bits. -/
structure Supply where
  created : Nat
deriving DecidableEq, Repr

namespace Supply

/-- No entry has been created. -/
def start : Supply := ⟨0⟩

/-- The id that the next entry gets. -/
def next (s : Supply) : ClauseId := ⟨s.created.toUInt32⟩

/-- What is left once an entry has got that id. -/
def spend (s : Supply) : Supply := ⟨s.created + 1⟩

end Supply

/-- Building something out of clauses: it may fail, and it spends ids either way. -/
abbrev Build := ExceptT GrammarError (StateM Supply)

namespace Build

/-- The next id, which is spent by this. -/
def freshId : Build ClauseId := modifyGet fun s => (s.next, s.spend)

/-- A step that spends no ids. -/
def ofExcept {α : Type} (result : Except GrammarError α) : Build α := ExceptT.mk (pure result)

/-- What is built if no id has been spent before. -/
def fromStart {α : Type} (build : Build α) : Except GrammarError α := (build.run.run .start).1

end Build

namespace Language

/-! ## Looking clauses up by pattern -/

/-- The clause that a pattern stands for. -/
def clauseOf (pattern : String) : Except GrammarError Clause :=
  (Clause.read pattern).mapError (.invalidPattern pattern)

/-- The first entry with the signature of a pattern. -/
def entryFor (l : Language) (pattern : String) : Except GrammarError Entry := do
  let clause ← clauseOf pattern
  match l.entries.find? (·.signature = clause.signature) with
  | some entry => .ok entry
  | none => .error (.unknownClause clause.signature l.name)

/-- Takes out the first entry with the signature of a pattern. -/
def erase (l : Language) (pattern : String) : Except GrammarError (Entry × Language) := do
  let entry ← l.entryFor pattern
  return (entry, { l with entries := l.entries.eraseP (·.signature = entry.signature) })

/-! ## Putting clauses in -/

/-- Whether a clause is a name alone that stands for any form. Such a clause would say that a
form is a form. -/
def isLeftRecursive (l : Language) : Clause → Bool
  | .terminal name _ => l.terminal? name = some .expression
  | _ => false

/-- What keeps a clause out of a language, if anything does: a terminal without meaning, left
recursion, or a clause with the same signature. -/
def objection? (l : Language) (c : Clause) : Option GrammarError :=
  match c.terminalNames.find? (l.terminal? · = none) with
  | some name => some (.unknownTerminal name c.signature)
  | none =>
    if l.isLeftRecursive c then some (.leftRecursive c.signature l.name)
    else if l.signatures.contains c.signature then some (.duplicateClause c.signature l.name)
    else none

/-- The clause that a pattern stands for, if it may be put into a language. -/
def admissible (l : Language) (pattern : String) : Except GrammarError Clause := do
  let clause ← clauseOf pattern
  match l.objection? clause with
  | some objection => .error objection
  | none => .ok clause

/-- An entry of its own for a pattern. -/
def newEntry (l : Language) (pattern : String) (verbatim : Bool) : Build Entry := do
  let clause ← Build.ofExcept (l.admissible pattern)
  return { id := ← Build.freshId, clause, verbatim }

/-- Puts a clause after all others. -/
def append (l : Language) (pattern : String) (verbatim : Bool) : Build Language := do
  let entry ← l.newEntry pattern verbatim
  return { l with entries := l.entries ++ [entry] }

/-- Puts a clause before all others, and says which id it got. -/
def prepend (l : Language) (pattern : String) (verbatim : Bool) :
    Build (ClauseId × Language) := do
  let entry ← l.newEntry pattern verbatim
  return (entry.id, { l with entries := entry :: l.entries })

end Language

end TreePasses
