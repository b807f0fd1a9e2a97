-- Languages: named terminals, and an ordered list of clauses over them. A tree belongs to a
-- language if it has the shape of one of its clauses.
import TreePasses.Clause.Matching
import TreePasses.Clause.Signature
import TreePasses.Language.Terminal

namespace TreePasses

/-- What tells entries apart, whichever language they are in. It is 32 bits wide. -/
structure ClauseId where
  index : UInt32
deriving DecidableEq, Repr

/-- A clause of a language. -/
structure Entry where
  id : ClauseId
  clause : Clause
  /-- Whether a pass leaves the parts of this clause's forms as they are. -/
  verbatim : Bool
deriving DecidableEq, Repr

namespace Entry

/-- The signature of an entry's clause. -/
def signature (e : Entry) : String := e.clause.signature

end Entry

/-- A set of tree shapes. The first entry that fits a tree says what form it is; of two
registrations of a terminal, the later one counts. -/
structure Language where
  name : String
  entries : List Entry
  /-- The registered terminals, latest first. -/
  terminals : List (String × Terminal)
deriving DecidableEq, Repr

namespace Language

/-- A language without clauses or terminals. -/
def empty (name : String) : Language := ⟨name, [], []⟩

/-- A language with the same clauses and terminals under another name. -/
def renamed (l : Language) (name : String) : Language := { l with name }

/-- Registers a terminal. -/
def register (l : Language) (name : String) (terminal : Terminal) : Language :=
  { l with terminals := (name, terminal) :: l.terminals }

/-- The name that stands for the forms of the language itself, in every language. -/
def expressionName : String := "ε"

/-- What a name stands for. -/
def terminal? (l : Language) (name : String) : Option Terminal :=
  if name = expressionName then some .expression else l.terminals.lookup name

/-- The signatures of the clauses, in order. -/
def signatures (l : Language) : List String := l.entries.map Entry.signature

/-- The entry of an id. -/
def entry? (l : Language) (id : ClauseId) : Option Entry := l.entries.find? (·.id = id)

/-! ## Membership -/

/-- Whether a tree is what a name stands for, given which trees are forms. A name that stands
for nothing stands for no tree. -/
def holdsGiven (l : Language) (accepts : Tree → Bool) (name : String) (t : Tree) : Bool :=
  match l.terminal? name with
  | some terminal => terminal.holds accepts t
  | none => false

/-- Whether a tree belongs to the language by clauses that look for forms inside it no more
than `depth - 1` levels down. -/
def acceptsWithin (l : Language) : (depth : Nat) → Tree → Bool
  | 0, _ => false
  | depth + 1, t => l.entries.any fun e => e.clause.fits (l.holdsGiven (l.acceptsWithin depth)) t

/-- Whether a tree belongs to the language. The forms inside a tree are lower than the tree
itself, so its height is deep enough, as long as no clause is a name alone that stands for any form.
A name can come to stand for that later, when it is a clause already. To ask whether a tree fits
such a clause is to ask about the same tree again, and whoever follows the clauses may never get an
answer (`no_answer_after_register`); this definition gives one even so, from as many levels as the
tree is high. -/
def accepts (l : Language) (t : Tree) : Bool := l.acceptsWithin t.height t

/-- Whether a tree is what a name stands for. -/
def holds (l : Language) : String → Tree → Bool := l.holdsGiven l.accepts

/-- Whether a tree has the shape of a clause. -/
def fits (l : Language) (c : Clause) (t : Tree) : Bool := c.fits l.holds t

/-- For a list clause that takes all of some items, the clause that took each of them. -/
def captures (l : Language) (c : Clause) (items : List Tree) : Option (List Clause) :=
  c.captures l.holds items

/-- The first entry whose clause a tree has the shape of. -/
def entryOf? (l : Language) (t : Tree) : Option Entry :=
  l.entries.find? fun e => l.fits e.clause t

end Language

end TreePasses
