-- Transforming a form from the inside out: first the forms inside it, found by the clauses
-- that took them, and then the form itself by the rule of its clause.
import TreePasses.Pass.Rules

namespace TreePasses.Language

/-- A tree with new items, one for each clause that took an item. A tree that the clause does
not take as a whole stays as it is. -/
def rebuild (l : Language) (c : Clause) (t : Tree) (items : List Clause → List Tree) : Tree :=
  match t with
  | .atom a => .atom a
  | .list old =>
    match l.captures c old with
    | some captures => .list (items captures)
    | none => .list old

/-- What becomes of a form of an entry, given what becomes of its items. -/
def convertForm (l : Language) (rules : RuleTable) (e : Entry) (t : Tree)
    (items : List Clause → List Tree) : Tree :=
  rules.apply e.id (if e.verbatim then t else l.rebuild e.clause t items)

/-- What becomes of a tree that a clause took, given what becomes of its items. Something may
change only inside a list clause, and where any form may stand. -/
def convertTaken (l : Language) (rules : RuleTable) (c : Clause) (t : Tree)
    (items : List Clause → List Tree) : Tree :=
  match c with
  | .list body q => l.rebuild (.list body q) t items
  | .terminal name _ =>
    if l.terminal? name = some .expression then
      match l.entryOf? t with
      | some e => l.convertForm rules e t items
      | none => t
    else t
  | .group _ _ => t
  | .literal _ _ => t

mutual

/-- What becomes of a tree that a clause took. -/
def transform (l : Language) (rules : RuleTable) : Tree → Clause → Tree
  | .atom a, c => l.convertTaken rules c (.atom a) fun _ => []
  | .list items, c => l.convertTaken rules c (.list items) fun cs => l.transformAll rules items cs

/-- What becomes of items, each with the clause that took it. -/
def transformAll (l : Language) (rules : RuleTable) : List Tree → List Clause → List Tree
  | t :: ts, c :: cs => l.transform rules t c :: l.transformAll rules ts cs
  | _, _ => []

end

/-- What becomes of the items of a tree. -/
def transformItems (l : Language) (rules : RuleTable) : Tree → List Clause → List Tree
  | .atom _ => fun _ => []
  | .list items => l.transformAll rules items

/-- What becomes of a form of an entry. -/
def transformForm (l : Language) (rules : RuleTable) (e : Entry) (t : Tree) : Tree :=
  l.convertForm rules e t (l.transformItems rules t)

end TreePasses.Language
