-- Rules: what a pass makes of the forms of a clause, by the id of the clause.
import TreePasses.Language.Basic

namespace TreePasses

/-- What a pass makes of a form, once it is done with the forms inside. -/
abbrev Rule := Tree → Tree

/-- At most one rule for each id. -/
structure RuleTable where
  rows : List (ClauseId × Rule)

namespace RuleTable

/-- No rules. -/
def empty : RuleTable := ⟨[]⟩

/-- The rule for an id. -/
def get? (table : RuleTable) (id : ClauseId) : Option Rule := table.rows.lookup id

/-- Sets the rule for an id, in place of any before it. -/
def insert (table : RuleTable) (id : ClauseId) (rule : Rule) : RuleTable :=
  ⟨table.rows.filter (·.1 ≠ id) ++ [(id, rule)]⟩

/-- Whether an id has a rule. -/
def contains (table : RuleTable) (id : ClauseId) : Bool := (table.get? id).isSome

/-- How many ids have a rule. -/
def size (table : RuleTable) : Nat := table.rows.length

/-- The ids with a rule, in ascending order. -/
def ids (table : RuleTable) : List ClauseId :=
  (table.rows.map (·.1)).mergeSort fun a b => a.index ≤ b.index

/-- What becomes of a form of a clause: without a rule for it, the form stays as it is. -/
def apply (table : RuleTable) (id : ClauseId) (t : Tree) : Tree :=
  match table.get? id with
  | some rule => rule t
  | none => t

end RuleTable

end TreePasses
