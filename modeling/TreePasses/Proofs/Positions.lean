-- Where forms stand in a tree: the tree itself, and in a list whatever the first clause that fits
-- it, and the lists in that clause, leave to any form.
import TreePasses.Language.Editing

namespace TreePasses.Language

/-! ## The forms in a tree -/

/-- The forms in the items of a tree that a clause takes as a whole, given the forms in each item
by the clause that took it. -/
def formsInside (l : Language) (c : Clause) (t : Tree) (items : List Clause → List Tree) :
    List Tree :=
  match t with
  | .atom _ => []
  | .list old =>
    match l.captures c old with
    | some captures => items captures
    | none => []

/-- A form and the forms in it, by its first clause that fits. -/
def formAnd (l : Language) (t : Tree) (items : List Clause → List Tree) : List Tree :=
  match l.entryOf? t with
  | some e => t :: l.formsInside e.clause t items
  | none => [t]

/-- The forms in a tree that a clause took, given the forms in its items. -/
def formsTaken (l : Language) (c : Clause) (t : Tree) (items : List Clause → List Tree) :
    List Tree :=
  match c with
  | .list body q => l.formsInside (.list body q) t items
  | .terminal name _ =>
    if l.terminal? name = some .expression then l.formAnd t items else []
  | .group _ _ => []
  | .literal _ _ => []

mutual

/-- The forms in a tree that a clause took, each before those in it. -/
def formsIn (l : Language) : Tree → Clause → List Tree
  | .atom a, c => l.formsTaken c (.atom a) fun _ => []
  | .list items, c => l.formsTaken c (.list items) fun cs => l.formsInAll items cs

/-- The forms in items, each with the clause that took it. -/
def formsInAll (l : Language) : List Tree → List Clause → List Tree
  | t :: ts, c :: cs => l.formsIn t c ++ l.formsInAll ts cs
  | _, _ => []

end

/-- All forms in a form: the form itself first, then those that stand in it. -/
def positions (l : Language) : Tree → List Tree
  | .atom a => l.formAnd (.atom a) fun _ => []
  | .list items => l.formAnd (.list items) (l.formsInAll items)

/-! ## Positions by clause -/

variable {l : Language}

theorem mem_positions_self (t : Tree) : t ∈ l.positions t := by
  have hself : ∀ items, t ∈ l.formAnd t items := by
    intro items
    unfold formAnd
    split <;> exact List.mem_cons_self
  cases t <;> exact hself _

theorem positions_atom (a : Atom) : l.positions (.atom a) = [.atom a] := by
  unfold positions
  simp only [formAnd]
  cases l.entryOf? (.atom a) <;> rfl

/-- Where a clause names any form, the tree that it took is one. -/
theorem formsIn_expression {name : String} (h : l.terminal? name = some .expression)
    (q : Quantifier) (t : Tree) : l.formsIn t (.terminal name q) = l.positions t := by
  cases t <;> simp [formsIn, formsTaken, positions, h]

theorem formsIn_terminal {name : String} (h : l.terminal? name ≠ some .expression)
    (q : Quantifier) (t : Tree) : l.formsIn t (.terminal name q) = [] := by
  cases t <;> simp [formsIn, formsTaken, h]

theorem formsIn_literal (name : String) (q : Quantifier) (t : Tree) :
    l.formsIn t (.literal name q) = [] := by
  cases t <;> rfl

theorem formsIn_list {body : List Clause} {q : Quantifier} {items : List Tree}
    {word : List Clause} (h : l.captures (.list body q) items = some word) :
    l.formsIn (.list items) (.list body q) = l.formsInAll items word := by
  simp [formsIn, formsTaken, formsInside, h]

/-- The positions of a list, by what its first clause takes. -/
theorem positions_list {items : List Tree} {e : Entry} {word : List Clause}
    (he : l.entryOf? (.list items) = some e) (hword : l.captures e.clause items = some word) :
    l.positions (.list items) = .list items :: l.formsInAll items word := by
  simp [positions, formAnd, formsInside, he, hword]

theorem formsInAll_replicate (c : Clause) (items : List Tree) :
    l.formsInAll items (List.replicate items.length c) = items.flatMap (l.formsIn · c) := by
  induction items with
  | nil => rfl
  | cons t ts ih =>
    rw [List.length_cons, List.replicate_succ, formsInAll, ih, List.flatMap_cons]

end TreePasses.Language
