-- Matching trees against clauses, given what each terminal stands for. A body takes items from
-- left to right; every clause takes as many as it can and gives none back.
import TreePasses.Clause.Basic
import TreePasses.Tree.Basic

namespace TreePasses.Clause

/-- What a body takes from a list: for each item taken, the clause that took it; and the
items left over. -/
abbrev Taken := List Clause × List Tree

/-! ## Repetition -/

/-- Takes neighbouring items that pass a test of their own, as often as a quantifier says. -/
def takeItems (c : Clause) (q : Quantifier) (test : Tree → Bool) (items : List Tree) :
    Option Taken :=
  match q with
  | .one =>
    match items with
    | [] => none
    | t :: rest => if test t then some ([c], rest) else none
  | .zeroOrMore =>
    let count := (items.takeWhile test).length
    some (List.replicate count c, items.drop count)
  | .oneOrMore =>
    let count := (items.takeWhile test).length
    if count = 0 then none else some (List.replicate count c, items.drop count)

/-- Takes chunks of items, each by the same step, until the step fails. A chunk without items
is the last one. -/
def takeChunks (step : List Tree → Option Taken) (items : List Tree) :
    List (List Clause) × List Tree :=
  match step items with
  | none => ([], items)
  | some (chunk, rest) =>
    if rest.length < items.length then
      let (chunks, left) := takeChunks step rest
      (chunk :: chunks, left)
    else ([chunk], rest)
termination_by items.length

/-- Takes chunks of items as often as a quantifier says. -/
def takeGroup (q : Quantifier) (step : List Tree → Option Taken) (items : List Tree) :
    Option Taken :=
  match q with
  | .one => step items
  | .zeroOrMore =>
    let (chunks, rest) := takeChunks step items
    some (chunks.flatten, rest)
  | .oneOrMore =>
    let (chunks, rest) := takeChunks step items
    if chunks.isEmpty then none else some (chunks.flatten, rest)

/-- Whether a step takes all items of a list. An atom has no items to take. -/
def coversTree (step : List Tree → Option Taken) : Tree → Bool
  | .atom _ => false
  | .list items =>
    match step items with
    | some (_, []) => true
    | _ => false

/-! ## Bodies -/

mutual

/-- What one clause takes. -/
def take (holds : String → Tree → Bool) : Clause → List Tree → Option Taken
  | .list body q, items =>
    takeItems (.list body q) q (coversTree fun inner => takeAll holds body inner) items
  | .group body q, items => takeGroup q (fun inner => takeAll holds body inner) items
  | .literal name q, items => takeItems (.literal name q) q (Tree.isSymbol name) items
  | .terminal name q, items => takeItems (.terminal name q) q (holds name) items

/-- What the clauses of a body take, one after the other. -/
def takeAll (holds : String → Tree → Bool) : List Clause → List Tree → Option Taken
  | [], items => some ([], items)
  | c :: cs, items =>
    match c.take holds items with
    | none => none
    | some (first, rest) =>
      match takeAll holds cs rest with
      | none => none
      | some (others, left) => some (first ++ others, left)

end

/-- Whether a single tree has the shape of a clause. How often the clause may repeat plays no
part, and no tree has the shape of a group. -/
def fits (holds : String → Tree → Bool) : Clause → Tree → Bool
  | .list body _, t => coversTree (takeAll holds body) t
  | .group _ _, _ => false
  | .literal name _, t => t.isSymbol name
  | .terminal name _, t => holds name t

/-- For a list clause that takes all of some items, the clause that took each of them. -/
def captures (holds : String → Tree → Bool) (c : Clause) (items : List Tree) :
    Option (List Clause) :=
  match c with
  | .list body _ =>
    match takeAll holds body items with
    | some (taken, []) => some taken
    | _ => none
  | _ => none

/-! ## Single clauses -/

/-- A clause that is no group takes items that have its shape. -/
theorem take_eq_takeItems (holds : String → Tree → Bool) (c : Clause) (items : List Tree)
    (h : ∀ body q, c ≠ .group body q) :
    c.take holds items = takeItems c c.quantifier (c.fits holds) items := by
  cases c with
  | group body q => exact absurd rfl (h body q)
  | _ => simp only [take, quantifier]; rfl

end TreePasses.Clause
