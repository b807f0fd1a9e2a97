-- Small changes to trees, each a function on trees: most act on lists and leave atoms as
-- they are. Passes use them as rules.
import TreePasses.Tree.Basic

namespace TreePasses.Tree

/-- Changes the items of a list and leaves an atom as it is. -/
def mapItems (f : List Tree → List Tree) : Tree → Tree
  | .list items => .list (f items)
  | .atom a => .atom a

/-- Puts an item at the end of a list. -/
def append (item : Tree) : Tree → Tree := mapItems (· ++ [item])

/-- Makes a list of two, with the tree as its second item. -/
def wrap (head : Tree) (t : Tree) : Tree := .list [head, t]

/-- Puts another item in place of the first of a list, if it has one. -/
def replaceHead (head : Tree) : Tree → Tree :=
  mapItems fun
    | [] => []
    | _ :: rest => head :: rest

/-- Turns the order of a list around. -/
def reverse : Tree → Tree := mapItems List.reverse

/-- Drops the last item of a list. -/
def dropLast : Tree → Tree := mapItems List.dropLast

/-- Drops the first item of a list. -/
def dropFirst : Tree → Tree := mapItems List.tail

/-- The last item of a list. An empty list and an atom are left as they are. -/
def last : Tree → Tree
  | .list items => items.getLast?.getD (.list items)
  | .atom a => .atom a

/-- The number of items of a list, in a list after the word for it; minus one for an atom. -/
def width : Tree → Tree
  | .list items => .list [.symbol "width", .atom (.int (Int64.ofInt (Int.ofNat items.length)))]
  | .atom _ => .list [.symbol "width", .atom (.int (-1))]

end TreePasses.Tree
