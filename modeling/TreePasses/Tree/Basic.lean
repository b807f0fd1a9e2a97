-- Trees: atoms, and lists of trees. They are both the programs that a compiler works on and
-- the data that such programs quote.
import TreePasses.Decimal.Binary64

namespace TreePasses

/-- What has no parts: a symbol, a number (whole or floating), a text, or a truth value. -/
inductive Atom where
  | symbol (name : String)
  | int (value : Int64)
  | float (value : Decimal.Binary64)
  | string (text : String)
  | bool (value : Bool)
deriving DecidableEq, Repr

/-- An atom, or a list of trees. -/
inductive Tree where
  | atom (value : Atom)
  | list (items : List Tree)
deriving Repr

namespace Atom

/-- Whether an atom stands for itself: any but a symbol does. -/
def isConstant : Atom → Bool
  | .symbol _ => false
  | _ => true

/-- Equality as numbers where both are floating, and plain equality otherwise. A whole number
never equals a floating one. -/
def same : Atom → Atom → Bool
  | .float x, .float y => x.same y
  | a, b => a = b

end Atom

namespace Tree

/-- The tree of one symbol. -/
@[match_pattern]
abbrev symbol (name : String) : Tree := .atom (.symbol name)

/-- The name of a tree that is a symbol. -/
def symbol? : Tree → Option String
  | .symbol name => some name
  | _ => none

/-- The items of a tree that is a list. -/
def items? : Tree → Option (List Tree)
  | .list items => some items
  | .atom _ => none

/-- Whether a tree is the symbol of a name. -/
def isSymbol (name : String) (t : Tree) : Bool := t.symbol? = some name

/-- Whether a tree is an atom that stands for itself. -/
def isConstant : Tree → Bool
  | .atom a => a.isConstant
  | .list _ => false

/-- What kind of tree it is, in one word. -/
def kind : Tree → String
  | .atom (.symbol _) => "symbol"
  | .atom (.int _) => "number"
  | .atom (.float _) => "number"
  | .atom (.string _) => "string"
  | .atom (.bool _) => "boolean"
  | .list _ => "list"

/-! ## Induction and height -/

mutual

private theorem inductionTree {motive : Tree → Prop} (atom : ∀ a, motive (.atom a))
    (list : ∀ items, (∀ t ∈ items, motive t) → motive (.list items)) : ∀ t, motive t
  | .atom a => atom a
  | .list items => list items (inductionItems atom list items)

private theorem inductionItems {motive : Tree → Prop} (atom : ∀ a, motive (.atom a))
    (list : ∀ items, (∀ t ∈ items, motive t) → motive (.list items)) :
    ∀ items : List Tree, ∀ t ∈ items, motive t
  | [], _, h => nomatch h
  | u :: us, t, h =>
    match List.mem_cons.mp h with
    | .inl e => e ▸ inductionTree atom list u
    | .inr h => inductionItems atom list us t h

end

/-- What holds of every atom, and of a list whenever it holds of its items, holds of every
tree. -/
@[induction_eliminator]
theorem induction {motive : Tree → Prop} (atom : ∀ a, motive (.atom a))
    (list : ∀ items, (∀ t ∈ items, motive t) → motive (.list items)) (t : Tree) : motive t :=
  inductionTree atom list t

mutual

/-- How many lists deep a tree goes, counting the tree itself. -/
def height : Tree → Nat
  | .atom _ => 1
  | .list items => heights items + 1

/-- The greatest height among trees. -/
def heights : List Tree → Nat
  | [] => 0
  | t :: ts => Nat.max t.height (heights ts)

end

theorem height_pos (t : Tree) : 0 < t.height := by
  cases t <;> simp [height]

theorem height_le_heights {t : Tree} {ts : List Tree} (h : t ∈ ts) : t.height ≤ heights ts := by
  induction ts with
  | nil => cases h
  | cons u us ih =>
    rcases List.mem_cons.mp h with rfl | h
    · exact Nat.le_max_left ..
    · exact Nat.le_trans (ih h) (Nat.le_max_right ..)

/-- An item is lower than its list. -/
theorem height_lt_of_mem {t : Tree} {items : List Tree} (h : t ∈ items) :
    t.height < (Tree.list items).height :=
  Nat.lt_succ_of_le (height_le_heights h)

/-! ## Equality -/

mutual

/-- Equality of trees, item by item, with floating numbers compared as numbers. -/
def same : Tree → Tree → Bool
  | .atom a, .atom b => a.same b
  | .list items, .list others => sameItems items others
  | _, _ => false

/-- Equality of lists of trees in the same sense. -/
def sameItems : List Tree → List Tree → Bool
  | [], [] => true
  | t :: ts, u :: us => t.same u && sameItems ts us
  | _, _ => false

end

mutual

private def decideEq : (t u : Tree) → Decidable (t = u)
  | .atom a, .atom b => decidable_of_iff (a = b) (by simp)
  | .list ts, .list us => @decidable_of_iff _ (ts = us) (by simp) (decideEqItems ts us)
  | .atom _, .list _ => .isFalse nofun
  | .list _, .atom _ => .isFalse nofun

private def decideEqItems : (ts us : List Tree) → Decidable (ts = us)
  | [], [] => .isTrue rfl
  | t :: ts, u :: us =>
    @decidable_of_iff _ (t = u ∧ ts = us) (by simp)
      (@instDecidableAnd _ _ (decideEq t u) (decideEqItems ts us))
  | [], _ :: _ => .isFalse nofun
  | _ :: _, [] => .isFalse nofun

end

instance : DecidableEq Tree := decideEq

end Tree

end TreePasses
