-- Clauses: the shapes that forms of a language may have.

namespace TreePasses

/-- How often a clause may repeat. -/
inductive Quantifier where
  | one
  | zeroOrMore
  | oneOrMore
deriving DecidableEq, Repr

/-- The shape of a form, and how often it may repeat in the list around it. -/
inductive Clause where
  /-- A list whose items match a body. -/
  | list (body : List Clause) (quantifier : Quantifier)
  /-- Neighbouring items of the list around it that match a body; no list of its own. -/
  | group (body : List Clause) (quantifier : Quantifier)
  /-- The symbol of a name. -/
  | literal (name : String) (quantifier : Quantifier)
  /-- Whatever the language lets a name stand for. -/
  | terminal (name : String) (quantifier : Quantifier)
deriving Repr

namespace Quantifier

/-- The sign after a clause. -/
def suffix : Quantifier → List Char
  | .one => []
  | .zeroOrMore => ['*']
  | .oneOrMore => ['+']

end Quantifier

namespace Clause

/-- How often a clause may repeat. -/
def quantifier : Clause → Quantifier
  | .list _ q => q
  | .group _ q => q
  | .literal _ q => q
  | .terminal _ q => q

/-- The same shape, repeated as said. -/
def quantified (q : Quantifier) : Clause → Clause
  | .list body _ => .list body q
  | .group body _ => .group body q
  | .literal name _ => .literal name q
  | .terminal name _ => .terminal name q

/-- The body of a list or group. -/
def body? : Clause → Option (List Clause)
  | .list body _ => some body
  | .group body _ => some body
  | .literal _ _ => none
  | .terminal _ _ => none

/-- Whether a clause stands for a list of its own. -/
def isList : Clause → Bool
  | .list _ _ => true
  | _ => false

mutual

/-- The names of a clause's terminals from left to right, each as often as it stands there. -/
def terminalNames : Clause → List String
  | .list body _ => bodyTerminalNames body
  | .group body _ => bodyTerminalNames body
  | .literal _ _ => []
  | .terminal name _ => [name]

/-- The names of the terminals in a body. -/
def bodyTerminalNames : List Clause → List String
  | [] => []
  | c :: cs => c.terminalNames ++ bodyTerminalNames cs

end

/-! ## Induction and equality -/

mutual

private theorem inductionClause {motive : Clause → Prop}
    (list : ∀ body q, (∀ c ∈ body, motive c) → motive (.list body q))
    (group : ∀ body q, (∀ c ∈ body, motive c) → motive (.group body q))
    (literal : ∀ name q, motive (.literal name q))
    (terminal : ∀ name q, motive (.terminal name q)) : ∀ c, motive c
  | .list body q => list body q (inductionBody list group literal terminal body)
  | .group body q => group body q (inductionBody list group literal terminal body)
  | .literal name q => literal name q
  | .terminal name q => terminal name q

private theorem inductionBody {motive : Clause → Prop}
    (list : ∀ body q, (∀ c ∈ body, motive c) → motive (.list body q))
    (group : ∀ body q, (∀ c ∈ body, motive c) → motive (.group body q))
    (literal : ∀ name q, motive (.literal name q))
    (terminal : ∀ name q, motive (.terminal name q)) : ∀ body : List Clause, ∀ c ∈ body, motive c
  | [], _, h => nomatch h
  | d :: ds, c, h =>
    match List.mem_cons.mp h with
    | .inl e => e ▸ inductionClause list group literal terminal d
    | .inr h => inductionBody list group literal terminal ds c h

end

/-- What holds of literals and terminals, and of a list or group whenever it holds of all
clauses in its body, holds of every clause. -/
@[induction_eliminator]
theorem induction {motive : Clause → Prop}
    (list : ∀ body q, (∀ c ∈ body, motive c) → motive (.list body q))
    (group : ∀ body q, (∀ c ∈ body, motive c) → motive (.group body q))
    (literal : ∀ name q, motive (.literal name q))
    (terminal : ∀ name q, motive (.terminal name q)) (c : Clause) : motive c :=
  inductionClause list group literal terminal c

mutual

private def decideEqClause : (c d : Clause) → Decidable (c = d)
  | .list b p, .list e q =>
    @decidable_of_iff _ (b = e ∧ p = q) (by simp)
      (@instDecidableAnd _ _ (decideEqBody b e) inferInstance)
  | .group b p, .group e q =>
    @decidable_of_iff _ (b = e ∧ p = q) (by simp)
      (@instDecidableAnd _ _ (decideEqBody b e) inferInstance)
  | .literal m p, .literal n q => decidable_of_iff (m = n ∧ p = q) (by simp)
  | .terminal m p, .terminal n q => decidable_of_iff (m = n ∧ p = q) (by simp)
  | .list _ _, .group _ _ => .isFalse nofun
  | .list _ _, .literal _ _ => .isFalse nofun
  | .list _ _, .terminal _ _ => .isFalse nofun
  | .group _ _, .list _ _ => .isFalse nofun
  | .group _ _, .literal _ _ => .isFalse nofun
  | .group _ _, .terminal _ _ => .isFalse nofun
  | .literal _ _, .list _ _ => .isFalse nofun
  | .literal _ _, .group _ _ => .isFalse nofun
  | .literal _ _, .terminal _ _ => .isFalse nofun
  | .terminal _ _, .list _ _ => .isFalse nofun
  | .terminal _ _, .group _ _ => .isFalse nofun
  | .terminal _ _, .literal _ _ => .isFalse nofun

private def decideEqBody : (bs cs : List Clause) → Decidable (bs = cs)
  | [], [] => .isTrue rfl
  | b :: bs, c :: cs =>
    @decidable_of_iff _ (b = c ∧ bs = cs) (by simp)
      (@instDecidableAnd _ _ (decideEqClause b c) (decideEqBody bs cs))
  | [], _ :: _ => .isFalse nofun
  | _ :: _, [] => .isFalse nofun

end

instance : DecidableEq Clause := decideEqClause

end Clause

end TreePasses
