-- The four languages that a program passes through on its way out of the surface language, and
-- the three passes between them, written out. The compiler builds exactly these, whatever ids
-- were spent before.
import TreePasses.Surface.Compiler
import TreePasses.Proofs.Building

namespace TreePasses.Surface

/-! ## The clauses -/

/-- A list that starts with a keyword. -/
def headed (keyword : String) (body : List Clause) : Clause :=
  .list (.literal keyword .one :: body) .one

/-- One form. -/
def oneForm : Clause := .terminal "ε" .one

/-- One form or more. -/
def someForms : Clause := .terminal "ε" .oneOrMore

/-- Names, each with a form after it. -/
def bindings : Clause := .list [.group [.terminal "s" .one, .terminal "ε" .one] .oneOrMore] .one

/-- Names only. -/
def parameters : Clause := .list [.group [.terminal "s" .zeroOrMore] .one] .one

def primitiveName : Clause := .terminal "pr" .one
def symbolName : Clause := .terminal "s" .one
def constantAtom : Clause := .terminal "c" .one
def quotation : Clause := headed "quote" [.terminal "d" .one]
def ifThen : Clause := headed "if" [oneForm, oneForm]
def ifElse : Clause := headed "if" [oneForm, oneForm, oneForm]
def orForm : Clause := headed "or" [oneForm, someForms]
def andForm : Clause := headed "and" [oneForm, someForms]
def notForm : Clause := headed "not" [oneForm]
def doForm : Clause := headed "do" [someForms]
def letForm : Clause := headed "let" [bindings, someForms]
def letOne : Clause := headed "let" [bindings, oneForm]
def fnForm : Clause := headed "fn" [parameters, someForms]
def fnOne : Clause := headed "fn" [parameters, oneForm]
def application : Clause := .list [someForms] .one
def symbols : Clause := .list [.terminal "s" .oneOrMore] .one

/-! ## The languages -/

/-- The languages from the surface language on, each by what is gone from it. -/
inductive Stage where
  | surface
  /-- No `if` without an else. -/
  | twoArmed
  /-- Besides, no `let` with more than one form in its body. -/
  | singleLet
  /-- Besides, no function with more than one form in its body. -/
  | singleFn
deriving DecidableEq, Repr

/-- The entry made after `index` others, if `spent` ids were spent before. -/
def entry (spent index : Nat) (clause : Clause) (verbatim : Bool) : Entry :=
  ⟨⟨(spent + index).toUInt32⟩, clause, verbatim⟩

namespace Stage

def name : Stage → String
  | .surface => "L0"
  | .twoArmed => "remove-one-armed-if"
  | .singleLet => "explicit-do-in-let"
  | .singleFn => "explicit-do-in-fn"

/-- The entries of a language, if `n` ids were spent before. -/
def entries (n : Nat) : Stage → List Entry
  | .surface =>
    [entry n 0 primitiveName false, entry n 1 symbolName false, entry n 2 constantAtom false,
      entry n 3 quotation true, entry n 4 ifThen false, entry n 5 ifElse false,
      entry n 6 orForm false, entry n 7 andForm false, entry n 8 notForm false,
      entry n 9 doForm false, entry n 10 letForm false, entry n 11 fnForm false,
      entry n 12 application false, entry n 13 symbols false]
  | .twoArmed =>
    [entry n 0 primitiveName false, entry n 1 symbolName false, entry n 2 constantAtom false,
      entry n 3 quotation true, entry n 5 ifElse false, entry n 6 orForm false,
      entry n 7 andForm false, entry n 8 notForm false, entry n 9 doForm false,
      entry n 10 letForm false, entry n 11 fnForm false, entry n 12 application false,
      entry n 13 symbols false]
  | .singleLet =>
    [entry n 14 letOne false, entry n 0 primitiveName false, entry n 1 symbolName false,
      entry n 2 constantAtom false, entry n 3 quotation true, entry n 5 ifElse false,
      entry n 6 orForm false, entry n 7 andForm false, entry n 8 notForm false,
      entry n 9 doForm false, entry n 11 fnForm false, entry n 12 application false,
      entry n 13 symbols false]
  | .singleFn =>
    [entry n 15 fnOne false, entry n 14 letOne false, entry n 0 primitiveName false,
      entry n 1 symbolName false, entry n 2 constantAtom false, entry n 3 quotation true,
      entry n 5 ifElse false, entry n 6 orForm false, entry n 7 andForm false,
      entry n 8 notForm false, entry n 9 doForm false, entry n 12 application false,
      entry n 13 symbols false]

/-- The language of a stage, if `n` ids were spent before. -/
def language (n : Nat) (g : Stage) : Language := ⟨g.name, g.entries n, terminals.reverse⟩

end Stage

/-! ## The passes -/

/-- The passes, each by the forms that it rewrites. -/
inductive Step where
  | ifs
  | lets
  | fns
deriving DecidableEq, Repr

namespace Step

def source : Step → Stage
  | .ifs => .surface
  | .lets => .twoArmed
  | .fns => .singleLet

def target : Step → Stage
  | .ifs => .twoArmed
  | .lets => .singleLet
  | .fns => .singleFn

/-- Which of the entries, by the order in which they are made, has the rule. -/
def ruled : Step → Nat
  | .ifs => 4
  | .lets => 10
  | .fns => 11

def rule : Step → Rule
  | .ifs => Tree.append (.symbol "nil")
  | .lets => groupBody
  | .fns => groupBody

/-- The pass of a step, if `n` ids were spent before. -/
def pass (n : Nat) (k : Step) : Pass where
  name := k.target.name
  source := k.source.language n
  target := k.target.language n
  rules := ⟨[(⟨(n + k.ruled).toUInt32⟩, k.rule)]⟩

end Step

/-- Entries are the same but for where their ids start. -/
theorem entries_eq_map (n : Nat) (g : Stage) : g.entries n =
    (g.entries 0).map fun e => entry n e.id.index.toNat e.clause e.verbatim := by
  cases g <;> rfl

/-- No two of the sixteen entries share an id, even if ids start over between them. -/
theorem eq_of_id_eq {n i j : Nat} (hi : i < 16) (hj : j < 16)
    (h : (n + i).toUInt32 = (n + j).toUInt32) : i = j := by
  have hnat := congrArg UInt32.toNat h
  simp only [UInt32.toNat_ofNat', Nat.toUInt32] at hnat
  omega

/-- A pass has a rule for one entry, and for no other. -/
theorem get?_entry {n i : Nat} {k : Step} (hi : i < 16) {c : Clause} {verbatim : Bool} :
    (k.pass n).rules.get? (entry n i c verbatim).id =
      if i = k.ruled then some k.rule else none := by
  have hk : k.ruled < 16 := by cases k <;> decide
  unfold RuleTable.get? entry Step.pass
  by_cases h : i = k.ruled
  · simp [h]
  · have hid : (⟨(n + i).toUInt32⟩ : ClauseId) ≠ ⟨(n + k.ruled).toUInt32⟩ := by
      intro he
      injection he with he
      exact h (eq_of_id_eq hi hk he)
    simp only [List.lookup_cons, List.lookup_nil, beq_eq_false_iff_ne.mpr hid, h, if_false]

/-- The compiler, if `n` ids were spent before. -/
def pipeline (n : Nat) : Pipeline :=
  ⟨Stage.surface.language n, [Step.ifs.pass n, Step.lets.pass n, Step.fns.pass n]⟩

/-! ## What is built -/

theorem language_run (s : Supply) :
    language.run.run s = (.ok (Stage.surface.language s.created), ⟨s.created + 14⟩) := by
  have hread : List.Forall₂ (fun row c => Language.clauseOf row.1 = .ok c) clauses
      [primitiveName, symbolName, constantAtom, quotation, ifThen, ifElse, orForm, andForm,
        notForm, doForm, letForm, fnForm, application, symbols] := by
    unfold clauses
    repeat' constructor
  unfold language
  rw [Language.append_all_run hread _ (by decide)]
  rfl

theorem ifPass_run (n : Nat) (s : Supply) :
    (ifPass.pass (Stage.surface.language n)).run.run s = (.ok (Step.ifs.pass n), s) :=
  PassDefinition.pass_run_of_removal (Stage.surface.language n) ((Stage.surface.entries n).take 4)
    (entry n 4 ifThen false) ((Stage.surface.entries n).drop 5) rfl rfl rfl rfl rfl rfl s

theorem letPass_run (n : Nat) :
    (letPass.pass (Stage.twoArmed.language n)).run.run ⟨n + 14⟩ =
      (.ok (Step.lets.pass n), ⟨n + 15⟩) :=
  PassDefinition.pass_run_of_exchange (Stage.twoArmed.language n)
    ((Stage.twoArmed.entries n).take 9) (entry n 10 letForm false)
    ((Stage.twoArmed.entries n).drop 10) letOne rfl rfl rfl rfl rfl rfl rfl rfl _

theorem fnPass_run (n : Nat) :
    (fnPass.pass (Stage.singleLet.language n)).run.run ⟨n + 15⟩ =
      (.ok (Step.fns.pass n), ⟨n + 16⟩) :=
  PassDefinition.pass_run_of_exchange (Stage.singleLet.language n)
    ((Stage.singleLet.entries n).take 10) (entry n 11 fnForm false)
    ((Stage.singleLet.entries n).drop 11) fnOne rfl rfl rfl rfl rfl rfl rfl rfl _

/-- The compiler is always built, and always the same but for its ids. -/
theorem compiler_run (s : Supply) :
    compiler.run.run s = (.ok (pipeline s.created), ⟨s.created + 16⟩) := by
  have hifs : ((Pipeline.empty (Stage.surface.language s.created)).add ifPass).run.run
      ⟨s.created + 14⟩ = (.ok ⟨Stage.surface.language s.created, [Step.ifs.pass s.created]⟩,
        ⟨s.created + 14⟩) := Pipeline.add_run (ifPass_run s.created _)
  have hlets : (Pipeline.add ⟨Stage.surface.language s.created, [Step.ifs.pass s.created]⟩
      letPass).run.run ⟨s.created + 14⟩ = (.ok ⟨Stage.surface.language s.created,
        [Step.ifs.pass s.created, Step.lets.pass s.created]⟩, ⟨s.created + 15⟩) :=
    Pipeline.add_run (letPass_run s.created)
  have hfns : (Pipeline.add ⟨Stage.surface.language s.created,
      [Step.ifs.pass s.created, Step.lets.pass s.created]⟩ fnPass).run.run ⟨s.created + 15⟩ =
      (.ok (pipeline s.created), ⟨s.created + 16⟩) := Pipeline.add_run (fnPass_run s.created)
  unfold compiler passes
  rw [Build.run_bind_of_ok (language_run s), List.foldlM_cons, Build.run_bind_of_ok hifs,
    List.foldlM_cons, Build.run_bind_of_ok hlets, List.foldlM_cons, Build.run_bind_of_ok hfns,
    List.foldlM_nil]
  rfl

end TreePasses.Surface
