-- Passes, each from one language to the next, and pipelines of them over a base language.
import TreePasses.Language.Editing
import TreePasses.Pass.Transform
import TreePasses.Tree.Printer

namespace TreePasses

/-- Why a pipeline cannot process a tree. -/
inductive RunError where
  /-- The tree that a pass is given is not in its source language. -/
  | inputMismatch (pass : String) (tree : Tree)
  /-- The tree that the last pass gives is not in its target language. -/
  | outputMismatch (pass : String) (tree : Tree)
deriving DecidableEq, Repr

namespace RunError

/-- What is wrong, in words. -/
def message : RunError → String
  | .inputMismatch pass tree =>
    "pass " ++ GrammarError.marked pass ++ ": tree does not belong to this pass's grammar: "
      ++ tree.text
  | .outputMismatch pass tree =>
    "pass " ++ GrammarError.marked pass ++ ": output does not belong to the final grammar: "
      ++ tree.text

end RunError

/-- A step from a source language to a target language. -/
structure Pass where
  name : String
  source : Language
  target : Language
  rules : RuleTable

namespace Pass

/-- Takes a tree of the source language to what the rules make of it. -/
def run (p : Pass) (t : Tree) : Except RunError Tree :=
  match p.source.entryOf? t with
  | some e => .ok (p.source.transformForm p.rules e t)
  | none => .error (.inputMismatch p.name t)

end Pass

/-! ## Definitions -/

/-- A pass in terms of its source language: which clauses come and go on the way to the
target language, and what becomes of the forms of a clause. All by pattern. -/
structure PassDefinition where
  name : String
  /-- The clauses that come, each with whether its forms keep their parts as they are. -/
  additions : List (String × Bool)
  removals : List String
  rules : List (String × Rule)

namespace PassDefinition

/-- A pass that changes nothing. -/
def empty (name : String) : PassDefinition := ⟨name, [], [], []⟩

/-- A clause that comes. -/
def add (d : PassDefinition) (pattern : String) : PassDefinition :=
  { d with additions := d.additions ++ [(pattern, false)] }

/-- A clause that comes and whose forms keep their parts as they are. -/
def addVerbatim (d : PassDefinition) (pattern : String) : PassDefinition :=
  { d with additions := d.additions ++ [(pattern, true)] }

/-- A clause that goes. -/
def remove (d : PassDefinition) (pattern : String) : PassDefinition :=
  { d with removals := d.removals ++ [pattern] }

/-- What becomes of the forms of a clause. -/
def rule (d : PassDefinition) (pattern : String) (rule : Rule) : PassDefinition :=
  { d with rules := d.rules ++ [(pattern, rule)] }

/-- Sets one more rule. No clause may have two. -/
def insertRule (d : PassDefinition) (source : Language) (table : RuleTable)
    (row : String × Rule) : Except GrammarError RuleTable := do
  let entry ← source.entryFor row.1
  if table.contains entry.id then .error (.duplicateRule d.name entry.signature)
  else .ok (table.insert entry.id row.2)

/-- All rules, by the ids of the source language. -/
def table (d : PassDefinition) (source : Language) : Except GrammarError RuleTable :=
  d.rules.foldlM (d.insertRule source) .empty

/-- The target language: the source language without the clauses that go, and with those that
come before all others, in the order given. -/
def target (d : PassDefinition) (source : Language) : Build Language := do
  let kept ← Build.ofExcept <|
    d.removals.foldlM (fun l pattern => (·.2) <$> l.erase pattern) (source.renamed d.name)
  d.additions.reverse.foldlM (fun l row => (·.2) <$> l.prepend row.1 row.2) kept

/-- The pass that starts from a language. -/
def pass (d : PassDefinition) (source : Language) : Build Pass := do
  let rules ← Build.ofExcept (d.table source)
  return { name := d.name, source, target := ← d.target source, rules }

end PassDefinition

/-! ## Pipelines -/

/-- Passes one after the other, the first one from a base language. -/
structure Pipeline where
  base : Language
  passes : List Pass

namespace Pipeline

/-- A pipeline without passes. -/
def empty (base : Language) : Pipeline := ⟨base, []⟩

/-- The language that the last pass leads to. -/
def current (p : Pipeline) : Language := (p.passes.getLast?.map (·.target)).getD p.base

/-- Adds a pass that starts from the current language. -/
def add (p : Pipeline) (d : PassDefinition) : Build Pipeline := do
  let pass ← d.pass p.current
  return { p with passes := p.passes ++ [pass] }

/-- Whether a tree may come out: it has to be in the target language of the last pass. -/
def checkOutput (p : Pipeline) (t : Tree) : Except RunError Tree :=
  match p.passes.getLast? with
  | some last => if last.target.accepts t then .ok t else .error (.outputMismatch last.name t)
  | none => .ok t

/-- Runs all passes in turn. -/
def run (p : Pipeline) (t : Tree) : Except RunError Tree := do
  p.checkOutput (← p.passes.foldlM (fun t pass => pass.run t) t)

end Pipeline

end TreePasses
