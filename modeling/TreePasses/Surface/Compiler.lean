-- The compiler from the surface language: passes that leave fewer kinds of form, each
-- written with those that remain.
import TreePasses.Pass.Pipeline
import TreePasses.Surface.Language
import TreePasses.Tree.Edit

namespace TreePasses.Surface

/-- Makes one form of the body of a form, which starts with its third item. A body of one form
is left alone. -/
def groupBody : Tree → Tree :=
  Tree.mapItems fun
    | head :: bindings :: first :: second :: rest =>
      [head, bindings, .list (.symbol "do" :: first :: second :: rest)]
    | items => items

/-- An `if` without an else gets one. -/
def ifPass : PassDefinition :=
  PassDefinition.empty "remove-one-armed-if"
    |>.remove "('if ε ε)"
    |>.rule "('if ε ε)" (Tree.append (.symbol "nil"))

/-- The body of a `let` becomes one form. -/
def letPass : PassDefinition :=
  PassDefinition.empty "explicit-do-in-let"
    |>.add "('let ([s ε]+) ε)"
    |>.remove "('let ([s ε]+) ε+)"
    |>.rule "('let ([s ε]+) ε+)" groupBody

/-- The body of a function becomes one form. -/
def fnPass : PassDefinition :=
  PassDefinition.empty "explicit-do-in-fn"
    |>.add "('fn ([s*]) ε)"
    |>.remove "('fn ([s*]) ε+)"
    |>.rule "('fn ([s*]) ε+)" groupBody

/-- The passes in the order in which they run. -/
def passes : List PassDefinition := [ifPass, letPass, fnPass]

/-- The compiler, as a pipeline over the surface language. -/
def compiler : Build Pipeline := do
  passes.foldlM Pipeline.add (.empty (← language))

end TreePasses.Surface
