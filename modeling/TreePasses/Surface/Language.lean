-- The surface language: what programs are written in. Its clauses are tried in this order.
import TreePasses.Language.Editing

namespace TreePasses.Surface

/-- The name of the surface language. -/
def name : String := "L0"

/-- The terminals of the surface language and of all languages derived from it. -/
def terminals : List (String × Terminal) :=
  [("s", .symbol), ("pr", .primitive), ("c", .constant), ("d", .datum)]

/-- The clauses, each with whether its forms keep their parts as they are. Only a quoted datum
does. -/
def clauses : List (String × Bool) :=
  [("pr", false),
    ("s", false),
    ("c", false),
    ("('quote d)", true),
    ("('if ε ε)", false),
    ("('if ε ε ε)", false),
    ("('or ε ε+)", false),
    ("('and ε ε+)", false),
    ("('not ε)", false),
    ("('do ε+)", false),
    ("('let ([s ε]+) ε+)", false),
    ("('fn ([s*]) ε+)", false),
    ("(ε+)", false),
    ("(s+)", false)]

/-- The surface language. -/
def language : Build Language :=
  clauses.foldlM (fun l row => l.append row.1 row.2)
    (terminals.foldl (fun l row => l.register row.1 row.2) (Language.empty name))

end TreePasses.Surface
