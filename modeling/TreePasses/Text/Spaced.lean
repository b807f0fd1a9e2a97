-- How a list is set on one line: its words with one space between neighbours.

namespace TreePasses.Text

/-- Words with one space between neighbours. -/
def spaced : List (List Char) → List Char
  | [] => []
  | [word] => word
  | word :: next :: rest => word ++ ' ' :: spaced (next :: rest)

end TreePasses.Text
