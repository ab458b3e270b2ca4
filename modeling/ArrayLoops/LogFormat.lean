import ArrayLoops.Text.Chars
import ArrayLoops.Text.Lowercase

/-!
# Log formats
-/

namespace ArrayLoops

inductive LogFormat where
  | text | tree | json
  deriving DecidableEq, Repr

/-- The format of that name, whatever its case and the blanks around it. Any other name means plain
text. -/
def LogFormat.ofName (name : String) : LogFormat :=
  match Text.lowercase (Text.trim name) with
  | "tree" => .tree
  | "json" => .json
  | _ => .text

def LogFormat.title : LogFormat → String
  | .text => "Text"
  | .tree => "Tree"
  | .json => "Json"

end ArrayLoops
