import ArrayLoops.Grammar
import ArrayLoops.Layout.Tree
import ArrayLoops.Lowering.Pass

/-!
# Lowering a file

From source text to source text: the file is parsed, its calls are lowered and the result is printed.
-/

namespace ArrayLoops

open Lowering (LoweringError Options Change)

inductive LowerError where
  | grammar (file : String) (complaints : List Complaint)
  | lowering (error : LoweringError)

def LowerError.message : LowerError → String
  | .grammar file complaints =>
    file ++ ": " ++ toString complaints.length ++ " syntax error(s); file not lowered"
  | .lowering error => error.message

structure LoweredFile where
  output : String
  changes : List Change

/-- Lowers the calls of a program. A program with complaints is not lowered. -/
def lower (file source : String) (options : Options) : Except LowerError LoweredFile :=
  let parsed := parse file source
  if !parsed.complaints.isEmpty then .error (.grammar file parsed.complaints)
  else
    match Lowering.runPass parsed.arena options parsed.root with
    | .error error => .error (.lowering error)
    | .ok result =>
      .ok { output := Layout.print parsed.arena result.directives parsed.root
            changes := result.changes }

end ArrayLoops
