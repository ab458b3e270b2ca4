import ArrayLoops.Lowering
import ArrayLoops.Program
import ArrayLoops.Text.Printable

/-!
# Programs before and after lowering

A program is run as it is and again after its calls were lowered, and the two runs are compared: line
by line, and by how they complete.
-/

namespace ArrayLoops

open Lowering (Options Change)

inductive Divergence where
  | log (line : Nat) (before lowered : Option String)
  | ending (before lowered : Ending)
  deriving DecidableEq, Repr

def Ending.escaped : Ending → String
  | .normal result => "Normal(" ++ Text.escaped result ++ ")"
  | .threw value => "Threw(" ++ Text.escaped value ++ ")"

def Divergence.message : Divergence → String
  | .log line before lowered =>
    let shown (text : Option String) := text.getD "<missing>"
    "log line " ++ toString line ++ ": original `" ++ shown before ++ "`, lowered `" ++
      shown lowered ++ "`"
  | .ending before lowered =>
    "completion: original " ++ before.escaped ++ ", lowered " ++ lowered.escaped

def firstDifference (line : Nat) : List String → List String → Option Divergence
  | [], [] => none
  | a :: _, [] => some (.log line (some a) none)
  | [], b :: _ => some (.log line none (some b))
  | a :: as, b :: bs =>
    if a = b then firstDifference (line + 1) as bs else some (.log line (some a) (some b))

def Outcome.divergence (before lowered : Outcome) : Option Divergence :=
  match firstDifference 0 before.log lowered.log with
  | some divergence => some divergence
  | none =>
    if before.ending = lowered.ending then none
    else some (.ending before.ending lowered.ending)

structure Comparison where
  before : Outcome
  lowered : Outcome
  loweredSource : String
  changes : List Change

namespace Comparison

def divergence (comparison : Comparison) : Option Divergence :=
  comparison.before.divergence comparison.lowered

def isEquivalent (comparison : Comparison) : Bool := comparison.divergence.isNone

end Comparison

inductive ComparisonError where
  | lowering (error : LowerError)
  | before (error : RunError)
  | lowered (error : RunError)

def ComparisonError.message : ComparisonError → String
  | .lowering error => error.message
  | .before error => "original program: " ++ error.message
  | .lowered error => "lowered program: " ++ error.message

def compare (source : String) (options : Options) : Except ComparisonError Comparison := do
  let before ← (runSource source).mapError .before
  let file ← (lower programName source options).mapError .lowering
  let lowered ← (runSource file.output).mapError .lowered
  return { before, lowered, loweredSource := file.output, changes := file.changes }

end ArrayLoops
