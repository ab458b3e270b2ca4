import ArrayLoops.Disk
import ArrayLoops.Glob
import ArrayLoops.Json.Problem

/-!
# Failures of the command
-/

namespace ArrayLoops.CommandLine

/-- Why the command gives up. Files that are not lowered are no reason: they are reported. -/
inductive Failure where
  | configMissing (path : String)
  | configUnreadable (path : String) (problem : FileProblem)
  | configMalformed (path : String) (problem : Json.Problem)
  | badPattern (pattern : String) (problem : Glob.Problem)
  | noSuchPath (path : String)
  | noInputs
  | folderNotMade (path : String) (problem : FileProblem)
  | fileNotWritten (path : String) (problem : FileProblem)
  deriving DecidableEq, Repr

namespace Failure

def message : Failure → String
  | .configMissing path => "config file not found at " ++ path
  | .configUnreadable path _ => "failed to read config: " ++ path
  | .configMalformed path _ => "failed to parse config: " ++ path
  | .badPattern pattern _ => "invalid --exclude pattern `" ++ pattern ++ "`"
  | .noSuchPath path => "no such file or directory: " ++ path
  | .noInputs => "no .js files found"
  | .folderNotMade path _ => "failed to create " ++ path
  | .fileNotWritten path _ => "failed to write " ++ path

def cause? : Failure → Option String
  | .configUnreadable _ problem | .folderNotMade _ problem | .fileNotWritten _ problem =>
    some problem.message
  | .badPattern pattern problem =>
    some ("error parsing glob '" ++ pattern ++ "': " ++ problem.message)
  | .configMalformed _ problem => some problem.message
  | .configMissing _ | .noSuchPath _ | .noInputs => none

end Failure

end ArrayLoops.CommandLine
