import ArrayLoops.CommandLine.Inputs
import ArrayLoops.CommandLine.Settings
import ArrayLoops.Diagnostic
import ArrayLoops.Lowering

/-!
# A run over files

Every input is read and lowered on its own. What is wrong with a file is kept with it and stops no
other file.
-/

namespace ArrayLoops.CommandLine

open Lowering (Options)

structure FileResult where
  input : Input
  source : String
  outcome : Except (List Diagnostic) LoweredFile

def FileResult.changeCount (file : FileResult) : Nat :=
  match file.outcome with
  | .ok lowered => lowered.changes.length
  | .error _ => 0

def FileResult.isLowered (file : FileResult) : Bool :=
  match file.outcome with
  | .ok _ => true
  | .error _ => false

def unreadableCode : Nat := 5001

def notLoweredCode : Nat := 5003

def errorDiagnostics (file : String) : LowerError → List Diagnostic
  | .grammar _ complaints => complaints.map fun complaint =>
    { file, start := complaint.start, length := complaint.length,
      message := complaint.fault.message, code := complaint.fault.code }
  | .lowering error =>
    [{ file, start := 0, length := 0, message := error.message, code := notLoweredCode }]

def lowerInput (disk : Disk) (options : Options) (input : Input) : FileResult :=
  let file := input.display
  match disk.read input.path with
  | .error problem =>
    let message := "Cannot read file: " ++ problem.message
    { input, source := ""
      outcome := .error [{ file, start := 0, length := 0, message, code := unreadableCode }] }
  | .ok source =>
    { input, source, outcome := (lower file source options).mapError (errorDiagnostics file) }

structure Run where
  options : Options
  files : List FileResult

namespace Run

def diagnostics (run : Run) : List Diagnostic :=
  run.files.flatMap fun file =>
    match file.outcome with
    | .ok _ => []
    | .error diagnostics => diagnostics

def hasErrors (run : Run) : Bool := run.files.any fun file => !file.isLowered

def start (arguments : Arguments) (disk : Disk) : Except Failure Run := do
  let options ← resolveOptions arguments disk
  let exclude ← excludePatterns arguments.exclude
  let inputs ← collectInputs disk exclude arguments.paths
  if inputs.isEmpty then throw .noInputs
  return { options, files := inputs.map (lowerInput disk options) }

end Run

end ArrayLoops.CommandLine
