import ArrayLoops.CommandLine.Help
import ArrayLoops.CommandLine.Outputs
import ArrayLoops.CommandLine.Report
import ArrayLoops.Reporter

/-!
# The command

From arguments and a disk to what is printed, the exit code and the disk afterwards.
-/

namespace ArrayLoops.CommandLine

structure Reply where
  code : Nat := 0
  out : String := ""
  err : String := ""
  deriving DecidableEq, Repr

def UsageError.message : UsageError → String
  | .unknownArgument => "unexpected argument found"
  | .emptyValue => "a value is required but none was supplied"
  | .refusedValue => "invalid value"
  | .repeated => "an argument cannot be used multiple times"
  | .superfluousValue => "unexpected value found"
  | .help => helpText
  | .version => versionText

/-- Help is an answer; wrong arguments are an error. -/
def UsageError.reply : UsageError → Reply
  | .help => { out := helpText }
  | .version => { out := versionText }
  | error => { code := 2, err := "error: " ++ error.message ++ "\n" }

def indented (cause : String) : String :=
  "\n".intercalate ((Text.pieces '\n' cause).map ("    " ++ ·))

def Failure.text (failure : Failure) : String :=
  "Error: " ++ failure.message ++
    (failure.cause?.map fun cause => "\n\nCaused by:\n" ++ indented cause).getD "" ++ "\n"

def Run.reporter (run : Run) (color : Bool) : Reporter :=
  run.files.foldl (fun reporter file => reporter.addSource file.input.display file.source) { color }

def Run.complaintText (run : Run) (color : Bool) : String :=
  if run.diagnostics.isEmpty then ""
  else ((run.reporter color).render run.diagnostics).1 ++ "\n"

/-- What is printed of a run: a report, or the outputs unless they went to the disk. -/
def Run.printed (run : Run) (arguments : Arguments) : String :=
  if arguments.report then run.report.text ++ "\n"
  else if arguments.outFolder.isNone then run.outputText
  else ""

/-- Runs the command. Diagnostics are colored for a terminal only. -/
def command (arguments : List String) (disk : Disk) (toTerminal : Bool) : Reply × Disk :=
  match Arguments.parse arguments with
  | .error error => (error.reply, disk)
  | .ok arguments =>
    match Run.start arguments disk with
    | .error failure => ({ code := 1, err := failure.text }, disk)
    | .ok run =>
      let err := run.complaintText (toTerminal && !arguments.noColor)
      let (written, disk) := match arguments.outFolder with
        | some folder => writeOutputs disk (Path.join disk.here folder) 0 run.files
        | none => (.ok 0, disk)
      match written with
      | .error failure => ({ code := 1, err := err ++ failure.text }, disk)
      | .ok _ =>
        ({ code := if run.hasErrors then 1 else 0, out := run.printed arguments, err }, disk)

end ArrayLoops.CommandLine
