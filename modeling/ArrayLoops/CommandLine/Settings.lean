import ArrayLoops.CommandLine.Arguments
import ArrayLoops.CommandLine.Failure
import ArrayLoops.Lowering.OptionsText

/-!
# Options from a file and from the arguments

Options stand in a file; arguments take precedence over it.
-/

namespace ArrayLoops.CommandLine

open Lowering (Operation Options)

def configName : String := "loopdown.json"

/-- The file with the options: the one that the arguments name, or the one in the working folder, if
it is there. -/
def configPath (disk : Disk) (config : Option String) : Except Failure (Option String) :=
  match config with
  | none =>
    let path := Path.join disk.here configName
    .ok (if disk.isFile path then some path else none)
  | some config =>
    let path := Path.join disk.here config
    let path := if disk.isFolder path then Path.join path configName else path
    if disk.isFile path then .ok (some path) else .error (.configMissing path)

def readConfig (disk : Disk) (path : String) : Except Failure Options := do
  let text ← (disk.read path).mapError (.configUnreadable path)
  (Options.ofText text).mapError (.configMalformed path)

/-- The options that a run goes by. Operations named as arguments count once and in their fixed
order. -/
def resolveOptions (arguments : Arguments) (disk : Disk) : Except Failure Options := do
  let options ← match ← configPath disk arguments.config with
    | some path => readConfig disk path
    | none => pure {}
  let operations := match arguments.only with
    | some only => Operation.all.filter only.contains
    | none => options.operations
  return { operations, thisArg := arguments.thisArg.getD options.thisArg }

end ArrayLoops.CommandLine
