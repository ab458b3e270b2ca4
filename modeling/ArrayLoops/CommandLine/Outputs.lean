import ArrayLoops.CommandLine.Run

/-!
# Outputs

The lowered files, on the disk or one after the other in a text.
-/

namespace ArrayLoops.CommandLine

def writeOutput (disk : Disk) (folder : String) (input : Input) (output : String) :
    Except Failure Disk := do
  let path := Path.join folder input.relative
  let parent := Path.parent path
  let disk ← (disk.makeFolder parent).mapError (.folderNotMade parent)
  (disk.write path output).mapError (.fileNotWritten path)

/-- Writes the lowered files below a folder, one after the other, until one cannot be written. The
number of those written comes with the disk, which keeps them in any case. -/
def writeOutputs (disk : Disk) (folder : String) (written : Nat) :
    List FileResult → Except Failure Nat × Disk
  | [] => (.ok written, disk)
  | file :: rest =>
    match file.outcome with
    | .error _ => writeOutputs disk folder written rest
    | .ok lowered =>
      match writeOutput disk folder file.input lowered.output with
      | .error failure => (.error failure, disk)
      | .ok disk => writeOutputs disk folder (written + 1) rest

def endLine (text : String) : String :=
  if text.toList.getLast? == some '\n' then text else text ++ "\n"

/-- The lowered files in one text, under their paths if there were several files. -/
def Run.outputText (run : Run) : String :=
  let heading (file : FileResult) :=
    if run.files.length > 1 then "// " ++ file.input.display ++ "\n" else ""
  String.join (run.files.map fun file =>
    match file.outcome with
    | .ok lowered => heading file ++ endLine lowered.output
    | .error _ => "")

end ArrayLoops.CommandLine
