import ArrayLoops.CommandLine.Command

/-!
# The program

Takes a picture of the part of the disk that the arguments are about, runs the command on it, prints
its reply and carries out its changes.
-/

namespace ArrayLoops.Main

open CommandLine (Arguments)

/-- The steps of an absolute path, with each step upwards taken. -/
def placeOf (path : String) : Place :=
  (Path.steps path).foldl (fun place step =>
    if step == ".." then place.dropLast else place ++ [step]) []

def readContents (path : String) : IO Contents := do
  let bytes ← IO.FS.readBinFile path
  return match String.fromUTF8? bytes with
    | some text => .text text
    | none => .binary

/-- Adds what stands at and below an absolute path. Of what is found in folders only scripts are
read: nothing asks for the text of other files. -/
partial def addBelow (disk : Disk) (path : String) (isNamed : Bool) : IO Disk := do
  let item := (← IO.currentDir) / path
  if ← item.isDir then
    let entries ← item.readDir
    entries.foldlM (fun disk entry => addBelow disk (Path.join path entry.fileName) false)
      (disk.put (placeOf path) .folder)
  else if ← item.pathExists then
    let contents ←
      if isNamed || Path.isScript (Path.fileName path) then readContents path else pure .binary
    return disk.put (placeOf path) (.file contents)
  else return disk

def addNamed (disk : Disk) (path : String) : IO Disk := do
  let mut disk := disk
  let mut passed := "/"
  for step in Path.steps path do
    passed := Path.join passed step
    if ← ((← IO.currentDir) / passed).isDir then
      disk := disk.put (placeOf passed) .folder
  addBelow disk path true

/-- The paths that a run can ask about. -/
def namedPaths (arguments : Arguments) : List String :=
  let configs := match arguments.config with
    | some config => [config, Path.join config CommandLine.configName]
    | none => [CommandLine.configName]
  (if arguments.paths.isEmpty then ["."] else arguments.paths) ++ configs ++
    arguments.outFolder.toList

def picture (arguments : Arguments) : IO Disk := do
  let here := (← IO.currentDir).toString
  (namedPaths arguments).foldlM (fun disk path => addNamed disk (Path.join here path)) { here }

/-- Makes the folders and writes the files that `after` has and `before` has not. -/
def carryOut (before after : Disk) : IO Unit :=
  for (place, item) in after.entries.reverse do
    unless before.entries.contains (place, item) do
      let path := "/" ++ Path.ofNames place
      match item with
      | .folder => IO.FS.createDirAll path
      | .file (.text text) => IO.FS.writeFile path text
      | .file .binary => pure ()

end ArrayLoops.Main

open ArrayLoops in
def main (arguments : List String) : IO UInt32 := do
  let disk ← match CommandLine.Arguments.parse arguments with
    | .ok parsed => Main.picture parsed
    | .error _ => pure { here := "/" }
  let stdout ← IO.getStdout
  let stderr ← IO.getStderr
  let (reply, after) := CommandLine.command arguments disk (← stderr.isTty)
  stderr.putStr reply.err
  Main.carryOut disk after
  stdout.putStr reply.out
  stdout.flush
  return reply.code.toUInt32
