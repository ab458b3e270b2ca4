import ArrayLoops.CommandLine.Failure

/-!
# Inputs

The files that the paths of the command stand for: a file itself, and the scripts of a folder that no
pattern excludes. A file that is reached twice counts once.
-/

namespace ArrayLoops.CommandLine

structure Input where
  path : String
  display : String
  /-- The path below the folder for the outputs. -/
  relative : String
  deriving DecidableEq, Repr

def excludePatterns (patterns : List String) : Except Failure (List Glob.Pattern) :=
  patterns.mapM fun pattern => (Glob.parse pattern).mapError (.badPattern pattern)

def isExcluded (exclude : List Glob.Pattern) (path relative : String) : Bool :=
  exclude.any fun pattern => pattern.matchesPath path || pattern.matchesPath relative

def folderInputs (disk : Disk) (exclude : List Glob.Pattern) (root path : String) : List Input :=
  let found := match disk.files path with
    | .ok found => found
    | .error _ => []
  found.filterMap fun file =>
    let relative := Path.ofNames file.names
    let input : Input := ⟨file.path, Path.join root relative, relative⟩
    if Path.isScript (file.names.getLast?.getD "") && !isExcluded exclude input.path relative then
      some input
    else none

def rootInputs (disk : Disk) (exclude : List Glob.Pattern) (root : String) :
    Except Failure (List Input) :=
  let path := Path.join disk.here root
  if disk.isFile path then .ok [⟨path, root, Path.fileName path⟩]
  else if disk.isFolder path then .ok (folderInputs disk exclude root path)
  else .error (.noSuchPath root)

def addInputs (inputs : List Input) : List Input → List Input
  | [] => inputs
  | input :: rest =>
    if inputs.any fun other => Path.steps other.path == Path.steps input.path then
      addInputs inputs rest
    else addInputs (inputs ++ [input]) rest

/-- The files that the paths stand for, in order; no path means the working folder. -/
def collectInputs (disk : Disk) (exclude : List Glob.Pattern) (paths : List String) :
    Except Failure (List Input) :=
  (if paths.isEmpty then ["."] else paths).foldlM (fun inputs root => do
    return addInputs inputs (← rootInputs disk exclude root)) []

end ArrayLoops.CommandLine
