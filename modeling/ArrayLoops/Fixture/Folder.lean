import ArrayLoops.Disk
import ArrayLoops.Equivalence
import ArrayLoops.Fixture

/-!
# Folders of fixtures

Every script of a folder is a fixture. Its programs are run before and after lowering.
-/

namespace ArrayLoops.Fixture

open Lowering (Operation Options)

structure Case where
  path : String
  operation : Option Operation
  source : String
  options : Options

def Case.name (item : Case) : String :=
  match item.operation with
  | some operation => item.path ++ " [" ++ operation.name ++ "]"
  | none => item.path

inductive Verdict where
  | passed (changes : Nat)
  | diverged (divergence : Divergence) (loweredSource : String)
  | failed (error : ComparisonError)

def Verdict.isPassed : Verdict → Bool
  | .passed _ => true
  | _ => false

def Case.verdict (item : Case) : Verdict :=
  match compare item.source item.options with
  | .error error => .failed error
  | .ok comparison =>
    match comparison.divergence with
    | some divergence => .diverged divergence comparison.loweredSource
    | none => .passed comparison.changes.length

inductive FolderError where
  | walking (folder : String) (problem : FileProblem)
  | reading (path : String) (problem : FileProblem)
  | notes (path : String) (error : NoteError)

def FolderError.message : FolderError → String
  | .walking folder problem =>
    "walking " ++ folder ++ ": IO error for operation on " ++ folder ++ ": " ++ problem.message ++
      ": " ++ problem.message
  | .reading path problem => "reading fixture " ++ path ++ ": " ++ problem.message
  | .notes path error => "in " ++ path ++ ": " ++ error.message

def contains (part : List Char) : List Char → Bool
  | [] => part.isEmpty
  | c :: cs => part.isPrefixOf (c :: cs) || contains part cs

def discover (disk : Disk) (folder : String) (filter : Option String) :
    Except FolderError (List Disk.Found) := do
  let found ← (disk.files folder).mapError (.walking folder)
  return found.filter fun file =>
    Path.isScript (Path.fileName file.path) &&
      filter.all fun part => contains part.toList file.path.toList

def cases (path : String) (contents : Contents) : Except FolderError (List Case) :=
  match contents with
  | .binary => .error (.reading path .notText)
  | .text content =>
    let notes := notes content
    if isSkipped notes then .ok []
    else do
      let options ← (options notes).mapError (.notes path)
      if isTemplate content then
        let kinds ← (kinds notes).mapError (.notes path)
        return kinds.map fun operation =>
          { path, operation := some operation, source := instantiate content operation, options }
      else
        return [{ path, operation := none, source := content, options }]

def runFolder (disk : Disk) (folder : String) (filter : Option String) :
    Except FolderError (List (Case × Verdict)) := do
  let fixtures ← discover disk folder filter
  let all ← fixtures.mapM fun file => cases file.path file.contents
  return all.flatten.map fun item => (item, item.verdict)

end ArrayLoops.Fixture
