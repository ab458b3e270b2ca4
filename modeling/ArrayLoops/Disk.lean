import ArrayLoops.Disk.Path

/-!
# Disks

A disk is a value: what stands at which place, and the working folder. A place is named by the steps
that lead to it from the root. Folders that hold something need no entry of their own.
-/

namespace ArrayLoops

/-- What a file holds: a text, or bytes that are no text. -/
inductive Contents where
  | text (value : String)
  | binary
  deriving DecidableEq, Repr

def Contents.text? : Contents → Option String
  | .text value => some value
  | .binary => none

inductive Item where
  | file (contents : Contents)
  | folder
  deriving DecidableEq, Repr

inductive FileProblem where
  | missing
  | notFolder
  | isFolder
  | taken
  | notText
  deriving DecidableEq, Repr

def FileProblem.message : FileProblem → String
  | .missing => "No such file or directory (os error 2)"
  | .notFolder => "Not a directory (os error 20)"
  | .isFolder => "Is a directory (os error 21)"
  | .taken => "File exists (os error 17)"
  | .notText => "stream did not contain valid UTF-8"

abbrev Place := List String

structure Disk where
  here : String
  entries : List (Place × Item) := []
  deriving DecidableEq, Repr

namespace Disk

def below? : (base place : Place) → Option Place
  | [], place => some place
  | _ :: _, [] => none
  | a :: as, b :: bs => if a == b then below? as bs else none

def holdsBelow (disk : Disk) (place : Place) : Bool :=
  disk.entries.any fun entry => (below? place entry.1).isSome

def item? (disk : Disk) (place : Place) : Option Item :=
  match disk.entries.lookup place with
  | some item => some item
  | none => if place.isEmpty || disk.holdsBelow place then some .folder else none

def put (disk : Disk) (place : Place) (item : Item) : Disk :=
  { disk with entries := (place, item) :: disk.entries.filter fun entry => entry.1 != place }

/-- The place that the segments lead to. Every step starts from a folder. -/
def descend (disk : Disk) (place : Place) : List String → Except FileProblem Place
  | [] => .ok place
  | segment :: rest =>
    match disk.item? place with
    | none => .error .missing
    | some (.file _) => .error .notFolder
    | some .folder =>
      if Path.isIdle segment then disk.descend place rest
      else if segment == ".." then disk.descend place.dropLast rest
      else disk.descend (place ++ [segment]) rest

def place (disk : Disk) (path : String) : Except FileProblem Place :=
  if path.isEmpty then .error .missing
  else disk.descend [] (Path.segments (Path.join disk.here path))

def look (disk : Disk) (path : String) : Except FileProblem (Place × Item) := do
  let place ← disk.place path
  match disk.item? place with
  | some item => return (place, item)
  | none => throw .missing

def isFile (disk : Disk) (path : String) : Bool :=
  match disk.look path with
  | .ok (_, .file _) => true
  | _ => false

def isFolder (disk : Disk) (path : String) : Bool :=
  match disk.look path with
  | .ok (_, .folder) => true
  | _ => false

def read (disk : Disk) (path : String) : Except FileProblem String := do
  match (← disk.look path).2 with
  | .file (.text value) => return value
  | .file .binary => throw .notText
  | .folder => throw .isFolder

def write (disk : Disk) (path text : String) : Except FileProblem Disk := do
  let place ← disk.place path
  match disk.item? place with
  | some .folder => throw .isFolder
  | _ => return disk.put place (.file (.text text))

def makeFolders (disk : Disk) (place : Place) : List String → Except FileProblem Disk
  | [] => .ok disk
  | segment :: rest =>
    if Path.isIdle segment then disk.makeFolders place rest
    else if segment == ".." then disk.makeFolders place.dropLast rest
    else
      let next := place ++ [segment]
      match disk.item? next with
      | some .folder => disk.makeFolders next rest
      | some (.file _) => .error (if rest.isEmpty then .taken else .notFolder)
      | none => (disk.put next .folder).makeFolders next rest

/-- Makes a folder and the folders on the way to it, where they are not there yet. -/
def makeFolder (disk : Disk) (path : String) : Except FileProblem Disk :=
  disk.makeFolders [] (Path.segments (Path.join disk.here path))

structure Found where
  /-- The path of the file as seen from where the folder is. -/
  path : String
  /-- The names that lead to the file from the folder. -/
  names : List String
  contents : Contents
  deriving DecidableEq, Repr

def insertFound (found : Found) : List Found → List Found
  | [] => [found]
  | other :: rest =>
    if Path.le found.names other.names then found :: other :: rest
    else other :: insertFound found rest

/-- The files at and below a path in the order of their paths: what a folder holds comes in the order
of the names, and before whatever follows the folder. A file is found under no name. -/
def files (disk : Disk) (path : String) : Except FileProblem (List Found) := do
  let (place, _) ← disk.look path
  let found := disk.entries.filterMap fun (other, item) =>
    match item, below? place other with
    | .file contents, some [] => some { path, names := [], contents }
    | .file contents, some names =>
      some { path := Path.join path (Path.ofNames names), names, contents }
    | _, _ => none
  return found.foldr insertFound []

end Disk

end ArrayLoops
