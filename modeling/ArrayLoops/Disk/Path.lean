import ArrayLoops.Text.LineMap

/-!
# Paths

Paths are texts whose segments are divided by slashes.
-/

namespace ArrayLoops.Path

def isAbsolute (path : String) : Bool := path.toList.head? == some '/'

/-- `path` seen from the folder `base`. -/
def join (base path : String) : String :=
  if isAbsolute path || base.isEmpty then path
  else if base.toList.getLast? == some '/' then base ++ path
  else base ++ "/" ++ path

def segments (path : String) : List String := Text.pieces '/' path

/-- Whether a segment leads nowhere: it is empty or a single dot. -/
def isIdle (segment : String) : Bool := segment == "" || segment == "."

/-- The segments that lead somewhere. Paths with the same steps from the same folder are the same
path. -/
def steps (path : String) : List String := (segments path).filter fun segment => !isIdle segment

def ofNames (names : List String) : String := "/".intercalate names

def parent (path : String) : String :=
  let kept := ((segments path).reverse.dropWhile isIdle).drop 1
  match (kept.dropWhile isIdle).reverse with
  | [] => if isAbsolute path then "/" else ""
  | names => ofNames names

def fileName (path : String) : String := (steps path).getLast?.getD path

/-- What follows the last dot of a file name. A dot in front of everything else divides nothing. -/
def extension? (name : String) : Option String :=
  let behind := name.toList.reverse.takeWhile (· != '.')
  match name.toList.reverse.drop behind.length with
  | '.' :: _ :: _ => some (String.ofList behind.reverse)
  | _ => none

def isScript (name : String) : Bool := extension? name == some "js"

/-- The order of paths, step by step: a folder comes before what it holds. -/
def le : List String → List String → Bool
  | [], _ => true
  | _ :: _, [] => false
  | a :: as, b :: bs => if a == b then le as bs else a < b

end ArrayLoops.Path
