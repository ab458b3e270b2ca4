import ArrayLoops.Lowering.Code
import ArrayLoops.Lowering.Operation

/-!
# The loop that every operation fills

All loops have the same parts in the same order: the array, the index, the callback and its receiver
are put into variables, statements follow, then the loop with statements around the call of the
callback, then more statements. The length of the array is read anew on every turn.
-/

namespace ArrayLoops.Lowering

open ArrayLoops.Tree (Node)

/-- What can go wrong in a lowering. None of it happens to programs that were parsed without
complaint. -/
inductive LoweringError where
  | missingCallback (operation : Operation)
  | noStatement (pos : Nat)
  | noCapture (pos : Nat)
  | missingPart (pos : Nat)
  deriving DecidableEq, Repr

def LoweringError.message : LoweringError → String
  | .missingCallback operation =>
    "loop skeleton for `" ++ operation.name ++ "` was built without a callback statement"
  | .noStatement pos => "call at offset " ++ toString pos ++ " has no enclosing statement"
  | .noCapture pos =>
    "malformed call site at offset " ++ toString pos ++ ": argument has no capture"
  | .missingPart pos =>
    "malformed call site at offset " ++ toString pos ++ ": missing receiver or callback"

structure Bindings where
  array : String
  index : String
  callback : String
  this : Option String
  deriving DecidableEq, Repr

structure Skeleton where
  operation : Operation
  bindings : Bindings
  array : Code
  callback : Code
  this : Option Code
  beforeLoop : List Code := []
  beforeCall : List Code := []
  call : Option Code := none
  afterCall : List Code := []
  afterLoop : List Code := []

namespace Skeleton

def arrayName (s : Skeleton) : Code := .name s.bindings.array

def indexName (s : Skeleton) : Code := .name s.bindings.index

def currentElement (s : Skeleton) : Code := .element s.arrayName s.indexName

def invoke (s : Skeleton) (arguments : List Code) : Code :=
  match s.bindings.this with
  | some this => .call (.member (.name s.bindings.callback) "call") (.name this :: arguments)
  | none => .call (.name s.bindings.callback) arguments

def declareThis (s : Skeleton) : List Code :=
  match s.bindings.this, s.this with
  | some name, some value => [.declare name (some value)]
  | _, _ => []

def loop (s : Skeleton) (call : Code) : Code :=
  .loop none (some (.binary s.indexName "<" (.member s.arrayName "length")))
    (some (.postfixed s.indexName "++")) (.block (s.beforeCall ++ call :: s.afterCall))

def build (s : Skeleton) : Except LoweringError (List Code) :=
  match s.call with
  | none => .error (.missingCallback s.operation)
  | some call =>
    .ok ([.declare s.bindings.array (some s.array),
        .declare s.bindings.index (some (.number "0")),
        .declare s.bindings.callback (some s.callback)] ++
      s.declareThis ++ s.beforeLoop ++ s.loop call :: s.afterLoop)

end Skeleton

end ArrayLoops.Lowering
