import ArrayLoops.Lowering.CallSite
import ArrayLoops.Lowering.Names
import ArrayLoops.Lowering.Skeleton

/-!
# The loops of the six operations

Each operation fills the skeleton in its own way and says which value stands for the call.
-/

namespace ArrayLoops.Lowering

open ArrayLoops.Tree (Node)

structure LoweredCall where
  statements : List Code
  value : Code

/-- Where the variable is declared that the argument is put into. -/
def LoweredCall.capturePosition (lowered : LoweredCall) (argument : Node) : Option Nat :=
  lowered.statements.findIdx? (Code.captures argument)

abbrev Naming := StateM Names

def fresh (hint : String) : Naming String := fun names => names.fresh hint

structure ElementNames where
  element : String
  result : String

namespace ElementNames

def ask : Naming ElementNames := do
  let element ← fresh "e"
  let result ← fresh "z"
  return { element, result }

def declarations (names : ElementNames) (s : Skeleton) : List Code :=
  [.declare names.element (some s.currentElement), .declare names.result none]

def keep (names : ElementNames) (call : Code) : Code :=
  .evaluate (.assign (.name names.result) call)

end ElementNames

def pushTo (array : String) (value : Code) : Code :=
  .evaluate (.call (.member (.name array) "push") [value])

/-- Settles the result and leaves the loop. -/
def settle (result : String) (value : Bool) : List Code :=
  [.evaluate (.assign (.name result) (.boolean value)), .break]

/-- How a result starts, and what happens to it after each call of the callback. -/
def collecting (operation : Operation) (names : ElementNames) (result : String) :
    List Code × List Code :=
  let outcome := Code.name names.result
  match operation with
  | .map => ([.declare result (some (.array []))], [pushTo result outcome])
  | .filter =>
    ([.declare result (some (.array []))],
      [.when outcome [pushTo result (.name names.element)]])
  | .every =>
    ([.declare result (some (.boolean true))], [.when (.not outcome) (settle result false)])
  | .some => ([.declare result (some (.boolean false))], [.when outcome (settle result true)])
  | .forEach | .reduce => ([], [])

/-- What an empty array without an initial value is reduced to: an error of this text. -/
def emptyReduceMessage : String := "Reduce of empty array with no initial value"

/-- How the accumulator starts: with the initial value, or with the first element. -/
def startAccumulator (s : Skeleton) (accumulator : String) : Option Node → List Code
  | some initial => [.declare accumulator (some (.source initial))]
  | none =>
    [.when (.binary (.member s.arrayName "length") "===" (.number "0"))
        [.throw (.new (.name "TypeError") [.string emptyReduceMessage])],
      .declare accumulator (some (.element s.arrayName (.number "0"))),
      .evaluate (.assign s.indexName (.number "1"))]

def CallSite.skeleton (site : CallSite) (bindings : Bindings) : Skeleton where
  operation := site.operation
  bindings
  array := .source site.receiver
  callback := .source site.callback
  this := if site.operation.takesThis then site.extra.map Code.source else none

namespace Skeleton

def visiting (s : Skeleton) : Skeleton × Code :=
  let call := s.invoke [s.currentElement, s.indexName, s.arrayName]
  ({ s with call := some (.evaluate call) }, .undefined)

def reducing (s : Skeleton) (names : ElementNames) (accumulator : String) (initial : Option Node) :
    Skeleton × Code :=
  let call := s.invoke [.name accumulator, .name names.element, s.indexName, s.arrayName]
  ({ s with
    beforeLoop := startAccumulator s accumulator initial
    beforeCall := names.declarations s
    call := some (names.keep call)
    afterCall := [.evaluate (.assign (.name accumulator) (.name names.result))] },
    .name accumulator)

def gathering (s : Skeleton) (names : ElementNames) (result : String) : Skeleton × Code :=
  let call := s.invoke [.name names.element, s.indexName, s.arrayName]
  let (beforeLoop, afterCall) := collecting s.operation names result
  ({ s with
    beforeLoop
    beforeCall := names.declarations s
    call := some (names.keep call)
    afterCall },
    .name result)

end Skeleton

def CallSite.askBindings (site : CallSite) : Naming Bindings := do
  let array ← fresh "a"
  let index ← fresh "i"
  let callback ← fresh "f"
  let this ← match if site.operation.takesThis then site.extra else none with
    | some _ => some <$> fresh "t"
    | none => pure none
  return { array, index, callback, this }

def fill (site : CallSite) : Naming (Skeleton × Code) := do
  let s := site.skeleton (← site.askBindings)
  match site.operation with
  | .forEach => return s.visiting
  | .reduce =>
    let names ← ElementNames.ask
    return s.reducing names (← fresh "acc") site.extra
  | _ =>
    let names ← ElementNames.ask
    return s.gathering names (← fresh "r")

def CallSite.lower (site : CallSite) (names : Names) : Except LoweringError (LoweredCall × Names) := do
  let ((skeleton, value), names) := (fill site).run names
  let statements ← skeleton.build
  return ({ statements, value }, names)

end ArrayLoops.Lowering
