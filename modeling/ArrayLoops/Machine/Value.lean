import ArrayLoops.Lowering.Operation
import ArrayLoops.Tree.Node

/-!
# Values

The values of running programs. Objects live in a heap and are referred to by their place in it, so
two references are the same object if they are the same number.
-/

namespace ArrayLoops.Machine

open Lowering (Operation)
open ArrayLoops.Tree (Node)

abbrev ObjectId := Nat

abbrev ScopeId := Nat

inductive Value where
  | undefined
  | null
  | boolean (b : Bool)
  | number (x : Float)
  | string (s : String)
  | object (id : ObjectId)
  deriving Inhabited

inductive ErrorClass where
  | error | typeError | rangeError | referenceError
  deriving DecidableEq, Repr

def ErrorClass.name : ErrorClass → String
  | .error => "Error"
  | .typeError => "TypeError"
  | .rangeError => "RangeError"
  | .referenceError => "ReferenceError"

structure Closure where
  function : Node
  scope : ScopeId
  /-- The receiver that an arrow function keeps. -/
  this : Option Value

inductive Builtin where
  | log
  | toText
  | toNumber
  | makeError (kind : ErrorClass)
  | call
  | push | pop | join | indexOf | slice | concat
  | iterate (operation : Operation)
  /-- A function of some name that does nothing. -/
  | idle (name : String)
  deriving DecidableEq, Repr

def Builtin.name : Builtin → String
  | .log => "log"
  | .toText => "String"
  | .toNumber => "Number"
  | .makeError kind => kind.name
  | .call => "call"
  | .push => "push"
  | .pop => "pop"
  | .join => "join"
  | .indexOf => "indexOf"
  | .slice => "slice"
  | .concat => "concat"
  | .iterate operation => operation.name
  | .idle name => name

inductive Callable where
  | closure (closure : Closure)
  | native (builtin : Builtin)

inductive ObjectKind where
  | plain
  | array (items : Array Value)
  | function (callable : Callable)
  /-- The name and the message of an error are properties. -/
  | error

abbrev Properties := List (String × Value)

structure Object where
  kind : ObjectKind
  properties : Properties := []

instance : Inhabited Object := ⟨{ kind := .plain }⟩

abbrev Heap := Array Object

def Properties.set (properties : Properties) (key : String) (value : Value) : Properties :=
  match properties with
  | [] => [(key, value)]
  | (other, old) :: rest =>
    if other == key then (key, value) :: rest else (other, old) :: Properties.set rest key value

namespace Object

def ofError (kind : ErrorClass) (message : String) : Object where
  kind := .error
  properties := [("name", .string kind.name), ("message", .string message)]

def ofItems (items : Array Value) : Object where
  kind := .array items

def ofBuiltin (builtin : Builtin) : Object where
  kind := .function (.native builtin)

end Object

namespace Value

def isNullish : Value → Bool
  | .undefined | .null => true
  | _ => false

def isUndefined : Value → Bool
  | .undefined => true
  | _ => false

def isTruthy : Value → Bool
  | .undefined | .null => false
  | .boolean b => b
  | .number x => x != 0.0 && !x.isNaN
  | .string s => !s.isEmpty
  | .object _ => true

def callable? (heap : Heap) : Value → Option Callable
  | .object id =>
    match heap[id]? with
    | some { kind := .function callable, .. } => some callable
    | _ => none
  | _ => none

def arrayId? (heap : Heap) : Value → Option ObjectId
  | .object id =>
    match heap[id]? with
    | some { kind := .array _, .. } => some id
    | _ => none
  | _ => none

def typeName (heap : Heap) : Value → String
  | .undefined => "undefined"
  | .null => "object"
  | .boolean _ => "boolean"
  | .number _ => "number"
  | .string _ => "string"
  | .object id =>
    match heap[id]? with
    | some { kind := .function _, .. } => "function"
    | _ => "object"

/-- Equality without conversions: objects are equal only to themselves. -/
def strictEquals : Value → Value → Bool
  | .undefined, .undefined => true
  | .null, .null => true
  | .boolean a, .boolean b => a == b
  | .number x, .number y => x == y
  | .string s, .string t => s == t
  | .object i, .object j => i == j
  | _, _ => false

end Value

end ArrayLoops.Machine
