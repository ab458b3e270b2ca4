import ArrayLoops.Machine.State

/-!
# Properties

Reading and writing the properties of values. Arrays keep their elements apart from their other
properties; a change of their length cuts them or fills them up.
-/

namespace ArrayLoops.Machine

open Lowering (Operation)

def arrayMethod? (name : String) : Option Builtin :=
  match name with
  | "push" => some .push
  | "pop" => some .pop
  | "join" => some .join
  | "indexOf" => some .indexOf
  | "slice" => some .slice
  | "concat" => some .concat
  | name => (Operation.ofName? name).map .iterate

def charAt? (s : String) (i : Nat) : Option String := s.toList[i]?.map (String.singleton ·)

/-- A value, or a function to be made. -/
inductive Found where
  | value (value : Value)
  | builtin (builtin : Builtin)

def Object.find (object : Object) (key : String) : Found :=
  match object.kind with
  | .array items =>
    if key == "length" then .value (.number (Float.ofNat items.size))
    else
      match arrayIndex? key with
      | some i => .value (items[i]?.getD .undefined)
      | none =>
        match object.properties.lookup key with
        | some value => .value value
        | none =>
          match arrayMethod? key with
          | some builtin => .builtin builtin
          | none => .value .undefined
  | .function _ =>
    match object.properties.lookup key with
    | some value => .value value
    | none => if key == "call" then .builtin .call else .value .undefined
  | _ => .value ((object.properties.lookup key).getD .undefined)

def stringProperty (s key : String) : Value :=
  if key == "length" then .number (Float.ofNat (units16 s))
  else
    match (arrayIndex? key).bind (charAt? s) with
    | some c => .string c
    | none => .undefined

def getProperty (object : Value) (key : String) : Run Value :=
  match object with
  | .undefined | .null => do
    raise .typeError
      ("Cannot read properties of " ++ (← display object) ++ " (reading '" ++ key ++ "')")
  | .string s => return stringProperty s key
  | .boolean _ | .number _ => return .undefined
  | .object id => do
    let found ← (fun m => .ok (m.heap[id]?.map (·.find key)) m : Run (Option Found))
    match found with
    | some (.value value) => return value
    | some (.builtin builtin) => allocate (.ofBuiltin builtin)
    | none => return .undefined

/-- Makes an array as long as said, cutting it or filling it up. -/
def resized (items : Array Value) (size : Nat) : Array Value :=
  if size ≤ items.size then items.take size
  else items ++ Array.replicate (size - items.size) .undefined

def modifyObject (id : ObjectId) (f : Object → Object) : Run Unit :=
  modify fun m => { m with heap := m.heap.modify id f }

def modifyItems (id : ObjectId) (f : Array Value → Array Value) : Run Unit :=
  modifyObject id fun object =>
    match object with
    | { kind := .array items, properties } => { kind := .array (f items), properties }
    | object => object

/-- Sets an element, filling up the array before it. -/
def setItem (i : Nat) (value : Value) (items : Array Value) : Array Value :=
  let items := if items.size ≤ i then resized items (i + 1) else items
  items.setIfInBounds i value

def maxItems : Nat := 384307168202282325

def assignItem (id : ObjectId) (i : Nat) (value : Value) : Run Unit :=
  if i < maxItems then modifyItems id (setItem i value) else fail .stuck

def maxLength : Float := 4294967295.0

/-- The number for the new length of an array. The array has no text meanwhile: it stands for one
that holds itself. -/
def lengthNumber (id : ObjectId) (value : Value) : Run Float :=
  match value with
  | .number x => pure x
  | value => convert fun heap => value.toNumber? (heap.modify id fun _ => .ofItems #[.object id])

def setLength (id : ObjectId) (value : Value) : Run Unit := do
  let length ← lengthNumber id value
  if length < 0.0 || Number.truncated length != length || length > maxLength then
    raise .rangeError "Invalid array length"
  modifyItems id fun items => resized items length.toUInt64.toNat

def setProperty (object : Value) (key : String) (value : Value) : Run Unit :=
  match object with
  | .undefined | .null => do
    raise .typeError
      ("Cannot set properties of " ++ (← display object) ++ " (setting '" ++ key ++ "')")
  | .object id => do
    let isArray := ((← get).heap[id]?.map (·.kind)).any fun
      | .array _ => true
      | _ => false
    let setPlain := modifyObject id fun object =>
      { object with properties := object.properties.set key value }
    if isArray then
      match arrayIndex? key with
      | some i => assignItem id i value
      | none => if key == "length" then setLength id value else setPlain
    else setPlain
  | _ => return

end ArrayLoops.Machine
