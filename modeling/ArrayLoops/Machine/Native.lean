import ArrayLoops.Machine.Property

/-!
# The functions that every program finds

What the built-in functions do. The ones that take a callback get at it through `call`.
-/

namespace ArrayLoops.Machine

open Lowering (Operation)

def thisArray (this : Value) (method : String) : Run ObjectId := do
  match this.arrayId? (← get).heap with
  | some id => return id
  | none => raise .typeError ("Array.prototype." ++ method ++ " called on non-array")

def itemsOf (id : ObjectId) : Run (Array Value) := fun m =>
  match m.heap[id]? with
  | some { kind := .array items, .. } => .ok items m
  | _ => .ok #[] m

def lengthOf (id : ObjectId) : Run Nat := fun m =>
  match m.heap[id]? with
  | some { kind := .array items, .. } => .ok items.size m
  | _ => .ok 0 m

def itemAt (id : ObjectId) (i : Nat) : Run (Option Value) := fun m =>
  match m.heap[id]? with
  | some { kind := .array items, .. } => .ok items[i]? m
  | _ => .ok none m

def joined (items : Array Value) (separator : String) : Run String := do
  let parts ← convert fun heap => items.toList.mapM fun item =>
    if item.isNullish then some "" else item.display? heap
  return separator.intercalate parts

/-- A place in an array of the given length, counted from the end if negative. -/
def relativeIndex (length : Nat) (default : Nat) (value : Option Value) : Run Nat :=
  match value with
  | none | some .undefined => return default
  | some value => do
    let x ← toNumber value
    let x := if x.isNaN then 0.0 else Number.truncated x
    let size := Float.ofNat length
    let place := if x < 0.0 then (if size + x < 0.0 then 0.0 else size + x)
      else if x < size then x else size
    return place.toUInt64.toNat

/-- The items that an argument adds to an array: those of an array, or the argument itself. -/
def spread (heap : Heap) (value : Value) : Array Value :=
  match value.arrayId? heap with
  | some id =>
    match heap[id]? with
    | some { kind := .array items, .. } => items
    | _ => #[value]
  | none => #[value]

def applyBuiltin (builtin : Builtin) (this : Value) (args : List Value) : Run Value :=
  match builtin with
  | .log => do
    let parts ← args.mapM inspect
    pushLog (" ".intercalate parts)
    return .undefined
  | .toText =>
    match args with
    | [] => return .string ""
    | value :: _ => do return .string (← display value)
  | .toNumber =>
    match args with
    | [] => return .number 0.0
    | value :: _ => do return .number (← toNumber value)
  | .makeError kind =>
    match args with
    | [] | .undefined :: _ => allocate (.ofError kind "")
    | value :: _ => do allocate (.ofError kind (← display value))
  | .push => do
    let id ← thisArray this builtin.name
    modifyItems id fun items => args.foldl Array.push items
    return .number (Float.ofNat (← lengthOf id))
  | .pop => do
    let id ← thisArray this builtin.name
    let last ← itemAt id ((← lengthOf id) - 1)
    modifyItems id Array.pop
    return last.getD .undefined
  | .join => do
    let id ← thisArray this builtin.name
    let separator ← match args with
      | [] | .undefined :: _ => pure ","
      | value :: _ => display value
    return .string (← joined (← itemsOf id) separator)
  | .indexOf => do
    let id ← thisArray this builtin.name
    let needle := args.headD .undefined
    match (← itemsOf id).findIdx? (·.strictEquals needle) with
    | some i => return .number (Float.ofNat i)
    | none => return .number (-1.0)
  | .slice => do
    let id ← thisArray this builtin.name
    let items ← itemsOf id
    let first ← relativeIndex items.size 0 args[0]?
    let last ← relativeIndex items.size items.size args[1]?
    allocate (.ofItems (items.extract first last))
  | .concat => do
    let id ← thisArray this builtin.name
    let heap := (← get).heap
    let items := args.foldl (fun items value => items ++ spread heap value) (← itemsOf id)
    allocate (.ofItems items)
  | .call | .iterate _ | .idle _ => return .undefined

def callbackOf (args : List Value) : Run Value := do
  let callback := args.headD .undefined
  match ← callable? callback with
  | some _ => return callback
  | none => raise .typeError ((← inspect callback) ++ " is not a function")

variable {μ : Type → Type} [Stepping μ]

abbrev Call (μ : Type → Type) := Value → Value → List Value → μ Value

/-- Calls a callback for each element of an array that is there when its turn comes. `visit` takes
in what the callback returns, and says whether to go on. -/
@[specialize]
def iterate {σ : Type} (call : Call μ) (id : ObjectId) (receiver callback thisArg : Value)
    (visit : σ → Nat → Value → Value → σ × Bool) : Nat → Nat → σ → μ σ
  | 0, _, acc => return acc
  | n + 1, i, acc => do
    match ← itemAt id i with
    | none => iterate call id receiver callback thisArg visit n (i + 1) acc
    | some item =>
      let result ← call callback thisArg [item, .number (Float.ofNat i), receiver]
      let (acc, goOn) := visit acc i item result
      if goOn then iterate call id receiver callback thisArg visit n (i + 1) acc
      else return acc

@[specialize]
def reduceFrom (call : Call μ) (id : ObjectId) (receiver callback : Value) :
    Nat → Nat → Value → μ Value
  | 0, _, acc => return acc
  | n + 1, i, acc => do
    match ← itemAt id i with
    | none => reduceFrom call id receiver callback n (i + 1) acc
    | some item =>
      let acc ← call callback .undefined [acc, item, .number (Float.ofNat i), receiver]
      reduceFrom call id receiver callback n (i + 1) acc

@[specialize]
def reduceArray (call : Call μ) (this : Value) (args : List Value) : μ Value := do
  let id ← thisArray this Operation.reduce.name
  let callback ← callbackOf args
  let length ← lengthOf id
  match args[1]? with
  | some initial => reduceFrom call id this callback length 0 initial
  | none =>
    match ← itemAt id 0 with
    | some first => reduceFrom call id this callback (length - 1) 1 first
    | none => raise .typeError "Reduce of empty array with no initial value"

/-- The results of the other array operations. The length is read once, before the first call. -/
@[specialize]
def iterateArray (call : Call μ) (operation : Operation) (this : Value) (args : List Value) :
    μ Value := do
  let id ← thisArray this operation.name
  let callback ← callbackOf args
  let length ← lengthOf id
  let thisArg := (args[1]?).getD .undefined
  match operation with
  | .map =>
    let start := Array.replicate length Value.undefined
    let items ← iterate call id this callback thisArg
      (fun acc i _ result => (acc.setIfInBounds i result, true)) length 0 start
    allocate (.ofItems items)
  | .filter =>
    let items ← iterate call id this callback thisArg
      (fun acc _ item result => (if result.isTruthy then acc.push item else acc, true)) length 0 #[]
    allocate (.ofItems items)
  | .every =>
    let all ← iterate call id this callback thisArg
      (fun _ _ _ result => (result.isTruthy, result.isTruthy)) length 0 true
    return .boolean all
  | .some =>
    let any ← iterate call id this callback thisArg
      (fun _ _ _ result => (result.isTruthy, !result.isTruthy)) length 0 false
    return .boolean any
  | .forEach | .reduce =>
    iterate call id this callback thisArg (fun _ _ _ _ => ((), true)) length 0 ()
    return .undefined

@[specialize]
def callBuiltin (call : Call μ) (builtin : Builtin) (this : Value) (args : List Value) : μ Value :=
  match builtin with
  | .call => call this (args.headD .undefined) args.tail
  | .iterate .reduce => reduceArray call this args
  | .iterate operation => iterateArray call operation this args
  | builtin => applyBuiltin builtin this args

end ArrayLoops.Machine
