import ArrayLoops.Json.Layout
import ArrayLoops.Machine.Value
import ArrayLoops.Number.Shortest

/-!
# The text of values

Values have two texts: the one they are converted to, and the one they are shown with in logs. An
array that holds itself has no text of the first kind.
-/

namespace ArrayLoops.Machine

namespace Properties

def summary (display : Value → Option String) (properties : Properties) : Option String := do
  let field (key : String) : Option String :=
    match properties.lookup key with
    | some value => display value
    | none => some ""
  let name ← field "name"
  let message ← field "message"
  return if message.isEmpty then name else name ++ ": " ++ message

end Properties

namespace Value

/-- The text of a value whose objects are nested at most `n` deep. -/
def displayWithin (heap : Heap) : Nat → Value → Option String
  | _, .undefined => some "undefined"
  | _, .null => some "null"
  | _, .boolean b => some (if b then "true" else "false")
  | _, .number x => some (Number.text x)
  | _, .string s => some s
  | 0, .object _ => none
  | n + 1, .object id =>
    match heap[id]? with
    | none => none
    | some held =>
      match held.kind with
      | .array items => do
        let parts ← items.toList.mapM fun item =>
          if item.isNullish then some "" else displayWithin heap n item
        return ",".intercalate parts
      | .function _ => some "function () \x7b [code] \x7d"
      | .error => held.properties.summary (displayWithin heap n)
      | .plain => some "[object Object]"

/-- The text that a value is converted to. Objects that do not hold themselves are nested at most
as deep as there are objects. -/
def display? (heap : Heap) (value : Value) : Option String :=
  displayWithin heap (heap.size + 1) value

def shownDepth : Nat := 4

/-- The text of a value that is shown inside another, with `n` levels left. -/
def inspectNested? (heap : Heap) (n : Nat) (value : Value) : Option String :=
  match value with
  | .string s => some (Json.quoted s)
  | .object id =>
    match heap[id]? with
    | none => none
    | some held =>
      match held.kind, n with
      | .function (.native builtin), _ => some ("[Function: " ++ builtin.name ++ "]")
      | .function (.closure _), _ => some "[Function]"
      | .error, _ => held.properties.summary (display? heap)
      | .array _, 0 => some "[Array]"
      | .plain, 0 => some "[Object]"
      | .array items, n + 1 => do
        let parts ← items.toList.mapM (inspectNested? heap n)
        return "[" ++ ", ".intercalate parts ++ "]"
      | .plain, n + 1 =>
        if held.properties.isEmpty then some "\x7b\x7d"
        else do
          let parts ← held.properties.mapM fun (key, value) => do
            return key ++ ": " ++ (← inspectNested? heap n value)
          return "\x7b " ++ ", ".intercalate parts ++ " \x7d"
  | value => display? heap value

/-- The text that a value is shown with. Only a string that is shown by itself has no quotes. -/
def inspect? (heap : Heap) : Value → Option String
  | .string s => some s
  | value => inspectNested? heap shownDepth value

end Value

end ArrayLoops.Machine
