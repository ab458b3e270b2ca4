/-!
# Array operations

The six methods of arrays that are turned into loops.
-/

namespace ArrayLoops.Lowering

inductive Operation where
  | forEach | map | filter | every | some | reduce
  deriving DecidableEq, Repr

namespace Operation

def all : List Operation := [.forEach, .map, .filter, .every, .some, .reduce]

def name : Operation → String
  | .forEach => "forEach"
  | .map => "map"
  | .filter => "filter"
  | .every => "every"
  | .some => "some"
  | .reduce => "reduce"

def title : Operation → String
  | .forEach => "ForEach"
  | .map => "Map"
  | .filter => "Filter"
  | .every => "Every"
  | .some => "Some"
  | .reduce => "Reduce"

def ofName? (name : String) : Option Operation := all.find? fun operation => operation.name == name

def takesThis (operation : Operation) : Bool := operation != .reduce

/-- Whether the loop keeps the element and the result of the callback. -/
def isCollecting (operation : Operation) : Bool := operation != .forEach

theorem ofName?_name (operation : Operation) : ofName? operation.name = Option.some operation := by
  cases operation <;> decide

end Operation

structure UnknownOperation where
  name : String
  deriving DecidableEq, Repr

def UnknownOperation.message (error : UnknownOperation) : String :=
  "unknown operation `" ++ error.name ++ "` (expected forEach|map|filter|every|some|reduce)"

def Operation.ofName (name : String) : Except UnknownOperation Operation :=
  match ofName? name with
  | Option.some operation => .ok operation
  | none => .error ⟨name⟩

end ArrayLoops.Lowering
