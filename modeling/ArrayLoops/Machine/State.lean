import ArrayLoops.Machine.Conversion
import ArrayLoops.Machine.Scope

/-!
# Running machines

A machine holds all objects and scopes, what is current, and what was logged. A run changes the
machine and ends with a result or with a stop; the machine stays as the run left it in both cases.
-/

namespace ArrayLoops

open ArrayLoops.Tree (Node)

namespace Machine

inductive Unsupported where
  | bindingPattern
  | expressionKind
  | missingPropertyName
  | computedPropertyName
  | memberExpression
  | prefixOperator
  | binaryOperator
  | missingTarget
  | assignmentTarget
  | statementKind
  | notAFunction
  deriving DecidableEq, Repr

def Unsupported.name : Unsupported → String
  | .bindingPattern => "binding pattern"
  | .expressionKind => "expression kind"
  | .missingPropertyName => "missing property name"
  | .computedPropertyName => "computed property name"
  | .memberExpression => "member expression"
  | .prefixOperator => "prefix operator"
  | .binaryOperator => "binary operator"
  | .missingTarget => "missing assignment target"
  | .assignmentTarget => "assignment target"
  | .statementKind => "statement kind"
  | .notAFunction => "callable node is not a function"

/-- The number of turns that all loops of a program may take together. -/
def maxIterations : Nat := 1000000

/-- The number of functions of the program that may be open at a time. -/
def maxCallDepth : Nat := 256

/-- Why a machine gives up. -/
inductive Failure where
  | unsupported (what : Unsupported)
  | loopLimit
  /-- A computation that cannot go on: it has no end, or it reads an array that is being changed. -/
  | stuck
  deriving DecidableEq, Repr

def Failure.message : Failure → String
  | .unsupported what => "unsupported construct: " ++ what.name
  | .loopLimit => "loop iteration limit (" ++ toString maxIterations ++ ") exceeded"
  | .stuck => "interpreter thread failed: interpreter panicked"

inductive Stop where
  | thrown (value : Value)
  | fatal (failure : Failure)

end Machine

open Machine in
structure Machine where
  heap : Heap
  scopes : Scopes
  scope : ScopeId
  this : Value
  depth : Nat
  iterations : Nat
  /-- The lines logged, last one first. -/
  log : List String

namespace Machine

abbrev Run := EStateM Stop Machine

def fail {α : Type} (failure : Failure) : Run α := throw (.fatal failure)

def unsupported {α : Type} (what : Unsupported) : Run α := fail (.unsupported what)

def convert {α : Type} (f : Heap → Option α) : Run α := fun m =>
  match f m.heap with
  | some a => .ok a m
  | none => .error (.fatal .stuck) m

def display (value : Value) : Run String := convert (value.display? ·)

def inspect (value : Value) : Run String := convert (value.inspect? ·)

def toNumber (value : Value) : Run Float :=
  match value with
  | .number x => pure x
  | value => convert (value.toNumber? ·)

def toInt32 (value : Value) : Run Int32 := convert (value.toInt32? ·)

def allocate (object : Object) : Run Value := fun m =>
  let id := m.heap.size
  .ok (.object id) { m with heap := m.heap.push object }

def raise {α : Type} (kind : ErrorClass) (message : String) : Run α := do
  let value ← allocate (.ofError kind message)
  throw (.thrown value)

def callable? (value : Value) : Run (Option Callable) := fun m => .ok (value.callable? m.heap) m

def typeName (value : Value) : Run String := fun m => .ok (value.typeName m.heap) m

def pushLog (line : String) : Run Unit := modify fun m => { m with log := line :: m.log }

def countIteration : Run Unit := fun m =>
  let m := { m with iterations := m.iterations + 1 }
  if m.iterations > maxIterations then .error (.fatal .loopLimit) m else .ok () m

def lookup? (name : String) : Run (Option Value) := fun m => .ok (m.scopes.lookup m.scope name) m

def lookup (name : String) : Run Value := do
  match ← lookup? name with
  | some value => return value
  | none => raise .referenceError (name ++ " is not defined")

def declare (name : String) (value : Value) (isMutable : Bool) : Run Unit :=
  modify fun m => { m with scopes := m.scopes.declare m.scope name ⟨value, isMutable⟩ }

/-- Whether a name is bound to something that may be changed. -/
inductive Target where
  | bound (owner : ScopeId)
  | unbound
  | constant

def target (name : String) : Run Target := fun m =>
  match m.scopes.owner? m.scope name with
  | none => .ok .unbound m
  | some owner =>
    if (m.scopes[owner]?.bind (·.get? name)).any (·.isMutable) then .ok (.bound owner) m
    else .ok .constant m

def declareIn (id : ScopeId) (name : String) (value : Value) : Run Unit :=
  modify fun m => { m with scopes := m.scopes.declare id name ⟨value, true⟩ }

/-- Assigns to a variable; one that is not declared becomes a variable of the outermost scope. -/
def assign (name : String) (value : Value) : Run Unit := do
  match ← target name with
  | .bound owner => declareIn owner name value
  | .unbound => declareIn (← rootScope) name value
  | .constant => raise .typeError "Assignment to constant variable."
where
  rootScope : Run ScopeId := fun m => .ok (m.scopes.root m.scope) m

/-- Initialises a variable declared with `var`. A constant of the same name is left as it is. -/
def initialise (name : String) (value : Value) : Run Unit := do
  match ← target name with
  | .bound owner => declareIn owner name value
  | .unbound => declareIn (← functionScope) name value
  | .constant => return
where
  functionScope : Run ScopeId := fun m => .ok (m.scopes.functionScope m.scope) m

/-- Runs in a new scope inside the current one, and comes back. -/
def inBlock {α : Type} (act : Run α) : Run α := fun m =>
  let saved := m.scope
  let (scope, scopes) := m.scopes.child saved false
  match act { m with scope, scopes } with
  | .ok a m => .ok a { m with scope := saved }
  | .error e m => .error e { m with scope := saved }

/-- Runs as the body of a function made in the given scope, and comes back. -/
def inFrame {α : Type} (outer : ScopeId) (this : Value) (act : Run α) : Run α := fun m =>
  let savedScope := m.scope
  let savedThis := m.this
  let (scope, scopes) := m.scopes.child outer true
  match act { m with scope, scopes, this, depth := m.depth + 1 } with
  | .ok a m => .ok a { m with scope := savedScope, this := savedThis, depth := m.depth - 1 }
  | .error e m => .error e { m with scope := savedScope, this := savedThis, depth := m.depth - 1 }

/-- A function of the program, as a value made in the current scope. -/
def makeClosure (function : Node) : Run Value := do
  let m ← get
  let this := if function.isKind .arrowFunction then some m.this else none
  allocate { kind := .function (.closure { function, scope := m.scope, this }) }

def identifierName (node : Node) : Run String :=
  match node with
  | .mk _ (.identifier text) => return text
  | _ => unsupported .bindingPattern

inductive Completion where
  | finished
  | returned (value : Value)
  | broken
  | continued

/-- Where steps of the machine can be taken: runs are steps, steps can be taken in a new scope
inside the current one, and a variable declared with `var` gets the value that steps end with. -/
class Stepping (μ : Type → Type) extends Monad μ, MonadLift Run μ where
  inBlock {α : Type} : μ α → μ α
  initialise (name : String) (value : μ Value) : μ Unit := do
    Machine.initialise name (← value)

instance : Stepping Run where
  monadLift act := act
  inBlock := inBlock

/-- Where functions of the program can be called, too: steps can be taken as the body of one. -/
class Calling (μ : Type → Type) extends Stepping μ where
  inFrame {α : Type} : ScopeId → Value → μ α → μ α

instance : Calling Run where
  inFrame := inFrame

/-- How the parts of the machine get at each other. -/
structure Recursion (μ : Type → Type) where
  eval : Node → μ Value
  exec : Node → μ Completion
  call : Value → Value → List Value → μ Value

end Machine

end ArrayLoops
