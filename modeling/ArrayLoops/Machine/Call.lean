import ArrayLoops.Machine.Statement

/-!
# Calls, and the machine as a whole

A function of the program runs in a scope inside the one it was made in. The three parts of the
machine are tied together by a bound on how deep they may be nested.
-/

namespace ArrayLoops.Machine

open ArrayLoops.Tree (Node)

variable {μ : Type → Type} [Calling μ]

@[specialize]
def bindParameters (r : Recursion μ) : List Node → List Value → μ Unit
  | [], _ => return
  | .mk _ (.parameter name initializer) :: rest, args => do
    let given := args.headD .undefined
    let value ← if given.isUndefined && initializer.isPresent then r.eval initializer else pure given
    let name ← identifierName name
    declare name value true
    bindParameters r rest args.tail
  | _ :: rest, args => bindParameters r rest args

@[specialize]
def runBody (r : Recursion μ) (isExpression : Bool) (body : Node) : μ Value :=
  if isExpression then r.eval body
  else
    match body with
    | .mk _ (.block statements) => do
      match ← execAll r statements with
      | .returned value => return value
      | _ => return .undefined
    | _ => return .undefined

/-- Goes on unless too many functions of the program are open. -/
@[specialize]
def withRoom {α : Type} (act : μ α) : μ α := do
  if maxCallDepth ≤ (← (get : Run Machine)).depth then
    (raise .rangeError "Maximum call stack size exceeded" : Run α)
  else act

@[specialize]
def callClosure (r : Recursion μ) (closure : Closure) (this : Value) (args : List Value) : μ Value :=
  withRoom <|
    match closure.function with
    | .absent => return .undefined
    | .mk info (.function _ _ parameters body) =>
      Calling.inFrame closure.scope (closure.this.getD this) do
        bindParameters r parameters args
        runBody r info.flags.expressionBody body
    | _ => unsupported .notAFunction

@[specialize]
def callStep (r : Recursion μ) (callee this : Value) (args : List Value) : μ Value := do
  match ← callable? callee with
  | some (.native builtin) => callBuiltin r.call builtin this args
  | some (.closure closure) => callClosure r closure this args
  | none => raise .typeError ((← inspect callee) ++ " is not a function")

mutual
def eval : Nat → Node → Run Value
  | 0, _ => fail .stuck
  | n + 1, node => evalStep ⟨eval n, exec n, call n⟩ node
def exec : Nat → Node → Run Completion
  | 0, _ => fail .stuck
  | n + 1, node => execStep ⟨eval n, exec n, call n⟩ node
def call : Nat → Value → Value → List Value → Run Value
  | 0, _, _, _ => fail .stuck
  | n + 1, callee, this, args => callStep ⟨eval n, exec n, call n⟩ callee this args
end

/-- The whole machine, at most `n` steps deep. -/
def recursion (n : Nat) : Recursion Run := ⟨eval n, exec n, call n⟩

/-- How deep steps can be nested in a program with the given number of nodes. Between two calls of
functions of the program they follow the tree, and the built-in function that calls a function uses
up an argument each time. -/
def depthFor (nodes : Nat) : Nat := (maxCallDepth + 2) * (2 * nodes + 64)

def globals : List (String × Builtin) := [
  ("log", .log), ("String", .toText), ("Number", .toNumber), ("Error", .makeError .error),
  ("TypeError", .makeError .typeError), ("RangeError", .makeError .rangeError)]

def start : Machine :=
  let constants : List (String × Value) := [
    ("undefined", .undefined), ("NaN", .number Number.notANumber),
    ("Infinity", .number Number.infinity)]
  let scopes := constants.foldl (fun scopes (name, value) => scopes.declare 0 name ⟨value, false⟩)
    Scopes.global
  let m : Machine := {
    heap := #[], scopes, scope := 0, this := .undefined, depth := 0, iterations := 0, log := [] }
  globals.foldl (fun m (name, builtin) =>
    { m with
      heap := m.heap.push (.ofBuiltin builtin)
      scopes := m.scopes.declare 0 name ⟨.object m.heap.size, true⟩ }) m

end ArrayLoops.Machine
