import ArrayLoops.Machine.Value

/-!
# Scopes

Scopes hold the variables of running programs. Each but the outermost lies in another, which was made
before it. Functions have scopes of their own, which hold the variables declared with `var`.
-/

namespace ArrayLoops.Machine

structure Binding where
  value : Value
  isMutable : Bool

structure Scope where
  bindings : List (String × Binding)
  parent : Option ScopeId
  isFunction : Bool

namespace Scope

def get? (scope : Scope) (name : String) : Option Binding := scope.bindings.lookup name

def contains (scope : Scope) (name : String) : Bool := (scope.get? name).isSome

def summary (scope : Scope) : String :=
  "Environment \x7b bindings: " ++ toString scope.bindings.length ++ ", is_function_scope: " ++
    (if scope.isFunction then "true" else "false") ++ " \x7d"

def replace (name : String) (binding : Binding) : List (String × Binding) → List (String × Binding)
  | [] => []
  | entry :: rest =>
    if entry.1 == name then (name, binding) :: rest else entry :: replace name binding rest

def declare (scope : Scope) (name : String) (binding : Binding) : Scope :=
  if scope.contains name then { scope with bindings := replace name binding scope.bindings }
  else { scope with bindings := (name, binding) :: scope.bindings }

/-- Binds a name to nothing in particular unless it is bound. -/
def declareVar (scope : Scope) (name : String) : Scope :=
  if scope.contains name then scope else scope.declare name ⟨.undefined, true⟩

end Scope

abbrev Scopes := Array Scope

inductive Assigned where
  | done (scopes : Scopes)
  | unbound
  | constant

namespace Scopes

def global : Scopes := #[⟨[], none, true⟩]

def child (scopes : Scopes) (parent : ScopeId) (isFunction : Bool) : ScopeId × Scopes :=
  (scopes.size, scopes.push ⟨[], some parent, isFunction⟩)

/-- The first of `n` scopes from `id` outward for which `p` holds. -/
def findUp (scopes : Scopes) (p : Scope → Bool) : Nat → ScopeId → Option ScopeId
  | 0, _ => none
  | n + 1, id =>
    match scopes[id]? with
    | none => none
    | some scope =>
      if p scope then some id
      else
        match scope.parent with
        | some parent => findUp scopes p n parent
        | none => none

def lookupUp (scopes : Scopes) (name : String) : Nat → ScopeId → Option Binding
  | 0, _ => none
  | n + 1, id =>
    match scopes[id]? with
    | none => none
    | some scope =>
      match scope.get? name with
      | some binding => some binding
      | none =>
        match scope.parent with
        | some parent => lookupUp scopes name n parent
        | none => none

/-- The value of a name as seen from a scope. A scope lies in one with a smaller number. -/
def lookup (scopes : Scopes) (id : ScopeId) (name : String) : Option Value :=
  (scopes.lookupUp name (id + 1) id).map (·.value)

def owner? (scopes : Scopes) (id : ScopeId) (name : String) : Option ScopeId :=
  scopes.findUp (·.contains name) (id + 1) id

def hasOwn (scopes : Scopes) (id : ScopeId) (name : String) : Bool :=
  scopes[id]?.any (·.contains name)

def declare (scopes : Scopes) (id : ScopeId) (name : String) (binding : Binding) : Scopes :=
  scopes.modify id (·.declare name binding)

def declareVar (scopes : Scopes) (id : ScopeId) (name : String) : Scopes :=
  scopes.modify id (·.declareVar name)

def assign (scopes : Scopes) (id : ScopeId) (name : String) (value : Value) : Assigned :=
  match scopes.owner? id name with
  | none => .unbound
  | some owner =>
    if (scopes[owner]?.bind (·.get? name)).any (·.isMutable) then
      .done (scopes.declare owner name ⟨value, true⟩)
    else .constant

def functionScope (scopes : Scopes) (id : ScopeId) : ScopeId :=
  (scopes.findUp (fun scope => scope.isFunction || scope.parent.isNone) (id + 1) id).getD id

def root (scopes : Scopes) (id : ScopeId) : ScopeId :=
  (scopes.findUp (·.parent.isNone) (id + 1) id).getD id

end Scopes

end ArrayLoops.Machine
