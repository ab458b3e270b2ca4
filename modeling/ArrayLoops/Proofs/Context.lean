import ArrayLoops.Machine.Statement
import ArrayLoops.Proofs.ScopeChains

/-!
# Contexts

The context of a machine is what is current in it: the scope, the receiver and the number of open
functions. The runs that steps are put together from all stay in the context they begin in, however
they end; meanwhile scopes only grow, and functions are made of nodes of the program only. That is an
instance for each of them, so that a run built from others that keep to this can be seen to keep to
it, too.
-/

namespace ArrayLoops.Machine

open ArrayLoops.Tree (Node)

structure SameContext (m m' : Machine) : Prop where
  scope : m'.scope = m.scope
  this : m'.this = m.this
  depth : m'.depth = m.depth

namespace SameContext

variable {m m' m'' : Machine}

theorem refl (m : Machine) : SameContext m m := ⟨rfl, rfl, rfl⟩

theorem trans (h : SameContext m m') (h' : SameContext m' m'') : SameContext m m'' :=
  ⟨h'.scope.trans h.scope, h'.this.trans h.this, h'.depth.trans h.depth⟩

end SameContext

/-- All functions of the program that the heap holds are nodes of the given kind. -/
def Heap.MadeOf (made : Node → Prop) (heap : Heap) : Prop :=
  ∀ (id : ObjectId) (object : Object) (closure : Closure), heap[id]? = some object →
    object.kind = .function (.closure closure) → made closure.function

section
variable {made : Node → Prop} {heap : Heap}

theorem Heap.MadeOf.push (h : heap.MadeOf made) {object : Object}
    (ho : ∀ closure, object.kind = .function (.closure closure) → made closure.function) :
    Heap.MadeOf made (heap.push object) := by
  intro id other closure hid hkind
  rw [Array.getElem?_push] at hid
  split at hid
  · cases hid
    exact ho closure hkind
  · exact h id other closure hid hkind

theorem Heap.MadeOf.modify (h : heap.MadeOf made) {f : Object → Object} (id : ObjectId)
    (hf : ∀ object closure, (f object).kind = .function (.closure closure) → object.kind = (f object).kind) :
    Heap.MadeOf made (heap.modify id f) := by
  intro other object closure hid hkind
  rw [Array.getElem?_modify] at hid
  split at hid
  · obtain ⟨object, hobject, rfl⟩ := Option.map_eq_some_iff.mp hid
    exact h other object closure hobject ((hf object closure hkind).trans hkind)
  · exact h other object closure hid hkind

end

/-- The second machine can come after the first in a run of a program whose functions are nodes of
the given kind. -/
structure Follows (made : Node → Prop) (m m' : Machine) : Prop extends SameContext m m' where
  scopes : m.scopes.Grow m'.scopes
  heap : m.heap.MadeOf made → m'.heap.MadeOf made

namespace Follows

variable {made : Node → Prop} {m m' m'' : Machine}

theorem refl (m : Machine) : Follows made m m := ⟨.refl m, .refl _, id⟩

theorem trans (h : Follows made m m') (h' : Follows made m' m'') : Follows made m m'' :=
  ⟨h.toSameContext.trans h'.toSameContext, h.scopes.trans h'.scopes, fun hm => h'.heap (h.heap hm)⟩

end Follows

def after {α : Type} (act : Run α) (m : Machine) : Machine :=
  match act m with
  | .ok _ m' | .error _ m' => m'

theorem after_bind {α β : Type} (x : Run α) (f : α → Run β) (m : Machine) :
    after (x >>= f) m =
      match x m with
      | .ok a m' => after (f a) m'
      | .error _ m' => m' := by
  simp only [after, bind, EStateM.bind]
  cases x m <;> rfl

/-- A run that only lets scopes grow, makes no functions but of the given nodes, and stays in its
context. -/
class Keeps (made : Node → Prop) {α : Type} (act : Run α) : Prop where
  keeps : ∀ m, Follows made m (after act m)

variable {made : Node → Prop}

namespace Keeps

variable {α β : Type}

theorem stays {act : Run α} (h : Keeps made act) (m : Machine) : SameContext m (after act m) :=
  (h.keeps m).toSameContext

theorem of_reading {act : Run α} (h : ∀ m, after act m = m) : Keeps made act :=
  ⟨fun m => (h m).symm ▸ .refl m⟩

theorem bind {x : Run α} {f : α → Run β} (hx : Keeps made x) (hf : ∀ a, Keeps made (f a)) :
    Keeps made (x >>= f) := by
  refine ⟨fun m => ?_⟩
  have hm := hx.keeps m
  rw [after_bind]
  rw [after] at hm
  cases h : x m with
  | ok a m' =>
    rw [h] at hm
    exact hm.trans ((hf a).keeps m')
  | error stop m' =>
    rw [h] at hm
    exact hm

instance (x : Run α) (f : α → Run β) [hx : Keeps made x] [hf : ∀ a, Keeps made (f a)] :
    Keeps made (x >>= f) :=
  hx.bind hf

instance (a : α) : Keeps made (pure a : Run α) := ⟨.refl⟩

instance (stop : Stop) : Keeps made (throw stop : Run α) := ⟨.refl⟩

instance : Keeps made (get : Run Machine) := ⟨.refl⟩

instance (c : Prop) [Decidable c] (x y : Run α) [hx : Keeps made x] [hy : Keeps made y] :
    Keeps made (if c then x else y) := by
  split
  · exact hx
  · exact hy

theorem mapM {f : α → Run β} (h : ∀ a, Keeps made (f a)) (xs : List α) : Keeps made (xs.mapM f) := by
  induction xs with
  | nil => exact inferInstanceAs (Keeps made (pure []))
  | cons x rest ih =>
    rw [List.mapM_cons]
    exact (h x).bind fun _ => ih.bind fun _ => inferInstance

theorem forM {f : α → Run PUnit} {xs : List α} (h : ∀ a ∈ xs, Keeps made (f a)) :
    Keeps made (xs.forM f) := by
  induction xs with
  | nil => exact inferInstanceAs (Keeps made (pure PUnit.unit : Run PUnit))
  | cons x rest ih =>
    exact (h x List.mem_cons_self).bind fun _ => ih fun a ha => h a (List.mem_cons_of_mem _ ha)

theorem allocate {object : Object}
    (h : ∀ closure, object.kind = .function (.closure closure) → made closure.function) :
    Keeps made (Machine.allocate object) :=
  ⟨fun _ => ⟨⟨rfl, rfl, rfl⟩, .refl _, fun hm => hm.push h⟩⟩

theorem modifyObject (id : ObjectId) {f : Object → Object}
    (h : ∀ object closure, (f object).kind = .function (.closure closure) → object.kind = (f object).kind) :
    Keeps made (Machine.modifyObject id f) :=
  ⟨fun _ => ⟨⟨rfl, rfl, rfl⟩, .refl _, fun hm => hm.modify id h⟩⟩

end Keeps

variable {α : Type}

instance (failure : Failure) : Keeps made (fail failure : Run α) := ⟨.refl⟩

instance (what : Unsupported) : Keeps made (unsupported what : Run α) := ⟨.refl⟩

instance (f : Heap → Option α) : Keeps made (convert f) :=
  .of_reading fun m => by grind [after, convert]

instance (value : Value) : Keeps made (display value) := inferInstanceAs (Keeps made (convert _))

instance (value : Value) : Keeps made (inspect value) := inferInstanceAs (Keeps made (convert _))

instance (value : Value) : Keeps made (toNumber value) := by
  unfold toNumber
  split <;> infer_instance

instance (value : Value) : Keeps made (toInt32 value) := inferInstanceAs (Keeps made (convert _))

instance (kind : ErrorClass) (message : String) : Keeps made (allocate (.ofError kind message)) :=
  .allocate nofun

instance (items : Array Value) : Keeps made (allocate (.ofItems items)) := .allocate nofun

instance (builtin : Builtin) : Keeps made (allocate (.ofBuiltin builtin)) := .allocate nofun

instance (properties : Properties) : Keeps made (allocate { kind := .plain, properties }) :=
  .allocate nofun

instance (kind : ErrorClass) (message : String) : Keeps made (raise kind message : Run α) := by
  unfold raise
  infer_instance

instance (value : Value) : Keeps made (callable? value) := ⟨.refl⟩

instance (value : Value) : Keeps made (typeName value) := ⟨.refl⟩

instance (line : String) : Keeps made (pushLog line) :=
  ⟨fun _ => ⟨⟨rfl, rfl, rfl⟩, .refl _, id⟩⟩

instance : Keeps made countIteration := by
  refine ⟨fun m => ?_⟩
  simp only [after, countIteration]
  split
  all_goals
    rename_i heq
    split at heq <;> cases heq
    exact ⟨⟨rfl, rfl, rfl⟩, .refl _, id⟩

instance (name : String) : Keeps made (lookup? name) := ⟨.refl⟩

instance (name : String) : Keeps made (lookup name) := by
  refine .bind inferInstance fun found => ?_
  cases found <;> infer_instance

instance (name : String) (value : Value) (isMutable : Bool) : Keeps made (declare name value isMutable) :=
  ⟨fun m => ⟨⟨rfl, rfl, rfl⟩, m.scopes.grow_modify m.scope (·.grows_declare name _), id⟩⟩

instance (name : String) : Keeps made (target name) :=
  .of_reading fun m => by grind [after, target]

instance (id : ScopeId) (name : String) (value : Value) : Keeps made (declareIn id name value) :=
  ⟨fun m => ⟨⟨rfl, rfl, rfl⟩, m.scopes.grow_modify id (·.grows_declare name _), fun hm => hm⟩⟩

instance (name : String) (value : Value) : Keeps made (assign name value) := by
  refine .bind inferInstance fun place => ?_
  split
  · infer_instance
  · exact .bind ⟨.refl⟩ fun _ => inferInstance
  · infer_instance

instance (name : String) (value : Value) : Keeps made (initialise name value) := by
  refine .bind inferInstance fun place => ?_
  split
  · infer_instance
  · exact .bind ⟨.refl⟩ fun _ => inferInstance
  · infer_instance

theorem Keeps.makeClosure {function : Node} (h : made function) :
    Keeps made (Machine.makeClosure function) := by
  refine .bind inferInstance fun m => .allocate fun closure hkind => ?_
  cases hkind
  exact h

instance (node : Node) : Keeps made (identifierName node) := by
  unfold identifierName
  split <;> infer_instance

instance (object : Value) (key : String) : Keeps made (getProperty object key) := by
  unfold getProperty
  split
  · infer_instance
  · infer_instance
  · infer_instance
  · infer_instance
  · infer_instance
  · refine .bind ⟨.refl⟩ fun found => ?_
    split <;> infer_instance

instance (id : ObjectId) (f : Array Value → Array Value) : Keeps made (modifyItems id f) := by
  refine .modifyObject id fun object closure hkind => ?_
  split at hkind
  · cases hkind
  · rfl

instance (id : ObjectId) (i : Nat) (value : Value) : Keeps made (assignItem id i value) := by
  unfold assignItem
  infer_instance

instance (id : ObjectId) (value : Value) : Keeps made (lengthNumber id value) := by
  unfold lengthNumber
  split <;> infer_instance

instance (id : ObjectId) (value : Value) : Keeps made (setLength id value) := by
  unfold setLength
  infer_instance

instance (object : Value) (key : String) (value : Value) : Keeps made (setProperty object key value) := by
  unfold setProperty
  split
  · infer_instance
  · infer_instance
  · rename_i id
    refine .bind inferInstance fun m => ?_
    have hplain : Keeps made (modifyObject id fun object =>
        { object with properties := object.properties.set key value }) :=
      .modifyObject id fun _ _ _ => rfl
    dsimp only
    split
    · split <;> infer_instance
    · infer_instance
  · infer_instance

instance (reference : Reference) : Keeps made reference.get := by
  unfold Reference.get
  split <;> infer_instance

instance (reference : Reference) (value : Value) : Keeps made (reference.put value) := by
  unfold Reference.put
  split <;> infer_instance

instance (reference : Reference) (delta : Float) : Keeps made (reference.step delta) := by
  unfold Reference.step
  infer_instance

instance (f : Float → Float → Float) (left right : Value) : Keeps made (onNumbers f left right) := by
  unfold onNumbers
  infer_instance

instance (f : Int32 → Int32 → Int32) (left right : Value) : Keeps made (onWords f left right) := by
  unfold onWords
  infer_instance

instance (left right : Value) : Keeps made (add left right) := by
  unfold add
  infer_instance

instance (test : Ordering → Bool) (left right : Value) : Keeps made (compareWith test left right) := by
  unfold compareWith
  infer_instance

instance (operator : Option Token.Kind) (left right : Value) :
    Keeps made (applyBinary operator left right) := by
  unfold applyBinary
  split <;> infer_instance

instance (operator : Option Token.Kind) (value : Value) : Keeps made (applyLeading operator value) := by
  unfold applyLeading
  split <;> infer_instance

instance (node : Node) : Keeps made (propertyKey node) := by
  unfold propertyKey
  split <;> infer_instance

instance (node : Node) : Keeps made (isUnbound node) := by
  unfold isUnbound
  infer_instance

theorem Keeps.evalBare {node : Node} (h : made node) (kind : Tree.Kind) :
    Keeps made (Machine.evalBare node kind) := by
  cases kind with
  | token kind => cases kind <;> exact ⟨.refl⟩
  | arrayLiteral => exact inferInstanceAs (Keeps made (Machine.allocate (.ofItems #[])))
  | objectLiteral => exact inferInstanceAs (Keeps made (Machine.allocate { kind := .plain }))
  | functionExpression | arrowFunction => exact .makeClosure h
  | _ => exact ⟨.refl⟩

instance (this : Value) (method : String) : Keeps made (thisArray this method) := by
  refine .bind inferInstance fun m => ?_
  split <;> infer_instance

instance (id : ObjectId) : Keeps made (itemsOf id) :=
  .of_reading fun m => by grind [after, itemsOf]

instance (id : ObjectId) : Keeps made (lengthOf id) :=
  .of_reading fun m => by grind [after, lengthOf]

instance (id : ObjectId) (i : Nat) : Keeps made (itemAt id i) :=
  .of_reading fun m => by grind [after, itemAt]

instance (items : Array Value) (separator : String) : Keeps made (joined items separator) := by
  unfold joined
  infer_instance

instance (length default : Nat) (value : Option Value) :
    Keeps made (relativeIndex length default value) := by
  unfold relativeIndex
  split <;> infer_instance

instance (args : List Value) : Keeps made (callbackOf args) := by
  refine .bind inferInstance fun callable => ?_
  split <;> infer_instance

instance (builtin : Builtin) (this : Value) (args : List Value) :
    Keeps made (applyBuiltin builtin this args) := by
  have : Keeps made (args.mapM inspect) := .mapM (fun _ => inferInstance) args
  unfold applyBuiltin
  split
  case h_7 =>
    -- The separator of `join` depends on the arguments.
    refine .bind inferInstance fun id => ?_
    dsimp only
    split <;> infer_instance
  case h_8 =>
    refine .bind inferInstance fun id => .bind inferInstance fun items => ?_
    split <;> infer_instance
  all_goals first | infer_instance | (split <;> infer_instance)

theorem Keeps.hoistFunctions {statements : List Node} (h : ∀ statement ∈ statements, made statement) :
    Keeps made (statements.forM hoistFunction) := by
  refine .forM fun statement hs => ?_
  unfold hoistFunction
  split
  · exact .bind inferInstance fun name => .bind (.makeClosure (h _ hs)) fun _ => inferInstance
  · infer_instance

theorem Keeps.hoist {statements : List Node} (h : ∀ statement ∈ statements, made statement) :
    Keeps made (Machine.hoist statements) :=
  .bind ⟨fun m => ⟨⟨rfl, rfl, rfl⟩, (m.scopes.declareVars_spec _ _).1, id⟩⟩ fun _ => .hoistFunctions h

def entered (m : Machine) : Machine :=
  { m with scope := (m.scopes.child m.scope false).1, scopes := (m.scopes.child m.scope false).2 }

def framed (outer : ScopeId) (this : Value) (m : Machine) : Machine :=
  { m with
    scope := (m.scopes.child outer true).1, scopes := (m.scopes.child outer true).2, this,
    depth := m.depth + 1 }

theorem after_inBlock (x : Run α) (m : Machine) :
    after (inBlock x) m = { after x m.entered with scope := m.scope } := by
  simp only [after, inBlock, entered]
  cases x _ <;> rfl

theorem after_inFrame (outer : ScopeId) (this : Value) (x : Run α) (m : Machine) :
    after (inFrame outer this x) m =
      { after x (m.framed outer this) with
        scope := m.scope, this := m.this, depth := (after x (m.framed outer this)).depth - 1 } := by
  simp only [after, inFrame, framed]
  cases x _ <;> rfl

theorem Follows.inBlock {x : Run α} {m : Machine} (h : Follows made m.entered (after x m.entered)) :
    Follows made m (after (inBlock x) m) := by
  rw [after_inBlock]
  exact ⟨⟨rfl, h.this, h.depth⟩, (m.scopes.grow_push _).trans h.scopes, h.heap⟩

/-- The depth is counted up and down, so it comes back only because the body brings it back. -/
theorem Follows.inFrame {outer : ScopeId} {this : Value} {x : Run α} {m : Machine}
    (h : Follows made (m.framed outer this) (after x (m.framed outer this))) :
    Follows made m (after (inFrame outer this x) m) := by
  rw [after_inFrame]
  exact ⟨⟨rfl, rfl, congrArg (· - 1) h.depth⟩, (m.scopes.grow_push _).trans h.scopes, h.heap⟩

end ArrayLoops.Machine
