import ArrayLoops.Machine.Call
import ArrayLoops.Proofs.Context
import ArrayLoops.Proofs.Tree

/-!
# Steps in two monads

A step of the machine is put together from runs, from scopes and from what it is given to go on
with. So a relation between computations of two monads that is kept by all of these relates the
steps in the one to the steps in the other. Of the runs nothing matters here but that they keep to
what runs of a program do.
-/

namespace ArrayLoops.Machine

open ArrayLoops.Tree (Node Shape)

attribute [local simp] Shape.parts

def nested : Node → List Node
  | .mk _ (.block statements) => statements
  | .mk _ (.branch _ thenBranch elseBranch) => [thenBranch, elseBranch]
  | .mk _ (.loop _ _ _ _ body) => [body]
  | _ => []

theorem nested_subset (node : Node) : nested node ⊆ node.parts := by
  unfold nested
  split <;> simp [Node.parts]

def isCall : Node → Bool
  | .mk _ (.call ..) => true
  | _ => false

def declaredLists : Node → List Node
  | .mk _ (.variables true lists) => lists
  | .mk _ (.loop .for initializer _ _ _) => [initializer]
  | _ => []

/-- A list of variables declares one for the whole function. -/
def DeclaresVar (list : Node) (text : String) : Prop :=
  ∃ info isStatement declarations other name value,
    list = .mk info (.variables isStatement declarations) ∧ info.flags.isBlockScoped = false ∧
      .mk other (.variable name value) ∈ declarations ∧ name.name? = some text

/-- A relation between computations of two monads that is kept when they are put together. -/
structure Agreement (μ ν : Type → Type) [Stepping μ] [Stepping ν] where
  rel {α : Type} : μ α → ν α → Prop
  made : Node → Prop := fun _ => True
  initialised : String → Prop := fun _ => True
  pure {α : Type} (a : α) : rel (pure a) (pure a)
  bind {α β : Type} {x : μ α} {y : ν α} {f : α → μ β} {g : α → ν β} :
    rel x y → (∀ a, rel (f a) (g a)) → rel (x >>= f) (y >>= g)
  lift {α : Type} (act : Run α) [Keeps made act] : rel (liftM act) (liftM act)
  inBlock {α : Type} {x : μ α} {y : ν α} :
    rel x y → rel (Stepping.inBlock x) (Stepping.inBlock y)
  initialise {name : String} {x : μ Value} {y : ν Value} :
    initialised name → rel x y → rel (Stepping.initialise name x) (Stepping.initialise name y)

namespace Agreement

variable {μ ν : Type → Type} [Stepping μ] [Stepping ν] (C : Agreement μ ν)
  {r : Recursion μ} {s : Recursion ν}

/-- Two machines agree on the expressions in a node. -/
def OnExpressions (r : Recursion μ) (s : Recursion ν) (node : Node) : Prop :=
  ∀ inner, inner.Within node → C.rel (r.eval inner) (s.eval inner)

variable {C}

theorem OnExpressions.within {inner node : Node} (h : C.OnExpressions r s node)
    (hw : inner.Within node) : C.OnExpressions r s inner :=
  fun innermost hi => h innermost (hi.trans hw)

theorem OnExpressions.self {node : Node} (h : C.OnExpressions r s node) :
    C.rel (r.eval node) (s.eval node) :=
  h node .self

theorem ite {α : Type} {c : Prop} [Decidable c] {x x' : μ α} {y y' : ν α} (h : C.rel x y)
    (h' : C.rel x' y') : C.rel (if c then x else x') (if c then y else y') := by
  split
  · exact h
  · exact h'

theorem mapM_loop {α β : Type} {f : α → μ β} {g : α → ν β} {xs : List α} (done : List β)
    (h : ∀ x ∈ xs, C.rel (f x) (g x)) :
    C.rel (List.mapM.loop f xs done) (List.mapM.loop g xs done) := by
  induction xs generalizing done with
  | nil => exact C.pure _
  | cons x rest ih =>
    refine C.bind (h x List.mem_cons_self) fun b => ?_
    exact ih _ fun y hy => h y (List.mem_cons_of_mem _ hy)

theorem forM {α : Type} {f : α → μ PUnit} {g : α → ν PUnit} {xs : List α}
    (h : ∀ x ∈ xs, C.rel (f x) (g x)) : C.rel (xs.forM f) (xs.forM g) := by
  induction xs with
  | nil => exact C.pure _
  | cons x rest ih =>
    refine C.bind (h x List.mem_cons_self) fun _ => ?_
    exact ih fun y hy => h y (List.mem_cons_of_mem _ hy)

theorem evalAll {nodes : List Node} (h : ∀ node ∈ nodes, C.rel (r.eval node) (s.eval node)) :
    C.rel (Machine.evalAll r nodes) (Machine.evalAll s nodes) :=
  mapM_loop [] h

theorem evalMember {node : Node} (h : ∀ part ∈ node.parts, C.rel (r.eval part) (s.eval part)) :
    C.rel (Machine.evalMember r node) (Machine.evalMember s node) := by
  unfold Machine.evalMember
  split
  · rename_i isComputed object key
    refine C.bind (h object (by simp [Node.parts])) fun value => ?_
    refine ite (C.bind (h key (by simp [Node.parts])) fun key => ?_) ?_
    · exact C.bind (C.lift _) fun _ => C.pure _
    · exact C.bind (C.lift _) fun _ => C.pure _
  · exact C.lift _

theorem evalReference {node : Node} (h : C.OnExpressions r s node) :
    C.rel (Machine.evalReference r node) (Machine.evalReference s node) := by
  have hmember : C.rel (Machine.evalMember r node.unwrapped)
      (Machine.evalMember s node.unwrapped) :=
    evalMember fun part hp => h part ((Node.Within.of_part hp).trans (Node.unwrapped_within node))
  simp only [Machine.evalReference]
  split
  · exact C.lift _
  · exact C.bind (C.lift _) fun _ => C.pure _
  · exact C.bind hmember fun _ => C.pure _
  · exact C.bind hmember fun _ => C.pure _
  · exact C.lift _

theorem evalCall {callee : Node} {arguments : List Node} (hcallee : C.OnExpressions r s callee)
    (hcall : ∀ function this, C.rel (Machine.evalAll r arguments >>= r.call function this)
      (Machine.evalAll s arguments >>= s.call function this)) :
    C.rel (Machine.evalCall r callee arguments) (Machine.evalCall s callee arguments) := by
  simp only [Machine.evalCall]
  refine ite ?_ ?_
  · have hmember : C.rel (Machine.evalMember r callee.unwrapped)
        (Machine.evalMember s callee.unwrapped) :=
      evalMember fun part hp =>
        hcallee part ((Node.Within.of_part hp).trans (Node.unwrapped_within callee))
    refine C.bind hmember fun place => ?_
    obtain ⟨object, key⟩ := place
    refine C.bind (C.lift _) fun method => C.bind (C.lift _) fun callable => ?_
    cases callable with
    | none => exact C.bind (C.lift _) fun _ => C.lift _
    | some _ => exact hcall _ _
  · exact C.bind hcallee.self fun function => hcall _ _

theorem construct {callee : Value} {args : List Value}
    (h : ∀ this, C.rel (r.call callee this args) (s.call callee this args)) :
    C.rel (Machine.construct r callee args) (Machine.construct s callee args) := by
  simp only [Machine.construct]
  refine C.bind (C.lift _) fun callable => ?_
  split
  · exact h _
  · refine C.bind (C.lift _) fun made => C.bind (h _) fun result => ?_
    split
    · exact C.pure _
    · exact C.pure _
  · exact C.bind (C.lift _) fun _ => C.lift _

theorem evalProperties {elements : List Node} {properties : Properties}
    (h : ∀ element ∈ elements, C.OnExpressions r s element) :
    C.rel (Machine.evalProperties r elements properties)
      (Machine.evalProperties s elements properties) := by
  induction elements generalizing properties with
  | nil => exact C.pure _
  | cons element rest ih =>
    have hrest : ∀ properties, C.rel (Machine.evalProperties r rest properties)
        (Machine.evalProperties s rest properties) :=
      fun _ => ih fun other ho => h other (List.mem_cons_of_mem _ ho)
    unfold Machine.evalProperties
    split
    · contradiction
    · rename_i name value _ heq
      obtain ⟨rfl, rfl⟩ := List.cons.inj heq
      have hparts := fun part hp => h _ List.mem_cons_self part (.part hp .self)
      refine C.bind (C.lift _) fun key => C.bind ?_ fun value => hrest _
      split
      · exact hparts value (by simp)
      · exact hparts name (by simp)
    · rename_i heq
      obtain ⟨rfl, rfl⟩ := List.cons.inj heq
      exact hrest _

theorem evalLeading {operator : Option Token.Kind} {operand : Node}
    (h : C.OnExpressions r s operand) :
    C.rel (Machine.evalLeading r operator operand) (Machine.evalLeading s operator operand) := by
  unfold Machine.evalLeading
  split
  · refine C.bind (C.lift _) fun unbound => ite (C.pure _) ?_
    exact C.bind h.self fun value => C.bind (C.lift _) fun _ => C.pure _
  · exact C.bind (evalReference h) fun reference => C.bind (C.lift _) fun _ => C.pure _
  · exact C.bind (evalReference h) fun reference => C.bind (C.lift _) fun _ => C.pure _
  · exact C.bind h.self fun value => C.lift _

theorem evalTrailing {operator : Option Token.Kind} {operand : Node}
    (h : C.OnExpressions r s operand) :
    C.rel (Machine.evalTrailing r operator operand) (Machine.evalTrailing s operator operand) :=
  C.bind (evalReference h) fun _ => C.bind (C.lift _) fun _ => C.pure _

theorem evalBinary {left right : Node} {operator : Option Token.Kind}
    (hl : C.OnExpressions r s left) (hr : C.rel (r.eval right) (s.eval right)) :
    C.rel (Machine.evalBinary r left operator right) (Machine.evalBinary s left operator right) := by
  unfold Machine.evalBinary
  split
  · exact C.bind hl.self fun value => ite hr (C.pure _)
  · exact C.bind hl.self fun value => ite (C.pure _) hr
  · exact C.bind hl.self fun value => ite hr (C.pure _)
  · exact C.bind hl.self fun _ => hr
  · refine C.bind (evalReference hl) fun reference => C.bind hr fun value => ?_
    exact C.bind (C.lift _) fun _ => C.pure _
  · split
    · refine C.bind (evalReference hl) fun reference => C.bind (C.lift _) fun old => ?_
      refine C.bind hr fun new => C.bind (C.lift _) fun value => ?_
      exact C.bind (C.lift _) fun _ => C.pure _
    · exact C.bind hl.self fun x => C.bind hr fun y => C.lift _

/-- An expression is evaluated alike if the expressions below it are, and calls run alike if it is
one. -/
theorem evalStep {node : Node} (hmade : C.made node)
    (h : ∀ part ∈ node.parts, C.OnExpressions r s part)
    (hcall : isCall node → ∀ callee this args, C.rel (r.call callee this args) (s.call callee this args)) :
    C.rel (Machine.evalStep r node) (Machine.evalStep s node) := by
  cases node with
  | absent => exact C.pure _
  | mk info shape =>
    simp only [Node.parts] at h
    have hparts := fun part hp => (h part hp).self
    cases shape with
    | bare kind =>
      have := Keeps.evalBare hmade kind
      exact C.lift _
    | identifier text => exact C.lift _
    | literal isString text raw value => cases isString <;> exact C.pure _
    | binary left operator right =>
      exact evalBinary (h left (by simp)) (hparts right (by simp))
    | unary isTrailing operator operand =>
      have hoperand := h operand (by simp)
      cases isTrailing with
      | false => exact evalLeading hoperand
      | true => exact evalTrailing hoperand
    | call isNew callee isListed arguments =>
      have hcallee := h callee (by simp)
      have harguments : C.rel (Machine.evalAll r arguments) (Machine.evalAll s arguments) :=
        evalAll fun node hn => hparts node (by simp [hn])
      cases isNew with
      | false => exact evalCall hcallee fun _ _ => C.bind harguments (hcall rfl _ _)
      | true =>
        refine C.bind hcallee.self fun function => C.bind harguments fun args => ?_
        exact construct fun this => hcall rfl _ _ _
    | access isComputed object key =>
      exact C.bind (evalMember hparts) fun _ => C.lift _
    | conditional condition whenTrue whenFalse =>
      refine C.bind (hparts condition (by simp)) fun value => ite ?_ ?_
      · exact hparts whenTrue (by simp)
      · exact hparts whenFalse (by simp)
    | collection isObject elements =>
      cases isObject with
      | false => exact C.bind (evalAll hparts) fun _ => C.lift _
      | true => exact C.bind (evalProperties h) fun _ => C.lift _
    | parenthesized expression => exact hparts expression (by simp)
    | function form name parameters body =>
      have := Keeps.makeClosure hmade
      cases form <;> exact C.lift _
    | _ => exact C.lift _

theorem execInOrder {statements : List Node}
    (h : ∀ statement ∈ statements, C.rel (r.exec statement) (s.exec statement)) :
    C.rel (Machine.execInOrder r statements) (Machine.execInOrder s statements) := by
  induction statements with
  | nil => exact C.pure _
  | cons statement rest ih =>
    have hrest := ih fun other ho => h other (List.mem_cons_of_mem _ ho)
    refine C.bind (h _ List.mem_cons_self) fun completion => ?_
    cases completion with
    | finished => exact hrest
    | _ => exact C.pure _

theorem execAll {statements : List Node} (hmade : ∀ statement ∈ statements, C.made statement)
    (h : ∀ statement ∈ statements, C.rel (r.exec statement) (s.exec statement)) :
    C.rel (Machine.execAll r statements) (Machine.execAll s statements) :=
  have := Keeps.hoist hmade
  C.bind (C.lift _) fun _ => execInOrder h

theorem declareVariables {flags : Tree.Flags} {declarations : List Node}
    (h : ∀ declaration ∈ declarations, C.OnExpressions r s declaration)
    (hd : flags.isBlockScoped = false → ∀ info name value, .mk info (.variable name value) ∈ declarations →
      ∀ text, name.name? = some text → C.initialised text) :
    C.rel (Machine.declareVariables r flags declarations)
      (Machine.declareVariables s flags declarations) := by
  induction declarations with
  | nil => exact C.pure _
  | cons declaration rest ih =>
    have hrest := ih (fun other ho => h other (List.mem_cons_of_mem _ ho))
      fun hf info name value hm => hd hf info name value (List.mem_cons_of_mem _ hm)
    unfold Machine.declareVariables
    split
    · contradiction
    · rename_i name value _ heq
      obtain ⟨rfl, rfl⟩ := List.cons.inj heq
      have hvalue : C.rel (r.eval value) (s.eval value) :=
        h _ List.mem_cons_self value (.part (by simp) .self)
      split
      · rename_i text htext
        split
        · exact C.bind hvalue fun value => C.bind (C.lift _) fun _ => hrest
        · rename_i hf
          refine ite (C.bind (C.initialise ?_ hvalue) fun _ => hrest) hrest
          exact hd (by simpa using hf) _ name value List.mem_cons_self text htext
      · exact C.lift _
    · rename_i heq
      obtain ⟨rfl, rfl⟩ := List.cons.inj heq
      exact hrest

theorem declareList {list : Node} (h : C.OnExpressions r s list)
    (hd : ∀ text, DeclaresVar list text → C.initialised text) :
    C.rel (Machine.declareList r list) (Machine.declareList s list) := by
  unfold Machine.declareList
  split
  · refine declareVariables (fun declaration hm => h.within (.part hm .self)) ?_
    exact fun hf info name value hm text ht =>
      hd text ⟨_, _, _, info, name, value, rfl, hf, hm, ht⟩
  · exact C.pure _

theorem execBody {body : Node} (h : C.rel (r.exec body) (s.exec body)) :
    C.rel (Machine.execBody r body) (Machine.execBody s body) := by
  refine C.bind (C.lift _) fun _ => C.bind h fun completion => ?_
  cases completion <;> exact C.pure _

theorem holds {condition : Node} (h : C.rel (r.eval condition) (s.eval condition)) :
    C.rel (Machine.holds r condition) (Machine.holds s condition) :=
  ite (C.bind h fun _ => C.pure _) (C.pure _)

theorem execTurns {test : μ Bool} {test' : ν Bool} {body update : Node} (count : Nat)
    (htest : C.rel test test') (hbody : C.rel (r.exec body) (s.exec body))
    (hupdate : update.isPresent → C.rel (r.eval update) (s.eval update)) :
    C.rel (Machine.execTurns r test body update count)
      (Machine.execTurns s test' body update count) := by
  induction count with
  | zero => exact C.lift _
  | succ count ih =>
    refine C.bind htest fun holds => ite ?_ (C.pure _)
    refine C.bind (execBody hbody) fun ending => ?_
    cases ending with
    | some completion => exact C.pure _
    | none =>
      dsimp only
      split
      · exact C.bind (hupdate ‹_›) fun _ => ih
      · exact ih

theorem execFor {initializer condition update body : Node}
    (hi : C.OnExpressions r s initializer)
    (hd : ∀ text, DeclaresVar initializer text → C.initialised text)
    (hc : C.rel (r.eval condition) (s.eval condition))
    (hu : C.rel (r.eval update) (s.eval update)) (hb : C.rel (r.exec body) (s.exec body)) :
    C.rel (Machine.execFor r initializer condition update body)
      (Machine.execFor s initializer condition update body) := by
  have hturns := execTurns turnBound (holds hc) hb fun _ => hu
  exact ite (C.bind (declareList hi hd) fun _ => hturns) (C.bind hi.self fun _ => hturns)

theorem execWhile {condition body : Node} (hc : C.rel (r.eval condition) (s.eval condition))
    (hb : C.rel (r.exec body) (s.exec body)) :
    C.rel (Machine.execWhile r condition body) (Machine.execWhile s condition body) :=
  execTurns turnBound (C.bind hc fun _ => C.pure _) hb nofun

theorem execDoWhile {condition body : Node} (hc : C.rel (r.eval condition) (s.eval condition))
    (hb : C.rel (r.exec body) (s.exec body)) :
    C.rel (Machine.execDoWhile r condition body) (Machine.execDoWhile s condition body) := by
  refine C.bind (execBody hb) fun ending => ?_
  cases ending with
  | some completion => exact C.pure _
  | none => exact execWhile hc hb

theorem execBare {kind : Tree.Kind} :
    C.rel (Machine.execBare r kind) (Machine.execBare s kind) := by
  have hempty : C.rel (Machine.execAll r []) (Machine.execAll s []) := execAll (by simp) (by simp)
  unfold Machine.execBare
  split
  · exact C.inBlock hempty
  · exact C.pure _
  · exact C.pure _
  · exact C.pure _
  · exact C.lift _
  · exact C.inBlock (C.pure _)
  all_goals first | exact C.pure _ | exact C.lift _

/-- A statement is run alike if the expressions below it are evaluated alike, and the statements that
it runs are run alike. -/
theorem execStep {node : Node} (h : ∀ part ∈ node.parts, C.OnExpressions r s part)
    (hmade : ∀ part ∈ nested node, C.made part)
    (hexec : ∀ part ∈ nested node, C.rel (r.exec part) (s.exec part))
    (hd : ∀ list ∈ declaredLists node, ∀ text, DeclaresVar list text → C.initialised text) :
    C.rel (Machine.execStep r node) (Machine.execStep s node) := by
  cases node with
  | absent => exact C.pure _
  | mk info shape =>
    simp only [Node.parts] at h
    have heval := fun part hp => (h part hp).self
    cases shape with
    | block statements => exact C.inBlock (execAll hmade hexec)
    | «variables» isStatement lists =>
      cases isStatement with
      | false => exact C.lift _
      | true =>
        exact C.bind (forM fun list hl => declareList (h list hl) (hd list hl)) fun _ => C.pure _
    | function form name parameters body =>
      cases form with
      | declaration => exact C.pure _
      | _ => exact C.lift _
    | evaluate expression =>
      exact C.bind (heval expression (by simp)) fun _ => C.pure _
    | exit isThrow value =>
      have hvalue := heval value (by simp)
      cases isThrow with
      | false => exact C.bind hvalue fun _ => C.pure _
      | true => exact C.bind hvalue fun _ => C.lift _
    | branch condition thenBranch elseBranch =>
      refine C.bind (heval condition (by simp)) fun value => ite ?_ ?_
      · exact hexec thenBranch (by simp [nested])
      · exact hexec elseBranch (by simp [nested])
    | loop form initializer condition update body =>
      have hi := h initializer (by simp)
      have hc := heval condition (by simp)
      have hu := heval update (by simp)
      have hb := hexec body (by simp [nested])
      cases form with
      | «for» => exact C.inBlock (execFor hi (hd initializer (by simp [declaredLists])) hc hu hb)
      | «while» => exact execWhile hc hb
      | doWhile => exact execDoWhile hc hb
    | bare kind => exact execBare
    | _ => exact C.lift _

variable {call : Call μ} {call' : Call ν}

theorem iterate {σ : Type} {id : ObjectId} {receiver callback thisArg : Value}
    {visit : σ → Nat → Value → Value → σ × Bool}
    (h : ∀ item x, C.rel (call callback thisArg [item, .number x, receiver])
      (call' callback thisArg [item, .number x, receiver]))
    (count i : Nat) (acc : σ) :
    C.rel (Machine.iterate call id receiver callback thisArg visit count i acc)
      (Machine.iterate call' id receiver callback thisArg visit count i acc) := by
  induction count generalizing i acc with
  | zero => exact C.pure _
  | succ count ih =>
    refine C.bind (C.lift _) fun item => ?_
    cases item with
    | none => exact ih _ _
    | some item => exact C.bind (h _ _) fun result => ite (ih _ _) (C.pure _)

theorem reduceFrom {id : ObjectId} {receiver callback : Value}
    (h : ∀ args, C.rel (call callback .undefined args) (call' callback .undefined args))
    (count i : Nat) (acc : Value) :
    C.rel (Machine.reduceFrom call id receiver callback count i acc)
      (Machine.reduceFrom call' id receiver callback count i acc) := by
  induction count generalizing i acc with
  | zero => exact C.pure _
  | succ count ih =>
    refine C.bind (C.lift _) fun item => ?_
    cases item with
    | none => exact ih _ _
    | some item => exact C.bind (h _) fun acc => ih _ _

theorem reduceArray {this : Value} {args : List Value}
    (h : ∀ callee this args, C.rel (call callee this args) (call' callee this args)) :
    C.rel (Machine.reduceArray call this args) (Machine.reduceArray call' this args) := by
  unfold Machine.reduceArray
  refine C.bind (C.lift _) fun id => C.bind (C.lift _) fun callback => C.bind (C.lift _) fun length => ?_
  split
  · exact reduceFrom (h _ _) _ _ _
  · refine C.bind (C.lift _) fun first => ?_
    split
    · exact reduceFrom (h _ _) _ _ _
    · exact C.lift _

theorem iterateArray {operation : Lowering.Operation} {this : Value} {args : List Value}
    (h : ∀ callee this args, C.rel (call callee this args) (call' callee this args)) :
    C.rel (Machine.iterateArray call operation this args)
      (Machine.iterateArray call' operation this args) := by
  unfold Machine.iterateArray
  refine C.bind (C.lift _) fun id => C.bind (C.lift _) fun callback => C.bind (C.lift _) fun length => ?_
  split
  · exact C.bind (iterate (fun _ _ => h _ _ _) _ _ _) fun items => C.lift _
  · exact C.bind (iterate (fun _ _ => h _ _ _) _ _ _) fun items => C.lift _
  all_goals exact C.bind (iterate (fun _ _ => h _ _ _) _ _ _) fun _ => C.pure _

theorem callBuiltin {builtin : Builtin} {this : Value} {args : List Value}
    (h : ∀ callee this args, C.rel (call callee this args) (call' callee this args)) :
    C.rel (Machine.callBuiltin call builtin this args) (Machine.callBuiltin call' builtin this args) := by
  unfold Machine.callBuiltin
  split
  · exact h _ _ _
  · exact reduceArray h
  · exact iterateArray h
  · exact C.lift _

end Agreement

namespace Agreement

variable {μ ν : Type → Type} [Calling μ] [Calling ν] {C : Agreement μ ν} {r : Recursion μ}
  {s : Recursion ν}

theorem bindParameters {parameters : List Node} {args : List Value}
    (h : ∀ parameter ∈ parameters, C.OnExpressions r s parameter) :
    C.rel (Machine.bindParameters r parameters args) (Machine.bindParameters s parameters args) := by
  induction parameters generalizing args with
  | nil => exact C.pure _
  | cons parameter rest ih =>
    have hrest := @ih args.tail fun other ho => h other (List.mem_cons_of_mem _ ho)
    unfold Machine.bindParameters
    split
    · contradiction
    · rename_i initializer _ heq
      obtain ⟨rfl, rfl⟩ := List.cons.inj heq
      have hvalue := h _ List.mem_cons_self initializer (.part (by simp) .self)
      refine ite (C.bind hvalue fun value => ?_) (C.bind (C.pure _) fun value => ?_)
      all_goals exact C.bind (C.lift _) fun name => C.bind (C.lift _) fun _ => hrest
    · rename_i heq
      obtain ⟨rfl, rfl⟩ := List.cons.inj heq
      exact ih fun other ho => h other (List.mem_cons_of_mem _ ho)

theorem withRoom {α : Type} {x : μ α} {y : ν α} (h : C.rel x y) :
    C.rel (Machine.withRoom x) (Machine.withRoom y) :=
  C.bind (C.lift _) fun _ => ite (C.lift _) h

end Agreement

/-- An agreement that is kept, too, when a function of the program is entered if there is room. -/
structure CallAgreement (μ ν : Type → Type) [Calling μ] [Calling ν] extends Agreement μ ν where
  all_made (node : Node) : made node := by exact fun _ => trivial
  all_initialised (text : String) : initialised text := by exact fun _ => trivial
  inFrame {α : Type} {outer : ScopeId} {this : Value} {x : μ α} {y : ν α} : rel x y →
    rel (withRoom (Calling.inFrame outer this x)) (withRoom (Calling.inFrame outer this y))

namespace CallAgreement

variable {μ ν : Type → Type} [Calling μ] [Calling ν] (C : CallAgreement μ ν)
  {r : Recursion μ} {s : Recursion ν}

/-- Two machines agree on all there is. -/
structure Everywhere (r : Recursion μ) (s : Recursion ν) : Prop where
  eval : ∀ node, C.rel (r.eval node) (s.eval node)
  exec : ∀ node, C.rel (r.exec node) (s.exec node)
  call : ∀ callee this args, C.rel (r.call callee this args) (s.call callee this args)

variable {C}

theorem Everywhere.onExpressions (h : C.Everywhere r s) (node : Node) : C.OnExpressions r s node :=
  fun inner _ => h.eval inner

theorem runBody {isExpression : Bool} {body : Node} (h : C.Everywhere r s) :
    C.rel (Machine.runBody r isExpression body) (Machine.runBody s isExpression body) := by
  unfold Machine.runBody
  refine Agreement.ite (h.eval body) ?_
  split
  · refine C.bind (Agreement.execAll (fun _ _ => C.all_made _) fun statement _ => h.exec statement)
      fun completion => ?_
    split <;> exact C.pure _
  · exact C.pure _

theorem callClosure {closure : Closure} {this : Value} {args : List Value} (h : C.Everywhere r s) :
    C.rel (Machine.callClosure r closure this args) (Machine.callClosure s closure this args) := by
  unfold Machine.callClosure
  split
  · exact Agreement.withRoom (C.pure _)
  · exact C.inFrame (C.bind (Agreement.bindParameters fun node _ => h.onExpressions node) fun _ => runBody h)
  · exact Agreement.withRoom (C.lift _)

theorem callStep {callee this : Value} {args : List Value} (h : C.Everywhere r s) :
    C.rel (Machine.callStep r callee this args) (Machine.callStep s callee this args) := by
  refine C.bind (C.lift _) fun callable => ?_
  split
  · exact Agreement.callBuiltin h.call
  · exact callClosure h
  · exact C.bind (C.lift _) fun _ => C.lift _

theorem Everywhere.step (h : C.Everywhere r s) :
    C.Everywhere ⟨Machine.evalStep r, Machine.execStep r, Machine.callStep r⟩
      ⟨Machine.evalStep s, Machine.execStep s, Machine.callStep s⟩ where
  eval _ := Agreement.evalStep (C.all_made _) (fun part _ => h.onExpressions part) fun _ => h.call
  exec _ := Agreement.execStep (fun part _ => h.onExpressions part) (fun _ _ => C.all_made _)
    (fun part _ => h.exec part) fun _ _ _ _ => C.all_initialised _
  call _ _ _ := callStep h

end CallAgreement

theorem madeOf_start (made : Node → Prop) : start.heap.MadeOf made := by
  have hheap : start.heap = (globals.map fun entry => Object.ofBuiltin entry.2).toArray := rfl
  intro id object closure hid hkind
  rw [hheap, List.getElem?_toArray] at hid
  obtain ⟨entry, -, rfl⟩ := List.mem_map.mp (List.mem_of_getElem? hid)
  cases hkind

end ArrayLoops.Machine
