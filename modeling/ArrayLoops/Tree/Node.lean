import ArrayLoops.Tree.Kind

/-!
# Syntax trees

A node carries its number, its range in the source and a shape. The shape says which construct the
node is and has one place for each part of the construct; a part that the source leaves out is an
absent node. `Node.fold` is the one recursion over trees on which most others are built.
-/

namespace ArrayLoops.Tree

abbrev NodeId := Nat

structure Flags where
  isLet : Bool := false
  isConst : Bool := false
  hasError : Bool := false
  expressionBody : Bool := false
  optionalChain : Bool := false
  deriving DecidableEq, Repr, Inhabited

namespace Flags

def toNat (flags : Flags) : Nat :=
  flags.isLet.toNat + 2 * flags.isConst.toNat + 4 * flags.hasError.toNat +
    8 * flags.expressionBody.toNat + 16 * flags.optionalChain.toNat

/-- The five lowest bits of a number; the others mean nothing. -/
def ofNat (n : Nat) : Flags :=
  ⟨n.testBit 0, n.testBit 1, n.testBit 2, n.testBit 3, n.testBit 4⟩

def union (a b : Flags) : Flags :=
  ⟨a.isLet || b.isLet, a.isConst || b.isConst, a.hasError || b.hasError,
    a.expressionBody || b.expressionBody, a.optionalChain || b.optionalChain⟩

def isBlockScoped (flags : Flags) : Bool := flags.isLet || flags.isConst

theorem ofNat_toNat (flags : Flags) : ofNat flags.toNat = flags := by
  obtain ⟨a, b, c, d, e⟩ := flags
  cases a <;> cases b <;> cases c <;> cases d <;> cases e <;> rfl

end Flags

structure Info where
  id : NodeId
  pos : Nat
  fin : Nat
  flags : Flags := {}
  deriving DecidableEq, Repr, Inhabited

inductive FunctionForm where
  | declaration | expression | arrow
  deriving DecidableEq, Repr

inductive LoopForm where
  | for | while | doWhile
  deriving DecidableEq, Repr

/-- A construct with its parts of type `α`. An operator that is no token is `none`. -/
inductive Shape (α : Type) where
  /-- A node that says nothing but its kind. -/
  | bare (kind : Kind)
  | identifier (text : String)
  | literal (isString : Bool) (text raw : String) (value : Option Float)
  | binary (left : α) (operator : Option Token.Kind) (right : α)
  | unary (isTrailing : Bool) (operator : Option Token.Kind) (operand : α)
  /-- `isListed` says whether an argument list is written. -/
  | call (isNew : Bool) (callee : α) (isListed : Bool) (arguments : List α)
  | access (isComputed : Bool) (object key : α)
  | conditional (condition whenTrue whenFalse : α)
  | collection (isObject : Bool) (elements : List α)
  | property (name initializer : α)
  | parenthesized (expression : α)
  | function (form : FunctionForm) (name : α) (parameters : List α) (body : α)
  | parameter (name initializer : α)
  | block (statements : List α)
  | variables (isStatement : Bool) (declarations : List α)
  | variable (name initializer : α)
  | evaluate (expression : α)
  | exit (isThrow : Bool) (expression : α)
  | branch (condition thenBranch elseBranch : α)
  | loop (form : LoopForm) (initializer condition update body : α)
  | file (name : String) (statements : List α)

inductive Node where
  | absent
  | mk (info : Info) (shape : Shape Node)
  deriving Inhabited

namespace Shape

variable {α β γ : Type}

def kind : Shape α → Kind
  | .bare kind => kind
  | .identifier _ => .token .identifier
  | .literal isString .. => .token (if isString then .string else .number)
  | .binary .. => .binary
  | .unary isTrailing .. => if isTrailing then .postfixed else .prefixed
  | .call isNew .. => if isNew then .new else .call
  | .access isComputed .. => if isComputed then .elementAccess else .propertyAccess
  | .conditional .. => .conditional
  | .collection isObject _ => if isObject then .objectLiteral else .arrayLiteral
  | .property .. => .property
  | .parenthesized _ => .parenthesized
  | .function .declaration .. => .functionDeclaration
  | .function .expression .. => .functionExpression
  | .function .arrow .. => .arrowFunction
  | .parameter .. => .parameter
  | .block _ => .block
  | .variables isStatement _ => if isStatement then .variableStatement else .variableList
  | .variable .. => .variable
  | .evaluate _ => .expressionStatement
  | .exit isThrow _ => if isThrow then .throwStatement else .returnStatement
  | .branch .. => .ifStatement
  | .loop .for .. => .forStatement
  | .loop .while .. => .whileStatement
  | .loop .doWhile .. => .doStatement
  | .file .. => .file

def parts : Shape α → List α
  | .bare _ | .identifier _ | .literal .. => []
  | .binary left _ right => [left, right]
  | .unary _ _ operand => [operand]
  | .call _ callee _ arguments => callee :: arguments
  | .access _ object key => [object, key]
  | .conditional condition whenTrue whenFalse => [condition, whenTrue, whenFalse]
  | .collection _ elements => elements
  | .property name initializer => [name, initializer]
  | .parenthesized expression => [expression]
  | .function _ name parameters body => name :: parameters ++ [body]
  | .parameter name initializer => [name, initializer]
  | .block statements => statements
  | .variables _ declarations => declarations
  | .variable name initializer => [name, initializer]
  | .evaluate expression => [expression]
  | .exit _ expression => [expression]
  | .branch condition thenBranch elseBranch => [condition, thenBranch, elseBranch]
  | .loop _ initializer condition update body => [initializer, condition, update, body]
  | .file _ statements => statements

/-- The parts in the order in which the source writes them. A loop that tests at its end has a body
and a condition only. -/
def slots : Shape α → List α
  | .loop .doWhile _ condition _ body => [body, condition]
  | shape => shape.parts

def map (f : α → β) : Shape α → Shape β
  | .bare kind => .bare kind
  | .identifier text => .identifier text
  | .literal isString text raw value => .literal isString text raw value
  | .binary left operator right => .binary (f left) operator (f right)
  | .unary isTrailing operator operand => .unary isTrailing operator (f operand)
  | .call isNew callee isListed arguments => .call isNew (f callee) isListed (arguments.map f)
  | .access isComputed object key => .access isComputed (f object) (f key)
  | .conditional condition whenTrue whenFalse =>
    .conditional (f condition) (f whenTrue) (f whenFalse)
  | .collection isObject elements => .collection isObject (elements.map f)
  | .property name initializer => .property (f name) (f initializer)
  | .parenthesized expression => .parenthesized (f expression)
  | .function form name parameters body => .function form (f name) (parameters.map f) (f body)
  | .parameter name initializer => .parameter (f name) (f initializer)
  | .block statements => .block (statements.map f)
  | .variables isStatement declarations => .variables isStatement (declarations.map f)
  | .variable name initializer => .variable (f name) (f initializer)
  | .evaluate expression => .evaluate (f expression)
  | .exit isThrow expression => .exit isThrow (f expression)
  | .branch condition thenBranch elseBranch =>
    .branch (f condition) (f thenBranch) (f elseBranch)
  | .loop form initializer condition update body =>
    .loop form (f initializer) (f condition) (f update) (f body)
  | .file name statements => .file name (statements.map f)

@[simp] theorem map_map (g : β → γ) (f : α → β) (shape : Shape α) :
    (shape.map f).map g = shape.map (g ∘ f) := by
  cases shape <;> simp [map]

@[simp] theorem kind_map (f : α → β) (shape : Shape α) : (shape.map f).kind = shape.kind := by
  cases shape with
  | function form _ _ _ => cases form <;> rfl
  | loop form _ _ _ _ => cases form <;> rfl
  | _ => rfl

@[simp] theorem parts_map (f : α → β) (shape : Shape α) :
    (shape.map f).parts = shape.parts.map f := by
  cases shape <;> simp [map, parts]

@[simp] theorem slots_map (f : α → β) (shape : Shape α) :
    (shape.map f).slots = shape.slots.map f := by
  cases shape with
  | loop form _ _ _ _ => cases form <;> simp [map, slots, parts]
  | _ => simp [map, slots, parts]

end Shape

namespace Node

def isPresent : Node → Bool
  | .absent => false
  | .mk .. => true

@[simp] theorem absent_isPresent : absent.isPresent = false := rfl

def info? : Node → Option Info
  | .absent => none
  | .mk info _ => some info

def id? (node : Node) : Option NodeId := node.info?.map (·.id)

def kind? : Node → Option Kind
  | .absent => none
  | .mk _ shape => some shape.kind

def isKind (node : Node) (kind : Kind) : Bool := node.kind? == some kind

def isStatement (node : Node) : Bool := node.kind?.any Kind.isStatement

def isFunction (node : Node) : Bool := node.kind?.any Kind.isFunction

def flags (node : Node) : Flags := (node.info?.map (·.flags)).getD {}

def range? (node : Node) : Option (Nat × Nat) := node.info?.map fun info => (info.pos, info.fin)

/-- Whether two references lead to the same node, or both to none. -/
def same (a b : Node) : Bool := a.id? == b.id?

def parts : Node → List Node
  | .absent => []
  | .mk _ shape => shape.parts

def children : Node → List Node
  | .absent => []
  | .mk _ shape => shape.slots.filter isPresent

def name? : Node → Option String
  | .mk _ (.identifier text) => some text
  | _ => none

mutual
def fold {β : Type} (absent : β) (step : Info → Shape (Node × β) → β) : Node → β
  | .absent => absent
  | .mk info shape => step info (foldShape absent step shape)
def foldShape {β : Type} (absent : β) (step : Info → Shape (Node × β) → β) :
    Shape Node → Shape (Node × β)
  | .bare kind => .bare kind
  | .identifier text => .identifier text
  | .literal isString text raw value => .literal isString text raw value
  | .binary left operator right =>
    .binary (left, left.fold absent step) operator (right, right.fold absent step)
  | .unary isTrailing operator operand =>
    .unary isTrailing operator (operand, operand.fold absent step)
  | .call isNew callee isListed arguments =>
    .call isNew (callee, callee.fold absent step) isListed (foldList absent step arguments)
  | .access isComputed object key =>
    .access isComputed (object, object.fold absent step) (key, key.fold absent step)
  | .conditional condition whenTrue whenFalse =>
    .conditional (condition, condition.fold absent step) (whenTrue, whenTrue.fold absent step)
      (whenFalse, whenFalse.fold absent step)
  | .collection isObject elements => .collection isObject (foldList absent step elements)
  | .property name initializer =>
    .property (name, name.fold absent step) (initializer, initializer.fold absent step)
  | .parenthesized expression => .parenthesized (expression, expression.fold absent step)
  | .function form name parameters body =>
    .function form (name, name.fold absent step) (foldList absent step parameters)
      (body, body.fold absent step)
  | .parameter name initializer =>
    .parameter (name, name.fold absent step) (initializer, initializer.fold absent step)
  | .block statements => .block (foldList absent step statements)
  | .variables isStatement declarations =>
    .variables isStatement (foldList absent step declarations)
  | .variable name initializer =>
    .variable (name, name.fold absent step) (initializer, initializer.fold absent step)
  | .evaluate expression => .evaluate (expression, expression.fold absent step)
  | .exit isThrow expression => .exit isThrow (expression, expression.fold absent step)
  | .branch condition thenBranch elseBranch =>
    .branch (condition, condition.fold absent step) (thenBranch, thenBranch.fold absent step)
      (elseBranch, elseBranch.fold absent step)
  | .loop form initializer condition update body =>
    .loop form (initializer, initializer.fold absent step) (condition, condition.fold absent step)
      (update, update.fold absent step) (body, body.fold absent step)
  | .file name statements => .file name (foldList absent step statements)
def foldList {β : Type} (absent : β) (step : Info → Shape (Node × β) → β) :
    List Node → List (Node × β)
  | [] => []
  | node :: rest => (node, node.fold absent step) :: foldList absent step rest
end

theorem foldList_eq {β : Type} (absent : β) (step : Info → Shape (Node × β) → β)
    (nodes : List Node) :
    foldList absent step nodes = nodes.map fun node => (node, node.fold absent step) := by
  induction nodes with
  | nil => rfl
  | cons node rest ih => simp [foldList, ih]

theorem foldShape_eq {β : Type} (absent : β) (step : Info → Shape (Node × β) → β)
    (shape : Shape Node) :
    foldShape absent step shape = shape.map fun node => (node, node.fold absent step) := by
  cases shape <;> simp [foldShape, Shape.map, foldList_eq]

@[simp] theorem fold_absent {β : Type} (absent : β) (step : Info → Shape (Node × β) → β) :
    fold absent step .absent = absent := rfl

/-- The equation by which folds are reasoned about. -/
theorem fold_mk {β : Type} (absent : β) (step : Info → Shape (Node × β) → β) (info : Info)
    (shape : Shape Node) :
    fold absent step (.mk info shape) =
      step info (shape.map fun node => (node, node.fold absent step)) := by
  rw [fold, foldShape_eq]

end Node

end ArrayLoops.Tree
