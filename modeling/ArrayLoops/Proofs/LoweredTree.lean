import ArrayLoops.Lowering.Pass
import ArrayLoops.Proofs.Application

/-!
# Lowering as a transformation of trees

What a lowering makes of a node is made of what it makes of the parts: the generated statements that
go before the statement around the node, and what stands in the place of the node. The names are
given for every call by `Plan.naming`; `Plan.Named` says that they are the ones that a visit of the
tree gives out one after the other.

Every generated node carries the mark of the call it is made for.
-/

namespace ArrayLoops.Lowering

open ArrayLoops.Tree (Arena Info Node NodeId Shape)

structure Hoisted where
  code : Code
  node : Node

structure Piece where
  /-- What goes before the statement around the node, or before the node if it is a statement. -/
  pending : List Hoisted
  /-- What stands in the place of the node. -/
  node : Node
  /-- The node is a lowered call, in parentheses or not, or a statement that consists of one. -/
  isSettled : Bool := false

namespace Piece

/-- The piece as a statement in a list. A statement that consists of a lowered call goes. -/
def items (piece : Piece) : List Node :=
  piece.pending.map (·.node) ++
    if piece.isSettled || !piece.node.isPresent then [] else [piece.node]

/-- The piece in its places. `block` is what a block gets that is made for it. -/
def applied (block : Info) (piece : Piece) : Applied where
  node := piece.node
  items := piece.items
  embedded := if piece.pending.isEmpty then piece.node else .mk block (.block piece.items)

/-- What the parts of a node leave to the statement around it. Statements keep what is theirs, and
functions hold statements. -/
def pendingIn : Shape Piece → List Hoisted
  | .block _ | .file .. | .function .. => []
  | .branch condition _ _ => condition.pending
  | .loop _ initializer _ _ _ => initializer.pending
  | shape => shape.parts.flatMap (·.pending)

def isSettledIn : Shape Piece → Bool
  | .parenthesized expression | .evaluate expression => expression.isSettled
  | _ => false

/-- A node that is not lowered itself, made of the pieces of its parts. -/
def assemble (block : Info) (info : Info) (shape : Shape Piece) : Piece where
  pending := pendingIn shape
  node := .mk info (rebuild (shape.map (applied block)))
  isSettled := isSettledIn shape

end Piece

namespace CallSite

def loweredWith (site : CallSite) (names : Names) : LoweredCall :=
  let (skeleton, value) := ((fill site).run names).1
  { statements := skeleton.build.toOption.getD [], value }

def namesAfter (site : CallSite) (names : Names) : Names := ((fill site).run names).2

end CallSite

def objectOf : Node → Node
  | .mk _ (.access _ object _) => object
  | _ => .absent

def replacedIn (entries : List (Node × Node)) (node : Node) : Node :=
  match entries.find? fun entry => entry.1.same node with
  | some entry => entry.2
  | none => .absent

/-- A lowered call. What its callee leaves comes first, and what an argument leaves comes right
before the variable that the argument is put into. -/
def lowerSite (arena : Arena) (mark : Info) (id : NodeId) (site : CallSite) (lowered : LoweredCall)
    (callee : Piece) (arguments : List (Node × Piece)) : Piece :=
  let nodes := replacedIn ((site.receiver, objectOf callee.node) ::
    arguments.map fun argument => (argument.1, argument.2.node))
  let leftBy (code : Code) (argument : Node × Piece) : List Hoisted :=
    if code.captures argument.1 then argument.2.pending else []
  { pending := callee.pending ++ lowered.statements.flatMap fun code =>
      arguments.flatMap (leftBy code) ++ [⟨code, code.node mark nodes⟩]
    node := inPlace arena mark id nodes lowered.value
    isSettled := true }

structure Plan where
  arena : Arena
  options : Options
  naming : NodeId → Names
  mark : NodeId → Info

namespace Plan

variable (plan : Plan)

def site? (node : Node) (depth : Nat) : Option CallSite :=
  if Pass.maxDepth ≤ depth then none else (CallSite.ofCall plan.arena plan.options node).toOption

def lowerNode (info : Info) (shape : Shape (Node × (Nat → Piece))) (depth : Nat) : Piece :=
  match plan.site? (.mk info (shape.map (·.1))) depth, shape with
  | some site, .call _ callee _ arguments =>
    lowerSite plan.arena (plan.mark info.id) info.id site
      (site.loweredWith (plan.naming info.id)) (callee.2 (depth + 1))
      (arguments.map fun argument => (argument.1, argument.2 (depth + 1)))
  | _, shape =>
    .assemble (Directives.made plan.arena) info (shape.map fun part => part.2 (depth + 1))

def lower : Node → Nat → Piece :=
  Node.fold (fun _ => ⟨[], .absent, false⟩) plan.lowerNode

@[simp] theorem lower_absent (depth : Nat) : plan.lower .absent depth = ⟨[], .absent, false⟩ := rfl

theorem lower_mk (info : Info) (shape : Shape Node) (depth : Nat) :
    plan.lower (.mk info shape) depth =
      plan.lowerNode info (shape.map fun part => (part, plan.lower part)) depth := by
  rw [lower, Node.fold_mk]

variable {plan}

theorem lower_parts {info : Info} {shape : Shape Node} {depth : Nat}
    (hsite : plan.site? (.mk info shape) depth = none) :
    plan.lower (.mk info shape) depth =
      .assemble (Directives.made plan.arena) info
        (shape.map fun part => plan.lower part (depth + 1)) := by
  rw [lower_mk]
  unfold lowerNode
  simp only [Shape.map_map, Function.comp_def, Shape.map_self, hsite]

theorem lower_site {info : Info} {isNew isListed : Bool} {callee : Node} {arguments : List Node}
    {depth : Nat} {site : CallSite}
    (hsite : plan.site? (.mk info (.call isNew callee isListed arguments)) depth = some site) :
    plan.lower (.mk info (.call isNew callee isListed arguments)) depth =
      lowerSite plan.arena (plan.mark info.id) info.id site
        (site.loweredWith (plan.naming info.id)) (plan.lower callee (depth + 1))
        (arguments.map fun argument => (argument, plan.lower argument (depth + 1))) := by
  rw [lower_mk]
  unfold lowerNode
  simp only [Shape.map, List.map_map, Function.comp_def, List.map_id', hsite]

variable (plan)

def namesNode (info : Info) (shape : Shape (Node × (Nat → Names → Names))) (depth : Nat)
    (names : Names) : Names :=
  let inParts (names : Names) : Names :=
    shape.slots.foldl (fun names part => part.2 (depth + 1) names) names
  match plan.site? (.mk info (shape.map (·.1))) depth with
  | some site => site.namesAfter (inParts names)
  | none => if shape.kind.isFunction then (inParts names.enter).exit else inParts names

def namesAfter : Node → Nat → Names → Names :=
  Node.fold (fun _ names => names) plan.namesNode

def namesAfterAll (depth : Nat) (nodes : List Node) (names : Names) : Names :=
  nodes.foldl (fun names node => plan.namesAfter node depth names) names

@[simp] theorem namesAfter_absent (depth : Nat) (names : Names) :
    plan.namesAfter .absent depth names = names := rfl

theorem namesAfter_mk (info : Info) (shape : Shape Node) (depth : Nat) (names : Names) :
    plan.namesAfter (.mk info shape) depth names =
      match plan.site? (.mk info shape) depth with
      | some site => site.namesAfter (plan.namesAfterAll (depth + 1) shape.slots names)
      | none =>
        if shape.kind.isFunction then
          (plan.namesAfterAll (depth + 1) shape.slots names.enter).exit
        else plan.namesAfterAll (depth + 1) shape.slots names := by
  rw [namesAfter, Node.fold_mk]
  simp only [namesNode, Shape.slots_map, Shape.map_map, Shape.kind_map, List.foldl_map,
    Function.comp_def, Shape.map_self]
  rfl

def namesInside (shape : Shape Node) (names : Names) : Names :=
  if shape.kind.isFunction then names.enter else names

/-- Every call of a node at a depth is named with what is left when it is reached. -/
inductive Named (plan : Plan) : Node → Nat → Names → Prop where
  | absent {depth : Nat} {names : Names} : Named plan .absent depth names
  | mk {info : Info} {shape : Shape Node} {depth : Nat} {names : Names} :
    (∀ before part after, shape.slots = before ++ part :: after →
      Named plan part (depth + 1)
        (plan.namesAfterAll (depth + 1) before (namesInside shape names))) →
    (∀ site, plan.site? (.mk info shape) depth = some site →
      plan.naming info.id = plan.namesAfterAll (depth + 1) shape.slots names) →
    Named plan (.mk info shape) depth names

end Plan

end ArrayLoops.Lowering
