import ArrayLoops.Lowering.Options
import ArrayLoops.Tree.Arena

/-!
# Calls that can be lowered

A call is lowered if it names an enabled operation, has one or two arguments and stands where it is
evaluated exactly once whenever its statement is run.
-/

namespace ArrayLoops.Lowering

open ArrayLoops.Tree (Arena Node)

structure CallSite where
  call : Node
  operation : Operation
  receiver : Node
  callback : Node
  extra : Option Node

/-- Places whose expressions are not evaluated exactly once with their statement. -/
inductive UnsafePlace where
  | conditional
  | logicalRight
  | loopTest
  | loopUpdate
  /-- The body of an arrow function, or the initial value of a parameter. -/
  | functionBoundary
  /-- A variable behind the first one declared: the ones before are not yet initialised. -/
  | laterDeclarator
  deriving DecidableEq, Repr

def UnsafePlace.title : UnsafePlace → String
  | .conditional => "Conditional"
  | .logicalRight => "LogicalRight"
  | .loopTest => "LoopTest"
  | .loopUpdate => "LoopUpdate"
  | .functionBoundary => "FunctionBoundary"
  | .laterDeclarator => "LaterDeclarator"

/-- Why a call is left as it is. -/
inductive Rejection where
  | notACall
  | notAMemberCall
  /-- The method is computed from something else than a string literal. -/
  | computedKey
  | unknownMethod
  | arity (count : Nat)
  | disabled (operation : Operation)
  | thisArgRejected (operation : Operation)
  | misplaced (place : UnsafePlace)
  deriving DecidableEq, Repr

def Rejection.title : Rejection → String
  | .notACall => "NotACall"
  | .notAMemberCall => "NotAMemberCall"
  | .computedKey => "ComputedKey"
  | .unknownMethod => "UnknownMethod"
  | .arity count => "Arity(" ++ toString count ++ ")"
  | .disabled operation => "Disabled(" ++ operation.title ++ ")"
  | .thisArgRejected operation => "ThisArgRejected(" ++ operation.title ++ ")"
  | .misplaced place => "Unsafe(" ++ place.title ++ ")"

namespace CallSite

/-- The receiver of a method and the name of the method. -/
def memberCallee : Node → Except Rejection (Node × String)
  | .mk _ (.access isComputed object key) =>
    match isComputed, key with
    | _, .absent => .error .notAMemberCall
    | false, .mk _ (.identifier name) => .ok (object, name)
    | false, _ => .error .notAMemberCall
    | true, .mk _ (.literal true text _ _) => .ok (object, text)
    | true, _ => .error .computedKey
  | _ => .error .notAMemberCall

def ofShape (options : Options) (call : Node) : Except Rejection CallSite := do
  match call with
  | .mk _ (.call false callee _ arguments) =>
    let (receiver, name) ← memberCallee callee
    match Operation.ofName? name with
    | none => throw .unknownMethod
    | some operation =>
      if !options.isEnabled operation then throw (.disabled operation)
      match arguments with
      | [callback] => return { call, operation, receiver, callback, extra := none }
      | [callback, extra] =>
        if operation.takesThis && options.thisArg == .reject then
          throw (.thisArgRejected operation)
        return { call, operation, receiver, callback, extra := some extra }
      | _ => throw (.arity arguments.length)
  | _ => throw .notACall

def isLaterDeclarator (arena : Arena) (declaration : Node) : Bool :=
  match arena.parent? declaration with
  | some (.mk _ (.variables _ (first :: _))) => !first.same declaration
  | _ => false

/-- What the place of `child` in `parent` says, before anything above is looked at: `none` if the
walk has to go on, and else its result. -/
def placeIn (arena : Arena) (child parent : Node) : Option (Option UnsafePlace) :=
  match parent with
  | .absent => some none
  | .mk _ shape =>
    match shape with
    | .conditional .. => some (some .conditional)
    | .function .. | .parameter .. => some (some .functionBoundary)
    | .loop _ _ condition update _ =>
      if condition.same child then some (some .loopTest)
      else if update.same child then some (some .loopUpdate)
      else some none
    | .variable .. =>
      if isLaterDeclarator arena parent then some (some .laterDeclarator) else none
    | .binary _ operator right =>
      if right.same child && operator.any Token.Kind.isLogical then some (some .logicalRight)
      else none
    | shape => if shape.kind.isStatement then some none else none

/-- The first unsafe place on the way from `child` up through `above`. -/
def unsafePlaceFrom (arena : Arena) (child : Node) : List Node → Option UnsafePlace
  | [] => none
  | parent :: above =>
    match placeIn arena child parent with
    | some result => result
    | none => unsafePlaceFrom arena parent above

def unsafePlace (arena : Arena) (expression : Node) : Option UnsafePlace :=
  unsafePlaceFrom arena expression (arena.ancestors expression)

def ofCall (arena : Arena) (options : Options) (call : Node) : Except Rejection CallSite := do
  let site ← ofShape options call
  match unsafePlace arena call with
  | some place => throw (.misplaced place)
  | none => return site

end CallSite

end ArrayLoops.Lowering
