import ArrayLoops.Lowering.Directive
import ArrayLoops.Lowering.Lowered
import ArrayLoops.Tree.Walk

/-!
# The pass over a tree

The pass visits a tree, parts before wholes, and lowers every call that can be lowered. The loop of
a call goes before its statement, or in its place if the call is all of it. The loops of calls in an
argument of a lowered call go before the variable that the argument is put into, so that they run
behind the receiver; the calls in a function go to their own statements.
-/

namespace ArrayLoops.Lowering

open ArrayLoops.Tree (Arena Node Shape)

inductive Mode where
  | replaceStatement
  | hoistBefore
  deriving DecidableEq, Repr

def Mode.name : Mode → String
  | .replaceStatement => "replaceStatement"
  | .hoistBefore => "hoistBefore"

structure Change where
  operation : Operation
  pos : Nat
  fin : Nat
  mode : Mode
  deriving DecidableEq, Repr

structure Pass.State where
  directives : Directives
  /-- The calls lowered so far, last one first. -/
  changes : List Change
  names : Names
  /-- The loops made in each open argument of a lowered call; `none` for an open function. The
  innermost comes first. -/
  captures : List (Option (List Code))

namespace Pass

abbrev Step := StateT State (Except LoweringError)

/-- Nodes at this depth or deeper are not visited. -/
def maxDepth : Nat := 500

def inFunction (visit : Step Unit) : Step Unit := do
  modify fun s => { s with names := s.names.enter, captures := none :: s.captures }
  visit
  modify fun s => { s with names := s.names.exit, captures := s.captures.tail }

/-- Visits an argument and takes the loops of the calls in it. -/
def capturing (visit : Step Unit) : Step (List Code) := do
  modify fun s => { s with captures := some [] :: s.captures }
  visit
  modifyGet fun s => ((s.captures.head?.join).getD [], { s with captures := s.captures.tail })

def insertAt (position : Nat) (statements codes : List Code) : List Code :=
  codes.take position ++ statements ++ codes.drop position

/-- Puts an entry before those with an earlier position, and behind all others. Filled in this
order, later positions come first and earlier ones stay valid. -/
def insertByPosition (entry : Nat × List Code) : List (Nat × List Code) → List (Nat × List Code)
  | [] => [entry]
  | other :: rest =>
    if other.1 < entry.1 then entry :: other :: rest
    else other :: insertByPosition entry rest

/-- Puts the loops of each argument right before the variable that the argument is put into. -/
def placeNested (pos : Nat) (lowered : LoweredCall) (nested : List (Node × List Code)) :
    Except LoweringError (List Code) := do
  let placed ← nested.mapM fun (argument, statements) =>
    match lowered.capturePosition argument with
    | some position => .ok (position, statements)
    | none => .error (.noCapture pos)
  let ordered := placed.foldl (fun entries entry => insertByPosition entry entries) []
  return ordered.foldl (fun codes entry => insertAt entry.1 entry.2 codes) lowered.statements

def isWholeStatement (statement call : Node) : Bool :=
  match statement with
  | .mk _ (.evaluate expression) => expression.unwrapped.same call
  | _ => false

/-- Records the loop and the value of a call. -/
def record (statement call : Node) (lowered : LoweredCall) (s : State) : Mode × State :=
  let statementId := statement.id?.getD 0
  let callId := call.id?.getD 0
  match s.captures with
  | some pending :: captures =>
    (.hoistBefore,
      { s with
        directives := s.directives.substitute callId lowered.value
        captures := some (pending ++ lowered.statements) :: captures })
  | _ =>
    if isWholeStatement statement call then
      (.replaceStatement,
        { s with directives := s.directives.replaceStatement statementId lowered.statements })
    else
      (.hoistBefore,
        { s with
          directives := (s.directives.spliceBefore statementId lowered.statements).substitute
            callId lowered.value })

def lowerCall (arena : Arena) (site : CallSite) (nested : List (Node × List Code)) : Step Unit := do
  let (pos, fin) := site.call.range?.getD (0, 0)
  if !site.receiver.isPresent || !site.callback.isPresent then
    throw (.missingPart pos)
  match arena.enclosingStatement site.call with
  | none => throw (.noStatement pos)
  | some statement =>
    let (lowered, names) ← site.lower (← get).names
    let statements ← placeNested pos lowered nested
    modify fun s =>
      let (mode, s) := record statement site.call { lowered with statements } { s with names }
      { s with changes := { operation := site.operation, pos, fin, mode } :: s.changes }

abbrev Visit := Nat → Step Unit

def visitParts (shape : Shape (Node × Visit)) : Visit := fun depth =>
  shape.slots.forM fun part => part.2 depth

/-- Visits a call that can be lowered: the callee, then each argument, then the call itself. -/
def visitSite (arena : Arena) (site : CallSite) (callee : Visit) (arguments : List (Node × Visit)) :
    Visit := fun depth => do
  callee depth
  let nested ← arguments.mapM fun (argument, visit) => do
    return (argument, ← capturing (visit depth))
  lowerCall arena site (nested.filter fun entry => !entry.2.isEmpty)

/-- Visits a node, given the visits of its parts. -/
def visitNode (arena : Arena) (options : Options) (info : Tree.Info) (shape : Shape (Node × Visit)) :
    Visit := fun depth =>
  if maxDepth ≤ depth then return
  else
    match shape with
    | .call false callee _ arguments =>
      match CallSite.ofCall arena options (.mk info (shape.map (·.1))) with
      | .ok site => visitSite arena site callee.2 arguments (depth + 1)
      | .error _ => visitParts shape (depth + 1)
    | shape =>
      if shape.kind.isFunction then inFunction (visitParts shape (depth + 1))
      else visitParts shape (depth + 1)

def visit (arena : Arena) (options : Options) : Node → Visit :=
  Node.fold (fun _ => return) (visitNode arena options)

end Pass

structure PassResult where
  directives : Directives
  changes : List Change

def runPass (arena : Arena) (options : Options) (root : Node) : Except LoweringError PassResult := do
  let names := Names.ofReserved root.identifierNames
  let ((), s) ← (Pass.visit arena options root 0).run ⟨.empty, [], names, []⟩
  return { directives := s.directives, changes := s.changes.reverse }

end ArrayLoops.Lowering
