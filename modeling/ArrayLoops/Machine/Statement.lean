import ArrayLoops.Machine.Expression

/-!
# Statements

One step of the execution of a statement. Before the statements of a list are run, the variables
declared in them with `var` and the functions declared among them are bound.
-/

namespace ArrayLoops.Machine

open ArrayLoops.Tree (LoopForm Node)

def declaredNames (names : List String) (declarations : List Node) : List String :=
  declarations.foldl (fun names declaration =>
    match declaration with
    | .mk _ (.variable (.mk _ (.identifier name)) _) => name :: names
    | _ => names) names

mutual
/-- The variables declared with `var` in a statement, but not in functions, added to `names` in
reverse. -/
def varNamesOnto (names : List String) : Node → List String
  | .mk info (.variables isStatement declarations) =>
    if isStatement then varNamesOfAll names declarations
    else if info.flags.isBlockScoped then names
    else declaredNames names declarations
  | .mk _ (.block statements) => varNamesOfAll names statements
  | .mk _ (.branch _ thenBranch elseBranch) =>
    varNamesOnto (varNamesOnto names thenBranch) elseBranch
  | .mk _ (.loop _ initializer _ _ body) => varNamesOnto (varNamesOnto names initializer) body
  | _ => names
def varNamesOfAll (names : List String) : List Node → List String
  | [] => names
  | node :: rest => varNamesOfAll (varNamesOnto names node) rest
end

def varNames (statements : List Node) : List String := (varNamesOfAll [] statements).reverse

def hoistFunction (statement : Node) : Run Unit :=
  match statement with
  | .mk _ (.function .declaration name _ _) => do
    let name ← identifierName name
    let closure ← makeClosure statement
    declare name closure true
  | _ => return

/-- Binds what the statements of a list declare for all of it. -/
def hoist (statements : List Node) : Run Unit := do
  modify fun m =>
    let id := m.scopes.functionScope m.scope
    let names := varNames statements
    { m with scopes := names.foldl (fun scopes name => scopes.declareVar id name) m.scopes }
  statements.forM hoistFunction

variable {μ : Type → Type} [Stepping μ]

/-- Runs statements in order until one does not just finish. -/
@[specialize]
def execInOrder (r : Recursion μ) : List Node → μ Completion
  | [] => return .finished
  | statement :: rest => do
    match ← r.exec statement with
    | .finished => execInOrder r rest
    | completion => return completion

@[specialize]
def execAll (r : Recursion μ) (statements : List Node) : μ Completion := do
  hoist statements
  execInOrder r statements

/-- Declares the variables of a list one after the other. Those of the block are bound anew, those
of the function are bound already and get their initial values. -/
@[specialize]
def declareVariables (r : Recursion μ) (flags : Tree.Flags) : List Node → μ Unit
  | [] => return
  | .mk _ (.variable name value) :: rest => do
    let some name := name.name? | unsupported .bindingPattern
    if flags.isBlockScoped then
      let value ← r.eval value
      declare name value !flags.isConst
    else if value.isPresent then
      Stepping.initialise name (r.eval value)
    declareVariables r flags rest
  | _ :: rest => declareVariables r flags rest

@[specialize]
def declareList (r : Recursion μ) : Node → μ Unit
  | .mk info (.variables _ declarations) => declareVariables r info.flags declarations
  | _ => return

/-- Runs the body of a loop once; the result says how the loop ends, if it does. -/
@[specialize]
def execBody (r : Recursion μ) (body : Node) : μ (Option Completion) := do
  countIteration
  match ← r.exec body with
  | .finished | .continued => return none
  | .broken => return some .finished
  | .returned value => return some (.returned value)

@[specialize]
def holds (r : Recursion μ) (condition : Node) : μ Bool := do
  if condition.isPresent then
    return (← r.eval condition).isTruthy
  else return true

/-- Turns of a loop: condition, body, update. `n` bounds the turns, which are counted anyway. -/
@[specialize]
def execTurns (r : Recursion μ) (test : μ Bool) (body update : Node) : Nat → μ Completion
  | 0 => fail .loopLimit
  | n + 1 => do
    if ← test then
      match ← execBody r body with
      | some completion => return completion
      | none =>
        if update.isPresent then
          let _ ← r.eval update
        execTurns r test body update n
    else return .finished

/-- More turns than all loops together can take. -/
def turnBound : Nat := maxIterations + 2

@[specialize]
def execFor (r : Recursion μ) (initializer condition update body : Node) : μ Completion := do
  if initializer.isKind .variableList then
    declareList r initializer
  else
    let _ ← r.eval initializer
  execTurns r (holds r condition) body update turnBound

@[specialize]
def execWhile (r : Recursion μ) (condition body : Node) : μ Completion :=
  execTurns r (do return (← r.eval condition).isTruthy) body .absent turnBound

/-- Like `execWhile`, but the first turn comes without a test. -/
@[specialize]
def execDoWhile (r : Recursion μ) (condition body : Node) : μ Completion := do
  match ← execBody r body with
  | some completion => return completion
  | none => execWhile r condition body

/-- Runs a node that says nothing but its kind. -/
@[specialize]
def execBare (r : Recursion μ) (kind : Tree.Kind) : μ Completion :=
  match kind with
  | .block => Stepping.inBlock (execAll r [])
  | .breakStatement => return .broken
  | .continueStatement => return .continued
  | .returnStatement => return .returned .undefined
  | .throwStatement => (throw (.thrown .undefined) : Run Completion)
  | .forStatement => Stepping.inBlock (return .finished)
  | .variableStatement | .functionDeclaration | .emptyStatement | .expressionStatement
  | .ifStatement | .whileStatement | .doStatement => return .finished
  | _ => unsupported .statementKind

/-- Runs a statement. A missing one does nothing. -/
@[specialize]
def execStep (r : Recursion μ) (node : Node) : μ Completion :=
  match node with
  | .absent => return .finished
  | .mk _ shape =>
    match shape with
    | .block statements => Stepping.inBlock (execAll r statements)
    | .variables true lists => do
      lists.forM (declareList r)
      return .finished
    | .function .declaration .. => return .finished
    | .evaluate expression => do
      let _ ← r.eval expression
      return .finished
    | .exit false value => do return .returned (← r.eval value)
    | .exit true value => do
      let value ← r.eval value
      (throw (.thrown value) : Run Completion)
    | .branch condition thenBranch elseBranch => do
      let value ← r.eval condition
      if value.isTruthy then r.exec thenBranch else r.exec elseBranch
    | .loop .for initializer condition update body =>
      Stepping.inBlock (execFor r initializer condition update body)
    | .loop .while _ condition _ body => execWhile r condition body
    | .loop .doWhile _ condition _ body => execDoWhile r condition body
    | .bare kind => execBare r kind
    | _ => unsupported .statementKind

end ArrayLoops.Machine
