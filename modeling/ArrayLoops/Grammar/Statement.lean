import ArrayLoops.Grammar.Expression

/-!
# Statements

The productions for statements, with the same conventions as those for expressions.
-/

namespace ArrayLoops.Grammar

open ArrayLoops.Tree (Flags Node)

/-- Statements up to a closing token, the end of the file or the point where the parse gives up. A
token at which no statement begins is passed. Statements are collected last one first. -/
def statementsOnto (close : Token.Kind) (self : Productions) :
    Nat → List Node → Parse (List Node)
  | 0, statements => do
    exhaust
    return statements.reverse
  | n + 1, statements => do
    let k ← kind
    if (← check State.exceeded) || k == close || k == .endOfFile then
      return statements.reverse
    let pos ← here
    let statement ← self .statement
    if (← here) == pos && (← kind) != .endOfFile then
      advance
    statementsOnto close self n (if statement.isPresent then statement :: statements else statements)

def statementList (n : Nat) (close : Token.Kind) (self : Productions) : Parse (List Node) :=
  statementsOnto close self n []

def block (n : Nat) (self : Productions) : Parse Node := do
  let pos ← here
  discard (expect .openBrace)
  let statements ← statementList n .closeBrace self
  discard (expect .closeBrace)
  node pos (.block statements)

def declaration (self : Productions) : Parse Node := do
  let pos ← here
  let name ← bindingName
  let value ← initializer self
  node pos (.variable name value)

/-- Declarations with commas between them; here no comma follows the last. -/
def declarationsOnto (self : Productions) : Nat → List Node → Parse (List Node)
  | 0, declarations => do
    exhaust
    return declarations.reverse
  | n + 1, declarations => do
    let declarations := (← declaration self) :: declarations
    if ← accept .comma then declarationsOnto self n declarations
    else return declarations.reverse

def declarationFlags : Token.Kind → Flags
  | .letWord => { isLet := true }
  | .constWord => { isConst := true }
  | _ => {}

def variableList (n : Nat) (self : Productions) : Parse Node := do
  let token ← current
  advance
  let declarations ← declarationsOnto self n []
  node token.start (.variables false declarations) (declarationFlags token.kind)

def variableStatement (n : Nat) (self : Productions) : Parse Node := do
  let pos ← here
  let list ← variableList n self
  endStatement
  node pos (.variables true [list])

def functionDeclaration (n : Nat) (self : Productions) : Parse Node := do
  let pos ← here
  discard (expect .functionWord)
  let name ← bindingName
  let parameters ← parameterList n self
  let body ← self .block
  node pos (.function .declaration name parameters body)

def condition (self : Productions) : Parse Node := do
  discard (expect .openParen)
  let expression ← self .expression
  discard (expect .closeParen)
  return expression

def ifStatement (self : Productions) : Parse Node := do
  let pos ← here
  discard (expect .ifWord)
  let test ← condition self
  let thenBranch ← self .statement
  let elseBranch ← if ← accept .elseWord then self .statement else pure .absent
  node pos (.branch test thenBranch elseBranch)

def optionalExpression (self : Productions) (close : Token.Kind) : Parse Node := do
  if (← kind) == close then return .absent
  else self .expression

def forStatement (n : Nat) (self : Productions) : Parse Node := do
  let pos ← here
  discard (expect .forWord)
  discard (expect .openParen)
  let start ← match ← kind with
    | .varWord | .letWord | .constWord => variableList n self
    | _ => optionalExpression self .semicolon
  let token ← current
  if token.kind == .inWord || (token.kind == .identifier && token.value == "of") then
    complain .forInOrOf
  discard (expect .semicolon)
  let test ← optionalExpression self .semicolon
  discard (expect .semicolon)
  let update ← optionalExpression self .closeParen
  discard (expect .closeParen)
  let body ← self .statement
  node pos (.loop .for start test update body)

def whileStatement (self : Productions) : Parse Node := do
  let pos ← here
  discard (expect .whileWord)
  let test ← condition self
  let body ← self .statement
  node pos (.loop .while .absent test .absent body)

/-- The body stands before the condition; a semicolon may follow and need not. -/
def doStatement (self : Productions) : Parse Node := do
  let pos ← here
  discard (expect .doWord)
  let body ← self .statement
  discard (expect .whileWord)
  let test ← condition self
  discard (accept .semicolon)
  node pos (.loop .doWhile .absent test .absent body)

def returnStatement (self : Productions) : Parse Node := do
  let pos ← here
  advance
  let value ← if ← check State.canEndStatement then pure .absent else self .expression
  endStatement
  node pos (.exit false value)

def throwStatement (self : Productions) : Parse Node := do
  let pos ← here
  advance
  if (← current).lineBreakBefore then
    complain .lineBreakAfterThrow
  let value ← self .expression
  endStatement
  node pos (.exit true value)

/-- A word that leaves or continues a loop; a label behind it is complained about. -/
def jump (k : Tree.Kind) : Parse Node := do
  let pos ← here
  advance
  let token ← current
  if token.kind == .identifier && !token.lineBreakBefore then
    complain .label
    advance
  endStatement
  node pos (.bare k)

def emptyStatement : Parse Node := do
  let pos ← here
  advance
  node pos (.bare .emptyStatement)

def expressionStatement (self : Productions) : Parse Node := do
  let pos ← here
  let expression ← self .expression
  endStatement
  node pos (.evaluate expression)

def statementInside (n : Nat) (self : Productions) : Parse Node := do
  match ← kind with
  | .openBrace => self .block
  | .varWord | .constWord => variableStatement n self
  | .letWord =>
    if ← check State.startsLet then variableStatement n self
    else noStatement
  | .functionWord => functionDeclaration n self
  | .ifWord => ifStatement self
  | .forWord => forStatement n self
  | .whileWord => whileStatement self
  | .doWord => doStatement self
  | .returnWord => returnStatement self
  | .throwWord => throwStatement self
  | .breakWord => jump .breakStatement
  | .continueWord => jump .continueStatement
  | .semicolon => emptyStatement
  | _ =>
    if ← check State.startsExpression then expressionStatement self
    else noStatement
where
  noStatement : Parse Node := do
    complain .statementExpected
    return .absent

def statement (n : Nat) (self : Productions) : Parse Node := do
  if ← enter then
    let result ← statementInside n self
    leave 1
    return result
  else
    return .absent

def produce (n : Nat) (self : Productions) : Productions
  | .statement => statement n self
  | .block => block n self
  | .expression => expression n self
  | .assignment => assignment n self
  | .binary least => binary n self least
  | .unary => unary n self
  | .new => newExpression n self

/-- The productions with at most `n` of them open inside each other. -/
def productions : Nat → Productions
  | 0, _ => do
    exhaust
    return .absent
  | n + 1, goal => produce n (productions n) goal

end ArrayLoops.Grammar
