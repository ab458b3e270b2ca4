import ArrayLoops.Grammar.State
import ArrayLoops.Number.Reading

/-!
# Expressions

The productions for expressions. A production gets a bound on its loops and the other productions;
each turn of a loop passes a token, so the bound is never met when it exceeds the number of tokens.
If it were, the state would say so.
-/

namespace ArrayLoops.Grammar

open ArrayLoops.Tree (Node)

def identifierOf (text : Token → String) : Parse Node := do
  let token ← current
  advance
  node token.start (.identifier (text token))

def identifier : Parse Node := identifierOf (·.value)

/-- The name of a property: reserved words are names too. -/
def propertyName : Parse Node := do
  if (← kind) == .identifier then identifier
  else if (← kind).isReservedWord then identifierOf (·.text)
  else missingBecause .identifierExpected

def bindingName : Parse Node := do
  match ← kind with
  | .identifier => identifier
  | .openBrace | .openBracket => missingBecause .destructuring
  | _ => missingBecause .identifierExpected

def literal : Parse Node := do
  let token ← current
  advance
  let isString := token.kind == .string
  let value := if isString then none else Number.ofLiteral? token.value
  node token.start (.literal isString token.value token.text value)

def wordExpression : Parse Node := do
  let token ← current
  advance
  node token.start (.bare (.token token.kind))

/-- Items with commas between them, up to a closing token or the end of the file. A comma may
follow the last item. Items are collected last one first. -/
def itemsOnto (close : Token.Kind) (item : Parse Node) : Nat → List Node → Parse (List Node)
  | 0, items => do
    exhaust
    return items.reverse
  | n + 1, items => do
    let k ← kind
    if k == close || k == .endOfFile then
      return items.reverse
    let items := (← item) :: items
    if ← accept .comma then itemsOnto close item n items
    else return items.reverse

def items (n : Nat) (close : Token.Kind) (item : Parse Node) : Parse (List Node) :=
  itemsOnto close item n []

/-- The elements of an array literal. A comma where an element is due is complained about and
passed. -/
def elementsOnto (item : Parse Node) : Nat → List Node → Parse (List Node)
  | 0, items => do
    exhaust
    return items.reverse
  | n + 1, items => do
    match ← kind with
    | .closeBracket | .endOfFile => return items.reverse
    | .comma =>
      complain .arrayHole
      advance
      elementsOnto item n items
    | _ =>
      let items := (← item) :: items
      if ← accept .comma then elementsOnto item n items
      else return items.reverse

def argumentList (n : Nat) (self : Productions) : Parse (List Node) := do
  discard (expect .openParen)
  let arguments ← items n .closeParen (self .assignment)
  discard (expect .closeParen)
  return arguments

def initializer (self : Productions) : Parse Node := do
  if ← accept .assign then self .assignment
  else return .absent

def parameter (self : Productions) : Parse Node := do
  let pos ← here
  let name ← bindingName
  let value ← initializer self
  node pos (.parameter name value)

def parameterList (n : Nat) (self : Productions) : Parse (List Node) := do
  if ← expect .openParen then
    let parameters ← items n .closeParen (parameter self)
    discard (expect .closeParen)
    return parameters
  else
    return []

def parenthesized (self : Productions) : Parse Node := do
  let pos ← here
  discard (expect .openParen)
  let expression ← self .expression
  discard (expect .closeParen)
  node pos (.parenthesized expression)

def arrayLiteral (n : Nat) (self : Productions) : Parse Node := do
  let pos ← here
  discard (expect .openBracket)
  let elements ← elementsOnto (self .assignment) n []
  discard (expect .closeBracket)
  node pos (.collection false elements)

/-- A name with a value behind a colon, or a name alone. -/
def property (self : Productions) : Parse Node := do
  let pos ← here
  let named ← check State.atName
  let name ← match ← kind with
    | .string | .number => literal
    | _ => if named then propertyName else missingBecause .propertyExpected
  if ← accept .colon then
    let value ← self .assignment
    node pos (.property name value)
  else
    unless named do
      discard (expect .colon)
    node pos (.property name .absent)

def objectLiteral (n : Nat) (self : Productions) : Parse Node := do
  let pos ← here
  discard (expect .openBrace)
  let properties ← items n .closeBrace (property self)
  discard (expect .closeBrace)
  node pos (.collection true properties)

def functionExpression (n : Nat) (self : Productions) : Parse Node := do
  let pos ← here
  discard (expect .functionWord)
  let name ← if (← kind) == .identifier then identifier else pure .absent
  let parameters ← parameterList n self
  let body ← self .block
  node pos (.function .expression name parameters body)

def primary (n : Nat) (self : Productions) : Parse Node := do
  match ← kind with
  | .identifier => identifier
  | .thisWord | .trueWord | .falseWord | .nullWord => wordExpression
  | .number | .string => literal
  | .openParen => parenthesized self
  | .openBracket => arrayLiteral n self
  | .openBrace => objectLiteral n self
  | .functionWord => functionExpression n self
  | _ => missingBecause .expressionExpected

/-- The accesses and calls that follow an expression. Each link opens a construct; all `links` of
them are closed at the end of the chain. -/
def memberRest (calls : Bool) (self : Productions) (pos : Nat) :
    Nat → Nat → Node → Parse Node
  | 0, links, object => do
    exhaust
    leave links
    return object
  | n + 1, links, object => do
    let k ← kind
    let goesOn := k == .dot || k == .openBracket || (calls && k == .openParen)
    if !goesOn then
      leave links
      return object
    if !(← enter) then
      leave links
      return object
    let object ← match k with
      | .dot => do
        advance
        let name ← propertyName
        node pos (.access false object name)
      | .openBracket => do
        advance
        let key ← self .expression
        discard (expect .closeBracket)
        node pos (.access true object key)
      | _ => do
        let arguments ← argumentList n self
        node pos (.call false object true arguments)
    memberRest calls self pos n (links + 1) object

def memberHead (n : Nat) (self : Productions) : Parse Node := do
  if (← kind) == .newWord then self .new
  else primary n self

def newExpression (n : Nat) (self : Productions) : Parse Node := do
  let pos ← here
  discard (expect .newWord)
  let calleePos ← here
  let head ← memberHead n self
  let callee ← memberRest false self calleePos n 0 head
  if (← kind) == .openParen then
    let arguments ← argumentList n self
    node pos (.call true callee true arguments)
  else
    node pos (.call true callee false [])

def trailing (n : Nat) (self : Productions) : Parse Node := do
  let pos ← here
  let head ← memberHead n self
  let operand ← memberRest true self pos n 0 head
  let token ← current
  if (token.kind == .increment || token.kind == .decrement) && !token.lineBreakBefore then
    advance
    node pos (.unary true token.kind operand)
  else
    return operand

def isLeadingOperator : Token.Kind → Bool
  | .not | .minus | .plus | .bitNot | .typeofWord | .voidWord | .increment | .decrement => true
  | _ => false

def unary (n : Nat) (self : Productions) : Parse Node := do
  let token ← current
  if isLeadingOperator token.kind then
    if ← enter then
      advance
      let operand ← self .unary
      leave 1
      node token.start (.unary false token.kind operand)
    else
      missing
  else
    trailing n self

/-- The operators with right operands that follow `left` and bind at least as tightly as `least`.
A power groups to the right, all others to the left. -/
def binaryRest (least : Nat) (self : Productions) (pos : Nat) : Nat → Nat → Node → Parse Node
  | 0, links, left => do
    exhaust
    leave links
    return left
  | n + 1, links, left => do
    let operator ← kind
    let precedence := operator.precedence
    if precedence == 0 || precedence < least then
      leave links
      return left
    if !(← enter) then
      leave links
      return left
    advance
    let right ← self (.binary (if operator == .power then precedence else precedence + 1))
    let left ← node pos (.binary left operator right)
    binaryRest least self pos n (links + 1) left

def binary (n : Nat) (self : Productions) (least : Nat) : Parse Node := do
  let pos ← here
  let left ← self .unary
  binaryRest least self pos n 0 left

def isTarget : Node → Bool
  | .mk _ (.identifier _) => true
  | .mk _ (.access ..) => true
  | .mk _ (.parenthesized expression) => isTarget expression
  | _ => false

def arrowFunction (n : Nat) (self : Productions) : Parse Node := do
  let pos ← here
  let parameters ← if (← kind) == .identifier then do
      let name ← identifier
      let single ← node pos (.parameter name .absent)
      pure [single]
    else
      parameterList n self
  discard (expect .arrow)
  if (← kind) == .openBrace then
    let body ← self .block
    node pos (.function .arrow .absent parameters body)
  else
    let body ← self .assignment
    node pos (.function .arrow .absent parameters body) { expressionBody := true }

/-- An arrow function, an assignment, a choice or a chain of operators. -/
def assignmentInside (n : Nat) (self : Productions) : Parse Node := do
  if ← check State.startsArrow then
    arrowFunction n self
  else
    let pos ← here
    let left ← self (.binary 1)
    let operator ← kind
    if operator.isAssignment then
      unless isTarget left do
        complain .assignmentTarget
      advance
      let right ← self .assignment
      node pos (.binary left operator right)
    else if ← accept .question then
      let whenTrue ← self .assignment
      discard (expect .colon)
      let whenFalse ← self .assignment
      node pos (.conditional left whenTrue whenFalse)
    else
      return left

def assignment (n : Nat) (self : Productions) : Parse Node := do
  if ← enter then
    let expression ← assignmentInside n self
    leave 1
    return expression
  else
    missing

def commaRest (self : Productions) (pos : Nat) : Nat → Nat → Node → Parse Node
  | 0, links, left => do
    exhaust
    leave links
    return left
  | n + 1, links, left => do
    if (← kind) != .comma then
      leave links
      return left
    if !(← enter) then
      leave links
      return left
    advance
    let right ← self .assignment
    let left ← node pos (.binary left (some .comma) right)
    commaRest self pos n (links + 1) left

def expression (n : Nat) (self : Productions) : Parse Node := do
  let pos ← here
  let left ← self .assignment
  commaRest self pos n 0 left

end ArrayLoops.Grammar
