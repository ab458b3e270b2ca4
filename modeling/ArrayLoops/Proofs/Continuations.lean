import ArrayLoops.Grammar

/-!
# Productions that begin in several ways

A property, a function, an arrow function and a loop with a counter each begin in one of two ways
and then go on alike. What a proof about such a production says of the common part, it says once and
uses for both beginnings.
-/

namespace ArrayLoops.Grammar

open ArrayLoops.Tree (Node)

/-- A property behind its name. Only some names can do without a value. -/
def propertyRest (self : Productions) (pos : Nat) (named : Bool) (name : Node) : Parse Node := do
  if ← accept .colon then
    let value ← self .assignment
    node pos (.property name value)
  else
    unless named do
      discard (expect .colon)
    node pos (.property name .absent)

def functionRest (form : Tree.FunctionForm) (n : Nat) (self : Productions) (pos : Nat) (name : Node) :
    Parse Node := do
  let parameters ← parameterList n self
  let body ← self .block
  node pos (.function form name parameters body)

def arrowRest (self : Productions) (pos : Nat) (parameters : List Node) : Parse Node := do
  discard (expect .arrow)
  if (← kind) == .openBrace then
    let body ← self .block
    node pos (.function .arrow .absent parameters body)
  else
    let body ← self .assignment
    node pos (.function .arrow .absent parameters body) { expressionBody := true }

def counterRest (self : Productions) (pos : Nat) (start : Node) : Parse Node := do
  discard (expect .semicolon)
  let test ← optionalExpression self .semicolon
  discard (expect .semicolon)
  let update ← optionalExpression self .closeParen
  discard (expect .closeParen)
  let body ← self .statement
  node pos (.loop .for start test update body)

def forRest (self : Productions) (pos : Nat) (start : Node) : Parse Node := do
  let token ← current
  if token.kind == .inWord || (token.kind == .identifier && token.value == "of") then
    complain .forInOrOf
  counterRest self pos start

end ArrayLoops.Grammar
