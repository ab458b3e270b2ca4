import ArrayLoops.Layout.Generated
import ArrayLoops.Lowering.Directive
import ArrayLoops.Tree.Arena

/-!
# Documents of source trees

How source trees are laid out: one statement a line, and no parentheses but those of the source. A
node with a directive is laid out as the directive says; the code that a directive brings in can
hold source nodes with directives of their own.
-/

namespace ArrayLoops.Layout

open Lowering (Code Directive Directives)
open ArrayLoops.Tree (Arena FunctionForm Info LoopForm Node NodeId Shape)

abbrev Part := Node × (Role → Doc)

namespace Part

def isPresent (part : Part) : Bool := part.1.isPresent

def expression (part : Part) : Doc := part.2 .expression

def expressionAfter (part : Part) (before : String) : Doc :=
  if part.isPresent then .text before ++ part.expression else .empty

def list (parts : List Part) (role : Role) : Doc := .commaSeparated (parts.map fun part => part.2 role)

end Part

/-- Whether a sign stands before something that begins with the same sign, so that the two would be
read as one operator. -/
def wouldFuse (operator : Token.Kind) (operand : Node) : Bool :=
  (operator == .plus || operator == .minus) &&
    match operand with
    | .mk _ (.unary false (some inner) _) =>
      inner.spelling.toList.head? == operator.spelling.toList.head?
    | _ => false

def parameters (parts : List Part) : Doc := .text "(" ++ Part.list parts .parameter ++ .text ")"

def functionDoc (name : Part) (params : List Part) (body : Part) : Doc :=
  .text "function " ++ name.expression ++ parameters params ++ .text " " ++ body.2 .block

def arrowDoc (expressionBody : Bool) (params : List Part) (body : Part) : Doc :=
  parameters params ++ .text " => " ++ body.2 (if expressionBody then .expression else .block)

def arguments (parts : List Part) : Doc := .text "(" ++ Part.list parts .expression ++ .text ")"

def expressionDoc (info : Info) : Shape Part → Doc
  | .identifier text => .leaf info.id text
  | .literal _ _ raw _ => .leaf info.id raw
  | .bare (.token kind) =>
    match kind with
    | .thisWord | .trueWord | .falseWord | .nullWord => .leaf info.id kind.spelling
    | _ => .empty
  | .collection false elements => .text "[" ++ Part.list elements .expression ++ .text "]"
  | .collection true [] => .text "\x7b\x7d"
  | .collection true properties =>
    .text "\x7b " ++ Part.list properties .expression ++ .text " \x7d"
  | .property name value => name.expression ++ value.expressionAfter ": "
  | .access false object key => object.expression ++ .text "." ++ key.expression
  | .access true object key => object.expression ++ .text "[" ++ key.expression ++ .text "]"
  | .call false callee _ args => callee.expression ++ arguments args
  | .call true callee isListed args =>
    .text "new " ++ callee.expression ++ if isListed then arguments args else .empty
  | .parenthesized expression => .text "(" ++ expression.expression ++ .text ")"
  | .unary true none operand => operand.expression
  | .unary false none _ => .empty
  | .unary true (some operator) operand => operand.expression ++ .text operator.spelling
  | .unary false (some operator) operand =>
    let gap := operator.isReservedWord || wouldFuse operator operand.1
    .text operator.spelling ++ (if gap then .text " " else .empty) ++ operand.expression
  | .binary left operator right =>
    let spelling := (operator.map Token.Kind.spelling).getD ""
    let middle := if operator == some .comma then .text ", "
      else .text " " ++ .text spelling ++ .text " "
    left.expression ++ middle ++ right.expression
  | .conditional condition whenTrue whenFalse =>
    condition.expression ++ .text " ? " ++ whenTrue.expression ++ .text " : " ++
      whenFalse.expression
  | .function .expression name params body => functionDoc name params body
  | .function .arrow _ params body => arrowDoc info.flags.expressionBody params body
  | _ => .empty

def blockDoc : Shape Part → Doc
  | .block statements => .braced (statements.map fun part => part.2 .statement)
  | _ => .empty

/-- Whether a node in the place of a single statement is printed with braces, so that its last line
is not ended. -/
def isBraced (directives : Directives) : Node → Bool
  | .absent => false
  | .mk info shape =>
    match directives.get? info.id with
    | none => shape.kind == .block
    | some (.splice ..) => true
    | some (.substitute _) => false

def ifDoc (directives : Directives) : Shape Part → Doc
  | .branch condition thenBranch elseBranch =>
    .text "if (" ++ condition.expression ++ .text ")" ++ thenBranch.2 .embedded ++
      if elseBranch.isPresent then
        .text (if isBraced directives thenBranch.1 then " else" else "else") ++
          elseBranch.2 .elseBranch
      else .empty
  | _ => .empty

def loopDoc (directives : Directives) : LoopForm → Part → Part → Part → Part → Doc
  | .for, initializer, condition, update, body =>
    let start := if initializer.1.isKind .variableList then initializer.2 .declarations
      else initializer.expression
    .text "for (" ++ start ++ .text ";" ++ condition.expressionAfter " " ++ .text ";" ++
      update.expressionAfter " " ++ .text ")" ++ body.2 .embedded
  | .while, _, condition, _, body =>
    .text "while (" ++ condition.expression ++ .text ")" ++ body.2 .embedded
  | .doWhile, _, condition, _, body =>
    .text "do" ++ body.2 .embedded ++ (if isBraced directives body.1 then .text " " else .empty) ++
      .text "while (" ++ condition.expression ++ .text ");"

/-- A statement without the end of its line. -/
def statementInside (directives : Directives) (info : Info) : Shape Part → Doc
  | .block statements => blockDoc (.block statements)
  | .variables true lists => .concat (lists.map fun part => part.2 .declarations) ++ .text ";"
  | .function .declaration name params body => functionDoc name params body
  | .evaluate expression => expression.expression ++ .text ";"
  | .exit isThrow value =>
    .text (if isThrow then "throw" else "return") ++ value.expressionAfter " " ++ .text ";"
  | .branch condition thenBranch elseBranch =>
    ifDoc directives (.branch condition thenBranch elseBranch)
  | .loop form initializer condition update body =>
    loopDoc directives form initializer condition update body
  | .bare kind =>
    match kind with
    | .breakStatement => .leaf info.id "break;"
    | .continueStatement => .leaf info.id "continue;"
    | .emptyStatement => .leaf info.id ";"
    | .variableStatement | .expressionStatement => .text ";"
    | .returnStatement => .text "return;"
    | .throwStatement => .text "throw;"
    | _ => .empty
  | _ => .empty

def statementDoc (directives : Directives) (info : Info) (shape : Shape Part) : Doc :=
  statementInside directives info shape ++ .line

def declarationsDoc (info : Info) (shape : Shape Part) : Doc :=
  let word := if info.flags.isConst then "const " else if info.flags.isLet then "let " else "var "
  .text word ++ match shape with
    | .variables _ declarations => Part.list declarations .declaration
    | _ => .empty

def bindingDoc (name value : Part) : Doc := name.expression ++ value.expressionAfter " = "

def isTight (arena : Arena) (id : NodeId) : Bool :=
  match arena.parentOf? id with
  | some (.mk _ (.access _ object _)) => object.id? == some id
  | some (.mk _ (.call _ callee _ _)) => callee.id? == some id
  | some (.mk _ (.unary true _ _)) => true
  | some (.mk _ (.binary left (some .power) _)) => left.id? == some id
  | _ => false

/-- A value in the place of an expression that it replaces. -/
def substituted (arena : Arena) (nodes : NodeDocs) (id : NodeId) (value : Code) : Doc :=
  if !value.isName && isTight arena id then
    .text "(" ++ Code.doc nodes value ++ .text ")"
  else Code.doc nodes value

/-- The layouts of a node from those of its parts. `nodes` lays out the source nodes in the code
that directives bring in. -/
def nodeDoc (arena : Arena) (directives : Directives) (nodes : NodeDocs) (info : Info)
    (shape : Shape Part) : Role → Doc
  | .expression => expression
  | .statement => statement
  | .block => blockDoc shape
  | .embedded => embedded
  | .elseBranch =>
    if shape.kind == .ifStatement && !directives.contains info.id then
      .text " " ++ ifDoc directives shape
    else embedded
  | .declarations => declarationsDoc info shape
  | .declaration =>
    match shape with
    | .variable name value => bindingDoc name value
    | _ => .empty
  | .parameter =>
    match shape with
    | .parameter name value => bindingDoc name value
    | _ => .empty
  | .whole =>
    match shape with
    | .file _ statements => .concat (statements.map fun part => part.2 .statement)
    | shape => if shape.kind.isStatement then statement else expression
where
  expression : Doc :=
    match directives.get? info.id with
    | some (.substitute value) => .mark info.id ++ substituted arena nodes info.id value
    | _ => expressionDoc info shape
  statement : Doc :=
    match directives.get? info.id with
    | some (.splice before replacement) =>
      .mark info.id ++ Code.statements nodes before ++ match replacement with
        | some statements => Code.statements nodes statements
        | none => statementDoc directives info shape
    | _ => statementDoc directives info shape
  embedded : Doc :=
    match directives.get? info.id with
    | none =>
      if shape.kind == .block then .text " " ++ blockDoc shape
      else .line ++ .nest statement
    | some (.splice ..) => .text " \x7b" ++ .line ++ .nest statement ++ .text "\x7d"
    | some (.substitute _) => .line ++ .nest statement

def absentDoc : Role → Doc
  | .embedded | .elseBranch => .text ";"
  | _ => .empty

/-- The layouts of nodes, each with the number of its node. -/
def docsWith (arena : Arena) (directives : Directives) (nodes : NodeDocs) : NodeDocs :=
  Node.fold absentDoc fun info shape role =>
    .node info.id (nodeDoc arena directives nodes info shape role)

/-- The layouts of nodes when directives lead to directives at most `count` times. -/
def nodeDocs (arena : Arena) (directives : Directives) : Nat → NodeDocs
  | 0 => docsWith arena directives fun _ _ => .empty
  | count + 1 => docsWith arena directives (nodeDocs arena directives count)

/-- The layouts of nodes. Directives that lead to each other without end are followed only as often
as there are directives. -/
def docs (arena : Arena) (directives : Directives) : NodeDocs :=
  nodeDocs arena directives directives.size

def print (arena : Arena) (directives : Directives) (node : Node) : String :=
  (docs arena directives node .whole).render

end ArrayLoops.Layout
