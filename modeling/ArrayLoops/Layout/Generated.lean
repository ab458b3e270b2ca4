import ArrayLoops.Layout.Doc
import ArrayLoops.Lowering.Code
import ArrayLoops.Text.Chars

/-!
# Documents of generated code

How generated code is laid out, given the layout of the source nodes in it. A statement ends its
line; an expression where a statement is due gets a semicolon; a branch or a loop always has braces.
-/

namespace ArrayLoops.Layout

open Lowering (Code)
open Text (hexDigit)
open ArrayLoops.Tree (Node)

/-- A character inside a literal. Control characters without a letter of their own are written with
two hexadecimal digits. -/
def quotedChar (c : Char) : List Char :=
  match c with
  | '"' => ['\\', '"']
  | '\\' => ['\\', '\\']
  | '\n' => ['\\', 'n']
  | '\r' => ['\\', 'r']
  | '\t' => ['\\', 't']
  | '\u2028' => ['\\', 'u', '2', '0', '2', '8']
  | '\u2029' => ['\\', 'u', '2', '0', '2', '9']
  | c =>
    if c.toNat < 0x20 then ['\\', 'x', hexDigit (c.toNat / 16), hexDigit (c.toNat % 16)]
    else [c]

def quoted (value : String) : String :=
  String.ofList ('"' :: value.toList.flatMap quotedChar ++ ['"'])

/-- The places that a node can be printed in. -/
inductive Role where
  /-- A statement in a list of statements. -/
  | statement
  | expression
  /-- The body of a function, with its braces. -/
  | block
  /-- The single statement of a branch or a loop. -/
  | embedded
  /-- The statement behind `else`. -/
  | elseBranch
  /-- The variables that a statement or a loop declares. -/
  | declarations
  /-- One of these variables. -/
  | declaration
  | parameter
  /-- The node by itself. -/
  | whole
  deriving DecidableEq, Repr

abbrev NodeDocs := Node → Role → Doc

namespace Code

def asExpression (nodes : NodeDocs) (code : Code) (inside : Doc) : Doc :=
  match code with
  | .source node => nodes node .expression
  | _ => if code.isStatement then inside ++ Doc.line else inside

def asStatement (nodes : NodeDocs) (code : Code) (inside : Doc) : Doc :=
  match code with
  | .source node =>
    (if node.isStatement then nodes node .statement
      else nodes node .expression ++ Doc.text ";") ++ Doc.line
  | _ => (if code.isStatement then inside else inside ++ Doc.text ";") ++ Doc.line

theorem asExpression_ne {nodes : NodeDocs} {code : Code} {inside : Doc}
    (h : ∀ node, code ≠ .source node) :
    asExpression nodes code inside = if code.isStatement then inside ++ .line else inside := by
  cases code with
  | source node => exact absurd rfl (h node)
  | _ => rfl

theorem asStatement_ne {nodes : NodeDocs} {code : Code} {inside : Doc}
    (h : ∀ node, code ≠ .source node) : asStatement nodes code inside =
      (if code.isStatement then inside else inside ++ .text ";") ++ .line := by
  cases code with
  | source node => exact absurd rfl (h node)
  | _ => rfl

def asBlock (nodes : NodeDocs) (code : Code) (inside : Doc) : Doc :=
  match code with
  | .block _ => inside
  | _ => .braced [asStatement nodes code inside]

def asEither (nodes : NodeDocs) (code : Code) (inside : Doc) : Doc :=
  if code.isStatement then asStatement nodes code inside else asExpression nodes code inside

mutual
/-- What stands in a piece of generated code: all of an expression, and a statement without the end
of its line. A source node is laid out by the place it stands in. -/
def inside (nodes : NodeDocs) : Code → Doc
  | .number text => .text text
  | .string value => .text (quoted value)
  | .boolean value => .text (if value then "true" else "false")
  | .undefined => .text "void 0"
  | .name text => .text text
  | .binary left operator right =>
    asExpression nodes left (inside nodes left) ++ .text " " ++ .text operator ++ .text " " ++
      asExpression nodes right (inside nodes right)
  | .prefixed operator operand => .text operator ++ asExpression nodes operand (inside nodes operand)
  | .postfixed operand operator => asExpression nodes operand (inside nodes operand) ++ .text operator
  | .call callee arguments =>
    asExpression nodes callee (inside nodes callee) ++ .text "(" ++
      .commaSeparated (expressions nodes arguments) ++ .text ")"
  | .new callee arguments =>
    .text "new " ++ asExpression nodes callee (inside nodes callee) ++ .text "(" ++
      .commaSeparated (expressions nodes arguments) ++ .text ")"
  | .member object property =>
    asExpression nodes object (inside nodes object) ++ .text "." ++ .text property
  | .element object index =>
    asExpression nodes object (inside nodes object) ++ .text "[" ++
      asExpression nodes index (inside nodes index) ++ .text "]"
  | .array items => .text "[" ++ .commaSeparated (expressions nodes items) ++ .text "]"
  | .declare name none => .text "var " ++ .text name ++ .text ";"
  | .declare name (some value) =>
    .text "var " ++ .text name ++ .text " = " ++ asExpression nodes value (inside nodes value) ++
      .text ";"
  | .evaluate expression => asExpression nodes expression (inside nodes expression) ++ .text ";"
  | .branch condition thenBranch elseBranch =>
    .text "if (" ++ asExpression nodes condition (inside nodes condition) ++ .text ") " ++
      asBlock nodes thenBranch (inside nodes thenBranch) ++
      match elseBranch with
      | none => .empty
      | some code => .text " else " ++ asBlock nodes code (inside nodes code)
  | .block statements => .braced (lines nodes statements)
  | .loop initializer condition update body =>
    .text "for (" ++
      (match initializer with
        | none => .empty
        | some code => asEither nodes code (inside nodes code)) ++
      .text ";" ++
      (match condition with
        | none => .empty
        | some code => .text " " ++ asExpression nodes code (inside nodes code)) ++
      .text ";" ++
      (match update with
        | none => .empty
        | some code => .text " " ++ asExpression nodes code (inside nodes code)) ++
      .text ") " ++ asBlock nodes body (inside nodes body)
  | .throw value => .text "throw " ++ asExpression nodes value (inside nodes value) ++ .text ";"
  | .break => .text "break;"
  | .source _ => .empty
def expressions (nodes : NodeDocs) : List Code → List Doc
  | [] => []
  | code :: rest => asExpression nodes code (inside nodes code) :: expressions nodes rest
def lines (nodes : NodeDocs) : List Code → List Doc
  | [] => []
  | code :: rest => asStatement nodes code (inside nodes code) :: lines nodes rest
end

def doc (nodes : NodeDocs) (code : Code) : Doc := asEither nodes code (inside nodes code)

def statements (nodes : NodeDocs) (codes : List Code) : Doc := .concat (lines nodes codes)

end Code

end ArrayLoops.Layout
