import ArrayLoops.Token.Kind

/-!
# Kinds of tree nodes

Nodes that stand for a single token have the kind of the token; the others have kinds of their own,
numbered from 200.
-/

namespace ArrayLoops.Tree

inductive Kind where
  | token (kind : Token.Kind)
  | file
  | block | variableStatement | variableList | variable | functionDeclaration
  | expressionStatement | returnStatement | throwStatement | ifStatement
  | forStatement | whileStatement | doStatement
  | breakStatement | continueStatement | emptyStatement
  | functionExpression | arrowFunction | parameter
  | arrayLiteral | objectLiteral | property | propertyAccess | elementAccess
  | call | new | parenthesized | prefixed | postfixed | binary | conditional
  /-- A number that no construct uses. -/
  | other (code : Nat)
  deriving DecidableEq, Repr, Inhabited

namespace Kind

def table : List (Nat × Kind × String) := [
  (200, .file, "SourceFile"),
  (201, .block, "Block"),
  (202, .variableStatement, "VariableStatement"),
  (203, .variableList, "VariableDeclarationList"),
  (204, .variable, "VariableDeclaration"),
  (205, .functionDeclaration, "FunctionDeclaration"),
  (206, .expressionStatement, "ExpressionStatement"),
  (207, .returnStatement, "ReturnStatement"),
  (208, .throwStatement, "ThrowStatement"),
  (209, .ifStatement, "IfStatement"),
  (210, .forStatement, "ForStatement"),
  (211, .whileStatement, "WhileStatement"),
  (212, .doStatement, "DoStatement"),
  (213, .breakStatement, "BreakStatement"),
  (214, .continueStatement, "ContinueStatement"),
  (215, .emptyStatement, "EmptyStatement"),
  (230, .functionExpression, "FunctionExpression"),
  (231, .arrowFunction, "ArrowFunction"),
  (232, .parameter, "Parameter"),
  (250, .arrayLiteral, "ArrayLiteralExpression"),
  (251, .objectLiteral, "ObjectLiteralExpression"),
  (252, .property, "PropertyAssignment"),
  (253, .propertyAccess, "PropertyAccessExpression"),
  (254, .elementAccess, "ElementAccessExpression"),
  (255, .call, "CallExpression"),
  (256, .new, "NewExpression"),
  (257, .parenthesized, "ParenthesizedExpression"),
  (258, .prefixed, "PrefixUnaryExpression"),
  (259, .postfixed, "PostfixUnaryExpression"),
  (260, .binary, "BinaryExpression"),
  (261, .conditional, "ConditionalExpression")]

def ofCode (code : Nat) : Kind :=
  match Token.Kind.ofCode? code with
  | some kind => .token kind
  | none => match table.find? fun row => row.1 == code with
    | some (_, kind, _) => kind
    | none => .other code

def label (kind : Kind) : String :=
  match table.find? fun row => row.2.1 == kind with
  | some (_, _, name) => name
  | none => "Token"

def name : Kind → String
  | .token kind => kind.name
  | kind => kind.label

def isStatement : Kind → Bool
  | .block | .variableStatement | .functionDeclaration | .expressionStatement
  | .returnStatement | .throwStatement | .ifStatement | .forStatement | .whileStatement
  | .doStatement | .breakStatement | .continueStatement | .emptyStatement => true
  | _ => false

def isFunction : Kind → Bool
  | .functionDeclaration | .functionExpression | .arrowFunction => true
  | _ => false

def isLoop : Kind → Bool
  | .forStatement | .whileStatement | .doStatement => true
  | _ => false

/-- Statements with a place for a single statement: branches and loop bodies. -/
def hasEmbeddedStatement (kind : Kind) : Bool := kind == .ifStatement || kind.isLoop

/-- Nodes that hold a list of statements. -/
def isStatementContainer (kind : Kind) : Bool := kind == .file || kind == .block

end Kind

end ArrayLoops.Tree
