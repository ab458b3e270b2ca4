import ArrayLoops.Tree.Node

/-!
# Generated code

The statements and expressions that a lowering makes. Parts of the source are taken over as they
are: a `source` leaf stands for a node of the source tree.
-/

namespace ArrayLoops.Lowering

open ArrayLoops.Tree (Node)

inductive Code where
  | number (text : String)
  | string (value : String)
  | boolean (value : Bool)
  | undefined
  | name (text : String)
  | binary (left : Code) (operator : String) (right : Code)
  | prefixed (operator : String) (operand : Code)
  | postfixed (operand : Code) (operator : String)
  | call (callee : Code) (arguments : List Code)
  | new (callee : Code) (arguments : List Code)
  | member (object : Code) (property : String)
  | element (object index : Code)
  | array (items : List Code)
  | declare (name : String) (initializer : Option Code)
  | evaluate (expression : Code)
  | branch (condition thenBranch : Code) (elseBranch : Option Code)
  | block (statements : List Code)
  | loop (initializer condition update : Option Code) (body : Code)
  | throw (value : Code)
  | break
  /-- A node of the source. -/
  | source (node : Node)
  deriving Inhabited

namespace Code

def isStatement : Code → Bool
  | .declare .. | .evaluate _ | .branch .. | .block _ | .loop .. | .throw _ | .break => true
  | _ => false

def isName : Code → Bool
  | .name _ => true
  | _ => false

def assign (target value : Code) : Code := .binary target "=" value

def not (operand : Code) : Code := .prefixed "!" operand

def when (condition : Code) (statements : List Code) : Code :=
  .branch condition (.block statements) none

def captures (node : Node) : Code → Bool
  | .declare _ (some (.source captured)) => captured.same node
  | _ => false

end Code

end ArrayLoops.Lowering
