import ArrayLoops.Layout.Writer
import ArrayLoops.Tree.Node

/-!
# Documents

What is to be printed, before it is broken into an indented text. The layouts of the nodes of a source
tree and the texts of its leaves carry the numbers of these nodes, and the places where a directive is
followed are marked, so that one can tell what a document shows and how often.
-/

namespace ArrayLoops.Layout

open ArrayLoops.Tree (NodeId)

inductive Doc where
  | empty
  | text (s : String)
  /-- The text of the leaf with the given number. -/
  | leaf (id : NodeId) (s : String)
  /-- Nothing, where the directive of the node with the given number is followed. -/
  | mark (id : NodeId)
  | line
  | append (first second : Doc)
  | nest (doc : Doc)
  /-- The layout of the node with the given number. -/
  | node (id : NodeId) (doc : Doc)
  deriving DecidableEq, Repr, Inhabited

namespace Doc

instance : Append Doc := ⟨append⟩

instance : Coe String Doc := ⟨text⟩

def concat (docs : List Doc) : Doc := docs.foldr append empty

def separated (separator : Doc) : List Doc → Doc
  | [] => empty
  | [doc] => doc
  | doc :: docs => doc ++ separator ++ separated separator docs

def commaSeparated (docs : List Doc) : Doc := separated (text ", ") docs

def braced (statements : List Doc) : Doc :=
  if statements.isEmpty then text "\x7b \x7d"
  else text "\x7b" ++ line ++ nest (concat statements) ++ text "\x7d"

def writeTo : Doc → Writer → Writer
  | empty, w => w
  | text s, w => w.write s
  | leaf _ s, w => w.write s
  | mark _, w => w
  | line, w => w.line
  | append first second, w => second.writeTo (first.writeTo w)
  | nest doc, w => (doc.writeTo w.indent).dedent
  | node _ doc, w => doc.writeTo w

def indentWidth : Nat := 4

def render (doc : Doc) : String := (doc.writeTo (Writer.new indentWidth)).out

inductive Note where
  | leaf (id : NodeId) (text : String)
  | shown (id : NodeId)
  | followed (id : NodeId)
  deriving DecidableEq, Repr

def count (note : Note) : Doc → Nat
  | leaf id s => if note = .leaf id s then 1 else 0
  | mark id => if note = .followed id then 1 else 0
  | append first second => first.count note + second.count note
  | nest doc => doc.count note
  | node id doc => (if note = .shown id then 1 else 0) + doc.count note
  | _ => 0

end Doc

end ArrayLoops.Layout
