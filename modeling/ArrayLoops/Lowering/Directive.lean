import ArrayLoops.Lowering.Code

/-!
# Directives

A lowering leaves the source tree as it is and says, for some of its nodes, what is to be printed
there instead. A node has at most one directive.
-/

namespace ArrayLoops.Lowering

open ArrayLoops.Tree (NodeId)

inductive Directive where
  /-- Statements to put before a statement, and those to put in its place if it goes. -/
  | splice (before : List Code) (replacement : Option (List Code))
  /-- The value of an expression that goes. -/
  | substitute (value : Code)

structure Directives where
  entries : List (NodeId × Directive)

namespace Directives

def empty : Directives := ⟨[]⟩

def get? (directives : Directives) (id : NodeId) : Option Directive := directives.entries.lookup id

def size (directives : Directives) : Nat := directives.entries.length

def contains (directives : Directives) (id : NodeId) : Bool := (directives.get? id).isSome

def insert (directives : Directives) (id : NodeId) (directive : Directive) : Directives :=
  ⟨(id, directive) :: directives.entries.filter fun entry => entry.1 != id⟩

def spliceBefore (directives : Directives) (id : NodeId) (statements : List Code) : Directives :=
  match directives.get? id with
  | some (.splice before replacement) =>
    directives.insert id (.splice (before ++ statements) replacement)
  | _ => directives.insert id (.splice statements none)

def replaceStatement (directives : Directives) (id : NodeId) (statements : List Code) : Directives :=
  match directives.get? id with
  | some (.splice before _) => directives.insert id (.splice before (some statements))
  | _ => directives.insert id (.splice [] (some statements))

def substitute (directives : Directives) (id : NodeId) (value : Code) : Directives :=
  directives.insert id (.substitute value)

end Directives

end ArrayLoops.Lowering
