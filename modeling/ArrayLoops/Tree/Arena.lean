import ArrayLoops.Tree.Node

/-!
# Arenas

An arena numbers the nodes of a tree in the order in which they are made, parts before wholes, and
links every node to the one it is a part of. A node that is made a part twice is linked to the
later whole.
-/

namespace ArrayLoops.Tree

structure Arena where
  nodes : Array Node
  parents : Array (Option NodeId)
  deriving Inhabited

namespace Arena

def empty : Arena := ⟨#[], #[]⟩

def size (arena : Arena) : Nat := arena.nodes.size

def get? (arena : Arena) (id : NodeId) : Option Node := arena.nodes[id]?

def link (parent : NodeId) (parents : Array (Option NodeId)) (part : Node) :
    Array (Option NodeId) :=
  match part.id? with
  | some id => parents.modify id fun _ => some parent
  | none => parents

/-- Makes a node with the next number and links its parts to it. -/
def add (arena : Arena) (pos fin : Nat) (flags : Flags) (shape : Shape Node) : Node × Arena :=
  let id := arena.nodes.size
  let node := Node.mk { id, pos, fin, flags } shape
  let parents := shape.parts.foldl (link id) arena.parents
  (node, ⟨arena.nodes.push node, parents.push none⟩)

structure Entry where
  pos : Nat
  fin : Nat
  flags : Flags
  shape : Shape (Option NodeId)
  /-- The nodes that are linked to this one. -/
  linked : List (Option NodeId)

def Entry.node (entry : Entry) (id : NodeId) (nodes : Array Node) : Node :=
  .mk { id, pos := entry.pos, fin := entry.fin, flags := entry.flags }
    (entry.shape.map fun part => (part.bind (nodes[·]?)).getD .absent)

/-- Makes the nodes of the entries numbered from `id` on again, each with the parts that are there
by then. -/
def makeRound (id : NodeId) (nodes : Array Node) : List Entry → Array Node
  | [] => nodes
  | entry :: rest =>
    makeRound (id + 1) (nodes.modify id fun _ => entry.node id nodes) rest

/-- How many of the entries numbered from `id` on have parts that come after them. -/
def countForward (id : NodeId) : List Entry → Nat
  | [] => 0
  | entry :: rest =>
    (entry.shape.parts.any fun part => part.any (id < ·)).toNat + countForward (id + 1) rest

def linkEarlier (parent : NodeId) (parents : Array (Option NodeId)) :
    List (Option NodeId) → Array (Option NodeId)
  | [] => parents
  | part :: rest =>
    let parents := match part with
      | some id => if id ≤ parent then parents.modify id fun _ => some parent else parents
      | none => parents
    linkEarlier parent parents rest

def linkEntries (id : NodeId) (parents : Array (Option NodeId)) : List Entry → Array (Option NodeId)
  | [] => parents
  | entry :: rest => linkEntries (id + 1) (linkEarlier id parents entry.linked) rest

/-- The arena of a table. The first round completes every node whose parts come before it, and each
further one completes what waits for one more later part, so the rounds suffice unless a node is
part of itself. -/
def ofEntries (entries : List Entry) : Arena :=
  let round (nodes : Array Node) : Array Node := makeRound 0 nodes entries
  ⟨Nat.repeat round (countForward 0 entries + 1) (Array.replicate entries.length .absent),
    linkEntries 0 (Array.replicate entries.length none) entries⟩

def parentOf? (arena : Arena) (id : NodeId) : Option Node := do
  let parent ← (← arena.parents[id]?)
  arena.get? parent

def parent? (arena : Arena) (node : Node) : Option Node := do
  let id ← node.id?
  arena.parentOf? id

/-- The next `count` nodes on the way up from `node`, nearest first. -/
def ancestorsUpTo (arena : Arena) : Nat → Node → List Node
  | 0, _ => []
  | count + 1, node =>
    match arena.parent? node with
    | some parent => parent :: ancestorsUpTo arena count parent
    | none => []

/-- All nodes above `node`, nearest first. Links go to later nodes, so there are never more of them
than nodes. -/
def ancestors (arena : Arena) (node : Node) : List Node := arena.ancestorsUpTo arena.size node

/-- The nearest statement that is the node or lies above it. -/
def enclosingStatement (arena : Arena) (node : Node) : Option Node :=
  (node :: arena.ancestors node).find? Node.isStatement

def enclosingFunction (arena : Arena) (node : Node) : Option Node :=
  (arena.ancestors node).find? Node.isFunction

end Arena

end ArrayLoops.Tree
