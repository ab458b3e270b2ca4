import ArrayLoops.Tree.Node

/-!
# Walks down a tree

All nodes in order, the names that occur, and what stands inside parentheses.
-/

namespace ArrayLoops.Tree.Node

def unwrapped : Node → Node
  | .mk _ (.parenthesized expression) => expression.unwrapped
  | node => node

/-- The node and all below it, each before its parts, with their depths and `tail` behind. -/
def preorderOnto (node : Node) : Nat → List (Nat × Node) → List (Nat × Node) :=
  node.fold (fun _ tail => tail) fun info shape depth tail =>
    (depth, .mk info (shape.map (·.1))) ::
      shape.slots.foldr (fun part rest => part.2 (depth + 1) rest) tail

def preorder (node : Node) : List (Nat × Node) := node.preorderOnto 0 []

/-- The place of each node in that order, by its number in an arena of the given size. -/
def preorderPlaces (node : Node) (size : Nat) : Array Nat :=
  let ids := node.preorder.filterMap fun (_, node) => node.id?
  (ids.zip (List.range ids.length)).foldl (fun places (id, i) => places.modify id fun _ => i)
    (Array.replicate size 0)

def namesOnto (node : Node) : List String → List String :=
  node.fold id fun _ shape names =>
    match shape with
    | .identifier text => if text.isEmpty || names.contains text then names else text :: names
    | shape => shape.slots.foldl (fun names part => part.2 names) names

def identifierNames (node : Node) : List String := node.namesOnto []

end ArrayLoops.Tree.Node
