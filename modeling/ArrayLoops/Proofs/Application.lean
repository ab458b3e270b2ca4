import ArrayLoops.Layout.Tree
import ArrayLoops.Number.Reading
import ArrayLoops.Proofs.Tree

/-!
# Directives applied to trees

The tree that directives make of a source tree. Generated statements stand before a statement or in
its place, a single statement with others before it becomes a block, and the value of a lowered call
stands in the place of the call. Nodes of the source keep their numbers; all nodes that are made get
a number that no node of the source has.
-/

namespace ArrayLoops.Lowering

open ArrayLoops.Tree (Arena Info Node NodeId Shape)

namespace Code

def operatorKind? (spelling : String) : Option Token.Kind :=
  Token.Kind.punctuation.find? fun kind => kind.spelling == spelling

def numeral (info : Info) (text : String) : Node :=
  .mk info (.literal false text text (Number.ofLiteral? text))

def declaration (info : Info) (name : String) (value : Node) : Node :=
  .mk info (.variables true [.mk info (.variables false [.mk info (.variable
    (.mk info (.identifier name)) value)])])

mutual
/-- Generated code as a tree, its source nodes replaced by what `nodes` says. -/
def node (info : Info) (nodes : Node → Node) : Code → Node
  | .number text => numeral info text
  | .string value => .mk info (.literal true value (Layout.quoted value) none)
  | .boolean value => .mk info (.bare (.token (if value then .trueWord else .falseWord)))
  | .undefined => .mk info (.unary false (some .voidWord) (numeral info "0"))
  | .name text => .mk info (.identifier text)
  | .binary left operator right =>
    .mk info (.binary (left.node info nodes) (operatorKind? operator) (right.node info nodes))
  | .prefixed operator operand =>
    .mk info (.unary false (operatorKind? operator) (operand.node info nodes))
  | .postfixed operand operator =>
    .mk info (.unary true (operatorKind? operator) (operand.node info nodes))
  | .call callee arguments =>
    .mk info (.call false (callee.node info nodes) true (nodeList info nodes arguments))
  | .new callee arguments =>
    .mk info (.call true (callee.node info nodes) true (nodeList info nodes arguments))
  | .member object property =>
    .mk info (.access false (object.node info nodes) (.mk info (.identifier property)))
  | .element object index =>
    .mk info (.access true (object.node info nodes) (index.node info nodes))
  | .array items => .mk info (.collection false (nodeList info nodes items))
  | .declare text value => declaration info text (node? info nodes value)
  | .evaluate expression => .mk info (.evaluate (expression.node info nodes))
  | .branch condition thenBranch elseBranch =>
    .mk info (.branch (condition.node info nodes) (thenBranch.node info nodes)
      (node? info nodes elseBranch))
  | .block statements => .mk info (.block (nodeList info nodes statements))
  | .loop initializer condition update body =>
    .mk info (.loop .for (node? info nodes initializer) (node? info nodes condition)
      (node? info nodes update) (body.node info nodes))
  | .throw value => .mk info (.exit true (value.node info nodes))
  | .break => .mk info (.bare .breakStatement)
  | .source node => nodes node
def node? (info : Info) (nodes : Node → Node) : Option Code → Node
  | none => .absent
  | some code => code.node info nodes
def nodeList (info : Info) (nodes : Node → Node) : List Code → List Node
  | [] => []
  | code :: rest => code.node info nodes :: nodeList info nodes rest
end

inductive Mention where
  | declares (name : String)
  | uses (name : String)
  | source (node : Node)

mutual
/-- What generated code speaks of, in order. The names of properties are none of it. -/
def mentions : Code → List Mention
  | .number _ | .string _ | .boolean _ | .undefined | .break => []
  | .name text => [.uses text]
  | .binary left _ right => left.mentions ++ right.mentions
  | .prefixed _ operand => operand.mentions
  | .postfixed operand _ => operand.mentions
  | .call callee arguments => callee.mentions ++ mentionsIn arguments
  | .new callee arguments => callee.mentions ++ mentionsIn arguments
  | .member object _ => object.mentions
  | .element object index => object.mentions ++ index.mentions
  | .array items => mentionsIn items
  | .declare text value => .declares text :: mentions? value
  | .evaluate expression => expression.mentions
  | .branch condition thenBranch elseBranch =>
    condition.mentions ++ thenBranch.mentions ++ mentions? elseBranch
  | .block statements => mentionsIn statements
  | .loop initializer condition update body =>
    mentions? initializer ++ mentions? condition ++ mentions? update ++ body.mentions
  | .throw value => value.mentions
  | .source node => [.source node]
def mentions? : Option Code → List Mention
  | none => []
  | some code => code.mentions
def mentionsIn : List Code → List Mention
  | [] => []
  | code :: rest => code.mentions ++ mentionsIn rest
end

theorem mentionsIn_eq (codes : List Code) : mentionsIn codes = codes.flatMap mentions := by
  induction codes with
  | nil => rfl
  | cons code rest ih => rw [mentionsIn, ih, List.flatMap_cons]

theorem mentionsIn_append (codes others : List Code) :
    mentionsIn (codes ++ others) = mentionsIn codes ++ mentionsIn others := by
  simp [mentionsIn_eq]

def Mention.source? : Mention → Option Node
  | .source node => some node
  | _ => none

def Mention.declared? : Mention → Option String
  | .declares text => some text
  | _ => none

def declaredOf (mentions : List Mention) : List String := mentions.filterMap Mention.declared?

def sourcesOf (mentions : List Mention) : List Node := mentions.filterMap Mention.source?

theorem sourcesOf_append (mentions others : List Mention) :
    sourcesOf (mentions ++ others) = sourcesOf mentions ++ sourcesOf others :=
  List.filterMap_append

def sources (code : Code) : List Node := sourcesOf code.mentions

theorem mem_sourcesOf_mentionsIn {codes : List Code} {node : Node} :
    node ∈ sourcesOf (mentionsIn codes) ↔ ∃ code ∈ codes, node ∈ code.sources := by
  induction codes with
  | nil => simp [mentionsIn, sourcesOf]
  | cons code rest ih => simp [mentionsIn, sourcesOf_append, ih, sources]

section
variable {info : Info} {nodes others : Node → Node}

mutual
theorem node_congr (code : Code) (h : ∀ node ∈ code.sources, nodes node = others node) :
    code.node info nodes = code.node info others := by
  cases code with
  | binary left _ right | element left right =>
    simp only [sources, mentions, sourcesOf_append, List.forall_mem_append] at h
    simp only [node]
    rw [node_congr left h.1, node_congr right h.2]
  | prefixed _ operand | postfixed operand _ | member operand _ | evaluate operand
  | throw operand =>
    simp only [sources, mentions] at h
    simp only [node]
    rw [node_congr operand h]
  | call callee arguments | new callee arguments =>
    simp only [sources, mentions, sourcesOf_append, List.forall_mem_append] at h
    simp only [node]
    rw [node_congr callee h.1, nodeList_congr arguments h.2]
  | array codes | block codes =>
    simp only [sources, mentions] at h
    simp only [node]
    rw [nodeList_congr codes h]
  | declare _ value =>
    simp only [node]
    rw [node?_congr value h]
  | branch condition thenBranch elseBranch =>
    simp only [sources, mentions, sourcesOf_append, List.forall_mem_append] at h
    simp only [node]
    rw [node_congr condition h.1.1, node_congr thenBranch h.1.2, node?_congr elseBranch h.2]
  | loop initializer condition update body =>
    simp only [sources, mentions, sourcesOf_append, List.forall_mem_append] at h
    simp only [node]
    rw [node?_congr initializer h.1.1.1, node?_congr condition h.1.1.2, node?_congr update h.1.2,
      node_congr body h.2]
  | source node => exact h node (List.mem_singleton_self _)
  | _ => rfl
theorem node?_congr (code : Option Code)
    (h : ∀ node ∈ sourcesOf (mentions? code), nodes node = others node) :
    node? info nodes code = node? info others code := by
  cases code with
  | none => rfl
  | some code => exact node_congr code h
theorem nodeList_congr (codes : List Code)
    (h : ∀ node ∈ sourcesOf (mentionsIn codes), nodes node = others node) :
    nodeList info nodes codes = nodeList info others codes := by
  cases codes with
  | nil => rfl
  | cons code rest =>
    simp only [mentionsIn, sourcesOf_append, List.forall_mem_append] at h
    rw [nodeList, nodeList, node_congr code h.1, nodeList_congr rest h.2]
end

end

end Code

structure Applied where
  /-- In the place of an expression, or by itself. -/
  node : Node
  /-- In a list of statements. -/
  items : List Node
  /-- In the place of a single statement. -/
  embedded : Node

def rebuild : Shape Applied → Shape Node
  | .block statements => .block (statements.flatMap (·.items))
  | .file name statements => .file name (statements.flatMap (·.items))
  | .branch condition thenBranch elseBranch =>
    .branch condition.node thenBranch.embedded elseBranch.embedded
  | .loop form initializer condition update body =>
    .loop form initializer.node condition.node update.node body.embedded
  | shape => shape.map (·.node)

/-- The value of a call, in parentheses where something else would be read otherwise. -/
def inPlace (arena : Arena) (info : Info) (id : NodeId) (nodes : Node → Node) (value : Code) : Node :=
  if !value.isName && Layout.isTight arena id then
    .mk info (.parenthesized (value.node info nodes))
  else value.node info nodes

namespace Directives

def made (arena : Arena) : Info := { id := arena.size, pos := 0, fin := 0 }

def applyNode (arena : Arena) (directives : Directives) (nodes : Node → Node) (info : Info)
    (shape : Shape (Node × Applied)) : Applied :=
  let inside := Node.mk info (rebuild (shape.map (·.2)))
  let items (before : List Code) (replacement : Option (List Code)) : List Node :=
    before.map (Code.node (made arena) nodes) ++ match replacement with
      | some codes => codes.map (Code.node (made arena) nodes)
      | none => [inside]
  match directives.get? info.id with
  | some (.substitute value) =>
    { node := inPlace arena (made arena) info.id nodes value, items := [inside], embedded := inside }
  | some (.splice before replacement) =>
    { node := inside
      items := items before replacement
      embedded := .mk (made arena) (.block (items before replacement)) }
  | none => { node := inside, items := [inside], embedded := inside }

/-- The tree of a node. The source nodes that directives bring in are done in turn, at most `count`
deep. -/
def applyTo (arena : Arena) (directives : Directives) : Nat → Node → Applied
  | 0 => Node.fold ⟨.absent, [], .absent⟩ (directives.applyNode arena fun _ => .absent)
  | count + 1 =>
    Node.fold ⟨.absent, [], .absent⟩
      (directives.applyNode arena fun node => (directives.applyTo arena count node).node)

/-- The tree that the directives make of a tree. Each source node that a directive brings in has a
smaller number than the node of the directive. -/
def apply (arena : Arena) (directives : Directives) (root : Node) : Node :=
  (directives.applyTo arena arena.size root).node

end Directives

end ArrayLoops.Lowering
