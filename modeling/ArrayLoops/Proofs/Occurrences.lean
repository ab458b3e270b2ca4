import ArrayLoops.Proofs.LoopCode

/-!
# Generated names in trees

Where generated names stand in a tree, function by function. The nodes numbered from some number on
are the generated ones; which of them belong together is told by their numbers.
-/

namespace ArrayLoops.Lowering

open ArrayLoops.Tree (Info Node NodeId Shape)

attribute [local simp] Shape.map Shape.parts

inductive Occurrence where
  | declared (id : NodeId) (name : String)
  | used (id : NodeId) (name : String)
  deriving DecidableEq, Repr

namespace Occurrence

def declaredName? : Occurrence → Option String
  | .declared _ name => some name
  | .used .. => none

def declaredNames (occurrences : List Occurrence) : List String :=
  occurrences.filterMap declaredName?

/-- Every name that is used is declared by the same code, the error of an empty reduction apart. -/
def Closed (occurrences : List Occurrence) : Prop :=
  ∀ id name, .used id name ∈ occurrences → name ≠ "TypeError" → .declared id name ∈ occurrences

end Occurrence

/-- The generated names at a node, given those of its parts. A function keeps its own, and the names
of properties are no variables. -/
def occurrencesNode (size : Nat) (info : Info) (shape : Shape (Node × List Occurrence)) :
    List Occurrence :=
  match shape with
  | .function .. => []
  | .identifier text => if size ≤ info.id then [.used info.id text] else []
  | .variable name value =>
    if size ≤ info.id then name.1.name?.toList.map (.declared info.id) ++ value.2
    else name.2 ++ value.2
  | .access false object key => if size ≤ info.id then object.2 else object.2 ++ key.2
  | shape => shape.parts.flatMap (·.2)

def occurrences (size : Nat) : Node → List Occurrence :=
  Node.fold [] (occurrencesNode size)

def ownOccurrences (size : Nat) (node : Node) : List Occurrence :=
  node.parts.flatMap (occurrences size)

section
variable {size : Nat} {info : Info} {shape : Shape Node}

@[simp] theorem occurrences_absent : occurrences size .absent = [] := rfl

theorem occurrences_mk : occurrences size (.mk info shape) =
    occurrencesNode size info (shape.map fun part => (part, occurrences size part)) := by
  rw [occurrences, Node.fold_mk]

theorem occurrences_function (h : shape.kind.isFunction) : occurrences size (.mk info shape) = [] := by
  rw [occurrences_mk]
  cases shape with
  | function | bare => rfl
  | unary flag _ _ | call flag _ _ _ | access flag _ _ | collection flag _ | «variables» flag _
  | exit flag _ => cases flag <;> cases h
  | loop form _ _ _ _ => cases form <;> cases h
  | _ => cases h

theorem occurrences_source (h : info.id < size) (hf : shape.kind.isFunction = false) :
    occurrences size (.mk info shape) = shape.parts.flatMap (occurrences size) := by
  have hid : ¬ size ≤ info.id := Nat.not_le.mpr h
  rw [occurrences_mk]
  cases shape with
  | function form _ _ _ => cases form <;> cases hf
  | access isComputed _ _ =>
    cases isComputed <;> simp [occurrencesNode, hid]
  | _ => simp [occurrencesNode, hid, List.flatMap_map]

end

namespace Code

def Mention.occurrences (size : Nat) (id : NodeId) (nodes : Node → Node) : Mention → List Occurrence
  | .declares text => [.declared id text]
  | .uses text => [.used id text]
  | .source node => Lowering.occurrences size (nodes node)

def Mention.own (id : NodeId) : Mention → List Occurrence
  | .declares text => [.declared id text]
  | .uses text => [.used id text]
  | .source _ => []

section
variable {size : Nat} {info : Info} {nodes : Node → Node}

theorem Mention.occurrences_perm (id : NodeId) (mentions : List Mention) :
    (mentions.flatMap (Mention.occurrences size id nodes)).Perm
      ((sourcesOf mentions).flatMap (fun node => Lowering.occurrences size (nodes node)) ++
        mentions.flatMap (Mention.own id)) := by
  induction mentions with
  | nil => exact .refl _
  | cons mention rest ih =>
    rw [List.flatMap_cons, List.flatMap_cons]
    refine (ih.append_left _).trans ?_
    cases mention with
    | declares | uses => exact List.perm_append_comm_assoc _ _ _
    | source node =>
      simp [Mention.occurrences, Mention.own, sourcesOf, Mention.source?]

theorem occurrences_declaration (h : size ≤ info.id) {text : String} {value : Node} :
    Lowering.occurrences size (declaration info text value) =
      .declared info.id text :: Lowering.occurrences size value := by
  have hvariable : Lowering.occurrences size (.mk info (.variable (.mk info (.identifier text)) value)) =
      .declared info.id text :: Lowering.occurrences size value := by
    simp [occurrences_mk, occurrencesNode, h, Node.name?]
  rw [declaration, occurrences_mk]
  simp only [Shape.map, List.map_cons, List.map_nil, occurrencesNode, Shape.parts,
    List.flatMap_cons, List.flatMap_nil, List.append_nil]
  rw [occurrences_mk]
  simp [occurrencesNode, hvariable]

mutual
theorem occurrences_node (h : size ≤ info.id) (code : Code) :
    Lowering.occurrences size (code.node info nodes) =
      code.mentions.flatMap (Mention.occurrences size info.id nodes) := by
  cases code with
  | binary left _ right | element left right =>
    simp only [node, mentions, List.flatMap_append, occurrences_mk, Shape.map, occurrencesNode]
    simp [occurrences_node h left, occurrences_node h right]
  | prefixed _ operand | postfixed operand _ | evaluate operand | throw operand =>
    simp only [node, mentions, occurrences_mk, Shape.map, occurrencesNode]
    simp [occurrences_node h operand]
  | member object _ =>
    simp only [node, mentions, occurrences_mk, Shape.map, occurrencesNode, if_pos h]
    exact occurrences_node h object
  | call callee arguments | new callee arguments =>
    simp only [node, mentions, List.flatMap_append, occurrences_mk, Shape.map, occurrencesNode]
    simp [occurrences_node h callee, List.flatMap_map, occurrences_nodeList h arguments]
  | array codes | block codes =>
    simp only [node, mentions, occurrences_mk, Shape.map, occurrencesNode]
    simp [List.flatMap_map, occurrences_nodeList h codes]
  | declare text value =>
    rw [node, mentions, occurrences_declaration h, occurrences_node? h value, List.flatMap_cons]
    rfl
  | branch condition thenBranch elseBranch =>
    simp only [node, mentions, List.flatMap_append, occurrences_mk, Shape.map, occurrencesNode]
    simp [occurrences_node h condition, occurrences_node h thenBranch,
      occurrences_node? h elseBranch]
  | loop initializer condition update body =>
    simp only [node, mentions, List.flatMap_append, occurrences_mk, Shape.map, occurrencesNode]
    simp [occurrences_node? h initializer, occurrences_node? h condition,
      occurrences_node? h update, occurrences_node h body]
  | name text =>
    simp [node, mentions, occurrences_mk, occurrencesNode, h, Mention.occurrences]
  | source node => simp [Code.node, mentions, Mention.occurrences]
  | number | undefined =>
    simp [node, numeral, mentions, occurrences_mk, occurrencesNode]
  | string | boolean | «break» =>
    simp [node, mentions, occurrences_mk, occurrencesNode]
theorem occurrences_node? (h : size ≤ info.id) (code : Option Code) :
    Lowering.occurrences size (node? info nodes code) =
      (mentions? code).flatMap (Mention.occurrences size info.id nodes) := by
  cases code with
  | none => rfl
  | some code => exact occurrences_node h code
theorem occurrences_nodeList (h : size ≤ info.id) (codes : List Code) :
    (nodeList info nodes codes).flatMap (Lowering.occurrences size) =
      (mentionsIn codes).flatMap (Mention.occurrences size info.id nodes) := by
  cases codes with
  | nil => rfl
  | cons code rest =>
    rw [nodeList, mentionsIn, List.flatMap_cons, List.flatMap_append, occurrences_node h code,
      occurrences_nodeList h rest]
end

mutual
theorem function_within_node {function : Node} (hf : function.isFunction) (code : Code)
    (hw : function.Within (code.node info nodes)) :
    ∃ source ∈ code.sources, function.Within (nodes source) := by
  cases code with
  | source node => exact ⟨node, List.mem_singleton_self _, hw⟩
  | number | string | boolean | name | «break» =>
    obtain ⟨part, hp, -⟩ := hw.of_not_function hf rfl
    cases hp
  | undefined =>
    obtain ⟨part, hp, hw⟩ := hw.of_not_function hf rfl
    obtain rfl := List.mem_singleton.mp hp
    obtain ⟨part, hp, -⟩ := hw.of_not_function hf rfl
    cases hp
  | binary left _ right | element left right =>
    obtain ⟨part, hp, hw⟩ := hw.of_not_function hf rfl
    simp only [Shape.parts, List.mem_cons, List.not_mem_nil, or_false] at hp
    simp only [sources, mentions, sourcesOf_append, List.mem_append, or_and_right, exists_or]
    obtain rfl | rfl := hp
    · exact .inl (function_within_node hf left hw)
    · exact .inr (function_within_node hf right hw)
  | prefixed _ operand | postfixed operand _ | evaluate operand | throw operand =>
    obtain ⟨part, hp, hw⟩ := hw.of_not_function hf rfl
    obtain rfl := List.mem_singleton.mp hp
    exact function_within_node hf operand hw
  | member object property =>
    obtain ⟨part, hp, hw⟩ := hw.of_not_function hf rfl
    simp only [Shape.parts, List.mem_cons, List.not_mem_nil, or_false] at hp
    obtain rfl | rfl := hp
    · exact function_within_node hf object hw
    · obtain ⟨part, hp, -⟩ := hw.of_not_function hf rfl
      cases hp
  | call callee arguments | new callee arguments =>
    obtain ⟨part, hp, hw⟩ := hw.of_not_function hf rfl
    simp only [sources, mentions, sourcesOf_append, List.mem_append, or_and_right, exists_or]
    obtain rfl | hp := List.mem_cons.mp hp
    · exact .inl (function_within_node hf callee hw)
    · exact .inr (function_within_nodeList hf arguments hp hw)
  | array codes | block codes =>
    obtain ⟨part, hp, hw⟩ := hw.of_not_function hf rfl
    exact function_within_nodeList hf codes hp hw
  | declare text value =>
    obtain ⟨list, hp, hw⟩ := hw.of_not_function hf rfl
    obtain rfl := List.mem_singleton.mp hp
    obtain ⟨single, hp, hw⟩ := hw.of_not_function hf rfl
    obtain rfl := List.mem_singleton.mp hp
    obtain ⟨part, hp, hw⟩ := hw.of_not_function hf rfl
    simp only [Shape.parts, List.mem_cons, List.not_mem_nil, or_false] at hp
    obtain rfl | rfl := hp
    · obtain ⟨part, hp, -⟩ := hw.of_not_function hf rfl
      cases hp
    · exact function_within_node? hf value hw
  | branch condition thenBranch elseBranch =>
    obtain ⟨part, hp, hw⟩ := hw.of_not_function hf rfl
    simp only [Shape.parts, List.mem_cons, List.not_mem_nil, or_false] at hp
    simp only [sources, mentions, sourcesOf_append, List.mem_append, or_and_right, exists_or]
    obtain rfl | rfl | rfl := hp
    · exact .inl (.inl (function_within_node hf condition hw))
    · exact .inl (.inr (function_within_node hf thenBranch hw))
    · exact .inr (function_within_node? hf elseBranch hw)
  | loop initializer condition update body =>
    obtain ⟨part, hp, hw⟩ := hw.of_not_function hf rfl
    simp only [Shape.parts, List.mem_cons, List.not_mem_nil, or_false] at hp
    simp only [sources, mentions, sourcesOf_append, List.mem_append, or_and_right, exists_or]
    obtain rfl | rfl | rfl | rfl := hp
    · exact .inl (.inl (.inl (function_within_node? hf initializer hw)))
    · exact .inl (.inl (.inr (function_within_node? hf condition hw)))
    · exact .inl (.inr (function_within_node? hf update hw))
    · exact .inr (function_within_node hf body hw)
theorem function_within_node? {function : Node} (hf : function.isFunction) (code : Option Code)
    (hw : function.Within (node? info nodes code)) :
    ∃ source ∈ sourcesOf (mentions? code), function.Within (nodes source) := by
  cases code with
  | none =>
    cases hw
    cases hf
  | some code => exact function_within_node hf code hw
theorem function_within_nodeList {function tree : Node} (hf : function.isFunction)
    (codes : List Code) (hm : tree ∈ nodeList info nodes codes) (hw : function.Within tree) :
    ∃ source ∈ sourcesOf (mentionsIn codes), function.Within (nodes source) := by
  cases codes with
  | nil => cases hm
  | cons code rest =>
    rw [mentionsIn, sourcesOf_append]
    obtain rfl | hm := List.mem_cons.mp hm
    · obtain ⟨source, hs, hin⟩ := function_within_node hf code hw
      exact ⟨source, List.mem_append_left _ hs, hin⟩
    · obtain ⟨source, hs, hin⟩ := function_within_nodeList hf rest hm hw
      exact ⟨source, List.mem_append_right _ hs, hin⟩
end

end

end Code

end ArrayLoops.Lowering
