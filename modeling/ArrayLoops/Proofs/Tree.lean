import ArrayLoops.Tree.Walk

/-!
# Trees as wholes

Induction over trees, the numbers of the nodes of a tree, and what it is for a node to lie in
another. A tree is regular if every part stands in a place that is made for it: statements among
statements, expressions in expressions.
-/

namespace ArrayLoops.Tree

theorem Shape.sizeOf_part_lt {shape : Shape Node} {part : Node} (h : part ∈ shape.parts) :
    sizeOf part < sizeOf shape := by
  cases shape with
  | call _ callee _ arguments =>
    rw [call.sizeOf_spec]
    simp only [parts, List.mem_cons] at h
    obtain rfl | h := h
    · omega
    · have := List.sizeOf_lt_of_mem h
      omega
  | function form name parameters body =>
    rw [function.sizeOf_spec]
    simp only [parts, List.cons_append, List.mem_cons, List.mem_append, List.not_mem_nil,
      or_false] at h
    obtain rfl | h | rfl := h
    · omega
    · have := List.sizeOf_lt_of_mem h
      omega
    · omega
  | collection _ nodes | block nodes | «variables» _ nodes | file _ nodes =>
    simp only [parts] at h
    have := List.sizeOf_lt_of_mem h
    simp only [collection.sizeOf_spec, block.sizeOf_spec, variables.sizeOf_spec, file.sizeOf_spec]
    omega
  | _ => simp only [parts, List.mem_cons, List.not_mem_nil, or_false] at h <;> grind

/-- What holds of a node if it holds of its parts holds of every node. -/
@[elab_as_elim, induction_eliminator]
theorem Node.induction {P : Node → Prop} (absent : P .absent)
    (mk : ∀ info shape, (∀ part ∈ shape.parts, P part) → P (.mk info shape)) (node : Node) :
    P node :=
  match node with
  | .absent => absent
  | .mk info shape => mk info shape fun part h =>
    have := Shape.sizeOf_part_lt h
    Node.induction absent mk part
termination_by sizeOf node
decreasing_by simp; omega

namespace Node

def ids : Node → List NodeId :=
  fold [] fun info shape => info.id :: shape.parts.flatMap (·.2)

@[simp] theorem ids_absent : ids .absent = [] := rfl

@[simp] theorem ids_mk (info : Info) (shape : Shape Node) :
    ids (.mk info shape) = info.id :: shape.parts.flatMap ids := by
  rw [ids, fold_mk, Shape.parts_map, List.flatMap_map]

@[simp] theorem id?_absent : id? .absent = none := rfl

@[simp] theorem id?_mk (info : Info) (shape : Shape Node) : id? (.mk info shape) = some info.id :=
  rfl

@[simp] theorem same_self (node : Node) : node.same node = true := by simp [same]

theorem exists_id {node : Node} (h : node.isPresent) : ∃ id, node.id? = some id := by
  cases node with
  | absent => cases h
  | mk info shape => exact ⟨info.id, rfl⟩

theorem id?_mem_ids {node : Node} {id : NodeId} (h : node.id? = some id) : id ∈ node.ids := by
  cases node with
  | absent => cases h
  | mk info shape =>
    cases h
    simp

theorem not_same {a b : Node} (ha : a.isPresent) (h : ∀ id ∈ a.ids, id ∉ b.ids) :
    a.same b = false := by
  obtain ⟨id, hid⟩ := exists_id ha
  rw [Bool.eq_false_iff]
  intro hs
  have hb : some id = b.id? := by simpa [same, hid] using hs
  exact h id (id?_mem_ids hid) (id?_mem_ids hb.symm)

/-- A node lies in another if it is the other or lies in one of its parts. -/
inductive Within (node : Node) : Node → Prop where
  | self : Within node node
  | part {info : Info} {shape : Shape Node} {part : Node} :
    part ∈ shape.parts → Within node part → Within node (.mk info shape)

theorem Within.trans {a b c : Node} (hab : Within a b) (hbc : Within b c) : Within a c := by
  induction hbc with
  | self => exact hab
  | part hp _ ih => exact .part hp ih

theorem Within.of_part {part node : Node} (h : part ∈ node.parts) : Within part node := by
  cases node with
  | absent => cases h
  | mk info shape => exact .part h .self

theorem Within.of_not_function {function : Node} {info : Info} {shape : Shape Node}
    (h : Within function (.mk info shape)) (hf : function.isFunction)
    (hk : shape.kind.isFunction = false) : ∃ part ∈ shape.parts, Within function part := by
  cases h with
  | self =>
    have : shape.kind.isFunction = true := hf
    rw [hk] at this
    cases this
  | part hp hw => exact ⟨_, hp, hw⟩

theorem unwrapped_within (node : Node) : Within node.unwrapped node := by
  induction node with
  | absent => exact .self
  | mk info shape ih =>
    cases shape with
    | parenthesized expression =>
      have hp : expression ∈ (Shape.parenthesized expression).parts := by simp [Shape.parts]
      exact .part hp (ih expression hp)
    | _ => exact .self

theorem Within.unwrapped {info : Info} {shape : Shape Node} {node : Node}
    (h : Within (.mk info shape) node) (hs : ∀ inner, shape ≠ .parenthesized inner) :
    Within (.mk info shape) node.unwrapped := by
  induction h with
  | self =>
    cases shape with
    | parenthesized inner => exact absurd rfl (hs inner)
    | _ => exact .self
  | @part outer outerShape part hp hw ih =>
    cases outerShape with
    | parenthesized inner =>
      obtain rfl : part = inner := by simpa [Shape.parts] using hp
      exact ih
    | _ => exact .part hp hw

theorem Within.ids_subset {a b : Node} (h : Within a b) : a.ids ⊆ b.ids := by
  induction h with
  | self => exact List.Subset.refl _
  | part hp _ ih =>
    intro id hid
    rw [ids_mk]
    exact List.mem_cons_of_mem _ (List.mem_flatMap.mpr ⟨_, hp, ih hid⟩)

theorem exists_within_of_mem_ids {node : Node} {id : NodeId} (h : id ∈ node.ids) :
    ∃ inner, Within inner node ∧ inner.id? = some id := by
  induction node with
  | absent => simp at h
  | mk info shape ih =>
    rw [ids_mk, List.mem_cons, List.mem_flatMap] at h
    obtain rfl | ⟨part, hp, hid⟩ := h
    · exact ⟨_, .self, rfl⟩
    · obtain ⟨inner, hw, hi⟩ := ih part hp hid
      exact ⟨inner, .part hp hw, hi⟩

end Node

/-- The places that parts stand in. -/
inductive Slot where
  | expression
  /-- A statement in a list, or the single statement of a branch or a loop. -/
  | statement
  /-- The statements of a function. -/
  | body
  /-- A name that is declared. -/
  | name
  /-- The name of a property. -/
  | key
  | property
  | parameter
  | variable
  /-- The variables that a statement declares. -/
  | list
  /-- What a loop begins with. -/
  | start
  /-- A place that is never filled. -/
  | vacant
  deriving DecidableEq, Repr

namespace Shape

variable {α β : Type}

@[simp] theorem map_self (shape : Shape α) : (shape.map fun part => part) = shape := by
  cases shape <;> simp [map]

theorem map_congr {f g : α → β} {shape : Shape α} (h : ∀ part ∈ shape.parts, f part = g part) :
    shape.map f = shape.map g := by
  cases shape with
  | call _ callee _ arguments =>
    simp only [parts, List.forall_mem_cons] at h
    rw [map, map, h.1, List.map_congr_left h.2]
  | function _ name parameters body =>
    simp only [parts, List.cons_append, List.forall_mem_cons, List.forall_mem_append,
      List.mem_singleton, forall_eq] at h
    rw [map, map, h.1, List.map_congr_left h.2.1, h.2.2]
  | collection _ nodes | block nodes | «variables» _ nodes | file _ nodes =>
    simp only [parts] at h
    rw [map, map, List.map_congr_left h]
  | _ => simp_all [map, parts]

theorem slots_subset (shape : Shape α) : shape.slots ⊆ shape.parts := by
  cases shape with
  | loop form _ _ _ _ => cases form <;> simp [slots, parts]
  | _ => exact List.Subset.refl _

theorem slots_ids_subset (shape : Shape Node) :
    shape.slots.flatMap Node.ids ⊆ shape.parts.flatMap Node.ids := by
  intro id hid
  obtain ⟨part, hp, hm⟩ := List.mem_flatMap.mp hid
  exact List.mem_flatMap.mpr ⟨part, shape.slots_subset hp, hm⟩

def isExpression : Shape α → Bool
  | .bare (.token _) | .identifier _ | .literal .. | .binary .. | .unary .. | .call .. | .access ..
  | .conditional .. | .collection .. | .parenthesized _ | .function .expression ..
  | .function .arrow .. => true
  | _ => false

def holdsStatements : Shape α → Bool
  | .function .. | .block _ | .branch .. | .loop .. | .file .. => true
  | _ => false

@[simp] theorem holdsStatements_map (f : α → β) (shape : Shape α) :
    (shape.map f).holdsStatements = shape.holdsStatements := by
  cases shape <;> rfl

theorem slots_eq_parts (shape : Shape α) (h : shape.holdsStatements = false) :
    shape.slots = shape.parts := by
  cases shape with
  | loop => cases h
  | _ => rfl

/-- The parts with the places they stand in. -/
def placed (flags : Flags) : Shape α → List (Slot × α)
  | .bare _ | .identifier _ | .literal .. => []
  | .binary left _ right => [(.expression, left), (.expression, right)]
  | .unary _ _ operand => [(.expression, operand)]
  | .call _ callee _ arguments => (.expression, callee) :: arguments.map (.expression, ·)
  | .access isComputed object key =>
    [(.expression, object), (if isComputed then .expression else .name, key)]
  | .conditional condition whenTrue whenFalse =>
    [(.expression, condition), (.expression, whenTrue), (.expression, whenFalse)]
  | .collection isObject elements =>
    elements.map (if isObject then .property else .expression, ·)
  | .property name initializer => [(.key, name), (.expression, initializer)]
  | .parenthesized expression => [(.expression, expression)]
  | .function _ name parameters body =>
    (.name, name) :: parameters.map (.parameter, ·) ++
      [(if flags.expressionBody then .expression else .body, body)]
  | .parameter name initializer => [(.name, name), (.expression, initializer)]
  | .block statements => statements.map (.statement, ·)
  | .variables isStatement declarations =>
    declarations.map (if isStatement then .list else .variable, ·)
  | .variable name initializer => [(.name, name), (.expression, initializer)]
  | .evaluate expression => [(.expression, expression)]
  | .exit _ expression => [(.expression, expression)]
  | .branch condition thenBranch elseBranch =>
    [(.expression, condition), (.statement, thenBranch), (.statement, elseBranch)]
  | .loop .for initializer condition update body =>
    [(.start, initializer), (.expression, condition), (.expression, update), (.statement, body)]
  | .loop _ initializer condition update body =>
    [(.vacant, initializer), (.expression, condition), (.vacant, update), (.statement, body)]
  | .file _ statements => statements.map (.statement, ·)

theorem map_snd_placed (flags : Flags) (shape : Shape α) :
    (shape.placed flags).map (·.2) = shape.parts := by
  cases shape with
  | loop form _ _ _ _ => cases form <;> rfl
  | _ => simp [placed, parts, Function.comp_def]

end Shape

/-- Whether a node may stand in a place. A part that the source leaves out may be missing
anywhere. -/
def Slot.admits (slot : Slot) : Node → Bool
  | .absent => true
  | .mk _ shape =>
    match slot, shape with
    | .expression, shape => shape.isExpression
    | .statement, shape => shape.kind.isStatement
    | .body, .block _ => true
    | .name, .identifier _ => true
    | .key, .identifier _ | .key, .literal .. => true
    | .property, .property .. => true
    | .parameter, .parameter .. => true
    | .variable, .variable .. => true
    | .list, .variables false _ => true
    | .start, .variables false _ => true
    | .start, shape => shape.isExpression
    | _, _ => false

@[simp] theorem Slot.admits_absent (slot : Slot) : slot.admits .absent = true := by
  cases slot <;> rfl

theorem Slot.eq_absent {node : Node} (h : Slot.vacant.admits node) : node = .absent := by
  cases node with
  | absent => rfl
  | mk info shape => cases shape <;> cases h

theorem Slot.not_file (slot : Slot) {node : Node} (h : slot.admits node) :
    node.isKind .file = false := by
  cases node with
  | absent => rfl
  | mk info shape =>
    cases shape with
    | bare kind =>
      cases slot <;> simp_all [admits, Shape.isExpression]
      all_goals cases kind <;> simp_all [Node.isKind, Node.kind?, Shape.kind, Kind.isStatement]
    | file => cases slot <;> cases h
    | function form _ _ _ | loop form _ _ _ _ => cases form <;> rfl
    | literal flag _ _ _ | unary flag _ _ | call flag _ _ _ | access flag _ _ | collection flag _
    | «variables» flag _ | exit flag _ => cases flag <;> rfl
    | _ => rfl

theorem Slot.not_isStatement (slot : Slot) {node : Node} (h : slot.admits node)
    (hs : slot ≠ .statement ∧ slot ≠ .body) : node.isStatement = false := by
  cases node with
  | absent => rfl
  | mk info shape =>
    cases shape with
    | bare kind =>
      cases slot <;> simp_all [admits, Shape.isExpression]
      all_goals cases kind <;> simp_all [Node.isStatement, Node.kind?, Shape.kind, Kind.isStatement]
    | function form _ _ _ =>
      cases form <;> cases slot <;> simp_all [admits, Shape.isExpression] <;> rfl
    | literal flag _ _ _ | unary flag _ _ | call flag _ _ _ | access flag _ _ | collection flag _ =>
      cases flag <;> rfl
    | «variables» isStatement _ =>
      cases isStatement <;> cases slot <;> simp_all [admits, Shape.isExpression] <;> rfl
    | block | evaluate | exit | branch | loop =>
      cases slot <;> simp_all [admits, Shape.isExpression]
    | _ => rfl

namespace Node

/-- All parts of the node and of the nodes below it stand where they may. -/
inductive Regular : Node → Prop where
  | absent : Regular .absent
  | mk {info : Info} {shape : Shape Node} :
    (∀ entry ∈ shape.placed info.flags, entry.1.admits entry.2) →
    (∀ part ∈ shape.parts, Regular part) → Regular (.mk info shape)

theorem Regular.placed {info : Info} {shape : Shape Node} (h : Regular (.mk info shape)) :
    ∀ entry ∈ shape.placed info.flags, entry.1.admits entry.2 := by
  cases h with
  | mk hp _ => exact hp

theorem Regular.part {info : Info} {shape : Shape Node} (h : Regular (.mk info shape)) :
    ∀ part ∈ shape.parts, Regular part := by
  cases h with
  | mk _ hp => exact hp

theorem Regular.within {a b : Node} (hb : Regular b) (h : Within a b) : Regular a := by
  induction h with
  | self => exact hb
  | part hp _ ih => exact ih (hb.part _ hp)

theorem Regular.admits_of_mem {info : Info} {shape : Shape Node} {part : Node}
    (h : Regular (.mk info shape)) (hp : part ∈ shape.parts) :
    ∃ slot, (slot, part) ∈ shape.placed info.flags ∧ slot.admits part := by
  rw [← shape.map_snd_placed info.flags, List.mem_map] at hp
  obtain ⟨⟨slot, part⟩, hm, rfl⟩ := hp
  exact ⟨slot, hm, h.placed _ hm⟩

theorem Regular.part_not_statement {info : Info} {shape : Shape Node} {part : Node}
    (h : Regular (.mk info shape)) (hp : part ∈ shape.parts) (hs : shape.holdsStatements = false) :
    part.isStatement = false := by
  obtain ⟨slot, hm, ha⟩ := h.admits_of_mem hp
  refine slot.not_isStatement ha ?_
  cases shape with
  | access isComputed _ _ | collection isComputed _ | «variables» isComputed _ =>
    cases isComputed <;> simp [Shape.placed] at hm <;> grind
  | function | block | branch | loop | file => cases hs
  | _ => simp [Shape.placed] at hm <;> grind

theorem Regular.mem_slots {info : Info} {shape : Shape Node} {part : Node}
    (h : Regular (.mk info shape)) (hp : part ∈ shape.parts) :
    part ∈ shape.slots ∨ part = .absent := by
  cases shape with
  | loop form initializer condition update body =>
    cases form with
    | doWhile =>
      simp only [Shape.parts, List.mem_cons, List.not_mem_nil, or_false] at hp
      obtain rfl | rfl | rfl | rfl := hp
      · exact .inr (Slot.eq_absent (h.placed (.vacant, part) (by simp [Shape.placed])))
      · exact .inl (by simp [Shape.slots])
      · exact .inr (Slot.eq_absent (h.placed (.vacant, part) (by simp [Shape.placed])))
      · exact .inl (by simp [Shape.slots])
    | _ => exact .inl hp
  | _ => exact .inl hp

theorem Regular.part_not_file {info : Info} {shape : Shape Node} {part : Node}
    (h : Regular (.mk info shape)) (hp : part ∈ shape.parts) : part.isKind .file = false := by
  obtain ⟨slot, -, ha⟩ := h.admits_of_mem hp
  exact slot.not_file ha

end Node

end ArrayLoops.Tree
