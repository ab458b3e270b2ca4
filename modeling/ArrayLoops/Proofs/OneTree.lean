import ArrayLoops.Proofs.ParsedTree
import Mathlib.Logic.Relation

/-!
# The arena of a parse is one tree

Links and children agree: each node but the root is exactly one child of the later node it is linked
to, and the children of the root, their children and so on are all nodes of the arena. So a walk up
ends at the root and a walk down comes to every node once.
-/

namespace ArrayLoops.Tree

variable {arena : Arena} {root node : Node}

/-- The nodes of the arena are those of one tree, whose links and children agree. -/
structure Arena.IsTree (arena : Arena) (root : Node) : Prop where
  /-- Nothing is above the root. -/
  top : ∃ id, arena.get? id = some root ∧ arena.parents[id]? = some none
  /-- Every other node has one link up, to a later node that has it among its children once. -/
  parent : ∀ id node, arena.get? id = some node → node ≠ root →
    ∃ above whole, arena.parents[id]? = some (some above) ∧ id < above ∧
      arena.get? above = some whole ∧ whole.children.countP (·.id? = some id) = 1
  /-- Every child has its own number and is linked to the node that it is a child of. -/
  child : ∀ id node, arena.get? id = some node → ∀ child ∈ node.children,
    ∃ below, child.id? = some below ∧ arena.get? below = some child ∧
      arena.parents[below]? = some (some id)
  /-- From the root, children lead to the nodes of the arena and to no others. -/
  reached : ∀ node, Relation.ReflTransGen (fun whole child => child ∈ whole.children) root node ↔
    ∃ id, arena.get? id = some node
  /-- A walk up comes to later and later nodes, until it is at the root. -/
  upward : ∀ id node, arena.get? id = some node →
    (node :: arena.ancestors node).Pairwise (fun a b => ∃ i j, a.id? = some i ∧ b.id? = some j ∧
      i < j) ∧ (node :: arena.ancestors node).getLast? = some root
  /-- A walk down comes to every node once. -/
  downward : (root.preorder.filterMap (·.2.id?)).Perm (List.range arena.size)

namespace Node

theorem mem_children {info : Info} {shape : Shape Node} {part : Node} :
    part ∈ (mk info shape).children ↔ part ∈ shape.slots ∧ part.isPresent := by
  simp [children]

theorem Regular.mem_children {info : Info} {shape : Shape Node} {part : Node}
    (h : Regular (.mk info shape)) :
    part ∈ (Node.mk info shape).children ↔ part ∈ shape.parts ∧ part.isPresent := by
  rw [Node.mem_children]
  refine ⟨fun ⟨hs, hp⟩ => ⟨shape.slots_subset hs, hp⟩, fun ⟨hs, hp⟩ => ?_⟩
  obtain hs | rfl := h.mem_slots hs
  · exact ⟨hs, hp⟩
  · cases hp

theorem Regular.within_iff (h : Regular root) (hpresent : root.isPresent) :
    Relation.ReflTransGen (fun whole child => child ∈ whole.children) root node ↔
      Within node root ∧ node.isPresent := by
  constructor
  · intro hr
    induction hr with
    | refl => exact ⟨.self, hpresent⟩
    | @tail whole child _ hchild ih =>
      obtain ⟨hw, hp⟩ := ih
      cases whole with
      | absent => cases hp
      | mk info shape =>
        obtain ⟨hpart, hthere⟩ := (h.within hw).mem_children.mp hchild
        exact ⟨Within.trans (.part hpart .self) hw, hthere⟩
  · rintro ⟨hw, hp⟩
    obtain ⟨above, hpath⟩ := hw.path hp
    clear hw
    induction hpath with
    | root => exact .refl
    | part hpath hpart hthere ih =>
      exact (ih rfl).tail ((h.within hpath.within).mem_children.mpr ⟨hpart, hthere⟩)

theorem Regular.slots_ids {info : Info} {shape : Shape Node} (h : Regular (.mk info shape)) :
    (shape.slots.flatMap ids).Perm (shape.parts.flatMap ids) := by
  cases shape with
  | loop form initializer condition update body =>
    cases form with
    | doWhile =>
      have hinit := Slot.eq_absent (h.placed (.vacant, initializer) (by simp [Shape.placed]))
      have hupdate := Slot.eq_absent (h.placed (.vacant, update) (by simp [Shape.placed]))
      subst hinit hupdate
      simpa [Shape.slots, Shape.parts] using List.perm_append_comm
    | _ => exact .refl _
  | _ => exact .refl _

theorem preorderOnto_mk (info : Info) (shape : Shape Node) (depth : Nat)
    (tail : List (Nat × Node)) :
    (mk info shape).preorderOnto depth tail = (depth, mk info shape) ::
      shape.slots.foldr (fun part rest => part.preorderOnto (depth + 1) rest) tail := by
  rw [preorderOnto, fold_mk]
  simp [Shape.map_map, Function.comp_def, Shape.slots_map, List.foldr_map]
  rfl

theorem Regular.preorder_ids (h : Regular node) (depth : Nat) (tail : List (Nat × Node)) :
    ((node.preorderOnto depth tail).filterMap (·.2.id?)).Perm
      (node.ids ++ tail.filterMap (·.2.id?)) := by
  induction node generalizing depth tail with
  | absent => exact .refl _
  | mk info shape ih =>
    have hslots : ∀ slots ⊆ shape.slots,
        ((slots.foldr (fun part rest => part.preorderOnto (depth + 1) rest) tail).filterMap
          (·.2.id?)).Perm (slots.flatMap ids ++ tail.filterMap (·.2.id?)) := by
      intro slots hsub
      induction slots with
      | nil => exact .refl _
      | cons part rest ihrest =>
        obtain ⟨hpart, hrest⟩ := List.cons_subset.mp hsub
        have hmem := shape.slots_subset hpart
        rw [List.foldr_cons, List.flatMap_cons, List.append_assoc]
        exact (ih part hmem (h.part part hmem) _ _).trans ((ihrest hrest).append_left _)
    rw [preorderOnto_mk, ids_mk, List.cons_append]
    simp only [List.filterMap_cons, id?_mk]
    exact ((hslots _ (List.Subset.refl _)).trans (h.slots_ids.append_right _)).cons _

theorem countP_children {info : Info} {shape : Shape Node} {part : Node} {id : NodeId}
    (hnodup : (mk info shape).ids.Nodup) (hpart : part ∈ (mk info shape).children)
    (hid : part.id? = some id) : (mk info shape).children.countP (·.id? = some id) = 1 := by
  have hslots := nodup_slots hnodup
  obtain ⟨hs, hpresent⟩ := Node.mem_children.mp hpart
  obtain ⟨before, after, hsplit⟩ := List.append_of_mem hs
  -- The number is among those of this slot and so in no other.
  rw [hsplit, List.flatMap_append, List.flatMap_cons] at hslots
  have hbefore : ∀ other ∈ before, other.id? ≠ some id := by
    intro other ho hoid
    exact (List.nodup_append'.mp hslots).2.2 (List.mem_flatMap.mpr ⟨other, ho, id?_mem_ids hoid⟩)
      (List.mem_append_left _ (id?_mem_ids hid))
  have hafter : ∀ other ∈ after, other.id? ≠ some id := by
    intro other ho hoid
    exact (List.nodup_append'.mp (List.nodup_append'.mp hslots).2.1).2.2 (id?_mem_ids hid)
      (List.mem_flatMap.mpr ⟨other, ho, id?_mem_ids hoid⟩)
  have hzero : ∀ others : List Node, (∀ other ∈ others, other.id? ≠ some id) →
      (others.filter isPresent).countP (·.id? = some id) = 0 := by
    intro others hne
    refine List.countP_eq_zero.mpr fun other ho => ?_
    simpa using hne other (List.mem_filter.mp ho).1
  simp [children, hsplit, hpresent, hid, hzero before hbefore, hzero after hafter]

end Node

namespace Arena

theorem Knows.path_rising (h : arena.Knows root) {above : List Node}
    (hpath : Node.Path root node above) (hpresent : node.isPresent) :
    (node :: above).Pairwise
      (fun a b => ∃ i j, a.id? = some i ∧ b.id? = some j ∧ i < j) := by
  induction hpath with
  | root => simp
  | @part info shape part above hpath hpart hthere ih =>
    refine List.pairwise_cons.mpr ⟨fun outer ho => ?_, ih rfl⟩
    obtain ⟨i, hi⟩ := Node.exists_id hthere
    have hout : outer.isPresent := by
      obtain rfl | ho := List.mem_cons.mp ho
      · rfl
      · obtain ⟨inner, hinner, -⟩ := hpath.within_part ho
        cases outer with
        | absent => cases hinner
        | mk => rfl
    obtain ⟨j, hj⟩ := Node.exists_id hout
    exact ⟨i, j, hi, hj,
      h.lt_of_above (.part hpath hpart hthere) ho (Node.id?_mem_ids hi) hj⟩

theorem getLast_path {above : List Node} (hpath : Node.Path root node above) :
    (node :: above).getLast? = some root := by
  induction hpath with
  | root => rfl
  | part _ _ _ ih => rw [List.getLast?_cons_cons, ih]

theorem Forest.isTree (h : arena.Forest [root]) (hregular : root.Regular)
    (hpresent : root.isPresent) : arena.IsTree root := by
  have hknown := h.known root List.mem_cons_self
  have hnodup : root.ids.Nodup := by simpa using h.nodup
  have hpresent_of : ∀ {id node}, arena.get? id = some node → node.isPresent := by
    intro id node hget
    obtain ⟨-, hid⟩ := h.within hget
    cases node with
    | absent => cases hid
    | mk => rfl
  refine ⟨?_, ?_, ?_, ?_, ?_, ?_⟩
  · obtain ⟨id, hid⟩ := Node.exists_id hpresent
    exact ⟨id, hknown.get hid, h.loose root List.mem_cons_self id hid⟩
  · intro id node hget hne
    obtain ⟨hw, hid⟩ := h.within hget
    obtain ⟨above, hpath⟩ := hw.path (hpresent_of hget)
    cases hpath with
    | root => exact absurd rfl hne
    | @part info shape _ above hpath hpart hthere =>
      have hwhole := hknown.within hpath.within
      have hchild := (hregular.within hpath.within).mem_children.mpr ⟨hpart, hthere⟩
      cases hwhole with
      | mk hwhole _ hlinks =>
        obtain ⟨hlt, hlink⟩ := hlinks node hpart id hid
        exact ⟨info.id, _, hlink, hlt, hwhole,
          Node.countP_children (hpath.within.nodup hnodup) hchild hid⟩
  · intro id node hget child hchild
    obtain ⟨hw, hid⟩ := h.within hget
    cases node with
    | absent => cases hid
    | mk info shape =>
      cases hid
      obtain ⟨hpart, hthere⟩ := (hregular.within hw).mem_children.mp hchild
      obtain ⟨below, hbelow⟩ := Node.exists_id hthere
      cases hknown.within hw with
      | mk _ hparts hlinks =>
        exact ⟨below, hbelow, (hparts child hpart).get hbelow, (hlinks child hpart below hbelow).2⟩
  · intro node
    rw [hregular.within_iff hpresent]
    constructor
    · rintro ⟨hw, hthere⟩
      obtain ⟨id, hid⟩ := Node.exists_id hthere
      exact ⟨id, (hknown.within hw).get hid⟩
    · rintro ⟨id, hget⟩
      exact ⟨(h.within hget).1, hpresent_of hget⟩
  · intro id node hget
    obtain ⟨above, hpath⟩ := (h.within hget).1.path (hpresent_of hget)
    rw [h.ancestors_eq hpath]
    exact ⟨hknown.path_rising hpath (hpresent_of hget), getLast_path hpath⟩
  · have hids : root.ids.Perm (List.range arena.size) := by simpa using h.ids
    exact (hregular.preorder_ids 0 []).trans (by simpa using hids)

end Arena

end ArrayLoops.Tree

namespace ArrayLoops

/-- Whatever the text, what the parser makes of it is one tree. -/
theorem parse_makes_one_tree (name text : String) :
    (parse name text).arena.IsTree (parse name text).root :=
  (parse_forest name text).isTree (parse_regular name text) rfl

end ArrayLoops
