import ArrayLoops.Proofs.Tree
import ArrayLoops.Tree.Arena
import Mathlib.Data.List.Nodup
import Mathlib.Data.List.Pairwise

/-!
# Arenas as forests

An arena is a forest if its nodes are those of some trees, each once, and every part is linked to
its whole. Making a node out of trees of the forest leaves a forest. In a forest the way up from a
node by links is the way through the tree.
-/

namespace ArrayLoops.Tree

namespace Arena

/-- The arena has every node of the tree under its number, and links its parts to it. -/
inductive Knows (arena : Arena) : Node → Prop where
  | absent : Knows arena .absent
  | mk {info : Info} {shape : Shape Node} :
    arena.get? info.id = some (.mk info shape) →
    (∀ part ∈ shape.parts, Knows arena part) →
    (∀ part ∈ shape.parts, ∀ id, part.id? = some id →
      id < info.id ∧ arena.parents[id]? = some (some info.id)) →
    Knows arena (.mk info shape)

/-- The nodes of the arena are those of the trees, each once, and no tree is part of anything. -/
structure Forest (arena : Arena) (trees : List Node) : Prop where
  sizes : arena.parents.size = arena.size
  ids : (trees.flatMap Node.ids).Perm (List.range arena.size)
  known : ∀ tree ∈ trees, arena.Knows tree
  loose : ∀ tree ∈ trees, ∀ id, tree.id? = some id → arena.parents[id]? = some none

theorem empty_forest : Forest .empty [] where
  sizes := rfl
  ids := .refl _
  known := by simp
  loose := by simp

theorem link_size (parent : NodeId) (parents : Array (Option NodeId)) (part : Node) :
    (link parent parents part).size = parents.size := by
  unfold link
  split <;> simp

theorem linkAll_size (parent : NodeId) (parents : Array (Option NodeId)) (parts : List Node) :
    (parts.foldl (link parent) parents).size = parents.size := by
  induction parts generalizing parents with
  | nil => rfl
  | cons part rest ih => rw [List.foldl_cons, ih, link_size]

theorem link_other {parent id : NodeId} {parents : Array (Option NodeId)} {part : Node}
    (h : part.id? ≠ some id) : (link parent parents part)[id]? = parents[id]? := by
  unfold link
  split
  · rename_i other ho
    have : other ≠ id := fun he => h (he ▸ ho)
    rw [Array.getElem?_modify, if_neg this]
  · rfl

theorem link_self {parent id : NodeId} {parents : Array (Option NodeId)} {part : Node}
    (h : part.id? = some id) (hid : id < parents.size) :
    (link parent parents part)[id]? = some (some parent) := by
  rw [link, h, Array.getElem?_modify, if_pos rfl, Array.getElem?_eq_getElem hid]
  rfl

theorem getElem?_linkAll {parent id : NodeId} {parents : Array (Option NodeId)}
    (parts : List Node) (hid : id < parents.size) :
    (parts.foldl (link parent) parents)[id]? =
      if some id ∈ parts.map Node.id? then some (some parent) else parents[id]? := by
  induction parts generalizing parents with
  | nil => simp
  | cons part rest ih =>
    rw [List.foldl_cons, ih (by rwa [link_size]), List.map_cons]
    by_cases hr : some id ∈ rest.map Node.id?
    · rw [if_pos hr, if_pos (List.mem_cons_of_mem _ hr)]
    · rw [if_neg hr]
      by_cases hp : part.id? = some id
      · rw [link_self hp hid, if_pos (List.mem_cons.mpr (.inl hp.symm))]
      · rw [link_other hp, if_neg]
        intro h
        obtain h | h := List.mem_cons.mp h
        · exact hp h.symm
        · exact hr h

section
variable {arena : Arena} {pos fin : Nat} {flags : Flags} {shape : Shape Node} {id : NodeId}

theorem add_get? (hlt : id < arena.size) :
    (arena.add pos fin flags shape).2.get? id = arena.get? id := by
  have hne : id ≠ arena.nodes.size := Nat.ne_of_lt hlt
  simp only [get?, add]
  rw [Array.getElem?_push, if_neg hne]

theorem add_parents (hs : arena.parents.size = arena.size) (hlt : id < arena.size) :
    (arena.add pos fin flags shape).2.parents[id]? =
      if some id ∈ shape.parts.map Node.id? then some (some arena.size) else arena.parents[id]? := by
  have hne : id ≠ (shape.parts.foldl (link arena.nodes.size) arena.parents).size := by
    rw [linkAll_size, hs]
    exact Nat.ne_of_lt hlt
  simp only [add]
  rw [Array.getElem?_push, if_neg hne, getElem?_linkAll _ (hs ▸ hlt)]
  rfl

end

def innerIds : Node → List NodeId
  | .absent => []
  | .mk _ shape => shape.parts.flatMap Node.ids

theorem innerIds_subset {tree : Node} : innerIds tree ⊆ tree.ids := by
  cases tree with
  | absent => exact List.Subset.refl _
  | mk info shape =>
    rw [Node.ids_mk]
    exact List.subset_cons_self _ _

theorem Knows.of_same {arena arena' : Arena} {tree : Node} (h : arena.Knows tree)
    (hn : ∀ id ∈ tree.ids, arena'.get? id = arena.get? id)
    (hp : ∀ id ∈ innerIds tree, arena'.parents[id]? = arena.parents[id]?) :
    arena'.Knows tree := by
  induction h with
  | absent => exact .absent
  | @mk info shape hget hparts hlinks ih =>
    have hinner : ∀ part ∈ shape.parts, ∀ id ∈ part.ids, id ∈ innerIds (.mk info shape) :=
      fun part hpart id hid => List.mem_flatMap.mpr ⟨part, hpart, hid⟩
    refine .mk ?_ (fun part hpart => ih part hpart ?_ ?_) fun part hpart id hid => ?_
    · rw [hn _ (by simp), hget]
    · intro id hid
      rw [Node.ids_mk] at hn
      exact hn id (List.mem_cons_of_mem _ (hinner part hpart id hid))
    · intro id hid
      exact hp id (hinner part hpart id (innerIds_subset hid))
    · obtain ⟨hlt, hlink⟩ := hlinks part hpart id hid
      exact ⟨hlt, by rw [hp id (hinner part hpart id (Node.id?_mem_ids hid)), hlink]⟩

namespace Forest

variable {arena : Arena} {trees : List Node}

theorem perm {others : List Node} (h : arena.Forest trees) (hp : trees.Perm others) :
    arena.Forest others where
  sizes := h.sizes
  ids := (hp.flatMap_right Node.ids).symm.trans h.ids
  known tree ht := h.known tree (hp.mem_iff.mpr ht)
  loose tree ht := h.loose tree (hp.mem_iff.mpr ht)

theorem nodup (h : arena.Forest trees) : (trees.flatMap Node.ids).Nodup :=
  h.ids.nodup_iff.mpr List.nodup_range

theorem id_lt (h : arena.Forest trees) {tree : Node} (ht : tree ∈ trees) {id : NodeId}
    (hid : id ∈ tree.ids) : id < arena.size :=
  List.mem_range.mp (h.ids.mem_iff.mp (List.mem_flatMap.mpr ⟨tree, ht, hid⟩))

theorem root_not_inner (h : arena.Forest trees) {tree other : Node} (ht : tree ∈ trees)
    (ho : other ∈ trees) {id : NodeId} (hid : tree.id? = some id) : id ∉ innerIds other := by
  intro hin
  have hn := List.nodup_flatMap.mp h.nodup
  by_cases he : tree = other
  · subst he
    cases tree with
    | absent => cases hid
    | mk info shape =>
      cases hid
      have := hn.1 _ ht
      rw [Node.ids_mk, List.nodup_cons] at this
      exact this.1 hin
  · have : Std.Symm (Function.onFun List.Disjoint Node.ids) := ⟨fun _ _ hd => List.disjoint_symm hd⟩
    exact hn.2.forall ht ho he (Node.id?_mem_ids hid) (innerIds_subset hin)

theorem add {pos fin : Nat} {flags : Flags} {shape : Shape Node}
    (h : arena.Forest (shape.parts ++ trees)) :
    (arena.add pos fin flags shape).2.Forest ((arena.add pos fin flags shape).1 :: trees) := by
  -- What is known of the trees of the old forest is still known.
  have hknown : ∀ tree ∈ shape.parts ++ trees,
      (arena.add pos fin flags shape).2.Knows tree := by
    intro tree ht
    refine (h.known tree ht).of_same (fun id hid => add_get? (h.id_lt ht hid)) fun id hid => ?_
    rw [add_parents h.sizes (h.id_lt ht (innerIds_subset hid)), if_neg]
    intro hm
    obtain ⟨part, hpart, hpid⟩ := List.mem_map.mp hm
    exact h.root_not_inner (List.mem_append_left _ hpart) ht hpid hid
  refine ⟨?_, ?_, ?_, ?_⟩
  · simp only [Arena.add, size, Array.size_push, linkAll_size, h.sizes]
  · simp only [Arena.add, List.flatMap_cons, Node.ids_mk, size, Array.size_push, List.range_succ,
      List.cons_append]
    have := h.ids
    rw [List.flatMap_append] at this
    exact (this.cons _).trans (List.perm_append_singleton _ _).symm
  · intro tree ht
    obtain rfl | ht := List.mem_cons.mp ht
    · refine .mk (by simp [get?, Arena.add])
        (fun part hpart => hknown part (List.mem_append_left _ hpart)) fun part hpart id hid => ?_
      have hlt : id < arena.size := h.id_lt (List.mem_append_left _ hpart) (Node.id?_mem_ids hid)
      refine ⟨hlt, ?_⟩
      rw [add_parents h.sizes hlt, if_pos (List.mem_map.mpr ⟨part, hpart, hid⟩)]
      rfl
    · exact hknown tree (List.mem_append_right _ ht)
  · intro tree ht id hid
    obtain rfl | ht := List.mem_cons.mp ht
    · cases hid
      simp only [Arena.add]
      rw [Array.getElem?_push, if_pos (by rw [linkAll_size, h.sizes]; rfl)]
    · have hmem := List.mem_append_right shape.parts ht
      rw [add_parents h.sizes (h.id_lt hmem (Node.id?_mem_ids hid)), if_neg, h.loose tree hmem id hid]
      intro hm
      obtain ⟨part, hpart, hpid⟩ := List.mem_map.mp hm
      have hn := h.nodup
      rw [List.flatMap_append] at hn
      exact (List.nodup_append'.mp hn).2.2
        (List.mem_flatMap.mpr ⟨part, hpart, Node.id?_mem_ids hpid⟩)
        (List.mem_flatMap.mpr ⟨tree, ht, Node.id?_mem_ids hid⟩)

end Forest

theorem Knows.within {arena : Arena} {a b : Node} (hb : arena.Knows b) (h : Node.Within a b) :
    arena.Knows a := by
  induction h with
  | self => exact hb
  | part hp _ ih =>
    cases hb with
    | mk _ hparts _ => exact ih (hparts _ hp)

theorem Knows.get {arena : Arena} {node : Node} {id : NodeId} (h : arena.Knows node)
    (hid : node.id? = some id) : arena.get? id = some node := by
  cases h with
  | absent => cases hid
  | mk hget _ _ =>
    cases hid
    exact hget

theorem Knows.unique {arena : Arena} {root a b : Node} {id : NodeId} (h : arena.Knows root)
    (ha : Node.Within a root) (hb : Node.Within b root) (hia : a.id? = some id)
    (hib : b.id? = some id) : a = b :=
  Option.some.inj (((h.within ha).get hia).symm.trans ((h.within hb).get hib))

theorem Knows.parent {arena : Arena} {info : Info} {shape : Shape Node} {part : Node}
    (h : arena.Knows (.mk info shape)) (hp : part ∈ shape.parts) (hpresent : part.isPresent) :
    arena.parent? part = some (.mk info shape) := by
  cases part with
  | absent => cases hpresent
  | mk info' shape' =>
    cases h with
    | mk hget _ hlinks =>
      have hlink := (hlinks _ hp info'.id rfl).2
      simp [parent?, parentOf?, hlink, hget]

end Arena

namespace Node

theorem Within.nodup {a b : Node} (h : Within a b) (hb : b.ids.Nodup) : a.ids.Nodup := by
  induction h with
  | self => exact hb
  | part hp _ ih =>
    rw [ids_mk, List.nodup_cons] at hb
    exact ih ((List.nodup_flatMap.mp hb.2).1 _ hp)

theorem nodup_slots {info : Info} {shape : Shape Node} (h : (mk info shape).ids.Nodup) :
    (shape.slots.flatMap ids).Nodup := by
  rw [ids_mk, List.nodup_cons] at h
  cases shape with
  | loop form initializer condition update body =>
    cases form with
    | doWhile =>
      simp only [Shape.parts, Shape.slots, List.flatMap_cons, List.flatMap_nil,
        List.append_nil] at h ⊢
      rw [List.nodup_append_comm]
      refine h.2.sublist (.trans (.append_left ?_ _) (List.sublist_append_right _ _))
      exact List.sublist_append_right _ _
    | _ => exact h.2
  | _ => exact h.2

/-- The nodes above a node of a tree, nearest first. -/
inductive Path (root : Node) : Node → List Node → Prop where
  | root : Path root root []
  | part {info : Info} {shape : Shape Node} {part : Node} {above : List Node} :
    Path root (.mk info shape) above → part ∈ shape.parts → part.isPresent →
    Path root part (.mk info shape :: above)

theorem Path.within {root node : Node} {above : List Node} (h : Path root node above) :
    Within node root := by
  induction h with
  | root => exact .self
  | part _ hp _ ih => exact Within.trans (.part hp .self) ih

theorem Path.above_within {root node outer : Node} {above : List Node} (h : Path root node above)
    (ho : outer ∈ above) : Within outer root := by
  induction h with
  | root => cases ho
  | part hpath _ _ ih =>
    obtain rfl | ho := List.mem_cons.mp ho
    · exact hpath.within
    · exact ih ho

theorem Path.within_part {root node outer : Node} {above : List Node} (h : Path root node above)
    (ho : outer ∈ above) : ∃ part ∈ outer.parts, Within node part := by
  induction h with
  | root => cases ho
  | @part info shape part above _ hp _ ih =>
    obtain rfl | ho := List.mem_cons.mp ho
    · exact ⟨part, hp, .self⟩
    · obtain ⟨outerPart, hm, hw⟩ := ih ho
      exact ⟨outerPart, hm, Within.trans (.part hp .self) hw⟩

theorem Path.append {root middle node : Node} {above below : List Node}
    (ht : Path root middle above) (h : Path middle node below) :
    Path root node (below ++ above) := by
  induction h with
  | root => exact ht
  | part _ hp hpresent ih => exact .part ih hp hpresent

theorem Within.path {root node : Node} (h : Within node root) (hpresent : node.isPresent) :
    ∃ above, Path root node above := by
  induction h with
  | self => exact ⟨[], .root⟩
  | @part info shape part hp hw ih =>
    obtain ⟨below, hb⟩ := ih
    have hpart : part.isPresent := by
      cases hw with
      | self => exact hpresent
      | part => rfl
    exact ⟨_, Path.append (.part .root hp hpart) hb⟩

end Node

namespace Arena

variable {arena : Arena} {root node : Node} {above : List Node}

theorem Knows.path_bound (h : arena.Knows root) (hp : Node.Path root node above) {id top : NodeId}
    (hid : node.id? = some id) (htop : root.id? = some top) : above.length + id ≤ top := by
  induction hp generalizing id with
  | root =>
    rw [hid] at htop
    simp only [Option.some.injEq] at htop
    simp [htop]
  | @part info shape part above hpath hmem _ ih =>
    have hwhole : above.length + info.id ≤ top := ih rfl
    cases h.within hpath.within with
    | mk _ _ hlinks =>
      have hlt := (hlinks part hmem id hid).1
      calc above.length + 1 + id = above.length + (id + 1) := Nat.add_right_comm ..
        _ ≤ above.length + info.id := Nat.add_le_add_left hlt _
        _ ≤ top := hwhole

theorem Knows.le_of_mem_ids (h : arena.Knows node) {id top : NodeId} (hid : id ∈ node.ids)
    (htop : node.id? = some top) : id ≤ top := by
  induction h generalizing id top with
  | absent => cases htop
  | @mk info shape _ _ hlinks ih =>
    cases htop
    rw [Node.ids_mk, List.mem_cons, List.mem_flatMap] at hid
    obtain rfl | ⟨part, hp, hid⟩ := hid
    · exact Nat.le_refl _
    · have hpresent : part.isPresent := by
        cases part with
        | absent => cases hid
        | mk => rfl
      obtain ⟨partId, hpart⟩ := Node.exists_id hpresent
      exact Nat.le_trans (ih part hp hid hpart) (Nat.le_of_lt (hlinks part hp partId hpart).1)

theorem Knows.lt_of_above (h : arena.Knows root) (hp : Node.Path root node above) {outer : Node}
    (ho : outer ∈ above) {id top : NodeId} (hid : id ∈ node.ids) (htop : outer.id? = some top) :
    id < top := by
  induction hp generalizing id with
  | root => cases ho
  | @part info shape part above hpath hmem hpresent ih =>
    obtain ⟨partId, hpart⟩ := Node.exists_id hpresent
    have hlt : id < info.id := by
      cases h.within hpath.within with
      | mk _ hknown hlinks =>
        exact Nat.lt_of_le_of_lt ((hknown part hmem).le_of_mem_ids hid hpart)
          (hlinks part hmem partId hpart).1
    obtain rfl | ho := List.mem_cons.mp ho
    · cases htop
      exact hlt
    · exact Nat.lt_trans hlt (ih ho (by simp))

theorem ancestorsUpTo_path (h : arena.Knows root) (hroot : arena.parent? root = none)
    (hp : Node.Path root node above) {count : Nat} (hc : above.length ≤ count) :
    arena.ancestorsUpTo count node = above := by
  induction hp generalizing count with
  | root =>
    cases count with
    | zero => rfl
    | succ count => simp [ancestorsUpTo, hroot]
  | @part info shape part above hpath hmem hpresent ih =>
    cases count with
    | zero => cases hc
    | succ count =>
      have hparent := (h.within hpath.within).parent hmem hpresent
      simp only [ancestorsUpTo, hparent]
      rw [ih (by simpa using hc)]

theorem Forest.parent_root (h : arena.Forest [root]) : arena.parent? root = none := by
  cases root with
  | absent => rfl
  | mk info shape =>
    have := h.loose _ List.mem_cons_self info.id rfl
    simp [parent?, parentOf?, this]

theorem Forest.within (h : arena.Forest [root]) {id : NodeId} (hget : arena.get? id = some node) :
    node.Within root ∧ node.id? = some id := by
  have hlt : id < arena.size := (Array.getElem?_eq_some_iff.mp hget).1
  have hmem : id ∈ root.ids := by
    simpa using h.ids.mem_iff.mpr (List.mem_range.mpr hlt)
  obtain ⟨inner, hw, hid⟩ := Node.exists_within_of_mem_ids hmem
  have hinner := ((h.known root List.mem_cons_self).within hw).get hid
  rw [hget] at hinner
  obtain rfl := Option.some.inj hinner
  exact ⟨hw, hid⟩

theorem Forest.ancestors_eq (h : arena.Forest [root]) (hp : Node.Path root node above) :
    arena.ancestors node = above := by
  have hknown := h.known root List.mem_cons_self
  refine ancestorsUpTo_path hknown h.parent_root hp ?_
  cases root with
  | absent =>
    cases hp with
    | root => simp
    | part hpath => cases hpath.within
  | mk info shape =>
    have htop : info.id < arena.size := h.id_lt List.mem_cons_self (Node.id?_mem_ids rfl)
    have hnode : ∃ id, node.id? = some id := by
      cases hp with
      | root => exact ⟨info.id, rfl⟩
      | part _ _ hpresent =>
        cases node with
        | absent => cases hpresent
        | mk info' shape' => exact ⟨info'.id, rfl⟩
    obtain ⟨id, hid⟩ := hnode
    have hbound : above.length + id ≤ info.id := hknown.path_bound hp hid rfl
    exact Nat.le_of_lt (Nat.lt_of_le_of_lt (Nat.le_trans (Nat.le_add_right _ _) hbound) htop)

end Arena

end ArrayLoops.Tree
