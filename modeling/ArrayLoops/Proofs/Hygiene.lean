import ArrayLoops.Proofs.Occurrences
import ArrayLoops.Proofs.PassChanges
import ArrayLoops.Proofs.PassTree
import Mathlib.Data.List.Perm.Basic

/-!
# Generated names do not clash

In the tree that a pass makes, no generated variable has a name of the source, no two generated
variables of one function have the same name, and every generated name is used in the function that
declares it, by the loop or the value of the same call.

Functions are visited before the calls around them are named, so inner functions share names with
outer ones. That does no harm, because no generated name is used outside the function that declares
it: the loops of calls in an argument go before the variable that the argument is put into, and a
call in a function stays there.
-/

namespace ArrayLoops.Lowering

open ArrayLoops.Tree (Arena Info Node NodeId Shape Slot)

attribute [local simp] Shape.parts Shape.placed

namespace Occurrence

def isDeclared : Occurrence → Bool
  | .declared .. => true
  | .used .. => false

/-- Occurrences that have the same declarations as others, and no uses that the others have not. -/
structure Keeps (occurrences others : List Occurrence) : Prop where
  declared : (occurrences.filter isDeclared).Perm (others.filter isDeclared)
  subset : occurrences ⊆ others

variable {occurrences others more : List Occurrence}

theorem Keeps.of_perm (h : occurrences.Perm others) : Keeps occurrences others :=
  ⟨h.filter _, h.subset⟩

theorem Keeps.refl (occurrences : List Occurrence) : Keeps occurrences occurrences :=
  .of_perm (.refl _)

theorem Keeps.trans (h : Keeps occurrences others) (hmore : Keeps others more) :
    Keeps occurrences more :=
  ⟨h.declared.trans hmore.declared, List.Subset.trans h.subset hmore.subset⟩

theorem Keeps.append {occurrences' others' : List Occurrence} (h : Keeps occurrences others)
    (h' : Keeps occurrences' others') : Keeps (occurrences ++ occurrences') (others ++ others') where
  declared := by
    rw [List.filter_append, List.filter_append]
    exact h.declared.append h'.declared
  subset := by
    intro occurrence hm
    obtain hm | hm := List.mem_append.mp hm
    · exact List.mem_append_left _ (h.subset hm)
    · exact List.mem_append_right _ (h'.subset hm)

theorem Keeps.flatMap {α : Type} {items : List α} {f g : α → List Occurrence}
    (h : ∀ item ∈ items, Keeps (f item) (g item)) : Keeps (items.flatMap f) (items.flatMap g) := by
  induction items with
  | nil => exact .refl _
  | cons item rest ih =>
    rw [List.flatMap_cons, List.flatMap_cons]
    exact (h item List.mem_cons_self).append (ih fun other ho => h other (List.mem_cons_of_mem _ ho))

theorem declaredNames_filter (occurrences : List Occurrence) :
    declaredNames (occurrences.filter isDeclared) = declaredNames occurrences := by
  rw [declaredNames, declaredNames, List.filterMap_filter]
  congr 1
  funext occurrence
  cases occurrence <;> rfl

theorem Keeps.declaredNames (h : Keeps occurrences others) :
    (declaredNames occurrences).Perm (declaredNames others) := by
  rw [← declaredNames_filter occurrences, ← declaredNames_filter others]
  exact h.declared.filterMap _

theorem Keeps.closed (h : Keeps occurrences others) (hc : Closed others) : Closed occurrences := by
  intro id name hm hne
  have hdeclared : .declared id name ∈ others.filter isDeclared :=
    List.mem_filter.mpr ⟨hc id name (h.subset hm) hne, rfl⟩
  exact (List.mem_filter.mp (h.declared.mem_iff.mpr hdeclared)).1

theorem Closed.append (h : Closed occurrences) (hm : Closed more) : Closed (occurrences ++ more) := by
  intro id name hmem hne
  obtain hmem | hmem := List.mem_append.mp hmem
  · exact List.mem_append_left _ (h id name hmem hne)
  · exact List.mem_append_right _ (hm id name hmem hne)

theorem declaredNames_append (occurrences others : List Occurrence) :
    declaredNames (occurrences ++ others) = declaredNames occurrences ++ declaredNames others :=
  List.filterMap_append

end Occurrence

def Piece.trees (piece : Piece) : List Node := piece.pending.map (·.node) ++ [piece.node]

section
variable {size : Nat}

open Occurrence (Keeps isDeclared)

theorem occurrences_inPlace {arena : Arena} {info : Info} {id : NodeId} {nodes : Node → Node}
    {value : Code} (h : size ≤ info.id) :
    occurrences size (inPlace arena info id nodes value) =
      value.mentions.flatMap (Code.Mention.occurrences size info.id nodes) := by
  unfold inPlace
  split
  · simp [occurrences_mk, Shape.map, occurrencesNode, value.occurrences_node h]
  · exact value.occurrences_node h

theorem occurrences_block {info : Info} {statements : List Node} :
    occurrences size (.mk info (.block statements)) = statements.flatMap (occurrences size) := by
  simp [occurrences_mk, Shape.map, occurrencesNode, List.flatMap_map]

namespace Piece

variable {piece : Piece} {block : Info}
  (h : piece.isSettled → (occurrences size piece.node).filter isDeclared = [])
include h

theorem items_keeps :
    Keeps (piece.items.flatMap (occurrences size)) (piece.trees.flatMap (occurrences size)) := by
  rw [items, trees, List.flatMap_append, List.flatMap_append]
  refine (Keeps.refl _).append ?_
  split
  · rename_i hgone
    refine ⟨?_, List.nil_subset _⟩
    rw [Bool.or_eq_true, Bool.not_eq_true'] at hgone
    obtain hs | habsent := hgone
    · simp [h hs]
    · cases hnode : piece.node with
      | absent => simp
      | mk => simp [hnode, Node.isPresent] at habsent
  · exact .refl _

theorem embedded_keeps : Keeps (occurrences size (piece.applied block).embedded)
    (piece.trees.flatMap (occurrences size)) := by
  simp only [applied]
  split
  · rename_i hpending
    have hnone : piece.pending = [] := by simpa using hpending
    simpa [trees, hnone] using Keeps.refl _
  · rw [occurrences_block]
    exact items_keeps h

omit h

theorem occurrences_trees : piece.trees.flatMap (occurrences size) =
    (piece.pending.map (·.node)).flatMap (occurrences size) ++
      occurrences size (piece.applied block).node := by
  simp [trees, applied]

theorem items_subset (piece : Piece) : piece.items ⊆ piece.trees := by
  intro tree hm
  rw [items, List.mem_append] at hm
  rw [trees, List.mem_append]
  refine hm.imp_right fun hm => ?_
  split at hm
  · cases hm
  · exact hm

theorem function_within_embedded {function : Node} (hf : function.isFunction)
    (hw : function.Within (piece.applied block).embedded) :
    ∃ tree ∈ piece.trees, function.Within tree := by
  simp only [applied] at hw
  split at hw
  · exact ⟨piece.node, by simp [trees], hw⟩
  · obtain ⟨item, hm, hw⟩ := hw.of_not_function hf rfl
    exact ⟨item, piece.items_subset hm, hw⟩

end Piece

theorem kind_rebuild (shape : Shape Applied) : (rebuild shape).kind = shape.kind := by
  cases shape with
  | loop form _ _ _ _ | function form _ _ _ => cases form <;> rfl
  | _ => rfl

theorem rebuild_eq_map {shape : Shape Applied}
    (h : shape.holdsStatements = false ∨ shape.kind.isFunction) :
    rebuild shape = shape.map (·.node) := by
  cases shape with
  | block | file | branch => obtain h | h := h <;> cases h
  | loop form _ _ _ _ => cases form <;> obtain h | h := h <;> cases h
  | _ => rfl

theorem function_within_rebuild {shape : Shape Node} {pieces : Node → Piece} {block : Info}
    {function part : Node} (hf : function.isFunction)
    (hp : part ∈ (rebuild (shape.map fun part => (pieces part).applied block)).parts)
    (hw : function.Within part) :
    ∃ part ∈ shape.parts, ∃ tree ∈ (pieces part).trees, function.Within tree := by
  have hnode : ∀ part ∈ shape.parts, function.Within (pieces part).node →
      ∃ part ∈ shape.parts, ∃ tree ∈ (pieces part).trees, function.Within tree :=
    fun part hp hw => ⟨part, hp, (pieces part).node, by simp [Piece.trees], hw⟩
  have hembedded : ∀ part ∈ shape.parts, function.Within ((pieces part).applied block).embedded →
      ∃ part ∈ shape.parts, ∃ tree ∈ (pieces part).trees, function.Within tree :=
    fun part hp hw => ⟨part, hp, Piece.function_within_embedded hf hw⟩
  cases shape with
  | block statements | file _ statements =>
    simp only [Shape.map, rebuild, Shape.parts, List.mem_flatMap, List.mem_map] at hp
    obtain ⟨_, ⟨statement, hm, rfl⟩, hi⟩ := hp
    exact ⟨statement, hm, part, (pieces statement).items_subset hi, hw⟩
  | branch condition thenBranch elseBranch =>
    simp only [Shape.map, rebuild, Shape.parts, List.mem_cons, List.not_mem_nil, or_false] at hp
    obtain rfl | rfl | rfl := hp
    · exact hnode condition (by simp) hw
    · exact hembedded thenBranch (by simp) hw
    · exact hembedded elseBranch (by simp) hw
  | loop form initializer condition update body =>
    simp only [Shape.map, rebuild, Shape.parts, List.mem_cons, List.not_mem_nil, or_false] at hp
    obtain rfl | rfl | rfl | rfl := hp
    · exact hnode initializer (by simp) hw
    · exact hnode condition (by simp) hw
    · exact hnode update (by simp) hw
    · exact hembedded body (by simp) hw
  | function form _ _ _ =>
    rw [rebuild_eq_map (.inr (by cases form <;> rfl)), Shape.map_map, Shape.parts_map,
      List.mem_map] at hp
    obtain ⟨source, hm, rfl⟩ := hp
    exact hnode source hm hw
  | _ =>
    rw [rebuild_eq_map (.inl rfl), Shape.map_map, Shape.parts_map, List.mem_map] at hp
    obtain ⟨source, hm, rfl⟩ := hp
    exact hnode source hm hw

end

namespace Code

theorem declaredOf_append (mentions others : List Mention) :
    declaredOf (mentions ++ others) = declaredOf mentions ++ declaredOf others :=
  List.filterMap_append

theorem declaredNames_own (id : NodeId) (mentions : List Mention) :
    Occurrence.declaredNames (mentions.flatMap (Mention.own id)) = declaredOf mentions := by
  induction mentions with
  | nil => rfl
  | cons mention rest ih =>
    rw [List.flatMap_cons, Occurrence.declaredNames_append, ih]
    cases mention <;> rfl

theorem closed_own {id : NodeId} {mentions : List Mention}
    (h : ∀ text, .uses text ∈ mentions → text ≠ "TypeError" → text ∈ declaredOf mentions) :
    Occurrence.Closed (mentions.flatMap (Mention.own id)) := by
  intro other name hm hne
  obtain ⟨mention, hmention, hown⟩ := List.mem_flatMap.mp hm
  cases mention with
  | declares | source => simp [Mention.own] at hown
  | uses text =>
    simp only [Mention.own, List.mem_singleton, Occurrence.used.injEq] at hown
    obtain ⟨rfl, rfl⟩ := hown
    obtain ⟨mention, hmention, hname⟩ := List.mem_filterMap.mp (h name hmention hne)
    cases mention with
    | uses | source => cases hname
    | declares text =>
      cases hname
      exact List.mem_flatMap.mpr ⟨_, hmention, List.mem_singleton_self _⟩

end Code

namespace Plan

open Occurrence (Keeps isDeclared)

variable {plan : Plan} {root : Node} {info : Info} {shape : Shape Node} {above : List Node}
  {depth size : Nat}

theorem filter_mentions {id : NodeId} {nodes : Node → Node} {mentions : List Code.Mention}
    (hd : Code.declaredOf mentions = []) (hs : Code.sourcesOf mentions = []) :
    (mentions.flatMap (Code.Mention.occurrences size id nodes)).filter isDeclared = [] := by
  induction mentions with
  | nil => rfl
  | cons mention rest ih =>
    cases mention with
    | declares => cases hd
    | source => cases hs
    | uses text => exact ih hd hs

theorem settled_declared (hmark : ∀ id, size ≤ (plan.mark id).id) {node : Node}
    (h : (plan.lower node depth).isSettled) :
    (occurrences size (plan.lower node depth).node).filter isDeclared = [] := by
  induction node generalizing depth with
  | absent => cases h
  | mk info shape ih =>
    cases hsite : plan.site? (.mk info shape) depth with
    | some site =>
      obtain ⟨_, _, _, _, _, hnode, -, -⟩ := Pass.site?_call hsite
      cases hnode
      obtain ⟨_, _, _, _, hvalue, -⟩ := site.loweredWith_names (plan.naming info.id)
      obtain ⟨_, _, _, _, _, -, -, -, -, hsources⟩ := site.loweredWith_spec (plan.naming info.id)
      rw [lower_site hsite]
      simp only [lowerSite]
      rw [occurrences_inPlace (hmark _)]
      exact filter_mentions hvalue hsources
    | none =>
      rw [lower_parts hsite] at h ⊢
      cases shape with
      | parenthesized expression | evaluate expression =>
        have hinner := ih expression (by simp) h
        simpa [Piece.assemble, Shape.map, rebuild, occurrences_mk, occurrencesNode,
          Piece.applied] using hinner
      | _ => cases h

theorem loop_pending {form : Tree.LoopForm} {initializer condition update body : Node}
    (hforest : plan.arena.Forest [root]) (hregular : root.Regular)
    (hpath : root.Path (.mk info (.loop form initializer condition update body)) above) :
    (plan.lower condition depth).pending = [] ∧ (plan.lower update depth).pending = [] := by
  have hnode := hregular.within hpath.within
  constructor
  · have hs : condition.isStatement = false :=
      Slot.not_isStatement .expression
        (hnode.placed (_, condition) (by cases form <;> simp)) (by decide)
    have hplace : CallSite.placeIn plan.arena condition
        (.mk info (.loop form initializer condition update body)) = some (some .loopTest) := by
      simp [CallSite.placeIn]
    exact pending_eq_nil_of_unsafe hforest hregular hpath (by simp) hplace hs
  · have hs : update.isStatement = false := by
      cases form with
      | «for» =>
        exact Slot.not_isStatement .expression (hnode.placed (_, update) (by simp))
          (by decide)
      | _ =>
        exact Slot.not_isStatement .vacant (hnode.placed (_, update) (by simp))
          (by decide)
    obtain ⟨place, hplace⟩ : ∃ place, CallSite.placeIn plan.arena update
        (.mk info (.loop form initializer condition update body)) = some (some place) := by
      by_cases hsame : condition.same update
      · exact ⟨.loopTest, by simp [CallSite.placeIn, hsame]⟩
      · exact ⟨.loopUpdate, by simp [CallSite.placeIn, hsame]⟩
    exact pending_eq_nil_of_unsafe hforest hregular hpath (by simp) hplace hs

variable (hforest : plan.arena.Forest [root]) (hregular : root.Regular)
  (hpath : root.Path (.mk info shape) above)
  (hsite : plan.site? (.mk info shape) depth = none)
  (hmark : ∀ id, plan.arena.size ≤ (plan.mark id).id)
include hforest hregular hpath hsite hmark

theorem lower_keeps (hfunction : shape.kind.isFunction = false) :
    Keeps ((plan.lower (.mk info shape) depth).trees.flatMap (occurrences plan.arena.size))
      (shape.slots.flatMap fun part =>
        (plan.lower part (depth + 1)).trees.flatMap (occurrences plan.arena.size)) := by
  have hnode := hregular.within hpath.within
  have hid : info.id < plan.arena.size :=
    hforest.id_lt List.mem_cons_self (hpath.within.ids_subset (by simp))
  have hitems : ∀ part, Keeps ((plan.lower part (depth + 1)).items.flatMap
      (occurrences plan.arena.size))
      ((plan.lower part (depth + 1)).trees.flatMap (occurrences plan.arena.size)) :=
    fun part => Piece.items_keeps (settled_declared hmark)
  have hembedded : ∀ part, Keeps (occurrences plan.arena.size
      ((plan.lower part (depth + 1)).applied (Directives.made plan.arena)).embedded)
      ((plan.lower part (depth + 1)).trees.flatMap (occurrences plan.arena.size)) :=
    fun part => Piece.embedded_keeps (settled_declared hmark)
  rw [lower_parts hsite, Piece.trees, List.flatMap_append, List.flatMap_singleton]
  simp only [Piece.assemble]
  rw [occurrences_source hid (by rw [kind_rebuild, Shape.kind_map, Shape.kind_map, hfunction])]
  by_cases hholds : shape.holdsStatements
  · cases shape with
    | function form _ _ _ => cases form <;> cases hfunction
    | block statements | file _ statements =>
      simp only [Piece.pendingIn, Shape.map, rebuild, Shape.slots, Shape.parts, List.map_nil,
        List.flatMap_nil, List.nil_append, List.flatMap_map, List.flatMap_assoc]
      exact .flatMap fun part _ => hitems part
    | branch condition thenBranch elseBranch =>
      simp only [Piece.pendingIn, Shape.map, rebuild, Shape.slots, Shape.parts, List.flatMap_cons,
        List.flatMap_nil, List.append_nil]
      rw [← List.append_assoc, ← Piece.occurrences_trees]
      exact (Keeps.refl _).append ((hembedded thenBranch).append (hembedded elseBranch))
    | loop form initializer condition update body =>
      have hpending : (plan.lower condition (depth + 1)).pending = [] ∧
          (plan.lower update (depth + 1)).pending = [] := loop_pending hforest hregular hpath
      obtain ⟨hcondition, hupdate⟩ := hpending
      have hsingle : ∀ part, (plan.lower part (depth + 1)).pending = [] →
          (plan.lower part (depth + 1)).trees.flatMap (occurrences plan.arena.size) =
            occurrences plan.arena.size (plan.lower part (depth + 1)).node := by
        intro part hp
        simp [Piece.trees, hp]
      cases form with
      | «for» | «while» =>
        simp only [Piece.pendingIn, Shape.map, rebuild, Shape.slots, Shape.parts,
          List.flatMap_cons, List.flatMap_nil, List.append_nil]
        rw [hsingle condition hcondition, hsingle update hupdate, ← List.append_assoc,
          ← Piece.occurrences_trees]
        exact (Keeps.refl _).append ((Keeps.refl _).append ((Keeps.refl _).append (hembedded body)))
      | doWhile =>
        obtain rfl := Slot.eq_absent (hnode.placed (.vacant, initializer) (by simp))
        obtain rfl := Slot.eq_absent (hnode.placed (.vacant, update) (by simp))
        simp only [Piece.pendingIn, Shape.map, rebuild, Shape.slots, Shape.parts, lower_absent,
          List.map_nil, List.flatMap_cons, List.flatMap_nil, List.append_nil, List.nil_append]
        rw [hsingle condition hcondition]
        refine ((Keeps.refl _).append (hembedded body)).trans (.of_perm ?_)
        exact List.perm_append_comm
    | _ => cases hholds
  · rw [Bool.not_eq_true] at hholds
    rw [Piece.pendingIn_map hholds, rebuild_eq_map (.inl (by simpa using hholds)),
      shape.slots_eq_parts hholds]
    refine Keeps.of_perm ?_
    simp only [Shape.map_map, Shape.parts_map, List.map_flatMap, List.flatMap_assoc,
      List.flatMap_map, Piece.trees, List.flatMap_append, List.flatMap_singleton]
    exact List.flatMap_append_perm _ _ _

omit hforest hregular hpath hmark in
theorem function_within_parts {function : Node} (hf : function.isFunction)
    (hfunction : shape.kind.isFunction = false) {tree : Node}
    (hm : tree ∈ (plan.lower (.mk info shape) depth).trees) (hw : function.Within tree) :
    ∃ part ∈ shape.parts, ∃ tree ∈ (plan.lower part (depth + 1)).trees, function.Within tree := by
  rw [lower_parts hsite, Piece.trees, List.mem_append, List.mem_map] at hm
  obtain ⟨hoisted, hm, rfl⟩ | hm := hm
  · obtain ⟨piece, hp, hm⟩ := Piece.mem_pendingIn hm
    rw [Shape.parts_map, List.mem_map] at hp
    obtain ⟨part, hp, rfl⟩ := hp
    exact ⟨part, hp, hoisted.node, List.mem_append_left _ (List.mem_map_of_mem hm), hw⟩
  · obtain rfl := List.mem_singleton.mp hm
    obtain ⟨part, hp, hw⟩ := hw.of_not_function hf (by
      rw [kind_rebuild, Shape.kind_map, Shape.kind_map, hfunction])
    rw [Shape.map_map] at hp
    exact function_within_rebuild hf hp hw

end Plan

/-- The generated names of one function are sound: no two variables have the same name, none has a
reserved one, and every name that is used is declared. -/
structure Sound (reserved : String → Prop) (occurrences : List Occurrence) : Prop where
  nodup : (Occurrence.declaredNames occurrences).Nodup
  fresh : ∀ name ∈ Occurrence.declaredNames occurrences, ¬ reserved name ∧
    name.toList.head? = some '_'
  closed : Occurrence.Closed occurrences

/-- The generated names in some trees are those given out between two times, and the functions in the
trees are sound. -/
structure Tidy (size : Nat) (names : Names) (trees : List Node) (later : Names) : Prop where
  gives : ∃ given, names.Gives given later ∧
    (Occurrence.declaredNames (trees.flatMap (occurrences size))).Perm given
  closed : Occurrence.Closed (trees.flatMap (occurrences size))
  functions : ∀ tree ∈ trees, ∀ function, function.Within tree → function.isFunction →
    Sound (· ∈ names.reserved) (ownOccurrences size function)

namespace Tidy

variable {size : Nat} {names middle later : Names} {trees others : List Node}

theorem reserved (h : Tidy size names trees later) : later.reserved = names.reserved := by
  obtain ⟨given, hgives, -⟩ := h.gives
  exact hgives.reserved

theorem sound (h : Tidy size names trees later) :
    Sound (· ∈ names.reserved) (trees.flatMap (occurrences size)) := by
  obtain ⟨given, hgives, hperm⟩ := h.gives
  refine ⟨hperm.nodup_iff.mpr hgives.nodup, fun name hm => ⟨?_, ?_⟩, h.closed⟩
  · intro hreserved
    refine hgives.fresh name (hperm.mem_iff.mp hm) ?_
    simp [Names.taken, hreserved]
  · exact hgives.head name (hperm.mem_iff.mp hm)

theorem nil (names : Names) : Tidy size names [] names :=
  ⟨⟨[], .nothing names, .refl _⟩, nofun, nofun⟩

theorem append (h : Tidy size names trees middle) (hothers : Tidy size middle others later) :
    Tidy size names (trees ++ others) later where
  gives := by
    obtain ⟨given, hgives, hperm⟩ := h.gives
    obtain ⟨more, hmore, hpermMore⟩ := hothers.gives
    refine ⟨given ++ more, hgives.trans hmore, ?_⟩
    rw [List.flatMap_append, Occurrence.declaredNames_append]
    exact hperm.append hpermMore
  closed := by
    rw [List.flatMap_append]
    exact h.closed.append hothers.closed
  functions tree hm function hw hf := by
    obtain hm | hm := List.mem_append.mp hm
    · exact h.functions tree hm function hw hf
    · rw [← h.reserved]
      exact hothers.functions tree hm function hw hf

theorem of_keeps (h : Tidy size names trees later)
    (hk : Occurrence.Keeps (others.flatMap (occurrences size)) (trees.flatMap (occurrences size)))
    (hf : ∀ tree ∈ others, ∀ function : Node, function.Within tree → function.isFunction →
      ∃ tree ∈ trees, function.Within tree) : Tidy size names others later where
  gives := by
    obtain ⟨given, hgives, hperm⟩ := h.gives
    exact ⟨given, hgives, hk.declaredNames.trans hperm⟩
  closed := hk.closed h.closed
  functions tree hm function hw hfunction := by
    obtain ⟨other, ho, hw⟩ := hf tree hm function hw hfunction
    exact h.functions other ho function hw hfunction

end Tidy

namespace Plan

variable {plan : Plan} {root : Node} {info : Info} {shape : Shape Node} {above : List Node}
  {depth : Nat} {names later : Names}

def treesOf (plan : Plan) (depth : Nat) (nodes : List Node) : List Node :=
  nodes.flatMap fun node => (plan.lower node depth).trees

theorem tidy_all {nodes : List Node}
    (ih : ∀ node ∈ nodes, ∀ names, plan.Named node depth names →
      Tidy plan.arena.size names (plan.lower node depth).trees (plan.namesAfter node depth names))
    (h : ∀ before node after, nodes = before ++ node :: after →
      plan.Named node depth (plan.namesAfterAll depth before names)) :
    Tidy plan.arena.size names (plan.treesOf depth nodes) (plan.namesAfterAll depth nodes names) := by
  induction nodes generalizing names with
  | nil => exact .nil names
  | cons node rest ihn =>
    rw [treesOf, List.flatMap_cons]
    refine (ih node List.mem_cons_self names (h [] node rest rfl)).append ?_
    refine ihn (fun other ho => ih other (List.mem_cons_of_mem _ ho)) fun before other after heq => ?_
    exact h (node :: before) other after (by rw [heq, List.cons_append])

section
variable (hforest : plan.arena.Forest [root]) (hregular : root.Regular)
  (hpath : root.Path (.mk info shape) above)
include hforest hregular hpath

theorem tidy_of_parts (hsite : plan.site? (.mk info shape) depth = none)
    (hmark : ∀ id, plan.arena.size ≤ (plan.mark id).id) (hfunction : shape.kind.isFunction = false)
    (h : Tidy plan.arena.size names (plan.treesOf (depth + 1) shape.slots) later) :
    Tidy plan.arena.size names (plan.lower (.mk info shape) depth).trees later := by
  refine h.of_keeps ?_ fun tree hm function hw hf => ?_
  · rw [treesOf, List.flatMap_assoc]
    exact lower_keeps hforest hregular hpath hsite hmark hfunction
  · obtain ⟨part, hp, tree, ht, hw⟩ := function_within_parts hsite hf hfunction hm hw
    obtain hslot | rfl := (hregular.within hpath.within).mem_slots hp
    · exact ⟨tree, List.mem_flatMap.mpr ⟨part, hslot, ht⟩, hw⟩
    · obtain rfl : tree = .absent := by simpa [Piece.trees] using ht
      cases hw
      cases hf

theorem occurrences_leaf (hmark : ∀ id, plan.arena.size ≤ (plan.mark id).id)
    (h : shape.parts = []) :
    occurrences plan.arena.size (plan.lower (.mk info shape) depth).node = [] := by
  have hsite : plan.site? (.mk info shape) depth = none := by
    refine site?_of_ne_call ?_
    rintro callee isListed arguments rfl
    cases h
  by_cases hfunction : shape.kind.isFunction
  · rw [lower_parts hsite]
    exact occurrences_function (by rw [kind_rebuild, Shape.kind_map, Shape.kind_map]; exact hfunction)
  · have hkeeps := lower_keeps hforest hregular hpath hsite hmark (by simpa using hfunction)
    have hslots : shape.slots = [] := List.subset_nil.mp (h ▸ shape.slots_subset)
    rw [hslots, List.flatMap_nil] at hkeeps
    have hnone := List.subset_nil.mp hkeeps.subset
    rw [Piece.trees, List.flatMap_append, List.flatMap_singleton, List.append_eq_nil_iff] at hnone
    exact hnone.2

theorem function_pending (hfunction : shape.kind.isFunction) {part : Node} (hp : part ∈ shape.parts) :
    (plan.lower part depth).pending = [] := by
  cases shape with
  | function form name parameters body =>
    obtain ⟨slot, hm, ha⟩ := (hregular.within hpath.within).admits_of_mem hp
    by_cases hbody : slot = .body
    · subst hbody
      cases part with
      | absent => rfl
      | mk partInfo partShape =>
        cases partShape with
        | block =>
          rw [lower_parts (site?_of_not_call (by simp [Shape.kind]))]
          rfl
        | _ => cases ha
    · refine pending_eq_nil_of_unsafe hforest hregular hpath hp rfl (slot.not_isStatement ha ⟨?_, hbody⟩)
      rintro rfl
      simp only [Shape.placed, List.cons_append, List.mem_cons, List.mem_append, List.mem_map,
        Prod.mk.injEq, List.not_mem_nil, or_false, reduceCtorEq, false_and, and_false,
        exists_false, false_or] at hm
      split at hm <;> cases hm.1
  | bare => cases hp
  | unary flag _ _ | call flag _ _ _ | access flag _ _ | collection flag _ | «variables» flag _
  | exit flag _ => cases flag <;> cases hfunction
  | loop form _ _ _ _ => cases form <;> cases hfunction
  | _ => cases hfunction

theorem tidy_of_function (hfunction : shape.kind.isFunction)
    (h : Tidy plan.arena.size names.enter (plan.treesOf (depth + 1) shape.slots) later) :
    Tidy plan.arena.size names (plan.lower (.mk info shape) depth).trees later.exit := by
  have hslots : shape.slots = shape.parts := by
    cases shape with
    | loop form _ _ _ _ => cases form <;> cases hfunction
    | _ => rfl
  have hparts : plan.treesOf (depth + 1) shape.slots =
      shape.parts.map fun part => (plan.lower part (depth + 1)).node := by
    rw [hslots, treesOf, ← List.flatMap_pure_eq_map]
    refine List.flatMap_congr fun part hp => ?_
    simp [Piece.trees, function_pending hforest hregular hpath hfunction hp]
  have hnode : (plan.lower (.mk info shape) depth).node =
      .mk info (shape.map fun part => (plan.lower part (depth + 1)).node) := by
    rw [lower_parts (site?_of_function hfunction)]
    simp only [Piece.assemble]
    rw [rebuild_eq_map (.inr (by rw [Shape.kind_map, Shape.kind_map]; exact hfunction)),
      Shape.map_map, Shape.map_map]
    rfl
  have htrees : (plan.lower (.mk info shape) depth).trees =
      [.mk info (shape.map fun part => (plan.lower part (depth + 1)).node)] := by
    rw [Piece.trees, (lower_function hfunction).1, hnode]
    rfl
  have hnone : (plan.lower (.mk info shape) depth).trees.flatMap (occurrences plan.arena.size) = [] := by
    rw [htrees, List.flatMap_singleton]
    exact occurrences_function (by rw [Shape.kind_map]; exact hfunction)
  obtain ⟨given, hgives, -⟩ := h.gives
  have hexit : later.exit = { later with inner := names.inner, outer := names.outer } := by
    have houter : later.outer = names.inner :: names.outer := hgives.outer
    simp only [Names.exit, houter]
  refine ⟨⟨[], ?_, by rw [hnone]; exact .refl _⟩, by rw [hnone]; rintro _ _ ⟨⟩, ?_⟩
  · rw [hexit]
    exact ⟨hgives.reserved, rfl, .refl _, List.nodup_nil, by simp, by simp⟩
  · intro tree hm function hw hf
    rw [htrees, List.mem_singleton] at hm
    subst hm
    have hreserved : names.enter.reserved = names.reserved := rfl
    rw [← hreserved]
    cases hw with
    | self =>
      have hsound := h.sound
      rw [hparts] at hsound
      simpa [ownOccurrences, Node.parts, -Shape.parts] using hsound
    | part hp hw =>
      rw [Shape.parts_map, ← hparts] at hp
      exact h.functions _ hp function hw hf

end

def pendingOccurrences (plan : Plan) (node : Node) (depth : Nat) : List Occurrence :=
  (plan.lower node depth).pending.flatMap fun hoisted => occurrences plan.arena.size hoisted.node

theorem occurrences_treesOf (nodes : List Node) :
    ((plan.treesOf depth nodes).flatMap (occurrences plan.arena.size)).Perm
      (nodes.flatMap (plan.pendingOccurrences · depth) ++
        nodes.flatMap fun node => occurrences plan.arena.size (plan.lower node depth).node) := by
  simp only [treesOf, Piece.trees, List.flatMap_assoc, List.flatMap_append, List.flatMap_singleton,
    List.flatMap_map]
  exact (List.flatMap_append_perm _ _ _).symm

def siteNodes (plan : Plan) (site : CallSite) (callee : Node) (arguments : List Node) (depth : Nat) :
    Node → Node :=
  replacedIn ((site.receiver, objectOf (plan.lower callee (depth + 1)).node) ::
    arguments.map fun argument => (argument, (plan.lower argument (depth + 1)).node))

section
variable {callee : Node} {isListed : Bool} {arguments : List Node} {site : CallSite}
  (hforest : plan.arena.Forest [root]) (hregular : root.Regular)
  (hpath : root.Path (.mk info (.call false callee isListed arguments)) above)
  (hsite : plan.site? (.mk info (.call false callee isListed arguments)) depth = some site)
  (hmark : ∀ id, plan.arena.size ≤ (plan.mark id).id)
include hforest hregular hpath hsite hmark

theorem occurrences_callee :
    occurrences plan.arena.size (plan.lower callee (depth + 1)).node =
      occurrences plan.arena.size (plan.lower site.receiver (depth + 2)).node := by
  have hcall := (Pass.site?_spec hsite).2
  obtain ⟨_, member, isComputed, key, _, hnode, -, -⟩ := CallSite.ofCall_spec hcall
  cases hnode
  have hcallee : root.Path (.mk member (.access isComputed site.receiver key))
      (.mk info (.call false (.mk member (.access isComputed site.receiver key)) isListed
        (site.callback :: site.extra.toList)) :: above) :=
    .part hpath (by simp) rfl
  have hid : member.id < plan.arena.size :=
    hforest.id_lt List.mem_cons_self (hcallee.within.ids_subset (by simp))
  have hkey : occurrences plan.arena.size (plan.lower key (depth + 2)).node = [] := by
    cases key with
    | absent => rfl
    | mk keyInfo shape =>
      refine occurrences_leaf hforest hregular (.part hcallee (by simp) rfl) hmark ?_
      obtain ⟨_, _, hkey, ⟨_, rfl⟩ | ⟨_, _, _, rfl⟩⟩ := CallSite.ofCall_key hcall
      all_goals
        cases hkey
        rfl
  rw [lower_parts (site?_of_not_call (by cases isComputed <;> simp [Shape.kind]))]
  simp only [Piece.assemble, Shape.map, rebuild]
  rw [occurrences_source hid (by cases isComputed <;> rfl)]
  simp [Piece.applied, hkey]

omit hregular hmark in
theorem captured_occurrences :
    (site.loweredWith (plan.naming info.id)).statements.flatMap (fun code =>
        arguments.flatMap fun argument => if code.captures argument then
          plan.pendingOccurrences argument (depth + 1) else []) =
      arguments.flatMap (plan.pendingOccurrences · (depth + 1)) := by
  obtain ⟨_, member, isComputed, key, _, hnode, -, -⟩ := Pass.site?_call hsite
  cases hnode
  refine CallSite.flatMap_captures rfl ?_ _
  refine (Pass.node_nodup hforest hpath).sublist ?_
  simp only [Node.ids_mk, Shape.parts, List.flatMap_cons, List.cons_append]
  exact .cons _ (.cons _ ((List.sublist_append_left _ _).append (.refl _)))

theorem loop_occurrences :
    ((site.loweredWith (plan.naming info.id)).statements.flatMap fun code =>
        occurrences plan.arena.size (code.node (plan.mark info.id)
          (plan.siteNodes site callee arguments depth))).Perm
      ((callee :: arguments).flatMap (fun part =>
          occurrences plan.arena.size (plan.lower part (depth + 1)).node) ++
        (Code.mentionsIn (site.loweredWith (plan.naming info.id)).statements).flatMap
          (Code.Mention.own (plan.mark info.id).id)) := by
  have hcallee := occurrences_callee hforest hregular hpath hsite hmark
  obtain ⟨hreceiver, harguments⟩ := replacedIn_parts hforest hpath hsite
  have hcall : arguments = site.callback :: site.extra.toList := by
    obtain ⟨_, _, _, _, _, hnode, -, -⟩ := Pass.site?_call hsite
    cases hnode
    rfl
  simp only [Code.occurrences_node (hmark info.id)]
  rw [← List.flatMap_assoc, ← Code.mentionsIn_eq]
  refine (Code.Mention.occurrences_perm _ _).trans ?_
  rw [CallSite.sourcesOf_loweredWith, ← hcall, List.flatMap_cons, List.flatMap_cons, siteNodes,
    hreceiver, hcallee, List.flatMap_congr fun argument ha => congrArg _ (harguments argument ha)]

theorem lower_site_perm :
    ((plan.lower (.mk info (.call false callee isListed arguments)) depth).trees.flatMap
        (occurrences plan.arena.size)).Perm
      ((plan.treesOf (depth + 1) (callee :: arguments)).flatMap (occurrences plan.arena.size) ++
        (Code.mentionsIn (site.loweredWith (plan.naming info.id)).statements ++
          (site.loweredWith (plan.naming info.id)).value.mentions).flatMap
            (Code.Mention.own (plan.mark info.id).id)) := by
  have hcaptured := captured_occurrences hforest hpath hsite
  have hloop := loop_occurrences hforest hregular hpath hsite hmark
  obtain ⟨_, _, _, _, _, -, -, -, -, hvalue⟩ := site.loweredWith_spec (plan.naming info.id)
  let nodes := plan.siteNodes site callee arguments depth
  -- The value of the call speaks of generated names only.
  have hvaluePerm : (occurrences plan.arena.size (inPlace plan.arena (plan.mark info.id) info.id
      nodes (site.loweredWith (plan.naming info.id)).value)).Perm
      ((site.loweredWith (plan.naming info.id)).value.mentions.flatMap
        (Code.Mention.own (plan.mark info.id).id)) := by
    rw [occurrences_inPlace (hmark info.id)]
    refine (Code.Mention.occurrences_perm _ _).trans ?_
    rw [show Code.sourcesOf (site.loweredWith (plan.naming info.id)).value.mentions = []
      from hvalue]
    exact .refl _
  have hstatements : ((site.loweredWith (plan.naming info.id)).statements.flatMap fun code =>
      (arguments.flatMap fun argument => if code.captures argument then
        plan.pendingOccurrences argument (depth + 1) else []) ++
      occurrences plan.arena.size (code.node (plan.mark info.id) nodes)).Perm
      (arguments.flatMap (plan.pendingOccurrences · (depth + 1)) ++
        ((callee :: arguments).flatMap (fun part =>
          occurrences plan.arena.size (plan.lower part (depth + 1)).node) ++
        (Code.mentionsIn (site.loweredWith (plan.naming info.id)).statements).flatMap
          (Code.Mention.own (plan.mark info.id).id))) := by
    refine (List.flatMap_append_perm _ _ _).symm.trans ?_
    rw [hcaptured]
    exact hloop.append_left _
  have htrees : (plan.lower (.mk info (.call false callee isListed arguments)) depth).trees.flatMap
      (occurrences plan.arena.size) = plan.pendingOccurrences callee (depth + 1) ++
        ((site.loweredWith (plan.naming info.id)).statements.flatMap fun code =>
          (arguments.flatMap fun argument => if code.captures argument then
            plan.pendingOccurrences argument (depth + 1) else []) ++
          occurrences plan.arena.size (code.node (plan.mark info.id) nodes)) ++
        occurrences plan.arena.size (inPlace plan.arena (plan.mark info.id) info.id nodes
          (site.loweredWith (plan.naming info.id)).value) := by
    have hsplit : ∀ (code : Code) (argument : Node), List.flatMap
        (fun hoisted => occurrences plan.arena.size hoisted.node)
        (if code.captures argument then (plan.lower argument (depth + 1)).pending else []) =
        if code.captures argument then plan.pendingOccurrences argument (depth + 1) else [] := by
      intro code argument
      split <;> rfl
    simp only [lower_site hsite, lowerSite, Piece.trees, List.map_append, List.flatMap_append,
      List.map_flatMap, List.flatMap_assoc, List.flatMap_map, List.map_cons, List.map_nil,
      List.flatMap_cons, List.flatMap_nil, List.append_nil, hsplit, List.map_map,
      Function.comp_def]
    rfl
  rw [htrees]
  refine ((hstatements.append_left _).append hvaluePerm).trans ?_
  have hparts : ((plan.treesOf (depth + 1) (callee :: arguments)).flatMap
      (occurrences plan.arena.size)).Perm _ := occurrences_treesOf _
  refine .trans ?_ (hparts.symm.append_right _)
  simp only [List.flatMap_append, List.flatMap_cons, List.append_assoc]
  exact .refl _

omit hregular hmark in
theorem function_within_site {function tree : Node} (hf : function.isFunction)
    (hm : tree ∈ (plan.lower (.mk info (.call false callee isListed arguments)) depth).trees)
    (hw : function.Within tree) :
    ∃ tree ∈ plan.treesOf (depth + 1) (callee :: arguments), function.Within tree := by
  obtain ⟨hreceiver, harguments⟩ := replacedIn_parts hforest hpath hsite
  obtain ⟨_, _, _, _, _, -, -, -, -, hvalue⟩ := site.loweredWith_spec (plan.naming info.id)
  obtain ⟨_, member, isComputed, key, _, hnode, -, -⟩ := Pass.site?_call hsite
  have hcall : arguments = site.callback :: site.extra.toList := by
    cases hnode
    rfl
  have htree : ∀ part ∈ callee :: arguments, ∀ tree ∈ (plan.lower part (depth + 1)).trees,
      function.Within tree → ∃ tree ∈ plan.treesOf (depth + 1) (callee :: arguments),
        function.Within tree :=
    fun part hp tree ht hw => ⟨tree, List.mem_flatMap.mpr ⟨part, hp, ht⟩, hw⟩
  -- The receiver is part of what the callee has become.
  have hsource : ∀ source ∈ site.receiver :: arguments,
      function.Within (plan.siteNodes site callee arguments depth source) →
      ∃ part ∈ callee :: arguments, function.Within (plan.lower part (depth + 1)).node := by
    intro source hs hw
    obtain rfl | hs := List.mem_cons.mp hs
    · refine ⟨callee, List.mem_cons_self, ?_⟩
      rw [siteNodes, hreceiver] at hw
      cases hnode
      rw [lower_parts (site?_of_not_call (by cases isComputed <;> simp [Shape.kind]))]
      exact .part List.mem_cons_self hw
    · rw [siteNodes, harguments source hs] at hw
      exact ⟨source, List.mem_cons_of_mem _ hs, hw⟩
  have hpart : ∀ part ∈ callee :: arguments, function.Within (plan.lower part (depth + 1)).node →
      ∃ tree ∈ plan.treesOf (depth + 1) (callee :: arguments), function.Within tree :=
    fun part hp => htree part hp _ (by simp [Piece.trees])
  rw [lower_site hsite, Piece.trees, List.mem_append, List.mem_singleton] at hm
  simp only [lowerSite, List.map_map, Function.comp_def, List.mem_map, List.mem_append,
    List.mem_flatMap, List.mem_singleton] at hm
  obtain ⟨hoisted, hm | ⟨code, hcode, ⟨_, ⟨argument, ha, rfl⟩, hm⟩ | rfl⟩, rfl⟩ | rfl := hm
  · exact htree callee List.mem_cons_self _ (by simpa [Piece.trees] using .inl ⟨hoisted, hm, rfl⟩) hw
  · split at hm
    · refine htree argument (List.mem_cons_of_mem _ ha) _ ?_ hw
      simpa [Piece.trees] using .inl ⟨hoisted, hm, rfl⟩
    · cases hm
  · obtain ⟨source, hs, hw⟩ := code.function_within_node hf hw
    have hs := site.sources_loweredWith _ code hcode source hs
    rw [← hcall] at hs
    obtain ⟨part, hp, hw⟩ := hsource source hs hw
    exact hpart part hp hw
  · have hinside : ∀ value : Code, value.sources = [] →
        ¬ function.Within (value.node (plan.mark info.id) (plan.siteNodes site callee arguments depth)) := by
      intro value hvalue hw
      obtain ⟨source, hs, -⟩ := value.function_within_node hf hw
      rw [hvalue] at hs
      cases hs
    unfold inPlace at hw
    split at hw
    · obtain ⟨part, hp, hw⟩ := hw.of_not_function hf rfl
      obtain rfl := List.mem_singleton.mp hp
      exact absurd hw (hinside _ hvalue)
    · exact absurd hw (hinside _ hvalue)

theorem tidy_of_site
    (h : Tidy plan.arena.size names (plan.treesOf (depth + 1) (callee :: arguments))
      (plan.naming info.id)) :
    Tidy plan.arena.size names
      (plan.lower (.mk info (.call false callee isListed arguments)) depth).trees
      (site.namesAfter (plan.naming info.id)) := by
  have hperm := lower_site_perm hforest hregular hpath hsite hmark
  obtain ⟨own, hown, hdeclared, huses, hvalueDeclared, hvalueUses⟩ :=
    site.loweredWith_names (plan.naming info.id)
  obtain ⟨given, hgives, hgiven⟩ := h.gives
  have hnames : (Code.declaredOf (Code.mentionsIn (site.loweredWith (plan.naming info.id)).statements ++
      (site.loweredWith (plan.naming info.id)).value.mentions)).Perm own := by
    rw [Code.declaredOf_append, hvalueDeclared, List.append_nil]
    exact hdeclared
  refine ⟨⟨given ++ own, hgives.trans hown, ?_⟩, ?_, fun tree hm function hw hf => ?_⟩
  · refine (Occurrence.Keeps.of_perm hperm).declaredNames.trans ?_
    rw [Occurrence.declaredNames_append, Code.declaredNames_own]
    exact hgiven.append hnames
  · refine (Occurrence.Keeps.of_perm hperm).closed (h.closed.append ?_)
    refine Code.closed_own fun text hm hne => hnames.mem_iff.mpr ?_
    obtain hm | hm := List.mem_append.mp hm
    · exact (huses text hm).resolve_left hne
    · exact hvalueUses text hm
  · obtain ⟨other, ho, hw⟩ := function_within_site hforest hpath hsite hf hm hw
    exact h.functions other ho function hw hf

end

theorem tidy (hforest : plan.arena.Forest [root]) (hregular : root.Regular)
    (hmark : ∀ id, plan.arena.size ≤ (plan.mark id).id) {node : Node}
    (hpath : node.isPresent → root.Path node above) (h : plan.Named node depth names) :
    Tidy plan.arena.size names (plan.lower node depth).trees (plan.namesAfter node depth names) := by
  induction node generalizing above depth names with
  | absent =>
    exact ⟨⟨[], .nothing names, .refl _⟩, nofun, fun tree hm function hw hf => by
      obtain rfl := List.mem_singleton.mp hm
      cases hw
      cases hf⟩
  | mk info shape ih =>
    have hpath := hpath rfl
    cases h with
    | mk hnamed hnaming =>
      have hparts : Tidy plan.arena.size (namesInside shape names)
          (plan.treesOf (depth + 1) shape.slots)
          (plan.namesAfterAll (depth + 1) shape.slots (namesInside shape names)) := by
        refine tidy_all (fun part hp names hn => ?_) hnamed
        have hp := shape.slots_subset hp
        exact ih part hp (fun hpresent => .part hpath hp hpresent) hn
      rw [namesAfter_mk]
      cases hsite : plan.site? (.mk info shape) depth with
      | some site =>
        have hnaming := hnaming site hsite
        obtain ⟨_, _, _, _, _, hnode, -, -⟩ := Pass.site?_call hsite
        cases hnode
        rw [← hnaming]
        refine tidy_of_site hforest hregular hpath hsite hmark ?_
        rw [hnaming]
        exact hparts
      | none =>
        by_cases hfunction : shape.kind.isFunction
        · rw [namesInside, if_pos hfunction] at hparts
          simpa [hfunction] using tidy_of_function hforest hregular hpath hfunction hparts
        · rw [namesInside, if_neg hfunction] at hparts
          simpa [hfunction] using
            tidy_of_parts hforest hregular hpath hsite hmark (by simpa using hfunction) hparts

end Plan

structure Hygienic (reserved : String → Prop) (size : Nat) (program : Node) : Prop where
  topLevel : Sound reserved (ownOccurrences size program)
  functions : ∀ function : Node, function.Within program → function.isFunction →
    Sound reserved (ownOccurrences size function)

theorem Plan.hygienic {plan : Plan} {info : Info} {name : String} {statements : List Node}
    {names : Names} (hforest : plan.arena.Forest [.mk info (.file name statements)])
    (hregular : (Node.mk info (.file name statements)).Regular)
    (hmark : ∀ id, plan.arena.size ≤ (plan.mark id).id)
    (h : plan.Named (.mk info (.file name statements)) 0 names) :
    Hygienic (· ∈ names.reserved) plan.arena.size
      (plan.lower (.mk info (.file name statements)) 0).node := by
  have hid : info.id < plan.arena.size := hforest.id_lt List.mem_cons_self (by simp)
  have htidy := tidy hforest hregular hmark (fun _ => .root) h
  rw [lower_parts (site?_of_not_call (by simp [Shape.kind]))] at htidy ⊢
  refine ⟨?_, htidy.functions _ (by simp [Piece.trees])⟩
  have hsound := htidy.sound
  rwa [Piece.trees, List.flatMap_append, List.flatMap_singleton, Piece.assemble,
    occurrences_source hid rfl] at hsound

theorem Sound.mono {reserved others : String → Prop} {occurrences : List Occurrence}
    (h : Sound reserved occurrences) (hothers : ∀ text, others text → reserved text ∨ text = "") :
    Sound others occurrences where
  nodup := h.nodup
  fresh text hm := by
    obtain ⟨hreserved, hhead⟩ := h.fresh text hm
    refine ⟨fun ho => ?_, hhead⟩
    obtain hr | rfl := hothers text ho
    · exact hreserved hr
    · cases hhead
  closed := h.closed

/-- An identifier of the tree has this text, be it a variable or a property. -/
def Mentions (root : Node) (text : String) : Prop :=
  ∃ node : Node, node.Within root ∧ node.name? = some text

theorem subset_foldl {α : Type} {step : List String → α → List String} {items : List α}
    (h : ∀ item ∈ items, ∀ names, names ⊆ step names item) (names : List String) :
    names ⊆ items.foldl step names := by
  induction items generalizing names with
  | nil => exact List.Subset.refl _
  | cons item rest ih =>
    exact List.Subset.trans (h item List.mem_cons_self names)
      (ih (fun other ho => h other (List.mem_cons_of_mem _ ho)) _)

theorem namesOnto_mk {info : Info} {shape : Shape Node} (h : ∀ text, shape ≠ .identifier text)
    (names : List String) :
    (Node.mk info shape).namesOnto names =
      shape.slots.foldl (fun names part => part.namesOnto names) names := by
  rw [Node.namesOnto, Node.fold_mk]
  split
  · next text heq =>
    cases shape with
    | identifier text => exact absurd rfl (h text)
    | _ => cases heq
  · rw [Shape.slots_map, List.foldl_map]
    rfl

theorem namesOnto_identifier {info : Info} {text : String} (names : List String) :
    (Node.mk info (.identifier text)).namesOnto names =
      if text.isEmpty || names.contains text then names else text :: names := by
  rw [Node.namesOnto, Node.fold_mk]
  rfl

theorem subset_namesOnto (node : Node) (names : List String) : names ⊆ node.namesOnto names := by
  induction node generalizing names with
  | absent => exact List.Subset.refl _
  | mk info shape ih =>
    by_cases h : ∃ text, shape = .identifier text
    · obtain ⟨text, rfl⟩ := h
      rw [namesOnto_identifier]
      split
      · exact List.Subset.refl _
      · exact List.subset_cons_self _ _
    · rw [namesOnto_mk (not_exists.mp h)]
      exact subset_foldl (fun part hp names => ih part (shape.slots_subset hp) names) names

theorem mem_namesOnto {root node : Node} {text : String} (hregular : root.Regular)
    (hw : node.Within root) (hname : node.name? = some text) (hne : text ≠ "")
    (names : List String) : text ∈ root.namesOnto names := by
  induction hw generalizing names with
  | self =>
    obtain ⟨info, rfl⟩ : ∃ info, node = .mk info (.identifier text) := by
      cases node with
      | absent => cases hname
      | mk info shape =>
        cases shape with
        | identifier =>
          cases hname
          exact ⟨info, rfl⟩
        | _ => cases hname
    rw [namesOnto_identifier]
    split
    · next h => simpa [hne] using h
    · exact List.mem_cons_self
  | @part info shape part hp _ ih =>
    have hshape : ∀ text, shape ≠ .identifier text := by
      rintro text rfl
      cases hp
    have hpart := ih (hregular.part part hp)
    obtain hs | rfl := hregular.mem_slots hp
    · rw [namesOnto_mk hshape]
      obtain ⟨before, after, heq⟩ := List.append_of_mem hs
      rw [heq, List.foldl_append, List.foldl_cons]
      exact subset_foldl (fun part _ names => subset_namesOnto part names) _ (hpart _)
    · cases hpart []

/-- A pass over a file succeeds, and what its directives make of the file is hygienic. -/
theorem runPass_hygienic {arena : Arena} {root : Node} (options : Options)
    (hforest : arena.Forest [root]) (hregular : root.Regular) (hfile : Grammar.IsFile true root) :
    ∃ result naming, runPass arena options root = .ok result ∧
      result.directives.apply arena root =
        (Plan.lower ⟨arena, options, naming, fun _ => Directives.made arena⟩ root 0).node ∧
      ∀ mark : NodeId → Info, (∀ id, arena.size ≤ (mark id).id) →
        Hygienic (Mentions root) arena.size (Plan.lower ⟨arena, options, naming, mark⟩ root 0).node := by
  obtain ⟨result, hrun, -⟩ := @runPass_sites
    ⟨arena, options, fun _ => .ofReserved [], fun _ => Directives.made arena⟩ root hforest hregular hfile
  obtain ⟨naming, hnamed, happly⟩ := runPass_tree hforest hregular hfile.isKind hrun
  refine ⟨result, naming, hrun, happly, fun mark hmark => ?_⟩
  have hothers : ∀ text, Mentions root text → text ∈ root.identifierNames ∨ text = "" := by
    rintro text ⟨node, hw, hname⟩
    by_cases hne : text = ""
    · exact .inr hne
    · exact .inl (mem_namesOnto hregular hw hname hne [])
  obtain ⟨id, fin, name, statements, rfl, -⟩ := hfile
  have hygienic := Plan.hygienic hforest hregular hmark (hnamed.of_mark mark)
  exact ⟨hygienic.topLevel.mono hothers, fun function hw hf =>
    (hygienic.functions function hw hf).mono hothers⟩

/-- The names that a pass over a file without complaints brings in do not clash: whatever the nodes
are marked with that are made for a call, the tree that the directives make has no generated variable
with a name of the source, no two in one function with the same name, and no use of a generated name
outside the function and the call that declare it. -/
theorem generated_names_hygienic {name text : String} {options : Options}
    (h : (parse name text).complaints = []) :
    ∃ result naming, runPass (parse name text).arena options (parse name text).root = .ok result ∧
      result.directives.apply (parse name text).arena (parse name text).root =
        (Plan.lower ⟨(parse name text).arena, options, naming, fun _ =>
          Directives.made (parse name text).arena⟩ (parse name text).root 0).node ∧
      ∀ mark : NodeId → Info, (∀ id, (parse name text).arena.size ≤ (mark id).id) →
        Hygienic (Mentions (parse name text).root) (parse name text).arena.size
          (Plan.lower ⟨(parse name text).arena, options, naming, mark⟩
            (parse name text).root 0).node :=
  runPass_hygienic options (parse_forest name text) (parse_regular name text)
    (Grammar.parse_isFile h)

/-- A name that is taken, and a lowered call in a function that another one is called with. -/
def takenText : String :=
  "var _i = a.map(function (x) { return b._a.filter(x); }); c.some(d.find(f));"

set_option maxRecDepth 100000 in
theorem generated_names_hygienic_taken :
    (parse "a.js" takenText).complaints = [] ∧
      ∃ result naming, runPass (parse "a.js" takenText).arena {} (parse "a.js" takenText).root =
          .ok result ∧
        result.directives.apply (parse "a.js" takenText).arena (parse "a.js" takenText).root =
          (Plan.lower ⟨(parse "a.js" takenText).arena, {}, naming, fun _ =>
            Directives.made (parse "a.js" takenText).arena⟩ (parse "a.js" takenText).root 0).node ∧
        ∀ mark : NodeId → Info, (∀ id, (parse "a.js" takenText).arena.size ≤ (mark id).id) →
          Hygienic (Mentions (parse "a.js" takenText).root) (parse "a.js" takenText).arena.size
            (Plan.lower ⟨(parse "a.js" takenText).arena, {}, naming, mark⟩
              (parse "a.js" takenText).root 0).node := by
  have hcomplaints : (parse "a.js" takenText).complaints = [] := by decide +kernel
  exact ⟨hcomplaints, generated_names_hygienic hcomplaints⟩

end ArrayLoops.Lowering
