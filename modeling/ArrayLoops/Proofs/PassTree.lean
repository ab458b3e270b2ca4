import ArrayLoops.Proofs.PassRecords

/-!
# The tree that a pass makes

The directives of a pass, applied to the tree, give the lowering of the tree. The pass leaves the
directives behind one by one; the lowering is what they amount to.
-/

namespace ArrayLoops.Lowering

open ArrayLoops.Tree (Arena Info Node NodeId Shape Slot)

attribute [local simp] Shape.parts Shape.placed

namespace Directives

variable {arena : Arena} {directives : Directives} {info : Info} {shape : Shape Node} {count : Nat}

@[simp] theorem applyTo_absent : directives.applyTo arena count .absent = ⟨.absent, [], .absent⟩ := by
  cases count <;> rfl

theorem applyTo_mk : directives.applyTo arena (count + 1) (.mk info shape) =
    directives.applyNode arena (fun node => (directives.applyTo arena count node).node) info
      (shape.map fun part => (part, directives.applyTo arena (count + 1) part)) := by
  rw [applyTo, Node.fold_mk]

def inside (arena : Arena) (directives : Directives) (count : Nat) (info : Info)
    (shape : Shape Node) : Node :=
  .mk info (rebuild (shape.map (directives.applyTo arena count)))

theorem applyTo_none (h : directives.get? info.id = none) :
    directives.applyTo arena (count + 1) (.mk info shape) =
      ⟨directives.inside arena (count + 1) info shape,
        [directives.inside arena (count + 1) info shape],
        directives.inside arena (count + 1) info shape⟩ := by
  rw [applyTo_mk, applyNode]
  simp only [h, Shape.map_map, Function.comp_def, inside]

theorem applyTo_substitute {value : Code} (h : directives.get? info.id = some (.substitute value)) :
    (directives.applyTo arena (count + 1) (.mk info shape)).node =
      inPlace arena (made arena) info.id (fun node => (directives.applyTo arena count node).node)
        value := by
  rw [applyTo_mk, applyNode]
  simp only [h]

theorem applyTo_holds {codes : List Code} {settled : Bool}
    (h : Holds (directives.get? info.id) codes settled) (hcodes : codes ≠ []) :
    let items := codes.map (Code.node (made arena) fun node =>
        (directives.applyTo arena count node).node) ++
      if settled then [] else [directives.inside arena (count + 1) info shape]
    directives.applyTo arena (count + 1) (.mk info shape) =
      ⟨directives.inside arena (count + 1) info shape, items, .mk (made arena) (.block items)⟩ := by
  rw [Holds, if_neg hcodes] at h
  obtain ⟨before, replacement, hentry, rfl, rfl⟩ := h
  rw [applyTo_mk, applyNode]
  cases replacement with
  | none => simp [hentry, Shape.map_map, Function.comp_def, inside]
  | some codes => simp [hentry, Shape.map_map, Function.comp_def, inside]

end Directives

theorem rebuild_congr {flags : Tree.Flags} {shape : Shape Node} {f g : Node → Applied}
    (hnode : ∀ entry ∈ shape.placed flags, entry.1 ≠ .statement → (f entry.2).node = (g entry.2).node)
    (hstatement : ∀ entry ∈ shape.placed flags, entry.1 = .statement →
      (f entry.2).items = (g entry.2).items ∧ (f entry.2).embedded = (g entry.2).embedded) :
    rebuild (shape.map f) = rebuild (shape.map g) := by
  have hparts (hslot : ∀ entry ∈ shape.placed flags, entry.1 ≠ .statement) :
      (shape.map f).map (·.node) = (shape.map g).map (·.node) := by
    rw [Shape.map_map, Shape.map_map]
    refine Shape.map_congr fun part hp => ?_
    rw [← shape.map_snd_placed flags, List.mem_map] at hp
    obtain ⟨entry, hm, rfl⟩ := hp
    exact hnode entry hm (hslot entry hm)
  cases shape with
  | block statements | file _ statements =>
    simp only [Shape.map, rebuild, List.flatMap_map]
    rw [List.flatMap_congr fun part hp =>
      (hstatement (.statement, part) (List.mem_map_of_mem hp) rfl).1]
  | branch condition thenBranch elseBranch =>
    simp only [Shape.map, rebuild]
    rw [hnode (.expression, condition) (by simp) (by simp),
      (hstatement (.statement, thenBranch) (by simp) rfl).2,
      (hstatement (.statement, elseBranch) (by simp) rfl).2]
  | loop form initializer condition update body =>
    simp only [Shape.map, rebuild]
    cases form with
    | «for» =>
      rw [hnode (.start, initializer) (by simp) (by simp),
        hnode (.expression, condition) (by simp) (by simp),
        hnode (.expression, update) (by simp) (by simp),
        (hstatement (.statement, body) (by simp) rfl).2]
    | «while» | doWhile =>
      rw [hnode (.vacant, initializer) (by simp) (by simp),
        hnode (.expression, condition) (by simp) (by simp),
        hnode (.vacant, update) (by simp) (by simp),
        (hstatement (.statement, body) (by simp) rfl).2]
  | access isComputed _ _ | collection isComputed _ | «variables» isComputed _ =>
    exact hparts (by cases isComputed <;> simp)
  | function _ _ _ _ =>
    exact hparts (by cases hb : flags.expressionBody <;> simp [hb] <;> grind)
  | _ => exact hparts (by simp)

/-- The directives make of a node what the lowering makes of it. Only a call that is all of its
statement can be left as it is, because the statement goes. -/
structure Matches (plan : Plan) (directives : Directives) (node : Node) (depth : Nat) : Prop where
  value : ∀ count, (∀ id, node.id? = some id → id < count) →
    ((plan.lower node depth).isSettled →
      node.isStatement = false ∧ (node.unwrapped.id?.bind directives.get?).isSome) →
    (directives.applyTo plan.arena count node).node = (plan.lower node depth).node
  items : Slot.statement.admits node → ∀ count, (∀ id, node.id? = some id → id < count) →
    (directives.applyTo plan.arena count node).items = (plan.lower node depth).items
  embedded : Slot.statement.admits node → ∀ count, (∀ id, node.id? = some id → id < count) →
    (directives.applyTo plan.arena count node).embedded =
      ((plan.lower node depth).applied (Directives.made plan.arena)).embedded
  pending : ∀ hoisted ∈ (plan.lower node depth).pending, ∀ count,
    (∀ id, node.id? = some id → id ≤ count) →
    hoisted.node = hoisted.code.node (Directives.made plan.arena) fun node =>
      (directives.applyTo plan.arena count node).node

namespace Matches

variable {plan : Plan} {directives : Directives} {depth : Nat}

theorem absent : Matches plan directives .absent depth where
  value _ _ _ := by simp
  items _ _ _ := by simp [Piece.items, Node.isPresent]
  embedded _ _ _ := by simp [Piece.applied]
  pending := nofun

end Matches

section
variable {plan : Plan} {directives : Directives} {root : Node} {above : List Node} {depth : Nat}

theorem enclosingStatement_unwrapped (hforest : plan.arena.Forest [root]) (hregular : root.Regular)
    {node : Node} (hpath : root.Path node above) (hs : node.isStatement = false)
    (hpresent : node.unwrapped.isPresent) :
    plan.arena.enclosingStatement node.unwrapped = Pass.statementOf above := by
  induction node generalizing above with
  | absent => cases hpresent
  | mk info shape ih =>
    cases shape with
    | parenthesized expression =>
      have hp : expression ∈ (Shape.parenthesized expression).parts := by simp
      have hexpression : expression.isPresent := by
        cases expression with
        | absent => cases hpresent
        | mk => rfl
      have hinner : expression.isStatement = false :=
        (hregular.within hpath.within).part_not_statement hp rfl
      rw [Node.unwrapped, ih expression hp (.part hpath hp hexpression) hinner hpresent]
      exact Pass.statementOf_cons_of_not_statement hs
    | _ =>
      simp only [Node.unwrapped]
      rw [Arena.enclosingStatement, hforest.ancestors_eq hpath]
      exact Pass.statementOf_cons_of_not_statement hs

theorem Obeys.settled {node : Node} (h : Obeys plan directives node depth) (hr : node.Regular)
    (hs : (plan.lower node depth).isSettled) (hk : node.isStatement = false) :
    (node.unwrapped.id?.bind directives.get?).isSome =
      !(plan.arena.enclosingStatement node.unwrapped).any
        (Pass.isWholeStatement · node.unwrapped) := by
  induction h with
  | absent => cases hs
  | @mk info shape depth hentry _ ih =>
    cases hsite : plan.site? (.mk info shape) depth with
    | some site =>
      obtain ⟨_, _, _, _, _, hnode, -, -⟩ := Pass.site?_call hsite
      cases hnode
      rw [Entry, hk, hsite] at hentry
      simp only [Bool.false_eq_true, if_false] at hentry
      simp only [Node.unwrapped, Node.id?_mk, Option.bind_some, hentry]
      split
      · next hwhole => simp [hwhole]
      · next hwhole => simp [hwhole]
    | none =>
      rw [Plan.lower_parts hsite] at hs
      cases shape with
      | evaluate => cases hk
      | parenthesized expression =>
        have hp : expression ∈ (Shape.parenthesized expression).parts := by simp
        exact ih expression hp (hr.part _ hp) hs (hr.part_not_statement hp rfl)
      | _ => cases hs

theorem Obeys.substituted {info : Info} {shape : Shape Node} {part : Node}
    (hforest : plan.arena.Forest [root]) (hregular : root.Regular)
    (hpath : root.Path (.mk info shape) above) (hp : part ∈ shape.parts)
    (hparenthesized : ∀ inner, shape ≠ .parenthesized inner)
    (hevaluate : ∀ inner, shape ≠ .evaluate inner) (h : Obeys plan directives part depth)
    (hk : part.isStatement = false) (hs : (plan.lower part depth).isSettled) :
    (part.unwrapped.id?.bind directives.get?).isSome := by
  have hpart := (hregular.within hpath.within).part part hp
  have hpresent := Plan.settled_unwrapped hs
  have hpartPresent : part.isPresent := by
    cases part with
    | absent => cases hpresent
    | mk => rfl
  have hgoes : Pass.goesWith plan (.mk info shape :: above) part depth = false :=
    Pass.goesWith_part hforest hpath hp hparenthesized hevaluate
  rw [h.settled hpart hs hk,
    enclosingStatement_unwrapped hforest hregular (.part hpath hp hpartPresent) hk hpresent]
  simpa [Pass.goesWith, hk, hs] using hgoes

theorem Obeys.settled_parts {info : Info} {shape : Shape Node}
    (h : Obeys plan directives (.mk info shape) depth) (hforest : plan.arena.Forest [root])
    (hregular : root.Regular) (hpath : root.Path (.mk info shape) above)
    (hsite : plan.site? (.mk info shape) depth = none)
    (hsettled : (plan.lower (.mk info shape) depth).isSettled →
      (Node.mk info shape).isStatement = false ∧
        ((Node.mk info shape).unwrapped.id?.bind directives.get?).isSome) :
    ∀ part ∈ shape.parts, (plan.lower part (depth + 1)).isSettled → part.isStatement = false →
      (part.unwrapped.id?.bind directives.get?).isSome := by
  intro part hp hs hk
  rw [Plan.lower_parts hsite] at hsettled
  cases shape with
  | parenthesized expression =>
    obtain rfl : part = expression := by simpa using hp
    exact (hsettled hs).2
  | evaluate expression =>
    obtain rfl : part = expression := by simpa using hp
    cases (hsettled hs).1
  | _ =>
    cases h with
    | mk _ hob => exact (hob part hp).substituted hforest hregular hpath hp nofun nofun hk hs

theorem Piece.mem_pendingIn {shape : Shape Piece} {hoisted : Hoisted}
    (h : hoisted ∈ pendingIn shape) : ∃ part ∈ shape.parts, hoisted ∈ part.pending := by
  cases shape with
  | block | file | function => cases h
  | branch condition _ _ => exact ⟨condition, by simp, h⟩
  | loop _ initializer _ _ _ => exact ⟨initializer, by simp, h⟩
  | _ => exact List.mem_flatMap.mp h

theorem Plan.pending_of_settled {node : Node} (h : (plan.lower node depth).isSettled) :
    (plan.lower node depth).pending ≠ [] := by
  induction node generalizing depth with
  | absent => cases h
  | mk info shape ih =>
    cases hsite : plan.site? (.mk info shape) depth with
    | some site =>
      obtain ⟨_, _, _, _, _, hnode, -, -⟩ := Pass.site?_call hsite
      cases hnode
      obtain ⟨_, _, _, _, _, hcodes, -⟩ := site.loweredWith_spec (plan.naming info.id)
      simp [Plan.lower_site hsite, lowerSite, hcodes]
    | none =>
      rw [Plan.lower_parts hsite] at h ⊢
      cases shape with
      | parenthesized expression | evaluate expression =>
        have hpending := ih expression (by simp) h
        simpa [Piece.assemble, Shape.map, Piece.pendingIn] using hpending
      | _ => cases h

theorem Plan.not_settled_of_body {node : Node} (h : Slot.body.admits node) :
    (plan.lower node depth).isSettled = false := by
  cases node with
  | absent => rfl
  | mk info shape =>
    cases shape with
    | block =>
      rw [Plan.lower_parts (Plan.site?_of_not_call (by simp [Shape.kind]))]
      rfl
    | _ => cases h

variable {info : Info} {shape : Shape Node} (hforest : plan.arena.Forest [root])
  (hregular : root.Regular) (hpath : root.Path (.mk info shape) above)
  (hobeys : Obeys plan directives (.mk info shape) depth)
  (hsite : plan.site? (.mk info shape) depth = none)
  (hparts : ∀ part ∈ shape.parts, Matches plan directives part (depth + 1))
include hforest hregular hpath hobeys hsite hparts

theorem Matches.inside {count : Nat} (hcount : info.id < count)
    (hsettled : (plan.lower (.mk info shape) depth).isSettled →
      (Node.mk info shape).isStatement = false ∧
        ((Node.mk info shape).unwrapped.id?.bind directives.get?).isSome) :
    directives.inside plan.arena count info shape = (plan.lower (.mk info shape) depth).node := by
  have hknown := (hforest.known root List.mem_cons_self).within hpath.within
  have hbound : ∀ part ∈ shape.parts, ∀ id, part.id? = some id → id < count := by
    intro part hp id hid
    cases hknown with
    | mk _ _ hlinks => exact Nat.lt_trans (hlinks part hp id hid).1 hcount
  have hnode := hregular.within hpath.within
  have hpart : ∀ entry ∈ shape.placed info.flags, entry.2 ∈ shape.parts := by
    intro entry hm
    rw [← shape.map_snd_placed info.flags]
    exact List.mem_map_of_mem hm
  have hsubstituted := hobeys.settled_parts hforest hregular hpath hsite hsettled
  rw [Plan.lower_parts hsite]
  simp only [Directives.inside, Piece.assemble, Shape.map_map, Function.comp_def]
  have hplaced : ∀ entry ∈ shape.placed info.flags, entry.1 ≠ .statement →
      (directives.applyTo plan.arena count entry.2).node =
        ((plan.lower entry.2 (depth + 1)).applied (Directives.made plan.arena)).node := by
    intro entry hm hslot
    refine (hparts entry.2 (hpart entry hm)).value count (hbound _ (hpart entry hm)) fun hs => ?_
    have hk : entry.2.isStatement = false := by
      by_cases hbody : entry.1 = .body
      · exact absurd hs (by rw [Plan.not_settled_of_body (hbody ▸ hnode.placed entry hm)]; simp)
      · exact entry.1.not_isStatement (hnode.placed entry hm) ⟨hslot, hbody⟩
    exact ⟨hk, hsubstituted entry.2 (hpart entry hm) hs hk⟩
  refine congrArg (Node.mk info) (rebuild_congr hplaced fun entry hm hslot => ?_)
  have hadmits : Slot.statement.admits entry.2 := hslot ▸ hnode.placed entry hm
  have hmatches := hparts entry.2 (hpart entry hm)
  exact ⟨hmatches.items hadmits count (hbound _ (hpart entry hm)),
    hmatches.embedded hadmits count (hbound _ (hpart entry hm))⟩

omit hregular hobeys in
theorem Matches.pending_of_parts : ∀ hoisted ∈ (plan.lower (.mk info shape) depth).pending, ∀ count,
    info.id ≤ count → hoisted.node = hoisted.code.node (Directives.made plan.arena) fun node =>
      (directives.applyTo plan.arena count node).node := by
  intro hoisted hm count hcount
  rw [Plan.lower_parts hsite] at hm
  obtain ⟨piece, hp, hm⟩ := Piece.mem_pendingIn hm
  rw [Shape.parts_map, List.mem_map] at hp
  obtain ⟨part, hp, rfl⟩ := hp
  refine (hparts part hp).pending hoisted hm count fun id hid => ?_
  cases (hforest.known root List.mem_cons_self).within hpath.within with
  | mk _ _ hlinks => exact Nat.le_trans (Nat.le_of_lt (hlinks part hp id hid).1) hcount

theorem Matches.statement {count : Nat} (hs : (Node.mk info shape).isStatement)
    (hcount : info.id ≤ count) :
    let piece := plan.lower (.mk info shape) depth
    (directives.applyTo plan.arena (count + 1) (.mk info shape)).node =
        directives.inside plan.arena (count + 1) info shape ∧
      (directives.applyTo plan.arena (count + 1) (.mk info shape)).items = piece.items ∧
      (directives.applyTo plan.arena (count + 1) (.mk info shape)).embedded =
        (piece.applied (Directives.made plan.arena)).embedded := by
  intro piece
  have hpresent : piece.node.isPresent = true := by
    simp only [piece, Plan.lower_parts hsite]
    rfl
  have hinside (hsettled : piece.isSettled = false) :
      directives.inside plan.arena (count + 1) info shape = piece.node :=
    Matches.inside hforest hregular hpath hobeys hsite hparts (Nat.lt_succ_of_le hcount)
      fun h => absurd h (by simp [piece, hsettled])
  have hentry : Holds (directives.get? info.id) (piece.pending.map (·.code)) piece.isSettled := by
    cases hobeys with
    | mk hentry _ =>
      rw [Entry, if_pos hs] at hentry
      exact hentry
  by_cases hpending : piece.pending = []
  · have hsettled : piece.isSettled = false := by
      by_contra h
      exact Plan.pending_of_settled (by simpa [piece] using h) hpending
    rw [hpending, List.map_nil, Holds, if_pos rfl] at hentry
    rw [Directives.applyTo_none hentry, hinside hsettled]
    simp [Piece.items, Piece.applied, hpending, hsettled, hpresent]
  · have hcodes : piece.pending.map (·.code) ≠ [] := by simpa using hpending
    have hnodes : (piece.pending.map (·.code)).map (Code.node (Directives.made plan.arena)
        fun node => (directives.applyTo plan.arena count node).node) = piece.pending.map (·.node) := by
      rw [List.map_map]
      refine List.map_congr_left fun hoisted hm => ?_
      exact (Matches.pending_of_parts hforest hpath hsite hparts hoisted hm count
        hcount).symm
    rw [Directives.applyTo_holds hentry hcodes, hnodes]
    have hitems : piece.pending.map (·.node) ++ (if piece.isSettled then [] else
        [directives.inside plan.arena (count + 1) info shape]) = piece.items := by
      cases hsettled : piece.isSettled with
      | true => simp [Piece.items, hsettled]
      | false => simp [Piece.items, hsettled, hinside hsettled, hpresent]
    refine ⟨rfl, hitems, ?_⟩
    rw [hitems]
    simp [Piece.applied, hpending]

theorem Matches.of_parts : Matches plan directives (.mk info shape) depth where
  value count hcount hsettled := by
    have hlt : info.id < count := hcount info.id rfl
    rw [← Matches.inside hforest hregular hpath hobeys hsite hparts hlt hsettled]
    obtain ⟨count, rfl⟩ := Nat.exists_eq_succ_of_ne_zero (Nat.ne_zero_of_lt hlt)
    by_cases hs : (Node.mk info shape).isStatement
    · exact (Matches.statement hforest hregular hpath hobeys hsite hparts hs
        (Nat.le_of_lt_succ hlt)).1
    · rw [Directives.applyTo_none (hobeys.get?_eq_none (by simpa using hs) hsite)]
  items hs count hcount := by
    have hlt : info.id < count := hcount info.id rfl
    obtain ⟨count, rfl⟩ := Nat.exists_eq_succ_of_ne_zero (Nat.ne_zero_of_lt hlt)
    exact (Matches.statement hforest hregular hpath hobeys hsite hparts hs
      (Nat.le_of_lt_succ hlt)).2.1
  embedded hs count hcount := by
    have hlt : info.id < count := hcount info.id rfl
    obtain ⟨count, rfl⟩ := Nat.exists_eq_succ_of_ne_zero (Nat.ne_zero_of_lt hlt)
    exact (Matches.statement hforest hregular hpath hobeys hsite hparts hs
      (Nat.le_of_lt_succ hlt)).2.2
  pending hoisted hm count hcount :=
    Matches.pending_of_parts hforest hpath hsite hparts hoisted hm count (hcount info.id rfl)

end

theorem inPlace_congr {arena : Arena} {info : Info} {id : NodeId} {nodes others : Node → Node}
    {value : Code} (h : value.sources = []) :
    inPlace arena info id nodes value = inPlace arena info id others value := by
  have hvalue : value.node info nodes = value.node info others :=
    value.node_congr (by simp [h])
  unfold inPlace
  rw [hvalue]

theorem replacedIn_eq {entries : List (Node × Node)}
    (hnodup : (entries.flatMap fun entry => entry.1.ids).Nodup)
    (habsent : ∀ entry ∈ entries, entry.1 = .absent → entry.2 = .absent) {entry : Node × Node}
    (h : entry ∈ entries) : replacedIn entries entry.1 = entry.2 := by
  induction entries with
  | nil => cases h
  | cons first rest ih =>
    rw [List.flatMap_cons, List.nodup_append'] at hnodup
    rw [replacedIn, List.find?_cons]
    cases hsame : first.1.same entry.1 with
    | true =>
      obtain rfl | hm := List.mem_cons.mp h
      · rfl
      · -- Two entries for the same node can only be for none.
        have hid : first.1.id? = entry.1.id? := by simpa [Node.same] using hsame
        cases hfirst : first.1 with
        | mk info shape =>
          have hleft : info.id ∈ first.1.ids := by simp [hfirst]
          have hright : info.id ∈ entry.1.ids := Node.id?_mem_ids (by rw [← hid, hfirst]; rfl)
          exact absurd (List.mem_flatMap.mpr ⟨entry, hm, hright⟩) (hnodup.2.2 hleft)
        | absent =>
          have hentry : entry.1 = .absent := by
            rw [hfirst] at hid
            cases hnode : entry.1 with
            | absent => rfl
            | mk => simp [hnode] at hid
          rw [habsent entry h hentry]
          exact habsent first List.mem_cons_self hfirst
    | false =>
      obtain rfl | hm := List.mem_cons.mp h
      · simp at hsame
      · exact ih hnodup.2.1 (fun other ho => habsent other (List.mem_cons_of_mem _ ho)) hm

section
variable {plan : Plan} {directives : Directives} {root : Node} {above : List Node} {depth : Nat}
  {info : Info} {callee : Node} {isListed : Bool} {arguments : List Node} {site : CallSite}

theorem objectOf_access {member : Info} {isComputed : Bool} {object key : Node} :
    objectOf (plan.lower (.mk member (.access isComputed object key)) depth).node =
      (plan.lower object (depth + 1)).node := by
  rw [Plan.lower_parts (Plan.site?_of_not_call (by cases isComputed <;> simp [Shape.kind]))]
  rfl

theorem replacedIn_parts (hforest : plan.arena.Forest [root])
    (hpath : root.Path (.mk info (.call false callee isListed arguments)) above)
    (hsite : plan.site? (.mk info (.call false callee isListed arguments)) depth = some site) :
    let nodes := replacedIn ((site.receiver, objectOf (plan.lower callee (depth + 1)).node) ::
      arguments.map fun argument => (argument, (plan.lower argument (depth + 1)).node))
    nodes site.receiver = (plan.lower site.receiver (depth + 2)).node ∧
      ∀ argument ∈ arguments, nodes argument = (plan.lower argument (depth + 1)).node := by
  obtain ⟨_, member, isComputed, key, _, hnode, -, -⟩ := Pass.site?_call hsite
  cases hnode
  rw [objectOf_access]
  have hnodup : (site.receiver.ids ++ (site.callback :: site.extra.toList).flatMap Node.ids).Nodup := by
    refine (Pass.node_nodup hforest hpath).sublist ?_
    simp only [Node.ids_mk, Shape.parts, List.flatMap_cons, List.cons_append]
    refine .cons _ (.cons _ ?_)
    exact (List.sublist_append_left _ _).append (.refl _)
  let entries := (site.receiver, (plan.lower site.receiver (depth + 1 + 1)).node) ::
    (site.callback :: site.extra.toList).map fun argument =>
      (argument, (plan.lower argument (depth + 1)).node)
  have hentries : ∀ entry ∈ entries, replacedIn entries entry.1 = entry.2 := by
    intro entry
    refine replacedIn_eq ?_ ?_
    · simpa only [entries, List.flatMap_cons, List.flatMap_map] using hnodup
    · intro entry hm habsent
      simp only [entries, List.mem_cons, List.mem_map] at hm
      obtain rfl | ⟨argument, -, rfl⟩ := hm
      · rw [show site.receiver = .absent from habsent]
        rfl
      · rw [show argument = .absent from habsent]
        rfl
  exact ⟨hentries _ List.mem_cons_self, fun argument ha =>
    hentries _ (List.mem_cons_of_mem _ (List.mem_map_of_mem ha))⟩

theorem Obeys.site_parts (hforest : plan.arena.Forest [root]) (hregular : root.Regular)
    (hpath : root.Path (.mk info (.call false callee isListed arguments)) above)
    (h : Obeys plan directives (.mk info (.call false callee isListed arguments)) depth)
    (hsite : plan.site? (.mk info (.call false callee isListed arguments)) depth = some site) :
    (site.receiver.isStatement = false ∧ ((plan.lower site.receiver (depth + 2)).isSettled →
        (site.receiver.unwrapped.id?.bind directives.get?).isSome)) ∧
      ∀ argument ∈ arguments, argument.isStatement = false ∧
        ((plan.lower argument (depth + 1)).isSettled →
          (argument.unwrapped.id?.bind directives.get?).isSome) := by
  obtain ⟨_, member, isComputed, key, _, hnode, -, -⟩ := Pass.site?_call hsite
  cases hnode
  have hregularNode := hregular.within hpath.within
  cases h with
  | mk _ hobeysParts =>
    constructor
    · -- The receiver is a part of the callee.
      have hp : .mk member (.access isComputed site.receiver key) ∈
          (Shape.call false (.mk member (.access isComputed site.receiver key)) isListed
            (site.callback :: site.extra.toList)).parts := by simp
      have hreceiver : site.receiver ∈ (Shape.access isComputed site.receiver key).parts := by
        simp
      have hk : site.receiver.isStatement = false :=
        (hregularNode.part _ hp).part_not_statement hreceiver rfl
      refine ⟨hk, fun hs => ?_⟩
      cases hobeysParts _ hp with
      | mk _ hobeysCallee =>
        exact (hobeysCallee _ hreceiver).substituted hforest hregular (.part hpath hp rfl)
          hreceiver nofun nofun hk hs
    · intro argument ha
      have hp := List.mem_cons_of_mem (Node.mk member (.access isComputed site.receiver key)) ha
      have hk : argument.isStatement = false := hregularNode.part_not_statement hp rfl
      exact ⟨hk, (hobeysParts argument hp).substituted hforest hregular hpath hp nofun nofun hk⟩

theorem Obeys.substitute_at_site
    (h : Obeys plan directives (.mk info (.call false callee isListed arguments)) depth)
    (hsite : plan.site? (.mk info (.call false callee isListed arguments)) depth = some site)
    (hsome : (directives.get? info.id).isSome) :
    directives.get? info.id = some (.substitute (site.loweredWith (plan.naming info.id)).value) := by
  cases h with
  | mk hentry _ =>
    rw [Entry, if_neg (by rintro ⟨⟩), hsite] at hentry
    dsimp only at hentry
    split at hentry
    · rw [hentry] at hsome
      cases hsome
    · exact hentry

variable (hforest : plan.arena.Forest [root]) (hregular : root.Regular)
  (hpath : root.Path (.mk info (.call false callee isListed arguments)) above)
  (hobeys : Obeys plan directives (.mk info (.call false callee isListed arguments)) depth)
  (hsite : plan.site? (.mk info (.call false callee isListed arguments)) depth = some site)
  (hparts : ∀ part ∈ callee :: arguments, Matches plan directives part (depth + 1))
  (hinner : ∀ part ∈ callee.parts, Matches plan directives part (depth + 2))
include hforest hregular hpath hobeys hsite hparts hinner

theorem Matches.replaced {count : Nat} (hcount : info.id ≤ count) :
    (directives.applyTo plan.arena count site.receiver).node =
        (plan.lower site.receiver (depth + 2)).node ∧
      ∀ argument ∈ arguments, (directives.applyTo plan.arena count argument).node =
        (plan.lower argument (depth + 1)).node := by
  obtain ⟨⟨hk, hsettled⟩, harguments⟩ := hobeys.site_parts hforest hregular hpath hsite
  obtain ⟨_, member, isComputed, key, _, hnode, -, -⟩ := Pass.site?_call hsite
  cases hnode
  cases (hforest.known root List.mem_cons_self).within hpath.within with
  | mk _ hknown hlinks =>
    constructor
    · have hp : .mk member (.access isComputed site.receiver key) ∈
          (Shape.call false (.mk member (.access isComputed site.receiver key)) isListed
            (site.callback :: site.extra.toList)).parts := by simp
      have hreceiver : site.receiver ∈ (Shape.access isComputed site.receiver key).parts := by
        simp
      refine (hinner site.receiver hreceiver).value count (fun id hid => ?_)
        fun hs => ⟨hk, hsettled hs⟩
      cases hknown _ hp with
      | mk _ _ hlinksCallee =>
        have hlt := (hlinksCallee site.receiver hreceiver id hid).1
        have hlt' := (hlinks _ hp member.id rfl).1
        exact Nat.lt_of_lt_of_le (Nat.lt_trans hlt hlt') hcount
    · intro argument ha
      have hp := List.mem_cons_of_mem (Node.mk member (.access isComputed site.receiver key)) ha
      obtain ⟨hk, hsettled⟩ := harguments argument ha
      exact (hparts argument hp).value count
        (fun id hid => Nat.lt_of_lt_of_le (hlinks argument hp id hid).1 hcount)
        fun hs => ⟨hk, hsettled hs⟩

theorem Matches.of_site (hmark : plan.mark = fun _ => Directives.made plan.arena) :
    Matches plan directives (.mk info (.call false callee isListed arguments)) depth where
  value count hcount hsettled := by
    have hlt : info.id < count := hcount info.id rfl
    obtain ⟨count, rfl⟩ := Nat.exists_eq_succ_of_ne_zero (Nat.ne_zero_of_lt hlt)
    have hentry := hobeys.substitute_at_site hsite (hsettled (by rw [Plan.lower_site hsite]; rfl)).2
    obtain ⟨_, _, _, _, _, -, -, -, -, hvalue⟩ := site.loweredWith_spec (plan.naming info.id)
    rw [Directives.applyTo_substitute hentry, Plan.lower_site hsite, hmark]
    exact inPlace_congr hvalue
  items hs := by cases hs
  embedded hs := by cases hs
  pending hoisted hm count hcount := by
    have hle : info.id ≤ count := hcount info.id rfl
    have hbound : ∀ part ∈ callee :: arguments, ∀ id, part.id? = some id → id ≤ count := by
      intro part hp id hid
      cases (hforest.known root List.mem_cons_self).within hpath.within with
      | mk _ _ hlinks => exact Nat.le_trans (Nat.le_of_lt (hlinks part hp id hid).1) hle
    rw [Plan.lower_site hsite, hmark] at hm
    simp only [lowerSite, List.mem_append, List.mem_flatMap, List.mem_singleton, List.mem_map] at hm
    obtain hm | ⟨code, hcode, ⟨argument, ⟨source, hs, rfl⟩, hm⟩ | rfl⟩ := hm
    · exact (hparts callee List.mem_cons_self).pending hoisted hm count
        (hbound callee List.mem_cons_self)
    · have hp := List.mem_cons_of_mem callee hs
      split at hm
      · exact (hparts source hp).pending hoisted hm count (hbound source hp)
      · cases hm
    · refine code.node_congr fun node hnode => ?_
      obtain ⟨hreceiver, harguments⟩ := replacedIn_parts hforest hpath hsite
      obtain ⟨happlied, happliedArguments⟩ :=
        Matches.replaced hforest hregular hpath hobeys hsite hparts hinner hle
      have harguments' : arguments = site.callback :: site.extra.toList := by
        obtain ⟨_, _, _, _, _, hcall, -, -⟩ := Pass.site?_call hsite
        cases hcall
        rfl
      simp only [List.map_map, Function.comp_def]
      obtain rfl | hm := List.mem_cons.mp (site.sources_loweredWith _ code hcode node hnode)
      · rw [hreceiver, happlied]
      · rw [harguments node (harguments' ▸ hm), happliedArguments node (harguments' ▸ hm)]

end

/-- Directives that are right at all nodes of a tree make of each what the lowering makes of it. -/
theorem matches_of_obeys {plan : Plan} {directives : Directives} {root node : Node}
    {above : List Node} {depth : Nat}
    (hmark : plan.mark = fun _ => Directives.made plan.arena)
    (hforest : plan.arena.Forest [root]) (hregular : root.Regular)
    (hpath : node.isPresent → root.Path node above) (h : Obeys plan directives node depth) :
    Matches plan directives node depth ∧
      ∀ part ∈ node.parts, Matches plan directives part (depth + 1) := by
  -- The receiver of a call is a part of a part of it.
  induction h generalizing above with
  | absent => exact ⟨.absent, nofun⟩
  | @mk info shape depth hentry hobeys ih =>
    have hpath := hpath rfl
    have hboth := fun part hp => ih part hp (fun hpresent => .part hpath hp hpresent)
    have hparts := fun part hp => (hboth part hp).1
    refine ⟨?_, hparts⟩
    cases hsite : plan.site? (.mk info shape) depth with
    | none => exact .of_parts hforest hregular hpath (.mk hentry hobeys) hsite hparts
    | some site =>
      obtain ⟨_, _, _, _, _, hnode, -, -⟩ := Pass.site?_call hsite
      cases hnode
      exact .of_site hforest hregular hpath (.mk hentry hobeys) hsite hparts
        (hboth _ List.mem_cons_self).2 hmark

namespace Plan

variable {plan : Plan} {naming : NodeId → Names}

theorem Named.of_same {node : Node} {depth : Nat} {names : Names} (h : plan.Named node depth names)
    (hs : ∀ id ∈ node.ids, naming id = plan.naming id) :
    ({ plan with naming } : Plan).Named node depth names := by
  induction h with
  | absent => exact .absent
  | @mk info shape depth names hparts hcall ih =>
    rw [Node.ids_mk] at hs
    refine .mk (fun before part after heq => ih before part after heq fun id hid => ?_)
      fun site hsite => ?_
    · refine hs id (List.mem_cons_of_mem _ (List.mem_flatMap.mpr ⟨part, ?_, hid⟩))
      exact shape.slots_subset (by simp [heq])
    · exact (hs info.id List.mem_cons_self).trans (hcall site hsite)

theorem Named.of_mark {node : Node} {depth : Nat} {names : Names} (h : plan.Named node depth names)
    (mark : NodeId → Info) : ({ plan with mark } : Plan).Named node depth names := by
  induction h with
  | absent => exact .absent
  | mk _ hcall ih => exact .mk ih hcall

theorem exists_named_all {nodes : List Node} (hnodup : (nodes.flatMap Node.ids).Nodup)
    (ih : ∀ node ∈ nodes, ∀ (plan : Plan) depth names, ∃ naming,
      ({ plan with naming } : Plan).Named node depth names ∧
        ∀ id ∉ node.ids, naming id = plan.naming id) (plan : Plan) (depth : Nat) (names : Names) :
    ∃ naming, (∀ before node after, nodes = before ++ node :: after →
        ({ plan with naming } : Plan).Named node depth (plan.namesAfterAll depth before names)) ∧
      ∀ id ∉ nodes.flatMap Node.ids, naming id = plan.naming id := by
  induction nodes generalizing plan names with
  | nil => exact ⟨plan.naming, by simp, fun _ _ => rfl⟩
  | cons node rest ihn =>
    rw [List.flatMap_cons, List.nodup_append'] at hnodup
    obtain ⟨first, hfirst, hfirstOther⟩ := ih node List.mem_cons_self plan depth names
    obtain ⟨naming, hrest, hother⟩ := ihn hnodup.2.1
      (fun other ho => ih other (List.mem_cons_of_mem _ ho)) { plan with naming := first }
      (plan.namesAfter node depth names)
    refine ⟨naming, ?_, fun id hid => ?_⟩
    · intro before other after heq
      cases before with
      | nil =>
        cases heq
        exact hfirst.of_same fun id hid => hother id fun hm => hnodup.2.2 hid hm
      | cons _ before =>
        cases heq
        exact hrest before other after rfl
    · rw [List.flatMap_cons, List.mem_append, not_or] at hid
      exact (hother id hid.2).trans (hfirstOther id hid.1)

theorem exists_named {node : Node} (hnodup : node.ids.Nodup) (plan : Plan) (depth : Nat)
    (names : Names) :
    ∃ naming, ({ plan with naming } : Plan).Named node depth names ∧
      ∀ id ∉ node.ids, naming id = plan.naming id := by
  induction node generalizing plan depth names with
  | absent => exact ⟨plan.naming, .absent, fun _ _ => rfl⟩
  | mk info shape ih =>
    have hslots := Node.nodup_slots hnodup
    rw [Node.ids_mk, List.nodup_cons] at hnodup
    have hparts := (List.nodup_flatMap.mp hnodup.2).1
    obtain ⟨inner, hinner, hother⟩ := exists_named_all hslots
      (fun part hp => ih part (shape.slots_subset hp) (hparts part (shape.slots_subset hp))) plan
      (depth + 1) (namesInside shape names)
    refine ⟨Function.update inner info.id (plan.namesAfterAll (depth + 1) shape.slots names),
      .mk (fun before part after heq => ?_) fun site hsite => ?_, fun id hid => ?_⟩
    · refine (hinner before part after heq).of_same fun id hid => Function.update_of_ne ?_ _ _
      rintro rfl
      refine hnodup.1 (List.mem_flatMap.mpr ⟨part, shape.slots_subset ?_, hid⟩)
      simp [heq]
    · exact Function.update_self _ _ _
    · rw [Node.ids_mk, List.mem_cons, not_or] at hid
      rw [Function.update_of_ne hid.1]
      exact hother id fun hm => hid.2 (shape.slots_ids_subset hm)

end Plan

theorem Plan.lower_file {plan : Plan} {root : Node} {depth : Nat} (h : root.isKind .file) :
    (plan.lower root depth).pending = [] ∧ (plan.lower root depth).isSettled = false := by
  cases root with
  | absent => exact ⟨rfl, rfl⟩
  | mk info shape =>
    have hkind : shape.kind = .file := by simpa [Node.isKind, Node.kind?] using h
    rw [lower_parts (site?_of_not_call (by simp [hkind]))]
    cases shape with
    | file | bare => exact ⟨rfl, rfl⟩
    | unary flag _ _ | call flag _ _ _ | access flag _ _ | collection flag _ | «variables» flag _
    | exit flag _ => cases flag <;> cases hkind
    | function form _ _ _ | loop form _ _ _ _ => cases form <;> cases hkind
    | _ => cases hkind

theorem runPass_obeys {arena : Arena} {options : Options} {root : Node} {result : PassResult}
    (hforest : arena.Forest [root]) (hregular : root.Regular) (hfile : root.isKind .file)
    (hrun : runPass arena options root = .ok result) :
    ∃ naming, let plan : Plan := ⟨arena, options, naming, fun _ => Directives.made arena⟩
      plan.Named root 0 (.ofReserved root.identifierNames) ∧
      Obeys plan result.directives root 0 ∧
      ∀ id, result.directives.contains id → id ∈ root.ids := by
  have hnodup : root.ids.Nodup := by simpa using hforest.nodup
  obtain ⟨naming, hnamed, -⟩ := Plan.exists_named hnodup
    ⟨arena, options, fun _ => .ofReserved [], fun _ => Directives.made arena⟩ 0
    (.ofReserved root.identifierNames)
  let plan : Plan := ⟨arena, options, naming, fun _ => Directives.made arena⟩
  refine ⟨naming, hnamed, ?_⟩
  cases hvisit : (Pass.visit arena options root 0).run
      ⟨.empty, [], .ofReserved root.identifierNames, []⟩ with
  | error error => simp [runPass, hvisit, bind, Except.bind] at hrun
  | ok final =>
    obtain ⟨⟨⟩, final⟩ := final
    have hdirectives : result.directives = final.directives := by
      simp only [runPass, hvisit, bind, Except.bind, pure, Except.pure] at hrun
      cases hrun
      rfl
    have hready : Pass.Ready plan [] root 0 ⟨.empty, [], .ofReserved root.identifierNames, []⟩ :=
      ⟨fun _ _ => rfl, hnamed, nofun⟩
    have hrecords := Pass.records hforest hregular (fun _ => .root) hready hvisit
    rw [hdirectives]
    refine ⟨hrecords.obeys, fun id hid => ?_⟩
    by_contra hm
    have hleft : plan.left root 0 = [] := by simp [Plan.left, Plan.lower_file hfile]
    rw [Directives.contains, hrecords.same id hm (.inr (.inr hleft))] at hid
    cases hid

/-- The directives of a pass, applied to the tree, give the lowering of the tree with the names that
the pass gives out. -/
theorem runPass_tree {arena : Arena} {options : Options} {root : Node} {result : PassResult}
    (hforest : arena.Forest [root]) (hregular : root.Regular) (hfile : root.isKind .file)
    (hrun : runPass arena options root = .ok result) :
    ∃ naming, let plan : Plan := ⟨arena, options, naming, fun _ => Directives.made arena⟩
      plan.Named root 0 (.ofReserved root.identifierNames) ∧
      result.directives.apply arena root = (plan.lower root 0).node := by
  obtain ⟨naming, hnamed, hobeys, -⟩ := runPass_obeys hforest hregular hfile hrun
  refine ⟨naming, hnamed, ?_⟩
  have hmatches := (matches_of_obeys rfl hforest hregular (fun _ => .root) hobeys).1
  refine hmatches.value arena.size (fun id hid => ?_) fun hs => ?_
  · exact hforest.id_lt List.mem_cons_self (Node.id?_mem_ids hid)
  · rw [(Plan.lower_file hfile).2] at hs
    cases hs

end ArrayLoops.Lowering
