import ArrayLoops.Proofs.PassRun

/-!
# Visits record lowerings

From the visits of the parts of a node to the visit of the node. What the parts leave is what the
node leaves, or what its statement receives, because nothing is left where a loop cannot go; and a
statement goes only with the call that is all of it.
-/

namespace ArrayLoops.Lowering

open ArrayLoops.Tree (Arena Info Node NodeId Shape Slot)

attribute [local simp] Shape.parts Shape.placed

theorem Piece.pendingIn_map {shape : Shape Node} {pieces : Node → Piece}
    (h : shape.holdsStatements = false) :
    pendingIn (shape.map pieces) = shape.parts.flatMap fun part => (pieces part).pending := by
  cases shape with
  | function | block | file | branch | loop => cases h
  | _ => simp [pendingIn, Shape.map, List.flatMap_map]

namespace Plan

variable {plan : Plan} {root : Node} {info : Info} {shape : Shape Node} {above : List Node}
  {depth : Nat}

theorem site?_of_ne_call (h : ∀ callee isListed arguments, shape ≠ .call false callee isListed arguments) :
    plan.site? (.mk info shape) depth = none := by
  by_contra hsome
  obtain ⟨site, hsite⟩ := Option.ne_none_iff_exists'.mp hsome
  obtain ⟨_, _, _, _, _, hnode, _⟩ := Pass.site?_call hsite
  cases hnode
  exact h _ _ _ rfl

theorem site?_of_not_call (h : shape.kind ≠ .call) : plan.site? (.mk info shape) depth = none :=
  site?_of_ne_call fun _ _ _ heq => h (heq ▸ rfl)

theorem site?_of_function (h : shape.kind.isFunction) :
    plan.site? (.mk info shape) depth = none :=
  site?_of_not_call fun hk => by simp [hk, Tree.Kind.isFunction] at h

theorem lower_function (h : shape.kind.isFunction) :
    (plan.lower (.mk info shape) depth).pending = [] ∧
      (plan.lower (.mk info shape) depth).isSettled = false := by
  rw [lower_parts (site?_of_function h)]
  cases shape with
  | function | bare => exact ⟨rfl, rfl⟩
  | unary flag _ _ | call flag _ _ _ | access flag _ _ | collection flag _ | «variables» flag _
  | exit flag _ => cases flag <;> cases h
  | loop form _ _ _ _ => cases form <;> cases h
  | _ => cases h

theorem settled_unwrapped {node : Node} (h : (plan.lower node depth).isSettled) :
    node.unwrapped.isPresent := by
  induction node generalizing depth with
  | absent => cases h
  | mk info shape ih =>
    cases shape with
    | parenthesized expression =>
      rw [lower_parts (site?_of_not_call (by simp [Shape.kind]))] at h
      exact ih expression (by simp) h
    | _ => rfl

theorem left_of_not_statement {node : Node} (h : node.isStatement = false) :
    plan.left node depth = (plan.lower node depth).pending.map (·.code) := by
  simp [left, h]

theorem left_site {callee : Node} {isListed : Bool} {arguments : List Node} {site : CallSite}
    (hsite : plan.site? (.mk info (.call false callee isListed arguments)) depth = some site)
    (hparts : ∀ part ∈ callee :: arguments, part.isStatement = false) :
    plan.left (.mk info (.call false callee isListed arguments)) depth =
      plan.left callee (depth + 1) ++
        (site.loweredWith (plan.naming info.id)).statements.flatMap (Code.behind
          (arguments.map fun argument => (argument, plan.left argument (depth + 1)))) := by
  rw [left_of_not_statement rfl, lower_site hsite, left_of_not_statement (hparts _ (by simp))]
  simp only [lowerSite, List.map_append, List.map_flatMap, List.map_cons, List.map_nil]
  congr 1
  refine List.flatMap_congr fun code _ => ?_
  rw [Code.behind, List.flatMap_map, List.flatMap_map]
  congr 1
  refine List.flatMap_congr fun argument hm => ?_
  rw [left_of_not_statement (hparts argument (List.mem_cons_of_mem _ hm))]
  split <;> rfl

variable (hforest : plan.arena.Forest [root]) (hregular : root.Regular)
  (hpath : root.Path (.mk info shape) above)
include hforest hregular hpath

theorem left_eq_nil_of_unsafe {part : Node} (hp : part ∈ shape.parts) {place : UnsafePlace}
    (hplace : CallSite.placeIn plan.arena part (.mk info shape) = some (some place)) :
    plan.left part depth = [] := by
  cases part with
  | absent => rfl
  | mk partInfo partShape =>
    by_contra hne
    have hsafe := safe_of_left hforest hregular (.part hpath hp rfl) hne
    simp [CallSite.unsafePlaceFrom, hplace] at hsafe

theorem pending_eq_nil_of_unsafe {part : Node} (hp : part ∈ shape.parts) {place : UnsafePlace}
    (hplace : CallSite.placeIn plan.arena part (.mk info shape) = some (some place))
    (hs : part.isStatement = false) : (plan.lower part depth).pending = [] := by
  have hleft : plan.left part depth = [] := left_eq_nil_of_unsafe hforest hregular hpath hp hplace
  rw [left_of_not_statement hs] at hleft
  simpa using hleft

theorem left_parts (hsite : plan.site? (.mk info shape) depth = none) :
    shape.slots.flatMap (plan.left · (depth + 1)) =
      (plan.lower (.mk info shape) depth).pending.map (·.code) := by
  have hnode := hregular.within hpath.within
  have hstatement : ∀ node, Slot.admits .statement node → plan.left node (depth + 1) = [] := by
    intro node ha
    cases node with
    | absent => rfl
    | mk => exact left_statement ha
  have hunsafe : ∀ part ∈ shape.parts, ∀ place,
      CallSite.placeIn plan.arena part (.mk info shape) = some (some place) →
      plan.left part (depth + 1) = [] :=
    fun part hp place => left_eq_nil_of_unsafe hforest hregular hpath hp
  rw [lower_parts hsite]
  by_cases hholds : shape.holdsStatements
  · cases shape with
    | function form name parameters body =>
      exact List.flatMap_eq_nil_iff.mpr fun part hp => hunsafe part hp .functionBoundary rfl
    | block statements | file _ statements =>
      refine List.flatMap_eq_nil_iff.mpr fun part hp => hstatement part ?_
      exact hnode.placed (.statement, part) (List.mem_map_of_mem hp)
    | branch condition thenBranch elseBranch =>
      have hthen := hstatement thenBranch (hnode.placed (.statement, _) (by simp))
      have helse := hstatement elseBranch (hnode.placed (.statement, _) (by simp))
      have hcondition : condition.isStatement = false :=
        Slot.not_isStatement .expression (hnode.placed (_, condition) (by simp))
          (by decide)
      simp [Shape.slots, hthen, helse, left_of_not_statement hcondition,
        Piece.assemble, Shape.map, Piece.pendingIn]
    | loop form initializer condition update body =>
      have hbody := hstatement body
        (hnode.placed (.statement, _) (by cases form <;> simp))
      have hcondition := hunsafe condition (by simp) .loopTest
        (by simp [CallSite.placeIn])
      cases form with
      | «for» =>
        have hinitializer : initializer.isStatement = false :=
          Slot.not_isStatement .start (hnode.placed (_, initializer) (by simp))
            (by decide)
        have hupdate : plan.left update (depth + 1) = [] := by
          by_cases hsame : condition.same update
          · exact hunsafe update (by simp) .loopTest (by simp [CallSite.placeIn, hsame])
          · exact hunsafe update (by simp) .loopUpdate
              (by simp [CallSite.placeIn, hsame])
        simp [Shape.slots, hbody, hcondition, hupdate,
          left_of_not_statement hinitializer, Piece.assemble, Shape.map, Piece.pendingIn]
      | «while» | doWhile =>
        obtain rfl := Slot.eq_absent (hnode.placed (.vacant, initializer) (by simp))
        obtain rfl := Slot.eq_absent (hnode.placed (.vacant, update) (by simp))
        simp [Shape.slots, hbody, hcondition, left_absent, Piece.assemble, Shape.map,
          Piece.pendingIn]
    | _ => cases hholds
  · rw [Bool.not_eq_true] at hholds
    rw [Piece.assemble, Piece.pendingIn_map hholds, shape.slots_eq_parts hholds, List.map_flatMap]
    refine List.flatMap_congr fun part hp => left_of_not_statement ?_
    exact hnode.part_not_statement hp hholds

end Plan

namespace Pass

variable {plan : Plan} {root : Node} {info : Info} {shape : Shape Node} {above : List Node}
  {depth : Nat}

theorem statementOf_cons_of_statement {node : Node} (h : node.isStatement) :
    statementOf (node :: above) = some node :=
  List.find?_cons_of_pos h

theorem statementOf_cons_of_not_statement {node : Node} (h : node.isStatement = false) :
    statementOf (node :: above) = statementOf above :=
  List.find?_cons_of_neg (by simp [h])

theorem mem_of_statementOf {statement : Node} (h : statementOf above = some statement) :
    statement ∈ above :=
  List.mem_of_find?_eq_some h

theorem statement_not_mem (hforest : plan.arena.Forest [root]) {node : Node}
    (hpath : root.Path node above) {id : NodeId}
    (h : (statementOf above).bind Node.id? = some id) : id ∉ node.ids := by
  obtain ⟨statement, hstatement, hid⟩ := Option.bind_eq_some_iff.mp h
  intro hm
  have hknown := hforest.known root List.mem_cons_self
  exact Nat.lt_irrefl id (hknown.lt_of_above hpath (mem_of_statementOf hstatement) hm hid)

section
variable (hforest : plan.arena.Forest [root]) (hpath : root.Path (.mk info shape) above)
include hforest hpath

theorem node_nodup : (Node.mk info shape).ids.Nodup :=
  hpath.within.nodup (by simpa using hforest.nodup)

theorem not_isWholeStatement {statement part inner : Node} (hstatement : statement ∈ above)
    (hp : part ∈ shape.parts) (hinner : inner.Within part)
    (hshape : ∀ inner, shape ≠ .parenthesized inner) (hpresent : inner.isPresent) :
    isWholeStatement statement inner = false := by
  by_contra hwhole
  rw [Bool.not_eq_false] at hwhole
  unfold isWholeStatement at hwhole
  split at hwhole
  · rename_i outer expression
    obtain ⟨id, hid⟩ := Node.exists_id hpresent
    have hsame : expression.unwrapped.id? = some id := by
      simpa [Node.same, hid] using hwhole
    have hexpression : expression.Within root :=
      (Node.Within.part (by simp) .self).trans (hpath.above_within hstatement)
    have hpart : part.Within root := (Node.Within.part hp .self).trans hpath.within
    have heq : expression.unwrapped = inner :=
      (hforest.known root List.mem_cons_self).unique
        ((Node.unwrapped_within _).trans hexpression) (hinner.trans hpart) hsame hid
    -- The node lies in its own part.
    obtain ⟨whole, hm, hw⟩ := hpath.within_part hstatement
    obtain rfl : whole = expression := by simpa [Node.parts] using hm
    have hinside : (Node.mk info shape).Within part := by
      have := hw.unwrapped hshape
      rw [heq] at this
      exact this.trans hinner
    have hnodup := node_nodup hforest hpath
    rw [Node.ids_mk, List.nodup_cons] at hnodup
    exact hnodup.1 (List.mem_flatMap.mpr ⟨part, hp, hinside.ids_subset (by simp)⟩)
  · cases hwhole

theorem goesWith_part {part : Node} (hp : part ∈ shape.parts)
    (hparenthesized : ∀ inner, shape ≠ .parenthesized inner)
    (hevaluate : ∀ inner, shape ≠ .evaluate inner) :
    goesWith plan (.mk info shape :: above) part depth = false := by
  by_contra hgoes
  simp only [goesWith, Bool.not_eq_false, Bool.and_eq_true, Option.any_eq_true_iff_get] at hgoes
  obtain ⟨⟨-, hsettled⟩, hsome, hwhole⟩ := hgoes
  have hpresent := Plan.settled_unwrapped hsettled
  by_cases hs : (Node.mk info shape).isStatement
  · simp only [statementOf_cons_of_statement hs, Option.get_some] at hwhole
    unfold isWholeStatement at hwhole
    split at hwhole
    · rename_i inner heq
      cases heq
      exact hevaluate inner rfl
    · cases hwhole
  · simp only [statementOf_cons_of_not_statement (Bool.not_eq_true _ ▸ hs)] at hwhole hsome
    have hm := mem_of_statementOf (Option.some_get hsome).symm
    rw [not_isWholeStatement hforest hpath hm hp (Node.unwrapped_within _) hparenthesized hpresent]
      at hwhole
    cases hwhole

variable (hregular : root.Regular) (hsite : plan.site? (.mk info shape) depth = none)
include hregular hsite

theorem goesWith_parts_of_statement (hs : (Node.mk info shape).isStatement) :
    shape.slots.any (goesWith plan (.mk info shape :: above) · (depth + 1)) =
      (plan.lower (.mk info shape) depth).isSettled := by
  rw [Plan.lower_parts hsite]
  cases shape with
  | parenthesized => cases hs
  | evaluate expression =>
    have hexpression : expression.isStatement = false :=
      (hregular.within hpath.within).part_not_statement (by simp) rfl
    simp [Shape.slots, goesWith, hexpression, statementOf_cons_of_statement hs,
      isWholeStatement, Piece.assemble, Shape.map, Piece.isSettledIn]
  | _ =>
    refine List.any_eq_false.mpr fun part hp => ?_
    rw [goesWith_part hforest hpath (Shape.slots_subset _ hp) (by simp) (by simp)]
    simp

theorem goesWith_parts_of_not_statement (hs : (Node.mk info shape).isStatement = false) :
    shape.slots.any (goesWith plan (.mk info shape :: above) · (depth + 1)) =
      goesWith plan above (.mk info shape) depth := by
  cases shape with
  | evaluate => cases hs
  | parenthesized expression =>
    have hexpression : expression.isStatement = false :=
      (hregular.within hpath.within).part_not_statement (by simp) rfl
    simp [Shape.slots, goesWith, hexpression, hs,
      statementOf_cons_of_not_statement hs, Plan.lower_parts hsite, Piece.assemble, Shape.map,
      Piece.isSettledIn, Node.unwrapped]
  | _ =>
    rw [List.any_eq_false.mpr fun part hp => ?_, goesWith, Plan.lower_parts hsite]
    · simp [Piece.assemble, Shape.map, Piece.isSettledIn]
    · rw [goesWith_part hforest hpath (Shape.slots_subset _ hp) (by simp) (by simp)]
      simp

omit hsite

omit hregular in
theorem statement_not_mem_parts {id : NodeId}
    (h : (statementOf (.mk info shape :: above)).bind Node.id? = some id) :
    id ∉ shape.parts.flatMap Node.ids := by
  by_cases hs : (Node.mk info shape).isStatement
  · rw [statementOf_cons_of_statement hs] at h
    cases h
    have hnodup := node_nodup hforest hpath
    rw [Node.ids_mk, List.nodup_cons] at hnodup
    exact hnodup.1
  · rw [statementOf_cons_of_not_statement (by simpa using hs)] at h
    intro hm
    refine statement_not_mem hforest hpath h ?_
    rw [Node.ids_mk]
    exact List.mem_cons_of_mem _ hm

theorem readyAll_parts {s t : State} (h : Ready plan above (.mk info shape) depth s)
    (hd : t.directives = s.directives) (hn : t.names = Plan.namesInside shape s.names)
    (hc : isCaptured t → isCaptured s ∧ shape.kind.isFunction = false) :
    ReadyAll plan (.mk info shape :: above) shape.slots (depth + 1) t := by
  have hnodup := node_nodup hforest hpath
  have hsubset := shape.slots_ids_subset
  refine ⟨Node.nodup_slots hnodup, ?_, ?_, ?_, ?_, ?_⟩
  · intro id hid hm
    exact statement_not_mem_parts hforest hpath hid (hsubset hm)
  · intro id hid
    rw [hd]
    refine h.fresh id ?_
    rw [Node.ids_mk]
    exact List.mem_cons_of_mem _ (hsubset hid)
  · rw [hn]
    cases h.named with
    | mk hparts _ => exact hparts
  · intro hcaptured part hp
    obtain ⟨hs, hfunction⟩ := hc hcaptured
    obtain ⟨hstatement, hfile, hgoes⟩ := h.captured hs
    have hnode := hregular.within hpath.within
    have hpart := shape.slots_subset hp
    refine ⟨hnode.part_not_statement hpart ?_, hnode.part_not_file hpart, ?_⟩
    · cases shape with
      | block | branch => cases hstatement
      | loop form => cases form <;> cases hstatement
      | function form => cases form <;> cases hfunction
      | file => cases hfile
      | _ => rfl
    · cases shape with
      | evaluate => cases hstatement
      | parenthesized expression =>
        rw [← goesWith_parts_of_not_statement hforest hpath hregular
          (Plan.site?_of_not_call (by simp [Shape.kind])) hstatement] at hgoes
        simpa using List.any_eq_false.mp hgoes part hp
      | _ => exact goesWith_part hforest hpath hpart (by simp) (by simp)
  · intro before part after heq hne
    have hp : part ∈ shape.parts := shape.slots_subset (by simp [heq])
    cases shape with
    | parenthesized | evaluate =>
      simp only [Shape.slots, Shape.parts] at heq
      cases before with
      | nil => simp_all
      | cons => simp at heq
    | _ => exact goesWith_part hforest hpath hp (by simp) (by simp)

variable {s s' : State}

omit hforest in
theorem obeys_parts {t t' : State}
    (hr : RecordsAll plan (.mk info shape :: above) shape.slots (depth + 1) t t') :
    ∀ part ∈ shape.parts, Obeys plan t'.directives part (depth + 1) := by
  intro part hp
  obtain hslot | rfl := (hregular.within hpath.within).mem_slots hp
  · exact hr.obeys part hslot
  · exact .absent

theorem records_of_parts (h : Ready plan above (.mk info shape) depth s)
    (hs : (Node.mk info shape).isStatement = false)
    (hsite : plan.site? (.mk info shape) depth = none) (hfunction : shape.kind.isFunction = false)
    (hr : RecordsAll plan (.mk info shape :: above) shape.slots (depth + 1) s s') :
    Records plan above (.mk info shape) depth s s' := by
  have hleft : shape.slots.flatMap (plan.left · (depth + 1)) = plan.left (.mk info shape) depth := by
    rw [Plan.left_parts hforest hregular hpath hsite, Plan.left_of_not_statement hs]
  have hgoes := goesWith_parts_of_not_statement hforest hpath hregular hsite hs
  have hstatement : statementOf (.mk info shape :: above) = statementOf above :=
    statementOf_cons_of_not_statement hs
  have hnodup := node_nodup hforest hpath
  rw [Node.ids_mk, List.nodup_cons] at hnodup
  refine ⟨?_, ?_, fun id hid hcase => ?_, .mk ?_ (obeys_parts hpath hregular hr),
    fun codes hcodes => ?_⟩
  · rw [hr.names, Plan.namesAfter_mk, hsite]
    simp [hfunction]
  · rw [hr.captures, hleft]
  · rw [Node.ids_mk, List.mem_cons, not_or] at hid
    refine hr.same id (fun hm => hid.2 (shape.slots_ids_subset hm)) ?_
    rwa [hstatement, hleft]
  · have hsame : s'.directives.get? info.id = s.directives.get? info.id := by
      refine hr.same info.id (fun hm => hnodup.1 (shape.slots_ids_subset hm)) ?_
      rw [hstatement]
      exact .inr (.inl fun hid => statement_not_mem hforest hpath hid (by simp))
    rw [Entry, hs, hsite, hsame]
    exact h.fresh info.id (by simp)
  · rw [← receives_congr hstatement, ← hleft, ← hgoes]
    exact hr.receives codes (receives_congr hstatement .. ▸ hcodes)

theorem records_of_statement (h : Ready plan above (.mk info shape) depth s)
    (hs : (Node.mk info shape).isStatement)
    (hsite : plan.site? (.mk info shape) depth = none) (hfunction : shape.kind.isFunction = false)
    (hr : RecordsAll plan (.mk info shape :: above) shape.slots (depth + 1) s s') :
    Records plan above (.mk info shape) depth s s' := by
  have hcaptured : isCaptured s = false := by
    by_contra hc
    rw [Bool.not_eq_false] at hc
    have := (h.captured hc).1
    simp [hs] at this
  have hcaptures : s'.captures = s.captures := by
    rw [hr.captures, capturesWith_of_not_captured hcaptured]
  have hstatement : (statementOf (.mk info shape :: above)).bind Node.id? = some info.id := by
    rw [statementOf_cons_of_statement hs]
    rfl
  have hleft : plan.left (.mk info shape) depth = [] := Plan.left_statement hs
  have hsame : ∀ id ∉ (Node.mk info shape).ids,
      s'.directives.get? id = s.directives.get? id := by
    intro id hid
    rw [Node.ids_mk, List.mem_cons, not_or] at hid
    refine hr.same id (fun hm => hid.2 (shape.slots_ids_subset hm)) (.inr (.inl ?_))
    rw [hstatement]
    exact fun he => hid.1 (Option.some.inj he).symm
  refine ⟨?_, ?_, fun id hid _ => hsame id hid, .mk ?_ (obeys_parts hpath hregular hr),
    fun codes hcodes => ?_⟩
  · rw [hr.names, Plan.namesAfter_mk, hsite]
    simp [hfunction]
  · rw [hcaptures, hleft, capturesWith_nil]
  · have hnone : Receives (.mk info shape :: above) s [] false := by
      rw [receives_of_not_captured hcaptured, hstatement]
      rintro id ⟨⟩
      rw [h.fresh info.id (by simp)]
      exact Holds.nil
    have hreceives := hr.receives [] hnone
    have hcaptured' : isCaptured s' = false := by
      rw [isCaptured, hcaptures]
      exact hcaptured
    rw [goesWith_parts_of_statement hforest hpath hregular hsite hs,
      Plan.left_parts hforest hregular hpath hsite, receives_of_not_captured hcaptured'] at hreceives
    rw [Entry, if_pos hs]
    exact hreceives info.id hstatement
  · have hgoes : goesWith plan above (.mk info shape) depth = false := by simp [goesWith, hs]
    rw [hleft, List.append_nil, hgoes]
    exact receives_of_same hcaptures
      (fun id hid => hsame id (statement_not_mem hforest hpath hid)) hcodes

theorem records_of_function {t t' : State} (h : Ready plan above (.mk info shape) depth s)
    (hfunction : shape.kind.isFunction)
    (ht : t = { s with names := s.names.enter, captures := none :: s.captures })
    (hr : RecordsAll plan (.mk info shape :: above) shape.slots (depth + 1) t t')
    (hs' : s' = { t' with names := t'.names.exit, captures := t'.captures.tail }) :
    Records plan above (.mk info shape) depth s s' := by
  have hsite : plan.site? (.mk info shape) depth = none := Plan.site?_of_function hfunction
  have hpiece : (plan.lower (.mk info shape) depth).pending = [] ∧
      (plan.lower (.mk info shape) depth).isSettled = false := Plan.lower_function hfunction
  have hleft : plan.left (.mk info shape) depth = [] := by simp [Plan.left, hpiece.1]
  have hparts : shape.slots.flatMap (plan.left · (depth + 1)) = [] := by
    rw [Plan.left_parts hforest hregular hpath hsite, hpiece.1]
    rfl
  have hcaptures : s'.captures = s.captures := by
    rw [hs', hr.captures, ht]
    rfl
  have hsame : ∀ id ∉ shape.parts.flatMap Node.ids,
      s'.directives.get? id = s.directives.get? id := by
    intro id hid
    rw [hs', hr.same id (fun hm => hid (shape.slots_ids_subset hm)) (.inr (.inr hparts)), ht]
  have houtside : ∀ id ∉ (Node.mk info shape).ids,
      s'.directives.get? id = s.directives.get? id := by
    intro id hid
    rw [Node.ids_mk, List.mem_cons, not_or] at hid
    exact hsame id hid.2
  have hnodup := node_nodup hforest hpath
  rw [Node.ids_mk, List.nodup_cons] at hnodup
  have hself : s'.directives.get? info.id = none := by
    rw [hsame info.id hnodup.1]
    exact h.fresh info.id (by simp)
  refine ⟨?_, ?_, fun id hid _ => houtside id hid, .mk ?_ ?_, fun codes hcodes => ?_⟩
  · rw [hs', hr.names, Plan.namesAfter_mk, hsite, ht]
    simp [hfunction]
  · rw [hcaptures, hleft, capturesWith_nil]
  · rw [Entry, hself, hpiece.1, hpiece.2, hsite]
    split
    · exact Holds.nil
    · rfl
  · have hdirectives : s'.directives = t'.directives := by rw [hs']
    rw [hdirectives]
    exact obeys_parts hpath hregular hr
  · have hgoes : goesWith plan above (.mk info shape) depth = false := by
      simp [goesWith, hpiece.2]
    rw [hleft, List.append_nil, hgoes]
    exact receives_of_same hcaptures
      (fun id hid => houtside id (statement_not_mem hforest hpath hid)) hcodes

end

/-- What visits of the arguments of a lowered call do to the state, besides what is taken of each. -/
structure RecordsArguments (plan : Plan) (nodes : List Node) (depth : Nat) (s s' : State) : Prop where
  names : s'.names = plan.namesAfterAll depth nodes s.names
  captures : s'.captures = s.captures
  same : ∀ id ∉ nodes.flatMap Node.ids, s'.directives.get? id = s.directives.get? id
  obeys : ∀ node ∈ nodes, Obeys plan s'.directives node depth

theorem capturing_ok {act : Step Unit} {codes : List Code} {s s' : State}
    (h : capturing act s = .ok (codes, s')) :
    ∃ t, act { s with captures := some [] :: s.captures } = .ok ((), t) ∧
      codes = t.captures.head?.join.getD [] ∧ s' = { t with captures := t.captures.tail } := by
  obtain ⟨⟨⟩, between, hfirst, hrest⟩ := bind_ok h
  cases hfirst
  obtain ⟨⟨⟩, t, hact, hlast⟩ := bind_ok hrest
  cases hlast
  exact ⟨t, hact, rfl, rfl⟩

theorem capturing_records {node : Node} {codes : List Code} {s s' : State}
    (ih : ∀ s s', Ready plan above node depth s →
      visit plan.arena plan.options node depth s = .ok ((), s') →
      Records plan above node depth s s')
    (h : Ready plan above node depth { s with captures := some [] :: s.captures })
    (hrun : capturing (visit plan.arena plan.options node depth) s = .ok (codes, s')) :
    codes = plan.left node depth ∧ RecordsArguments plan [node] depth s s' := by
  obtain ⟨t, hvisit, rfl, rfl⟩ := capturing_ok hrun
  have hr := ih _ t h hvisit
  have hcaptures : t.captures = some (plan.left node depth) :: s.captures := hr.captures
  refine ⟨by simp [hcaptures], ⟨hr.names, by simp [hcaptures], fun id hid => ?_, ?_⟩⟩
  · exact hr.same id (by simpa using hid) (.inl rfl)
  · simpa using hr.obeys

theorem recordsArguments {nodes : List Node} {nested : List (Node × List Code)} {s s' : State}
    {act : Node × Visit → Step (Node × List Code)}
    (hact : ∀ node ∈ nodes, act (node, visit plan.arena plan.options node) = do
      return (node, ← capturing (visit plan.arena plan.options node depth)))
    (ih : ∀ node ∈ nodes, ∀ s s', Ready plan above node depth s →
      visit plan.arena plan.options node depth s = .ok ((), s') →
      Records plan above node depth s s')
    (h : ReadyAll plan above nodes depth s)
    (hquiet : ∀ node ∈ nodes, node.isStatement = false ∧ node.isKind .file = false ∧
      goesWith plan above node depth = false)
    (hrun : (nodes.map fun node => (node, visit plan.arena plan.options node)).mapM act s =
      .ok (nested, s')) :
    nested = nodes.map (fun node => (node, plan.left node depth)) ∧
      RecordsArguments plan nodes depth s s' := by
  induction nodes generalizing s nested with
  | nil =>
    cases hrun
    exact ⟨rfl, rfl, rfl, fun _ _ => rfl, nofun⟩
  | cons node rest ihn =>
    rw [List.map_cons, List.mapM_cons, hact node List.mem_cons_self] at hrun
    obtain ⟨entry, between, hfirst, hrun⟩ := bind_ok hrun
    obtain ⟨codes, _, hcapturing, hpure⟩ := bind_ok hfirst
    cases hpure
    obtain ⟨others, _, hothers, hpure⟩ := bind_ok hrun
    cases hpure
    have hhead : Ready plan above node depth { s with captures := some [] :: s.captures } :=
      ⟨h.head.fresh, h.head.named, fun _ => hquiet node List.mem_cons_self⟩
    obtain ⟨rfl, hnode⟩ := capturing_records (ih node List.mem_cons_self) hhead hcapturing
    have hsame : ∀ id ∉ node.ids, between.directives.get? id = s.directives.get? id :=
      fun id hid => hnode.same id (by simpa using hid)
    have htail : ReadyAll plan above rest depth between := by
      refine h.tail hnode.names (fun id hid _ => hsame id hid) ?_
      rw [isCaptured, isCaptured, hnode.captures]
    obtain ⟨rfl, hrest⟩ := ihn (fun other ho => hact other (List.mem_cons_of_mem _ ho))
      (fun other ho => ih other (List.mem_cons_of_mem _ ho)) htail
      (fun other ho => hquiet other (List.mem_cons_of_mem _ ho)) hothers
    have hnodup := h.nodup
    rw [List.flatMap_cons, List.nodup_append'] at hnodup
    refine ⟨rfl, ?_, ?_, fun id hid => ?_, fun other ho => ?_⟩
    · rw [hrest.names, hnode.names]
      rfl
    · rw [hrest.captures, hnode.captures]
    · rw [List.flatMap_cons, List.mem_append, not_or] at hid
      rw [hrest.same id hid.2, hsame id hid.1]
    · obtain rfl | ho := List.mem_cons.mp ho
      · refine (hnode.obeys other (by simp)).of_same fun id hid => hrest.same id fun hm => ?_
        exact hnodup.2.2 hid hm
      · exact hrest.obeys other ho

theorem lowerCall_ok {arena : Arena} {site : CallSite} {nested : List (Node × List Code)}
    {s s' : State} (h : lowerCall arena site nested s = .ok ((), s')) :
    site.receiver.isPresent ∧ site.callback.isPresent ∧ ∃ statement pos statements changes,
      arena.enclosingStatement site.call = some statement ∧
      placeNested pos (site.loweredWith s.names) nested = .ok statements ∧
      s' = { (record statement site.call { site.loweredWith s.names with statements }
        { s with names := site.namesAfter s.names }).2 with changes } := by
  unfold lowerCall at h
  dsimp only at h
  split at h
  · cases h
  · rename_i hpresent
    simp only [Bool.or_eq_true, Bool.not_eq_true', not_or, Bool.not_eq_false] at hpresent
    refine ⟨hpresent.1, hpresent.2, ?_⟩
    cases hstatement : arena.enclosingStatement site.call with
    | none =>
      rw [hstatement] at h
      cases h
    | some statement =>
      rw [hstatement] at h
      obtain ⟨_, _, hget, h⟩ := bind_ok h
      cases hget
      obtain ⟨_, _, hlower, h⟩ := bind_ok h
      rw [CallSite.lower_eq] at hlower
      cases hlower
      obtain ⟨statements, _, hplaced, h⟩ := bind_ok h
      cases hplace : placeNested (site.call.range?.getD (0, 0)).1 (site.loweredWith s.names) nested with
      | error error =>
        rw [hplace] at hplaced
        cases hplaced
      | ok placed =>
        rw [hplace] at hplaced
        cases hplaced
        cases h
        exact ⟨statement, _, statements, _, rfl, hplace, rfl⟩

/-- What the visits of the callee and of the arguments of a lowered call do to the state. -/
structure RecordsCall (plan : Plan) (above : List Node) (callee : Node) (arguments : List Node)
    (depth : Nat) (s s' : State) : Prop where
  names : s'.names = plan.namesAfterAll depth (callee :: arguments) s.names
  captures : s'.captures = capturesWith (plan.left callee depth) s.captures
  same : ∀ id ∉ (callee :: arguments).flatMap Node.ids, isCaptured s ∨
    (statementOf above).bind Node.id? ≠ some id → s'.directives.get? id = s.directives.get? id
  obeys : ∀ part ∈ callee :: arguments, Obeys plan s'.directives part depth
  receives : ∀ codes, Receives above s codes false →
    Receives above s' (codes ++ plan.left callee depth) false

theorem recordsCall {site : CallSite} {callee : Node} {arguments : List Node} {s s' : State}
    (ih : ∀ part ∈ callee :: arguments, ∀ s s', Ready plan above part depth s →
      visit plan.arena plan.options part depth s = .ok ((), s') →
      Records plan above part depth s s')
    (h : ReadyAll plan above (callee :: arguments) depth s)
    (hquiet : ∀ part ∈ callee :: arguments, part.isStatement = false ∧ part.isKind .file = false ∧
      goesWith plan above part depth = false)
    (hrun : visitSite plan.arena site (visit plan.arena plan.options callee)
      (arguments.map fun argument => (argument, visit plan.arena plan.options argument)) depth s =
        .ok ((), s')) :
    ∃ t, RecordsCall plan above callee arguments depth s t ∧
      lowerCall plan.arena site
        ((arguments.map fun argument => (argument, plan.left argument depth)).filter
          fun entry => !entry.2.isEmpty) t = .ok ((), s') := by
  obtain ⟨⟨⟩, between, hvisit, hrun⟩ := bind_ok hrun
  obtain ⟨nested, t, harguments, hlower⟩ := bind_ok hrun
  have hcallee := ih callee List.mem_cons_self s between h.head hvisit
  have hcaptured := isCaptured_of_captures hcallee.captures
  have htail := h.tail hcallee.names
    (fun id hid hs => hcallee.same id hid (.inr (.inl hs))) hcaptured
  obtain ⟨rfl, hrest⟩ := recordsArguments (fun _ _ => rfl)
    (fun part hp => ih part (List.mem_cons_of_mem _ hp)) htail
    (fun part hp => hquiet part (List.mem_cons_of_mem _ hp)) harguments
  have hnodup := h.nodup
  rw [List.flatMap_cons, List.nodup_append'] at hnodup
  refine ⟨t, ⟨?_, ?_, fun id hid hcase => ?_, fun part hp => ?_, fun codes hcodes => ?_⟩, hlower⟩
  · rw [hrest.names, hcallee.names]
    rfl
  · rw [hrest.captures, hcallee.captures]
  · rw [List.flatMap_cons, List.mem_append, not_or] at hid
    rw [hrest.same id hid.2, hcallee.same id hid.1 (hcase.imp_right .inl)]
  · obtain rfl | hp := List.mem_cons.mp hp
    · exact hcallee.obeys.of_same fun id hid => hrest.same id fun hm => hnodup.2.2 hid hm
    · exact hrest.obeys part hp
  · have hreceives := hcallee.receives codes hcodes
    rw [(hquiet callee List.mem_cons_self).2.2] at hreceives
    refine receives_of_same hrest.captures (fun id hid => hrest.same id fun hm => ?_) hreceives
    exact h.statement id hid (List.mem_append_right _ hm)

theorem record_of_captured {statement call : Node} {lowered : LoweredCall} {s : State}
    {pending : List Code} {rest : List (Option (List Code))}
    (h : s.captures = some pending :: rest) :
    (record statement call lowered s).2 =
      { s with
        directives := s.directives.substitute (call.id?.getD 0) lowered.value
        captures := some (pending ++ lowered.statements) :: rest } := by
  simp only [record, h]

theorem record_of_not_captured {statement call : Node} {lowered : LoweredCall} {s : State}
    (h : isCaptured s = false) :
    (record statement call lowered s).2 =
      { s with
        directives :=
          if isWholeStatement statement call then
            s.directives.replaceStatement (statement.id?.getD 0) lowered.statements
          else
            (s.directives.spliceBefore (statement.id?.getD 0) lowered.statements).substitute
              (call.id?.getD 0) lowered.value } := by
  unfold isCaptured at h
  unfold record
  split
  · rename_i hcaptures
    simp [hcaptures] at h
  · split <;> rfl

section
variable {site : CallSite} {callee : Node} {isListed : Bool} {arguments : List Node} {s s' : State}
  (hforest : plan.arena.Forest [root])
  (hpath : root.Path (.mk info (.call false callee isListed arguments)) above)
include hforest hpath

theorem enclosingStatement_call :
    plan.arena.enclosingStatement (.mk info (.call false callee isListed arguments)) =
      statementOf above := by
  rw [Arena.enclosingStatement, hforest.ancestors_eq hpath]
  exact statementOf_cons_of_not_statement rfl

theorem parts_differ
    (hsite : plan.site? (.mk info (.call false callee isListed arguments)) depth = some site)
    (hreceiver : site.receiver.isPresent) (hcallback : site.callback.isPresent) :
    site.receiver.same site.callback = false ∧ ∀ other ∈ site.extra,
      site.receiver.same other = false ∧ site.callback.same other = false := by
  obtain ⟨_, member, isComputed, key, _, hnode, -, -⟩ := site?_call hsite
  cases hnode
  have hnodup := node_nodup hforest hpath
  simp only [Node.ids_mk, Shape.parts, List.flatMap_cons, List.nodup_cons, List.nodup_append',
    List.cons_append] at hnodup
  obtain ⟨-, -, -, ⟨-, -, harguments⟩, hmember⟩ := hnodup
  have hextra : ∀ other ∈ site.extra, other.ids ⊆ site.extra.toList.flatMap Node.ids :=
    fun other ho id hid => List.mem_flatMap.mpr ⟨other, by simpa using ho, hid⟩
  refine ⟨Node.not_same hreceiver ?_, fun other ho =>
    ⟨Node.not_same hreceiver ?_, Node.not_same hcallback ?_⟩⟩
  · exact fun _ hr hc => hmember (List.mem_append_left _ hr) (List.mem_append_left _ hc)
  · exact fun _ hr ho' =>
      hmember (List.mem_append_left _ hr) (List.mem_append_right _ (hextra other ho ho'))
  · exact fun _ hc ho' => harguments hc (hextra other ho ho')

theorem placeNested_site
    (hsite : plan.site? (.mk info (.call false callee isListed arguments)) depth = some site)
    (hreceiver : site.receiver.isPresent) (hcallback : site.callback.isPresent) (pos : Nat)
    (names : Names) {nested : List (Node × List Code)} (hnested : nested.map (·.1) = arguments) :
    placeNested pos (site.loweredWith names) (nested.filter fun entry => !entry.2.isEmpty) =
      .ok ((site.loweredWith names).statements.flatMap (Code.behind nested)) := by
  obtain ⟨hdiffer, hextra⟩ := parts_differ hforest hpath hsite hreceiver hcallback
  obtain ⟨_, member, isComputed, key, _, hnode, -, -⟩ := site?_call hsite
  cases hnode
  exact placeNested_eq hdiffer hextra hnested

variable (hsite : plan.site? (.mk info (.call false callee isListed arguments)) depth = some site)
include hsite

theorem records_of_directives {t : State} {statementId : NodeId}
    (hparts : RecordsCall plan (.mk info (.call false callee isListed arguments) :: above) callee
      arguments (depth + 1) s t)
    (hid : (statementOf above).bind Node.id? = some statementId)
    (hleft : plan.left (.mk info (.call false callee isListed arguments)) depth ≠ [])
    (hnames : s'.names = site.namesAfter t.names)
    (hcaptures : s'.captures =
      capturesWith (plan.left (.mk info (.call false callee isListed arguments)) depth) s.captures)
    (hother : ∀ id, id ≠ info.id → isCaptured s ∨ id ≠ statementId →
      s'.directives.get? id = t.directives.get? id)
    (hentry : Entry plan s'.directives info (.call false callee isListed arguments) depth)
    (hreceives : ∀ codes, Receives above t (codes ++ plan.left callee (depth + 1)) false →
      Receives above s'
        (codes ++ plan.left (.mk info (.call false callee isListed arguments)) depth)
        (goesWith plan above (.mk info (.call false callee isListed arguments)) depth)) :
    Records plan above (.mk info (.call false callee isListed arguments)) depth s s' := by
  have hcons : statementOf (.mk info (.call false callee isListed arguments) :: above) =
      statementOf above := statementOf_cons_of_not_statement rfl
  have houtside := statement_not_mem hforest hpath hid
  have hnodup := node_nodup hforest hpath
  rw [Node.ids_mk, List.nodup_cons] at hnodup
  rw [Node.ids_mk, List.mem_cons, not_or] at houtside
  refine ⟨?_, hcaptures, fun id hm hcase => ?_, .mk hentry fun part hp => ?_, fun codes hcodes => ?_⟩
  · rw [hnames, Plan.namesAfter_mk, hsite, hparts.names]
    rfl
  · rw [Node.ids_mk, List.mem_cons, not_or] at hm
    have hcase' : isCaptured s ∨ (statementOf above).bind Node.id? ≠ some id := by
      obtain hcase | hcase | hcase := hcase
      · exact .inl hcase
      · exact .inr hcase
      · exact absurd hcase hleft
    rw [hother id hm.1, hparts.same id hm.2 (hcons ▸ hcase')]
    refine hcase'.imp_right fun hne he => hne ?_
    rw [hid, he]
  · refine (hparts.obeys part hp).of_same fun id hm => hother id ?_ (.inr ?_)
    · rintro rfl
      exact hnodup.1 (List.mem_flatMap.mpr ⟨part, hp, hm⟩)
    · rintro rfl
      exact houtside.2 (List.mem_flatMap.mpr ⟨part, hp, hm⟩)
  · refine hreceives codes ?_
    rw [← receives_congr hcons]
    exact hparts.receives codes (receives_congr hcons .. ▸ hcodes)

theorem records_of_record {t : State} {statement : Node} {statements : List Code}
    {changes : List Change}
    (h : Ready plan above (.mk info (.call false callee isListed arguments)) depth s)
    (hparts : RecordsCall plan (.mk info (.call false callee isListed arguments) :: above) callee
      arguments (depth + 1) s t)
    (hstatement : statementOf above = some statement) (hstatements : statements ≠ [])
    (hleft : plan.left (.mk info (.call false callee isListed arguments)) depth =
      plan.left callee (depth + 1) ++ statements)
    (hs' : s' = { (record statement (.mk info (.call false callee isListed arguments))
        ⟨statements, (site.loweredWith (plan.naming info.id)).value⟩
        { t with names := site.namesAfter t.names }).2 with changes }) :
    Records plan above (.mk info (.call false callee isListed arguments)) depth s s' := by
  have hpresent : statement.isPresent := by
    have := List.find?_some hstatement
    cases statement with
    | absent => cases this
    | mk => rfl
  obtain ⟨statementId, hstatementId⟩ := Node.exists_id hpresent
  have hid : (statementOf above).bind Node.id? = some statementId := by
    rw [hstatement, Option.bind_some, hstatementId]
  have hne : statementId ≠ info.id := by
    rintro rfl
    exact statement_not_mem hforest hpath hid (by simp)
  have hne' : plan.left (.mk info (.call false callee isListed arguments)) depth ≠ [] := by
    simp [hleft, hstatements]
  have hnone : t.directives.get? info.id = none := by
    have hnodup := node_nodup hforest hpath
    rw [Node.ids_mk, List.nodup_cons] at hnodup
    rw [hparts.same info.id hnodup.1, h.fresh info.id (by simp)]
    rw [statementOf_cons_of_not_statement rfl, hid]
    exact .inr fun he => hne (Option.some.inj he)
  have hcaptured := isCaptured_of_captures hparts.captures
  have hgoes : goesWith plan above (.mk info (.call false callee isListed arguments)) depth =
      isWholeStatement statement (.mk info (.call false callee isListed arguments)) := by
    rw [goesWith, hstatement, Plan.lower_site hsite]
    rfl
  have hstatement' : plan.arena.enclosingStatement
      (.mk info (.call false callee isListed arguments)) = some statement := by
    rw [enclosingStatement_call hforest hpath, hstatement]
  by_cases hc : isCaptured s
  · -- The loop goes to the open argument.
    obtain ⟨pending, rest, hcaptures⟩ : ∃ pending rest, s.captures = some pending :: rest := by
      unfold isCaptured at hc
      split at hc
      · exact ⟨_, _, ‹_›⟩
      · cases hc
    have ht : t.captures = some (pending ++ plan.left callee (depth + 1)) :: rest := by
      rw [hparts.captures, hcaptures]
      rfl
    have hnamed : ({ t with names := site.namesAfter t.names } : State).captures =
        some (pending ++ plan.left callee (depth + 1)) :: rest := ht
    rw [record_of_captured hnamed] at hs'
    subst hs'
    refine records_of_directives hforest hpath hsite hparts hid hne' rfl ?_ ?_ ?_ ?_
    · simp [hcaptures, capturesWith, hleft]
    · exact fun id hm _ => Directives.get?_insert_other _ hm
    · rw [Entry, if_neg (by rintro ⟨⟩), hsite, hstatement', Option.any_some, ← hgoes, (h.captured hc).2.2]
      exact Directives.get?_insert_self _
    · intro codes hcodes
      simp only [Receives, ht] at hcodes ⊢
      refine ⟨?_, (h.captured hc).2.2⟩
      rw [hleft, ← List.append_assoc, hcodes.1]
  · rw [Bool.not_eq_true] at hc
    have hnamed : isCaptured { t with names := site.namesAfter t.names } = false :=
      hcaptured.trans hc
    rw [record_of_not_captured hnamed] at hs'
    simp only [hstatementId, Option.getD_some, Node.id?_mk] at hs'
    have hcaptures : t.captures = s.captures := by
      rw [hparts.captures, capturesWith_of_not_captured hc]
    by_cases hwhole : isWholeStatement statement (.mk info (.call false callee isListed arguments))
    · -- The loop takes the place of the statement.
      rw [if_pos hwhole] at hs'
      subst hs'
      refine records_of_directives hforest hpath hsite hparts hid hne' rfl ?_ ?_ ?_ ?_
      · rw [capturesWith_of_not_captured hc]
        exact hcaptures
      · exact fun id _ hcase =>
          Directives.get?_replaceStatement_other _ (hcase.resolve_left (by simp [hc]))
      · rw [Entry, if_neg (by rintro ⟨⟩), hsite, hstatement', Option.any_some, hwhole,
          Directives.get?_replaceStatement_other _ hne.symm]
        exact hnone
      · intro codes hcodes
        have hholds := (receives_of_not_captured (hcaptured.trans hc) _ _).mp hcodes statementId hid
        rw [receives_of_not_captured (by exact hcaptured.trans hc)]
        intro id hid'
        rw [hid, Option.some.injEq] at hid'
        subst hid'
        rw [hleft, ← List.append_assoc, hgoes, hwhole]
        exact hholds.replaceStatement hstatements
    · -- The loop goes before the statement.
      rw [if_neg hwhole] at hs'
      subst hs'
      refine records_of_directives hforest hpath hsite hparts hid hne' rfl ?_ ?_ ?_ ?_
      · rw [capturesWith_of_not_captured hc]
        exact hcaptures
      · intro id hm hcase
        exact (Directives.get?_insert_other _ hm).trans
          (Directives.get?_spliceBefore_other _ (hcase.resolve_left (by simp [hc])))
      · simp only [Entry, hsite, hstatement', Option.any_some, if_neg hwhole]
        exact Directives.get?_insert_self _
      · intro codes hcodes
        have hholds := (receives_of_not_captured (hcaptured.trans hc) _ _).mp hcodes statementId hid
        rw [receives_of_not_captured (by exact hcaptured.trans hc)]
        intro id hid'
        rw [hid, Option.some.injEq] at hid'
        subst hid'
        rw [Bool.not_eq_true] at hwhole
        rw [hleft, ← List.append_assoc, hgoes, hwhole]
        dsimp only
        rw [Directives.substitute, Directives.get?_insert_other _ hne]
        exact hholds.spliceBefore hstatements

theorem records_of_site (hregular : root.Regular)
    (h : Ready plan above (.mk info (.call false callee isListed arguments)) depth s)
    (ih : ∀ part ∈ callee :: arguments, ∀ s s',
      Ready plan (.mk info (.call false callee isListed arguments) :: above) part (depth + 1) s →
      visit plan.arena plan.options part (depth + 1) s = .ok ((), s') →
      Records plan (.mk info (.call false callee isListed arguments) :: above) part (depth + 1) s s')
    (hrun : visit plan.arena plan.options (.mk info (.call false callee isListed arguments)) depth s =
      .ok ((), s')) :
    Records plan above (.mk info (.call false callee isListed arguments)) depth s s' := by
  have hnode := hregular.within hpath.within
  have hquiet : ∀ part ∈ callee :: arguments, part.isStatement = false ∧
      part.isKind .file = false ∧
      goesWith plan (.mk info (.call false callee isListed arguments) :: above) part (depth + 1) =
        false :=
    fun part hp => ⟨hnode.part_not_statement hp rfl, hnode.part_not_file hp,
      goesWith_part hforest hpath hp nofun nofun⟩
  have hready := readyAll_parts hforest hpath hregular h rfl rfl fun hc => ⟨hc, rfl⟩
  rw [visit_site hsite] at hrun
  obtain ⟨t, hparts, hlower⟩ := recordsCall ih hready hquiet hrun
  obtain ⟨hreceiver, hcallback, statement, pos, statements, changes, hstatement, hplaced, hs'⟩ :=
    lowerCall_ok hlower
  obtain ⟨-, -, -, -, -, -, hcall, -⟩ := site?_call hsite
  have hnaming : plan.naming info.id = t.names := by
    rw [hparts.names]
    cases h.named with
    | mk _ hcalls => exact hcalls site hsite
  rw [hcall] at hs'
  rw [hcall, enclosingStatement_call hforest hpath] at hstatement
  rw [placeNested_site hforest hpath hsite hreceiver hcallback pos _ (by simp [Function.comp_def]), ← hnaming]
    at hplaced
  cases hplaced
  have hleft := Plan.left_site hsite fun part hp => (hquiet part hp).1
  refine records_of_record hforest hpath hsite h hparts hstatement ?_ hleft
    (by rw [hs', hnaming])
  obtain ⟨_, _, _, _, _, hcodes, -⟩ := site.loweredWith_spec (plan.naming info.id)
  simp [hcodes, Code.behind]

end

theorem records_of_idle {node : Node} {s : State}
    (hpending : (plan.lower node depth).pending = [])
    (hsettled : (plan.lower node depth).isSettled = false)
    (hnames : plan.namesAfter node depth s.names = s.names)
    (hobeys : Obeys plan s.directives node depth) : Records plan above node depth s s := by
  have hleft : plan.left node depth = [] := by simp [Plan.left, hpending]
  refine ⟨hnames.symm, ?_, fun _ _ _ => rfl, hobeys, fun codes hcodes => ?_⟩
  · rw [hleft, capturesWith_nil]
  · rw [hleft, List.append_nil, goesWith, hsettled, Bool.and_false, Bool.false_and]
    exact hcodes

/-- A visit of a node does to the state what the lowering of the node says. -/
theorem records (hforest : plan.arena.Forest [root]) (hregular : root.Regular) {node : Node}
    {s s' : State} (hpath : node.isPresent → root.Path node above)
    (h : Ready plan above node depth s)
    (hrun : visit plan.arena plan.options node depth s = .ok ((), s')) :
    Records plan above node depth s s' := by
  induction node generalizing above depth s s' with
  | absent =>
    cases hrun
    exact records_of_idle rfl rfl rfl .absent
  | mk info shape ih =>
    have hpath := hpath rfl
    by_cases hdepth : maxDepth ≤ depth
    · rw [visit_deep hdepth] at hrun
      cases hrun
      obtain ⟨hpending, hsettled, hnames⟩ := Plan.lower_deep hdepth (.mk info shape)
      exact records_of_idle hpending hsettled (hnames _) (.of_deep hdepth h.fresh)
    · have ihParts : ∀ part ∈ shape.parts, ∀ s s',
          Ready plan (.mk info shape :: above) part (depth + 1) s →
          visit plan.arena plan.options part (depth + 1) s = .ok ((), s') →
          Records plan (.mk info shape :: above) part (depth + 1) s s' :=
        fun part hp s s' hr hv => ih part hp (fun hpresent => .part hpath hp hpresent) hr hv
      have ihSlots := fun part hp => ihParts part (shape.slots_subset hp)
      cases hsite : plan.site? (.mk info shape) depth with
      | some site =>
        obtain ⟨_, _, _, _, _, hnode, -, -⟩ := site?_call hsite
        cases hnode
        exact records_of_site hforest hpath hsite hregular h ihParts hrun
      | none =>
        rw [visit_parts (Nat.lt_of_not_le hdepth) hsite] at hrun
        split at hrun
        · rename_i hfunction
          obtain ⟨⟨⟩, t, ht, hrun⟩ := bind_ok hrun
          obtain ⟨⟨⟩, t', hparts, hlast⟩ := bind_ok hrun
          cases ht
          cases hlast
          have hnames : s.names.enter = Plan.namesInside shape s.names := (if_pos hfunction).symm
          have hready : ReadyAll plan (.mk info shape :: above) shape.slots (depth + 1)
              { s with names := s.names.enter, captures := none :: s.captures } :=
            readyAll_parts hforest hpath hregular h rfl hnames nofun
          exact records_of_function hforest hpath hregular h hfunction rfl
            (recordsAll ihSlots hready hparts) rfl
        · rename_i hfunction
          rw [Bool.not_eq_true] at hfunction
          have hnames : s.names = Plan.namesInside shape s.names := by
            simp [Plan.namesInside, hfunction]
          have hready := readyAll_parts hforest hpath hregular h rfl hnames
            fun hc => ⟨hc, hfunction⟩
          have hr := recordsAll ihSlots hready hrun
          by_cases hs : (Node.mk info shape).isStatement
          · exact records_of_statement hforest hpath hregular h hs hsite hfunction hr
          · exact records_of_parts hforest hpath hregular h (by simpa using hs) hsite hfunction hr

end Pass

end ArrayLoops.Lowering
