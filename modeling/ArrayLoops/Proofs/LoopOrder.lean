import ArrayLoops.Proofs.PassChanges
import ArrayLoops.Proofs.PassTree

/-!
# The order of nested loops

What a statement brings in is put together from its expressions in the order of their evaluation. The
callee of a lowered call comes first. Then the loop declares its variables, and what an argument
leaves stands right before the variable that the argument is put into, behind the variables of all
that is evaluated before it. A statement that consists of a lowered call gives way to the loop, while
what the callee leaves stays before it.

That a loop and what comes before it are kept apart is seen from the receiver: the loop begins with
the variable for the receiver, and nothing else is put into a variable from there.
-/

namespace ArrayLoops.Lowering

open ArrayLoops.Tree (Arena Info Node NodeId Shape)

attribute [local simp] Shape.parts Shape.kind

namespace CallSite

/-- The variable that the second argument is put into: the receiver of the callback, or else the
accumulator, which is the value of the call. -/
def extraName (filled : Skeleton × Code) : String :=
  match filled.1.bindings.this, filled.2 with
  | some this, _ => this
  | none, .name accumulator => accumulator
  | none, _ => ""

/-- What the skeleton of a call has behind the variables for the parts of the call. -/
def remainder (site : CallSite) (filled : Skeleton × Code) : List Code :=
  (if site.operation = .reduce ∧ site.extra.isSome then [] else filled.1.beforeLoop) ++
    filled.1.call.toList.map filled.1.loop ++ filled.1.afterLoop

/-- The loop of a call in the order of evaluation, with what its arguments leave. -/
def loopInOrder (site : CallSite) (names : Names) (inCallback inExtra : List Code) : List Code :=
  let filled := ((fill site).run names).1
  [.declare filled.1.bindings.array (some (.source site.receiver)),
    .declare filled.1.bindings.index (some (.number "0"))] ++
  inCallback ++ [.declare filled.1.bindings.callback (some (.source site.callback))] ++
  (site.extra.toList.flatMap fun extra =>
    inExtra ++ [.declare (extraName filled) (some (.source extra))]) ++
  site.remainder filled

variable {site : CallSite} {names : Names} {inCallback inExtra : List Code}

theorem loopInOrder_nil (site : CallSite) (names : Names) :
    site.loopInOrder names [] [] = (site.loweredWith names).statements := by
  obtain ⟨call, operation, receiver, callback, extra⟩ := site
  cases operation <;> cases extra <;> rfl

theorem remainder_captures (site : CallSite) (names : Names) :
    ∀ code ∈ site.remainder ((fill site).run names).1, ∀ node, code.captures node = false := by
  obtain ⟨array, index, callback, extra, rest, hstatements, -, hrest, -⟩ := site.loweredWith_spec names
  have hsame := (loopInOrder_nil site names).trans hstatements
  have hlength : site.remainder ((fill site).run names).1 = rest := by
    cases hextra : site.extra <;> simp_all [loopInOrder]
  rwa [hlength]

theorem flatMap_behind (inCallback inExtra : List Code) {nested : List (Node × List Code)}
    (hnested : nested = (site.callback, inCallback) :: site.extra.toList.map fun extra => (extra, inExtra))
    (hcallback : site.receiver.same site.callback = false)
    (hextra : ∀ other ∈ site.extra, site.receiver.same other = false ∧ site.callback.same other = false) :
    (site.loweredWith names).statements.flatMap (Code.behind nested) =
      site.loopInOrder names inCallback inExtra := by
  have hrest : (site.remainder ((fill site).run names).1).flatMap (Code.behind nested) =
      site.remainder ((fill site).run names).1 :=
    flatMap_behind_of_not_captures (site.remainder_captures names)
  rw [← loopInOrder_nil]
  subst hnested
  simp only [loopInOrder, List.flatMap_append, hrest]
  cases hsite : site.extra with
  | none => simp [Code.behind, Code.captures, hcallback]
  | some other =>
    obtain ⟨hreceiver, hother⟩ := hextra other hsite
    have hswap : other.same site.callback = false := by
      rw [← hother, Node.same, Node.same, Bool.beq_comm]
    simp [Code.behind, Code.captures, hcallback, hreceiver, hother, hswap]

theorem loopInOrder_eq (site : CallSite) (names : Names) (inCallback inExtra : List Code) :
    site.loopInOrder names inCallback inExtra =
      .declare ((fill site).run names).1.1.bindings.array (some (.source site.receiver)) ::
        (site.loopInOrder names inCallback inExtra).tail := rfl

/-- Behind it, what is put into a variable is an argument, unless it comes with one. -/
theorem captures_of_mem_tail {code : Code} {node : Node}
    (h : code ∈ (site.loopInOrder names inCallback inExtra).tail) (hcaptures : code.captures node) :
    code ∈ inCallback ∨ code ∈ inExtra ∨
      ∃ part ∈ site.callback :: site.extra.toList, part.same node := by
  simp only [loopInOrder, List.cons_append, List.tail_cons, List.nil_append, List.mem_append, List.mem_cons,
    List.not_mem_nil, or_false, List.mem_flatMap] at h
  obtain rfl | (((hin | rfl) | ⟨extra, hextra, hin | rfl⟩) | hrest) := h
  · cases hcaptures
  · exact .inl hin
  · exact .inr (.inr ⟨site.callback, List.mem_cons_self, hcaptures⟩)
  · exact .inr (.inl hin)
  · exact .inr (.inr ⟨extra, List.mem_cons_of_mem _ hextra, hcaptures⟩)
  · rw [site.remainder_captures names code hrest node] at hcaptures
    cases hcaptures

end CallSite

namespace Plan

/-- What a node leaves, from what its parts leave. -/
def hoistedNode (plan : Plan) (info : Info) (shape : Shape (Node × (Nat → List Code))) (depth : Nat) :
    List Code :=
  let node := Node.mk info (shape.map (·.1))
  if node.isStatement || node.isFunction then []
  else
    match plan.site? node depth, shape with
    | some site, .call _ callee _ (callback :: others) =>
      callee.2 (depth + 1) ++ site.loopInOrder (plan.naming info.id) (callback.2 (depth + 1))
        (others.flatMap (·.2 (depth + 1)))
    | _, shape => shape.slots.flatMap (·.2 (depth + 1))

/-- The loops of the calls in an expression, outside of functions, in the order in which they are
visited. -/
def hoisted (plan : Plan) : Node → Nat → List Code :=
  Node.fold (fun _ => []) plan.hoistedNode

variable {plan : Plan} {info : Info} {shape : Shape Node} {depth : Nat}

theorem hoisted_mk : plan.hoisted (.mk info shape) depth =
    plan.hoistedNode info (shape.map fun part => (part, plan.hoisted part)) depth := by
  rw [hoisted, Node.fold_mk]

theorem hoisted_of_holds (h : (Node.mk info shape).isStatement || (Node.mk info shape).isFunction) :
    plan.hoisted (.mk info shape) depth = [] := by
  rw [hoisted_mk]
  unfold hoistedNode
  simp only [Shape.map_map, Function.comp_def, Shape.map_self, if_pos h]

theorem hoisted_site {callee callback : Node} {isListed : Bool} {others : List Node} {site : CallSite}
    (hsite : plan.site? (.mk info (.call false callee isListed (callback :: others))) depth = some site) :
    plan.hoisted (.mk info (.call false callee isListed (callback :: others))) depth =
      plan.hoisted callee (depth + 1) ++ site.loopInOrder (plan.naming info.id)
        (plan.hoisted callback (depth + 1)) (others.flatMap (plan.hoisted · (depth + 1))) := by
  have hstays : ((Node.mk info (.call false callee isListed (callback :: others))).isStatement ||
    (Node.mk info (.call false callee isListed (callback :: others))).isFunction) = false := rfl
  rw [hoisted_mk]
  unfold hoistedNode
  simp only [Shape.map, List.map_cons, List.map_map, Function.comp_def, List.map_id', hstays, hsite,
    Bool.false_eq_true, if_false, List.flatMap_map]

theorem hoisted_parts (h : ((Node.mk info shape).isStatement || (Node.mk info shape).isFunction) = false)
    (hsite : plan.site? (.mk info shape) depth = none) :
    plan.hoisted (.mk info shape) depth = shape.slots.flatMap (plan.hoisted · (depth + 1)) := by
  rw [hoisted_mk]
  unfold hoistedNode
  simp only [Shape.map_map, Function.comp_def, Shape.map_self, h, hsite, Bool.false_eq_true, if_false,
    Shape.slots_map, List.flatMap_map]

theorem captured_inside {node other : Node} {code : Code} {id : NodeId}
    (h : code ∈ plan.hoisted node depth) (hcaptures : code.captures other) (hid : other.id? = some id) :
    id ∈ node.parts.flatMap Node.ids := by
  induction node generalizing depth with
  | absent => cases h
  | mk info shape ih =>
    have hpart : ∀ part ∈ shape.parts, code ∈ plan.hoisted part (depth + 1) →
        id ∈ (Node.mk info shape).parts.flatMap Node.ids := by
      intro part hp hcode
      have hinside := ih part hp hcode
      refine List.mem_flatMap.mpr ⟨part, hp, ?_⟩
      cases part with
      | absent => cases hinside
      | mk partInfo partShape =>
        rw [Node.ids_mk]
        exact List.mem_cons_of_mem _ hinside
    cases hholds : (Node.mk info shape).isStatement || (Node.mk info shape).isFunction with
    | true =>
      rw [hoisted_of_holds hholds] at h
      cases h
    | false =>
      cases hsite : plan.site? (.mk info shape) depth with
      | none =>
        rw [hoisted_parts hholds hsite] at h
        obtain ⟨part, hp, hcode⟩ := List.mem_flatMap.mp h
        exact hpart part (shape.slots_subset hp) hcode
      | some site =>
        obtain ⟨_, member, isComputed, key, _, hnode, -, -⟩ := Pass.site?_call hsite
        cases hnode
        rw [hoisted_site hsite, List.mem_append] at h
        obtain hcode | hcode := h
        · exact hpart _ (by simp) hcode
        have hmem : ∀ part ∈ site.receiver :: site.callback :: site.extra.toList, part.same other →
            id ∈ (Node.mk member (.access isComputed site.receiver key) :: site.callback ::
              site.extra.toList).flatMap Node.ids := by
          intro part hp hsame
          have hmem : id ∈ part.ids := Node.id?_mem_ids (by simpa [Node.same, hid] using hsame)
          obtain rfl | hp := List.mem_cons.mp hp
          · simp [hmem]
          · exact List.mem_flatMap.mpr ⟨part, List.mem_cons_of_mem _ hp, hmem⟩
        rw [CallSite.loopInOrder_eq, List.mem_cons] at hcode
        obtain rfl | hcode := hcode
        · exact hmem site.receiver List.mem_cons_self hcaptures
        obtain hcode | hcode | ⟨part, hp, hsame⟩ := CallSite.captures_of_mem_tail hcode hcaptures
        · exact hpart _ (by simp) hcode
        · obtain ⟨extra, hextra, hcode⟩ := List.mem_flatMap.mp hcode
          exact hpart extra (by simp [hextra]) hcode
        · exact hmem part (List.mem_cons_of_mem _ hp) hsame

theorem captured_below {node other : Node} {code : Code} {id : NodeId}
    (h : code ∈ plan.hoisted node depth) (hcaptures : code.captures other) (hid : other.id? = some id) :
    id ∈ node.ids := by
  have hinside := captured_inside h hcaptures hid
  cases node with
  | absent => cases h
  | mk info shape =>
    rw [Node.ids_mk]
    exact List.mem_cons_of_mem _ hinside

variable {root node : Node} {above : List Node}

/-- What an expression leaves is what the pass hoists out of it. -/
theorem hoisted_eq_left (hforest : plan.arena.Forest [root]) (hregular : root.Regular)
    (hfile : Grammar.IsFile true root) (hpath : node.isPresent → root.Path node above) :
    plan.hoisted node depth = plan.left node depth := by
  induction node generalizing depth above with
  | absent => rfl
  | mk info shape ih =>
    have hpath := hpath rfl
    have hpart : ∀ part ∈ shape.parts, plan.hoisted part (depth + 1) = plan.left part (depth + 1) :=
      fun part hp => ih part hp fun hpresent => .part hpath hp hpresent
    cases hs : (Node.mk info shape).isStatement with
    | true => rw [hoisted_of_holds (by simp [hs]), left_statement hs]
    | false =>
      cases hf : (Node.mk info shape).isFunction with
      | true =>
        rw [hoisted_of_holds (by simp [hf]), left_of_not_statement hs, (lower_function hf).1]
        rfl
      | false =>
        have hholds : ((Node.mk info shape).isStatement || (Node.mk info shape).isFunction) = false := by
          rw [hs, hf]
          rfl
        cases hsite : plan.site? (.mk info shape) depth with
        | none =>
          rw [hoisted_parts hholds hsite, left_of_not_statement hs,
            ← left_parts hforest hregular hpath hsite]
          exact List.flatMap_congr fun part hp => hpart part (shape.slots_subset hp)
        | some site =>
          obtain ⟨hreceiver, hcallback, -⟩ := Pass.site_complete hregular hfile hpath hsite
          obtain ⟨_, member, isComputed, key, isListed, hnode, -, -⟩ := Pass.site?_call hsite
          cases hnode
          obtain ⟨hdiffer, hextra⟩ := Pass.parts_differ hforest hpath hsite hreceiver hcallback
          have hnode := hregular.within hpath.within
          rw [hoisted_site hsite, left_site hsite fun part hp => hnode.part_not_statement hp rfl,
            hpart _ (by simp), hpart _ (by simp)]
          congr 1
          refine (CallSite.flatMap_behind _ _ ?_ hdiffer hextra).symm
          cases hother : site.extra with
          | none => rfl
          | some other => simp [hpart other (by simp [hother])]

end Plan

namespace Pass

variable {plan : Plan} {root node : Node} {above : List Node} {depth : Nat} {s s' : State}

/-- Some code takes the place of a statement only if the statement consists of a call, and then the code
begins with the variable for the receiver of the call. -/
def Taken (plan : Plan) (root : Node) (directives : Directives) : Prop :=
  ∀ id before codes, directives.get? id = some (.splice before (some codes)) →
    ∃ call site statement array rest, call.Within root ∧ statement.Within root ∧
      CallSite.ofCall plan.arena plan.options call = .ok site ∧ statement.id? = some id ∧
      isWholeStatement statement call ∧ codes = .declare array (some (.source site.receiver)) :: rest

namespace Taken

variable {directives : Directives} {id : NodeId}

theorem substitute (h : Taken plan root directives) (value : Code) :
    Taken plan root (directives.substitute id value) := by
  intro other before codes hget
  by_cases heq : other = id
  · subst heq
    rw [Directives.substitute, Directives.get?_insert_self] at hget
    cases hget
  · rw [Directives.substitute, Directives.get?_insert_other _ heq] at hget
    exact h other before codes hget

theorem spliceBefore (h : Taken plan root directives) (more : List Code) :
    Taken plan root (directives.spliceBefore id more) := by
  intro other before codes hget
  by_cases heq : other = id
  · subst heq
    unfold Directives.spliceBefore at hget
    split at hget
    · rename_i earlier replacement hfound
      rw [Directives.get?_insert_self] at hget
      cases hget
      exact h other earlier codes hfound
    · rw [Directives.get?_insert_self] at hget
      cases hget
  · rw [Directives.get?_spliceBefore_other _ heq] at hget
    exact h other before codes hget

theorem replaceStatement {call statement : Node} {site : CallSite} {array : String} {rest : List Code}
    (h : Taken plan root directives) (hcall : call.Within root) (hstatement : statement.Within root)
    (hsite : CallSite.ofCall plan.arena plan.options call = .ok site) (hid : statement.id? = some id)
    (hwhole : isWholeStatement statement call) :
    Taken plan root
      (directives.replaceStatement id (.declare array (some (.source site.receiver)) :: rest)) := by
  intro other before codes hget
  by_cases heq : other = id
  · subst heq
    have hcodes : codes = .declare array (some (.source site.receiver)) :: rest := by
      unfold Directives.replaceStatement at hget
      split at hget <;>
      · rw [Directives.get?_insert_self] at hget
        cases hget
        rfl
    exact ⟨call, site, statement, array, rest, hcall, hstatement, hsite, hid, hwhole, hcodes⟩
  · rw [Directives.get?_replaceStatement_other _ heq] at hget
    exact h other before codes hget

end Taken

theorem placeNested_head {site : CallSite} {names : Names} {nested : List (Node × List Code)} {pos : Nat}
    {statements : List Code} (hcallback : site.receiver.same site.callback = false)
    (hextra : ∀ other ∈ site.extra, site.receiver.same other = false ∧ site.callback.same other = false)
    (hnested : nested.map (·.1) = site.callback :: site.extra.toList)
    (h : placeNested pos (site.loweredWith names) (nested.filter fun entry => !entry.2.isEmpty) =
      .ok statements) :
    ∃ array rest, statements = .declare array (some (.source site.receiver)) :: rest := by
  rw [placeNested_eq hcallback hextra hnested] at h
  cases h
  obtain ⟨array, index, callback, extra, rest, hstatements, -⟩ := site.loweredWith_spec names
  -- No argument is put before the receiver, whose variable comes first.
  have hnone : ∀ entry ∈ nested, site.receiver.same entry.1 = false := by
    intro entry he
    have hm := hnested ▸ List.mem_map_of_mem he
    obtain heq | hm := List.mem_cons.mp hm
    · exact heq ▸ hcallback
    · exact (hextra _ (Option.mem_toList.mp hm)).1
  have hfirst : Code.behind nested (.declare array (some (.source site.receiver))) =
      [.declare array (some (.source site.receiver))] := by
    rw [Code.behind, List.flatMap_eq_nil_iff.mpr fun entry he => if_neg ?_, List.nil_append]
    simp [Code.captures, hnone entry he]
  rw [hstatements, List.cons_append, List.flatMap_cons, hfirst]
  exact ⟨array, _, rfl⟩

theorem taken_all {nodes : List Node}
    (ih : ∀ node ∈ nodes, ∀ s s', Taken plan root s.directives →
      visit plan.arena plan.options node depth s = .ok ((), s') → Taken plan root s'.directives)
    (h : Taken plan root s.directives)
    (hrun : nodes.forM (fun node => visit plan.arena plan.options node depth) s = .ok ((), s')) :
    Taken plan root s'.directives := by
  induction nodes generalizing s with
  | nil =>
    cases hrun
    exact h
  | cons node rest ihn =>
    obtain ⟨between, hnode, hrest⟩ := forM_cons_ok hrun
    exact ihn (fun other ho => ih other (List.mem_cons_of_mem _ ho))
      (ih node List.mem_cons_self s between h hnode) hrest

theorem taken_arguments {nodes : List Node} {nested : List (Node × List Code)}
    {act : Node × Visit → Step (Node × List Code)}
    (hact : ∀ node ∈ nodes, act (node, visit plan.arena plan.options node) = do
      return (node, ← capturing (visit plan.arena plan.options node depth)))
    (ih : ∀ node ∈ nodes, ∀ s s', Taken plan root s.directives →
      visit plan.arena plan.options node depth s = .ok ((), s') → Taken plan root s'.directives)
    (h : Taken plan root s.directives)
    (hrun : (nodes.map fun node => (node, visit plan.arena plan.options node)).mapM act s =
      .ok (nested, s')) : nested.map (·.1) = nodes ∧ Taken plan root s'.directives := by
  induction nodes generalizing s nested with
  | nil =>
    cases hrun
    exact ⟨rfl, h⟩
  | cons node rest ihn =>
    rw [List.map_cons, List.mapM_cons, hact node List.mem_cons_self] at hrun
    obtain ⟨entry, between, hfirst, hrun⟩ := bind_ok hrun
    obtain ⟨codes, _, hcapturing, hpure⟩ := bind_ok hfirst
    cases hpure
    obtain ⟨others, _, hothers, hpure⟩ := bind_ok hrun
    cases hpure
    obtain ⟨t, hvisit, -, rfl⟩ := capturing_ok hcapturing
    have ht := ih node List.mem_cons_self { s with captures := some [] :: s.captures } t h hvisit
    obtain ⟨hnested, hlast⟩ := @ihn { t with captures := t.captures.tail } _
      (fun other ho => hact other (List.mem_cons_of_mem _ ho))
      (fun other ho => ih other (List.mem_cons_of_mem _ ho)) ht hothers
    exact ⟨by rw [List.map_cons, hnested], hlast⟩

theorem taken_record {statement call : Node} {site : CallSite} {array : String} {rest : List Code}
    {value : Code} (h : Taken plan root s.directives) (hcall : call.Within root)
    (hstatement : statement.Within root) (hpresent : statement.isPresent)
    (hsite : CallSite.ofCall plan.arena plan.options call = .ok site) :
    Taken plan root (record statement call
      ⟨.declare array (some (.source site.receiver)) :: rest, value⟩ s).2.directives := by
  obtain ⟨id, hid⟩ := Node.exists_id hpresent
  cases hc : isCaptured s with
  | true =>
    unfold isCaptured at hc
    split at hc
    · rename_i pending captures hcaptures
      rw [record_of_captured hcaptures]
      exact h.substitute value
    · cases hc
  | false =>
    rw [record_of_not_captured hc]
    dsimp only
    split
    · rename_i hwhole
      rw [hid]
      exact h.replaceStatement hcall hstatement hsite hid hwhole
    · exact (h.spliceBefore _).substitute value

theorem taken_visit (hforest : plan.arena.Forest [root])
    (hpath : node.isPresent → root.Path node above) (h : Taken plan root s.directives)
    (hrun : visit plan.arena plan.options node depth s = .ok ((), s')) : Taken plan root s'.directives := by
  induction node generalizing above depth s s' with
  | absent =>
    cases hrun
    exact h
  | mk info shape ih =>
    have hpath := hpath rfl
    have ihParts : ∀ part ∈ shape.parts, ∀ s s', Taken plan root s.directives →
        visit plan.arena plan.options part (depth + 1) s = .ok ((), s') → Taken plan root s'.directives :=
      fun part hp s s' h hrun => ih part hp (fun hpresent => .part hpath hp hpresent) h hrun
    by_cases hdepth : maxDepth ≤ depth
    · rw [visit_deep hdepth] at hrun
      cases hrun
      exact h
    cases hsite : plan.site? (.mk info shape) depth with
    | none =>
      rw [visit_parts (Nat.lt_of_not_le hdepth) hsite] at hrun
      have ihSlots := fun part hp => ihParts part (shape.slots_subset hp)
      split at hrun
      · obtain ⟨⟨⟩, t, ht, hrun⟩ := bind_ok hrun
        obtain ⟨⟨⟩, t', hparts, hlast⟩ := bind_ok hrun
        cases ht
        cases hlast
        have ht' : Taken plan root t'.directives := taken_all ihSlots (by exact h) hparts
        exact ht'
      · exact taken_all ihSlots h hrun
    | some site =>
      have hcall := (site?_spec hsite).2
      obtain ⟨_, member, isComputed, key, isListed, hnode, hsame, -⟩ := CallSite.ofCall_spec hcall
      cases hnode
      rw [visit_site hsite] at hrun
      obtain ⟨⟨⟩, between, hvisit, hrun⟩ := bind_ok hrun
      obtain ⟨nested, t, harguments, hlower⟩ := bind_ok hrun
      have hbetween := ihParts _ (by simp) s between h hvisit
      obtain ⟨hnested, ht⟩ := taken_arguments (fun _ _ => rfl)
        (fun part hp => ihParts part (List.mem_cons_of_mem _ hp)) hbetween harguments
      obtain ⟨hreceiver, hcallback, statement, pos, statements, changes, hstatement, hplaced, rfl⟩ :=
        lowerCall_ok hlower
      obtain ⟨hdiffer, hextra⟩ := parts_differ hforest hpath hsite hreceiver hcallback
      obtain ⟨array, rest, rfl⟩ := placeNested_head hdiffer hextra hnested hplaced
      rw [hsame, enclosingStatement_call hforest hpath] at hstatement
      have habove := mem_of_statementOf hstatement
      have hpresent : statement.isPresent := by
        have := List.find?_some hstatement
        cases statement with
        | absent => cases this
        | mk => rfl
      rw [hsame]
      exact @taken_record _ _ { t with names := site.namesAfter t.names } _ _ _ _ _ _ ht hpath.within
        (hpath.above_within habove) hpresent hcall

end Pass

def expressionSlots (shape : Shape Node) : List Node := shape.slots.filter fun part => !part.isStatement

namespace Plan

/-- What the callee of a lowered call leaves and the loop of the call, if the expression is one, in
parentheses or not. -/
def wholeLoop? (plan : Plan) : Node → Nat → Option (List Code × List Code)
  | .mk _ (.parenthesized expression), depth => plan.wholeLoop? expression (depth + 1)
  | .mk info (.call isNew callee isListed (callback :: others)), depth =>
    (plan.site? (.mk info (.call isNew callee isListed (callback :: others))) depth).map fun site =>
      (plan.hoisted callee (depth + 1), site.loopInOrder (plan.naming info.id)
        (plan.hoisted callback (depth + 1)) (others.flatMap (plan.hoisted · (depth + 1))))
  | _, _ => none

/-- What a statement brings in: what its expressions leave goes before it, and the loop of a call that is
all of it takes its place. -/
def directive? (plan : Plan) (shape : Shape Node) (depth : Nat) : Option Directive :=
  let whole := match shape with
    | .evaluate expression => plan.wholeLoop? expression (depth + 1)
    | _ => none
  match whole with
  | some (before, loop) => some (.splice before (some loop))
  | none =>
    let before := (expressionSlots shape).flatMap (plan.hoisted · (depth + 1))
    if before.isEmpty then none else some (.splice before none)

variable {plan : Plan} {info : Info} {shape : Shape Node} {depth : Nat} {node : Node}

structure Whole (plan : Plan) (node : Node) (depth : Nat) (before loop : List Code) (site : CallSite) :
    Prop where
  hoisted : plan.hoisted node depth = before ++ loop
  isSettled : (plan.lower node depth).isSettled
  accepted : ∃ depth, plan.site? node.unwrapped depth = some site
  /-- The receiver is put into a variable at the start of the loop and nowhere else. -/
  receiver : ∀ id, site.receiver.id? = some id → node.ids.Nodup → ∃ array rest,
    loop = .declare array (some (.source site.receiver)) :: rest ∧
      ∀ code ∈ before ++ rest, code.captures site.receiver = false

theorem whole_call {callee : Node} {isListed : Bool} {site : CallSite}
    (hsite : plan.site? (.mk info (.call false callee isListed (site.callback :: site.extra.toList))) depth =
      some site) :
    Whole plan (.mk info (.call false callee isListed (site.callback :: site.extra.toList))) depth
      (plan.hoisted callee (depth + 1)) (site.loopInOrder (plan.naming info.id)
        (plan.hoisted site.callback (depth + 1))
        (site.extra.toList.flatMap (plan.hoisted · (depth + 1)))) site where
  hoisted := hoisted_site hsite
  isSettled := by
    rw [lower_site hsite]
    rfl
  accepted := ⟨depth, hsite⟩
  receiver id hid hnodup := by
    obtain ⟨_, member, isComputed, key, _, hnode, -, -⟩ := Pass.site?_call hsite
    cases hnode
    simp only [Node.ids_mk, Shape.parts, List.flatMap_cons, List.flatMap_nil, List.append_nil,
      List.nodup_cons, List.cons_append, List.nodup_append'] at hnodup
    obtain ⟨-, -, ⟨hown, -, hkey⟩, -, harguments⟩ := hnodup
    have hid' := Node.id?_mem_ids hid
    have hpart : ∀ part ∈ site.callback :: site.extra.toList, id ∉ part.ids := by
      intro part hp hm
      refine harguments (List.mem_append_left _ hid') ?_
      rw [← List.flatMap_cons]
      exact List.mem_flatMap.mpr ⟨part, hp, hm⟩
    refine ⟨_, _, CallSite.loopInOrder_eq _ _ _ _, fun code hcode => ?_⟩
    rw [← Bool.not_eq_true]
    intro hcaptures
    obtain hcode | hcode := List.mem_append.mp hcode
    · have hplain : plan.site? (.mk member (.access isComputed site.receiver key)) (depth + 1) = none :=
        site?_of_not_call (by cases isComputed <;> simp)
      rw [hoisted_parts (by cases isComputed <;> rfl) hplain] at hcode
      simp only [Shape.slots, Shape.parts, List.flatMap_cons, List.flatMap_nil, List.append_nil,
        List.mem_append] at hcode
      obtain hcode | hcode := hcode
      · have hinside := captured_inside hcode hcaptures hid
        cases hreceiver : site.receiver with
        | absent => simp [hreceiver] at hid
        | mk info shape =>
          rw [hreceiver] at hown hid hinside
          rw [Node.ids_mk, List.nodup_cons] at hown
          cases hid
          exact hown.1 hinside
      · exact hkey hid' (captured_below hcode hcaptures hid)
    · obtain hcode | hcode | ⟨part, hp, hsame⟩ := CallSite.captures_of_mem_tail hcode hcaptures
      · exact hpart _ List.mem_cons_self (captured_below hcode hcaptures hid)
      · obtain ⟨extra, hextra, hcode⟩ := List.mem_flatMap.mp hcode
        exact hpart extra (List.mem_cons_of_mem _ hextra) (captured_below hcode hcaptures hid)
      · exact hpart part hp (Node.id?_mem_ids (by simpa [Node.same, hid] using hsame))

theorem Whole.parenthesized {expression : Node} {before loop : List Code} {site : CallSite}
    (h : Whole plan expression (depth + 1) before loop site) :
    Whole plan (.mk info (.parenthesized expression)) depth before loop site where
  hoisted := by
    rw [hoisted_parts rfl (site?_of_not_call (by simp)), ← h.hoisted]
    simp [Shape.slots]
  isSettled := by
    rw [lower_parts (site?_of_not_call (by simp))]
    exact h.isSettled
  accepted := h.accepted
  receiver id hid hnodup := by
    refine h.receiver id hid ?_
    rw [Node.ids_mk, List.nodup_cons] at hnodup
    simpa using hnodup.2

theorem wholeLoop?_spec (hregular : node.Regular) (hs : node.isStatement = false) (depth : Nat) :
    match plan.wholeLoop? node depth with
    | some (before, loop) => ∃ site, Whole plan node depth before loop site
    | none => (plan.lower node depth).isSettled = false := by
  induction node generalizing depth with
  | absent => rfl
  | mk info shape ih =>
    cases shape with
    | parenthesized expression =>
      have hmem : expression ∈ (Shape.parenthesized expression).parts := by simp
      have hinner := ih expression hmem (hregular.within (.part hmem .self))
        (hregular.part_not_statement hmem rfl) (depth + 1)
      rw [wholeLoop?]
      split at hinner
      · obtain ⟨site, hwhole⟩ := hinner
        exact ⟨site, hwhole.parenthesized⟩
      · rw [lower_parts (site?_of_not_call (by simp))]
        exact hinner
    | call isNew callee isListed arguments =>
      cases hsite : plan.site? (.mk info (.call isNew callee isListed arguments)) depth with
      | none =>
        have hnone : plan.wholeLoop? (.mk info (.call isNew callee isListed arguments)) depth = none := by
          cases arguments with
          | nil => rfl
          | cons => simp [wholeLoop?, hsite]
        rw [hnone, lower_parts hsite]
        rfl
      | some site =>
        obtain ⟨_, _, _, _, _, hnode, -, -⟩ := Pass.site?_call hsite
        cases hnode
        rw [wholeLoop?, hsite]
        exact ⟨site, whole_call hsite⟩
    | evaluate => cases hs
    | _ =>
      rw [lower_parts (site?_of_ne_call (by simp))]
      rfl

theorem flatMap_expressionSlots (shape : Shape Node) (depth : Nat) :
    (expressionSlots shape).flatMap (plan.hoisted · depth) = shape.slots.flatMap (plan.hoisted · depth) := by
  unfold expressionSlots
  induction shape.slots with
  | nil => rfl
  | cons part rest ih =>
    cases hs : part.isStatement with
    | false => simp [hs, ih]
    | true =>
      have hnone : plan.hoisted part depth = [] := by
        cases part with
        | absent => rfl
        | mk => exact hoisted_of_holds (by simp [hs])
      simp [hs, ih, hnone]

end Plan

theorem Holds.of_staying {entry : Option Directive} {codes : List Code} (h : Holds entry codes false) :
    entry = if codes.isEmpty then none else some (.splice codes none) := by
  rw [Holds] at h
  cases codes with
  | nil => simpa using h
  | cons code codes =>
    rw [if_neg (List.cons_ne_nil code codes)] at h
    obtain ⟨before, replacement, rfl, hcodes, hnone⟩ := h
    obtain rfl : replacement = none := by simpa using hnone
    obtain rfl : before = code :: codes := by simpa using hcodes
    rfl

theorem append_cons_unique {α : Type} {p : α → Bool} {a b c d : List α} {x y : α}
    (h : a ++ x :: b = c ++ y :: d) (hx : p x) (hothers : ∀ z ∈ c ++ d, p z = false) :
    a = c ∧ x :: b = y :: d := by
  obtain ⟨front, hc, hback⟩ | ⟨front, ha, hback⟩ := List.append_eq_append_iff.mp h
  · cases front with
    | nil => exact ⟨by simpa using hc.symm, hback⟩
    | cons z front =>
      obtain ⟨rfl, -⟩ := List.cons.inj hback
      simp [hothers x (by simp [hc])] at hx
  · cases front with
    | nil => exact ⟨by simpa using ha, hback.symm⟩
    | cons z front =>
      obtain ⟨-, hd⟩ := List.cons.inj hback
      simp [hothers x (by simp [hd])] at hx

section
variable {plan : Plan} {root : Node} {directives : Directives} {info : Info} {shape : Shape Node}
  {above : List Node} {depth : Nat} (hforest : plan.arena.Forest [root]) (hregular : root.Regular)
  (hfile : Grammar.IsFile true root)
include hforest hregular hfile

theorem pending_eq_expressionSlots (hpath : root.Path (.mk info shape) above)
    (hsite : plan.site? (.mk info shape) depth = none) :
    (plan.lower (.mk info shape) depth).pending.map (·.code) =
      (expressionSlots shape).flatMap (plan.hoisted · (depth + 1)) := by
  rw [← Plan.left_parts hforest hregular hpath hsite, Plan.flatMap_expressionSlots]
  refine List.flatMap_congr fun part hp => ?_
  exact (Plan.hoisted_eq_left hforest hregular hfile fun hpresent =>
    .part hpath (shape.slots_subset hp) hpresent).symm

theorem get?_of_whole {expression : Node} {before loop : List Code} {site : CallSite}
    (hpath : root.Path (.mk info (.evaluate expression)) above)
    (hwhole : Plan.Whole plan expression (depth + 1) before loop site)
    (htaken : Pass.Taken plan root directives)
    (hholds : Holds (directives.get? info.id) (before ++ loop) true) :
    directives.get? info.id = some (.splice before (some loop)) := by
  have hknown := hforest.known root List.mem_cons_self
  have hmem : expression ∈ (Shape.evaluate expression).parts := by simp
  have hexpression : expression.Within root := (Node.Within.part hmem .self).trans hpath.within
  have hinner : expression.unwrapped.Within root := (Node.unwrapped_within _).trans hexpression
  obtain ⟨inside, hsite⟩ := hwhole.accepted
  have hpresent : expression.unwrapped.isPresent := Plan.settled_unwrapped hwhole.isSettled
  obtain ⟨way, hway⟩ := hinner.path hpresent
  obtain ⟨hreceiver, -, -⟩ := Pass.site_complete hregular hfile hway hsite
  obtain ⟨id, hid⟩ := Node.exists_id hreceiver
  obtain ⟨array, rest, rfl, hothers⟩ :=
    hwhole.receiver id hid (hexpression.nodup (by simpa using hforest.nodup))
  rw [Holds, if_neg (by simp)] at hholds
  obtain ⟨earlier, replacement, hget, hcodes, hsome⟩ := hholds
  obtain ⟨codes, rfl⟩ := Option.isSome_iff_exists.mp hsome
  obtain ⟨call, other, statement, name, others, hcall, hstatement, hother, hnumber, hall, rfl⟩ :=
    htaken info.id earlier codes hget
  -- The call that is all of the statement is the one that its expression is.
  obtain rfl : statement = .mk info (.evaluate expression) :=
    hknown.unique hstatement hpath.within hnumber rfl
  obtain ⟨number, hnumber⟩ := Node.exists_id hpresent
  have hsame : call.id? = some number := by
    have hsame : expression.unwrapped.id? = call.id? := by simpa [Pass.isWholeStatement, Node.same] using hall
    rw [← hsame, hnumber]
  obtain rfl : call = expression.unwrapped := hknown.unique hcall hinner hsame hnumber
  obtain rfl : other = site := Except.ok.inj (hother.symm.trans (Pass.site?_spec hsite).2)
  have hfirst : Code.captures other.receiver (.declare name (some (.source other.receiver))) = true := by
    simp [Code.captures]
  obtain ⟨rfl, hloop⟩ := append_cons_unique (p := Code.captures other.receiver) hcodes hfirst hothers
  rw [hget, hloop]

theorem get?_eq_directive? (hpath : root.Path (.mk info shape) above)
    (hs : (Node.mk info shape).isStatement) (hentry : Entry plan directives info shape depth)
    (htaken : Pass.Taken plan root directives) :
    directives.get? info.id = plan.directive? shape depth := by
  have hsite : plan.site? (.mk info shape) depth = none := by
    refine Plan.site?_of_ne_call ?_
    rintro callee isListed arguments rfl
    cases hs
  rw [Entry, if_pos hs, pending_eq_expressionSlots hforest hregular hfile hpath hsite,
    Plan.lower_parts hsite] at hentry
  cases shape with
  | evaluate expression =>
    have hmem : expression ∈ (Shape.evaluate expression).parts := by simp
    have hnode := hregular.within hpath.within
    have hs := hnode.part_not_statement hmem rfl
    have hspec : match plan.wholeLoop? expression (depth + 1) with
        | some (before, loop) => ∃ site, Plan.Whole plan expression (depth + 1) before loop site
        | none => (plan.lower expression (depth + 1)).isSettled = false :=
      Plan.wholeLoop?_spec (hnode.within (.part hmem .self)) hs (depth + 1)
    have hsettled : (Piece.assemble (Directives.made plan.arena) info ((Shape.evaluate expression).map
          fun part => plan.lower part (depth + 1))).isSettled =
        (plan.lower expression (depth + 1)).isSettled := rfl
    rw [hsettled] at hentry
    rw [Plan.directive?]
    split at hspec
    · rename_i before loop _
      obtain ⟨site, hwhole⟩ := hspec
      have hcodes : (expressionSlots (.evaluate expression)).flatMap (plan.hoisted · (depth + 1)) =
          before ++ loop := by
        rw [← hwhole.hoisted]
        simp [expressionSlots, Shape.slots, hs]
      rw [hcodes, hwhole.isSettled] at hentry
      exact get?_of_whole hforest hregular hfile hpath hwhole htaken hentry
    · rw [hspec] at hentry
      exact hentry.of_staying
  | parenthesized => cases hs
  | _ => exact hentry.of_staying

end

theorem runPass_taken {plan : Plan} {root : Node} {result : PassResult}
    (hforest : plan.arena.Forest [root]) (hrun : runPass plan.arena plan.options root = .ok result) :
    Pass.Taken plan root result.directives := by
  cases hvisit : (Pass.visit plan.arena plan.options root 0).run
      ⟨.empty, [], .ofReserved root.identifierNames, []⟩ with
  | error error => simp [runPass, hvisit, bind, Except.bind] at hrun
  | ok final =>
    have hdirectives : result.directives = final.2.directives := by
      simp only [runPass, hvisit, bind, Except.bind, pure, Except.pure] at hrun
      cases hrun
      rfl
    rw [hdirectives]
    refine Pass.taken_visit hforest (fun _ => .root) (fun id before codes hget => ?_) hvisit
    cases hget

/-- The directives put the loops of a tree in the order of evaluation. -/
structure InOrder (root : Node) (plan : Plan) (directives : Directives) : Prop where
  /-- The names of a loop are those that are left when its call is reached. -/
  named : plan.Named root 0 (.ofReserved root.identifierNames)
  /-- Without its arguments a loop is what the skeleton of the call makes. -/
  loops : ∀ (site : CallSite) names, site.loopInOrder names [] [] = (site.loweredWith names).statements
  /-- A lowered call leaves its loop behind what its callee leaves, with what each argument leaves right
  before the variable that the argument is put into. -/
  calls : ∀ depth info callee isListed arguments site,
    plan.site? (.mk info (.call false callee isListed arguments)) depth = some site →
    plan.hoisted (.mk info (.call false callee isListed arguments)) depth =
      plan.hoisted callee (depth + 1) ++ site.loopInOrder (plan.naming info.id)
        (plan.hoisted site.callback (depth + 1)) (site.extra.toList.flatMap (plan.hoisted · (depth + 1)))
  /-- A statement brings in what its expressions leave, one after the other. -/
  statements : ∀ depth info shape, (depth, Node.mk info shape) ∈ root.postorder 0 →
    (Node.mk info shape).isStatement → directives.get? info.id = plan.directive? shape depth

/-- The pass over a file without complaints puts all loops in the order of evaluation. -/
theorem nested_loops_in_order {name text : String} (options : Options)
    (h : (parse name text).complaints = []) : ∃ result naming,
    runPass (parse name text).arena options (parse name text).root = .ok result ∧
      InOrder (parse name text).root ⟨(parse name text).arena, options, naming,
        fun _ => Directives.made (parse name text).arena⟩ result.directives := by
  have hforest := parse_forest name text
  have hregular := parse_regular name text
  have hfile := Grammar.parse_isFile h
  obtain ⟨result, hrun⟩ := runPass_ok options h
  obtain ⟨naming, hnamed, hobeys, -⟩ := runPass_obeys hforest hregular hfile.isKind hrun
  refine ⟨result, naming, hrun, hnamed, CallSite.loopInOrder_nil,
    fun depth info callee isListed arguments site hsite => ?_, fun depth info shape hentry hs => ?_⟩
  · obtain ⟨_, _, _, _, _, hnode, -, -⟩ := Pass.site?_call hsite
    cases hnode
    exact Plan.hoisted_site hsite
  · obtain ⟨above, hpath⟩ := (Node.within_of_mem_postorder hentry).path rfl
    cases hobeys.of_mem_postorder hentry with
    | mk here _ =>
      exact get?_eq_directive? hforest hregular hfile hpath hs here (runPass_taken hforest hrun)

/-- Calls in a callee and in both arguments, an initial value, and a call that is all of its statement. -/
def orderText : String :=
  "x = a.map(b.filter(f)).reduce(c.map(g), d.some(h)); " ++
    "(p.every(q).forEach(function () { r.map(s); }, t.map(u)));"

set_option maxRecDepth 100000 in
theorem nested_loops_in_order_both : (parse "a.js" orderText).complaints = [] ∧ ∃ result naming,
    runPass (parse "a.js" orderText).arena {} (parse "a.js" orderText).root = .ok result ∧
      InOrder (parse "a.js" orderText).root ⟨(parse "a.js" orderText).arena, {}, naming,
        fun _ => Directives.made (parse "a.js" orderText).arena⟩ result.directives := by
  have hcomplaints : (parse "a.js" orderText).complaints = [] := by decide +kernel
  exact ⟨hcomplaints, nested_loops_in_order {} hcomplaints⟩

end ArrayLoops.Lowering
