import ArrayLoops.Proofs.LoweredText

/-!
# Lowered texts as input

A lowered text can be read again. The one thing that can stand in the way is the limit on nesting:
the loop of a call has blocks in it, so that a statement in which there is just room for the call has
none for the loop.
-/

namespace ArrayLoops

open Layout (PointsApart)
open Lowering (Options)
open ArrayLoops.Tree (Info Node Shape)

theorem exists_lowered {name text : String} (options : Options)
    (h : (parse name text).complaints = []) : ∃ lowered, lower name text options = .ok lowered := by
  obtain ⟨result, hrun⟩ := Lowering.runPass_ok options h
  exact ⟨_, by simp only [lower, h, hrun]; rfl⟩

/-- A lowered text can be read, unless it is nested too deep. -/
theorem lowered_text_parses_or_too_deep {name text : String} {options : Options} {lowered : LoweredFile}
    (h : lower name text options = .ok lowered) (hpoints : PointsApart (parse name text).root) :
    (parse name lowered.output).complaints = [] ∨
      ∃ start length, (parse name lowered.output).complaints = [⟨start, length, .nestingTooDeep⟩] := by
  have hclean : (parse name text).complaints = [] := by
    by_contra hne
    simp [lower, hne] at h
  obtain ⟨result, hrun⟩ := Lowering.runPass_ok options hclean
  obtain rfl : ⟨Layout.print (parse name text).arena result.directives (parse name text).root, result.changes⟩ =
      lowered := by simpa [lower, hclean, hrun] using h
  exact (Lowering.parse_lowered hclean hrun hpoints).imp_left And.left

set_option maxRecDepth 100000 in
theorem lowered_text_parses_or_too_deep_branch :
    let text := "if (a) b.forEach(c).d = e.map(f);"
    ∃ lowered, lower "a.js" text {} = .ok lowered ∧ PointsApart (parse "a.js" text).root ∧
      ((parse "a.js" lowered.output).complaints = [] ∨
        ∃ start length, (parse "a.js" lowered.output).complaints = [⟨start, length, .nestingTooDeep⟩]) := by
  intro text
  have hclean : (parse "a.js" text).complaints = [] := by decide +kernel
  have hpoints : PointsApart (parse "a.js" text).root := by decide +kernel
  obtain ⟨lowered, hlower⟩ := exists_lowered {} hclean
  exact ⟨lowered, hlower, hpoints, lowered_text_parses_or_too_deep hlower hpoints⟩

theorem Tree.Node.exists_of_unplaced {node : Node} {info : Info} {shape : Shape Node}
    (h : node.unplaced = unplaced (.mk info shape)) : ∃ info' shape', node = .mk info' shape' ∧
      shape'.map unplaced = shape.map unplaced := by
  cases node with
  | absent =>
    rw [unplaced_mk] at h
    cases h
  | mk info' shape' =>
    rw [unplaced_mk, unplaced_mk] at h
    injection h with _ hshape
    exact ⟨info', shape', rfl, hshape⟩

namespace Grammar

/-- So many statements are around a statement that evaluates an expression. -/
inductive Nests : Nat → Node → Prop where
  | evaluate {info : Info} {expression : Node} : Nests 0 (.mk info (.evaluate expression))
  | block {info : Info} {statements : List Node} {statement : Node} {n : Nat} :
    statement ∈ statements → Nests n statement → Nests (n + 1) (.mk info (.block statements))
  | branch {info : Info} {condition thenBranch elseBranch : Node} {n : Nat} :
    Nests n thenBranch → Nests (n + 1) (.mk info (.branch condition thenBranch elseBranch))
  | loop {info : Info} {initializer condition update body : Node} {n : Nat} :
    Nests n body → Nests (n + 1) (.mk info (.loop .for initializer condition update body))

variable {depth links n : Nat} {node other : Node}

theorem Phrase.expression_room (h : Phrase true (.expression links) depth node) :
    depth < maxDepth := by
  induction links generalizing node with
  | zero =>
    cases h with
    | ofAssignment h =>
      cases h with
      | ofBinary hroom | assign hroom | conditional hroom | arrowBlock hroom
      | arrowExpression hroom => exact hroom rfl
  | succ links ih =>
    cases h with
    | comma hleft => exact ih hleft

theorem Nests.room (h : Nests n node) (hp : Phrase true .statement depth node) :
    depth + n + 1 < maxDepth := by
  induction h generalizing depth with
  | evaluate =>
    cases hp with
    | evaluate _ hexpression => exact hexpression.expression_room
    | ofBlock _ hblock => cases hblock
  | block hs _ ih =>
    cases hp with
    | ofBlock _ hblock =>
      cases hblock with
      | block hall =>
        have := ih (hall _ hs)
        omega
  | branch _ ih =>
    cases hp with
    | branch _ _ hthen =>
      have := ih hthen
      omega
    | ofBlock _ hblock => cases hblock
  | loop _ ih =>
    cases hp with
    | forLoop _ _ _ _ _ hbody =>
      have := ih hbody
      omega
    | ofBlock _ hblock => cases hblock

theorem Nests.of_unplaced (h : Nests n node) (ho : other.unplaced = node.unplaced) :
    Nests n other := by
  induction h generalizing other with
  | evaluate =>
    obtain ⟨info, shape, rfl, hshape⟩ := Node.exists_of_unplaced ho
    cases shape with
    | evaluate => exact .evaluate
    | _ => cases hshape
  | block hs _ ih =>
    obtain ⟨info, shape, rfl, hshape⟩ := Node.exists_of_unplaced ho
    cases shape with
    | block statements =>
      injection hshape with hall
      obtain ⟨statement, hstatement, hsame⟩ := List.mem_map.mp (hall ▸ List.mem_map_of_mem hs)
      exact .block hstatement (ih hsame)
    | _ => cases hshape
  | branch _ ih =>
    obtain ⟨info, shape, rfl, hshape⟩ := Node.exists_of_unplaced ho
    cases shape with
    | branch =>
      injection hshape with _ hthen
      exact .branch (ih hthen)
    | _ => cases hshape
  | loop _ ih =>
    obtain ⟨info, shape, rfl, hshape⟩ := Node.exists_of_unplaced ho
    cases shape with
    | loop =>
      injection hshape with hform _ _ _ hbody
      subst hform
      exact .loop (ih hbody)
    | _ => cases hshape

theorem complaints_of_nests {name file text : String} {info : Info} {statements : List Node}
    (hroot : (parse name text).root.unplaced = Node.unplaced (.mk info (.file file statements)))
    (hm : node ∈ statements) (h : Nests n node) (hn : maxDepth ≤ n + 1) :
    (parse name text).complaints ≠ [] := by
  intro hclean
  obtain ⟨id, fin, others, hfile, hall⟩ := parse_statements hclean
  rw [hfile] at hroot
  obtain ⟨_, shape, heq, hshape⟩ := Node.exists_of_unplaced hroot
  cases heq
  injection hshape with _ hstatements
  obtain ⟨other, ho, hsame⟩ := List.mem_map.mp (hstatements ▸ List.mem_map_of_mem hm)
  have := (h.of_unplaced hsame).room (hall other ho)
  omega

end Grammar

namespace Lowering

open Grammar (Nests)

theorem nests_filter {site : CallSite} (h : site.operation = .filter) (names : Names) (mark : Info)
    (nodes : Node → Node) :
    ∃ code ∈ (site.loweredWith names).statements, Nests 4 (code.node mark nodes) := by
  obtain ⟨bindings, given, -, hfills, -⟩ := CallSite.fill_gives site names
  have hstatements : (site.loweredWith names).statements =
      ((fill site).run names).1.1.build.toOption.getD [] := rfl
  rw [hstatements]
  generalize ((fill site).run names).1 = filled at hfills
  obtain ⟨call, operation, receiver, callback, extra⟩ := site
  subst h
  cases hfills with
  | visiting ho | reducing _ _ ho => cases ho
  | gathering names result =>
    refine ⟨_, List.mem_append_right _ List.mem_cons_self, .loop ?_⟩
    exact .block (.tail _ (.tail _ (.tail _ (.head _)))) (.branch (.block (.head _) .evaluate))

def endless (inner : Node) : Nat → Node
  | 0 => inner
  | count + 1 => .mk ⟨0, 0, 0, {}⟩ (.loop .for .absent .absent .absent (endless inner count))

/-- `this` -/
def thisWord : Node := .mk ⟨0, 0, 0, {}⟩ (.bare (.token .thisWord))

/-- `this.filter(this)` -/
def filterCall : Node :=
  .mk ⟨0, 0, 0, {}⟩ (.call false
    (.mk ⟨0, 0, 0, {}⟩ (.access false thisWord (.mk ⟨0, 0, 0, {}⟩ (.identifier "filter")))) true
    [thisWord])

def filterStatement : Node := .mk ⟨0, 0, 0, {}⟩ (.evaluate filterCall)

theorem exists_filterStatement {node : Node} (h : node.unplaced = filterStatement.unplaced) :
    ∃ info call callee name object callback, node = .mk info (.evaluate (.mk call
      (.call false (.mk callee (.access false object (.mk name (.identifier "filter")))) true
        [callback]))) := by
  obtain ⟨info, shape, rfl, hshape⟩ := Node.exists_of_unplaced h
  cases shape with
  | evaluate call =>
    injection hshape with hcall
    obtain ⟨callInfo, callShape, rfl, hcallShape⟩ := Node.exists_of_unplaced hcall
    cases callShape with
    | call isNew callee isListed arguments =>
      injection hcallShape with hnew hcallee hlisted harguments
      obtain ⟨callback, rfl, -⟩ := List.map_eq_singleton_iff.mp harguments
      obtain ⟨calleeInfo, calleeShape, rfl, hcalleeShape⟩ := Node.exists_of_unplaced hcallee
      subst hnew hlisted
      cases calleeShape with
      | access isComputed object key =>
        injection hcalleeShape with hcomputed _ hkey
        subst hcomputed
        obtain ⟨nameInfo, nameShape, rfl, hname⟩ := Node.exists_of_unplaced hkey
        cases nameShape with
        | identifier text =>
          injection hname with htext
          subst htext
          exact ⟨info, callInfo, calleeInfo, nameInfo, object, callback, rfl⟩
        | _ => cases hname
      | _ => cases hcalleeShape
    | _ => cases hcallShape
  | _ => cases hshape

variable {plan : Plan} {root node : Node} {above : List Node} {depth count : Nat}

theorem nests_filterStatement (hforest : plan.arena.Forest [root]) (hpath : root.Path node above)
    (hoptions : plan.options = {}) (hdepth : depth + 1 < Pass.maxDepth)
    (h : node.unplaced = filterStatement.unplaced) :
    Nests 5 ((plan.lower node depth).applied (Directives.made plan.arena)).embedded := by
  obtain ⟨info, callInfo, calleeInfo, name, object, callback, rfl⟩ := exists_filterStatement h
  let callee := Node.mk calleeInfo (.access false object (.mk name (.identifier "filter")))
  let call := Node.mk callInfo (.call false callee true [callback])
  let site : CallSite := ⟨call, .filter, object, callback, none⟩
  have hsite : plan.site? call (depth + 1) = some site := by
    have hshape : CallSite.ofShape {} call = .ok site := rfl
    have hplace : CallSite.unsafePlace plan.arena call = none := by
      rw [CallSite.unsafePlace, hforest.ancestors_eq (.part hpath List.mem_cons_self rfl)]
      rfl
    have hcall : CallSite.ofCall plan.arena {} call = .ok site := by
      rw [CallSite.ofCall, hshape, hplace]
      rfl
    rw [Plan.site?, if_neg (Nat.not_le.mpr hdepth), hoptions, hcall]
    rfl
  obtain ⟨code, hcode, hnests⟩ := nests_filter (rfl : site.operation = .filter)
    (plan.naming callInfo.id) (plan.mark callInfo.id) _
  have hpending : ∃ hoisted ∈ (plan.lower call (depth + 1)).pending, Nests 4 hoisted.node := by
    rw [Plan.lower_site hsite]
    refine ⟨⟨code, _⟩, List.mem_append_right _ (List.mem_flatMap.mpr ⟨code, hcode, ?_⟩), hnests⟩
    exact List.mem_append_right _ (List.mem_singleton.mpr rfl)
  obtain ⟨hoisted, hmem, hnests⟩ := hpending
  rw [Plan.lower_parts (Plan.site?_of_not_call (by simp [Shape.kind]))]
  have hmem : hoisted ∈ (Piece.assemble (Directives.made plan.arena) info
      (.evaluate (plan.lower call (depth + 1)))).pending := List.mem_append_left _ hmem
  rw [Shape.map, Piece.applied, if_neg (by simpa using List.ne_nil_of_mem hmem)]
  exact .block (List.mem_append_left _ (List.mem_map_of_mem hmem)) hnests

theorem nests_endless (hforest : plan.arena.Forest [root]) (hpath : root.Path node above)
    (hoptions : plan.options = {}) (hdepth : depth + count + 1 < Pass.maxDepth)
    (h : node.unplaced = (endless filterStatement count).unplaced) :
    Nests (count + 5) ((plan.lower node depth).applied (Directives.made plan.arena)).embedded := by
  induction count generalizing node above depth with
  | zero => exact nests_filterStatement hforest hpath hoptions hdepth h
  | succ count ih =>
    obtain ⟨info, shape, rfl, hshape⟩ := Node.exists_of_unplaced h
    cases shape with
    | loop form initializer condition update body =>
      injection hshape with hform hinitializer _ _ hbody
      subst hform
      obtain rfl : initializer = .absent := by
        cases initializer with
        | absent => rfl
        | mk => cases hinitializer
      have hpresent : body.isPresent := by
        rw [← Node.isPresent_unplaced, hbody, Node.isPresent_unplaced]
        cases count <;> rfl
      rw [Plan.lower_parts (Plan.site?_of_not_call (by simp [Shape.kind]))]
      exact .loop (ih (.part hpath (by simp [Shape.parts]) hpresent) (by omega) hbody)
    | _ => cases hshape

theorem items_endless (h : node.unplaced = (endless filterStatement (count + 1)).unplaced) :
    (plan.lower node depth).items =
      [((plan.lower node depth).applied (Directives.made plan.arena)).embedded] := by
  obtain ⟨info, shape, rfl, hshape⟩ := Node.exists_of_unplaced h
  cases shape with
  | loop form initializer condition update body =>
    injection hshape with _ hinitializer
    obtain rfl : initializer = .absent := by
      cases initializer with
      | absent => rfl
      | mk => cases hinitializer
    rw [Plan.lower_parts (Plan.site?_of_not_call (by cases form <;> simp [Shape.kind]))]
    rfl
  | _ => cases hshape

theorem nests_lowered {name file text : String} {info : Info} {result : PassResult}
    (hclean : (parse name text).complaints = [])
    (hroot : (parse name text).root.unplaced =
      Node.unplaced (.mk info (.file file [endless filterStatement (count + 1)])))
    (hcount : count + 3 < Pass.maxDepth)
    (hrun : runPass (parse name text).arena {} (parse name text).root = .ok result) :
    ∃ info statements, ∃ statement ∈ statements,
      result.directives.apply (parse name text).arena (parse name text).root =
        .mk info (.file file statements) ∧ Nests (count + 6) statement := by
  have hforest := parse_forest name text
  have hkind : (parse name text).root.isKind .file := by
    obtain ⟨_, _, _, hfile, -⟩ := Grammar.parse_statements hclean
    rw [hfile]
    rfl
  obtain ⟨naming, -, happly⟩ := runPass_tree hforest (parse_regular name text) hkind hrun
  let plan : Plan := ⟨(parse name text).arena, {}, naming,
    fun _ => Directives.made (parse name text).arena⟩
  rw [happly]
  obtain ⟨fileInfo, shape, hfile, hshape⟩ := Node.exists_of_unplaced hroot
  rw [hfile] at hforest ⊢
  cases shape with
  | file other statements =>
    injection hshape with hname hstatements
    subst hname
    obtain ⟨statement, rfl, hstatement⟩ := List.map_eq_singleton_iff.mp hstatements
    have hpath : Node.Path (.mk fileInfo (.file other [statement])) statement
        [.mk fileInfo (.file other [statement])] := by
      refine .part .root List.mem_cons_self ?_
      rw [← Node.isPresent_unplaced, hstatement, Node.isPresent_unplaced]
      rfl
    have hnests := @nests_endless plan _ _ _ 1 (count + 1) hforest hpath rfl (by omega) hstatement
    rw [Plan.lower_parts (Plan.site?_of_not_call (by simp [Shape.kind]))]
    refine ⟨fileInfo, _, _, List.mem_append_left _ ?_, rfl, hnests⟩
    change _ ∈ (plan.lower statement 1).items
    rw [items_endless hstatement]
    exact List.mem_singleton.mpr rfl
  | _ => cases hshape

end Lowering

theorem Layout.pointsApart_unplaced (node : Node) : PointsApart node.unplaced ↔ PointsApart node := by
  have hdigits : ∀ node : Node, isDigits node.unplaced = isDigits node := by
    intro node
    cases node with
    | absent => rfl
    | mk info shape =>
      rw [Node.unplaced_mk]
      cases shape with
      | literal isString => cases isString <;> rfl
      | _ => rfl
  induction node with
  | absent => rfl
  | mk info shape ih =>
    rw [Node.unplaced_mk, pointsApart_mk, pointsApart_mk, Shape.parts_map, List.forall_mem_map]
    refine and_congr (forall₂_congr ih) ?_
    cases shape with
    | access isComputed object key => simp [Shape.map, hdigits]
    | _ => simp [Shape.map]

namespace Lowering

open Grammar (Level Phrase Room maxDepth)

theorem isName_filter : IsName "filter" :=
  isName_of_chars (by decide) (by decide) (List.all_eq_true.mp rfl)

variable {depth count : Nat}

theorem phrase_thisWord : Phrase true .head depth thisWord := .word rfl

theorem phrase_filterCall (h : depth + 3 < maxDepth) :
    Phrase true .assignment depth filterCall := by
  have hroom : ∀ more ≤ 3, Room true (depth + more) := fun more hm _ => by omega
  have hcallback : Phrase true .assignment (depth + 3) thisWord :=
    .ofBinary (hroom 3 (by simp)) (.ofUnary (.ofOperand (.ofMember (.ofHead phrase_thisWord))))
  refine .ofBinary (hroom 0 (by simp)) (.ofUnary (.ofOperand (.ofMember (.call (.access
    (.ofHead phrase_thisWord) rfl (hroom 1 (by simp)) (isName_filter.leaf rfl)) rfl
    (hroom 2 (by simp)) fun argument ha => ?_))))
  exact List.mem_singleton.mp ha ▸ hcallback

theorem phrase_endless (h : depth + count + 4 < maxDepth) :
    Phrase true .statement depth (endless filterStatement count) := by
  induction count generalizing depth with
  | zero =>
    refine .evaluate (fun _ => by omega) (.ofAssignment (phrase_filterCall (by omega))) ?_ ?_
    all_goals decide
  | succ count ih =>
    exact @Phrase.forLoop true depth 0 0 0 0 0 0 .absent .absent .absent _ (fun _ => by omega)
      (by rintro ⟨⟩) (by rintro ⟨⟩) (by rintro ⟨⟩) (by rintro ⟨⟩) (ih (by omega))

theorem pointsApart_endless : PointsApart (endless filterStatement count) := by
  induction count with
  | zero => decide
  | succ count ih =>
    refine Layout.pointsApart_mk.mpr ⟨?_, by simp⟩
    simpa [Shape.parts, Layout.pointsApart_absent] using ih

end Lowering

/-- In 494 loops there is room for a filter, but not for its loop. -/
theorem lowered_text_too_deep : ∃ text lowered, lower "a.js" text {} = .ok lowered ∧
    PointsApart (parse "a.js" text).root ∧
    ∃ start length, (parse "a.js" lowered.output).complaints = [⟨start, length, .nestingTooDeep⟩] := by
  let statement := Lowering.endless Lowering.filterStatement 494
  let root := Node.mk ⟨0, 0, 0, {}⟩ (.file "a.js" [statement])
  have hpoints : PointsApart root := by
    refine Layout.pointsApart_mk.mpr ⟨fun part hp => ?_, by simp⟩
    obtain rfl := List.mem_singleton.mp hp
    exact Lowering.pointsApart_endless
  have hphrases : ∀ other ∈ [statement], Grammar.Phrase true .statement 0 other := fun other ho =>
    List.mem_singleton.mp ho ▸ Lowering.phrase_endless (by decide)
  obtain ⟨hclean, hsame⟩ | ⟨hlimit, -⟩ := Layout.parse_print hphrases hpoints .empty rfl
  · let text := Layout.print .empty .empty root
    have hpoints : PointsApart (parse "a.js" text).root := by
      rwa [← Layout.pointsApart_unplaced, hsame, Layout.pointsApart_unplaced]
    obtain ⟨result, hrun⟩ := Lowering.runPass_ok {} hclean
    obtain ⟨info, statements, nested, hm, happly, hnests⟩ :=
      Lowering.nests_lowered hclean hsame (by decide) hrun
    refine ⟨text, _, by simp only [lower, text, root, hclean, hrun]; rfl, hpoints, ?_⟩
    obtain ⟨hread, htree⟩ | hdeep := Lowering.parse_lowered hclean hrun hpoints
    · rw [happly] at htree
      exact absurd hread (Grammar.complaints_of_nests htree hm hnests (by decide))
    · exact hdeep
  · cases hlimit

end ArrayLoops
