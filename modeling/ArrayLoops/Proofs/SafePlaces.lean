import ArrayLoops.Proofs.EvaluatedOnce

/-!
# Safe places

The way up from a call that stands in no unsafe place leads through expressions that evaluate what
is below them, and ends in an expression that the statement of the call evaluates itself. So the
call is evaluated exactly once whenever its statement is run and that expression has a value, and no
other statement is begun before the call has its own value.
-/

namespace ArrayLoops

open Lowering Machine ArrayLoops.Tree

attribute [local simp] Shape.parts Shape.placed

/-- What is on the way up from a call to its statement, if all of it is evaluated. -/
inductive Carried (call : Node) : Node → Prop where
  | expression {node : Node} : call.Eager node → Carried call node
  | variable {info : Info} {name value : Node} :
    call.Eager value → Carried call (.mk info (.variable name value))
  | list {list value : Node} : value ∈ list.initialValues → call.Eager value → Carried call list

/-- What it is for a node on that way to stand in a place. -/
def Slot.Carries (call : Node) : Slot → Node → Prop
  | .expression, node | .property, node => call.Eager node
  | .variable, node =>
    ∃ info name value, node = .mk info (.variable name value) ∧ call.Eager value
  | .list, node => ∃ value ∈ node.initialValues, call.Eager value
  | .start, node =>
    if node.isKind .variableList then ∃ value ∈ node.initialValues, call.Eager value
    else call.Eager node
  | _, _ => False

section
attribute [local simp] Slot.admits Shape.eager Shape.kind Kind.isStatement

theorem eager_slot {call : Node} {info : Info} {shape : Shape Node} {slot : Slot}
    (h : call.Eager (.mk info shape)) (hc : call.isKind .call)
    (hs : slot.admits (.mk info shape)) :
    (slot = .expression ∨ slot = .property ∨ slot = .start) ∧ shape.kind ≠ .variableList := by
  have hshape : shape.eager ≠ [] ∨ shape.kind = .call := by
    cases h with
    | self => exact .inr (by simpa [Node.isKind, Node.kind?] using hc)
    | part hp _ => exact .inl (List.ne_nil_of_mem hp)
  cases shape with
  | bare kind =>
    obtain h | rfl := hshape
    · exact absurd rfl h
    · cases slot <;> simp_all [Shape.isExpression]
  | unary isTrailing _ _ =>
    cases isTrailing <;> cases slot <;> simp_all
  | call isNew _ _ _ =>
    cases isNew <;> cases slot <;> simp_all
  | access isComputed _ _ =>
    cases isComputed <;> cases slot <;> simp_all
  | collection isObject _ =>
    cases isObject <;> cases slot <;> simp_all
  | binary | property | parenthesized =>
    cases slot <;> simp_all
  | function form _ _ _ => cases form <;> simp at hshape
  | literal isString _ _ _ => cases isString <;> simp at hshape
  | «variables» isStatement _ => cases isStatement <;> simp at hshape
  | exit isThrow _ => cases isThrow <;> simp at hshape
  | loop form _ _ _ _ => cases form <;> simp at hshape
  | _ => simp at hshape

end

theorem Carried.carries {call node : Node} {slot : Slot} (h : Carried call node)
    (hc : call.isKind .call) (hs : slot.admits node) (hpresent : node.isPresent) :
    Slot.Carries call slot node := by
  cases h with
  | expression he =>
    cases node with
    | absent => cases hpresent
    | mk info shape =>
      obtain ⟨hslot, hkind⟩ := eager_slot he hc hs
      obtain rfl | rfl | rfl := hslot
      · exact he
      · exact he
      · rw [Slot.Carries, if_neg (by simpa [Node.isKind, Node.kind?] using hkind)]
        exact he
  | «variable» he =>
    cases slot with
    | «variable» => exact ⟨_, _, _, rfl, he⟩
    | _ => cases hs
  | list hm he =>
    cases node with
    | absent => cases hpresent
    | mk info shape =>
      cases shape with
      | «variables» isStatement declarations =>
        cases isStatement with
        | true => cases hm
        | false =>
          cases slot with
          | list => exact ⟨_, hm, he⟩
          | start => exact ⟨_, hm, he⟩
          | _ => cases hs
      | _ => cases hm

/-- The nearest statement on a way up evaluates an expression itself that evaluates the call. -/
def EvaluatedAbove (root call : Node) (above : List Node) : Prop :=
  ∃ statement header, above.find? Node.isStatement = some statement ∧ statement.Within root ∧
    header ∈ statement.headers ∧ call.Eager header

section

variable {root call : Node} {info : Info} {shape : Shape Node} {above : List Node}

theorem EvaluatedAbove.pass (h : EvaluatedAbove root call above)
    (hk : shape.kind.isStatement = false) : EvaluatedAbove root call (.mk info shape :: above) := by
  obtain ⟨statement, header, hfind, hrest⟩ := h
  refine ⟨statement, header, ?_, hrest⟩
  rw [List.find?_cons_of_neg, hfind]
  simp [Node.isStatement, Node.kind?, hk]

theorem EvaluatedAbove.here {header : Node} (hw : (Node.mk info shape).Within root)
    (hk : shape.kind.isStatement = true) (hm : header ∈ (Node.mk info shape).headers)
    (he : call.Eager header) : EvaluatedAbove root call (.mk info shape :: above) :=
  ⟨.mk info shape, header, List.find?_cons_of_pos hk, hw, hm, he⟩

theorem Carried.not_file {name : String} {statements : List Node} (hc : call.isKind .call) :
    ¬ Carried call (.mk info (.file name statements)) := by
  intro h
  cases h with
  | expression he =>
    cases he with
    | self => cases hc
    | part hp => cases hp
  | list hm => cases hm

/-- The way up from a call in no unsafe place ends in an expression that its statement evaluates
itself. -/
theorem evaluatedAbove_of_safe {arena : Arena} {child : Node} (hpath : root.Path child above)
    (hregular : root.Regular) (hroot : ¬ Carried call root)
    (hc : call.isKind .call) (hcarried : Carried call child)
    (hsafe : CallSite.unsafePlaceFrom arena child above = none) :
    EvaluatedAbove root call above := by
  -- On the way up, a place that is not unsafe evaluates the part below it.
  induction hpath with
  | root => exact absurd hcarried hroot
  | @part info shape part above hpath hp hpresent ih =>
    have hw : (Node.mk info shape).Within root := hpath.within
    have hslots : ∀ slot, (slot, part) ∈ shape.placed info.flags → Slot.Carries call slot part :=
      fun slot hs => hcarried.carries hc ((hregular.within hw).placed _ hs) hpresent
    simp only [CallSite.unsafePlaceFrom] at hsafe
    cases shape with
    | bare | identifier | literal => cases hp
    | conditional | function | parameter => cases hsafe
    | binary left operator right =>
      have he : call.Eager part := hslots .expression (by simpa using hp)
      by_cases hright : right.same part && operator.any Token.Kind.isLogical
      · simp [CallSite.placeIn, hright] at hsafe
      · simp only [CallSite.placeIn, hright] at hsafe
        refine (ih (.expression (.part ?_ he)) hsafe).pass rfl
        simp only [Shape.parts, List.mem_cons, List.not_mem_nil, or_false] at hp
        rw [Shape.eager]
        split
        · rename_i hop
          obtain rfl | rfl := hp
          · exact List.mem_singleton_self _
          · simp [Node.same, hop] at hright
        · simpa using hp
    | unary isTrailing operator operand =>
      obtain rfl := List.mem_singleton.mp hp
      have he : call.Eager part := hslots .expression (by simp)
      cases isTrailing <;> exact (ih (.expression (.part hp he)) hsafe).pass rfl
    | call isNew callee isListed arguments =>
      have he : call.Eager part := hslots .expression (by simpa using hp)
      cases isNew <;> exact (ih (.expression (.part hp he)) hsafe).pass rfl
    | access isComputed object key =>
      simp only [Shape.parts, List.mem_cons, List.not_mem_nil, or_false] at hp
      cases isComputed with
      | true =>
        have he : call.Eager part := hslots .expression (by simpa using hp)
        exact (ih (.expression (.part (by simpa [Shape.eager] using hp) he)) hsafe).pass rfl
      | false =>
        obtain rfl | rfl := hp
        · have he : call.Eager part := hslots .expression (by simp)
          exact (ih (.expression (.part (by simp [Shape.eager]) he)) hsafe).pass rfl
        · exact (hslots .name (by simp)).elim
    | collection isObject elements =>
      cases isObject with
      | false =>
        have he : call.Eager part := hslots .expression (List.mem_map.mpr ⟨part, hp, rfl⟩)
        exact (ih (.expression (.part hp he)) hsafe).pass rfl
      | true =>
        have he : call.Eager part := hslots .property (List.mem_map.mpr ⟨part, hp, rfl⟩)
        exact (ih (.expression (.part hp he)) hsafe).pass rfl
    | property name value =>
      simp only [Shape.parts, List.mem_cons, List.not_mem_nil, or_false] at hp
      obtain rfl | rfl := hp
      · exact (hslots .key (by simp)).elim
      · have he : call.Eager part := hslots .expression (by simp)
        exact (ih (.expression (.part (by simp [Shape.eager]) he)) hsafe).pass rfl
    | parenthesized expression =>
      obtain rfl := List.mem_singleton.mp hp
      have he : call.Eager part := hslots .expression (by simp)
      exact (ih (.expression (.part hp he)) hsafe).pass rfl
    | «variable» name value =>
      simp only [Shape.parts, List.mem_cons, List.not_mem_nil, or_false] at hp
      obtain rfl | rfl := hp
      · exact (hslots .name (by simp)).elim
      · have he : call.Eager part := hslots .expression (by simp)
        by_cases hlater : CallSite.isLaterDeclarator arena (.mk info (.variable name part))
        · simp [CallSite.placeIn, hlater] at hsafe
        · simp only [CallSite.placeIn, hlater] at hsafe
          exact (ih (.variable he) hsafe).pass rfl
    | «variables» isStatement declarations =>
      cases isStatement with
      | false =>
        obtain ⟨info', name, value, rfl, he⟩ := hslots .variable (List.mem_map.mpr ⟨part, hp, rfl⟩)
        have hm : value ∈ (Node.mk info (.variables false declarations)).initialValues :=
          List.mem_flatMap.mpr ⟨_, hp, List.mem_singleton_self _⟩
        exact (ih (.list hm he) hsafe).pass rfl
      | true =>
        obtain ⟨value, hm, he⟩ := hslots .list (List.mem_map.mpr ⟨part, hp, rfl⟩)
        exact .here hw rfl (List.mem_flatMap.mpr ⟨part, hp, hm⟩) he
    | evaluate expression =>
      obtain rfl := List.mem_singleton.mp hp
      exact .here hw rfl (List.mem_singleton_self _) (hslots .expression (by simp))
    | exit isThrow value =>
      obtain rfl := List.mem_singleton.mp hp
      have he : call.Eager part := hslots .expression (by simp)
      cases isThrow <;> exact .here hw rfl (List.mem_singleton_self _) he
    | branch condition thenBranch elseBranch =>
      simp only [Shape.parts, List.mem_cons, List.not_mem_nil, or_false] at hp
      obtain rfl | hp := hp
      · exact .here hw rfl (List.mem_singleton_self _) (hslots .expression (by simp))
      · refine (hslots .statement ?_).elim
        obtain rfl | rfl := hp <;> simp
    | loop form initializer condition update body =>
      simp only [Shape.parts, List.mem_cons, List.not_mem_nil, or_false] at hp
      obtain rfl | rfl | rfl | rfl := hp
      · cases form with
        | «for» =>
          have hstart := hslots .start (by simp)
          by_cases hk : part.isKind .variableList
          · rw [Slot.Carries, if_pos hk] at hstart
            obtain ⟨value, hm, he⟩ := hstart
            exact .here hw rfl (by simpa [Node.headers, hk] using hm) he
          · rw [Slot.Carries, if_neg hk] at hstart
            exact .here hw rfl (by simp [Node.headers, hk]) hstart
        | «while» => exact (hslots .vacant (by simp)).elim
        | doWhile => exact (hslots .vacant (by simp)).elim
      · simp [CallSite.placeIn] at hsafe
      · by_cases hcondition : condition.same part
        · simp [CallSite.placeIn, hcondition] at hsafe
        · simp [CallSite.placeIn, hcondition] at hsafe
      · cases form <;> exact (hslots .statement (by simp)).elim
    | block statements => exact (hslots .statement (List.mem_map.mpr ⟨part, hp, rfl⟩)).elim
    | file name statements => exact (hslots .statement (List.mem_map.mpr ⟨part, hp, rfl⟩)).elim

end

/-- The statement of a call evaluates an expression itself that holds the call. Whenever the
statement is run and this expression has a value, the call is evaluated once, and until then no
statement is begun but the statement itself. -/
def EvaluatedWithStatement (arena : Arena) (call : Node) (id : NodeId) : Prop :=
  ∃ statement header statementId headerId,
    arena.enclosingStatement call = some statement ∧ statement.id? = some statementId ∧
    header ∈ statement.headers ∧ header.id? = some headerId ∧ call.Within header ∧
    ∀ n m, (watchExec n statement).outcome m = exec n statement m ∧
      (.answered headerId ∈ (watchExec n statement).events m →
        ∃ events, (watchExec n statement).events m = .ran statementId :: events ∧
          EvaluatedOnce id events)

theorem safe_call_evaluated_once (name text : String) {id : NodeId} {call : Node}
    (hcall : (parse name text).arena.get? id = some call) (hc : call.isKind .call)
    (hsafe : CallSite.unsafePlace (parse name text).arena call = none) :
    EvaluatedWithStatement (parse name text).arena call id := by
  have hforest := parse_forest name text
  have hregular := parse_regular name text
  obtain ⟨hwithin, hid⟩ := hforest.within hcall
  have hpresent : call.isPresent := Node.Eager.isPresent .self hc
  obtain ⟨above, hpath⟩ := hwithin.path hpresent
  have habove := hforest.ancestors_eq hpath
  rw [CallSite.unsafePlace, habove] at hsafe
  obtain ⟨statement, header, hfind, hstatement, hheader, he⟩ :=
    evaluatedAbove_of_safe hpath hregular (Carried.not_file hc) hc (.expression .self) hsafe
  have hnodup : (parse name text).root.ids.Nodup := by simpa using hforest.nodup
  have hinside := (Node.Within.of_headers hheader).trans hstatement
  have hh : Hosts call header := ⟨he, hregular.within hinside, hinside.nodup hnodup⟩
  have hcallKind : call.kind? = some .call := by simpa [Node.isKind] using hc
  have hisStatement : statement.isStatement := List.find?_some hfind
  obtain ⟨headerId, hheaderId⟩ := Node.exists_id (he.isPresent hc)
  cases statement with
  | absent => cases hisStatement
  | mk info shape =>
    refine ⟨.mk info shape, header, info.id, headerId, ?_, rfl, hheader, hheaderId, he.within, ?_⟩
    · rw [Arena.enclosingStatement, habove, List.find?_cons_of_neg, hfind]
      simp [Node.isStatement, hcallKind, Kind.isStatement]
    · intro n m
      refine ⟨by rw [watchExec_outcome], fun ha => ?_⟩
      cases n with
      | zero => cases ha
      | succ n =>
        rw [watchExec_events] at ha ⊢
        refine ⟨_, rfl, ?_⟩
        obtain ha | ha := List.mem_cons.mp ha
        · cases ha
        · exact settles_execStep hheaderId hc hid hh hheader (hstatement.nodup hnodup) m ha

/-- A choice with a call in an argument of its condition. -/
def choiceText : String := "if (log([].map(log))) log('b'); else log('c');"

set_option maxRecDepth 100000 in
theorem safe_call_evaluated_once_in_condition :
    ∃ call, (parse "a.js" choiceText).arena.get? 5 = some call ∧ call.isKind .call ∧
      CallSite.unsafePlace (parse "a.js" choiceText).arena call = none ∧
      EvaluatedWithStatement (parse "a.js" choiceText).arena call 5 := by
  have hfacts : ((parse "a.js" choiceText).arena.get? 5).any (fun call => call.isKind .call &&
      (CallSite.unsafePlace (parse "a.js" choiceText).arena call).isNone) = true := by
    decide +kernel
  obtain ⟨call, hget, hcall⟩ := (Option.any_eq_true ..).mp hfacts
  simp only [Bool.and_eq_true, Option.isNone_iff_eq_none] at hcall
  exact ⟨call, hget, hcall.1, hcall.2, safe_call_evaluated_once _ _ hget hcall.1 hcall.2⟩

-- The run of that choice: the call is node 5, the condition node 6, the branch taken node 14.
set_option maxRecDepth 100000 in
example : ((parse "a.js" choiceText).arena.get? 15).map (fun statement =>
    (watchExec 6 statement).events start) = some
      [.ran 15, .asked 6, .asked 0, .answered 0, .asked 5, .asked 1, .answered 1, .asked 4,
        .answered 4, .answered 5, .answered 6, .ran 14, .asked 13, .asked 11, .answered 11,
        .asked 12, .answered 12, .answered 13] := by
  decide +kernel

end ArrayLoops
