import ArrayLoops.Proofs.LoweredText

/-!
# Lowering what is lowered

A lowered program has nothing left to lower. Each of its calls either stood in the source and was
left there, in a place that says the same in the lowered program, or belongs to a generated loop and
names none of the operations. So a second pass finds nothing to do, and prints what it has read.
-/

namespace ArrayLoops.Lowering

open ArrayLoops.Tree (Arena Info Node NodeId Shape Slot)

def methodName? : Node → Option String
  | .mk _ (.access false _ (.mk _ (.identifier name))) => some name
  | .mk _ (.access true _ (.mk _ (.literal true text _ _))) => some text
  | _ => none

def isCandidate (options : Options) : Node → Bool
  | .mk _ (.call false callee _ arguments) =>
    match (methodName? callee).bind Operation.ofName? with
    | some operation => options.isEnabled operation && (arguments.length == 1 ||
        arguments.length == 2 && !(operation.takesThis && options.thisArg == .reject))
    | none => false
  | _ => false

theorem memberCallee_eq (callee : Node) :
    (CallSite.memberCallee callee).toOption.map (·.2) = methodName? callee := by
  cases callee with
  | absent => rfl
  | mk info shape =>
    cases shape with
    | access isComputed object key =>
      cases key with
      | absent => cases isComputed <;> rfl
      | mk keyInfo keyShape =>
        cases keyShape with
        | literal isString _ _ _ => cases isComputed <;> cases isString <;> rfl
        | _ => cases isComputed <;> rfl
    | _ => rfl

theorem isOk_ofShape_call (options : Options) (info : Info) (callee : Node) (isListed : Bool)
    (arguments : List Node) :
    (CallSite.ofShape options (.mk info (.call false callee isListed arguments))).isOk =
      isCandidate options (.mk info (.call false callee isListed arguments)) := by
  simp only [CallSite.ofShape, isCandidate, ← memberCallee_eq]
  cases CallSite.memberCallee callee with
  | error => rfl
  | ok found =>
    simp only [Except.toOption, Option.map_some, Option.bind_some, bind, Except.bind]
    cases Operation.ofName? found.2 with
    | none => rfl
    | some operation =>
      dsimp only
      cases options.isEnabled operation with
      | false => rfl
      | true =>
        rcases arguments with - | ⟨first, - | ⟨second, - | ⟨third, rest⟩⟩⟩
        · rfl
        · rfl
        · simp only [Bool.not_true, Bool.false_eq_true, if_false]
          cases operation.takesThis && options.thisArg == .reject <;> rfl
        · rfl

theorem isOk_ofShape (options : Options) (node : Node) :
    (CallSite.ofShape options node).isOk = isCandidate options node := by
  cases node with
  | absent => rfl
  | mk info shape =>
    cases shape with
    | call isNew callee isListed arguments =>
      cases isNew with
      | true => rfl
      | false => exact isOk_ofShape_call options info callee isListed arguments
    | _ => rfl

theorem isCandidate_of_call {options : Options} {info other : Info} {callee member : Node}
    {isListed isWritten : Bool} {arguments values : List Node}
    (hname : ∀ name, methodName? member = some name → methodName? callee = some name)
    (hlength : values.length = arguments.length)
    (h : isCandidate options (.mk other (.call false member isWritten values))) :
    isCandidate options (.mk info (.call false callee isListed arguments)) := by
  unfold isCandidate at h ⊢
  cases hmember : methodName? member with
  | none => simp [hmember] at h
  | some name => simpa only [hmember, hname name hmember, hlength] using h

/-- The parts of a node, each with whether it is evaluated once with the statement around it. `free`
says so of the node. -/
def reached {α : Type} (free : Bool) : Shape α → List (α × Bool)
  | .conditional condition whenTrue whenFalse =>
    [(condition, false), (whenTrue, false), (whenFalse, false)]
  | .function _ name parameters body => (name, false) :: parameters.map (·, false) ++ [(body, false)]
  | .parameter name initializer => [(name, false), (initializer, false)]
  | .loop _ initializer condition update body =>
    [(initializer, true), (condition, false), (update, false), (body, true)]
  | .binary left operator right =>
    [(left, free), (right, free && !operator.any Token.Kind.isLogical)]
  | .variables false (first :: later) => (first, free) :: later.map (·, false)
  | shape => shape.parts.map (·, shape.kind.isStatement || free)

theorem reached_map {α β : Type} (f : α → β) (free : Bool) (shape : Shape α) :
    reached free (shape.map f) = (reached free shape).map fun entry => (f entry.1, entry.2) := by
  cases shape with
  | «variables» isStatement nodes =>
    cases isStatement <;> cases nodes <;> simp [reached, Shape.map, Shape.parts, Shape.kind]
  | loop form _ _ _ _ => cases form <;> rfl
  | function form _ _ _ => cases form <;> simp [reached, Shape.map]
  | _ => simp [reached, Shape.map, Shape.parts, Shape.kind]

theorem map_fst_reached {α : Type} (free : Bool) (shape : Shape α) :
    (reached free shape).map (·.1) = shape.parts := by
  cases shape with
  | «variables» isStatement nodes =>
    cases isStatement <;> cases nodes <;> simp [reached, Shape.parts, Function.comp_def]
  | _ => simp [reached, Shape.parts, Function.comp_def]

/-- No call of the tree can be lowered where it stands. -/
inductive Settled (options : Options) : Node → Bool → Prop where
  | absent {free : Bool} : Settled options .absent free
  | mk {info : Info} {shape : Shape Node} {free : Bool} :
    (free = true → isCandidate options (.mk info shape) = false) →
    (∀ entry ∈ reached free shape, Settled options entry.1 entry.2) →
    Settled options (.mk info shape) free

section
variable {options : Options} {free : Bool}

theorem methodName?_unplaced (node : Node) : methodName? node.unplaced = methodName? node := by
  cases node with
  | absent => rfl
  | mk info shape =>
    rw [Node.unplaced_mk]
    cases shape with
    | access isComputed object key =>
      cases key with
      | absent => cases isComputed <;> rfl
      | mk keyInfo keyShape =>
        simp only [Shape.map, Node.unplaced_mk]
        cases keyShape with
        | literal isString _ _ _ => cases isComputed <;> cases isString <;> rfl
        | _ => cases isComputed <;> rfl
    | _ => rfl

theorem isCandidate_unplaced (node : Node) : isCandidate options node.unplaced = isCandidate options node := by
  cases node with
  | absent => rfl
  | mk info shape =>
    rw [Node.unplaced_mk]
    cases shape with
    | call isNew callee isListed arguments =>
      cases isNew with
      | true => rfl
      | false => simp only [Shape.map, isCandidate, methodName?_unplaced, List.length_map]
    | _ => rfl

theorem settled_unplaced (node : Node) :
    Settled options node.unplaced free ↔ Settled options node free := by
  induction node generalizing free with
  | absent => rfl
  | mk info shape ih =>
    have hparts : ∀ entry ∈ reached free shape,
        (Settled options entry.1.unplaced entry.2 ↔ Settled options entry.1 entry.2) :=
      fun entry he => ih entry.1 (map_fst_reached free shape ▸ List.mem_map_of_mem he)
    have hcandidate := @isCandidate_unplaced options (.mk info shape)
    rw [Node.unplaced_mk] at hcandidate ⊢
    constructor
    · rintro (_ | ⟨hcall, hall⟩)
      rw [reached_map, List.forall_mem_map] at hall
      exact .mk (fun hfree => hcandidate ▸ hcall hfree) fun entry he => (hparts entry he).mp (hall entry he)
    · rintro (_ | ⟨hcall, hall⟩)
      refine .mk (fun hfree => hcandidate ▸ hcall hfree) ?_
      rw [reached_map, List.forall_mem_map]
      exact fun entry he => (hparts entry he).mpr (hall entry he)

end

theorem isPhrase_variables {limited isStatement : Bool} {info : Info} {nodes : List Node}
    (h : Grammar.IsPhrase limited (.mk info (.variables isStatement nodes))) :
    if isStatement then ∃ list, nodes = [list]
    else ∀ node ∈ nodes, ∃ other name value, node = .mk other (.variable name value) := by
  obtain ⟨level, depth, hphrase⟩ | ⟨kinds, hleaf⟩ := h
  · generalize hnode : Node.mk info (.variables isStatement nodes) = node at hphrase
    induction hphrase with
    | leaf hleaf => cases hleaf <;> cases hnode
    | ofNew _ ih | ofHead _ ih | ofMember _ ih | ofOperand _ ih | ofUnary _ ih | ofBinary _ _ ih
    | ofAssignment _ ih | ofBlock _ _ ih => exact ih hnode
    | variableStatement =>
      cases hnode
      exact ⟨_, rfl⟩
    | «variables» _ hall =>
      cases hnode
      intro node hn
      cases hall node hn with
      | «variable» => exact ⟨_, _, _, rfl⟩
    | _ => cases hnode
  · cases hleaf

/-- The links of the arena say that the node is evaluated once with its statement. The way up from
what is inside a later variable ends there. -/
def IsFree (arena : Arena) (node : Node) (above : List Node) : Prop :=
  CallSite.unsafePlaceFrom arena node above = none ∧ CallSite.isLaterDeclarator arena node = false

section
variable {arena : Arena} {root : Node} {limited : Bool} {info : Info} {shape : Shape Node}
  {above : List Node}

theorem same_parts (h : (Node.mk info shape).ids.Nodup) :
    shape.parts.Pairwise fun a b => a.isPresent ∨ b.isPresent → a.same b = false := by
  rw [Node.ids_mk, List.nodup_cons, List.nodup_flatMap] at h
  refine h.2.2.imp fun {a b} hdisjoint hpresent => ?_
  by_contra hsame
  have hsame : a.id? = b.id? := by simpa [Node.same] using hsame
  obtain ⟨id, hid⟩ : ∃ id, a.id? = some id := by
    obtain ha | hb := hpresent
    · cases a with
      | absent => cases ha
      | mk => exact ⟨_, rfl⟩
    · rw [hsame]
      cases b with
      | absent => cases hb
      | mk => exact ⟨_, rfl⟩
  exact hdisjoint (Node.id?_mem_ids hid) (Node.id?_mem_ids (hsame ▸ hid))

theorem isLaterDeclarator_part {part : Node} (hknows : arena.Knows (.mk info shape))
    (hp : part ∈ shape.parts) (hpresent : part.isPresent) :
    CallSite.isLaterDeclarator arena part = true ↔
      ∃ isStatement first rest, shape = .variables isStatement (first :: rest) ∧ first.same part = false := by
  rw [CallSite.isLaterDeclarator, hknows.parent hp hpresent]
  cases shape with
  | «variables» isStatement nodes =>
    cases nodes with
    | nil => cases hp
    | cons first rest => simp
  | _ => simp

variable (hforest : arena.Forest [root]) (hfile : Grammar.IsFile limited root)
  (hpath : root.Path (.mk info shape) above)
include hforest hfile hpath

omit hforest in
theorem isPhrase_of_path (hkind : shape.kind ≠ .file) : Grammar.IsPhrase limited (.mk info shape) := by
  obtain heq | hphrase := hfile.within hpath.within rfl
  · obtain ⟨id, fin, name, statements, hroot, -⟩ := hfile
    rw [hroot] at heq
    cases heq
    exact absurd rfl hkind
  · exact hphrase

theorem not_isLaterDeclarator (hshape : ∀ name value, shape ≠ .variable name value) :
    CallSite.isLaterDeclarator arena (.mk info shape) = false := by
  cases hpath with
  | root => rw [CallSite.isLaterDeclarator, hforest.parent_root]
  | @part outer outerShape _ _ houter hp hpresent =>
    have hknows := (hforest.known root List.mem_cons_self).within houter.within
    by_contra hlater
    obtain ⟨isStatement, first, rest, rfl, hsame⟩ :=
      (isLaterDeclarator_part hknows hp hpresent).mp (by simpa using hlater)
    have hnodes := isPhrase_variables (isPhrase_of_path hfile houter (by cases isStatement <;> simp [Shape.kind]))
    cases isStatement with
    | true =>
      obtain ⟨list, heq⟩ := hnodes
      cases heq
      obtain rfl := List.mem_singleton.mp hp
      simp at hsame
    | false =>
      obtain ⟨other, name, value, heq⟩ := hnodes _ hp
      cases heq
      exact hshape name value rfl

omit hfile in
theorem not_isLaterDeclarator_part {part : Node} (hp : part ∈ shape.parts) (hpresent : part.isPresent)
    (hshape : ∀ isStatement first rest, shape ≠ .variables isStatement (first :: rest)) :
    CallSite.isLaterDeclarator arena part = false := by
  have hknows := (hforest.known root List.mem_cons_self).within hpath.within
  by_contra hlater
  obtain ⟨isStatement, first, rest, heq, -⟩ :=
    (isLaterDeclarator_part hknows hp hpresent).mp (by simpa using hlater)
  exact hshape isStatement first rest heq

omit hforest hfile hpath in
theorem isFree_of_unsafe {part : Node} {place : UnsafePlace}
    (hplace : CallSite.placeIn arena part (.mk info shape) = some (some place)) :
    IsFree arena part (.mk info shape :: above) ↔ false = true := by
  simp [IsFree, CallSite.unsafePlaceFrom, hplace]

omit hfile in
theorem isFree_of_safe {part : Node} (hp : part ∈ shape.parts) (hpresent : part.isPresent)
    (hshape : ∀ isStatement first rest, shape ≠ .variables isStatement (first :: rest))
    (hplace : CallSite.placeIn arena part (.mk info shape) = some none) :
    IsFree arena part (.mk info shape :: above) ↔ true = true := by
  simp [IsFree, CallSite.unsafePlaceFrom, hplace,
    not_isLaterDeclarator_part hforest hpath hp hpresent hshape]

theorem isFree_of_pass {part : Node} (hp : part ∈ shape.parts) (hpresent : part.isPresent)
    (hshape : ∀ isStatement first rest, shape ≠ .variables isStatement (first :: rest))
    (hvariable : ∀ name value, shape ≠ .variable name value)
    (hplace : CallSite.placeIn arena part (.mk info shape) = none) :
    IsFree arena part (.mk info shape :: above) ↔ IsFree arena (.mk info shape) above := by
  simp only [IsFree, CallSite.unsafePlaceFrom, hplace,
    not_isLaterDeclarator_part hforest hpath hp hpresent hshape,
    not_isLaterDeclarator hforest hfile hpath hvariable]

theorem isFree_of_plain {part : Node} (hp : part ∈ shape.parts) (hpresent : part.isPresent)
    (hshape : ∀ isStatement first rest, shape ≠ .variables isStatement (first :: rest))
    (hvariable : ∀ name value, shape ≠ .variable name value)
    (hplace : CallSite.placeIn arena part (.mk info shape) =
      if shape.kind.isStatement then some none else none) {free flag : Bool}
    (h : IsFree arena (.mk info shape) above ↔ free = true) (he : (part, flag) ∈ reached free shape)
    (hreached : reached free shape = shape.parts.map (·, shape.kind.isStatement || free)) :
    IsFree arena part (.mk info shape :: above) ↔ flag = true := by
  rw [hreached] at he
  obtain ⟨_, -, heq⟩ := List.mem_map.mp he
  cases heq
  cases hkind : shape.kind.isStatement with
  | true => exact isFree_of_safe hforest hpath hp hpresent hshape (by simp [hplace, hkind])
  | false =>
    rw [Bool.false_or, ← h]
    exact isFree_of_pass hforest hfile hpath hp hpresent hshape hvariable (by simp [hplace, hkind])

theorem isFree_part {free : Bool} (h : IsFree arena (.mk info shape) above ↔ free = true)
    {part : Node} {flag : Bool} (he : (part, flag) ∈ reached free shape) (hpresent : part.isPresent) :
    IsFree arena part (.mk info shape :: above) ↔ flag = true := by
  have hp : part ∈ shape.parts := map_fst_reached free shape ▸ List.mem_map_of_mem he
  have hknows := (hforest.known root List.mem_cons_self).within hpath.within
  have hpairs := same_parts (hpath.within.nodup (by simpa using hforest.nodup))
  have hsymm : ∀ a b : Node, a.same b = b.same a := fun a b => Bool.beq_comm
  have hsafe := isFree_of_safe hforest hpath hp hpresent
  have hpass := isFree_of_pass hforest hfile hpath hp hpresent
  cases shape with
  | conditional condition whenTrue whenFalse =>
    obtain rfl : flag = false := by simp [reached] at he; tauto
    exact isFree_of_unsafe rfl
  | function form name parameters body =>
    obtain rfl : flag = false := by simp [reached] at he; tauto
    exact isFree_of_unsafe rfl
  | parameter name initializer =>
    obtain rfl : flag = false := by simp [reached] at he; tauto
    exact isFree_of_unsafe rfl
  | loop form initializer condition update body =>
    simp only [Shape.parts, List.pairwise_cons, List.forall_mem_cons] at hpairs
    obtain ⟨⟨hic, hiu, -⟩, ⟨hcu, hcb, -⟩, ⟨hub, -⟩, -⟩ := hpairs
    simp only [reached, List.mem_cons, Prod.mk.injEq, List.not_mem_nil, or_false] at he
    obtain ⟨rfl, rfl⟩ | ⟨rfl, rfl⟩ | ⟨rfl, rfl⟩ | ⟨rfl, rfl⟩ := he
    · refine hsafe (by simp) ?_
      simp [CallSite.placeIn, hsymm _ part, hic (.inl hpresent), hiu (.inl hpresent)]
    · refine isFree_of_unsafe (?_ : _ = some (some .loopTest))
      simp [CallSite.placeIn]
    · refine isFree_of_unsafe (?_ : _ = some (some .loopUpdate))
      simp [CallSite.placeIn, hcu (.inr hpresent)]
    · refine hsafe (by simp) ?_
      simp [CallSite.placeIn, hcb (.inr hpresent), hub (.inr hpresent)]
  | binary left operator right =>
    simp only [Shape.parts, List.pairwise_cons, List.forall_mem_cons] at hpairs
    simp only [reached, List.mem_cons, Prod.mk.injEq, List.not_mem_nil, or_false] at he
    obtain ⟨rfl, rfl⟩ | ⟨rfl, rfl⟩ := he
    · rw [← h]
      refine hpass (by simp) (by simp) ?_
      simp [CallSite.placeIn, hsymm right, hpairs.1.1 (.inl hpresent)]
    · cases hlogical : operator.any Token.Kind.isLogical with
      | true =>
        rw [Bool.not_true, Bool.and_false]
        refine isFree_of_unsafe (?_ : _ = some (some .logicalRight))
        simp [CallSite.placeIn, hlogical]
      | false =>
        rw [Bool.not_false, Bool.and_true, ← h]
        refine hpass (by simp) (by simp) ?_
        simp [CallSite.placeIn, hlogical]
  | «variable» name value =>
    obtain rfl : flag = free := by simp [reached, Shape.parts, Shape.kind] at he; tauto
    rw [← h]
    have hpart := not_isLaterDeclarator_part hforest hpath hp hpresent (by simp)
    simp only [IsFree, CallSite.unsafePlaceFrom, CallSite.placeIn, hpart, and_true]
    cases CallSite.isLaterDeclarator arena (.mk info (.variable name value)) <;> simp
  | «variables» isStatement nodes =>
    cases nodes with
    | nil => cases hp
    | cons first rest =>
      have hlater : CallSite.isLaterDeclarator arena part = !first.same part := by
        rw [CallSite.isLaterDeclarator, hknows.parent hp hpresent]
      have hlist := not_isLaterDeclarator hforest hfile hpath (by simp)
      cases isStatement with
      | true =>
        obtain ⟨list, heq⟩ := isPhrase_variables (isPhrase_of_path hfile hpath (by rintro ⟨⟩))
        cases heq
        obtain rfl := List.mem_singleton.mp hp
        obtain rfl : flag = true := by
          simpa [reached, Shape.parts, Shape.kind, Tree.Kind.isStatement] using he
        simp [IsFree, hlater, CallSite.unsafePlaceFrom, CallSite.placeIn, Shape.kind, Tree.Kind.isStatement]
      | false =>
        obtain heq | hrest := List.mem_cons.mp he
        · cases heq
          rw [← h]
          simp [IsFree, hlater, hlist, CallSite.unsafePlaceFrom, CallSite.placeIn, Shape.kind, Tree.Kind.isStatement]
        · obtain ⟨_, hr, heq⟩ := List.mem_map.mp hrest
          cases heq
          have hsame := (List.pairwise_cons.mp hpairs).1 part hr (.inr hpresent)
          simp [IsFree, hlater, hsame]
  | _ => exact isFree_of_plain hforest hfile hpath hp hpresent (by simp) (by simp) rfl h he rfl

end

section
variable {options : Options} {info : Info} {shape : Shape Node} {free : Bool}

theorem Settled.of_parts (hcall : isCandidate options (.mk info shape) = false)
    (hparts : ∀ part ∈ shape.parts, ∀ free, Settled options part free) :
    Settled options (.mk info shape) free :=
  .mk (fun _ => hcall) fun entry he =>
    hparts entry.1 (map_fst_reached free shape ▸ List.mem_map_of_mem he) entry.2

theorem Settled.leaf (hparts : shape.parts = []) : Settled options (.mk info shape) free := by
  refine .of_parts ?_ (by simp [hparts])
  cases shape with
  | call => cases hparts
  | _ => rfl

theorem Settled.objectOf {node : Node} (h : Settled options node free) : Settled options (objectOf node) free := by
  cases h with
  | absent => exact .absent
  | @mk info shape _ _ hparts =>
    cases shape with
    | access isComputed object key =>
      have hobject := hparts (object, _) List.mem_cons_self
      cases isComputed <;> exact hobject
    | _ => exact .absent

theorem Settled.declaration {text : String} {value : Node} (h : Settled options value true) :
    Settled options (Code.declaration info text value) free := by
  have hvariable : Settled options (.mk info (.variable (.mk info (.identifier text)) value)) true := by
    refine .mk (fun _ => rfl) ?_
    simp only [reached, Shape.parts, List.map_cons, List.map_nil, List.forall_mem_cons, Bool.or_true]
    exact ⟨.leaf rfl, h, nofun⟩
  have hlist : Settled options (.mk info (.variables false [.mk info (.variable
      (.mk info (.identifier text)) value)])) true := by
    refine .mk (fun _ => rfl) ?_
    simp only [reached, List.map_nil, List.forall_mem_cons]
    exact ⟨hvariable, nofun⟩
  refine .mk (fun _ => rfl) ?_
  simp only [reached, Shape.parts, Shape.kind, List.map_cons, List.map_nil, List.forall_mem_cons]
  exact ⟨hlist, nofun⟩

end

namespace Code

section
variable {options : Options} {info : Info} {nodes : Node → Node} {P : Node → Prop}

theorem Stands.methodName? {callee : Code} (h : Stands P .operand callee) :
    (Lowering.methodName? (callee.node info nodes)).bind Operation.ofName? = none := by
  cases h with
  | member _ _ hother => exact hother
  | element _ hindex =>
    cases hindex with
    | string => exact (by decide : Operation.ofName? emptyReduceMessage = none)
    | _ => rfl
  | _ => rfl

theorem Stands.settled {place : Place} {code : Code} (h : Stands P place code)
    (hsources : ∀ node, P node → Settled options (nodes node) true) (free : Bool) :
    Settled options (code.node info nodes) free := by
  induction h generalizing free with
  | number | string | boolean | name | «break» => exact .leaf rfl
  | member =>
    refine .of_parts rfl ?_
    simp only [Shape.parts, List.forall_mem_cons]
    exact ⟨fun _ => .leaf rfl, fun _ => .leaf rfl, nofun⟩
  | element _ _ ih =>
    refine .of_parts rfl ?_
    simp only [Shape.parts, List.forall_mem_cons]
    exact ⟨fun _ => .leaf rfl, ih, nofun⟩
  | call hcallee _ ih ihArguments =>
    refine .of_parts (by simp [isCandidate, hcallee.methodName?]) ?_
    simp only [Shape.parts, List.forall_mem_cons, nodeList_eq_map, List.forall_mem_map]
    exact ⟨ih, ihArguments⟩
  | new _ _ ih =>
    refine .of_parts rfl ?_
    simp only [Shape.parts, List.forall_mem_cons, nodeList_eq_map, List.forall_mem_map]
    exact ⟨fun _ => .leaf rfl, ih⟩
  | array => exact .leaf rfl
  | ofOperand _ ih => exact ih free
  | undefined => exact .of_parts rfl (List.forall_mem_singleton.mpr fun _ => .leaf rfl)
  | compare _ _ _ ih ihRight =>
    refine .of_parts rfl ?_
    simp only [Shape.parts, List.forall_mem_cons]
    exact ⟨ih, ihRight, nofun⟩
  | not _ ih => exact .of_parts rfl (List.forall_mem_singleton.mpr ih)
  | increment => exact .of_parts rfl (List.forall_mem_singleton.mpr fun _ => .leaf rfl)
  | declare => exact .declaration .absent
  | initial _ _ ih => exact .declaration (ih true)
  | capture _ hnode => exact .declaration (hsources _ hnode)
  | assign _ _ ih =>
    refine .of_parts rfl (List.forall_mem_singleton.mpr fun _ => .of_parts rfl ?_)
    simp only [Shape.parts, List.forall_mem_cons]
    exact ⟨fun _ => .leaf rfl, ih, nofun⟩
  | evaluate _ ih | throw _ ih => exact .of_parts rfl (List.forall_mem_singleton.mpr ih)
  | when _ _ ih ihStatements =>
    refine .of_parts rfl ?_
    simp only [Shape.parts, List.forall_mem_cons]
    refine ⟨ih, fun _ => .of_parts rfl ?_, fun _ => .absent, nofun⟩
    simpa only [Shape.parts, nodeList_eq_map, List.forall_mem_map] using ihStatements
  | loop _ _ _ ih ihUpdate ihStatements =>
    refine .of_parts rfl ?_
    simp only [Shape.parts, List.forall_mem_cons]
    refine ⟨fun _ => .absent, ih, ihUpdate, fun _ => .of_parts rfl ?_, nofun⟩
    simpa only [Shape.parts, nodeList_eq_map, List.forall_mem_map] using ihStatements

end

end Code

/-- Nothing in what a node becomes can be lowered. What it leaves stands among statements. -/
structure SettledPiece (options : Options) (piece : Piece) (free : Bool) : Prop where
  node : Settled options piece.node free
  pending : ∀ hoisted ∈ piece.pending, Settled options hoisted.node true

namespace SettledPiece

variable {options : Options} {piece : Piece}

theorem items (h : SettledPiece options piece true) : ∀ item ∈ piece.items, Settled options item true := by
  intro item hi
  unfold Piece.items at hi
  obtain hi | hi := List.mem_append.mp hi
  · obtain ⟨hoisted, hm, rfl⟩ := List.mem_map.mp hi
    exact h.pending hoisted hm
  · split at hi
    · cases hi
    · obtain rfl := List.mem_singleton.mp hi
      exact h.node

theorem embedded (h : SettledPiece options piece true) (block : Info) :
    Settled options (piece.applied block).embedded true := by
  unfold Piece.applied
  split
  · exact h.node
  · refine .mk (fun _ => rfl) ?_
    simpa only [reached, Shape.parts, List.forall_mem_map, Bool.or_true] using h.items

end SettledPiece

theorem settled_rebuild {options : Options} {shape : Shape Node} {lowered : Node → Piece} {block : Info}
    {free : Bool} (h : ∀ entry ∈ reached free shape, SettledPiece options (lowered entry.1) entry.2)
    (hfile : shape.kind = .file → free = true) :
    ∀ entry ∈ reached free (rebuild (shape.map fun part => (lowered part).applied block)),
      Settled options entry.1 entry.2 := by
  cases shape with
  | block statements =>
    simp only [reached, Shape.map, rebuild, Shape.parts, Shape.kind, List.forall_mem_map, List.flatMap_map] at h ⊢
    intro item hi
    obtain ⟨statement, hs, hi⟩ := List.mem_flatMap.mp hi
    exact (h statement hs).items item hi
  | file name statements =>
    obtain rfl := hfile rfl
    simp only [reached, Shape.map, rebuild, Shape.parts, Shape.kind, List.forall_mem_map, List.flatMap_map] at h ⊢
    intro item hi
    obtain ⟨statement, hs, hi⟩ := List.mem_flatMap.mp hi
    exact (h statement hs).items item hi
  | branch condition thenBranch elseBranch =>
    simp only [reached, Shape.map, rebuild, Shape.parts, Shape.kind, List.map_cons, List.map_nil,
      List.forall_mem_cons] at h ⊢
    exact ⟨h.1.node, h.2.1.embedded block, h.2.2.1.embedded block, List.forall_mem_nil _⟩
  | loop form initializer condition update body =>
    simp only [reached, Shape.map, rebuild, List.forall_mem_cons] at h ⊢
    exact ⟨h.1.node, h.2.1.node, h.2.2.1.node, h.2.2.2.1.embedded block, List.forall_mem_nil _⟩
  | function form name parameters body =>
    have hmap : rebuild (Shape.map (fun part => (lowered part).applied block)
        (.function form name parameters body)) =
        Shape.map (fun part => (lowered part).node) (.function form name parameters body) := by
      simp [Shape.map, rebuild, Piece.applied]
    rw [hmap, reached_map, List.forall_mem_map]
    exact fun entry he => (h entry he).node
  | _ =>
    rw [Layout.rebuild_map rfl, reached_map, List.forall_mem_map]
    exact fun entry he => (h entry he).node

section
variable {options : Options} {arena : Arena} {mark : Info} {id : NodeId} {nodes : Node → Node} {value : Code}
  (hvalue : value.IsResult)
include hvalue

theorem methodName?_inPlace : methodName? (inPlace arena mark id nodes value) = none := by
  unfold inPlace
  split
  · rfl
  · obtain rfl | ⟨text, -, rfl⟩ := hvalue <;> rfl

/-- A method that is computed by a call has no name when the call is lowered either. -/
theorem methodName?_key (info : Info) (object : Node) :
    methodName? (.mk info (.access true object (inPlace arena mark id nodes value))) = none := by
  unfold inPlace
  split
  · rfl
  · obtain rfl | ⟨text, -, rfl⟩ := hvalue <;> rfl

theorem settled_inPlace (free : Bool) : Settled options (inPlace arena mark id nodes value) free := by
  have hinner : ∀ free, Settled options (value.node mark nodes) free := by
    obtain rfl | ⟨text, htext, rfl⟩ := hvalue
    · exact (Code.Stands.undefined : Code.Stands (fun _ => False) _ _).settled nofun
    · exact (Code.Stands.name htext : Code.Stands (fun _ => False) _ _).settled nofun
  unfold inPlace
  split
  · exact .of_parts rfl (List.forall_mem_singleton.mpr hinner)
  · exact hinner free

end

section
variable {plan : Plan} {depth : Nat}

theorem methodName?_lower {callee : Node} (hregular : callee.Regular) {name : String}
    (h : methodName? (plan.lower callee depth).node = some name) : methodName? callee = some name := by
  cases callee with
  | absent => exact h
  | mk info shape =>
    cases hsite : plan.site? (.mk info shape) depth with
    | some site =>
      obtain ⟨_, _, _, _, _, hnode, -, -⟩ := Pass.site?_call hsite
      cases hnode
      rw [Plan.lower_site hsite, lowerSite, methodName?_inPlace (site.stands_loweredWith _).2] at h
      cases h
    | none =>
      rw [Plan.lower_parts hsite] at h
      cases shape with
      | access isComputed object key =>
        change methodName? (.mk info (.access isComputed (plan.lower object (depth + 1)).node
          (plan.lower key (depth + 1)).node)) = some name at h
        cases key with
        | absent => cases isComputed <;> cases h
        | mk keyInfo keyShape =>
          cases isComputed with
          | false =>
            have hname : Slot.name.admits (.mk keyInfo keyShape) := hregular.placed (.name, _) (by simp [Shape.placed])
            cases keyShape with
            | identifier text =>
              rw [Plan.lower_parts (Plan.site?_of_not_call (by simp [Shape.kind]))] at h
              exact h
            | _ => cases hname
          | true =>
            cases hkey : plan.site? (.mk keyInfo keyShape) (depth + 1) with
            | some site =>
              obtain ⟨_, _, _, _, _, hnode, -, -⟩ := Pass.site?_call hkey
              cases hnode
              rw [Plan.lower_site hkey, lowerSite, methodName?_key (site.stands_loweredWith _).2] at h
              cases h
            | none =>
              rw [Plan.lower_parts hkey] at h
              cases keyShape with
              | literal isString text raw value => cases isString <;> exact h
              | _ => cases h
      | _ => cases h

theorem isCandidate_lower {options : Options} {info : Info} {shape : Shape Node} {block : Info}
    (hregular : (Node.mk info shape).Regular)
    (h : isCandidate options
      (Piece.assemble block info (shape.map fun part => plan.lower part depth)).node) :
    isCandidate options (.mk info shape) := by
  cases shape with
  | call isNew callee isListed arguments =>
    cases isNew with
    | true => cases h
    | false =>
      have hcallee := hregular.part callee (by simp [Shape.parts])
      exact isCandidate_of_call (fun name => methodName?_lower hcallee) (by simp) h
  | _ => cases h

theorem postorder_part {info : Info} {shape : Shape Node} {part : Node}
    (hregular : (Node.mk info shape).Regular) (hp : part ∈ shape.parts) :
    part.postorder (depth + 1) ⊆ (Node.mk info shape).postorder depth := by
  obtain hs | rfl := hregular.mem_slots hp
  · rw [Node.postorder_mk]
    exact fun entry he => List.mem_append_left _ (List.mem_flatMap.mpr ⟨part, hs, he⟩)
  · exact List.nil_subset _

variable {root : Node} (hforest : plan.arena.Forest [root]) (hfile : Grammar.IsFile true root)
include hforest hfile

theorem isFree_of_site {info : Info} {shape : Shape Node} {above : List Node} {site : CallSite}
    (hpath : root.Path (.mk info shape) above) (hsite : plan.site? (.mk info shape) depth = some site) :
    IsFree plan.arena (.mk info shape) above := by
  obtain ⟨_, _, _, _, _, hnode, -, hplace⟩ := Pass.site?_call hsite
  rw [CallSite.unsafePlace, hforest.ancestors_eq hpath] at hplace
  cases hnode
  exact ⟨hplace, not_isLaterDeclarator hforest hfile hpath (by simp)⟩

omit hfile in
theorem site?_isSome {node : Node} {above : List Node} (hpath : root.Path node above)
    (hfree : IsFree plan.arena node above) (hcall : isCandidate plan.options node)
    (hdepth : depth < Pass.maxDepth) : (plan.site? node depth).isSome := by
  rw [← isOk_ofShape] at hcall
  have hplace : CallSite.unsafePlace plan.arena node = none := by
    rw [CallSite.unsafePlace, hforest.ancestors_eq hpath]
    exact hfree.1
  unfold Plan.site? CallSite.ofCall
  rw [if_neg (Nat.not_le.mpr hdepth)]
  cases hshape : CallSite.ofShape plan.options node with
  | error => simp [hshape, Except.isOk, Except.toBool] at hcall
  | ok site => simp [bind, Except.bind, hplace, pure, Except.pure, Except.toOption]

theorem isFree_file (hregular : root.Regular) {info : Info} {shape : Shape Node} {above : List Node}
    (hpath : root.Path (.mk info shape) above) (hkind : shape.kind = .file) :
    IsFree plan.arena (.mk info shape) above := by
  have hlater := not_isLaterDeclarator hforest hfile hpath (by rintro name value rfl; cases hkind)
  cases hpath with
  | root => exact ⟨rfl, hlater⟩
  | @part outer outerShape _ _ houter hp _ =>
    rw [← Shape.map_snd_placed outer.flags] at hp
    obtain ⟨entry, he, heq⟩ := List.mem_map.mp hp
    have hslot := entry.1.not_file ((hregular.within houter.within).placed entry he)
    simp [heq, Node.isKind, Node.kind?, hkind] at hslot

/-- Nothing in a lowered tree can be lowered, if all of the source was visited. -/
theorem settled_lower (hregular : root.Regular) {node : Node} {above : List Node} {free : Bool}
    (hpath : node.isPresent → root.Path node above)
    (hfree : node.isPresent → (IsFree plan.arena node above ↔ free = true))
    (hdepth : ∀ entry ∈ node.postorder depth, entry.1 < Pass.maxDepth) :
    SettledPiece plan.options (plan.lower node depth) free := by
  induction node generalizing above free depth with
  | absent => exact ⟨.absent, nofun⟩
  | mk info shape ih =>
    have hpath := hpath rfl
    have hfree := hfree rfl
    have hinner := hregular.within hpath.within
    have hparts : ∀ entry ∈ reached free shape,
        SettledPiece plan.options (plan.lower entry.1 (depth + 1)) entry.2 := by
      intro entry he
      have hp : entry.1 ∈ shape.parts := map_fst_reached free shape ▸ List.mem_map_of_mem he
      exact ih entry.1 hp (fun hpresent => .part hpath hp hpresent)
        (fun hpresent => isFree_part hforest hfile hpath hfree he hpresent)
        fun other ho => hdepth other (postorder_part hinner hp ho)
    have hpending : ∀ part ∈ shape.parts, ∀ hoisted ∈ (plan.lower part (depth + 1)).pending,
        Settled plan.options hoisted.node true := by
      intro part hp
      rw [← map_fst_reached free shape] at hp
      obtain ⟨entry, he, rfl⟩ := List.mem_map.mp hp
      exact (hparts entry he).pending
    cases hsite : plan.site? (.mk info shape) depth with
    | none =>
      have hnode : depth < Pass.maxDepth := by
        refine hdepth (depth, .mk info shape) ?_
        rw [Node.postorder_mk]
        exact List.mem_append_right _ List.mem_cons_self
      rw [Plan.lower_parts hsite]
      refine ⟨.mk (fun htrue => ?_) ?_, fun hoisted hm => ?_⟩
      · by_contra hcall
        have hcandidate := @isCandidate_lower plan (depth + 1) plan.options info shape
          (Directives.made plan.arena) hinner (eq_true_of_ne_false hcall)
        have hsome := site?_isSome hforest hpath (hfree.mpr htrue) hcandidate hnode
        rw [hsite] at hsome
        cases hsome
      · rw [Shape.map_map]
        exact settled_rebuild hparts fun hkind => hfree.mp (isFree_file hforest hfile hregular hpath hkind)
      · obtain ⟨piece, hpiece, hm⟩ := Piece.mem_pendingIn hm
        rw [Shape.parts_map, List.mem_map] at hpiece
        obtain ⟨part, hp, rfl⟩ := hpiece
        exact hpending part hp hoisted hm
    | some site =>
      obtain rfl : free = true := hfree.mp (isFree_of_site hforest hfile hpath hsite)
      obtain ⟨_, member, isComputed, key, isListed, hnode, -, -⟩ := Pass.site?_call hsite
      cases hnode
      have hreached : ∀ part ∈ Node.mk member (.access isComputed site.receiver key) :: site.callback ::
          site.extra.toList, (part, true) ∈ reached true (Shape.call false (.mk member (.access isComputed
            site.receiver key)) isListed (site.callback :: site.extra.toList)) :=
        fun part hp => List.mem_map.mpr ⟨part, hp, rfl⟩
      obtain ⟨hreceiver, harguments⟩ := replacedIn_parts hforest hpath hsite
      obtain ⟨hstands, hvalue⟩ := site.stands_loweredWith (plan.naming info.id)
      rw [Plan.lower_site hsite]
      refine ⟨settled_inPlace hvalue true, fun hoisted hm => ?_⟩
      simp only [lowerSite, List.mem_append, List.mem_flatMap, List.mem_map, List.mem_singleton] at hm
      obtain hm | ⟨code, hcode, ⟨-, ⟨argument, ha, rfl⟩, hm⟩ | rfl⟩ := hm
      · exact hpending _ List.mem_cons_self hoisted hm
      · split at hm
        · exact hpending argument (List.mem_cons_of_mem _ ha) hoisted hm
        · cases hm
      · refine (hstands code hcode).settled (fun source hs => ?_) true
        simp only [List.map_map, Function.comp_def]
        obtain rfl | hs := List.mem_cons.mp hs
        · rw [hreceiver, ← @objectOf_access plan (depth + 1) member isComputed site.receiver key]
          exact (hparts _ (hreached _ List.mem_cons_self)).node.objectOf
        · rw [harguments source hs]
          exact (hparts _ (hreached source (List.mem_cons_of_mem _ hs))).node

end

section
variable {arena : Arena} {options : Options} {root : Node}

theorem settled_apply (hforest : arena.Forest [root]) (hregular : root.Regular)
    (hfile : Grammar.IsFile true root) {result : PassResult} (hrun : runPass arena options root = .ok result)
    (hdepth : ∀ entry ∈ root.postorder 0, entry.1 < Pass.maxDepth) :
    Settled options (result.directives.apply arena root) true := by
  obtain ⟨naming, -, htree⟩ := runPass_tree hforest hregular hfile.isKind hrun
  have hroot : IsFree arena root [] :=
    ⟨rfl, by rw [CallSite.isLaterDeclarator, hforest.parent_root]⟩
  have hpiece := @settled_lower ⟨arena, options, naming, fun _ => Directives.made arena⟩ 0 root hforest
    hfile hregular root [] true (fun _ => .root) (fun _ => iff_of_true hroot rfl) hdepth
  rw [htree]
  exact hpiece.node

theorem not_ofCall_of_settled (hforest : arena.Forest [root]) (hfile : Grammar.IsFile true root)
    (h : Settled options root true) {node : Node} (hw : node.Within root) (site : CallSite) :
    CallSite.ofCall arena options node ≠ .ok site := by
  intro hcall
  obtain ⟨info, member, isComputed, key, isListed, hnode, -, hplace⟩ := CallSite.ofCall_spec hcall
  obtain ⟨above, hpath⟩ := hw.path (by rw [hnode]; rfl)
  have hflag : ∀ {node above}, root.Path node above →
      ∃ free, Settled options node free ∧ (IsFree arena node above ↔ free = true) := by
    intro node above hpath
    induction hpath with
    | root =>
      refine ⟨true, h, iff_of_true ⟨rfl, ?_⟩ rfl⟩
      rw [CallSite.isLaterDeclarator, hforest.parent_root]
    | @part outer shape part above houter hp hpresent ih =>
      obtain ⟨free, hsettled, hfree⟩ := ih
      rw [← map_fst_reached free shape] at hp
      obtain ⟨entry, he, rfl⟩ := List.mem_map.mp hp
      cases hsettled with
      | mk _ hparts =>
        exact ⟨entry.2, hparts entry he, isFree_part hforest hfile houter hfree he hpresent⟩
  obtain ⟨free, hsettled, hfree⟩ := hflag hpath
  have hok : isCandidate options node := by
    rw [← isOk_ofShape]
    unfold CallSite.ofCall at hcall
    cases hshape : CallSite.ofShape options node with
    | error => simp [hshape, bind, Except.bind] at hcall
    | ok => rfl
  subst hnode
  rw [CallSite.unsafePlace, hforest.ancestors_eq hpath] at hplace
  have htrue := hfree.mp ⟨hplace, not_isLaterDeclarator hforest hfile hpath (by simp)⟩
  cases hsettled with
  | mk hcandidate _ =>
    rw [hcandidate htrue] at hok
    cases hok

theorem Directives.eq_empty {directives : Directives} (h : ∀ id, directives.get? id = none) :
    directives = .empty := by
  obtain ⟨entries⟩ := directives
  cases entries with
  | nil => rfl
  | cons entry entries =>
    have hhead := h entry.1
    simp [Directives.get?] at hhead

theorem Plan.pending_eq_nil {plan : Plan} {node : Node} {depth : Nat}
    (h : ∀ inner, inner.Within node → ∀ depth, plan.site? inner depth = none) :
    (plan.lower node depth).pending = [] := by
  induction node generalizing depth with
  | absent => rfl
  | mk info shape ih =>
    rw [lower_parts (h _ .self depth)]
    refine Piece.pendingIn_eq_nil ?_
    rw [Shape.parts_map, List.forall_mem_map]
    exact fun part hp => ih part hp fun inner hw => h inner (.part hp hw)

theorem runPass_idle (hforest : arena.Forest [root]) (hregular : root.Regular)
    (hfile : Grammar.IsFile true root)
    (h : ∀ node, node.Within root → ∀ site, CallSite.ofCall arena options node ≠ .ok site) :
    runPass arena options root = .ok ⟨.empty, []⟩ := by
  have hsite : ∀ (plan : Plan), plan.arena = arena → plan.options = options →
      ∀ node, node.Within root → ∀ depth, plan.site? node depth = none := by
    rintro plan rfl rfl node hw depth
    cases hsite : plan.site? node depth with
    | none => rfl
    | some site => exact absurd (Pass.site?_spec hsite).2 (h node hw site)
  obtain ⟨result, hrun, hchanges⟩ := @runPass_sites
    ⟨arena, options, fun _ => .ofReserved [], fun _ => ⟨0, 0, 0, {}⟩⟩ root hforest hregular hfile
  obtain ⟨naming, -, hobeys, hcontains⟩ := runPass_obeys hforest hregular hfile.isKind hrun
  have hnone : result.changes = [] := by
    rw [hchanges, List.map_eq_nil_iff, Plan.sites, List.filterMap_eq_nil_iff]
    exact fun entry he => hsite _ rfl rfl _ (Node.within_of_mem_postorder he) _
  have hempty : result.directives = .empty := by
    refine Directives.eq_empty fun id => ?_
    by_contra hget
    obtain ⟨node, hw, hid⟩ := Node.exists_within_of_mem_ids
      (hcontains id (Option.isSome_iff_ne_none.mpr hget))
    obtain ⟨below, hat⟩ := hobeys.within hw
    cases hat with
    | absent => cases hid
    | @mk info shape _ hentry _ =>
      obtain rfl := Option.some.inj hid
      have hpending := @Plan.pending_eq_nil ⟨arena, options, naming, fun _ => Directives.made arena⟩
        (.mk info shape) below fun inner hin => hsite _ rfl rfl inner (hin.trans hw)
      rw [Entry, hpending, hsite _ rfl rfl _ hw] at hentry
      split at hentry
      · exact hget (by simpa [Holds] using hentry)
      · exact hget hentry
  rw [hrun, ← hnone, ← hempty]

end

end ArrayLoops.Lowering

namespace ArrayLoops.Layout

open Doc (joined_empty put_append put_concat_cons put_nest_congr)
open Lowering (Applied Directives rebuild)
open Token (Kind)
open ArrayLoops.Tree (Arena Info Node Shape)

/-- A node that stands alone in the place of another. -/
def alone (node : Node) : Applied := ⟨node, [node], node⟩

theorem rebuild_alone (f : Node → Node) (shape : Shape Node) :
    rebuild (shape.map fun part => alone (f part)) = shape.map f := by
  cases shape <;>
    simp [Shape.map, rebuild, alone, List.flatMap_map, Function.comp_def, ← List.map_eq_flatMap]

section
variable (info : Info) (parts : Shape Part)

theorem put_expressionDoc_flags :
    (expressionDoc info parts).put = (expressionDoc ⟨0, 0, 0, info.flags⟩ parts).put := by
  cases parts with
  | bare kind =>
    cases kind with
    | token kind => cases kind <;> rfl
    | _ => rfl
  | collection isObject items => cases isObject <;> cases items <;> rfl
  | access isComputed _ _ => cases isComputed <;> rfl
  | call isNew _ _ _ => cases isNew <;> rfl
  | unary isTrailing operator _ => cases isTrailing <;> cases operator <;> rfl
  | function form _ _ _ => cases form <;> rfl
  | _ => rfl

theorem put_statementDoc_flags :
    (statementDoc .empty info parts).put = (statementDoc .empty ⟨0, 0, 0, info.flags⟩ parts).put := by
  rw [statementDoc, statementDoc, put_append, put_append]
  congr 1
  cases parts with
  | bare kind => cases kind <;> rfl
  | «variables» isStatement _ => cases isStatement <;> rfl
  | function form _ _ _ => cases form <;> rfl
  | _ => rfl

end

theorem put_plain_flags (info : Info) (shape : Shape Node) (role : Role) (hwhole : role ≠ .whole) :
    (plain (.mk info shape) role).put = (plain (.mk ⟨0, 0, 0, info.flags⟩ shape) role).put := by
  have hempty : ∀ id, Directives.empty.get? id = none := fun _ => rfl
  have hembedded : (plain (.mk info shape) .embedded).put =
      (plain (.mk ⟨0, 0, 0, info.flags⟩ shape) .embedded).put := by
    rw [plain_mk, plain_mk, nodeDoc_embedded_none (hempty _), nodeDoc_embedded_none (hempty _)]
    split
    · rfl
    · rw [put_append, put_append, put_nest_congr (put_statementDoc_flags info _)]
  cases role with
  | expression =>
    rw [plain_expression, plain_expression]
    exact put_expressionDoc_flags info _
  | statement =>
    rw [plain_statement, plain_statement]
    exact put_statementDoc_flags info _
  | embedded => exact hembedded
  | elseBranch =>
    rw [plain_mk, plain_mk, nodeDoc_elseBranch_none (hempty _), nodeDoc_elseBranch_none (hempty _),
      ← plain_mk, ← plain_mk]
    split
    · rfl
    · exact hembedded
  | whole => exact absurd rfl hwhole
  | _ =>
    rw [plain_mk, plain_mk]
    rfl

theorem wouldFuse_info (operator : Kind) (left right : Info) (shape : Shape Node) :
    wouldFuse operator (.mk left shape) = wouldFuse operator (.mk right shape) := by
  cases shape with
  | unary isTrailing inner _ => cases isTrailing <;> cases inner <;> rfl
  | _ => rfl

theorem printsApplied_unplaced {node : Node} (hfull : Full node) :
    PrintsApplied .empty plain node (alone node.unplaced) := by
  induction node with
  | absent =>
    exact ⟨⟨rfl, rfl, fun _ => rfl, fun _ _ => rfl⟩, joined_empty.symm, by simp [alone], rfl, rfl, rfl,
      rfl⟩
  | mk info shape ih =>
    have hparts : ∀ part ∈ shape.parts, PrintsApplied .empty plain part (alone part.unplaced) :=
      fun part hp => ih part hp (hfull.within (.part hp .self))
    have hmk := printsApplied_none hparts (fun statements heq => hfull info statements (heq ▸ .self))
      (fun role => congrArg (Doc.put <| · role) (plain_mk info shape)) rfl
    rw [rebuild_alone] at hmk
    rw [Node.unplaced_mk]
    have hflags := put_plain_flags info (shape.map Node.unplaced)
    refine ⟨⟨rfl, hmk.inner.isList, fun operator => ?_, fun role hrole => ?_⟩, ?_, by simp [alone], ?_,
      ?_, hmk.braced, rfl⟩
    · rw [← hmk.inner.fuses operator]
      exact wouldFuse_info operator _ _ _
    · exact (hmk.inner.docs role hrole).trans (hflags role (by rintro rfl; cases hrole))
    · rw [hmk.statement]
      simp only [alone, List.map_cons, List.map_nil, put_concat_cons, hflags .statement (by simp)]
    · exact hmk.embedded.trans (hflags .embedded (by simp))
    · exact hmk.elseBranch.trans (hflags .elseBranch (by simp))

theorem print_unplaced {arena others : Arena} {left right : Info} {name : String}
    {statements again : List Node} (hleft : Full (.mk left (.file name statements)))
    (hright : Full (.mk right (.file name again)))
    (h : statements.map Node.unplaced = again.map Node.unplaced) :
    print arena .empty (.mk left (.file name statements)) = print others .empty (.mk right (.file name again)) := by
  have hput : ∀ {info : Info} {nodes : List Node}, Full (.mk info (.file name nodes)) →
      (Doc.concat (nodes.map (plain · .statement))).put =
        (Doc.concat ((nodes.map Node.unplaced).map (plain · .statement))).put := by
    intro info nodes hfull
    have hitems : nodes.map Node.unplaced = nodes.flatMap fun node => (alone node.unplaced).items :=
      List.map_eq_flatMap
    rw [hitems]
    exact put_concat_statements fun node hn => printsApplied_unplaced (hfull.within (.part hn .self))
  rw [print_empty, print_empty, plain_file, plain_file, Doc.render_eq, Doc.render_eq,
    hput hleft, hput hright, h]

end ArrayLoops.Layout

namespace ArrayLoops

open Grammar (Phrase)
open Layout (PointsApart)
open Lowering (Options PassResult Settled)
open ArrayLoops.Tree (Node)

section
variable {name text : String} {options : Options}

theorem lower_settled (h : (parse name text).complaints = [])
    (hsettled : Settled options (parse name text).root true) : lower name text options =
      .ok ⟨Layout.print (parse name text).arena .empty (parse name text).root, []⟩ := by
  have hforest := parse_forest name text
  have hfile := Grammar.parse_isFile h
  have hidle := Lowering.runPass_idle hforest (parse_regular name text) hfile fun _ hw site =>
    Lowering.not_ofCall_of_settled hforest hfile hsettled hw site
  simp only [lower, h, hidle]
  rfl

theorem print_read (h : (parse name text).complaints = []) {arena : Tree.Arena} {id fin : Nat}
    {statements : List Node} (hphrases : ∀ statement ∈ statements, Phrase false .statement 0 statement)
    (htree : (parse name text).root.unplaced =
      Node.unplaced (.mk ⟨id, 0, fin, {}⟩ (.file name statements))) :
    Layout.print (parse name text).arena .empty (parse name text).root =
      Layout.print arena .empty (.mk ⟨id, 0, fin, {}⟩ (.file name statements)) := by
  have hfull := Lowering.full_of_isFile (Grammar.parse_isFile h)
  have hleft := Lowering.full_of_isFile ⟨id, fin, name, statements, rfl, hphrases⟩
  obtain ⟨_, _, again, hroot, -⟩ := Grammar.parse_statements h
  rw [hroot] at hfull htree ⊢
  refine Layout.print_unplaced hfull hleft ?_
  simpa [Node.unplaced_mk, Tree.Shape.map] using htree

end

/-- Lowering what is lowered changes nothing and gives the text back. -/
theorem lowering_idempotent {name text : String} {options : Options} {lowered : LoweredFile}
    (h : lower name text options = .ok lowered)
    (hdepth : ∀ entry ∈ (parse name text).root.postorder 0, entry.1 < Lowering.Pass.maxDepth)
    (hpoints : PointsApart (parse name text).root)
    (hread : (parse name lowered.output).complaints = []) :
    lower name lowered.output options = .ok ⟨lowered.output, []⟩ := by
  have hclean : (parse name text).complaints = [] := by
    by_contra hne
    simp [lower, hne] at h
  obtain ⟨result, hrun⟩ := Lowering.runPass_ok options hclean
  obtain rfl : ⟨Layout.print (parse name text).arena result.directives (parse name text).root,
      result.changes⟩ = lowered := by
    simpa [lower, hclean, hrun] using h
  have hsettled := Lowering.settled_apply (parse_forest name text) (parse_regular name text)
    (Grammar.parse_isFile hclean) hrun hdepth
  obtain ⟨id, fin, statements, happly, hphrases, hprint, -⟩ := Lowering.lowered_isFile hclean hrun
  obtain ⟨-, htree⟩ | ⟨start, length, hdeep⟩ := Lowering.parse_lowered hclean hrun hpoints
  · rw [← Lowering.settled_unplaced, ← htree, Lowering.settled_unplaced] at hsettled
    rw [lower_settled hread hsettled, print_read hread hphrases (htree.trans (congrArg _ happly)), ← hprint]
  · rw [hdeep] at hread
    cases hread

set_option maxRecDepth 100000 in
/-- A call in an argument of a call, and one that is left alone on both passes. -/
theorem lowering_idempotent_nested :
    let text := "if (a) b = c.map(d.filter(e)).f && g.some(h);"
    ∃ lowered, lower "a.js" text {} = .ok lowered ∧
      (∀ entry ∈ (parse "a.js" text).root.postorder 0, entry.1 < Lowering.Pass.maxDepth) ∧
      PointsApart (parse "a.js" text).root ∧ (parse "a.js" lowered.output).complaints = [] ∧
      lower "a.js" lowered.output {} = .ok ⟨lowered.output, []⟩ := by
  intro text
  have hclean : (parse "a.js" text).complaints = [] := by decide +kernel
  have hpoints : PointsApart (parse "a.js" text).root := by decide +kernel
  have hdepth : ((parse "a.js" text).root.postorder 0).all (·.1 < Lowering.Pass.maxDepth) := by
    decide +kernel
  have hdepth := fun entry he => of_decide_eq_true (List.all_eq_true.mp hdepth entry he)
  obtain ⟨result, hrun⟩ := Lowering.runPass_ok {} hclean
  have hlower : lower "a.js" text {} = .ok ⟨Layout.print (parse "a.js" text).arena result.directives
      (parse "a.js" text).root, result.changes⟩ := by
    simp [lower, hclean, hrun]
  have hread : complaintsAgain "a.js" {} (parse "a.js" text) = some [] := by decide +kernel
  have hread := Option.some.inj ((complaintsAgain_eq hlower).symm.trans hread)
  exact ⟨_, hlower, hdepth, hpoints, hread, lowering_idempotent hlower hdepth hpoints hread⟩

end ArrayLoops
