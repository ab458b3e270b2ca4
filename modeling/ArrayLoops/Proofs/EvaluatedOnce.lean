import ArrayLoops.Lowering.CallSite
import ArrayLoops.Proofs.ParsedTree
import ArrayLoops.Proofs.Watched

/-!
# Calls that are evaluated with an expression

`Eager` says of a node that another evaluates it whenever it is evaluated itself, through
expressions that always evaluate the one below. An expression that is eager for a call asks for the
call exactly once on its way to a value: there is one lemma for each way an expression is evaluated.
A statement then evaluates the call once if the expression has a value that it evaluates itself.
-/

namespace ArrayLoops

open Machine ArrayLoops.Tree

attribute [local simp] Shape.parts

namespace Tree

/-- The parts of an expression that are evaluated whenever it is. -/
def Shape.eager {α : Type} : Shape α → List α
  | .binary left operator right =>
    if operator.any Token.Kind.isLogical then [left] else [left, right]
  | .unary _ _ operand => [operand]
  | .call _ callee _ arguments => callee :: arguments
  | .access isComputed object key => if isComputed then [object, key] else [object]
  | .collection _ elements => elements
  | .property _ initializer => [initializer]
  | .parenthesized expression => [expression]
  | _ => []

theorem Shape.eager_subset {α : Type} (shape : Shape α) : shape.eager ⊆ shape.parts := by
  intro part hp
  cases shape <;> simp_all [eager, parts]
  all_goals split at hp <;> simp_all

/-- A node is evaluated whenever another is, as far as the shapes of expressions say. -/
inductive Node.Eager (node : Node) : Node → Prop where
  | self : Eager node node
  | part {info : Info} {shape : Shape Node} {part : Node} :
    part ∈ shape.eager → Eager node part → Eager node (.mk info shape)

theorem Node.Eager.within {inner node : Node} (h : Eager inner node) : inner.Within node := by
  induction h with
  | self => exact .self
  | part hp _ ih => exact .part (Shape.eager_subset _ hp) ih

theorem Node.Eager.unwrapped {call node : Node} (h : Eager call node) (hc : call.isKind .call) :
    Eager call node.unwrapped := by
  induction h with
  | self =>
    cases call with
    | absent => exact .self
    | mk info shape =>
      cases shape with
      | parenthesized expression => cases hc
      | _ => exact .self
  | @part info shape part hp hw ih =>
    cases shape with
    | parenthesized expression =>
      obtain rfl := List.mem_singleton.mp hp
      exact ih
    | _ => exact .part hp hw

theorem Node.Eager.isPresent {call node : Node} (h : Eager call node) (hc : call.isKind .call) :
    node.isPresent := by
  cases h with
  | self =>
    cases call with
    | absent => cases hc
    | mk => rfl
  | part => rfl

theorem Node.Eager.not_identifier {call node : Node} (h : Eager call node)
    (hc : call.isKind .call) : node.isKind (.token .identifier) = false := by
  have hk : call.kind? = some .call := by simpa [isKind] using hc
  cases h with
  | self => simp [isKind, hk]
  | @part info shape part hp _ =>
    cases shape with
    | unary isTrailing _ _ => cases isTrailing <;> rfl
    | call isNew _ _ _ => cases isNew <;> rfl
    | access isComputed _ _ => cases isComputed <;> rfl
    | collection isObject _ => cases isObject <;> rfl
    | binary | property | parenthesized => rfl
    | _ => cases hp

theorem Slot.not_admits_call {call : Node} (hc : call.isKind .call) :
    Slot.property.admits call = false := by
  cases call with
  | absent => cases hc
  | mk info shape =>
    cases shape with
    | property => cases hc
    | _ => rfl

end Tree

namespace Machine

/-- A node is evaluated once, the evaluation comes to its end, and until then no statement is
begun. -/
def EvaluatedOnce (id : NodeId) (events : List Event) : Prop :=
  ∃ before during after, events = before ++ .asked id :: during ++ .answered id :: after ∧
    .asked id ∉ before ++ during ++ after ∧ ∀ event ∈ before ++ during, event.isRan = false

theorem EvaluatedOnce.append_right {id : NodeId} {events more : List Event}
    (h : EvaluatedOnce id events) (hmore : .asked id ∉ more) : EvaluatedOnce id (events ++ more) := by
  obtain ⟨before, during, after, rfl, hasked, hran⟩ := h
  refine ⟨before, during, after ++ more, by simp, ?_, hran⟩
  simp_all

theorem EvaluatedOnce.append_left {id : NodeId} {events earlier : List Event}
    (h : EvaluatedOnce id events) (hasked : .asked id ∉ earlier)
    (hran : ∀ event ∈ earlier, event.isRan = false) : EvaluatedOnce id (earlier ++ events) := by
  obtain ⟨before, during, after, rfl, hasked', hran'⟩ := h
  refine ⟨earlier ++ before, during, after, by simp, by simp_all, ?_⟩
  intro event he
  simp only [List.mem_append, List.append_assoc] at he hran'
  obtain he | he := he
  · exact hran event he
  · exact hran' event he

/-- Events that neither ask for a node nor begin a statement. -/
def Event.Quiet (id : NodeId) (event : Event) : Prop := event ≠ .asked id ∧ event.isRan = false

/-- If the run ends with a result, the node was evaluated once. -/
def Watched.Asks {α : Type} (id : NodeId) (x : Watched α) : Prop :=
  ∀ m a m', x.outcome m = .ok a m' → EvaluatedOnce id (x.events m)

namespace Watched.Asks

variable {α β : Type} {id : NodeId} {x : Watched α} {f : α → Watched β}

theorem bind_left (hx : x.Asks id) (hf : ∀ a, (f a).Tells (Event.Quiet id)) :
    (x >>= f).Asks id := by
  intro m b m' ho
  cases hox : x.outcome m with
  | ok a m₁ =>
    rw [events_bind_ok hox]
    exact (hx m a m₁ hox).append_right fun h => (hf a m₁ _ h).1 rfl
  | error stop m₁ =>
    rw [outcome_bind_error hox] at ho
    cases ho

theorem bind_right (hx : x.Tells (Event.Quiet id))
    (hf : ∀ m a m', x.outcome m = .ok a m' → (f a).Asks id) : (x >>= f).Asks id := by
  intro m b m' ho
  cases hox : x.outcome m with
  | ok a m₁ =>
    rw [events_bind_ok hox]
    rw [outcome_bind_ok hox] at ho
    exact (hf m a m₁ hox m₁ b m' ho).append_left (fun h => (hx m _ h).1 rfl)
      fun event he => (hx m event he).2
  | error stop m₁ =>
    rw [outcome_bind_error hox] at ho
    cases ho

theorem stopped {act : Run α} (h : ∀ m a m', act m ≠ .ok a m') :
    Asks id (liftM act : Watched α) :=
  fun m a m' ho => absurd ho (h m a m')

theorem unsupported (what : Unsupported) : Asks id (liftM (Machine.unsupported (α := α) what)) :=
  stopped nofun

theorem raise (kind : ErrorClass) (message : String) :
    Asks id (liftM (Machine.raise (α := α) kind message)) :=
  stopped nofun

end Watched.Asks

/-- An expression of a parsed text that evaluates a call whenever it is evaluated. -/
structure Hosts (call node : Node) : Prop where
  eager : call.Eager node
  regular : node.Regular
  nodup : node.ids.Nodup

section

variable {n : Nat} {call : Node} {id : NodeId}

theorem quiet_of_not_mem {node : Node} (h : id ∉ node.ids) :
    (watchEval n node).Tells (Event.Quiet id) := by
  refine (watchEval_tells n node).mono fun event he => ⟨?_, he.2⟩
  rintro rfl
  exact h he.1

theorem quiet_on {node : Node} (h : id ∉ node.ids) :
    (Watched.Tells.agreement (Event.Quiet id)).OnExpressions (watching n) (watching n) node :=
  fun _ hw => quiet_of_not_mem fun hm => h (hw.ids_subset hm)

variable (hc : call.isKind .call) (hid : call.id? = some id)

include hid in
theorem Hosts.mem_ids {node : Node} (h : Hosts call node) : id ∈ node.ids :=
  h.eager.within.ids_subset (Node.id?_mem_ids hid)

theorem Hosts.part {info : Info} {shape : Shape Node} {part : Node} (hp : part ∈ shape.eager)
    (he : call.Eager part) (hr : (Node.mk info shape).Regular)
    (hn : (Node.mk info shape).ids.Nodup) : Hosts call part where
  eager := he
  regular := hr.part part (Shape.eager_subset _ hp)
  nodup := Node.Within.nodup (.part (Shape.eager_subset _ hp) .self) hn

include hc in
theorem Hosts.unwrapped {node : Node} (h : Hosts call node) : Hosts call node.unwrapped where
  eager := h.eager.unwrapped hc
  regular := h.regular.within (Node.unwrapped_within node)
  nodup := (Node.unwrapped_within node).nodup h.nodup

variable (ih : ∀ node, Hosts call node → (watchEval n node).Asks id)
include hid ih

theorem asks_evalAll {nodes : List Node} {node : Node} (hm : node ∈ nodes) (hh : Hosts call node)
    (hn : (nodes.flatMap Node.ids).Nodup) : (evalAll (watching n) nodes).Asks id := by
  have hloop : ∀ done, Watched.Asks id (List.mapM.loop (watching n).eval nodes done) := by
    induction nodes with
    | nil => cases hm
    | cons first rest ihn =>
      intro done
      rw [List.flatMap_cons, List.nodup_append'] at hn
      obtain rfl | hm := List.mem_cons.mp hm
      · refine .bind_left (ih _ hh) fun value => ?_
        refine Agreement.mapM_loop (C := Watched.Tells.agreement _) (g := (watching n).eval) _ ?_
        intro other ho
        exact quiet_of_not_mem fun hi =>
          hn.2.2 (hh.mem_ids hid) (List.mem_flatMap.mpr ⟨other, ho, hi⟩)
      · refine .bind_right (quiet_of_not_mem fun hi => ?_) fun _ _ _ _ => ihn hm hn.2.1 _
        exact hn.2.2 hi (List.mem_flatMap.mpr ⟨node, hm, hh.mem_ids hid⟩)
  exact hloop []

theorem asks_evalMember {info : Info} {isComputed : Bool} {object key part : Node}
    (hp : part ∈ (Shape.access isComputed object key).eager) (hh : Hosts call part)
    (hn : (Node.mk info (.access isComputed object key)).ids.Nodup) :
    (evalMember (watching n) (.mk info (.access isComputed object key))).Asks id := by
  simp only [Node.ids_mk, Shape.parts, List.nodup_cons, List.flatMap_cons, List.flatMap_nil,
    List.append_nil, List.nodup_append'] at hn
  obtain ⟨-, -, -, hdisjoint⟩ := hn
  have hmem := hh.mem_ids hid
  cases isComputed with
  | false =>
    obtain rfl := List.mem_singleton.mp hp
    exact .bind_left (ih _ hh) fun _ => .bind (.lift _) fun _ => .pure _
  | true =>
    simp only [Shape.eager, if_true, List.mem_cons, List.not_mem_nil, or_false] at hp
    obtain rfl | rfl := hp
    · refine .bind_left (ih _ hh) fun value => .bind ?_ fun _ => .bind (.lift _) fun _ => .pure _
      exact quiet_of_not_mem fun hi => hdisjoint hmem hi
    · refine .bind_right (quiet_of_not_mem fun hi => hdisjoint hi hmem) fun _ value _ _ => ?_
      exact .bind_left (ih _ hh) fun _ => .bind (.lift _) fun _ => .pure _

include hc

theorem asks_evalReference {node : Node} (hh : Hosts call node) :
    (evalReference (watching n) node).Asks id := by
  obtain ⟨heager, hregular, hnodup⟩ := hh.unwrapped hc
  simp only [evalReference]
  generalize node.unwrapped = target at heager hregular hnodup
  cases heager with
  | self =>
    have hk : call.kind? = some .call := by simpa [Node.isKind] using hc
    simp only [hk]
    exact .unsupported _
  | @part info shape part hp he =>
    cases shape with
    | access isComputed object key =>
      have hmember := asks_evalMember hid ih hp (.part hp he hregular hnodup) hnodup
      cases isComputed with
      | false => exact .bind_left hmember fun _ => .pure _
      | true => exact .bind_left hmember fun _ => .pure _
    | unary isTrailing operator operand => cases isTrailing <;> exact .unsupported _
    | call isNew callee isListed arguments => cases isNew <;> exact .unsupported _
    | collection isObject elements => cases isObject <;> exact .unsupported _
    | binary | property | parenthesized => exact .unsupported _
    | _ => cases hp

theorem asks_member {node : Node} (hh : Hosts call node) (hm : isMember node) :
    (evalMember (watching n) node).Asks id := by
  obtain ⟨heager, hregular, hnodup⟩ := hh
  cases heager with
  | self =>
    have hk : call.kind? = some .call := by simpa [Node.isKind] using hc
    simp [isMember, Node.isKind, hk] at hm
  | @part info shape part hp he =>
    cases shape with
    | access isComputed object key =>
      exact asks_evalMember hid ih hp (.part hp he hregular hnodup) hnodup
    | unary isTrailing operator operand => cases isTrailing <;> cases hm
    | call isNew callee isListed arguments => cases isNew <;> cases hm
    | collection isObject elements => cases isObject <;> cases hm
    | binary | property | parenthesized => cases hm
    | _ => cases hp

theorem asks_evalCall {callee part : Node} {arguments : List Node}
    (hp : part ∈ callee :: arguments) (hh : Hosts call part)
    (hn : ((callee :: arguments).flatMap Node.ids).Nodup) :
    (evalCall (watching n) callee arguments).Asks id := by
  rw [List.flatMap_cons, List.nodup_append'] at hn
  simp only [evalCall]
  obtain rfl | hp := List.mem_cons.mp hp
  · -- The call is in the callee.
    have harguments : (evalAll (watching n) arguments).Tells (Event.Quiet id) :=
      Agreement.evalAll (C := Watched.Tells.agreement _) (s := watching n) fun node hm =>
        quiet_of_not_mem fun hi =>
          hn.2.2 (hh.mem_ids hid) (List.mem_flatMap.mpr ⟨node, hm, hi⟩)
    split
    · rename_i hmember
      refine .bind_left (asks_member hc hid ih (hh.unwrapped hc) hmember) fun place => ?_
      obtain ⟨object, key⟩ := place
      refine .bind (.lift _) fun method => .bind (.lift _) fun callable => ?_
      cases callable with
      | none => exact .bind (.lift _) fun _ => .lift _
      | some _ => exact .bind harguments fun _ => .lift _
    · exact .bind_left (ih _ hh) fun function => .bind harguments fun _ => .lift _
  · -- The call is in an argument.
    have hcallee : id ∉ callee.ids := fun hi =>
      hn.2.2 hi (List.mem_flatMap.mpr ⟨part, hp, hh.mem_ids hid⟩)
    have harguments := asks_evalAll hid ih hp hh hn.2.1
    split
    · have hmember : (evalMember (watching n) callee.unwrapped).Tells (Event.Quiet id) :=
        Agreement.evalMember (C := Watched.Tells.agreement _) (s := watching n) fun inner hi =>
          quiet_on hcallee inner ((Node.Within.of_part hi).trans (Node.unwrapped_within _))
      refine .bind_right hmember fun _ place _ _ => ?_
      obtain ⟨object, key⟩ := place
      refine .bind_right (.lift _) fun _ method _ _ => .bind_right (.lift _) fun _ callable _ _ => ?_
      cases callable with
      | none => exact .bind_right (.lift _) fun _ _ _ _ => .raise _ _
      | some _ => exact .bind_left harguments fun _ => .lift _
    · refine .bind_right (quiet_of_not_mem hcallee) fun _ function _ _ => ?_
      exact .bind_left harguments fun _ => .lift _

theorem asks_evalProperties {elements : List Node} {element : Node} {properties : Properties}
    (hm : element ∈ elements) (hh : Hosts call element)
    (hslot : ∀ element ∈ elements, Slot.property.admits element)
    (hn : (elements.flatMap Node.ids).Nodup) :
    (evalProperties (watching n) elements properties).Asks id := by
  induction elements generalizing properties with
  | nil => cases hm
  | cons first rest ihn =>
    rw [List.flatMap_cons, List.nodup_append'] at hn
    obtain rfl | hm := List.mem_cons.mp hm
    · -- The call is in the value of this property.
      have hrest : ∀ properties,
          (evalProperties (watching n) rest properties).Tells (Event.Quiet id) := fun _ =>
        Agreement.evalProperties (C := Watched.Tells.agreement _) (s := watching n)
          fun other ho => quiet_on fun hi =>
            hn.2.2 (hh.mem_ids hid) (List.mem_flatMap.mpr ⟨other, ho, hi⟩)
      have hslot := hslot _ List.mem_cons_self
      obtain ⟨heager, hregular, hnodup⟩ := hh
      cases heager with
      | self => simp [Slot.not_admits_call hc] at hslot
      | @part info shape part hp he =>
        cases shape with
        | property name value =>
          obtain rfl := List.mem_singleton.mp hp
          refine .bind_right (.lift _) fun _ key _ _ => ?_
          rw [if_pos (he.isPresent hc)]
          exact .bind_left (ih _ (.part hp he hregular hnodup)) fun _ => hrest _
        | _ => cases hslot
    · have hfirst : id ∉ first.ids := fun hi =>
        hn.2.2 hi (List.mem_flatMap.mpr ⟨element, hm, hh.mem_ids hid⟩)
      have hrest : ∀ properties, (evalProperties (watching n) rest properties).Asks id := fun _ =>
        ihn hm (fun other ho => hslot other (List.mem_cons_of_mem _ ho)) hn.2.1
      unfold evalProperties
      split
      · contradiction
      · rename_i name value _ heq
        obtain ⟨rfl, rfl⟩ := List.cons.inj heq
        refine .bind_right (.lift _) fun _ key _ _ => .bind_right ?_ fun _ _ _ _ => hrest _
        have hparts := fun part hp => quiet_on (n := n) hfirst part (.part hp .self)
        split
        · exact hparts value (by simp)
        · exact hparts name (by simp)
      · rename_i heq
        obtain ⟨rfl, rfl⟩ := List.cons.inj heq
        exact hrest _

theorem asks_evalLeading {operator : Option Token.Kind} {operand : Node}
    (hh : Hosts call operand) : (evalLeading (watching n) operator operand).Asks id := by
  have hreference := asks_evalReference hc hid ih hh
  unfold evalLeading
  split
  · -- A name alone would not be looked at, but it holds no call.
    have hbound : isUnbound operand.unwrapped = pure false := by
      have hkind : operand.unwrapped.isKind (.token .identifier) = false :=
        (hh.unwrapped hc).eager.not_identifier hc
      simp [isUnbound, hkind]
    refine .bind_right (.lift _) fun m unbound m' ho => ?_
    rw [Watched.outcome_lift, hbound] at ho
    cases ho
    exact .bind_left (ih _ hh) fun value => .bind (.lift _) fun _ => .pure _
  · exact .bind_left hreference fun _ => .bind (.lift _) fun _ => .pure _
  · exact .bind_left hreference fun _ => .bind (.lift _) fun _ => .pure _
  · exact .bind_left (ih _ hh) fun _ => .lift _

theorem asks_evalBinary_left {left right : Node} {operator : Option Token.Kind}
    (hh : Hosts call left) (hr : id ∉ right.ids) :
    (evalBinary (watching n) left operator right).Asks id := by
  have hleft := ih left hh
  have hreference := asks_evalReference hc hid ih hh
  have hright := quiet_of_not_mem (n := n) hr
  unfold evalBinary
  split
  · refine .bind_left hleft fun value => ?_
    split
    · exact hright
    · exact .pure _
  · refine .bind_left hleft fun value => ?_
    split
    · exact .pure _
    · exact hright
  · refine .bind_left hleft fun value => ?_
    split
    · exact hright
    · exact .pure _
  · exact .bind_left hleft fun _ => hright
  · exact .bind_left hreference fun _ => .bind hright fun _ => .bind (.lift _) fun _ => .pure _
  · split
    · refine .bind_left hreference fun _ => .bind (.lift _) fun _ => .bind hright fun _ => ?_
      exact .bind (.lift _) fun _ => .bind (.lift _) fun _ => .pure _
    · exact .bind_left hleft fun _ => .bind hright fun _ => .lift _

omit hc hid in
theorem asks_evalBinary_right {left right : Node} {operator : Option Token.Kind}
    (hl : id ∉ left.ids) (hh : Hosts call right) (hop : operator.any Token.Kind.isLogical = false) :
    (evalBinary (watching n) left operator right).Asks id := by
  have hleft := quiet_of_not_mem (n := n) hl
  have hreference : (evalReference (watching n) left).Tells (Event.Quiet id) :=
    Agreement.evalReference (s := watching n) (quiet_on hl)
  have hright := ih right hh
  unfold evalBinary
  split
  · cases hop
  · cases hop
  · cases hop
  · exact .bind_right hleft fun _ _ _ _ => hright
  · refine .bind_right hreference fun _ _ _ _ => .bind_left hright fun _ => ?_
    exact .bind (.lift _) fun _ => .pure _
  · split
    · refine .bind_right hreference fun _ _ _ _ => .bind_right (.lift _) fun _ _ _ _ => ?_
      refine .bind_left hright fun _ => .bind (.lift _) fun _ => ?_
      exact .bind (.lift _) fun _ => .pure _
    · exact .bind_right hleft fun _ _ _ _ => .bind_left hright fun _ => .lift _

theorem asks_evalStep {info : Info} {shape : Shape Node} {part : Node} (hp : part ∈ shape.eager)
    (he : call.Eager part) (hr : (Node.mk info shape).Regular)
    (hn : (Node.mk info shape).ids.Nodup) : (evalStep (watching n) (.mk info shape)).Asks id := by
  have hh : Hosts call part := .part hp he hr hn
  have hparts : (shape.parts.flatMap Node.ids).Nodup := by
    rw [Node.ids_mk, List.nodup_cons] at hn
    exact hn.2
  cases shape with
  | binary left operator right =>
    simp only [Shape.parts, List.flatMap_cons, List.flatMap_nil, List.append_nil,
      List.nodup_append'] at hparts
    obtain ⟨-, -, hdisjoint⟩ := hparts
    have hmem := hh.mem_ids hid
    by_cases hop : operator.any Token.Kind.isLogical
    · simp only [Shape.eager, hop, if_true, List.mem_singleton] at hp
      subst hp
      exact asks_evalBinary_left hc hid ih hh fun hi => hdisjoint hmem hi
    · rw [Shape.eager, if_neg hop, List.mem_cons, List.mem_singleton] at hp
      obtain rfl | rfl := hp
      · exact asks_evalBinary_left hc hid ih hh fun hi => hdisjoint hmem hi
      · exact asks_evalBinary_right ih (fun hi => hdisjoint hi hmem) hh (by simpa using hop)
  | unary isTrailing operator operand =>
    obtain rfl := List.mem_singleton.mp hp
    cases isTrailing with
    | false => exact asks_evalLeading hc hid ih hh
    | true =>
      exact .bind_left (asks_evalReference hc hid ih hh) fun _ => .bind (.lift _) fun _ => .pure _
  | call isNew callee isListed arguments =>
    cases isNew with
    | false => exact asks_evalCall hc hid ih hp hh hparts
    | true =>
      have hconstruct : ∀ function args,
          (construct (watching n) function args).Tells (Event.Quiet id) := fun _ _ =>
        Agreement.construct (C := Watched.Tells.agreement _) (s := watching n) fun _ => .lift _
      simp only [Shape.parts, List.flatMap_cons, List.nodup_append'] at hparts
      obtain ⟨-, harguments, hdisjoint⟩ := hparts
      obtain rfl | hp := List.mem_cons.mp hp
      · refine .bind_left (ih _ hh) fun function => .bind ?_ fun args => hconstruct _ _
        refine Agreement.evalAll (C := Watched.Tells.agreement _) (s := watching n) ?_
        intro node hm
        exact quiet_of_not_mem fun hi =>
          hdisjoint (hh.mem_ids hid) (List.mem_flatMap.mpr ⟨node, hm, hi⟩)
      · refine .bind_right (quiet_of_not_mem fun hi => ?_) fun _ function _ _ => ?_
        · exact hdisjoint hi (List.mem_flatMap.mpr ⟨part, hp, hh.mem_ids hid⟩)
        · exact .bind_left (asks_evalAll hid ih hp hh harguments) fun args => hconstruct _ _
  | access isComputed object key =>
    exact .bind_left (asks_evalMember hid ih hp hh hn) fun _ => .lift _
  | collection isObject elements =>
    cases isObject with
    | false => exact .bind_left (asks_evalAll hid ih hp hh hparts) fun _ => .lift _
    | true =>
      refine .bind_left (asks_evalProperties hc hid ih hp hh ?_ hparts) fun _ => .lift _
      exact fun element hm => hr.placed (.property, element) (List.mem_map.mpr ⟨element, hm, rfl⟩)
  | parenthesized expression =>
    obtain rfl := List.mem_singleton.mp hp
    exact ih _ hh
  | property name value => exact .unsupported _
  | _ => cases hp

end

theorem not_asked_below {n : Nat} {info : Info} {shape : Shape Node} {m : Machine} {event : Event}
    (hn : (Node.mk info shape).ids.Nodup)
    (he : event ∈ (evalStep (watching n) (.mk info shape)).events m) : event.subject ≠ info.id := by
  rintro heq
  obtain ⟨part, hp, hids, -⟩ := evalStep_tells n _ m event he
  rw [Node.ids_mk, List.nodup_cons] at hn
  exact hn.1 (List.mem_flatMap.mpr ⟨part, hp, heq ▸ hids⟩)

/-- The evaluation of an expression that hosts a call asks for the call exactly once. -/
theorem asks_watchEval {call node : Node} {id : NodeId} (hc : call.isKind .call)
    (hid : call.id? = some id) (n : Nat) (hh : Hosts call node) : (watchEval n node).Asks id := by
  induction n generalizing node with
  | zero => exact .stopped nofun
  | succ n ih =>
    obtain ⟨heager, hregular, hnodup⟩ := hh
    cases heager with
    | self =>
      cases call with
      | absent => cases hid
      | mk info shape =>
        cases hid
        intro m value m' ho
        cases hstep : (evalStep (watching n) (.mk info shape)).outcome m with
        | ok a m₁ =>
          refine ⟨[], (evalStep (watching n) (.mk info shape)).events m, [], ?_, ?_, ?_⟩
          · simp [Watched.events, watchEval_ok hstep]
          · intro h
            simp only [List.nil_append, List.append_nil] at h
            exact not_asked_below hnodup h rfl
          · intro event he
            obtain ⟨part, -, -, hran⟩ := evalStep_tells n _ m event he
            exact hran
        | error stop m₁ => simp [Watched.outcome, watchEval_error hstep] at ho
    | @part info shape part hp he =>
      have hother : ∀ other, (Node.mk info shape).id? = some other → other ≠ id := by
        rintro other ho rfl
        cases ho
        rw [Node.ids_mk, List.nodup_cons] at hnodup
        exact hnodup.1 (List.mem_flatMap.mpr ⟨part, Shape.eager_subset _ hp,
          he.within.ids_subset (Node.id?_mem_ids hid)⟩)
      refine .bind_right (.tell fun other ho => ⟨?_, rfl⟩) fun _ _ _ _ => ?_
      · simpa using hother other ho
      · refine .bind_left (asks_evalStep hc hid (fun _ => ih) hp he hregular hnodup) fun value => ?_
        exact .bind (.tell fun other ho => ⟨by simp, rfl⟩) fun _ => .pure _

theorem ok_of_answered {n : Nat} {node : Node} {id : NodeId} {m : Machine}
    (hid : node.id? = some id) (hn : node.ids.Nodup)
    (ha : .answered id ∈ (watchEval n node).events m) :
    ∃ value m', (watchEval n node).outcome m = .ok value m' := by
  cases node with
  | absent => cases hid
  | mk info shape =>
    cases hid
    cases n with
    | zero => cases ha
    | succ n =>
      cases hstep : (evalStep (watching n) (.mk info shape)).outcome m with
      | ok value m' => exact ⟨value, m', by rw [Watched.outcome, watchEval_ok hstep]⟩
      | error stop m' =>
        rw [Watched.events, watchEval_error hstep] at ha
        obtain ha | ha := List.mem_cons.mp ha
        · cases ha
        · exact absurd rfl (not_asked_below hn ha)

end Machine

namespace Tree.Node

def initialValues : Node → List Node
  | .mk _ (.variables false declarations) =>
    declarations.flatMap fun
      | .mk _ (.variable _ value) => [value]
      | _ => []
  | _ => []

def headers : Node → List Node
  | .mk _ (.evaluate expression) => [expression]
  | .mk _ (.exit _ value) => [value]
  | .mk _ (.branch condition _ _) => [condition]
  | .mk _ (.loop .for initializer _ _ _) =>
    if initializer.isKind .variableList then initializer.initialValues else [initializer]
  | .mk _ (.variables true lists) => lists.flatMap initialValues
  | _ => []

theorem Within.of_initialValues {value list : Node} (h : value ∈ list.initialValues) :
    Within value list := by
  unfold initialValues at h
  split at h
  · obtain ⟨declaration, hd, h⟩ := List.mem_flatMap.mp h
    split at h
    · obtain rfl := List.mem_singleton.mp h
      exact .part hd (.of_part (by simp [parts]))
    · cases h
  · cases h

theorem Within.of_headers {header statement : Node} (h : header ∈ statement.headers) :
    Within header statement := by
  unfold headers at h
  split at h
  · obtain rfl := List.mem_singleton.mp h
    exact .of_part (by simp [parts])
  · obtain rfl := List.mem_singleton.mp h
    exact .of_part (by simp [parts])
  · obtain rfl := List.mem_singleton.mp h
    exact .of_part (by simp [parts])
  · split at h
    · exact .part (by simp) (.of_initialValues h)
    · obtain rfl := List.mem_singleton.mp h
      exact .of_part (by simp [parts])
  · obtain ⟨list, hl, h⟩ := List.mem_flatMap.mp h
    exact .part hl (.of_initialValues h)
  · cases h

end Tree.Node

namespace Machine

/-- If an expression has a value, a node in it was evaluated once. -/
def Watched.Settles {α : Type} (header id : NodeId) (x : Watched α) : Prop :=
  ∀ m, .answered header ∈ x.events m → EvaluatedOnce id (x.events m)

/-- Events about nodes outside a node, none of them the begin of a statement. -/
def Event.Away (node : Node) (event : Event) : Prop :=
  event.subject ∉ node.ids ∧ event.isRan = false

section

variable {α β : Type} {header : Node} {hid id : NodeId} (hheader : header.id? = some hid)
  (hmem : id ∈ header.ids)

namespace Watched.Settles

variable {x : Watched α} {f : α → Watched β}

include hheader hmem in
theorem bind_left (hx : x.Settles hid id) (hf : ∀ a, (f a).Tells (·.subject ∉ header.ids)) :
    (x >>= f).Settles hid id := by
  intro m ha
  cases hox : x.outcome m with
  | ok a m' =>
    rw [events_bind_ok hox] at ha ⊢
    obtain ha | ha := List.mem_append.mp ha
    · exact (hx m ha).append_right fun h => hf a m' _ h hmem
    · exact absurd (Node.id?_mem_ids hheader) (hf a m' _ ha)
  | error stop m' =>
    rw [events_bind_error hox] at ha ⊢
    exact hx m ha

include hheader hmem in
theorem bind_right (hx : x.Tells (Event.Away header)) (hf : ∀ a, (f a).Settles hid id) :
    (x >>= f).Settles hid id := by
  intro m ha
  have hnot : .answered hid ∉ x.events m := fun h => (hx m _ h).1 (Node.id?_mem_ids hheader)
  cases hox : x.outcome m with
  | ok a m' =>
    rw [events_bind_ok hox] at ha ⊢
    obtain ha | ha := List.mem_append.mp ha
    · exact absurd ha hnot
    · exact (hf a m' ha).append_left (fun h => (hx m _ h).1 hmem) fun event he => (hx m event he).2
  | error stop m' =>
    rw [events_bind_error hox] at ha
    exact absurd ha hnot

theorem inBlock (hx : x.Settles hid id) : (Stepping.inBlock x).Settles hid id :=
  fun _ ha => hx _ ha

end Watched.Settles

variable {n : Nat} {node : Node}

theorem away_on (h : List.Disjoint node.ids header.ids) :
    (Watched.Tells.agreement (Event.Away header)).OnExpressions (watching n) (watching n) node :=
  fun inner hw => (watchEval_tells n inner).mono fun _ he =>
    ⟨fun hi => h (hw.ids_subset he.1) hi, he.2⟩

theorem outside_on (h : List.Disjoint node.ids header.ids) :
    (Watched.Tells.agreement (·.subject ∉ header.ids)).OnExpressions (watching n) (watching n) node :=
  fun inner hw => (away_on h inner hw).mono fun _ he => he.1

theorem outside_exec (h : List.Disjoint node.ids header.ids) :
    (watchExec n node).Tells (·.subject ∉ header.ids) :=
  (watchExec_tells n node).mono fun _ he hi => h he hi

variable {call : Node} (hc : call.isKind .call) (hcall : call.id? = some id)
  (hh : Hosts call header)
include hheader hc hcall hh

theorem settles_watchEval : (watchEval n header).Settles hid id := by
  intro m ha
  obtain ⟨value, m', ho⟩ := ok_of_answered hheader hh.nodup ha
  exact asks_watchEval hc hcall n hh m value m' ho

theorem settles_declareVariables {flags : Flags} {declarations : List Node} {info : Info}
    {name : Node} (hm : .mk info (.variable name header) ∈ declarations)
    (hn : (declarations.flatMap Node.ids).Nodup) :
    (declareVariables (watching n) flags declarations).Settles hid id := by
  have hmem := hh.mem_ids hcall
  have hsub : header.ids ⊆ (Node.mk info (.variable name header)).ids :=
    Node.Within.ids_subset (.of_part (by simp [Node.parts]))
  induction declarations with
  | nil => cases hm
  | cons first rest ih =>
    rw [List.flatMap_cons, List.nodup_append'] at hn
    obtain ⟨-, hrest, hdisjoint⟩ := hn
    obtain rfl | hm := List.mem_cons.mp hm
    · -- The value of this variable holds the call.
      have hafter : (declareVariables (watching n) flags rest).Tells (·.subject ∉ header.ids) := by
        refine Agreement.declareVariables (C := Watched.Tells.agreement _) (s := watching n)
          (fun other ho => ?_) fun _ _ _ _ _ _ _ => trivial
        refine outside_on fun i hi hi' => ?_
        exact hdisjoint (hsub hi') (List.mem_flatMap.mpr ⟨other, ho, hi⟩)
      have hvalue := settles_watchEval (n := n) hheader hc hcall hh
      unfold declareVariables
      split
      · split
        · exact .bind_left hheader hmem hvalue fun _ => .bind (.lift _) fun _ => hafter
        · rw [if_pos (hh.eager.isPresent hc)]
          exact .bind_left hheader hmem (.bind_left hheader hmem hvalue fun _ => .lift _)
            fun _ => hafter
      · exact fun _ ha => absurd ha List.not_mem_nil
    · have ih := ih hm hrest
      have haway : List.Disjoint first.ids header.ids := fun i hi hi' =>
        hdisjoint hi (List.mem_flatMap.mpr ⟨_, hm, hsub hi'⟩)
      unfold declareVariables
      split
      · contradiction
      · rename_i other value _ heq
        obtain ⟨rfl, rfl⟩ := List.cons.inj heq
        have hvalue := away_on (n := n) haway value (.part (by simp) .self)
        split
        · split
          · exact .bind_right hheader hmem hvalue fun _ => .bind_right hheader hmem (.lift _) fun _ => ih
          · split
            · exact .bind_right hheader hmem (.bind hvalue fun _ => .lift _) fun _ => ih
            · exact ih
        · exact fun _ ha => absurd ha List.not_mem_nil
      · rename_i heq
        obtain ⟨rfl, rfl⟩ := List.cons.inj heq
        exact ih

theorem settles_declareList {list : Node} (hm : header ∈ list.initialValues)
    (hn : list.ids.Nodup) : (declareList (watching n) list).Settles hid id := by
  unfold Node.initialValues at hm
  split at hm
  · rename_i info declarations
    obtain ⟨declaration, hd, hm⟩ := List.mem_flatMap.mp hm
    split at hm
    · obtain rfl := List.mem_singleton.mp hm
      rw [Node.ids_mk, List.nodup_cons] at hn
      exact settles_declareVariables hheader hc hcall hh hd hn.2
    · cases hm
  · cases hm

theorem settles_lists {lists : List Node} {list : Node} (hl : list ∈ lists)
    (hm : header ∈ list.initialValues) (hn : (lists.flatMap Node.ids).Nodup) :
    Watched.Settles hid id (lists.forM (declareList (watching n))) := by
  have hmem := hh.mem_ids hcall
  have hsub : header.ids ⊆ list.ids := (Node.Within.of_initialValues hm).ids_subset
  induction lists with
  | nil => cases hl
  | cons first rest ih =>
    rw [List.flatMap_cons, List.nodup_append'] at hn
    obtain ⟨hfirst, hrest, hdisjoint⟩ := hn
    obtain rfl | hl := List.mem_cons.mp hl
    · refine .bind_left hheader hmem (settles_declareList hheader hc hcall hh hm hfirst) fun _ => ?_
      refine Agreement.forM (C := Watched.Tells.agreement _) (g := declareList (watching n)) ?_
      intro other ho
      refine Agreement.declareList (outside_on fun i hi hi' => ?_) fun _ _ => trivial
      exact hdisjoint (hsub hi') (List.mem_flatMap.mpr ⟨other, ho, hi⟩)
    · refine .bind_right hheader hmem ?_ fun _ => ih hl hrest
      refine Agreement.declareList (s := watching n) (away_on fun i hi hi' => ?_) fun _ _ => trivial
      exact hdisjoint hi (List.mem_flatMap.mpr ⟨list, hl, hsub hi'⟩)

theorem settles_execStep {statement : Node} (hm : header ∈ statement.headers)
    (hn : statement.ids.Nodup) : (execStep (watching n) statement).Settles hid id := by
  have hmem := hh.mem_ids hcall
  have heval := settles_watchEval (n := n) hheader hc hcall hh
  unfold Node.headers at hm
  split at hm
  · obtain rfl := List.mem_singleton.mp hm
    exact .bind_left hheader hmem heval fun _ => .pure _
  · rename_i isThrow value
    obtain rfl := List.mem_singleton.mp hm
    cases isThrow with
    | false => exact .bind_left hheader hmem heval fun _ => .pure _
    | true => exact .bind_left hheader hmem heval fun _ => .lift _
  · rename_i info condition thenBranch elseBranch
    obtain rfl := List.mem_singleton.mp hm
    simp only [Node.ids_mk, Shape.parts, List.nodup_cons, List.flatMap_cons, List.flatMap_nil,
      List.append_nil, List.nodup_append', List.disjoint_append_right] at hn
    obtain ⟨-, -, -, hthen, helse⟩ := hn
    refine .bind_left hheader hmem heval fun value => ?_
    split
    · exact outside_exec (List.disjoint_symm hthen)
    · exact outside_exec (List.disjoint_symm helse)
  · rename_i info initializer condition update body
    simp only [Node.ids_mk, Shape.parts, List.nodup_cons, List.flatMap_cons, List.flatMap_nil,
      List.append_nil, List.nodup_append', List.disjoint_append_right] at hn
    obtain ⟨-, hinitializer, -, hcondition, hupdate, hbody⟩ := hn
    have hsub : header.ids ⊆ initializer.ids := by
      split at hm
      · exact (Node.Within.of_initialValues hm).ids_subset
      · obtain rfl := List.mem_singleton.mp hm
        exact List.Subset.refl _
    have hafter : ∀ {node : Node}, List.Disjoint initializer.ids node.ids →
        List.Disjoint node.ids header.ids :=
      fun h _ hi hi' => h (hsub hi') hi
    have hturns : (execTurns (watching n) (holds (watching n) condition) body update
        turnBound).Tells (·.subject ∉ header.ids) :=
      Agreement.execTurns turnBound (Agreement.holds (outside_on (hafter hcondition)).self)
        (outside_exec (hafter hbody)) fun _ => (outside_on (hafter hupdate)).self
    refine .inBlock ?_
    unfold execFor
    split
    · rw [if_pos ‹_›] at hm
      exact .bind_left hheader hmem (settles_declareList hheader hc hcall hh hm hinitializer)
        fun _ => hturns
    · rw [if_neg ‹_›] at hm
      obtain rfl := List.mem_singleton.mp hm
      exact .bind_left hheader hmem heval fun _ => hturns
  · rename_i info lists
    obtain ⟨list, hl, hm⟩ := List.mem_flatMap.mp hm
    rw [Node.ids_mk, List.nodup_cons] at hn
    exact .bind_left hheader hmem (settles_lists hheader hc hcall hh hl hm hn.2) fun _ => .pure _
  · cases hm

end

end Machine

end ArrayLoops
