import ArrayLoops.Proofs.Links
import ArrayLoops.Proofs.Reached

/-!
# A parse makes a tree

Whatever the text, the nodes that a parse makes are those of one regular tree, and every part is
linked to its whole. Each production is shown to take the forest made so far to one with one more
tree; a node is made of trees of the forest and takes their place. Along the way each production closes
what it opens and leads to a state that is reached, which holds of states without such a forest, too.
-/

namespace ArrayLoops.Grammar

open ArrayLoops.Tree (Arena Flags Node Shape Slot)

attribute [local simp] Shape.placed

/-- The state is reached with as many constructs open. If `A` holds, its nodes are those of the trees. -/
structure Held (A : Prop) (origin : State) (opened : Nat) (trees : List Node) (s : State) : Prop where
  reached : Reached origin opened s
  forest : A → s.arena.Forest trees
  regular : A → ∀ tree ∈ trees, tree.Regular

/-- The step takes the trees held to those after it, and closes `k` of the constructs that are open
before it. -/
def Triple {β : Type} (A : Prop) (k : Nat) (held : List Node) (p : Parse β) (Q : β → Prop)
    (trees : β → List Node) : Prop :=
  ∀ origin opened s, Held A origin (opened + k) held s →
    (A → Q (p s).1) ∧ Held A origin opened (trees (p s).1) (p s).2

def Adds (A : Prop) (k : Nat) (held : List Node) (slot : Slot) (trees : List Node) (p : Parse Node) :
    Prop :=
  Triple A k held p (slot.admits ·) (· :: trees)

def AddsAll (A : Prop) (held : List Node) (slot : Slot) (trees : List Node) (p : Parse (List Node)) :
    Prop :=
  Triple A 0 held p (∀ node ∈ ·, slot.admits node) (· ++ trees)

/-- A step that has to do with neither nodes nor nesting. -/
structure Idle {α : Type} (p : Parse α) : Prop where
  arena : ∀ s, (p s).2.arena = s.arena
  reached : ∀ {origin opened s}, Reached origin opened s → Reached origin opened (p s).2

def Makes (A : Prop) (slot : Slot) (p : Parse Node) : Prop := ∀ trees, Adds A 0 trees slot trees p

def MakesAll (A : Prop) (slot : Slot) (p : Parse (List Node)) : Prop :=
  ∀ trees, AddsAll A trees slot trees p

def Goal.slot : Goal → Slot
  | .statement => .statement
  | .block => .body
  | .expression | .assignment | .binary _ | .unary | .new => .expression

attribute [local simp] Goal.slot

variable {α β : Type} {A : Prop} {k opened : Nat} {origin s : State} {held trees : List Node} {slot : Slot}
  {Q : β → Prop} {after : β → List Node}

theorem Held.perm {others : List Node} (h : Held A origin opened trees s) (hp : trees.Perm others) :
    Held A origin opened others s :=
  ⟨h.reached, fun a => (h.forest a).perm hp, fun a tree ht => h.regular a tree (hp.mem_iff.mpr ht)⟩

theorem Held.absent (h : Held A origin opened trees s) : Held A origin opened (.absent :: trees) s where
  reached := h.reached
  forest a := {
    sizes := (h.forest a).sizes
    ids := (h.forest a).ids
    known := by
      rintro tree (_ | ⟨_, ht⟩)
      · exact .absent
      · exact (h.forest a).known tree ht
    loose := by
      rintro tree (_ | ⟨_, ht⟩)
      · simp
      · exact (h.forest a).loose tree ht }
  regular a := by
    rintro tree (_ | ⟨_, ht⟩)
    · exact .absent
    · exact h.regular a tree ht

theorem Held.of_absent (h : Held A origin opened (.absent :: trees) s) : Held A origin opened trees s where
  reached := h.reached
  forest a := {
    sizes := (h.forest a).sizes
    ids := (h.forest a).ids
    known := fun tree ht => (h.forest a).known tree (List.mem_cons_of_mem _ ht)
    loose := fun tree ht => (h.forest a).loose tree (List.mem_cons_of_mem _ ht) }
  regular a := fun tree ht => h.regular a tree (List.mem_cons_of_mem _ ht)

theorem arena_complain (s : State) (fault : Fault) : (s.complain fault).arena = s.arena := by
  simp only [State.complain]
  split <;> rfl

namespace Triple

theorem idle {p : Parse α} {f : α → Parse β} (hp : Idle p) (hf : ∀ a, Triple A k held (f a) Q after) :
    Triple A k held (p >>= f) Q after := by
  intro origin opened s h
  refine hf (p s).1 origin opened (p s).2 ⟨hp.reached h.reached, fun a => ?_, h.regular⟩
  rw [hp.arena s]
  exact h.forest a

theorem bind_made {p : Parse Node} {f : Node → Parse β} (hp : Adds A 0 held slot trees p)
    (hf : ∀ node, (A → slot.admits node) → Triple A k (node :: trees) (f node) Q after) :
    Triple A k held (p >>= f) Q after := by
  intro origin opened s h
  obtain ⟨hslot, hheld⟩ := hp origin (opened + k) s h
  exact hf (p s).1 hslot origin opened (p s).2 hheld

theorem bind_makes {p : Parse Node} {f : Node → Parse β} (hp : Makes A slot p)
    (hf : ∀ node, (A → slot.admits node) → Triple A k (node :: held) (f node) Q after) :
    Triple A k held (p >>= f) Q after := .bind_made (hp held) hf

theorem bind_all {p : Parse (List Node)} {f : List Node → Parse β} (hp : MakesAll A slot p)
    (hf : ∀ nodes, (A → ∀ node ∈ nodes, slot.admits node) → Triple A k (nodes ++ held) (f nodes) Q after) :
    Triple A k held (p >>= f) Q after := by
  intro origin opened s h
  obtain ⟨hslot, hheld⟩ := hp held origin (opened + k) s h
  exact hf (p s).1 hslot origin opened (p s).2 hheld

theorem perm {p : Parse β} (hp : held.Perm trees) (h : Triple A k trees p Q after) :
    Triple A k held p Q after :=
  fun origin opened s hs => h origin opened s (hs.perm hp)

theorem absent {p : Parse β} (h : Triple A k (.absent :: held) p Q after) : Triple A k held p Q after :=
  fun origin opened s hs => h origin opened s hs.absent

theorem ite {p q : Parse β} {c : Prop} [Decidable c] (hp : Triple A k held p Q after)
    (hq : Triple A k held q Q after) : Triple A k held (if c then p else q) Q after := by
  split
  · exact hp
  · exact hq

theorem enter {f : Bool → Parse β} (hyes : Triple A (k + 1) held (f true) Q after)
    (hno : Triple A k held (f false) Q after) : Triple A k held (Grammar.enter >>= f) Q after := by
  intro origin opened s h
  change (A → Q (f s.enter.1 s.enter.2).1) ∧
    Held A origin opened (after (f s.enter.1 s.enter.2).1) (f s.enter.1 s.enter.2).2
  unfold State.enter
  split
  · exact hno origin opened _ ⟨h.reached.giveUp ‹_›, fun a => arena_complain s _ ▸ h.forest a, h.regular⟩
  · exact hyes origin opened _ ⟨h.reached.enter (Nat.lt_of_not_le ‹_›), h.forest, h.regular⟩

theorem enterThen {p q : Parse β} (hp : Triple A (k + 1) held p Q after)
    (hq : Triple A k held q Q after) :
    Triple A k held (Grammar.enter >>= fun entered => if entered then p else q) Q after :=
  enter hp hq

theorem enterOr {p q : Parse β} (hq : Triple A k held q Q after)
    (hp : Triple A (k + 1) held p Q after) :
    Triple A k held (Grammar.enter >>= fun entered => if !entered then q else p) Q after :=
  enter hp hq

theorem leave {count : Nat} {f : Unit → Parse β} (hf : Triple A 0 held (f ()) Q after) :
    Triple A count held (Grammar.leave count >>= f) Q after :=
  fun origin opened _ h => hf origin opened _ ⟨h.reached.leave, h.forest, h.regular⟩

theorem node {pos : Nat} {shape : Shape Node} {flags : Flags}
    (hplaced : A → ∀ entry ∈ shape.placed flags, entry.1.admits entry.2)
    (hslot : ∀ info, slot.admits (.mk info shape)) (hp : held.Perm (shape.parts ++ trees)) :
    Adds A 0 held slot trees (Grammar.node pos shape flags) := by
  refine .perm hp fun origin opened s h => ⟨fun _ => hslot _, h.reached.withArena _,
    fun a => (h.forest a).add, fun a => ?_⟩
  rintro tree (_ | ⟨_, ht⟩)
  · exact .mk (hplaced a) fun part hpart => h.regular a part (List.mem_append_left _ hpart)
  · exact h.regular a tree (List.mem_append_right _ ht)

theorem pure {node : Node} (h : A → slot.admits node) :
    Adds A 0 (node :: trees) slot trees (Pure.pure node) :=
  fun _ _ _ hheld => ⟨h, hheld⟩

theorem pureAll {nodes : List Node} (h : A → ∀ node ∈ nodes, slot.admits node) :
    AddsAll A (nodes ++ trees) slot trees (Pure.pure nodes) :=
  fun _ _ _ hheld => ⟨h, hheld⟩

theorem reached {p : Parse β} (h : Triple False 0 held p Q after) (s : State) : Reached s 0 (p s).2 :=
  (h s 0 s ⟨.refl, False.elim, False.elim⟩).2.reached

end Triple

theorem Makes.mono {other : Slot} {p : Parse Node} (h : Makes A slot p)
    (hs : ∀ node, slot.admits node → other.admits node) : Makes A other p := by
  intro trees origin opened s hheld
  obtain ⟨hslot, hheld⟩ := h trees origin opened s hheld
  exact ⟨fun a => hs _ (hslot a), hheld⟩

theorem makes_absent : Makes A slot (Pure.pure .absent) :=
  fun _ => .absent (.pure fun _ => Slot.admits_absent slot)

theorem name_expression (node : Node) (h : Slot.name.admits node) :
    Slot.expression.admits node := by
  cases node with
  | absent => rfl
  | mk info shape => cases shape <;> simp_all [Slot.admits, Shape.isExpression]

theorem name_key (node : Node) (h : Slot.name.admits node) : Slot.key.admits node := by
  cases node with
  | absent => rfl
  | mk info shape => cases shape <;> simp_all [Slot.admits]

theorem body_statement (node : Node) (h : Slot.body.admits node) : Slot.statement.admits node := by
  cases node with
  | absent => rfl
  | mk info shape => cases shape <;> simp_all [Slot.admits, Shape.kind, Tree.Kind.isStatement]

theorem expression_start (node : Node) (h : Slot.expression.admits node) :
    Slot.start.admits node := by
  cases node with
  | absent => rfl
  | mk info shape => cases shape <;> simp_all [Slot.admits, Shape.isExpression]

theorem list_start (node : Node) (h : Slot.list.admits node) : Slot.start.admits node := by
  cases node with
  | absent => rfl
  | mk info shape =>
    cases shape with
    | «variables» isStatement _ => cases isStatement <;> simp_all [Slot.admits]
    | _ => simp_all [Slot.admits]

namespace Idle

theorem pure {a : α} : Idle (Pure.pure a) := ⟨fun _ => rfl, id⟩

theorem bind {p : Parse α} {f : α → Parse β} (hp : Idle p) (hf : ∀ a, Idle (f a)) : Idle (p >>= f) :=
  ⟨fun s => ((hf _).arena _).trans (hp.arena s), fun h => (hf _).reached (hp.reached h)⟩

theorem ite {p q : Parse α} {c : Prop} [Decidable c] (hp : Idle p) (hq : Idle q) :
    Idle (if c then p else q) := by
  split
  · exact hp
  · exact hq

theorem read {f : State → α} : Idle (.read f) := ⟨fun _ => rfl, id⟩

theorem advance : Idle Grammar.advance := by
  refine ⟨fun s => ?_, fun h => h.advance⟩
  change s.advance.arena = s.arena
  unfold State.advance
  split <;> rfl

theorem complain {fault : Fault} (hfault : fault ≠ .nestingTooDeep) : Idle (Grammar.complain fault) :=
  ⟨fun s => arena_complain s fault, fun h => h.complain hfault⟩

theorem exhaust : Idle Grammar.exhaust := ⟨fun _ => rfl, fun h => h.exhaust⟩

theorem accept {k : Token.Kind} : Idle (Grammar.accept k) :=
  .bind .read fun _ => .ite (.bind .advance fun _ => .pure) .pure

theorem expectThen {k : Token.Kind} : Idle (Grammar.expect k) :=
  .bind .accept fun _ => .ite .pure (.bind (.complain (by simp)) fun _ => .pure)

theorem expect {k : Token.Kind} : Idle (discard (Grammar.expect k)) :=
  ⟨expectThen.arena, expectThen.reached⟩

theorem accepted {k : Token.Kind} : Idle (discard (Grammar.accept k)) := ⟨accept.arena, accept.reached⟩

theorem endStatement : Idle Grammar.endStatement :=
  .bind .accept fun _ => .ite .pure (.bind .read fun _ => .ite .pure .expect)

end Idle

theorem makes_missing : Makes A .name missing := by
  intro trees origin opened s h
  refine ⟨fun _ => rfl, h.reached.withArena _, fun a => ?_, fun a => ?_⟩
  · have hforest : s.arena.Forest ((Shape.identifier "").parts ++ trees) := h.forest a
    exact hforest.add
  · rintro tree (_ | ⟨_, ht⟩)
    · exact .mk (by simp) (by simp [Shape.parts])
    · exact h.regular a tree ht

theorem makes_missingBecause {fault : Fault} (hfault : fault ≠ .nestingTooDeep) :
    Makes A .name (missingBecause fault) :=
  fun trees => .idle (.complain hfault) fun _ => makes_missing trees

theorem makes_identifierOf {text : Token → String} : Makes A .name (identifierOf text) :=
  fun _ => .idle .read fun _ => .idle .advance fun _ =>
    .node (fun _ => by simp) (fun _ => rfl) (.refl _)

theorem makes_propertyName : Makes A .name propertyName :=
  fun trees => .idle .read fun _ => .ite (makes_identifierOf trees)
    (.idle .read fun _ => .ite (makes_identifierOf trees) (makes_missingBecause (by simp) trees))

theorem makes_bindingName : Makes A .name bindingName := by
  intro trees
  refine .idle .read fun k => ?_
  cases k <;> first | exact makes_identifierOf trees | exact makes_missingBecause (by simp) trees

theorem makes_literal : Makes A .expression literal :=
  fun _ => .idle .read fun _ => .idle .advance fun _ =>
    .node (fun _ => by simp) (fun _ => rfl) (.refl _)

theorem makes_literal_key : Makes A .key literal :=
  fun _ => .idle .read fun _ => .idle .advance fun _ =>
    .node (fun _ => by simp) (fun _ => rfl) (.refl _)

theorem makes_wordExpression : Makes A .expression wordExpression :=
  fun _ => .idle .read fun _ => .idle .advance fun _ =>
    .node (fun _ => by simp) (fun _ => rfl) (.refl _)

theorem admits_cons {node : Node} {nodes : List Node} (hn : A → slot.admits node)
    (h : A → ∀ node ∈ nodes, slot.admits node) : A → ∀ other ∈ node :: nodes, slot.admits other := by
  rintro a other (_ | ⟨_, ho⟩)
  · exact hn a
  · exact h a other ho

theorem adds_reverse {nodes : List Node} (h : A → ∀ node ∈ nodes, slot.admits node) :
    AddsAll A (nodes ++ trees) slot trees (Pure.pure nodes.reverse) :=
  fun _ _ _ hheld => ⟨fun a node hn => h a node (List.mem_reverse.mp hn),
    hheld.perm (nodes.reverse_perm.symm.append_right trees)⟩

theorem adds_itemsOnto {close : Token.Kind} {item : Parse Node} (hitem : Makes A slot item) (n : Nat)
    {nodes : List Node} (h : A → ∀ node ∈ nodes, slot.admits node) :
    AddsAll A (nodes ++ trees) slot trees (itemsOnto close item n nodes) := by
  induction n generalizing nodes with
  | zero => exact .idle .exhaust fun _ => adds_reverse h
  | succ n ih =>
    refine .idle .read fun _ => .ite (adds_reverse h) (.bind_makes hitem fun node hn => ?_)
    have hall := admits_cons hn h
    exact .idle .accept fun _ => .ite (ih hall) (adds_reverse hall)

theorem makesAll_items {close : Token.Kind} {item : Parse Node} (hitem : Makes A slot item) (n : Nat) :
    MakesAll A slot (items n close item) := by
  intro trees
  have hnil : A → ∀ node ∈ ([] : List Node), slot.admits node := by simp
  exact adds_itemsOnto hitem n hnil

theorem adds_elementsOnto {item : Parse Node} (hitem : Makes A slot item) (n : Nat)
    {nodes : List Node} (h : A → ∀ node ∈ nodes, slot.admits node) :
    AddsAll A (nodes ++ trees) slot trees (elementsOnto item n nodes) := by
  induction n generalizing nodes with
  | zero => exact .idle .exhaust fun _ => adds_reverse h
  | succ n ih =>
    refine .idle .read fun k => ?_
    split
    · exact adds_reverse h
    · exact adds_reverse h
    · exact .idle (.complain (by simp)) fun _ => .idle .advance fun _ => ih h
    · refine .bind_makes hitem fun node hn => ?_
      have hall := admits_cons hn h
      exact .idle .accept fun _ => .ite (ih hall) (adds_reverse hall)

theorem Triple.function {pos : Nat} {form : Tree.FunctionForm} {flags : Flags} {name body : Node}
    {parameters : List Node} (hname : A → Slot.name.admits name)
    (hparameters : A → ∀ node ∈ parameters, Slot.parameter.admits node)
    (hbody : A → (if flags.expressionBody then Slot.expression else Slot.body).admits body)
    (hslot : ∀ info, slot.admits (.mk info (.function form name parameters body))) :
    Adds A 0 (body :: (parameters ++ name :: trees)) slot trees
      (Grammar.node pos (.function form name parameters body) flags) := by
  refine .node (fun a => ?_) hslot ?_
  · simp only [Shape.placed, List.cons_append, List.mem_cons, List.mem_append, List.mem_map,
      List.not_mem_nil, or_false]
    rintro entry (rfl | ⟨node, hn, rfl⟩ | rfl)
    · exact hname a
    · exact hparameters a node hn
    · exact hbody a
  · simp only [Shape.parts, List.cons_append, List.append_assoc, List.nil_append]
    exact (List.Perm.cons body List.perm_middle).trans
      ((List.Perm.swap ..).trans (.cons name List.perm_middle.symm))

section
variable {self : Productions} (hself : ∀ goal, Makes A goal.slot (self goal))
include hself

theorem makesAll_argumentList (n : Nat) : MakesAll A .expression (argumentList n self) :=
  fun _ => .idle .expect fun _ =>
    .bind_all (makesAll_items (hself .assignment) n) fun _ h =>
      .idle .expect fun _ => .pureAll h

theorem makes_initializer : Makes A .expression (initializer self) :=
  fun trees => .idle .accept fun _ => .ite (hself .assignment trees) (makes_absent trees)

theorem makes_parameter : Makes A .parameter (parameter self) :=
  fun _ => .idle .read fun _ => .bind_makes makes_bindingName fun name hname =>
    .bind_makes (makes_initializer hself) fun value hvalue =>
      .node (fun _ => by simp_all) (fun _ => rfl) (.swap ..)

theorem makesAll_parameterList (n : Nat) : MakesAll A .parameter (parameterList n self) :=
  fun _ => .idle .expectThen fun _ => .ite
    (.bind_all (makesAll_items (makes_parameter hself) n) fun _ h =>
      .idle .expect fun _ => .pureAll h)
    fun _ _ _ hheld => ⟨fun _ => List.forall_mem_nil _, hheld⟩

theorem makes_parenthesized : Makes A .expression (parenthesized self) :=
  fun _ => .idle .read fun _ => .idle .expect fun _ =>
    .bind_makes (hself .expression) fun expression h => .idle .expect fun _ =>
      .node (fun _ => by simp_all) (fun _ => rfl) (.refl _)

theorem makes_arrayLiteral (n : Nat) : Makes A .expression (arrayLiteral n self) := by
  intro trees
  have hnil : A → ∀ node ∈ ([] : List Node), Slot.expression.admits node := by simp
  have helements : MakesAll A .expression (elementsOnto (self .assignment) n []) :=
    fun trees => adds_elementsOnto (hself .assignment) n hnil
  refine .idle .read fun _ => .idle .expect fun _ =>
    .bind_all helements fun elements h => .idle .expect fun _ => ?_
  exact .node (fun _ => by simp_all) (fun _ => rfl) (.refl _)

theorem makes_property : Makes A .property (property self) := by
  intro trees
  refine .idle .read fun pos => .idle .read fun named =>
    .idle .read fun k => ?_
  have hrest : ∀ name, (A → Slot.key.admits name) →
      Adds A 0 (name :: trees) .property trees (propertyRest self pos named name) := by
    intro name h
    have hbare : Adds A 0 (name :: trees) .property trees (node pos (.property name .absent)) :=
      .absent (.node (fun _ => by simp_all) (fun _ => rfl) (.swap ..))
    refine .idle .accept fun _ => .ite ?_ (.ite hbare ?_)
    · exact .bind_makes (hself .assignment) fun value hvalue =>
        .node (fun _ => by simp_all) (fun _ => rfl) (.swap ..)
    · exact .idle .expect fun _ => hbare
  have hliteral := Triple.bind_makes makes_literal_key hrest
  cases k with
  | string | number => exact hliteral
  | _ =>
    exact .ite (.bind_makes (makes_propertyName.mono name_key) hrest)
      (.bind_makes ((makes_missingBecause (by simp)).mono name_key) hrest)

theorem makes_objectLiteral (n : Nat) : Makes A .expression (objectLiteral n self) :=
  fun _ => .idle .read fun _ => .idle .expect fun _ =>
    .bind_all (makesAll_items (makes_property hself) n) fun properties h =>
      .idle .expect fun _ =>
        .node (fun _ => by simp_all) (fun _ => rfl) (.refl _)

theorem makes_functionExpression (n : Nat) : Makes A .expression (functionExpression n self) := by
  intro trees
  refine .idle .read fun pos => .idle .expect fun _ =>
    .idle .read fun _ => ?_
  have hrest : ∀ name, (A → Slot.name.admits name) →
      Adds A 0 (name :: trees) .expression trees (functionRest .expression n self pos name) := by
    intro name hname
    exact .bind_all (makesAll_parameterList hself n) fun parameters hparameters =>
      .bind_makes (hself .block) fun body hbody =>
        .function hname hparameters hbody fun _ => rfl
  exact .ite (.bind_makes makes_identifierOf hrest) (.bind_makes makes_absent hrest)

theorem makes_primary (n : Nat) : Makes A .expression (primary n self) := by
  intro trees
  refine .idle .read fun k => ?_
  split
  · exact (makes_identifierOf.mono name_expression) trees
  · exact makes_wordExpression trees
  · exact makes_wordExpression trees
  · exact makes_wordExpression trees
  · exact makes_wordExpression trees
  · exact makes_literal trees
  · exact makes_literal trees
  · exact makes_parenthesized hself trees
  · exact makes_arrayLiteral hself n trees
  · exact makes_objectLiteral hself n trees
  · exact makes_functionExpression hself n trees
  · exact ((makes_missingBecause (by simp)).mono name_expression) trees

theorem adds_memberRest {calls : Bool} {pos links : Nat} {object : Node} (n : Nat) (trees : List Node)
    (h : A → Slot.expression.admits object) :
    Adds A links (object :: trees) .expression trees (memberRest calls self pos n links object) := by
  induction n generalizing links object with
  | zero => exact .idle .exhaust fun _ => .leave (.pure h)
  | succ n ih =>
    have hend : Adds A links (object :: trees) .expression trees (do
        leave links
        return object) := .leave (.pure h)
    refine .idle .read fun k => ?_
    refine .ite hend (.enterOr hend ?_)
    -- Each link makes an expression out of the one before it.
    have hdot : Adds A 0 (object :: trees) .expression trees (do
        advance
        let name ← propertyName
        node pos (.access false object name)) :=
      .idle .advance fun _ => .bind_makes makes_propertyName fun name hname =>
        .node (fun _ => by simp_all) (fun _ => rfl) (.swap ..)
    have hcomputed : Adds A 0 (object :: trees) .expression trees (do
        advance
        let key ← self .expression
        discard (expect .closeBracket)
        node pos (.access true object key)) :=
      .idle .advance fun _ => .bind_makes (hself .expression) fun key hkey =>
        .idle .expect fun _ =>
          .node (fun _ => by simp_all) (fun _ => rfl) (.swap ..)
    have hcall : Adds A 0 (object :: trees) .expression trees (do
        let arguments ← argumentList n self
        node pos (.call false object true arguments)) :=
      .bind_all (makesAll_argumentList hself n) fun arguments harguments =>
        .node (fun _ => by simp_all) (fun _ => rfl) List.perm_middle
    cases k with
    | dot => exact .bind_made hdot fun _ => ih
    | openBracket => exact .bind_made hcomputed fun _ => ih
    | _ => exact .bind_made hcall fun _ => ih

theorem makes_memberHead (n : Nat) : Makes A .expression (memberHead n self) :=
  fun trees => .idle .read fun _ => .ite (hself .new trees) (makes_primary hself n trees)

theorem makes_newExpression (n : Nat) : Makes A .expression (newExpression n self) := by
  intro trees
  refine .idle .read fun pos => .idle .expect fun _ =>
    .idle .read fun calleePos => .bind_makes (makes_memberHead hself n) fun head hhead =>
      .bind_made (adds_memberRest hself n _ hhead) fun callee hcallee =>
        .idle .read fun _ => ?_
  refine .ite ?_ ?_
  · exact .bind_all (makesAll_argumentList hself n) fun arguments harguments =>
      .node (fun _ => by simp_all) (fun _ => rfl) List.perm_middle
  · exact .node (fun _ => by simp_all) (fun _ => rfl) (.refl _)

theorem makes_trailing (n : Nat) : Makes A .expression (trailing n self) := by
  intro trees
  refine .idle .read fun pos => .bind_makes (makes_memberHead hself n) fun head hhead =>
    .bind_made (adds_memberRest hself n _ hhead) fun operand hoperand =>
      .idle .read fun token => .ite ?_ (.pure hoperand)
  exact .idle .advance fun _ =>
    .node (fun _ => by simp_all) (fun _ => rfl) (.refl _)

theorem makes_unary (n : Nat) : Makes A .expression (unary n self) := by
  intro trees
  refine .idle .read fun token => .ite (.enterThen ?_ ?_) ?_
  · exact .idle .advance fun _ => .bind_makes (hself .unary) fun operand h =>
      .leave (.node (fun _ => by simp_all) (fun _ => rfl) (.refl _))
  · exact (makes_missing.mono name_expression) trees
  · exact makes_trailing hself n trees

theorem adds_binaryRest {least pos links : Nat} {left : Node} (n : Nat) (trees : List Node)
    (h : A → Slot.expression.admits left) :
    Adds A links (left :: trees) .expression trees (binaryRest least self pos n links left) := by
  induction n generalizing links left with
  | zero => exact .idle .exhaust fun _ => .leave (.pure h)
  | succ n ih =>
    have hend : Adds A links (left :: trees) .expression trees (do
        leave links
        return left) := .leave (.pure h)
    refine .idle .read fun operator => .ite hend (.enterOr hend ?_)
    refine .idle .advance fun _ => .bind_makes (hself (.binary _)) fun right hright => ?_
    have hnode : Adds A 0 (right :: left :: trees) .expression trees (node pos (.binary left operator right)) :=
      .node (fun _ => by simp_all) (fun _ => rfl) (.swap ..)
    exact .bind_made hnode fun _ => ih

theorem makes_binary (n least : Nat) : Makes A .expression (binary n self least) :=
  fun _ => .idle .read fun _ => .bind_makes (hself .unary) fun _ h =>
    adds_binaryRest hself n _ h

theorem makes_arrowFunction (n : Nat) : Makes A .expression (arrowFunction n self) := by
  intro trees
  refine .idle .read fun pos => .idle .read fun _ => ?_
  have hrest : ∀ parameters, (A → ∀ node ∈ parameters, Slot.parameter.admits node) →
      Adds A 0 (parameters ++ trees) .expression trees (arrowRest self pos parameters) := by
    intro parameters hparameters
    -- The missing name is put behind the parameters.
    have hname : (.absent :: (parameters ++ trees)).Perm (parameters ++ .absent :: trees) :=
      List.perm_middle.symm
    refine .absent (.perm hname ?_)
    refine .idle .expect fun _ => .idle .read fun _ => .ite ?_ ?_
    · exact .bind_makes (hself .block) fun body hbody =>
        .function (fun _ => Slot.admits_absent _) hparameters hbody fun _ => rfl
    · exact .bind_makes (hself .assignment) fun body hbody =>
        .function (fun _ => Slot.admits_absent _) hparameters hbody fun _ => rfl
  refine .ite ?_ (.bind_all (makesAll_parameterList hself n) hrest)
  refine .bind_makes makes_identifierOf fun name hname => ?_
  have hsingle : Adds A 0 (name :: trees) .parameter trees (node pos (.parameter name .absent)) :=
    .absent (.node (fun _ => by simp_all) (fun _ => rfl) (.swap ..))
  exact .bind_made hsingle fun single hslot => hrest [single] (by simpa using hslot)

theorem makes_assignmentInside (n : Nat) : Makes A .expression (assignmentInside n self) := by
  intro trees
  refine .idle .read fun _ => .ite (makes_arrowFunction hself n trees) ?_
  refine .idle .read fun pos => .bind_makes (hself (.binary 1)) fun left hleft =>
    .idle .read fun operator => .ite ?_ (.idle .accept fun _ => .ite ?_ (.pure hleft))
  · have hassign : Adds A 0 (left :: trees) .expression trees (do
        advance
        let right ← self .assignment
        node pos (.binary left operator right)) :=
      .idle .advance fun _ => .bind_makes (hself .assignment) fun right hright =>
        .node (fun _ => by simp_all) (fun _ => rfl) (.swap ..)
    exact .ite hassign (.idle (.complain (by simp)) fun _ => hassign)
  · refine .bind_makes (hself .assignment) fun whenTrue htrue =>
      .idle .expect fun _ => .bind_makes (hself .assignment) fun whenFalse hfalse => ?_
    exact .node (fun _ => by simp_all) (fun _ => rfl)
      ((List.reverse_perm [left, whenTrue, whenFalse]).append_right trees)

theorem makes_assignment (n : Nat) : Makes A .expression (assignment n self) := by
  intro trees
  refine .enterThen ?_ ((makes_missing.mono name_expression) trees)
  exact .bind_makes (makes_assignmentInside hself n) fun _ h => .leave (.pure h)

theorem adds_commaRest {pos links : Nat} {left : Node} (n : Nat) (trees : List Node)
    (h : A → Slot.expression.admits left) :
    Adds A links (left :: trees) .expression trees (commaRest self pos n links left) := by
  induction n generalizing links left with
  | zero => exact .idle .exhaust fun _ => .leave (.pure h)
  | succ n ih =>
    have hend : Adds A links (left :: trees) .expression trees (do
        leave links
        return left) := .leave (.pure h)
    refine .idle .read fun _ => .ite hend (.enterOr hend ?_)
    refine .idle .advance fun _ => .bind_makes (hself .assignment) fun right hright => ?_
    have hnode : Adds A 0 (right :: left :: trees) .expression trees (node pos (.binary left (some .comma) right)) :=
      .node (fun _ => by simp_all) (fun _ => rfl) (.swap ..)
    exact .bind_made hnode fun _ => ih

theorem makes_expression (n : Nat) : Makes A .expression (expression n self) :=
  fun _ => .idle .read fun _ => .bind_makes (hself .assignment) fun _ h =>
    adds_commaRest hself n _ h

theorem adds_statementsOnto {close : Token.Kind} (n : Nat) {nodes : List Node}
    (h : A → ∀ node ∈ nodes, Slot.statement.admits node) :
    AddsAll A (nodes ++ trees) .statement trees (statementsOnto close self n nodes) := by
  induction n generalizing nodes with
  | zero => exact .idle .exhaust fun _ => adds_reverse h
  | succ n ih =>
    refine .idle .read fun _ => .idle .read fun _ => .ite (adds_reverse h) ?_
    refine .idle .read fun _ => .bind_makes (hself .statement) fun statement hs =>
      .idle .read fun _ => .idle .read fun _ => ?_
    have hrest : AddsAll A (statement :: (nodes ++ trees)) .statement trees (statementsOnto close self n
        (if statement.isPresent then statement :: nodes else nodes)) := by
      cases statement with
      | absent =>
        exact fun origin opened s hheld => ih h origin opened s hheld.of_absent
      | mk info shape =>
        have hall := admits_cons hs h
        exact ih hall
    exact .ite (.idle .advance fun _ => hrest) hrest

theorem makesAll_statementList {close : Token.Kind} (n : Nat) :
    MakesAll A .statement (statementList n close self) := by
  intro trees
  have hnil : A → ∀ node ∈ ([] : List Node), Slot.statement.admits node := by simp
  exact adds_statementsOnto hself n hnil

theorem makes_block (n : Nat) : Makes A .body (block n self) :=
  fun _ => .idle .read fun _ => .idle .expect fun _ =>
    .bind_all (makesAll_statementList hself n) fun statements h =>
      .idle .expect fun _ =>
        .node (fun _ => by simp_all) (fun _ => rfl) (.refl _)

theorem makes_declaration : Makes A .variable (declaration self) :=
  fun _ => .idle .read fun _ => .bind_makes makes_bindingName fun name hname =>
    .bind_makes (makes_initializer hself) fun value hvalue =>
      .node (fun _ => by simp_all) (fun _ => rfl) (.swap ..)

theorem adds_declarationsOnto (n : Nat) {nodes : List Node}
    (h : A → ∀ node ∈ nodes, Slot.variable.admits node) :
    AddsAll A (nodes ++ trees) .variable trees (declarationsOnto self n nodes) := by
  induction n generalizing nodes with
  | zero => exact .idle .exhaust fun _ => adds_reverse h
  | succ n ih =>
    refine .bind_makes (makes_declaration hself) fun node hn => ?_
    have hall := admits_cons hn h
    exact .idle .accept fun _ => .ite (ih hall) (adds_reverse hall)

theorem makes_variableList (n : Nat) : Makes A .list (variableList n self) := by
  intro trees
  have hnil : A → ∀ node ∈ ([] : List Node), Slot.variable.admits node := by simp
  have hall : MakesAll A .variable (declarationsOnto self n []) :=
    fun trees => adds_declarationsOnto hself n hnil
  exact .idle .read fun _ => .idle .advance fun _ =>
    .bind_all hall fun declarations h =>
      .node (fun _ => by simp_all) (fun _ => rfl) (.refl _)

theorem makes_variableStatement (n : Nat) : Makes A .statement (variableStatement n self) :=
  fun _ => .idle .read fun _ => .bind_makes (makes_variableList hself n) fun list h =>
    .idle .endStatement fun _ =>
      .node (fun _ => by simp_all) (fun _ => rfl) (.refl _)

theorem makes_functionDeclaration (n : Nat) : Makes A .statement (functionDeclaration n self) :=
  fun _ => .idle .read fun _ => .idle .expect fun _ =>
    .bind_makes makes_bindingName fun _ hname =>
      .bind_all (makesAll_parameterList hself n) fun _ hparameters =>
        .bind_makes (hself .block) fun _ hbody =>
          .function hname hparameters hbody fun _ => rfl

theorem makes_condition : Makes A .expression (condition self) :=
  fun _ => .idle .expect fun _ => .bind_makes (hself .expression) fun _ h =>
    .idle .expect fun _ => .pure h

theorem makes_ifStatement : Makes A .statement (ifStatement self) := by
  intro trees
  refine .idle .read fun pos => .idle .expect fun _ =>
    .bind_makes (makes_condition hself) fun test htest => .bind_makes (hself .statement)
      fun thenBranch hthen => .idle .accept fun _ => ?_
  have hrest : ∀ elseBranch, (A → Slot.statement.admits elseBranch) →
      Adds A 0 (elseBranch :: thenBranch :: test :: trees) .statement trees
        (node pos (.branch test thenBranch elseBranch)) := fun elseBranch helse =>
    .node (fun _ => by simp_all) (fun _ => rfl)
      ((List.reverse_perm [test, thenBranch, elseBranch]).append_right trees)
  exact .ite (.bind_makes (hself .statement) hrest) (.bind_makes makes_absent hrest)

theorem makes_optionalExpression {close : Token.Kind} :
    Makes A .expression (optionalExpression self close) :=
  fun trees => .idle .read fun _ => .ite (makes_absent trees) (hself .expression trees)

theorem makes_forStatement (n : Nat) : Makes A .statement (forStatement n self) := by
  intro trees
  refine .idle .read fun pos => .idle .expect fun _ =>
    .idle .expect fun _ => .idle .read fun k => ?_
  have hrest : ∀ start, (A → Slot.start.admits start) →
      Adds A 0 (start :: trees) .statement trees (forRest self pos start) := by
    intro start hstart
    have htail : Adds A 0 (start :: trees) .statement trees (counterRest self pos start) := by
      refine .idle .expect fun _ =>
        .bind_makes (makes_optionalExpression hself) fun test htest =>
          .idle .expect fun _ =>
            .bind_makes (makes_optionalExpression hself) fun update hupdate =>
              .idle .expect fun _ => .bind_makes (hself .statement) fun body hbody => ?_
      exact .node (fun _ => by simp_all) (fun _ => rfl)
        ((List.reverse_perm [start, test, update, body]).append_right trees)
    exact .idle .read fun _ =>
      .ite (.idle (.complain (by simp)) fun _ => htail) htail
  have hlist := Triple.bind_makes ((makes_variableList hself n).mono list_start) hrest
  cases k with
  | varWord | letWord | constWord => exact hlist
  | _ => exact .bind_makes ((makes_optionalExpression hself).mono expression_start) hrest

theorem makes_whileStatement : Makes A .statement (whileStatement self) := by
  intro trees
  refine .idle .read fun pos => .idle .expect fun _ => .absent
    (.bind_makes (makes_condition hself) fun test htest => .absent
      (.bind_makes (hself .statement) fun body hbody => ?_))
  exact .node (fun _ => by simp_all) (fun _ => rfl)
    ((List.reverse_perm [Node.absent, test, .absent, body]).append_right trees)

theorem makes_doStatement : Makes A .statement (doStatement self) := by
  intro trees
  refine .idle .read fun pos => .idle .expect fun _ =>
    .bind_makes (hself .statement) fun body hbody => .idle .expect fun _ => .absent
      (.bind_makes (makes_condition hself) fun test htest =>
        .idle .accepted fun _ => .absent ?_)
  refine .node (fun _ => by simp_all) (fun _ => rfl) ?_
  have hp : [.absent, test, .absent, body].Perm (Shape.loop .doWhile .absent test .absent body).parts :=
    .refl _
  exact hp.append_right trees

theorem makes_returnStatement : Makes A .statement (returnStatement self) := by
  intro trees
  refine .idle .read fun pos => .idle .advance fun _ =>
    .idle .read fun _ => ?_
  have hrest : ∀ value, (A → Slot.expression.admits value) → Adds A 0 (value :: trees) .statement trees (do
      endStatement
      node pos (.exit false value)) := fun value h =>
    .idle .endStatement fun _ =>
      .node (fun _ => by simp_all) (fun _ => rfl) (.refl _)
  exact .ite (.bind_makes makes_absent hrest) (.bind_makes (hself .expression) hrest)

theorem makes_throwStatement : Makes A .statement (throwStatement self) := by
  intro trees
  refine .idle .read fun pos => .idle .advance fun _ =>
    .idle .read fun _ => ?_
  have hrest : Adds A 0 trees .statement trees (do
      let value ← self .expression
      endStatement
      node pos (.exit true value)) :=
    .bind_makes (hself .expression) fun value h => .idle .endStatement fun _ =>
      .node (fun _ => by simp_all) (fun _ => rfl) (.refl _)
  exact .ite (.idle (.complain (by simp)) fun _ => hrest) hrest

omit hself in
theorem makes_jump {kind : Tree.Kind} (hk : kind.isStatement) : Makes A .statement (jump kind) := by
  intro trees
  refine .idle .read fun pos => .idle .advance fun _ =>
    .idle .read fun _ => ?_
  have hrest : Adds A 0 trees .statement trees (do
      endStatement
      node pos (.bare kind)) :=
    .idle .endStatement fun _ => .node (fun _ => by simp) (fun _ => hk) (.refl _)
  exact .ite (.idle (.complain (by simp)) fun _ => .idle .advance fun _ => hrest) hrest

omit hself in
theorem makes_emptyStatement : Makes A .statement emptyStatement :=
  fun _ => .idle .read fun _ => .idle .advance fun _ =>
    .node (fun _ => by simp) (fun _ => rfl) (.refl _)

theorem makes_expressionStatement : Makes A .statement (expressionStatement self) :=
  fun _ => .idle .read fun _ => .bind_makes (hself .expression) fun _ h =>
    .idle .endStatement fun _ =>
      .node (fun _ => by simp_all) (fun _ => rfl) (.refl _)

omit hself in
theorem makes_noStatement : Makes A .statement statementInside.noStatement :=
  fun trees => .idle (.complain (by simp)) fun _ => makes_absent trees

theorem makes_statementInside (n : Nat) : Makes A .statement (statementInside n self) := by
  intro trees
  refine .idle .read fun k => ?_
  split
  · exact ((hself .block).mono body_statement) trees
  · exact makes_variableStatement hself n trees
  · exact makes_variableStatement hself n trees
  · exact .idle .read fun _ =>
      .ite (makes_variableStatement hself n trees) (makes_noStatement trees)
  · exact makes_functionDeclaration hself n trees
  · exact makes_ifStatement hself trees
  · exact makes_forStatement hself n trees
  · exact makes_whileStatement hself trees
  · exact makes_doStatement hself trees
  · exact makes_returnStatement hself trees
  · exact makes_throwStatement hself trees
  · exact makes_jump rfl trees
  · exact makes_jump rfl trees
  · exact makes_emptyStatement trees
  · exact .idle .read fun _ =>
      .ite (makes_expressionStatement hself trees) (makes_noStatement trees)

theorem makes_statement (n : Nat) : Makes A .statement (statement n self) := by
  intro trees
  refine .enterThen ?_ (makes_absent trees)
  exact .bind_makes (makes_statementInside hself n) fun _ h => .leave (.pure h)

theorem makes_produce (n : Nat) (goal : Goal) : Makes A goal.slot (produce n self goal) := by
  cases goal with
  | statement => exact makes_statement hself n
  | block => exact makes_block hself n
  | expression => exact makes_expression hself n
  | assignment => exact makes_assignment hself n
  | binary least => exact makes_binary hself n least
  | unary => exact makes_unary hself n
  | new => exact makes_newExpression hself n

end

theorem makes_productions (A : Prop) (n : Nat) (goal : Goal) : Makes A goal.slot (productions n goal) := by
  induction n generalizing goal with
  | zero => exact fun trees => .idle .exhaust fun _ => makes_absent trees
  | succ n ih => exact makes_produce ih n goal

theorem reached_statementsOf (tokens : List Token) : Reached (.start tokens) 0 (statementsOf tokens).2 :=
  (makesAll_statementList (makes_productions False _) _ []).reached _

/-- The step closes what it opens. At no time it closes more than is open or opens more than the
limit allows. -/
structure ClosesAll (p : Parse α) (s : State) : Prop where
  depth : (p s).2.depth = s.depth
  overdrawn : (p s).2.overdrawn = s.overdrawn
  deepest : (p s).2.deepest ≤ max s.deepest maxDepth

theorem Triple.closesAll {p : Parse β} (h : Triple False 0 held p Q after) (s : State) : ClosesAll p s :=
  have hreached := h.reached s
  ⟨hreached.depth, hreached.overdrawn, hreached.deepest_le⟩

/-- Every production is balanced in every state, also where something is complained about and where
the parse has given up. At the end of a text nothing is open. -/
theorem nesting_balanced (n count : Nat) (s : State) :
    (∀ goal, ClosesAll (productions n goal) s) ∧
      (∀ calls pos object, ClosesAll (memberRest calls (productions n) pos count 0 object) s) ∧
      (∀ least pos left, ClosesAll (binaryRest least (productions n) pos count 0 left) s) ∧
      (∀ pos left, ClosesAll (commaRest (productions n) pos count 0 left) s) ∧
      ClosesAll literal s ∧ ClosesAll (primary count (productions n)) s ∧
      ClosesAll (arrayLiteral count (productions n)) s ∧
      ClosesAll (objectLiteral count (productions n)) s ∧
      ClosesAll (functionExpression count (productions n)) s ∧
      ClosesAll (functionDeclaration count (productions n)) s ∧
      ClosesAll (arrowFunction count (productions n)) s ∧
      ClosesAll (argumentList count (productions n)) s ∧
      ClosesAll (parameterList count (productions n)) s ∧
      ClosesAll (variableList count (productions n)) s ∧
      (∀ close, ClosesAll (statementList count close (productions n)) s) ∧
      ∀ text, (statementsOf (Token.list text)).2.depth = 0 ∧
        (statementsOf (Token.list text)).2.overdrawn = false ∧
        (statementsOf (Token.list text)).2.deepest ≤ maxDepth := by
  have hself := makes_productions False n
  refine ⟨fun goal => (hself goal []).closesAll s,
    fun _ _ _ => (adds_memberRest hself count [] False.elim).closesAll s,
    fun _ _ _ => (adds_binaryRest hself count [] False.elim).closesAll s,
    fun _ _ => (adds_commaRest hself count [] False.elim).closesAll s, (makes_literal []).closesAll s,
    (makes_primary hself count []).closesAll s, (makes_arrayLiteral hself count []).closesAll s,
    (makes_objectLiteral hself count []).closesAll s,
    (makes_functionExpression hself count []).closesAll s,
    (makes_functionDeclaration hself count []).closesAll s,
    (makes_arrowFunction hself count []).closesAll s,
    (makesAll_argumentList hself count []).closesAll s,
    (makesAll_parameterList hself count []).closesAll s, (makes_variableList hself count []).closesAll s,
    fun _ => (makesAll_statementList hself count []).closesAll s, fun text => ?_⟩
  have hfirst : ∀ tokens, (State.start tokens).depth = 0 ∧ (State.start tokens).overdrawn = false ∧
      (State.start tokens).deepest = 0 := by
    intro tokens
    cases tokens <;> exact ⟨rfl, rfl, rfl⟩
  have h := reached_statementsOf (Token.list text)
  obtain ⟨hdepth, hoverdrawn, hdeepest⟩ := hfirst (Token.list text)
  exact ⟨h.depth.trans hdepth, h.overdrawn.trans hoverdrawn, by simpa [hdeepest] using h.deepest_le⟩

theorem statementsOf_held (tokens : List Token) :
    (∀ node ∈ (statementsOf tokens).1, Slot.statement.admits node) ∧
      Held True (.start tokens) 0 ((statementsOf tokens).1 ++ []) (statementsOf tokens).2 := by
  have hstart : Held True (.start tokens) 0 [] (.start tokens) := by
    have harena : (State.start tokens).arena = .empty := by
      unfold State.start
      split <;> rfl
    exact ⟨.refl, fun _ => harena ▸ Arena.empty_forest, by simp⟩
  obtain ⟨hslots, hheld⟩ := makesAll_statementList (makes_productions True (fuelFor tokens))
    (fuelFor tokens) [] _ 0 _ hstart
  exact ⟨hslots trivial, hheld⟩

end ArrayLoops.Grammar

namespace ArrayLoops

theorem parse_forest (name text : String) :
    (parse name text).arena.Forest [(parse name text).root] :=
  ((Grammar.statementsOf_held (Token.list text)).2.forest trivial).add

theorem parse_regular (name text : String) : (parse name text).root.Regular := by
  obtain ⟨hslots, hheld⟩ := Grammar.statementsOf_held (Token.list text)
  refine .mk ?_ fun part hpart => hheld.regular trivial part (List.mem_append_left _ hpart)
  intro entry he
  obtain ⟨node, hn, rfl⟩ := List.mem_map.mp he
  exact hslots node hn

end ArrayLoops
