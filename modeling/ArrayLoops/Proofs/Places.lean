import ArrayLoops.Proofs.ParsedPhrases
import ArrayLoops.Proofs.PassChanges
import ArrayLoops.Proofs.Tiling
import ArrayLoops.Proofs.Written

/-!
# Ranges in the source

A node of a parse without complaints reaches from the start of a token to the end of one. Its parts
lie in its range one behind the other, and what an identifier or a literal spells is what the source
has there.

A production makes its parts while it passes tokens, so that each part ends before the current token.
That is the invariant: the parts made so far lie, in order, between the place where the production
began and the end of the token that was passed last.
-/

namespace ArrayLoops

namespace Tree

/-- The text that a name or a literal has in the source. -/
def Shape.spelled? {α : Type} : Shape α → Option String
  | .identifier text => some text
  | .literal _ _ raw _ => some raw
  | _ => none

namespace Node

/-- The range of the node, if it has one, lies between two places. -/
def Between (first last : Nat) (node : Node) : Prop :=
  ∀ range ∈ node.range?, first ≤ range.1 ∧ range.2 ≤ last

def Precedes (a b : Node) : Prop := ∀ range ∈ a.range?, ∀ other ∈ b.range?, range.2 ≤ other.1

theorem between_absent (first last : Nat) : Between first last .absent := nofun

theorem Between.mono {first last first' last' : Nat} {node : Node} (h : Between first last node)
    (hfirst : first' ≤ first) (hlast : last ≤ last') : Between first' last' node :=
  fun range hrange => ⟨Nat.le_trans hfirst (h range hrange).1, Nat.le_trans (h range hrange).2 hlast⟩

theorem Between.precedes {first middle last : Nat} {a b : Node} (ha : Between first middle a)
    (hb : Between middle last b) : Precedes a b :=
  fun range hrange other hother => Nat.le_trans (ha range hrange).2 (hb other hother).1

end Node

end Tree

namespace Grammar

open Token (Kind)
open ArrayLoops.Tree (Flags Info Node Shape)

structure Ordered (tokens : List Token) : Prop where
  spans : ∀ token ∈ tokens, token.start ≤ token.fin
  apart : tokens.Pairwise fun a b => a.fin ≤ b.start

/-- A node reaches from a token to a token, with its parts in order between them. -/
structure Placed (tokens : List Token) (info : Info) (shape : Shape Node) : Prop where
  first : ∃ token ∈ tokens, token.start = info.pos
  last : ∃ token ∈ tokens, token.fin = info.fin
  pos_le_fin : info.pos ≤ info.fin
  inside : ∀ part ∈ shape.slots, part.Between info.pos info.fin
  apart : shape.slots.Pairwise Node.Precedes
  spelled : ∀ text ∈ shape.spelled?, ∃ token ∈ tokens,
    token.start = info.pos ∧ token.fin = info.fin ∧ token.text = text

def AllPlaced (tokens : List Token) (node : Node) : Prop :=
  ∀ info shape, Node.Within (.mk info shape) node → Placed tokens info shape

/-- The tokens that are left are the last of the given ones, and none of them was begun. -/
structure Lined (tokens : List Token) (s : State) : Prop where
  ordered : Ordered tokens
  left : s.tokens <:+ tokens
  prevEnd : s.prevEnd ≤ s.current.start

/-- From `start` on these nodes were made one after the other. -/
structure Laid (tokens : List Token) (start : Nat) (nodes : List Node) (m : State) : Prop where
  lined : Lined tokens m
  begun : ∃ token ∈ tokens, token.start = start
  start_le : start ≤ m.current.start
  between : ∀ node ∈ nodes, node.Between start m.prevEnd
  apart : nodes.Pairwise Node.Precedes
  placed : ∀ node ∈ nodes, AllPlaced tokens node

structure Gathered (tokens : List Token) (start : Nat) (nodes : List Node) (m : State) : Prop
    extends Laid tokens start nodes m where
  reached : start ≤ m.prevEnd
  ended : ∃ token ∈ tokens, token.fin = m.prevEnd

structure Spanned (tokens : List Token) (start : Nat) (node : Node) (m : State) : Prop
    extends Gathered tokens start [node] m where
  range : node.range? = some (start, m.prevEnd)

/-- The step makes one node of all that it passes. -/
def Spans (tokens : List Token) (n slack : Nat) (s : State) (p : Parse Node) : Prop :=
  Gives n slack s p (Spanned tokens s.current.start)

variable {tokens : List Token} {start n slack : Nat} {nodes : List Node} {node : Node}
  {s m later : State} {β : Type} {R : β → State → Prop}

theorem allPlaced_absent : AllPlaced tokens .absent := by
  intro info shape h
  cases h

theorem Lined.current_mem (h : Lined tokens s) : s.current ∈ tokens :=
  h.left.subset List.mem_cons_self

theorem Lined.laid (h : Lined tokens s) : Laid tokens s.current.start [] s :=
  ⟨h, ⟨_, h.current_mem, rfl⟩, Nat.le_refl _, nofun, .nil, nofun⟩

/-- A step that has to do with neither tokens nor the nodes made so far changes nothing here. -/
theorem Laid.of_same (h : Laid tokens start nodes m) (hcurrent : later.current = m.current)
    (hahead : later.ahead = m.ahead) (hprev : later.prevEnd = m.prevEnd) :
    Laid tokens start nodes later := by
  have htokens : later.tokens = m.tokens := by rw [State.tokens, State.tokens, hcurrent, hahead]
  refine ⟨⟨h.lined.ordered, htokens ▸ h.lined.left, ?_⟩, h.begun, hcurrent ▸ h.start_le,
    hprev ▸ h.between, h.apart, h.placed⟩
  rw [hprev, hcurrent]
  exact h.lined.prevEnd

theorem Gathered.of_same (h : Gathered tokens start nodes m) (hcurrent : later.current = m.current)
    (hahead : later.ahead = m.ahead) (hprev : later.prevEnd = m.prevEnd) :
    Gathered tokens start nodes later where
  toLaid := h.toLaid.of_same hcurrent hahead hprev
  reached := hprev ▸ h.reached
  ended := hprev ▸ h.ended

theorem Spanned.of_same (h : Spanned tokens start node m) (hcurrent : later.current = m.current)
    (hahead : later.ahead = m.ahead) (hprev : later.prevEnd = m.prevEnd) :
    Spanned tokens start node later :=
  ⟨h.toGathered.of_same hcurrent hahead hprev, hprev ▸ h.range⟩

theorem Laid.advance (h : Laid tokens start nodes m) (hpassed : Passed m m.advance) :
    Gathered tokens start nodes m.advance := by
  have hlength := hpassed.length
  have hspan := h.lined.ordered.spans _ h.lined.current_mem
  have hprev := h.lined.prevEnd
  have hstart := h.start_le
  have hleft := h.lined.left
  have hapart := h.lined.ordered.apart.sublist hleft.sublist
  unfold State.advance at hlength ⊢
  cases hahead : m.ahead with
  | nil => simp [hahead, State.tokens] at hlength
  | cons token ahead =>
    simp only [hahead] at hlength ⊢
    rw [State.tokens, hahead] at hleft hapart
    have hnext : m.current.fin ≤ token.start := List.rel_of_pairwise_cons hapart List.mem_cons_self
    refine ⟨⟨⟨h.lined.ordered, (List.suffix_cons _ _).trans hleft, hnext⟩, h.begun, ?_, ?_,
      h.apart, h.placed⟩, ?_, m.current, h.lined.current_mem, rfl⟩
    · exact Nat.le_trans hstart (Nat.le_trans hspan hnext)
    · exact fun node hnode => (h.between node hnode).mono (Nat.le_refl _) (Nat.le_trans hprev hspan)
    · exact Nat.le_trans hstart hspan

theorem Laid.add (h : Laid tokens start nodes m)
    (hnode : Spanned tokens m.current.start node later) :
    Gathered tokens start (nodes ++ [node]) later := by
  have hnew := hnode.between node List.mem_cons_self
  have hhere : m.prevEnd ≤ m.current.start := h.lined.prevEnd
  refine ⟨⟨hnode.lined, h.begun, Nat.le_trans h.start_le hnode.start_le, ?_, ?_, ?_⟩,
    Nat.le_trans h.start_le hnode.reached, hnode.ended⟩
  · intro other hother
    obtain hother | hother := List.mem_append.mp hother
    · exact (h.between other hother).mono (Nat.le_refl _) (Nat.le_trans hhere hnode.reached)
    · rw [List.mem_singleton.mp hother]
      exact hnew.mono h.start_le (Nat.le_refl _)
  · refine List.pairwise_append.mpr ⟨h.apart, hnode.apart, fun a ha b hb => ?_⟩
    rw [List.mem_singleton.mp hb]
    exact ((h.between a ha).mono (Nat.le_refl _) hhere).precedes hnew
  · exact fun other hother => (List.mem_append.mp hother).elim (h.placed other) (hnode.placed other)

namespace Gathered

theorem filled (nodes others : List Node) (h : Gathered tokens start (nodes ++ others) m) :
    Gathered tokens start (nodes ++ .absent :: others) m := by
  have hmem : ∀ node ∈ nodes ++ .absent :: others, node = .absent ∨ node ∈ nodes ++ others := by
    intro node hnode
    simpa [or_left_comm] using hnode
  obtain ⟨hnodes, hothers, happart⟩ := List.pairwise_append.mp h.apart
  refine { h with between := fun node hnode => ?_, apart := ?_, placed := fun node hnode => ?_ }
  · exact (hmem node hnode).elim (fun heq => heq ▸ Node.between_absent _ _) (h.between node)
  · refine List.pairwise_append.mpr ⟨hnodes, List.pairwise_cons.mpr ⟨fun _ _ => nofun, hothers⟩, ?_⟩
    intro a ha b hb
    obtain rfl | hb := List.mem_cons.mp hb
    · exact fun _ _ => nofun
    · exact happart a ha b hb
  · exact (hmem node hnode).elim (fun heq => heq ▸ allPlaced_absent) (h.placed node)

theorem absent (h : Gathered tokens start nodes m) : Gathered tokens start (nodes ++ [.absent]) m :=
  filled nodes [] (by rwa [List.append_nil])

theorem advance (h : Gathered tokens start nodes m) (hpassed : Passed m m.advance) :
    Gathered tokens start nodes m.advance :=
  h.toLaid.advance hpassed

theorem part {p : Parse Node} (h : Gathered tokens start nodes m) (hp : Spans tokens n slack m p) :
    Gives n slack m p fun node later => Gathered tokens start (nodes ++ [node]) later :=
  Gives.mono hp fun _ _ hnode => h.toLaid.add hnode

theorem accept {k : Kind} {f : Bool → Parse β} (hk : (k == .endOfFile) = false)
    (h : Gathered tokens start nodes m)
    (htrue : Gathered tokens start nodes m.advance → Gives n 8 m.advance (f true) R)
    (hfalse : Gives n slack m (f false) R) : Gives n slack m (Grammar.accept k >>= f) R :=
  .accept hk (fun _ hpassed => htrue (h.advance hpassed)) fun _ => hfalse

theorem expect {k : Kind} {f : Unit → Parse β} (hk : (k == .endOfFile) = false)
    (h : Gathered tokens start nodes m)
    (hf : Gathered tokens start nodes m.advance → Gives n 8 m.advance (f ()) R) :
    Gives n slack m (discard (Grammar.expect k) >>= f) R :=
  .expect hk fun _ hpassed => hf (h.advance hpassed)

theorem made {shape : Shape Node} {flags : Flags} (h : Gathered tokens start nodes m)
    (hslots : shape.slots = nodes) (hparts : shape.parts ⊆ .absent :: nodes)
    (hspelled : ∀ text ∈ shape.spelled?, ∃ token ∈ tokens,
      token.start = start ∧ token.fin = m.prevEnd ∧ token.text = text) :
    Gives n slack m (Grammar.node start shape flags) (Spanned tokens start) := by
  intro _ _ _
  have hall : AllPlaced tokens (.mk ⟨m.arena.nodes.size, start, m.prevEnd, flags⟩ shape) := by
    intro info inner hwithin
    cases hwithin with
    | self => exact ⟨h.begun, h.ended, h.reached, hslots ▸ h.between, hslots ▸ h.apart, hspelled⟩
    | part hpart hwithin =>
      obtain rfl | hnode := List.mem_cons.mp (hparts hpart)
      · cases hwithin
      · exact h.placed _ hnode info inner hwithin
  refine ⟨⟨⟨⟨h.lined.ordered, h.lined.left, h.lined.prevEnd⟩, h.begun, h.start_le, ?_,
    List.pairwise_singleton _ _, ?_⟩, h.reached, h.ended⟩, rfl⟩
  · intro node hnode range hrange
    obtain rfl := List.mem_singleton.mp hnode
    obtain rfl := Option.mem_some_iff.mp hrange
    exact ⟨Nat.le_refl _, Nat.le_refl _⟩
  · intro node hnode
    obtain rfl := List.mem_singleton.mp hnode
    exact hall

theorem whole {shape : Shape Node} {flags : Flags} (h : Gathered tokens start nodes m)
    (hparts : shape.parts = nodes) (hslots : shape.slots = shape.parts) (hspelled : shape.spelled? = none) :
    Gives n slack m (Grammar.node start shape flags) (Spanned tokens start) :=
  h.made (hslots.trans hparts) (fun _ hpart => List.mem_cons_of_mem _ (hparts ▸ hpart))
    (by simp [hspelled])

end Gathered

theorem Spanned.closed {links : Nat} (h : Spanned tokens start node m) :
    Gives n slack m (do leave links; return node) (Spanned tokens start) :=
  .leave (.pure (h.of_same rfl rfl rfl))

theorem Spanned.exhausted {links : Nat} (h : Spanned tokens start node m) :
    Gives n slack m (do exhaust; leave links; return node) (Spanned tokens start) :=
  .exhaust (.leave (.pure (h.of_same rfl rfl rfl)))

theorem Lined.leaf {shape : Shape Node} (h : Lined tokens s) (hk : s.current.kind ≠ .endOfFile)
    (hparts : shape.parts = []) (hslots : shape.slots = [])
    (hspelled : ∀ text ∈ shape.spelled?, s.current.text = text) :
    Spans tokens n slack s (do advance; Grammar.node s.current.start shape) := by
  refine .advance hk fun hpassed => (h.laid.advance hpassed).made hslots (by simp [hparts]) ?_
  intro text htext
  refine ⟨s.current, h.current_mem, rfl, ?_, hspelled text htext⟩
  unfold State.advance
  split <;> rfl

theorem spans_identifierOf {text : Token → String} (h : Lined tokens s) (hk : isMemberName s.current.kind)
    (ht : text s.current = s.current.text ∨ text s.current = s.current.value) :
    Spans tokens n slack s (identifierOf text) := by
  have hne : s.current.kind ≠ .endOfFile := by
    rintro heq
    rw [heq] at hk
    cases hk
  refine .clean fun hs hclean => .current (h.leaf hne rfl rfl ?_)
  have hvalue : s.current.value = s.current.text := (name_of_genuine (hs.current hclean hne) hk).1
  rintro other hother
  obtain rfl := Option.mem_some_iff.mp hother
  obtain ht | ht := ht
  · exact ht.symm
  · rw [ht, hvalue]

theorem spans_identifier (h : Lined tokens s) (hk : s.current.kind = .identifier) :
    Spans tokens n slack s identifier :=
  spans_identifierOf h (by simp [hk, isMemberName]) (.inr rfl)

theorem spans_missingBecause {fault : Fault} : Spans tokens n slack s (missingBecause fault) :=
  .missingBecause

theorem spans_propertyName (h : Lined tokens s) : Spans tokens n slack s propertyName := by
  refine .kind (.ite (fun hk => ?_) fun _ => .kind (.ite (fun hk => ?_) fun _ => spans_missingBecause))
  · exact spans_identifierOf h (by simp_all [isMemberName]) (.inr rfl)
  · exact spans_identifierOf h (by simp [isMemberName, hk]) (.inl rfl)

theorem spans_bindingName (h : Lined tokens s) : Spans tokens n slack s bindingName := by
  refine .kind ?_
  split
  · exact spans_identifier h ‹_›
  · exact spans_missingBecause
  · exact spans_missingBecause
  · exact spans_missingBecause

theorem spans_literal (h : Lined tokens s) (hk : s.current.kind ≠ .endOfFile) :
    Spans tokens n slack s literal :=
  .current (h.leaf hk rfl rfl fun _ htext => Option.mem_some_iff.mp htext)

theorem spans_wordExpression (h : Lined tokens s) (hk : s.current.kind ≠ .endOfFile) :
    Spans tokens n slack s wordExpression :=
  .current (h.leaf hk rfl rfl nofun)

section
variable {item : Parse Node} {items : List Node}

theorem lays_itemsOnto {close : Kind} (before : List Node)
    (hitem : ∀ nodes m, Gathered tokens start nodes m →
      Gives n 8 m item fun node later => Gathered tokens start (nodes ++ [node]) later) (k : Nat)
    (h : Gathered tokens start (before ++ items.reverse) m) :
    Gives n 8 m (itemsOnto close item k items) fun items later =>
      Gathered tokens start (before ++ items) later := by
  induction k generalizing m items with
  | zero => exact .exhaust (.pure (h.of_same rfl rfl rfl))
  | succ k ih =>
    refine .kind (.ite (fun _ => .pure h) fun _ => .bind (hitem _ m h) fun node later h => ?_)
    rw [List.append_assoc, ← List.reverse_cons] at h
    exact h.accept rfl ih (.pure h)

theorem lays_elementsOnto (before : List Node)
    (hitem : ∀ nodes m, Gathered tokens start nodes m →
      Gives n 8 m item fun node later => Gathered tokens start (nodes ++ [node]) later) (k : Nat)
    (h : Gathered tokens start (before ++ items.reverse) m) :
    Gives n 8 m (elementsOnto item k items) fun items later =>
      Gathered tokens start (before ++ items) later := by
  induction k generalizing m items with
  | zero => exact .exhaust (.pure (h.of_same rfl rfl rfl))
  | succ k ih =>
    refine .kind ?_
    split
    · exact .pure h
    · exact .pure h
    · exact .complain
    · refine .bind (hitem _ m h) fun node later h => ?_
      rw [List.append_assoc, ← List.reverse_cons] at h
      exact h.accept rfl ih (.pure h)

theorem Gathered.listed {close : Kind} {f : List Node → Parse β} (hclose : (close == .endOfFile) = false)
    (hitem : ∀ nodes m, Gathered tokens start nodes m →
      Gives n 8 m item fun node later => Gathered tokens start (nodes ++ [node]) later) (k : Nat)
    (h : Gathered tokens start nodes m)
    (hf : ∀ items later, Gathered tokens start (nodes ++ items) later → Gives n 8 later (f items) R) :
    Gives n 8 m (do
      let items ← Grammar.items k close item
      discard (Grammar.expect close)
      f items) R :=
  .bind (lays_itemsOnto nodes hitem k (by simpa using h)) fun items _ h =>
    h.expect hclose fun h => hf items _ h

end

/-- The productions make nodes of what they pass. -/
def SpansAll (tokens : List Token) (n : Nat) (self : Productions) : Prop :=
  ∀ goal s, Lined tokens s → Spans tokens n (goal.rank + 1) s (self goal)

section
variable {self : Productions} (hself : SpansAll tokens n self)
include hself

theorem Gathered.goal (h : Gathered tokens start nodes m) (goal : Goal) :
    Gives n 8 m (self goal) fun node later => Gathered tokens start (nodes ++ [node]) later :=
  h.part (Gives.spare (hself goal m h.lined) goal.rank_lt)

theorem lays_argumentList (h : Laid tokens start nodes m) (k : Nat) :
    Gives n slack m (argumentList k self) fun arguments later =>
      Gathered tokens start (nodes ++ arguments) later :=
  .expect rfl fun _ hopen => (h.advance hopen).listed rfl
    (fun _ _ h => h.goal hself .assignment) k fun _ _ h => .pure h

theorem lays_initializer (h : Gathered tokens start nodes m) :
    Gives n slack m (initializer self) fun value later => Gathered tokens start (nodes ++ [value]) later :=
  h.accept rfl (fun h => h.goal hself .assignment) (.pure h.absent)

theorem spans_initialized {make : Node → Node → Shape Node} (h : Lined tokens s)
    (hparts : ∀ name value, (make name value).parts = [name, value])
    (hslots : ∀ name value, (make name value).slots = (make name value).parts)
    (hspelled : ∀ name value, (make name value).spelled? = none) : Spans tokens n slack s (do
      let pos ← here
      let name ← bindingName
      let value ← initializer self
      Grammar.node pos (make name value)) := by
  refine .here (.bind (spans_bindingName h) fun name m hname => ?_)
  refine .bind (lays_initializer hself hname.toGathered) fun value later h => ?_
  exact h.whole (hparts name value) (hslots name value) (hspelled name value)

theorem spans_parameter (h : Lined tokens s) : Spans tokens n slack s (parameter self) :=
  spans_initialized hself h (fun _ _ => rfl) (fun _ _ => rfl) fun _ _ => rfl

theorem spans_declaration (h : Lined tokens s) : Spans tokens n slack s (declaration self) :=
  spans_initialized hself h (fun _ _ => rfl) (fun _ _ => rfl) fun _ _ => rfl

theorem lays_parameterList (h : Laid tokens start nodes m) (k : Nat) :
    Gives n slack m (parameterList k self) fun parameters later =>
      Gathered tokens start (nodes ++ parameters) later := by
  refine .expectThen rfl fun _ hopen => (h.advance hopen).listed rfl (fun nodes m h => ?_) k
    fun _ _ h => .pure h
  exact h.part (spans_parameter hself h.lined)

theorem spans_parenthesized (h : Lined tokens s) : Spans tokens n slack s (parenthesized self) := by
  refine .here (.expect rfl fun _ hopen => ?_)
  refine .bind ((h.laid.advance hopen).goal hself .expression) fun expression m h => ?_
  exact h.expect rfl fun h => h.whole rfl rfl rfl

theorem spans_arrayLiteral (h : Lined tokens s) (k : Nat) :
    Spans tokens n slack s (arrayLiteral k self) := by
  refine .here (.expect rfl fun _ hopen => ?_)
  refine .bind (lays_elementsOnto [] (fun _ _ h => h.goal hself .assignment) k
    (h.laid.advance hopen)) fun elements m h => ?_
  exact h.expect rfl fun h => h.whole rfl rfl rfl

theorem spans_property (h : Lined tokens s) : Spans tokens n slack s (property self) := by
  refine .here (.check (.kind ?_))
  let rest := propertyRest self s.current.start s.atName
  have hrest : ∀ p, Spans tokens n slack s p → Spans tokens n slack s (p >>= rest) := by
    refine fun p hp => .bind hp fun name m hname => ?_
    refine hname.accept rfl (fun h => ?_) ?_
    · exact .bind (h.goal hself .assignment) fun value later h => h.whole rfl rfl rfl
    · cases s.atName with
      | true => exact hname.absent.whole rfl rfl rfl
      | false => exact hname.expect rfl fun h => h.absent.whole rfl rfl rfl
  have hname : Spans tokens n slack s (if s.atName then propertyName >>= rest
      else missingBecause .propertyExpected >>= rest) :=
    .ite (fun _ => hrest _ (spans_propertyName h)) fun _ => hrest _ spans_missingBecause
  have hliteral := fun hk => hrest _ (spans_literal h hk)
  unfold Spans at hname hliteral
  generalize hk : s.current.kind = k at hliteral ⊢
  cases k with
  | string | number => exact hliteral nofun
  | _ => exact hname

theorem spans_objectLiteral (h : Lined tokens s) (k : Nat) :
    Spans tokens n slack s (objectLiteral k self) := by
  refine .here (.expect rfl fun _ hopen => ?_)
  refine (h.laid.advance hopen).listed rfl (fun nodes m h => ?_) k fun _ _ h => h.whole rfl rfl rfl
  exact h.part (spans_property hself h.lined)

theorem spans_functionRest {form : Tree.FunctionForm} {name : Node}
    (h : Gathered tokens start [name] m) (k : Nat) :
    Gives n 8 m (functionRest form k self start name) (Spanned tokens start) := by
  refine .bind (lays_parameterList hself h.toLaid k) fun parameters later h => ?_
  exact .bind (h.goal hself .block) fun body last h => h.whole rfl rfl rfl

theorem spans_functionExpression (h : Lined tokens s) (k : Nat) :
    Spans tokens n slack s (functionExpression k self) := by
  refine .here (.expect rfl fun _ hfunction => .kind ?_)
  have h := h.laid.advance hfunction
  refine .ite (fun hk => ?_) fun _ => spans_functionRest hself h.absent k
  exact .bind (h.part (spans_identifier h.lined (by simpa using hk))) fun name m h =>
    spans_functionRest hself h k

theorem spans_primary (h : Lined tokens s) (k : Nat) : Spans tokens n slack s (primary k self) := by
  refine .kind ?_
  split
  · exact spans_identifier h ‹_›
  · exact spans_wordExpression h (by simp [*])
  · exact spans_wordExpression h (by simp [*])
  · exact spans_wordExpression h (by simp [*])
  · exact spans_wordExpression h (by simp [*])
  · exact spans_literal h (by simp [*])
  · exact spans_literal h (by simp [*])
  · exact spans_parenthesized hself h
  · exact spans_arrayLiteral hself h k
  · exact spans_objectLiteral hself h k
  · exact spans_functionExpression hself h k
  · exact spans_missingBecause

theorem spans_memberRest {calls : Bool} {links : Nat} {object : Node} (k : Nat)
    (h : Spanned tokens start object m) :
    Gives n slack m (memberRest calls self start k links object) (Spanned tokens start) := by
  induction k generalizing m slack links object with
  | zero => exact h.exhausted
  | succ k ih =>
    refine .kind (.ite (fun _ => h.closed) fun hlink => .enter fun _ => .ite (by simp) fun _ => ?_)
    have hopened : Gathered tokens start [object] m.opened := h.toGathered.of_same rfl rfl rfl
    have hnext : ∀ link : Parse Node, Gives n slack m.opened link (Spanned tokens start) →
        Gives n slack m.opened (link >>= memberRest calls self start k (links + 1)) (Spanned tokens start) :=
      fun link hlink => .bind hlink fun _ _ h => ih h
    have hdot : m.current.kind ≠ .endOfFile → Gives n slack m.opened _ _ := fun hne => hnext (do
        advance
        let name ← propertyName
        Grammar.node start (.access false object name)) (.advance hne fun hpassed => by
      have h := hopened.advance hpassed
      exact .bind (h.part (spans_propertyName h.lined)) fun name later h => h.whole rfl rfl rfl)
    have hcomputed : m.current.kind ≠ .endOfFile → Gives n slack m.opened _ _ := fun hne => hnext (do
        advance
        let key ← self .expression
        discard (expect .closeBracket)
        Grammar.node start (.access true object key)) (.advance hne fun hpassed => by
      refine .bind ((hopened.advance hpassed).goal hself .expression) fun key later h => ?_
      exact h.expect rfl fun h => h.whole rfl rfl rfl)
    have hcall := hnext (do
        let arguments ← argumentList k self
        Grammar.node start (.call false object true arguments))
      (.bind (lays_argumentList hself hopened.toLaid k) fun arguments later h => h.whole rfl rfl rfl)
    generalize hkind : m.current.kind = kind at hlink hdot hcomputed
    cases kind with
    | dot => exact hdot nofun
    | openBracket => exact hcomputed nofun
    | _ => exact hcall

theorem spans_memberHead (h : Lined tokens s) (k : Nat) : Spans tokens n 1 s (memberHead k self) :=
  .kind (.ite (fun _ => hself .new s h) fun _ => spans_primary hself h k)

theorem spans_member {calls : Bool} (h : Lined tokens s) (k : Nat)
    {f : Node → Parse Node} {R : Node → State → Prop}
    (hf : ∀ node m, Spanned tokens s.current.start node m → Gives n 1 m (f node) R) :
    Gives n 1 s (do
      let head ← memberHead k self
      let member ← memberRest calls self s.current.start k 0 head
      f member) R :=
  .bind (spans_memberHead hself h k) fun _ _ hhead =>
    .bind (spans_memberRest hself k hhead) fun node m h => hf node m h

theorem spans_newExpression (h : Lined tokens s) :
    Spans tokens n slack s (newExpression n self) := by
  refine .here (.expect rfl fun _ hnew => .here ?_)
  have h := h.laid.advance hnew
  refine .spare (spans_member hself h.lined n fun callee m hcallee => ?_) (by decide)
  refine .kind (.ite (fun _ => ?_) fun _ => ?_)
  · exact .bind (lays_argumentList hself (h.toLaid.add hcallee).toLaid n) fun arguments later h =>
      h.whole rfl rfl rfl
  · exact (h.toLaid.add hcallee).whole rfl rfl rfl

theorem spans_trailing (h : Lined tokens s) : Spans tokens n 1 s (trailing n self) := by
  refine .here (spans_member hself h n fun operand m h => ?_)
  refine .current (.ite (fun hoperator => ?_) fun _ => .pure h)
  have hne : m.current.kind ≠ .endOfFile := by
    intro heq
    simp [heq] at hoperator
  exact .advance hne fun hpassed => (h.advance hpassed).whole rfl rfl rfl

theorem spans_unary (h : Lined tokens s) : Spans tokens n 1 s (unary n self) := by
  refine .current (.ite (fun hoperator => .enter fun _ => ?_) fun _ => spans_trailing hself h)
  have hne : s.current.kind ≠ .endOfFile := by
    intro heq
    simp [heq, isLeadingOperator] at hoperator
  refine .ite (fun _ => .advance hne fun hpassed => ?_) (absurd rfl ·)
  have hopened : Laid tokens s.current.start [] s.opened := h.laid.of_same rfl rfl rfl
  refine .bind ((hopened.advance hpassed).goal hself .unary) fun operand m h => ?_
  have hleft : Gathered tokens s.current.start [operand] (m.leave 1) :=
    h.of_same rfl rfl rfl
  exact .leave (hleft.whole rfl rfl rfl)

theorem spans_binaryRest {least links : Nat} {left : Node} (k : Nat)
    (h : Spanned tokens start left m) :
    Gives n slack m (binaryRest least self start k links left) (Spanned tokens start) := by
  induction k generalizing m slack links left with
  | zero => exact h.exhausted
  | succ k ih =>
    refine .kind (.ite (fun _ => h.closed) fun hgoes => ?_)
    have hne : m.current.kind ≠ .endOfFile := by
      intro heq
      simp [heq, Kind.precedence] at hgoes
    refine .enter fun _ => .ite (by simp) fun _ => .advance hne fun hpassed => ?_
    have hopened : Gathered tokens start [left] m.opened := h.toGathered.of_same rfl rfl rfl
    refine .bind ((hopened.advance hpassed).goal hself (.binary _)) fun right later h => ?_
    exact .bind (h.whole rfl rfl rfl) fun _ _ h => ih h

theorem spans_binary {least : Nat} (h : Lined tokens s) :
    Spans tokens n 2 s (binary n self least) :=
  .here (.bind (hself .unary s h) fun _ _ h =>
    spans_binaryRest hself n h)

theorem spans_arrowFunction (h : Lined tokens s) :
    Spans tokens n slack s (arrowFunction n self) := by
  refine .here (.kind ?_)
  let rest := arrowRest self s.current.start
  have hrest : ∀ parameters m, Gathered tokens s.current.start parameters m →
      Gives n slack m (rest parameters) (Spanned tokens s.current.start) := by
    intro parameters m h
    refine (Gathered.filled [] parameters h).expect rfl fun h => .kind (.ite (fun _ => ?_) fun _ => ?_)
    · exact .bind (h.goal hself .block) fun body later h => h.whole rfl rfl rfl
    · exact .bind (h.goal hself .assignment) fun body later h => h.whole rfl rfl rfl
  have hsingle : s.current.kind = .identifier → Spans tokens n slack s (identifier >>= fun name =>
      Grammar.node s.current.start (.parameter name .absent) >>= fun single => rest [single]) := by
    refine fun hk => .bind (spans_identifier h hk) fun name m h => ?_
    exact .bind (h.absent.whole rfl rfl rfl) fun single later h => hrest [single] later h.toGathered
  refine .ite (fun hk => hsingle (by simpa using hk)) fun _ => ?_
  exact .bind (lays_parameterList hself h.laid n) fun parameters m h => hrest parameters m h

theorem spans_assignmentInside (h : Lined tokens s) :
    Spans tokens n 3 s (assignmentInside n self) := by
  refine .check (.ite (fun _ => spans_arrowFunction hself h) fun _ => .here ?_)
  refine .bind (hself (.binary 1) s h) fun left m hleft => ?_
  refine .kind (.ite (fun hoperator => ?_) fun _ => hleft.accept rfl (fun h => ?_) ?_)
  · have hne : m.current.kind ≠ .endOfFile := by
      intro heq
      simp [heq, Kind.isAssignment] at hoperator
    refine .ite (fun _ => .advance hne fun hpassed => ?_) fun _ => .complain
    exact .bind ((hleft.advance hpassed).goal hself .assignment) fun right later h =>
      h.whole rfl rfl rfl
  · refine .bind (h.goal hself .assignment) fun whenTrue middle h => ?_
    refine h.expect rfl fun h => ?_
    exact .bind (h.goal hself .assignment) fun whenFalse last h => h.whole rfl rfl rfl
  · exact .pure hleft

theorem spans_assignment (h : Lined tokens s) : Spans tokens n 3 s (assignment n self) := by
  refine .enter fun _ => .ite (fun _ => ?_) (absurd rfl ·)
  have hopened : Lined tokens s.opened := ⟨h.ordered, h.left, h.prevEnd⟩
  exact .bind (spans_assignmentInside hself hopened) fun node m h => Spanned.closed h

theorem spans_commaRest {links : Nat} {left : Node} (k : Nat) (h : Spanned tokens start left m) :
    Gives n slack m (commaRest self start k links left) (Spanned tokens start) := by
  induction k generalizing m slack links left with
  | zero => exact h.exhausted
  | succ k ih =>
    refine .kind (.ite (fun _ => h.closed) fun hcomma => ?_)
    have hcomma : m.current.kind = .comma := by simpa using hcomma
    refine .enter fun _ => .ite nofun fun _ => .advance (by simp [hcomma]) fun hpassed => ?_
    have hopened : Gathered tokens start [left] m.opened := h.toGathered.of_same rfl rfl rfl
    refine .bind ((hopened.advance hpassed).goal hself .assignment) fun right later h => ?_
    exact .bind (h.whole rfl rfl rfl) fun _ _ h => ih h

theorem spans_expression (h : Lined tokens s) : Spans tokens n 4 s (expression n self) :=
  .here (.bind (hself .assignment s h) fun _ _ h =>
    spans_commaRest hself n h)

theorem lays_statementsOnto {close : Kind} (k : Nat) {statements : List Node}
    (h : Laid tokens start statements.reverse m) :
    Gives n 8 m (statementsOnto close self k statements) fun result later =>
      Laid tokens start result later ∧
        (Gathered tokens start statements.reverse m → Gathered tokens start result later) := by
  induction k generalizing m statements with
  | zero => exact .exhaust (.pure ⟨h.of_same rfl rfl rfl, fun h => h.of_same rfl rfl rfl⟩)
  | succ k ih =>
    refine .kind (.check (.ite (fun _ => .pure ⟨h, id⟩) fun _ => .here ?_))
    refine .bind (.spare (hself .statement m h.lined) (by decide)) fun statement later hstatement => ?_
    have hpresent : statement.isPresent = true := by
      cases statement with
      | absent => cases hstatement.range
      | mk => rfl
    have h := h.add hstatement
    rw [← List.reverse_cons] at h
    have hrest : ∀ last, Gathered tokens start (statement :: statements).reverse last →
        Gives n 8 last (statementsOnto close self k
          (if statement.isPresent then statement :: statements else statements)) fun result last =>
            Laid tokens start result last ∧ (Gathered tokens start statements.reverse m →
              Gathered tokens start result last) := by
      intro last h
      rw [if_pos hpresent]
      exact (ih h.toLaid).mono fun _ _ hlast => ⟨hlast.1, fun _ => hlast.2 h⟩
    refine .here (.kind (.ite (fun hsame => ?_) fun _ => hrest later h))
    have hne : later.current.kind ≠ .endOfFile := by
      rw [Bool.and_eq_true] at hsame
      simpa using hsame.2
    exact .advance hne fun hpassed => hrest _ (h.advance hpassed)

theorem spans_block (h : Lined tokens s) : Spans tokens n slack s (block n self) := by
  refine .here (.expect rfl fun _ hopen => ?_)
  have h := h.laid.advance hopen
  refine .bind (lays_statementsOnto hself n h.toLaid) fun statements m hstatements => ?_
  exact (hstatements.2 h).expect rfl fun h => h.whole rfl rfl rfl

theorem lays_declarationsOnto (k : Nat) {declarations : List Node}
    (h : Gathered tokens start declarations.reverse m) :
    Gives n 8 m (declarationsOnto self k declarations) (Gathered tokens start) := by
  induction k generalizing m declarations with
  | zero => exact .exhaust (.pure (h.of_same rfl rfl rfl))
  | succ k ih =>
    refine .bind (h.part (spans_declaration hself h.lined)) fun node later h => ?_
    rw [← List.reverse_cons] at h
    exact h.accept rfl ih (.pure h)

theorem spans_variableList (h : Lined tokens s)
    (hk : s.current.kind ≠ .endOfFile) : Spans tokens n slack s (variableList n self) := by
  refine .current (.advance hk fun hpassed => ?_)
  exact .bind (lays_declarationsOnto hself n (h.laid.advance hpassed)) fun declarations m h =>
    h.whole rfl rfl rfl

omit hself in
theorem Gathered.endStatement {f : Unit → Parse β} (h : Gathered tokens start nodes m)
    (hf : ∀ later, Gathered tokens start nodes later → Gives n slack later (f ()) R) :
    Gives n slack m (Grammar.endStatement >>= f) R := by
  refine .bind (Q := fun _ later => Gathered tokens start nodes later) ?_ fun _ later h => hf later h
  refine h.accept rfl (fun h => .pure h) (.check (.ite (fun _ => .pure h) fun _ => ?_))
  have hwritten : Gives n slack m (discard (Grammar.expect .semicolon) >>= pure) fun _ later =>
      Gathered tokens start nodes later :=
    Gathered.expect rfl h fun h => .pure h
  exact hwritten

theorem spans_variableStatement (h : Lined tokens s)
    (hk : s.current.kind ≠ .endOfFile) : Spans tokens n slack s (variableStatement n self) := by
  refine .here (.bind (spans_variableList hself h hk) fun list m h => ?_)
  exact h.endStatement fun _ h => h.whole rfl rfl rfl

theorem spans_functionDeclaration (h : Lined tokens s) :
    Spans tokens n slack s (functionDeclaration n self) := by
  refine .here (.expect rfl fun _ hfunction => ?_)
  have h := h.laid.advance hfunction
  exact .bind (h.part (spans_bindingName h.lined)) fun name m h => spans_functionRest hself h n

theorem lays_condition (h : Gathered tokens start nodes m) :
    Gives n slack m (condition self) fun test later => Gathered tokens start (nodes ++ [test]) later :=
  h.expect rfl fun h => .bind (h.goal hself .expression) fun _ _ h =>
    h.expect rfl fun h => .pure h

theorem lays_optionalExpression (close : Kind) (h : Gathered tokens start nodes m) :
    Gives n 8 m (optionalExpression self close) fun value later =>
      Gathered tokens start (nodes ++ [value]) later :=
  .kind (.ite (fun _ => .pure h.absent) fun _ => h.goal hself .expression)

theorem spans_ifStatement (h : Lined tokens s) : Spans tokens n slack s (ifStatement self) := by
  refine .here (.expect rfl fun _ hif => ?_)
  refine .bind (lays_condition hself (h.laid.advance hif)) fun test m h => ?_
  refine .bind (h.goal hself .statement) fun thenBranch later h => ?_
  refine h.accept rfl (fun h => ?_) (h.absent.whole rfl rfl rfl)
  exact .bind (h.goal hself .statement) fun elseBranch last h => h.whole rfl rfl rfl

theorem spans_forStatement (h : Lined tokens s) : Spans tokens n slack s (forStatement n self) := by
  refine .here (.expect rfl fun _ hfor => .expect rfl fun _ hopen => .kind ?_)
  have h := (h.laid.advance hfor).advance hopen
  let rest := forRest self s.current.start
  have hrest : ∀ start m, Gathered tokens s.current.start [start] m →
      Gives n 8 m (rest start) (Spanned tokens s.current.start) := by
    refine fun start m h => .current (.ite (fun _ => .complain) fun _ => h.expect rfl fun h => ?_)
    refine .bind (lays_optionalExpression hself _ h) fun test m h => h.expect rfl fun h => ?_
    refine .bind (lays_optionalExpression hself _ h) fun update m h => h.expect rfl fun h => ?_
    exact .bind (h.goal hself .statement) fun body m h => h.whole rfl rfl rfl
  have hlist := fun hk => Gives.bind (h.part (spans_variableList hself h.lined hk))
    fun start m h => hrest start m h
  have hexpression := Gives.bind (lays_optionalExpression hself .semicolon h)
    fun start m h => hrest start m h
  generalize hk : s.advance.advance.current.kind = k at hlist ⊢
  cases k with
  | varWord | letWord | constWord => exact hlist nofun
  | _ => exact hexpression

theorem spans_whileStatement (h : Lined tokens s) :
    Spans tokens n slack s (whileStatement self) := by
  refine .here (.expect rfl fun _ hwhile => ?_)
  refine .bind (lays_condition hself (h.laid.advance hwhile).absent) fun test m h => ?_
  exact .bind (h.absent.goal hself .statement) fun body later h => h.whole rfl rfl rfl

theorem spans_doStatement (h : Lined tokens s) : Spans tokens n slack s (doStatement self) := by
  refine .here (.expect rfl fun _ hdo => ?_)
  refine .bind ((h.laid.advance hdo).goal hself .statement) fun body m h => ?_
  refine h.expect rfl fun h => .bind (lays_condition hself h) fun test later h => ?_
  have hend : ∀ last, Gathered tokens s.current.start [body, test] last → Gives n 8 last
      (Grammar.node s.current.start (.loop .doWhile .absent test .absent body))
      (Spanned tokens s.current.start) :=
    fun last h => h.made rfl (by simp [Shape.parts]) nofun
  have haccept : Gives n 8 later (accept .semicolon >>= fun _ =>
      Grammar.node s.current.start (.loop .doWhile .absent test .absent body))
      (Spanned tokens s.current.start) :=
    h.accept rfl (hend _) (hend _ h)
  exact haccept

theorem spans_returnStatement (h : Lined tokens s)
    (hk : s.current.kind ≠ .endOfFile) : Spans tokens n slack s (returnStatement self) := by
  refine .here (.advance hk fun hreturn => .check ?_)
  have h := h.laid.advance hreturn
  have hend : ∀ value m, Gathered tokens s.current.start [value] m →
      Gives n 8 m (endStatement >>= fun _ => Grammar.node s.current.start (.exit false value))
        (Spanned tokens s.current.start) :=
    fun _ _ h => h.endStatement fun _ h => h.whole rfl rfl rfl
  refine .ite (fun _ => hend .absent _ h.absent) fun _ => ?_
  exact .bind (h.goal hself .expression) fun value m h => hend value m h

theorem spans_throwStatement (h : Lined tokens s)
    (hk : s.current.kind ≠ .endOfFile) : Spans tokens n slack s (throwStatement self) := by
  refine .here (.advance hk fun hthrow => .current (.ite (fun _ => .complain) fun _ => ?_))
  exact .bind ((h.laid.advance hthrow).goal hself .expression) fun value m h =>
    h.endStatement fun _ h => h.whole rfl rfl rfl

omit hself in
theorem spans_jump {k : Tree.Kind} (h : Lined tokens s) (hk : s.current.kind ≠ .endOfFile) :
    Spans tokens n slack s (jump k) := by
  refine .here (.advance hk fun hpassed => .current (.ite (fun _ => .complain) fun _ => ?_))
  exact (h.laid.advance hpassed).endStatement fun _ h => h.whole rfl rfl rfl

omit hself in
theorem spans_emptyStatement (h : Lined tokens s) (hk : s.current.kind ≠ .endOfFile) :
    Spans tokens n slack s emptyStatement :=
  .here (h.leaf hk rfl rfl nofun)

theorem spans_expressionStatement (h : Lined tokens s) :
    Spans tokens n 5 s (expressionStatement self) := by
  refine .here (.bind (hself .expression s h) fun value m h => ?_)
  exact h.endStatement fun _ h => h.whole rfl rfl rfl

theorem spans_statementInside (h : Lined tokens s) :
    Spans tokens n 5 s (statementInside n self) := by
  have hnone : Spans tokens n 5 s statementInside.noStatement := .complain
  have hexpression : Spans tokens n 5 s (do
        if ← check State.startsExpression then expressionStatement self
        else statementInside.noStatement) :=
    .check (.ite (fun _ => spans_expressionStatement hself h) fun _ => hnone)
  refine .kind ?_
  split
  · exact .spare (hself .block s h) (by decide)
  · exact spans_variableStatement hself h (by simp [*])
  · exact spans_variableStatement hself h (by simp [*])
  · exact .check (.ite (fun _ => spans_variableStatement hself h (by simp [*])) fun _ => hnone)
  · exact spans_functionDeclaration hself h
  · exact spans_ifStatement hself h
  · exact spans_forStatement hself h
  · exact spans_whileStatement hself h
  · exact spans_doStatement hself h
  · exact spans_returnStatement hself h (by simp [*])
  · exact spans_throwStatement hself h (by simp [*])
  · exact spans_jump h (by simp [*])
  · exact spans_jump h (by simp [*])
  · exact spans_emptyStatement h (by simp [*])
  · exact hexpression

theorem spans_statement (h : Lined tokens s) : Spans tokens n 5 s (statement n self) := by
  have hopened : Lined tokens s.opened := ⟨h.ordered, h.left, h.prevEnd⟩
  exact .enter fun _ => .bind (spans_statementInside hself hopened) fun node m h => Spanned.closed h

end

theorem spansAll_productions (tokens : List Token) (n : Nat) : SpansAll tokens n (productions n) := by
  induction n with
  | zero =>
    intro goal s _ _ hfuel
    omega
  | succ n ih =>
    intro goal s h hs hfuel
    -- One step of the fuel is spent on the production itself.
    have hfuel : 8 * s.tokens.length + goal.rank ≤ n := Nat.le_of_succ_le_succ hfuel
    cases goal with
    | statement => exact spans_statement ih h hs hfuel
    | block => exact spans_block ih h hs hfuel
    | expression => exact spans_expression ih h hs hfuel
    | assignment => exact spans_assignment ih h hs hfuel
    | binary least => exact spans_binary ih h hs hfuel
    | unary => exact spans_unary ih h hs hfuel
    | new => exact spans_newExpression ih h hs hfuel

end Grammar

def Text.IsSlice (text : List Char) (first last : Nat) (part : List Char) : Prop :=
  ∃ before rest, text = before ++ (part ++ rest) ∧ first = byteLength before ∧
    last = byteLength (before ++ part)

open Text

theorem exists_isSlice {a b c d : List Char} (h : a ++ c = b ++ d) (hle : byteLength a ≤ byteLength b) :
    ∃ part, IsSlice (a ++ c) (byteLength a) (byteLength b) part := by
  obtain ⟨part, rfl, rfl⟩ | ⟨part, rfl, rfl⟩ := List.append_eq_append_iff.mp h
  · exact ⟨part, a, d, rfl, rfl, rfl⟩
  · have hnone : part = [] := by
      by_contra hsome
      have := Token.byteLength_pos hsome
      rw [byteLength_append] at hle
      omega
    subst hnone
    exact ⟨[], b, c, by simp, by simp, by simp⟩

namespace Token

def Stands (text : List Char) (token : Token) : Prop :=
  IsSlice text token.start token.fin token.text.toList

theorem Tile.stands {text rest before gap : List Char} {pos : Nat} {token : Token}
    (h : Tile text pos token rest before gap) : Stands text token := by
  refine ⟨before ++ gap, rest, ?_, ?_, h.read.2⟩
  · rw [h.divided]
    simp
  · rw [h.start, h.place, byteLength_append]

theorem Stands.start_le_fin {text : List Char} {token : Token} (h : Stands text token) :
    token.start ≤ token.fin := by
  obtain ⟨before, rest, -, hstart, hfin⟩ := h
  rw [hstart, hfin, byteLength_append]
  exact Nat.le_add_right _ _

theorem listFrom_stand {text cs : List Char} {pos : Nat} (count : Nat) (before : List Char)
    (htext : text = before ++ cs) (hpos : pos = byteLength before) :
    (∀ token ∈ listFrom count pos cs, pos ≤ token.start ∧ Stands text token) ∧
      (listFrom count pos cs).Pairwise fun a b => a.fin ≤ b.start := by
  induction count generalizing pos before cs with
  | zero => exact ⟨nofun, .nil⟩
  | succ count ih =>
    obtain ⟨gap, htile⟩ := tile_next htext hpos
    have hstart : pos ≤ (next pos cs).1.start := by
      rw [htile.start]
      exact Nat.le_add_right _ _
    rw [listFrom_succ]
    split
    · refine ⟨fun token htoken => ?_, List.pairwise_singleton _ _⟩
      obtain rfl := List.mem_singleton.mp htoken
      exact ⟨hstart, htile.stands⟩
    · obtain ⟨hall, hapart⟩ := ih _ htile.read.1 htile.read.2
      refine ⟨fun token htoken => ?_, List.pairwise_cons.mpr ⟨fun b hb => (hall b hb).1, hapart⟩⟩
      obtain rfl | htoken := List.mem_cons.mp htoken
      · exact ⟨hstart, htile.stands⟩
      · obtain ⟨hle, hstands⟩ := hall token htoken
        exact ⟨Nat.le_trans hstart (Nat.le_trans htile.stands.start_le_fin hle), hstands⟩

theorem list_stand {text : String} {token : Token} (h : token ∈ list text) : Stands text.toList token :=
  ((listFrom_stand _ [] rfl rfl).1 token h).2

theorem list_ordered (text : String) : Grammar.Ordered (list text) where
  spans _ htoken := (list_stand htoken).start_le_fin
  apart := (listFrom_stand _ [] rfl rfl).2

end Token

open ArrayLoops.Tree (Info Node Shape)

/-- The range of a node is a part of the text, what the node spells is that part, and its children lie
in it one behind the other. -/
structure Tree.Faithful (text : List Char) (info : Info) (shape : Shape Node) : Prop where
  slice : ∃ part, IsSlice text info.pos info.fin part ∧ ∀ spelled ∈ shape.spelled?, spelled.toList = part
  bounds : info.pos ≤ info.fin ∧ info.fin ≤ byteLength text
  inside : ∀ child ∈ (Node.mk info shape).children, child.Between info.pos info.fin
  apart : (Node.mk info shape).children.Pairwise Node.Precedes

theorem Text.IsSlice.bounds {text part : List Char} {first last : Nat} (h : IsSlice text first last part) :
    first ≤ last ∧ last ≤ byteLength text := by
  obtain ⟨before, rest, rfl, rfl, rfl⟩ := h
  simp only [byteLength_append]
  omega

theorem Grammar.Placed.faithful {text : String} {info : Info} {shape : Shape Node}
    (h : Grammar.Placed (Token.list text) info shape) : Tree.Faithful text.toList info shape := by
  have hslice : ∃ part, IsSlice text.toList info.pos info.fin part ∧
      ∀ spelled ∈ shape.spelled?, spelled.toList = part := by
    cases hspelled : shape.spelled? with
    | some spelled =>
      obtain ⟨token, htoken, hstart, hfin, rfl⟩ := h.spelled spelled hspelled
      refine ⟨token.text.toList, ?_, fun other hother => congrArg _ (Option.mem_some_iff.mp hother).symm⟩
      rw [← hstart, ← hfin]
      exact Token.list_stand htoken
    | none =>
      obtain ⟨first, hfirst, hpos⟩ := h.first
      obtain ⟨last, hlast, hfin⟩ := h.last
      obtain ⟨a, c, htext, hstart, -⟩ := Token.list_stand hfirst
      obtain ⟨b, d, htext', -, hend⟩ := Token.list_stand hlast
      rw [← List.append_assoc] at htext'
      have hle := h.pos_le_fin
      rw [← hpos, ← hfin, hstart, hend] at hle ⊢
      obtain ⟨part, hpart⟩ := exists_isSlice (htext ▸ htext') hle
      exact ⟨part, htext ▸ hpart, nofun⟩
  obtain ⟨part, hpart, hspelled⟩ := hslice
  exact ⟨⟨part, hpart, hspelled⟩, hpart.bounds,
    fun child hchild => h.inside child (List.mem_filter.mp hchild).1,
    h.apart.sublist List.filter_sublist⟩

theorem parse_placed {name text : String} (h : (parse name text).complaints = []) :
    ∃ id fin statements, (parse name text).root = .mk ⟨id, 0, fin, {}⟩ (.file name statements) ∧
      (∃ last ∈ Token.list text, last.fin = fin) ∧
      (∀ statement ∈ statements, Grammar.AllPlaced (Token.list text) statement ∧ statement.Between 0 fin) ∧
      statements.Pairwise Node.Precedes := by
  let s := Grammar.State.start (Token.list text)
  let n := Grammar.fuelFor (Token.list text)
  let p := Grammar.statementList n .endOfFile (Grammar.productions n)
  have htokens : s.tokens = Token.list text := Grammar.tokens_start text
  have hlined : Grammar.Lined (Token.list text) s := by
    refine ⟨Token.list_ordered text, htokens ▸ List.suffix_rfl, ?_⟩
    obtain ⟨first, rest, hlist⟩ := Grammar.list_eq_cons text
    simp [s, hlist, Grammar.State.start]
  have hfuel : 8 * s.tokens.length + 8 ≤ n := by
    simp only [htokens, n, Grammar.fuelFor]
    omega
  have hlaid := (Grammar.lays_statementsOnto (Grammar.spansAll_productions (Token.list text) n) n
    hlined.laid (Grammar.sourced_start text) hfuel (Grammar.parse_clean h)).1
  have hlast := hlaid.lined.current_mem
  refine ⟨_, _, (p s).1, rfl, ⟨_, hlast, rfl⟩, fun statement hmem => ⟨hlaid.placed statement hmem, ?_⟩,
    hlaid.apart⟩
  refine (hlaid.between statement hmem).mono (Nat.zero_le _) ?_
  exact Nat.le_trans hlaid.lined.prevEnd (hlaid.lined.ordered.spans _ hlast)

theorem Lowering.call_of_mem_sites {plan : Plan} {root : Node} {site : CallSite}
    (h : site ∈ plan.sites root 0) : ∃ info shape, shape.kind = .call ∧
      Node.Within (.mk info shape) root ∧
        (Pass.changeOf plan.arena site).pos = info.pos ∧ (Pass.changeOf plan.arena site).fin = info.fin := by
  obtain ⟨entry, hentry, hsite⟩ := List.mem_filterMap.mp h
  have hcall : CallSite.ofCall plan.arena plan.options entry.2 = .ok site := by
    simp only [Plan.site?] at hsite
    split at hsite
    · cases hsite
    · cases hof : CallSite.ofCall plan.arena plan.options entry.2 with
      | error => simp [hof, Except.toOption] at hsite
      | ok other => simpa [hof, Except.toOption] using hsite
  obtain ⟨info, _, _, _, _, hnode, hsame, -⟩ := CallSite.ofCall_spec hcall
  have hwithin := Node.within_of_mem_postorder hentry
  rw [hnode] at hwithin
  refine ⟨info, _, rfl, hwithin, ?_, ?_⟩ <;> simp only [Pass.changeOf, hsame, hnode] <;> rfl

/-- Characters of more than one byte, a chain of calls, a loop that tests at its end and parts that are
left out. -/
def placedText : String :=
  "x = 'é'; do a.map(f).filter(g); while (b ? 1 : 2)\nfor (;;) return"

end ArrayLoops
