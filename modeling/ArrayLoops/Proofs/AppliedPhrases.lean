import ArrayLoops.Proofs.AppliedText
import ArrayLoops.Proofs.PassTree

/-!
# What directives make of phrases

The tree that proper directives make of a program is a program again. A value that stands in the
place of a call is a name, or it is put in parentheses where something binds tighter.
-/

namespace ArrayLoops.Grammar

open Token (Kind)
open ArrayLoops.Tree (Info Node Shape)

namespace Level

/-- The node is a phrase of the level wherever it stands. The number of links may be another. -/
def Fits (node : Node) : Level → Prop
  | .expression _ => ∀ depth, ∃ links, Phrase false (.expression links) depth node
  | .binary least _ => ∀ depth, ∃ links, Phrase false (.binary least links) depth node
  | .member calls _ => ∀ depth, ∃ links, Phrase false (.member calls links) depth node
  | level => ∀ depth, Phrase false level depth node

def isExpression : Level → Bool
  | .expression _ | .assignment | .binary .. | .unary | .operand | .member .. | .head | .new => true
  | _ => false

def isChain : Level → Bool
  | .operand | .member .. => true
  | _ => false

variable {node : Node} {level : Level}

theorem Fits.isPresent (h : level.Fits node) : node.isPresent := by
  cases level with
  | expression _ | binary _ _ | member _ _ =>
    obtain ⟨links, hphrase⟩ := h 0
    exact hphrase.isPresent
  | _ => exact Phrase.isPresent (h 0)

theorem Fits.words_ne_nil (h : level.Fits node) : words node ≠ [] := by
  cases level with
  | expression _ | binary _ _ | member _ _ =>
    obtain ⟨links, hphrase⟩ := h 0
    exact hphrase.words_ne_nil
  | _ => exact Phrase.words_ne_nil (h 0)

theorem Fits.of_unary (h : Level.unary.Fits node) (hlevel : level.isExpression) (hchain : level.isChain = false)
    (hhead : level ≠ .head) (hnew : level ≠ .new) : level.Fits node := by
  cases level with
  | unary => exact h
  | binary least links => exact fun depth => ⟨0, .ofUnary (h depth)⟩
  | assignment => exact fun depth => .ofBinary nofun (.ofUnary (h _))
  | expression links => exact fun depth => ⟨0, .ofAssignment (.ofBinary nofun (.ofUnary (h _)))⟩
  | head => exact absurd rfl hhead
  | new => exact absurd rfl hnew
  | operand | member _ _ => cases hchain
  | _ => cases hlevel

theorem Fits.of_head (h : Level.head.Fits node) (hlevel : level.isExpression) (hnew : level ≠ .new) :
    level.Fits node := by
  have hoperand : Level.operand.Fits node := fun depth => .ofMember (.ofHead (h depth))
  cases level with
  | head => exact h
  | member calls links => exact fun depth => ⟨0, .ofHead (h depth)⟩
  | operand => exact hoperand
  | new => exact absurd rfl hnew
  | unary | binary _ _ | assignment | expression _ =>
    exact of_unary (fun depth => .ofOperand (hoperand depth)) hlevel rfl nofun nofun
  | _ => cases hlevel

end Level

theorem Phrase.level_of_call {limited : Bool} {level : Level} {depth : Nat} {info : Info} {callee : Node}
    {isListed : Bool} {arguments : List Node}
    (h : Phrase limited level depth (.mk info (.call false callee isListed arguments))) :
    level.isExpression ∧ level ≠ .head ∧ level ≠ .new := by
  generalize hnode : Node.mk info (.call false callee isListed arguments) = node at h
  induction h with
  | leaf hleaf =>
    subst hnode
    cases hleaf
  | ofNew _ ih => exact absurd rfl (ih hnode).2.2
  | ofHead _ ih => exact absurd rfl (ih hnode).2.1
  | ofMember _ ih | ofOperand _ ih | ofUnary _ ih | ofBinary _ _ ih | ofAssignment _ ih =>
    exact ⟨rfl, nofun, nofun⟩
  | ofBlock _ _ ih => exact absurd (ih hnode).1 nofun
  | call => exact ⟨rfl, nofun, nofun⟩
  | _ => cases hnode

theorem Phrase.isKind_of_variables {limited : Bool} {depth : Nat} {node : Node}
    (h : Phrase limited .variables depth node) : node.isKind .variableList = true := by
  cases h
  rfl

end ArrayLoops.Grammar

namespace ArrayLoops.Lowering

open Grammar (Leaf Level Phrase firstKind? isOpenIf isOpenNew isTarget words)
open Layout (Placed PlacedAt innerNode isTight need)
open Token (Kind)
open ArrayLoops.Tree (Arena Info Node NodeId Shape)

attribute [local simp] Shape.parts

def startsValue : Kind → Bool
  | .identifier | .openParen | .voidWord => true
  | _ => false

def Begins (before after : Node) : Prop :=
  firstKind? after = firstKind? before ∨ ∃ kind, firstKind? after = some kind ∧ startsValue kind

theorem Begins.ne {before after : Node} {kind : Kind} (h : Begins before after) (hkind : startsValue kind = false)
    (hne : firstKind? before ≠ some kind) : firstKind? after ≠ some kind := by
  obtain heq | ⟨other, heq, hother⟩ := h
  · rwa [heq]
  · intro hsame
    obtain rfl : other = kind := by simpa [heq] using hsame
    rw [hkind] at hother
    cases hother

/-- What a phrase becomes in its places. The value of a call may be a phrase with a leading operator,
if nothing around the call binds tighter. -/
structure Turns (arena : Arena) (level : Level) (node : Node) (applied : Applied) : Prop where
  phrase : level ≠ .statement → level.Fits applied.node ∨
    level.isChain ∧ Level.unary.Fits applied.node ∧ ∀ id, node.id? = some id → isTight arena id = false
  first : level.isExpression → Begins node applied.node
  closed : isOpenNew applied.node → isOpenNew node
  target : isTarget node → isTarget applied.node
  items : level = .statement → ∀ item ∈ applied.items, Level.statement.Fits item
  embedded : level = .statement → Level.statement.Fits applied.embedded
  openIf : level = .statement → isOpenIf applied.embedded → isOpenIf node

structure PartsTurn (arena : Arena) (applied : Node → Applied) (info : Info) (shape : Shape Node) :
    Prop where
  known : arena.Knows (.mk info shape)
  absent : applied .absent = ⟨.absent, [], .absent⟩
  leaf : ∀ part ∈ shape.parts, ∀ {kinds}, Leaf kinds part → (applied part).node = part
  turns : ∀ part ∈ shape.parts, ∀ {limited level depth}, Phrase limited level depth part →
    Turns arena level part (applied part)

namespace PartsTurn

variable {arena : Arena} {applied : Node → Applied} {info : Info} {shape : Shape Node} {part : Node}
  {limited : Bool} {level : Level} {depth : Nat}

theorem fits (h : PartsTurn arena applied info shape) (hphrase : Phrase limited level depth part)
    (hp : part ∈ shape.parts) (hlevel : level ≠ .statement) (hchain : level.isChain = false) :
    level.Fits (applied part).node := by
  obtain hfits | ⟨hother, -⟩ := (h.turns part hp hphrase).phrase hlevel
  · exact hfits
  · rw [hchain] at hother
    cases hother

theorem closed (h : PartsTurn arena applied info shape) (hphrase : Phrase limited level depth part)
    (hp : part ∈ shape.parts) (hclosed : isOpenNew part = false) : isOpenNew (applied part).node = false := by
  by_contra hopen
  rw [(h.turns part hp hphrase).closed (by simpa using hopen)] at hclosed
  cases hclosed

theorem node_isPresent (h : PartsTurn arena applied info shape) (hpresent : (applied part).node.isPresent) :
    part.isPresent := by
  cases part with
  | absent =>
    rw [h.absent] at hpresent
    exact hpresent
  | mk => rfl

theorem embedded_isPresent (h : PartsTurn arena applied info shape)
    (hpresent : (applied part).embedded.isPresent) : part.isPresent := by
  cases part with
  | absent =>
    rw [h.absent] at hpresent
    exact hpresent
  | mk => rfl

end PartsTurn

theorem Begins.of_cons {before after : Node} {first other : Grammar.Spelling} {rest others : List Grammar.Spelling}
    (hbefore : words before = first :: rest) (hafter : words after = other :: others)
    (hkind : other.kind = first.kind) : Begins before after := by
  left
  simp [firstKind?, hbefore, hafter, hkind]

theorem Begins.of_append {before after first other : Node} {rest others : List Grammar.Spelling}
    (h : Begins first other) (hbefore : words before = words first ++ rest)
    (hafter : words after = words other ++ others) (hne : words first ≠ []) (hother : words other ≠ []) :
    Begins before after := by
  unfold Begins
  rw [firstKind?_of_append hbefore hne, firstKind?_of_append hafter hother]
  exact h

theorem Turns.words_ne_nil {arena : Arena} {level : Level} {node : Node} {applied : Applied}
    (h : Turns arena level node applied) (hlevel : level ≠ .statement) : words applied.node ≠ [] := by
  obtain hfits | ⟨-, hfits, -⟩ := h.phrase hlevel
  · exact hfits.words_ne_nil
  · exact hfits.words_ne_nil

namespace PartsTurn

variable {arena : Arena} {applied : Node → Applied} {info : Info} {shape : Shape Node}
  {limited : Bool} {level : Level} {depth : Nat}

theorem begins_part {part : Node} {rest others : List Grammar.Spelling}
    (h : PartsTurn arena applied info shape) (hphrase : Phrase limited level depth part)
    (hlevel : level.isExpression) (hp : part ∈ shape.parts)
    (hbefore : words (.mk info shape) = words part ++ rest)
    (hafter : words (.mk info (rebuild (shape.map applied))) = words (applied part).node ++ others) :
    Begins (.mk info shape) (.mk info (rebuild (shape.map applied))) := by
  have hturns := h.turns part hp hphrase
  have hstatement : level ≠ .statement := by
    rintro rfl
    cases hlevel
  exact (hturns.first hlevel).of_append hbefore hafter hphrase.words_ne_nil (hturns.words_ne_nil hstatement)

theorem begins (h : PartsTurn arena applied info shape) (hphrase : Phrase limited level depth (.mk info shape))
    (hlevel : level.isExpression) : Begins (.mk info shape) (.mk info (rebuild (shape.map applied))) := by
  generalize hnode : Node.mk info shape = node at hphrase
  induction hphrase with
  | leaf hleaf =>
    subst hnode
    cases hleaf <;> exact .inl rfl
  | word =>
    cases hnode
    exact .inl rfl
  | ofNew _ ih | ofHead _ ih | ofMember _ ih | ofOperand _ ih | ofUnary _ ih | ofBinary _ _ ih
  | ofAssignment _ ih => exact hnode ▸ ih rfl hnode
  | parenthesized =>
    cases hnode
    exact .of_cons Grammar.words_parenthesized Grammar.words_parenthesized rfl
  | array =>
    cases hnode
    exact .of_cons Grammar.words_array Grammar.words_array rfl
  | object =>
    cases hnode
    exact .of_cons Grammar.words_object Grammar.words_object rfl
  | functionExpression =>
    cases hnode
    exact .of_cons (Grammar.words_function nofun) (Grammar.words_function nofun) rfl
  | arrowBlock | arrowExpression =>
    cases hnode
    exact .of_cons Grammar.words_arrow Grammar.words_arrow rfl
  | newListed =>
    cases hnode
    exact .of_cons Grammar.words_newListed Grammar.words_newListed rfl
  | newBare =>
    cases hnode
    exact .of_cons Grammar.words_newBare Grammar.words_newBare rfl
  | leading =>
    cases hnode
    exact .of_cons Grammar.words_leading Grammar.words_leading rfl
  | access hobject =>
    cases hnode
    exact h.begins_part hobject rfl (by simp) Grammar.words_access Grammar.words_access
  | element hobject =>
    cases hnode
    exact h.begins_part hobject rfl (by simp) Grammar.words_element Grammar.words_element
  | call hcallee =>
    cases hnode
    exact h.begins_part hcallee rfl (by simp) Grammar.words_call Grammar.words_call
  | trailing _ hoperand =>
    cases hnode
    exact h.begins_part hoperand rfl (by simp) Grammar.words_trailing Grammar.words_trailing
  | operator _ _ hleft | assign _ hleft | comma hleft =>
    cases hnode
    exact h.begins_part hleft rfl (by simp) Grammar.words_binary Grammar.words_binary
  | conditional _ hcondition =>
    cases hnode
    exact h.begins_part hcondition rfl (by simp)
      (Grammar.words_conditional.trans (List.append_assoc ..))
      (Grammar.words_conditional.trans (List.append_assoc ..))
  | _ => cases hlevel

end PartsTurn

/-- What stands around the part binds tighter than an operator before the part would. -/
inductive BindsTighter : Shape Node → Node → Prop where
  | object {isElement : Bool} {object key : Node} : BindsTighter (.access isElement object key) object
  | callee {isNew isListed : Bool} {callee : Node} {arguments : List Node} :
    BindsTighter (.call isNew callee isListed arguments) callee
  | operand {operator : Option Kind} {operand : Node} : BindsTighter (.unary true operator operand) operand
  | base {left right : Node} : BindsTighter (.binary left (some .power) right) left

theorem BindsTighter.mem_parts {shape : Shape Node} {part : Node} (h : BindsTighter shape part) :
    part ∈ shape.parts := by
  cases h <;> exact List.mem_cons_self

section
variable {arena : Arena} {info : Info} {shape : Shape Node} {part : Node} {id : NodeId}

theorem parentOf?_part (h : arena.Knows (.mk info shape)) (hp : part ∈ shape.parts)
    (hid : part.id? = some id) : arena.parentOf? id = some (.mk info shape) := by
  have hpresent : part.isPresent := by
    cases part with
    | absent => cases hid
    | mk => rfl
  simpa [Arena.parent?, hid] using h.parent hp hpresent

theorem BindsTighter.isTight (hb : BindsTighter shape part) (h : arena.Knows (.mk info shape))
    (hid : part.id? = some id) : isTight arena id := by
  have hparent := parentOf?_part h hb.mem_parts hid
  cases hb <;> simp [Layout.isTight, hparent, hid]

/-- Values are put in parentheses exactly where something around them binds tighter. -/
theorem isTight_iff (h : arena.Knows (.mk info shape)) (hp : part ∈ shape.parts)
    (hid : part.id? = some id) : isTight arena id ↔ BindsTighter shape part := by
  refine ⟨fun htight => ?_, fun hb => hb.isTight h hid⟩
  have hsame : ∀ other ∈ shape.parts, other.id? = some id → other = part := fun other ho hother =>
    h.unique (.part ho .self) (.part hp .self) hother hid
  rw [isTight, parentOf?_part h hp hid] at htight
  split at htight
  · rename_i heq
    cases heq
    obtain rfl := hsame _ List.mem_cons_self (by simpa using htight)
    exact .object
  · rename_i heq
    cases heq
    obtain rfl := hsame _ List.mem_cons_self (by simpa using htight)
    exact .callee
  · rename_i heq
    cases heq
    obtain rfl := List.mem_singleton.mp hp
    exact .operand
  · rename_i heq
    cases heq
    obtain rfl := hsame _ List.mem_cons_self (by simpa using htight)
    exact .base
  · cases htight

end

namespace PartsTurn

variable {arena : Arena} {applied : Node → Applied} {info : Info} {shape : Shape Node}
  {limited : Bool} {level : Level} {depth : Nat}

theorem fits_tight {part : Node} (h : PartsTurn arena applied info shape)
    (hphrase : Phrase limited level depth part) (htight : BindsTighter shape part)
    (hlevel : level ≠ .statement) : level.Fits (applied part).node := by
  obtain hfits | ⟨-, -, hloose⟩ := (h.turns part htight.mem_parts hphrase).phrase hlevel
  · exact hfits
  · have hpresent := hphrase.isPresent
    cases part with
    | absent => cases hpresent
    | mk partInfo partShape =>
      have hid := htight.isTight h.known rfl
      rw [hloose _ rfl] at hid
      cases hid

theorem fits_value {part : Node} (h : PartsTurn arena applied info shape) (hp : part ∈ shape.parts)
    (hphrase : part.isPresent → Phrase limited .assignment depth part) (other : Nat)
    (hpresent : (applied part).node.isPresent) : Phrase false .assignment other (applied part).node :=
  h.fits (hphrase (h.node_isPresent hpresent)) hp nofun rfl other

theorem fits_optional {part : Node} {links : Nat} (h : PartsTurn arena applied info shape)
    (hp : part ∈ shape.parts) (hphrase : part.isPresent → Phrase limited (.expression links) depth part)
    (other : Nat) :
    ∃ links, (applied part).node.isPresent → Phrase false (.expression links) other (applied part).node := by
  by_cases hpresent : part.isPresent
  · obtain ⟨links, hafter⟩ := h.fits (hphrase hpresent) hp nofun rfl other
    exact ⟨links, fun _ => hafter⟩
  · exact ⟨0, fun hafter => absurd (h.node_isPresent hafter) hpresent⟩

theorem fits_initializer {part : Node} {links : Nat} (h : PartsTurn arena applied info shape)
    (hp : part ∈ shape.parts) (hlist : part.isKind .variableList → Phrase limited .variables depth part)
    (hphrase : part.isPresent → part.isKind .variableList = false →
      Phrase limited (.expression links) depth part) (other : Nat) :
    ∃ links, ((applied part).node.isKind .variableList → Phrase false .variables other (applied part).node) ∧
      ((applied part).node.isPresent → (applied part).node.isKind .variableList = false →
        Phrase false (.expression links) other (applied part).node) := by
  cases hkind : part.isKind .variableList with
  | true =>
    have hafter := h.fits (hlist hkind) hp (by simp) rfl other
    refine ⟨0, fun _ => hafter, fun _ hother => ?_⟩
    rw [Grammar.Phrase.isKind_of_variables hafter] at hother
    cases hother
  | false =>
    obtain ⟨links, hafter⟩ := h.fits_optional hp (fun hpresent => hphrase hpresent hkind) other
    refine ⟨links, fun hother => ?_, fun hpresent _ => hafter hpresent⟩
    have hpresent : (applied part).node.isPresent := by
      cases hnode : (applied part).node with
      | absent => simp [hnode, Node.isKind, Node.kind?] at hother
      | mk => rfl
    rw [(hafter hpresent).isKind_variableList (by simp)] at hother
    cases hother

theorem fits_list {nodes : List Node} (h : PartsTurn arena applied info shape)
    (hphrase : ∀ node ∈ nodes, Phrase limited level depth node) (hp : ∀ node ∈ nodes, node ∈ shape.parts)
    (hlevel : level ≠ .statement) (hchain : level.isChain = false) :
    ∀ node ∈ (nodes.map applied).map (·.node), level.Fits node := by
  simp only [List.map_map, List.forall_mem_map]
  exact fun node hn => h.fits (hphrase node hn) (hp node hn) hlevel hchain

theorem binding {part : Node} {kinds : Kind → Bool} (h : PartsTurn arena applied info shape)
    (hleaf : part.isPresent → Leaf kinds part) (hp : part ∈ shape.parts)
    (hpresent : (applied part).node.isPresent) : Leaf kinds (applied part).node := by
  have hpart := hleaf (h.node_isPresent hpresent)
  rwa [h.leaf part hp hpart]

theorem named {part : Node} {kinds : Kind → Bool} (h : PartsTurn arena applied info shape)
    (hleaf : Leaf kinds part) (hp : part ∈ shape.parts) : Leaf kinds (applied part).node := by
  rwa [h.leaf part hp hleaf]

theorem shut {part : Node} (h : PartsTurn arena applied info shape)
    (hphrase : Phrase limited .statement depth part) (hp : part ∈ shape.parts)
    (hshut : isOpenIf part = false) : isOpenIf (applied part).embedded = false := by
  by_contra hopen
  rw [(h.turns part hp hphrase).openIf rfl (by simpa using hopen)] at hshut
  cases hshut

theorem fits_statement {part : Node} (h : PartsTurn arena applied info shape)
    (hphrase : Phrase limited .statement depth part) (hp : part ∈ shape.parts) :
    Level.statement.Fits (applied part).embedded := (h.turns part hp hphrase).embedded rfl

theorem fits_inside (h : PartsTurn arena applied info shape) (hphrase : Phrase limited level depth (.mk info shape)) :
    level.Fits (.mk info (rebuild (shape.map applied))) := by
  -- A level that only takes up another one adds no part, so the node stays the same.
  generalize hnode : Node.mk info shape = node at hphrase
  induction hphrase with
  | leaf hleaf =>
    subst hnode
    cases hleaf with
    | name hk hg => exact fun depth => .leaf (.name hk hg)
    | literal hk hg => exact fun depth => .leaf (.literal hk hg)
  | word hkind =>
    cases hnode
    exact fun depth => .word hkind
  | ofNew _ ih => exact fun depth => .ofNew (ih hnode depth)
  | ofHead _ ih => exact fun depth => ⟨0, .ofHead (ih hnode depth)⟩
  | ofMember _ ih =>
    intro depth
    obtain ⟨links, hmember⟩ := ih hnode depth
    exact .ofMember hmember
  | ofOperand _ ih => exact fun depth => .ofOperand (ih hnode depth)
  | ofUnary _ ih => exact fun depth => ⟨0, .ofUnary (ih hnode depth)⟩
  | ofBinary _ _ ih =>
    intro depth
    obtain ⟨links, hbinary⟩ := ih hnode (depth + 1)
    exact .ofBinary .unlimited hbinary
  | ofAssignment _ ih => exact fun depth => ⟨0, .ofAssignment (ih hnode depth)⟩
  | ofBlock _ _ ih => exact fun depth => .ofBlock .unlimited (ih hnode (depth + 1))
  | parenthesized hexpression =>
    cases hnode
    intro depth
    obtain ⟨links, hafter⟩ := h.fits hexpression (by simp) (by simp) rfl depth
    exact .parenthesized hafter
  | array helements =>
    cases hnode
    exact fun depth => .array fun element he =>
      h.fits_list helements (fun _ hn => hn) (by simp) rfl element he depth
  | object hproperties =>
    cases hnode
    exact fun depth => .object fun property hp =>
      h.fits_list hproperties (fun _ hn => hn) (by simp) rfl property hp depth
  | functionExpression hname hparameters hbody =>
    cases hnode
    intro depth
    refine .functionExpression (h.binding hname (by simp)) (fun parameter hp => ?_)
      (h.fits hbody (by simp) (by simp) rfl depth)
    exact h.fits_list hparameters (by simp_all) (by simp) rfl parameter hp depth
  | property hname hvalue =>
    cases hnode
    exact fun depth => .property (h.named hname (by simp))
      (h.fits hvalue (by simp) (by simp) rfl depth)
  | shorthand hname =>
    cases hnode
    simp only [Shape.map, rebuild, h.absent]
    exact fun depth => .shorthand (h.named hname (by simp))
  | newListed hcallee hclosed harguments =>
    cases hnode
    intro depth
    obtain ⟨links, hafter⟩ := h.fits_tight hcallee .callee (by simp) depth
    exact .newListed hafter (h.closed hcallee (by simp) hclosed) fun argument ha =>
      h.fits_list harguments (by simp_all) (by simp) rfl argument ha depth
  | newBare hcallee =>
    cases hnode
    intro depth
    obtain ⟨links, hafter⟩ := h.fits_tight hcallee .callee (by simp) depth
    exact .newBare hafter
  | access hobject hclosed _ hkey =>
    cases hnode
    intro depth
    obtain ⟨links, hafter⟩ := h.fits_tight hobject .object (by simp) depth
    exact ⟨_, .access hafter (h.closed hobject (by simp) hclosed) .unlimited
      (h.named hkey (by simp))⟩
  | element hobject hclosed _ hkey =>
    cases hnode
    intro depth
    obtain ⟨links, hafter⟩ := h.fits_tight hobject .object (by simp) depth
    obtain ⟨more, hindex⟩ := h.fits hkey (by simp) (by simp) rfl (depth + links + 1)
    exact ⟨_, .element hafter (h.closed hobject (by simp) hclosed) .unlimited hindex⟩
  | call hcallee hclosed _ harguments =>
    cases hnode
    intro depth
    obtain ⟨links, hafter⟩ := h.fits_tight hcallee .callee (by simp) depth
    exact ⟨_, .call hafter (h.closed hcallee (by simp) hclosed) .unlimited fun argument ha =>
      h.fits_list harguments (by simp_all) (by simp) rfl argument ha _⟩
  | trailing hoperator hoperand =>
    cases hnode
    intro depth
    obtain ⟨links, hafter⟩ := h.fits_tight hoperand .operand (by simp) depth
    exact .trailing hoperator hafter
  | leading hoperator _ hoperand =>
    cases hnode
    exact fun depth => .leading hoperator .unlimited (h.fits hoperand (by simp) (by simp) rfl _)
  | operator hoperator hleast hleft _ hright =>
    cases hnode
    intro depth
    obtain ⟨links, hfirst⟩ := h.fits hleft (by simp) (by simp) rfl depth
    obtain ⟨more, hsecond⟩ := h.fits hright (by simp) (by simp) rfl (depth + links + 1)
    exact ⟨_, .operator hoperator hleast hfirst .unlimited hsecond⟩
  | assign _ hleft htarget hoperator hright =>
    cases hnode
    intro depth
    obtain ⟨links, hfirst⟩ := h.fits hleft (by simp) (by simp) rfl (depth + 1)
    exact .assign .unlimited hfirst ((h.turns _ (by simp) hleft).target htarget) hoperator
      (h.fits hright (by simp) (by simp) rfl _)
  | conditional _ hcondition htrue hfalse =>
    cases hnode
    intro depth
    obtain ⟨links, hfirst⟩ := h.fits hcondition (by simp) (by simp) rfl (depth + 1)
    exact .conditional .unlimited hfirst (h.fits htrue (by simp) (by simp) rfl _)
      (h.fits hfalse (by simp) (by simp) rfl _)
  | arrowBlock _ hparameters hbody =>
    cases hnode
    simp only [Shape.map, rebuild, h.absent]
    exact fun depth => .arrowBlock .unlimited
      (fun parameter hp => h.fits_list hparameters (by simp_all) (by simp) rfl parameter hp _)
      (h.fits hbody (by simp) (by simp) rfl _)
  | arrowExpression _ hparameters hbody hfirst =>
    cases hnode
    have hbegins := (h.turns _ (by simp) hbody).first rfl
    simp only [Shape.map, rebuild, h.absent]
    exact fun depth => .arrowExpression .unlimited
      (fun parameter hp => h.fits_list hparameters (by simp_all) (by simp) rfl parameter hp _)
      (h.fits hbody (by simp) (by simp) rfl _) (hbegins.ne rfl hfirst)
  | comma hleft _ hright =>
    cases hnode
    intro depth
    obtain ⟨links, hfirst⟩ := h.fits hleft (by simp) (by simp) rfl depth
    exact ⟨_, .comma hfirst .unlimited (h.fits hright (by simp) (by simp) rfl _)⟩
  | parameter hname hvalue =>
    cases hnode
    exact fun depth => .parameter (h.named hname (by simp))
      (h.fits_value (by simp) hvalue depth)
  | «variable» hname hvalue =>
    cases hnode
    exact fun depth => .variable (h.named hname (by simp))
      (h.fits_value (by simp) hvalue depth)
  | «variables» hne hdeclarations =>
    cases hnode
    exact fun depth => .variables (by simpa using hne) fun declared hd =>
      h.fits_list hdeclarations (fun _ hn => hn) (by simp) rfl declared hd depth
  | block hstatements =>
    cases hnode
    refine fun depth => .block fun item hi => ?_
    simp only [List.mem_flatMap, List.mem_map] at hi
    obtain ⟨-, ⟨statement, hs, rfl⟩, hi⟩ := hi
    exact (h.turns statement hs (hstatements statement hs)).items rfl item hi depth
  | variableStatement _ hlist =>
    cases hnode
    exact fun depth => .variableStatement .unlimited (h.fits hlist (by simp) (by simp) rfl _)
  | functionDeclaration _ hname hparameters hbody =>
    cases hnode
    exact fun depth => .functionDeclaration .unlimited (h.named hname (by simp))
      (fun parameter hp => h.fits_list hparameters (by simp_all) (by simp) rfl parameter hp _)
      (h.fits hbody (by simp) (by simp) rfl _)
  | branch _ hcondition hthen hopen helse =>
    cases hnode
    intro depth
    obtain ⟨links, htest⟩ := h.fits hcondition (by simp) (by simp) rfl (depth + 1)
    refine .branch .unlimited htest (h.fits_statement hthen (by simp) _) (fun hpresent => ?_)
      fun hpresent => h.fits_statement (helse (h.embedded_isPresent hpresent)) (by simp) _
    exact h.shut hthen (by simp) (hopen (h.embedded_isPresent hpresent))
  | forLoop _ hlist hfirst hcondition hupdate hbody =>
    cases hnode
    intro depth
    obtain ⟨first, hlist, hfirst⟩ := h.fits_initializer (by simp) hlist hfirst (depth + 1)
    obtain ⟨second, hcondition⟩ := h.fits_optional (by simp) hcondition (depth + 1)
    obtain ⟨third, hupdate⟩ := h.fits_optional (by simp) hupdate (depth + 1)
    exact .forLoop .unlimited hlist hfirst hcondition hupdate (h.fits_statement hbody (by simp) _)
  | whileLoop _ hcondition hbody =>
    cases hnode
    intro depth
    obtain ⟨links, htest⟩ := h.fits hcondition (by simp) (by simp) rfl (depth + 1)
    simp only [Shape.map, rebuild, h.absent]
    exact .whileLoop .unlimited htest (h.fits_statement hbody (by simp) _)
  | doLoop _ hcondition hbody =>
    cases hnode
    intro depth
    obtain ⟨links, htest⟩ := h.fits hcondition (by simp) (by simp) rfl (depth + 1)
    simp only [Shape.map, rebuild, h.absent]
    exact .doLoop .unlimited htest (h.fits_statement hbody (by simp) _)
  | exit _ hthrow hvalue =>
    cases hnode
    intro depth
    obtain ⟨links, hafter⟩ := h.fits_optional (by simp) hvalue (depth + 1)
    refine .exit .unlimited (fun hisThrow => ?_) hafter
    exact (h.fits (hvalue (hthrow hisThrow)) (by simp) (by simp) rfl).isPresent
  | jump _ hkind =>
    cases hnode
    exact fun depth => .jump .unlimited hkind
  | evaluate _ hexpression hbrace hfunction =>
    cases hnode
    intro depth
    have hbegins := (h.turns _ (by simp) hexpression).first rfl
    obtain ⟨links, hafter⟩ := h.fits hexpression (by simp) (by simp) rfl (depth + 1)
    exact .evaluate .unlimited hafter (hbegins.ne rfl hbrace) (hbegins.ne rfl hfunction)

theorem target (h : PartsTurn arena applied info shape) (hphrase : Phrase limited level depth (.mk info shape))
    (htarget : isTarget (.mk info shape)) : isTarget (.mk info (rebuild (shape.map applied))) := by
  cases shape with
  | identifier text | access isElement object key => rfl
  | parenthesized expression =>
    have hp : expression ∈ Shape.parts (.parenthesized expression) := List.mem_singleton_self _
    have hpresent : expression.isPresent := by
      cases expression with
      | absent => cases htarget
      | mk => rfl
    obtain ⟨level, depth, hinner⟩ | ⟨kinds, hinner⟩ := hphrase.part expression hp hpresent
    · exact (h.turns expression hp hinner).target htarget
    · change isTarget (applied expression).node
      rwa [h.leaf expression hp hinner]
  | _ => cases htarget

theorem openIf (h : PartsTurn arena applied info shape) (hphrase : Phrase limited .statement depth (.mk info shape))
    (hopen : isOpenIf (.mk info (rebuild (shape.map applied)))) : isOpenIf (.mk info shape) := by
  cases hphrase with
  | @branch _ _ _ _ _ _ _ elseBranch _ _ _ _ helse =>
    by_cases hpresent : elseBranch.isPresent
    · have hturns := h.turns elseBranch (by simp) (helse hpresent)
      simp only [Shape.map, rebuild, isOpenIf, (hturns.embedded rfl).isPresent, Bool.not_true, Bool.false_or] at hopen
      simp [isOpenIf, hturns.openIf rfl hopen]
    · simp [isOpenIf, hpresent]
  | forLoop _ _ _ _ _ hbody | whileLoop _ _ hbody =>
    simp only [Shape.map, rebuild, isOpenIf] at hopen ⊢
    exact (h.turns _ (by simp) hbody).openIf rfl hopen
  | ofBlock _ hblock =>
    cases hblock
    cases hopen
  | _ => cases hopen

theorem turns_inside (h : PartsTurn arena applied info shape) (hphrase : Phrase limited level depth (.mk info shape))
    {items : List Node} {embedded : Node}
    (hitems : level = .statement → ∀ item ∈ items, Level.statement.Fits item)
    (hembedded : level = .statement → Level.statement.Fits embedded)
    (hopen : level = .statement → isOpenIf embedded → isOpenIf (.mk info shape)) :
    Turns arena level (.mk info shape) ⟨.mk info (rebuild (shape.map applied)), items, embedded⟩ where
  phrase _ := .inl (h.fits_inside hphrase)
  first := h.begins hphrase
  closed hnew := by
    cases shape with
    | call isNew callee isListed arguments =>
      cases isNew <;> cases isListed <;> exact hnew
    | _ => cases hnew
  target := h.target hphrase
  items := hitems
  embedded := hembedded
  openIf := hopen

theorem turns_none (h : PartsTurn arena applied info shape) (hphrase : Phrase limited level depth (.mk info shape)) :
    let inside := Node.mk info (rebuild (shape.map applied))
    Turns arena level (.mk info shape) ⟨inside, [inside], inside⟩ := by
  refine h.turns_inside hphrase ?_ ?_ ?_
  · rintro rfl
    exact List.forall_mem_singleton.mpr (h.fits_inside hphrase)
  · rintro rfl
    exact h.fits_inside hphrase
  · rintro rfl
    exact h.openIf hphrase

theorem turns_splice (h : PartsTurn arena applied info shape) (hphrase : Phrase limited level depth (.mk info shape))
    {before : List Code} {replacement : Option (List Code)} {nodes : Node → Node} {items : List Node}
    (hitems : items = before.map (Code.node (Directives.made arena) nodes) ++ match replacement with
      | some codes => codes.map (Code.node (Directives.made arena) nodes)
      | none => [.mk info (rebuild (shape.map applied))])
    (hcodes : ∀ code ∈ before ++ replacement.getD [],
      Level.statement.Fits (code.node (Directives.made arena) nodes)) :
    Turns arena level (.mk info shape)
      ⟨.mk info (rebuild (shape.map applied)), items, .mk (Directives.made arena) (.block items)⟩ := by
  have hall : level = .statement → ∀ item ∈ items, Level.statement.Fits item := by
    rintro rfl
    rw [List.forall_mem_append] at hcodes
    rw [hitems, List.forall_mem_append, List.forall_mem_map]
    refine ⟨hcodes.1, ?_⟩
    cases replacement with
    | none => exact List.forall_mem_singleton.mpr (h.fits_inside hphrase)
    | some codes => exact List.forall_mem_map.mpr hcodes.2
  exact h.turns_inside hphrase hall (fun hlevel => Code.fits_block (hall hlevel)) nofun

end PartsTurn

theorem inPlace_fits {arena : Arena} {id : NodeId} {nodes : Node → Node} {value : Code} (hvalue : value.IsResult)
    {place : Node} (hplace : place = inPlace arena (Directives.made arena) id nodes value) :
    (Level.head.Fits place ∨ Level.unary.Fits place ∧ isTight arena id = false) ∧
      (∃ kind, firstKind? place = some kind ∧ startsValue kind) ∧ isOpenNew place = false := by
  obtain rfl | ⟨text, htext, rfl⟩ := hvalue
  · have hfits : Code.Place.value.Fits (Code.undefined.node (Directives.made arena) nodes) :=
      Code.Stands.fits (.undefined : Code.Stands (fun _ => False) .value .undefined) (by simp)
    cases htight : isTight arena id with
    | true =>
      have heq : place = .mk (Directives.made arena)
          (.parenthesized (Code.undefined.node (Directives.made arena) nodes)) := by
        simp [hplace, inPlace, htight, Code.isName]
      subst heq
      refine ⟨.inl fun depth => .parenthesized (.ofAssignment (hfits depth)), ⟨.openParen, ?_, rfl⟩, rfl⟩
      rw [firstKind?, Grammar.words_parenthesized]
      rfl
    | false =>
      have heq : place = Code.undefined.node (Directives.made arena) nodes := by
        simp [hplace, inPlace, htight]
      subst heq
      refine ⟨.inr ⟨fun depth => ?_, rfl⟩, ⟨.voidWord, ?_, rfl⟩, rfl⟩
      · exact .leading rfl .unlimited (.ofOperand (.ofMember (.ofHead (.leaf
          (@Leaf.literal _ _ _ _ false _ _ rfl (@Code.genuine_digit '0' rfl))))))
      · rw [Code.node, firstKind?, Grammar.words_leading]
        rfl
  · have heq : place = .mk (Directives.made arena) (.identifier text) := by
      simp [hplace, inPlace, Code.isName, Code.node]
    subst heq
    refine ⟨.inl fun depth => .leaf (htext.leaf rfl), ⟨.identifier, ?_, rfl⟩, rfl⟩
    simp [firstKind?, Grammar.words_mk, Shape.map, Grammar.wordsNode, htext.free, Grammar.Spelling.kind]

theorem turns_substitute {arena : Arena} {level : Level} {depth : Nat} {limited : Bool} {info : Info}
    {callee : Node} {arguments items : List Node} {embedded : Node} {nodes : Node → Node} {value : Code}
    (hphrase : Phrase limited level depth (.mk info (.call false callee true arguments)))
    (hvalue : value.IsResult) :
    Turns arena level (.mk info (.call false callee true arguments))
      ⟨inPlace arena (Directives.made arena) info.id nodes value, items, embedded⟩ := by
  obtain ⟨hlevel, hhead, hnew⟩ := hphrase.level_of_call
  have hstatement : level ≠ .statement := by
    rintro rfl
    cases hlevel
  obtain ⟨hfits, hfirst, hclosed⟩ := inPlace_fits hvalue (rfl : inPlace arena _ info.id nodes value = _)
  refine ⟨fun _ => ?_, fun _ => .inr hfirst, ?_, nofun, fun heq => absurd heq hstatement,
    fun heq => absurd heq hstatement, fun heq => absurd heq hstatement⟩
  · obtain hfits | ⟨hfits, hloose⟩ := hfits
    · exact .inl (hfits.of_head hlevel hnew)
    · cases hchain : level.isChain with
      | false => exact .inl (hfits.of_unary hlevel hchain hhead hnew)
      | true =>
        refine .inr ⟨rfl, hfits, fun id hid => ?_⟩
        obtain rfl : info.id = id := Option.some.inj hid
        exact hloose
  · rw [hclosed]
    nofun

theorem Turns.value {arena : Arena} {level : Level} {node : Node} {applied : Applied}
    (h : Turns arena level node applied) (hlevel : level = .assignment ∨ ∃ links, level = .member true links) :
    Level.assignment.Fits applied.node := by
  obtain rfl | ⟨links, rfl⟩ := hlevel
  · obtain hfits | ⟨hchain, -⟩ := h.phrase nofun
    · exact hfits
    · cases hchain
  · obtain hfits | ⟨-, hfits, -⟩ := h.phrase nofun
    · intro depth
      obtain ⟨links, hphrase⟩ := hfits (depth + 1)
      exact .ofBinary nofun (.ofUnary (.ofOperand (.ofMember hphrase)))
    · exact hfits.of_unary rfl rfl nofun nofun

section
variable {arena : Arena} {directives : Directives}

theorem node_applyTo {info : Info} {shape : Shape Node} {count : Nat}
    (h : ∀ value, directives.get? info.id ≠ some (.substitute value)) :
    (directives.applyTo arena count (.mk info shape)).node =
      .mk info (rebuild (shape.map (directives.applyTo arena count))) := by
  rw [Layout.applyTo_mk_eq, Directives.applyNode]
  simp only [Shape.map_map, Function.comp_def]
  split
  · exact absurd ‹_› (h _)
  · rfl
  · rfl

theorem leaf_applyTo {node : Node} {kinds : Kind → Bool} (hplaced : Placed directives node)
    (h : Leaf kinds node) (count : Nat) : (directives.applyTo arena count node).node = node := by
  cases h with
  | name | literal =>
    refine node_applyTo fun value hget => ?_
    have hat := hplaced _ _ .self
    rw [PlacedAt, hget] at hat
    obtain ⟨-, -, callee, arguments, hshape⟩ := hat
    cases hshape

/-- Everything in a tree with proper directives becomes a phrase of its level. -/
theorem turns_within {root : Node} (hknows : arena.Knows root) (hplaced : Placed directives root) :
    ∀ node, node.Within root → ∀ count, need directives node ≤ count →
      ∀ {limited level depth}, Phrase limited level depth node →
        Turns arena level node (directives.applyTo arena count node) := by
  -- What a directive brings in lies inside the parts of its node, so all of these come first.
  induction root with
  | absent =>
    intro node hw count _ limited level depth hphrase
    cases hw
    exact absurd hphrase.isPresent nofun
  | mk info shape ih =>
    have hinside : ∀ part ∈ shape.parts, ∀ node, node.Within part → ∀ count, need directives node ≤ count →
        ∀ {limited level depth}, Phrase limited level depth node →
          Turns arena level node (directives.applyTo arena count node) := by
      intro part hp
      cases hknows with
      | mk _ hparts _ => exact ih part hp (hparts part hp) (hplaced.within (.part hp .self))
    intro node hw count hcount limited level depth hphrase
    cases hw with
    | part hp hw => exact hinside _ hp node hw count hcount hphrase
    | self =>
      have hparts : PartsTurn arena (directives.applyTo arena count) info shape :=
        { known := hknows
          absent := Layout.applyTo_absent_eq count
          leaf := fun part hp kinds hleaf => leaf_applyTo (hplaced.within (.part hp .self)) hleaf count
          turns := fun part hp {_ _ _} h =>
            hinside part hp part .self count (Layout.need_parts hcount part hp) h }
      have hat := hplaced info shape .self
      rw [Layout.applyTo_mk_eq, Directives.applyNode]
      simp only [Shape.map_map, Function.comp_def]
      unfold PlacedAt at hat
      cases hget : directives.get? info.id with
      | none => exact hparts.turns_none hphrase
      | some directive =>
        rw [hget] at hat
        cases directive with
        | substitute value =>
          obtain ⟨hvalue, -, callee, arguments, rfl⟩ := hat
          exact turns_substitute hphrase hvalue
        | splice before replacement =>
          obtain ⟨-, hstands⟩ := hat
          have hcodes : ∀ code ∈ before ++ replacement.getD [], Level.statement.Fits
              (code.node (Directives.made arena) (innerNode arena directives count)) := by
            intro code hcode
            refine (hstands code hcode).fits ?_
            rintro source ⟨⟨part, hp, hw⟩, limited, level, depth, hsource, hlevel⟩
            have hsome : (directives.get? info.id).isSome := by rw [hget]; rfl
            obtain ⟨count, rfl, hless⟩ := Layout.need_inside hsome hcount
            have hturns := hinside part hp source hw count (hless part hp source hw) hsource
            exact hturns.value hlevel
          exact hparts.turns_splice hphrase rfl hcodes

end

end ArrayLoops.Lowering
