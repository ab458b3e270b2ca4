import ArrayLoops.Proofs.Openings
import ArrayLoops.Proofs.ParsedPhrases

/-!
# Phrases are read as they are written

From the words of a phrase a parse makes the same tree, but for numbers and places of its nodes. What
follows a phrase must not belong to it: each level says what may not stand behind its phrases.

A phrase that keeps within the limit on nesting is read without complaints. Any other phrase is read
in the same way, or the parse meets the limit and complains about nothing else.
-/

namespace ArrayLoops.Tree.Node

/-- The tree with neither numbers nor places of nodes. -/
def unplaced : Node → Node :=
  fold .absent fun info shape => .mk ⟨0, 0, 0, info.flags⟩ (shape.map (·.2))

@[simp] theorem unplaced_absent : unplaced .absent = .absent := rfl

theorem unplaced_mk (info : Info) (shape : Shape Node) :
    unplaced (.mk info shape) = .mk ⟨0, 0, 0, info.flags⟩ (shape.map unplaced) := by
  rw [unplaced, fold_mk, Shape.map_map]
  rfl

theorem isPresent_unplaced (node : Node) : node.unplaced.isPresent = node.isPresent := by
  cases node with
  | absent => rfl
  | mk => rw [unplaced_mk]; rfl

end ArrayLoops.Tree.Node

namespace ArrayLoops.Grammar

open Token (Kind Word)
open ArrayLoops.Tree (Flags Info Node Shape)
open Spelling (sign)

theorem SpellAll.quiet {tokens : List Token} {ws : List Spelling} (h : SpellAll tokens ws) :
    ∀ token ∈ tokens, token.complaints = [] := by
  induction h with
  | nil => nofun
  | cons hword _ ih => exact List.forall_mem_cons.mpr ⟨hword.quiet, ih⟩

/-- Nothing was complained about, and the tokens that are left spell the words. -/
structure Ready (depth : Nat) (s : State) (ws : List Spelling) : Prop where
  clean : Clean s
  spells : SpellAll s.tokens (ws ++ [.endOfFile])
  depth : s.depth = depth

def Rising (s : State) : Prop := (s.tokens.map Token.start).Pairwise (· < ·)

variable {α β : Type} {limited : Bool} {n slack depth : Nat} {s later : State} {ws : List Spelling}
  {word : Spelling} {node : Node} {Q : α → State → Prop} {R : β → State → Prop}

theorem Rising.of_before (h : Rising s) (hb : s.Before later) : Rising later :=
  h.sublist hb.starts.sublist

theorem Rising.start_ne (h : Rising s) (hb : s.Before later)
    (hl : later.tokens.length < s.tokens.length) : later.current.start ≠ s.current.start := by
  obtain ⟨front, hfront⟩ := hb.starts
  cases front with
  | nil =>
    have := congrArg List.length hfront
    simp only [List.nil_append, List.length_map] at this
    omega
  | cons start front =>
    unfold Rising at h
    rw [← hfront, List.cons_append, List.pairwise_cons] at h
    have hfirst : start = s.current.start := by
      simpa [State.tokens] using congrArg List.head? hfront
    have hlater := h.1 later.current.start (by simp [State.tokens])
    omega

namespace Ready

theorem withArena (h : Ready depth s ws) (arena : Tree.Arena) : Ready depth { s with arena } ws :=
  ⟨⟨h.clean.complaints, h.clean.lexical, h.clean.exceeded⟩, h.spells, h.depth⟩

theorem withDepth (h : Ready depth s ws) {now other deepest : Nat} {overdrawn : Bool}
    (hnow : now = other) : Ready other { s with depth := now, deepest, overdrawn } ws :=
  ⟨⟨h.clean.complaints, h.clean.lexical, h.clean.exceeded⟩, h.spells, hnow⟩

theorem kind (h : Ready depth s ws) : s.current.kind = nextKind ws := by
  have hspells := h.spells
  cases ws with
  | nil =>
    obtain ⟨token, back, hcons, htoken, -⟩ := SpellAll.first hspells
    obtain ⟨rfl, -⟩ := List.cons.inj hcons
    exact htoken.kind
  | cons word rest =>
    obtain ⟨token, back, hcons, htoken, -⟩ := SpellAll.first hspells
    obtain ⟨rfl, -⟩ := List.cons.inj hcons
    exact htoken.kind

theorem first (h : Ready depth s (word :: ws)) : Spells s.current word := by
  obtain ⟨token, back, hcons, htoken, -⟩ := SpellAll.first h.spells
  obtain ⟨rfl, -⟩ := List.cons.inj hcons
  exact htoken

theorem advance (h : Ready depth s (word :: ws)) : Ready depth s.advance ws := by
  obtain ⟨token, back, hcons, -, hback⟩ := SpellAll.first h.spells
  obtain ⟨-, rfl⟩ := List.cons.inj hcons
  have hne : s.ahead ≠ [] := by
    intro hnil
    rw [hnil] at hback
    cases ws <;> cases hback
  obtain ⟨next, ahead, hahead⟩ := List.exists_cons_of_ne_nil hne
  rw [State.advance, hahead]
  rw [hahead] at hback
  obtain ⟨hclean, -, hdepth⟩ := h
  have hquiet : next.complaints = [] := by
    cases ws <;> cases hback <;> exact ‹Spells next _›.quiet
  exact ⟨⟨hclean.complaints, by simp [hquiet, hclean.lexical], hclean.exceeded⟩, hback, hdepth⟩

theorem unjoin (h : Ready depth s (word.join :: ws)) : Ready depth s (word :: ws) := by
  obtain ⟨token, back, htokens, htoken, hback⟩ := SpellAll.first h.spells
  refine ⟨h.clean, ?_, h.depth⟩
  rw [htokens]
  exact .cons ⟨htoken.word, fun _ => htoken.joined rfl, htoken.quiet⟩ hback

theorem unjoinFirst {others : List Spelling} (h : Ready depth s (joinFirst ws ++ others))
    (hne : ws ≠ []) : Ready depth s (ws ++ others) ∧ s.current.lineBreakBefore = false := by
  cases ws with
  | nil => exact absurd rfl hne
  | cons word rest => exact ⟨h.unjoin, h.first.joined rfl⟩

theorem length (h : Ready depth s ws) : s.tokens.length = ws.length + 1 := by
  have := h.spells.length_eq
  simpa using this

theorem quiet (h : Ready depth s ws) : s.Quiet :=
  ⟨h.clean.lexical, fun token ht => h.spells.quiet token (List.mem_cons_of_mem _ ht)⟩

end Ready

/-- The limit on nesting was met, and nothing else is complained about. -/
structure GaveUp (s : State) : Prop where
  exceeded : s.exceeded
  complaints : ∃ start length, s.complaints = [⟨start, length, .nestingTooDeep⟩]
  quiet : s.Quiet

theorem GaveUp.of_before (h : GaveUp s) (hb : s.Before later) : GaveUp later :=
  ⟨hb.exceeded h.exceeded, hb.silent h.exceeded ▸ h.complaints, hb.quiet h.quiet⟩

theorem GaveUp.enter (h : Ready depth s ws) (hd : maxDepth ≤ s.depth) : GaveUp s.enter.2 := by
  refine ⟨by simp [State.enter, hd], ⟨s.current.start, s.current.fin - s.current.start, ?_⟩,
    (State.Before.enter s).quiet h.quiet⟩
  simp only [State.enter, hd, if_true, State.complain, h.clean.complaints, h.clean.exceeded]
  rfl

/-- The outcome of the step is as stated if there is fuel: eight for each word that is left, and the
slack, which is eight behind the first word. Without the limit on nesting the step may give up. -/
def Yields (limited : Bool) (n slack : Nat) (s : State) (p : Parse α) (Q : α → State → Prop) : Prop :=
  Rising s → 8 * s.tokens.length + slack ≤ n + 8 → Q (p s).1 (p s).2 ∨ limited = false ∧ GaveUp (p s).2

namespace Yields

theorem bindBefore {p : Parse α} {f : α → Parse β} (hp : Yields limited n slack s p Q)
    (hf : ∀ a m, s.Before m → Q a m → Yields limited n slack m (f a) R) :
    Yields limited n slack s (p >>= f) R := by
  intro hrising hfuel
  have hb := p.before s
  obtain hq | ⟨hunlimited, hgone⟩ := hp hrising hfuel
  · have hless := hb.length_le
    exact hf _ _ hb hq (hrising.of_before hb) (by omega)
  · exact .inr ⟨hunlimited, hgone.of_before ((f (p s).1).before _)⟩

theorem bind {p : Parse α} {f : α → Parse β} (hp : Yields limited n slack s p Q)
    (hf : ∀ a m, Q a m → Yields limited n slack m (f a) R) : Yields limited n slack s (p >>= f) R :=
  hp.bindBefore fun a m _ => hf a m

theorem mono {p : Parse α} {Q' : α → State → Prop} (hp : Yields limited n slack s p Q)
    (h : ∀ a m, Q a m → Q' a m) : Yields limited n slack s p Q' :=
  fun hrising hfuel => (hp hrising hfuel).imp_left (h _ _)

theorem spare {less : Nat} {p : Parse α} (hp : Yields limited n less s p Q) (h : less ≤ slack) :
    Yields limited n slack s p Q :=
  fun hrising hfuel => hp hrising (by omega)

theorem rising {p : Parse α} (h : Rising s → Yields limited n slack s p Q) :
    Yields limited n slack s p Q :=
  fun hrising => h hrising hrising

theorem fuel {p : Parse α} (hs : Ready depth s ws)
    (h : 8 * ws.length + slack ≤ n → Yields limited n slack s p Q) : Yields limited n slack s p Q :=
  fun hrising hfuel => h (by rw [hs.length] at hfuel; omega) hrising hfuel

theorem pure {a : α} (h : Q a s) : Yields limited n slack s (Pure.pure a) Q := fun _ _ => .inl h

theorem pos {p q : Parse α} {c : Prop} [Decidable c] (hc : c) (hp : Yields limited n slack s p Q) :
    Yields limited n slack s (if c then p else q) Q := by
  rwa [if_pos hc]

theorem neg {p q : Parse α} {c : Prop} [Decidable c] (hc : ¬ c) (hq : Yields limited n slack s q Q) :
    Yields limited n slack s (if c then p else q) Q := by
  rwa [if_neg hc]

theorem here {f : Nat → Parse β} (h : Yields limited n slack s (f s.current.start) R) :
    Yields limited n slack s (Grammar.here >>= f) R := h

theorem current {f : Token → Parse β} (h : Yields limited n slack s (f s.current) R) :
    Yields limited n slack s (Grammar.current >>= f) R := h

theorem kind {k : Kind} {f : Kind → Parse β} (hk : s.current.kind = k)
    (h : Yields limited n slack s (f k) R) : Yields limited n slack s (Grammar.kind >>= f) R := by
  subst hk
  exact h

theorem check {g : State → Bool} {b : Bool} {f : Bool → Parse β} (hb : g s = b)
    (h : Yields limited n slack s (f b) R) : Yields limited n slack s (Grammar.check g >>= f) R := by
  subst hb
  exact h

theorem advance {f : Unit → Parse β} (hs : Ready depth s (word :: ws))
    (h : ∀ m, Ready depth m ws → Yields limited n 8 m (f ()) R) :
    Yields limited n slack s (Grammar.advance >>= f) R := by
  intro hrising hfuel
  have hless := hs.advance.length
  rw [hs.length, List.length_cons] at hfuel
  exact h s.advance hs.advance (hrising.of_before (.advance s)) (by omega)

theorem enter {f : Bool → Parse β} (hs : Ready depth s ws) (hroom : Room limited depth)
    (h : ∀ m, Ready (depth + 1) m ws → Yields limited n slack m (f true) R) :
    Yields limited n slack s (Grammar.enter >>= f) R := by
  intro hrising hfuel
  by_cases hd : maxDepth ≤ s.depth
  · have hunlimited : limited = false := by
      cases limited with
      | false => rfl
      | true => exact absurd (hroom rfl) (Nat.not_lt.mpr (hs.depth ▸ hd))
    exact .inr ⟨hunlimited, (GaveUp.enter hs hd).of_before ((f s.enter.1).before _)⟩
  · have hrun : (Grammar.enter >>= f) s = f true s.opened := by
      change f s.enter.1 s.enter.2 = _
      rw [State.enter, if_neg hd]
      rfl
    rw [hrun]
    exact h s.opened (hs.withDepth (congrArg (· + 1) hs.depth)) hrising hfuel

theorem leave {count : Nat} {f : Unit → Parse β} (hs : Ready (depth + count) s ws)
    (h : ∀ m, Ready depth m ws → Yields limited n slack m (f ()) R) :
    Yields limited n slack s (Grammar.leave count >>= f) R :=
  h _ (hs.withDepth (Nat.sub_eq_of_eq_add hs.depth))

theorem accepted {k : Kind} {f : Bool → Parse β} (hs : Ready depth s (sign k :: ws))
    (h : ∀ m, Ready depth m ws → Yields limited n 8 m (f true) R) :
    Yields limited n slack s (Grammar.accept k >>= f) R := by
  have hrun : (Grammar.accept k >>= f) s = (Grammar.advance >>= fun _ => f true) s := by
    change f (Grammar.accept k s).1 (Grammar.accept k s).2 = _
    rw [Gives.run_accept, if_pos (by simp [hs.kind])]
    rfl
  have hadvance : Yields limited n slack s (Grammar.advance >>= fun _ => f true) R := advance hs h
  unfold Yields
  rw [hrun]
  exact hadvance

theorem refused {k : Kind} {f : Bool → Parse β} (hk : s.current.kind ≠ k)
    (h : Yields limited n slack s (f false) R) : Yields limited n slack s (Grammar.accept k >>= f) R := by
  have hrun : (Grammar.accept k >>= f) s = f false s := by
    change f (Grammar.accept k s).1 (Grammar.accept k s).2 = _
    rw [Gives.run_accept, if_neg (by simpa using hk)]
  unfold Yields
  rw [hrun]
  exact h

theorem expectThen {k : Kind} {f : Bool → Parse β} (hs : Ready depth s (sign k :: ws))
    (h : ∀ m, Ready depth m ws → Yields limited n 8 m (f true) R) :
    Yields limited n slack s (Grammar.expect k >>= f) R := by
  have hexpect : Yields limited n slack s (Grammar.accept k >>= fun found =>
      (if found then (Pure.pure true : Parse Bool)
        else Grammar.complain (.expected k) >>= fun _ => Pure.pure false) >>= f) R :=
    accepted hs h
  exact hexpect

theorem expect {k : Kind} {f : Unit → Parse β} (hs : Ready depth s (sign k :: ws))
    (h : ∀ m, Ready depth m ws → Yields limited n 8 m (f ()) R) :
    Yields limited n slack s (discard (Grammar.expect k) >>= f) R := by
  have hexpect : Yields limited n slack s (Grammar.expect k >>= fun _ => f ()) R := expectThen hs h
  exact hexpect

theorem endStatement {f : Unit → Parse β} (hs : Ready depth s (sign .semicolon :: ws))
    (h : ∀ m, Ready depth m ws → Yields limited n slack m (f ()) R) :
    Yields limited n slack s (Grammar.endStatement >>= f) R := by
  have hend : Yields limited n slack s Grammar.endStatement fun _ m => Ready depth m ws :=
    accepted hs fun m hm => .pure hm
  exact hend.bind fun _ => h

end Yields

/-- The tree was read, and the words behind it are left. -/
structure Reread (depth : Nat) (node : Node) (ws : List Spelling) (made : Node) (m : State) :
    Prop where
  alike : made.unplaced = node.unplaced
  ready : Ready depth m ws

theorem Yields.made {pos : Nat} {info : Info} {shape shape' : Shape Node} {flags : Flags}
    (hs : Ready depth s ws) (hflags : flags = info.flags)
    (hshape : shape'.map Node.unplaced = shape.map Node.unplaced) :
    Yields limited n slack s (Grammar.node pos shape' flags) (Reread depth (.mk info shape) ws) := by
  intro _ _
  refine .inl ⟨?_, hs.withArena _⟩
  change Node.unplaced (.mk ⟨_, pos, _, flags⟩ shape') = _
  rw [Node.unplaced_mk, Node.unplaced_mk, hshape, hflags]

/-- Nothing that belongs to an operand begins with the word. -/
def endsUnary (kind : Kind) : Bool :=
  !isLink true kind && kind != .increment && kind != .decrement

/-- Nothing that belongs to an assignment begins with the word. -/
def endsAssignment (kind : Kind) : Bool :=
  endsUnary kind && kind.precedence == 0 && !kind.isAssignment && kind != .question && kind != .arrow

/-- Nothing that belongs to an expression begins with the word. -/
def endsExpression (kind : Kind) : Bool := endsAssignment kind && kind != .comma

/-- Nothing that belongs to a phrase that the production reads begins with the word. -/
def Goal.Ends (goal : Goal) (node : Node) (kind : Kind) : Prop :=
  match goal with
  | .statement => isOpenIf node → kind ≠ .elseWord
  | .block => True
  | .expression => endsExpression kind
  | .assignment => endsAssignment kind
  | .binary least => endsUnary kind ∧ (kind.precedence = 0 ∨ kind.precedence < least)
  | .unary => endsUnary kind
  | .new => isOpenNew node → isLink true kind = false

/-- The productions read phrases as they are written as long as there is fuel for their words. -/
def Rereads (limited : Bool) (n : Nat) (self : Productions) : Prop :=
  ∀ goal node depth s ws, Ready depth s (words node ++ ws) → goal.Fits limited depth node →
    goal.Ends node (nextKind ws) →
    Yields limited n (goal.rank + 1) s (self goal) (Reread depth node ws)

/-- Behind its first word a production has fuel for every other. -/
theorem Yields.read {self : Productions} {goal : Goal} {f : Node → Parse β}
    (hself : Rereads limited n self) (hs : Ready depth s (words node ++ ws))
    (hfits : goal.Fits limited depth node) (hends : goal.Ends node (nextKind ws))
    (hf : ∀ made m, Reread depth node ws made m → Yields limited n 8 m (f made) R) :
    Yields limited n 8 s (self goal >>= f) R :=
  .bind ((hself goal node depth s ws hs hfits hends).spare goal.rank_lt) hf

theorem Leaf.ofKind {kinds others : Kind → Bool} (h : Leaf kinds node)
    (ho : others (nextKind (words node ++ ws))) : Leaf others node := by
  cases h with
  | name _ hgenuine => exact .name ho hgenuine
  | literal _ hgenuine => exact .literal ho hgenuine

theorem yields_identifierOf {kinds : Kind → Bool} {text : Token → String} (h : Leaf kinds node)
    (hk : ∀ kind, kinds kind → isLiteral kind = false)
    (ht : ∀ token : Token, text token = token.text ∨ text token = token.value)
    (hs : Ready depth s (words node ++ ws)) :
    Yields limited n slack s (identifierOf text) (Reread depth node ws) := by
  cases h with
  | literal hkind =>
    have := hk _ hkind
    cases ‹Bool› <;> simp [isLiteral] at this
  | @name _ _ _ name =>
    rw [words_mk] at hs
    have hword := hs.first.word
    have hname : text s.current = name := by
      obtain ht | ht := ht s.current
      · exact ht.trans (congrArg Word.text hword)
      · exact ht.trans (congrArg Word.value hword)
    refine .current (.advance hs fun m hm => .made hm rfl ?_)
    rw [hname]

theorem yields_identifier (h : Leaf isBinding node) (hs : Ready depth s (words node ++ ws)) :
    Yields limited n slack s identifier (Reread depth node ws) := by
  refine yields_identifierOf h (fun kind => ?_) (fun _ => .inr rfl) hs
  cases kind <;> decide

theorem yields_propertyName (h : Leaf isMemberName node) (hs : Ready depth s (words node ++ ws)) :
    Yields limited n slack s propertyName (Reread depth node ws) := by
  have hliteral : ∀ kind, isMemberName kind → isLiteral kind = false := by
    intro kind
    cases kind <;> decide
  have hname : isMemberName s.current.kind := hs.kind ▸ h.begins ws
  refine .kind rfl ?_
  by_cases hk : s.current.kind = .identifier
  · exact .pos (by simp [hk]) (yields_identifierOf h hliteral (fun _ => .inr rfl) hs)
  · refine .neg (by simp [hk]) (.kind rfl (.pos ?_ ?_))
    · simpa [isMemberName, hk] using hname
    · exact yields_identifierOf h hliteral (fun _ => .inl rfl) hs

theorem yields_bindingName (h : Leaf isBinding node) (hs : Ready depth s (words node ++ ws)) :
    Yields limited n slack s bindingName (Reread depth node ws) := by
  have hname : isBinding s.current.kind := hs.kind ▸ h.begins ws
  exact .kind (by simpa [isBinding] using hname) (yields_identifier h hs)

theorem isLiteral_ofWord (text : String) :
    isLiteral ((Kind.ofWord? text).getD .identifier) = false := by
  have hreserved : ∀ kind ∈ Kind.reservedWords, isLiteral kind = false := by decide
  cases hword : Kind.ofWord? text with
  | none => rfl
  | some kind => exact hreserved kind (List.mem_of_find?_eq_some hword)

theorem yields_literal {kinds : Kind → Bool} (h : Leaf kinds node)
    (hk : isLiteral (nextKind (words node ++ ws))) (hs : Ready depth s (words node ++ ws)) :
    Yields limited n slack s literal (Reread depth node ws) := by
  cases h with
  | name =>
    rw [words_mk] at hk
    exact absurd hk (by simp [Shape.map, wordsNode, Spelling.kind, isLiteral_ofWord])
  | @literal _ _ _ isString text raw =>
    rw [words_mk] at hs
    have hword := hs.first.word
    have hkind : s.current.kind = if isString then .string else .number := congrArg Word.kind hword
    have hvalue : s.current.value = text := congrArg Word.value hword
    have htext : s.current.text = raw := congrArg Word.text hword
    have hstring : (s.current.kind == .string) = isString := by
      rw [hkind]
      cases isString <;> rfl
    refine .current (.advance hs fun m hm => .made hm rfl ?_)
    rw [hvalue, htext, hstring]

theorem yields_wordExpression {id pos fin : Nat} {kind : Kind}
    (hs : Ready depth s (words (.mk ⟨id, pos, fin, {}⟩ (.bare (.token kind))) ++ ws)) :
    Yields limited n slack s wordExpression
      (Reread depth (.mk ⟨id, pos, fin, {}⟩ (.bare (.token kind))) ws) := by
  rw [words_mk] at hs
  refine .current (.advance hs fun m hm => .made hm rfl ?_)
  rw [hs.kind]
  rfl

structure RereadAll (depth : Nat) (nodes : List Node) (ws : List Spelling) (made : List Node)
    (m : State) : Prop where
  alike : made.map Node.unplaced = nodes.map Node.unplaced
  ready : Ready depth m ws

section
variable {close : Kind} {item : Parse Node} {nodes collected : List Node} {count : Nat}

/-- The step reads an item of a list, whatever the list goes on with. -/
def ReadsItem (limited : Bool) (n : Nat) (close : Kind) (item : Parse Node) (depth : Nat)
    (node : Node) : Prop :=
  ∀ m ws, nextKind ws = .comma ∨ nextKind ws = close → Ready depth m (words node ++ ws) →
    Yields limited n 8 m item (Reread depth node ws)

/-- What stands behind the first item of a list: a comma and the rest of it, or the closing mark. -/
def behindItem (rest : List Node) (others : List Spelling) : List Spelling :=
  match rest with
  | [] => others
  | _ :: _ => sign .comma :: (commas (rest.map words) ++ others)

theorem commas_cons (node : Node) (rest : List Node) (others : List Spelling) :
    commas ((node :: rest).map words) ++ others = words node ++ behindItem rest others := by
  cases rest <;> simp [commas, behindItem]

theorem nextKind_behindItem (rest : List Node) (ws : List Spelling) :
    nextKind (behindItem rest (sign close :: ws)) = .comma ∨
      nextKind (behindItem rest (sign close :: ws)) = close := by
  cases rest with
  | nil => exact .inr rfl
  | cons => exact .inl rfl

theorem behindItem_length_pos {rest : List Node} :
    0 < (words node ++ behindItem rest (sign close :: ws)).length := by
  cases rest <;> simp only [behindItem, List.length_append, List.length_cons] <;> omega

theorem yields_moreItems {again : List Node → Parse (List Node)} {rest : List Node} {made : Node}
    (hclose : close ≠ .comma) (hread : Reread depth node (behindItem rest (sign close :: ws)) made s)
    (hagain : ∀ m, rest ≠ [] → Ready depth m (commas (rest.map words) ++ sign close :: ws) →
      Yields limited n 8 m (again (made :: collected))
        (RereadAll depth ((made :: collected).reverse ++ rest) (sign close :: ws))) :
    Yields limited n 8 s (do
      if ← accept .comma then again (made :: collected)
      else return (made :: collected).reverse)
      (RereadAll depth (collected.reverse ++ node :: rest) (sign close :: ws)) := by
  obtain ⟨halike, hready⟩ := hread
  cases rest with
  | nil =>
    refine .refused ?_ (.pure ⟨by simp [halike], hready⟩)
    rw [hready.kind]
    exact hclose
  | cons second rest =>
    refine .accepted hready fun m hm => (hagain m nofun hm).mono fun all last h => ⟨?_, h.ready⟩
    rw [h.alike]
    simp [halike]

theorem length_behindItem {rest : List Node} {others : List Spelling} (h : rest ≠ [])
    (hcount : (words node ++ behindItem rest others).length ≤ count + 1) :
    (commas (rest.map words) ++ others).length ≤ count := by
  cases rest with
  | nil => exact absurd rfl h
  | cons =>
    simp only [behindItem, List.length_append, List.length_cons] at hcount ⊢
    omega

theorem yields_itemsOnto (hclose : close ≠ .comma)
    (hitem : ∀ node ∈ nodes, ReadsItem limited n close item depth node)
    (hfirst : ∀ node ∈ nodes, ∀ ws, nextKind (words node ++ ws) ≠ close ∧
      nextKind (words node ++ ws) ≠ .endOfFile)
    (hs : Ready depth s (commas (nodes.map words) ++ sign close :: ws))
    (hcount : (commas (nodes.map words) ++ sign close :: ws).length ≤ count) :
    Yields limited n 8 s (itemsOnto close item count collected)
      (RereadAll depth (collected.reverse ++ nodes) (sign close :: ws)) := by
  induction nodes generalizing s count collected with
  | nil =>
    cases count with
    | zero => simp [commas] at hcount
    | succ count => exact .kind hs.kind (.pos (by simp [commas]) (.pure ⟨by simp, hs⟩))
  | cons node rest ih =>
    rw [commas_cons] at hs hcount
    obtain ⟨hclosing, hend⟩ := hfirst node List.mem_cons_self (behindItem rest (sign close :: ws))
    cases count with
    | zero => exact absurd hcount (Nat.not_le.mpr behindItem_length_pos)
    | succ count =>
      refine .kind hs.kind (.neg (by simp [hclosing, hend]) ?_)
      refine .bind (hitem node List.mem_cons_self s _ (nextKind_behindItem rest ws) hs) ?_
      intro made m hread
      refine yields_moreItems hclose hread fun later hrest hlater => ?_
      exact ih (fun other ho => hitem other (List.mem_cons_of_mem _ ho))
        (fun other ho => hfirst other (List.mem_cons_of_mem _ ho)) hlater
        (length_behindItem hrest hcount)

theorem yields_elementsOnto
    (hitem : ∀ node ∈ nodes, ReadsItem limited n .closeBracket item depth node)
    (hfirst : ∀ node ∈ nodes, ∀ ws, startsExpression (nextKind (words node ++ ws)))
    (hs : Ready depth s (commas (nodes.map words) ++ sign .closeBracket :: ws))
    (hcount : (commas (nodes.map words) ++ sign .closeBracket :: ws).length ≤ count) :
    Yields limited n 8 s (elementsOnto item count collected)
      (RereadAll depth (collected.reverse ++ nodes) (sign .closeBracket :: ws)) := by
  induction nodes generalizing s count collected with
  | nil =>
    cases count with
    | zero => simp [commas] at hcount
    | succ count => exact .kind hs.kind (.pure ⟨by simp, hs⟩)
  | cons node rest ih =>
    rw [commas_cons] at hs hcount
    have hstarts := hfirst node List.mem_cons_self (behindItem rest (sign .closeBracket :: ws))
    cases count with
    | zero => exact absurd hcount (Nat.not_le.mpr behindItem_length_pos)
    | succ count =>
      have hmore : Yields limited n 8 s (do
          let items := (← item) :: collected
          if ← accept .comma then elementsOnto item count items
          else return items.reverse)
          (RereadAll depth (collected.reverse ++ node :: rest) (sign .closeBracket :: ws)) := by
        refine .bind (hitem node List.mem_cons_self s _ (nextKind_behindItem rest ws) hs) ?_
        intro made m hread
        refine yields_moreItems (by decide) hread fun later hrest hlater => ?_
        exact ih (fun other ho => hitem other (List.mem_cons_of_mem _ ho))
          (fun other ho => hfirst other (List.mem_cons_of_mem _ ho)) hlater
          (length_behindItem hrest hcount)
      refine .kind hs.kind ?_
      revert hstarts
      generalize nextKind (words node ++ behindItem rest (sign .closeBracket :: ws)) = kind
      cases kind <;> intro hstarts <;> first | exact hmore | cases hstarts

end

theorem between_append (first last : Kind) (inner : List Spelling) :
    between first last inner ++ ws = sign first :: (inner ++ sign last :: ws) := by
  simp [between]

end ArrayLoops.Grammar
