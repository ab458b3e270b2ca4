import ArrayLoops.Proofs.Continuations
import ArrayLoops.Proofs.Phrases

/-!
# Parses without complaints

If a parse ends without complaints, every production has read what it asks for. What a production does
is stated under that condition, and under two more: that there is fuel, and that it begins at a known
depth of nesting.

A parse runs on fuel. As every loop and every nesting of productions passes a token after a few
steps, eight steps for each token are enough. Behind a token there is fuel for eight steps again.
-/

namespace ArrayLoops.Grammar

open Token (Kind Word)
open ArrayLoops.Tree (Flags Info Node Shape)

structure Clean (s : State) : Prop where
  complaints : s.complaints = []
  lexical : s.lexical = []
  exceeded : s.exceeded = false

def State.opened (s : State) : State :=
  { s with depth := s.depth + 1, deepest := max s.deepest (s.depth + 1) }

@[simp] theorem State.opened_depth (s : State) : s.opened.depth = s.depth + 1 := rfl

@[simp] theorem State.opened_tokens (s : State) : s.opened.tokens = s.tokens := rfl

@[simp] theorem State.opened_current (s : State) : s.opened.current = s.current := rfl

structure Sourced (s : State) : Prop where
  genuine : s.Every fun word => word.kind ≠ .endOfFile → word.Genuine
  ended : ((s.tokens.map Token.word).getLast?.map (·.kind)) = some .endOfFile

variable {α β : Type} {n slack : Nat} {s m later : State} {Q : α → State → Prop}
  {R : β → State → Prop}

theorem Clean.of_before (h : s.Before later) (hc : Clean later) : Clean s where
  complaints := List.suffix_nil.mp (hc.complaints ▸ h.complaints)
  lexical := List.suffix_nil.mp (hc.lexical ▸ h.lexical)
  exceeded := by
    cases he : s.exceeded with
    | false => rfl
    | true => exact absurd (h.exceeded he) (by simp [hc.exceeded])

theorem Sourced.of_before (h : s.Before later) (hs : Sourced s) : Sourced later where
  genuine := h.every _ hs.genuine
  ended := by
    obtain ⟨front, hfront⟩ := h.words
    have hsome : (later.tokens.map Token.word).getLast?.isSome := by simp [State.tokens]
    rw [← hs.ended, ← hfront, List.getLast?_append]
    cases hlast : (later.tokens.map Token.word).getLast? with
    | none => simp [hlast] at hsome
    | some last => rfl

theorem Sourced.withDepth (hs : Sourced s) (depth : Nat) {deepest : Nat} {overdrawn : Bool} :
    Sourced { s with depth, deepest, overdrawn } :=
  ⟨hs.genuine, hs.ended⟩

theorem Sourced.withArena (hs : Sourced s) (arena : Tree.Arena) : Sourced { s with arena } :=
  ⟨hs.genuine, hs.ended⟩

theorem Sourced.current (hs : Sourced s) (hc : Clean s) (hk : s.current.kind ≠ .endOfFile) :
    s.current.word.Genuine :=
  (hs.genuine hc.lexical).1 hk

theorem Sourced.exists_ahead (hs : Sourced s) (hk : s.current.kind ≠ .endOfFile) :
    ∃ token ahead, s.ahead = token :: ahead := by
  cases hahead : s.ahead with
  | cons token ahead => exact ⟨token, ahead, rfl⟩
  | nil =>
    have hended := hs.ended
    simp only [State.tokens, hahead, List.map_cons, List.map_nil, List.getLast?_singleton,
      Option.map_some, Option.some.injEq] at hended
    exact absurd hended hk

structure Passed (s later : State) : Prop where
  length : later.tokens.length + 1 = s.tokens.length
  depth : later.depth = s.depth

theorem Sourced.passed (hs : Sourced s) (hk : s.current.kind ≠ .endOfFile) :
    Passed s s.advance := by
  obtain ⟨token, ahead, hahead⟩ := hs.exists_ahead hk
  unfold State.advance
  rw [hahead]
  exact ⟨by simp [State.tokens, hahead], rfl⟩

theorem State.Before.length_le (h : s.Before later) : later.tokens.length ≤ s.tokens.length := by
  simpa using h.starts.length_le

/-- If there is fuel for the tokens and for the slack, and the step ends without complaints, then its
outcome is as stated. -/
def Gives (n slack : Nat) (s : State) (p : Parse α) (Q : α → State → Prop) : Prop :=
  Sourced s → 8 * s.tokens.length + slack ≤ n → Clean (p s).2 → Q (p s).1 (p s).2

namespace Gives

theorem bind {p : Parse α} {f : α → Parse β} (hp : Gives n slack s p Q)
    (hf : ∀ a m, Q a m → Gives n slack m (f a) R) : Gives n slack s (p >>= f) R := by
  intro hs hfuel hclean
  have hbefore := p.before s
  have hless := hbefore.length_le
  have hmiddle : Clean (p s).2 := hclean.of_before ((f (p s).1).before _)
  exact hf _ _ (hp hs hfuel hmiddle) (hs.of_before hbefore) (by omega) hclean

theorem clean {p : Parse α} (h : Sourced s → Clean s → Gives n slack s p Q) : Gives n slack s p Q :=
  fun hs hfuel hclean => h hs (hclean.of_before (p.before s)) hs hfuel hclean

theorem fuel {p : Parse α} (h : s.tokens.length ≤ n → Gives n slack s p Q) : Gives n slack s p Q :=
  fun hs hfuel => h (by omega) hs hfuel

theorem spare {p : Parse α} {less : Nat} (hp : Gives n less s p Q) (h : less ≤ slack) :
    Gives n slack s p Q :=
  fun hs hfuel => hp hs (by omega)

theorem shorter {p : Parse α} (hp : Gives n slack s p Q) :
    Gives n slack s p fun a m => m.tokens.length ≤ s.tokens.length ∧ Q a m :=
  fun hs hfuel hclean => ⟨(p.before s).length_le, hp hs hfuel hclean⟩

theorem mono {p : Parse α} {Q' : α → State → Prop} (hp : Gives n slack s p Q)
    (h : ∀ a m, Q a m → Q' a m) : Gives n slack s p Q' :=
  fun hs hfuel hclean => h _ _ (hp hs hfuel hclean)

theorem pure {a : α} (h : Q a s) : Gives n slack s (Pure.pure a) Q := fun _ _ _ => h

theorem ite {p q : Parse α} {c : Prop} [Decidable c] (hp : c → Gives n slack s p Q)
    (hq : ¬ c → Gives n slack s q Q) : Gives n slack s (if c then p else q) Q := by
  split
  · exact hp ‹_›
  · exact hq ‹_›

theorem complain {fault : Fault} {f : Unit → Parse β} :
    Gives n slack s (Grammar.complain fault >>= f) R := by
  intro _ _ hclean
  have h : Clean (s.complain fault) := hclean.of_before ((f ()).before _)
  have hs : Clean s := h.of_before (.complain s fault)
  exact absurd h.complaints (State.Before.complain_ne_nil s fault (by simp [hs.exceeded]))

theorem advance {f : Unit → Parse β} (hk : s.current.kind ≠ .endOfFile)
    (h : Passed s s.advance → Gives n 8 s.advance (f ()) R) :
    Gives n slack s (Grammar.advance >>= f) R := by
  intro hs hfuel
  have hpassed := hs.passed hk
  have hlength := hpassed.length
  exact h hpassed (hs.of_before (.advance s)) (by omega)

theorem enter {f : Bool → Parse β} (h : s.depth < maxDepth → Gives n slack s.opened (f true) R) :
    Gives n slack s (Grammar.enter >>= f) R := by
  intro hs hfuel hclean
  by_cases hd : maxDepth ≤ s.depth
  · have hgone : Clean s.enter.2 := hclean.of_before ((f s.enter.1).before _)
    have := hgone.exceeded
    simp [State.enter, hd] at this
  · have hrun : (Grammar.enter >>= f) s = f true s.opened := by
      change f s.enter.1 s.enter.2 = _
      rw [State.enter, if_neg hd]
      rfl
    rw [hrun] at hclean ⊢
    exact h (Nat.lt_of_not_le hd) (hs.withDepth _) hfuel hclean

theorem leave {count : Nat} {f : Unit → Parse β}
    (h : Gives n slack
      { s with depth := s.depth - count, overdrawn := s.overdrawn || s.depth < count } (f ()) R) :
    Gives n slack s (Grammar.leave count >>= f) R :=
  fun hs => h (hs.withDepth _)

theorem exhaust {f : Unit → Parse β} (h : Gives n slack { s with exhausted := true } (f ()) R) :
    Gives n slack s (Grammar.exhaust >>= f) R :=
  fun hs => h ⟨hs.genuine, hs.ended⟩

theorem bindNode {pos : Nat} {shape : Shape Node} {flags : Flags} {f : Node → Parse β}
    (h : ∀ id fin arena, Gives n slack { s with arena } (f (.mk ⟨id, pos, fin, flags⟩ shape)) R) :
    Gives n slack s (Grammar.node pos shape flags >>= f) R :=
  fun hs hfuel hclean => h _ _ _ (hs.withArena _) hfuel hclean

theorem run_accept (k : Kind) (s : State) : Grammar.accept k s =
    if s.current.kind == k then (true, s.advance) else (false, s) := by
  change ((if s.current.kind == k then Grammar.advance >>= fun _ => Pure.pure true
    else Pure.pure false : Parse Bool) s) = _
  split <;> rfl

theorem accept {k : Kind} {f : Bool → Parse β} (hk : (k == .endOfFile) = false)
    (htrue : s.current.kind = k → Passed s s.advance → Gives n 8 s.advance (f true) R)
    (hfalse : s.current.kind ≠ k → Gives n slack s (f false) R) :
    Gives n slack s (Grammar.accept k >>= f) R := by
  have hrun : (Grammar.accept k >>= f) s =
      if s.current.kind == k then f true s.advance else f false s := by
    change f (Grammar.accept k s).1 (Grammar.accept k s).2 = _
    rw [run_accept]
    split <;> rfl
  intro hs hfuel hclean
  rw [hrun] at hclean ⊢
  by_cases h : s.current.kind = k
  · rw [if_pos (by simpa using h)] at hclean ⊢
    have hpassed := hs.passed (h ▸ ne_of_beq_false hk)
    have hlength := hpassed.length
    exact htrue h hpassed (hs.of_before (.advance s)) (by omega) hclean
  · rw [if_neg (by simpa using h)] at hclean ⊢
    exact hfalse h hs hfuel hclean

theorem expectThen {k : Kind} {f : Bool → Parse β} (hk : (k == .endOfFile) = false)
    (h : s.current.kind = k → Passed s s.advance → Gives n 8 s.advance (f true) R) :
    Gives n slack s (Grammar.expect k >>= f) R := by
  have hexpect : Gives n slack s (Grammar.accept k >>= fun found =>
      (if found then (Pure.pure true : Parse Bool)
        else Grammar.complain (.expected k) >>= fun _ => Pure.pure false) >>= f) R :=
    accept hk h fun _ =>
      show Gives n slack s (Grammar.complain (.expected k) >>= fun _ => f false) R from complain
  exact hexpect

theorem expect {k : Kind} {f : Unit → Parse β} (hk : (k == .endOfFile) = false)
    (h : s.current.kind = k → Passed s s.advance → Gives n 8 s.advance (f ()) R) :
    Gives n slack s (discard (Grammar.expect k) >>= f) R := by
  have hexpect : Gives n slack s (Grammar.expect k >>= fun _ => f ()) R := expectThen hk h
  exact hexpect

theorem kind {f : Kind → Parse β} (h : Gives n slack s (f s.current.kind) R) :
    Gives n slack s (Grammar.kind >>= f) R := h

theorem here {f : Nat → Parse β} (h : Gives n slack s (f s.current.start) R) :
    Gives n slack s (Grammar.here >>= f) R := h

theorem current {f : Token → Parse β} (h : Gives n slack s (f s.current) R) :
    Gives n slack s (Grammar.current >>= f) R := h

theorem check {g : State → Bool} {f : Bool → Parse β} (h : Gives n slack s (f (g s)) R) :
    Gives n slack s (Grammar.check g >>= f) R := h

theorem missingBecause {fault : Fault} {Q : Node → State → Prop} :
    Gives n slack s (Grammar.missingBecause fault) Q := complain

end Gives

/-- What a step gives if it begins at the depth `d`, where it also ends at the depth `e`. -/
def GivesAt (n slack d e : Nat) (s : State) (p : Parse α) (Q : α → State → Prop) : Prop :=
  s.depth = d → Gives n slack s p fun a later => later.depth = e ∧ Q a later

variable {d e : Nat}

namespace GivesAt

theorem bind {p : Parse α} {f : α → Parse β} {last : Nat} (hp : GivesAt n slack d e s p Q)
    (hf : ∀ a m, Q a m → GivesAt n slack e last m (f a) R) : GivesAt n slack d last s (p >>= f) R :=
  fun hd => (hp hd).bind fun a m h => hf a m h.2 h.1

theorem mono {p : Parse α} {Q' : α → State → Prop} (hp : GivesAt n slack d e s p Q)
    (h : ∀ a m, Q a m → Q' a m) : GivesAt n slack d e s p Q' :=
  fun hd => (hp hd).mono fun a m hq => ⟨hq.1, h a m hq.2⟩

theorem spare {p : Parse α} {less : Nat} (hp : GivesAt n less d e s p Q) (h : less ≤ slack) :
    GivesAt n slack d e s p Q :=
  fun hd => (hp hd).spare h

theorem fuel {p : Parse α} (h : s.tokens.length ≤ n → GivesAt n slack d e s p Q) :
    GivesAt n slack d e s p Q :=
  fun hd => .fuel fun hlength => h hlength hd

theorem shorter {p : Parse α} (hp : GivesAt n slack d e s p Q) :
    GivesAt n slack d e s p fun a m => m.tokens.length ≤ s.tokens.length ∧ Q a m :=
  fun hd => (hp hd).shorter.mono fun _ _ h => ⟨h.2.1, h.1, h.2.2⟩

theorem pure {a : α} (h : Q a s) : GivesAt n slack d d s (Pure.pure a) Q := fun hd => .pure ⟨hd, h⟩

theorem ite {p q : Parse α} {c : Prop} [Decidable c] (hp : c → GivesAt n slack d e s p Q)
    (hq : ¬ c → GivesAt n slack d e s q Q) : GivesAt n slack d e s (if c then p else q) Q :=
  fun hd => .ite (fun h => hp h hd) fun h => hq h hd

theorem complain {fault : Fault} {f : Unit → Parse β} :
    GivesAt n slack d e s (Grammar.complain fault >>= f) R := fun _ => .complain

theorem advance {f : Unit → Parse β} (hk : s.current.kind ≠ .endOfFile)
    (h : GivesAt n 8 d e s.advance (f ()) R) : GivesAt n slack d e s (Grammar.advance >>= f) R :=
  fun hd => .advance hk fun hpassed => h (hpassed.depth.trans hd)

theorem passing {f : Unit → Parse β} (hk : s.current.kind ≠ .endOfFile)
    (h : GivesAt n 8 d e s.advance (f ()) R) : GivesAt n slack d e s (Grammar.advance >>= f)
      fun a m => m.tokens.length < s.tokens.length ∧ R a m :=
  fun hd => .advance hk fun hpassed => (h.shorter (hpassed.depth.trans hd)).mono fun _ _ h =>
    ⟨h.1, Nat.lt_of_lt_of_eq (Nat.lt_succ_of_le h.2.1) hpassed.length, h.2.2⟩

theorem enter {f : Bool → Parse β} (h : d < maxDepth → GivesAt n slack (d + 1) e s.opened (f true) R) :
    GivesAt n slack d e s (Grammar.enter >>= f) R :=
  fun hd => .enter fun hroom => h (hd ▸ hroom) (congrArg (· + 1) hd)

theorem leave {count : Nat} {f : Unit → Parse β} (h : GivesAt n slack d e
      { s with depth := s.depth - count, overdrawn := s.overdrawn || s.depth < count } (f ()) R) :
    GivesAt n slack (d + count) e s (Grammar.leave count >>= f) R :=
  fun hd => .leave (h (Nat.sub_eq_of_eq_add hd))

theorem exhaust {f : Unit → Parse β} (h : GivesAt n slack d e { s with exhausted := true } (f ()) R) :
    GivesAt n slack d e s (Grammar.exhaust >>= f) R :=
  fun hd => .exhaust (h hd)

theorem node {pos : Nat} {shape : Shape Node} {flags : Flags} {Q : Node → State → Prop}
    (h : ∀ id fin arena, Q (.mk ⟨id, pos, fin, flags⟩ shape) { s with arena }) :
    GivesAt n slack d d s (Grammar.node pos shape flags) Q := fun hd _ _ _ => ⟨hd, h _ _ _⟩

theorem bindNode {pos : Nat} {shape : Shape Node} {flags : Flags} {f : Node → Parse β}
    (h : ∀ id fin arena, GivesAt n slack d e { s with arena } (f (.mk ⟨id, pos, fin, flags⟩ shape)) R) :
    GivesAt n slack d e s (Grammar.node pos shape flags >>= f) R :=
  fun hd => .bindNode fun _ _ _ => h _ _ _ hd

theorem accept {k : Kind} {f : Bool → Parse β} (hk : (k == .endOfFile) = false)
    (htrue : s.current.kind = k → GivesAt n 8 d e s.advance (f true) R)
    (hfalse : s.current.kind ≠ k → GivesAt n slack d e s (f false) R) :
    GivesAt n slack d e s (Grammar.accept k >>= f) R :=
  fun hd => .accept hk (fun heq hpassed => htrue heq (hpassed.depth.trans hd)) fun hne => hfalse hne hd

theorem expectThen {k : Kind} {f : Bool → Parse β} (hk : (k == .endOfFile) = false)
    (h : s.current.kind = k → GivesAt n 8 d e s.advance (f true) R) :
    GivesAt n slack d e s (Grammar.expect k >>= f) R :=
  fun hd => .expectThen hk fun heq hpassed => h heq (hpassed.depth.trans hd)

theorem expect {k : Kind} {f : Unit → Parse β} (hk : (k == .endOfFile) = false)
    (h : s.current.kind = k → GivesAt n 8 d e s.advance (f ()) R) :
    GivesAt n slack d e s (discard (Grammar.expect k) >>= f) R :=
  fun hd => .expect hk fun heq hpassed => h heq (hpassed.depth.trans hd)

theorem kind {f : Kind → Parse β} (h : GivesAt n slack d e s (f s.current.kind) R) :
    GivesAt n slack d e s (Grammar.kind >>= f) R := h

theorem here {f : Nat → Parse β} (h : GivesAt n slack d e s (f s.current.start) R) :
    GivesAt n slack d e s (Grammar.here >>= f) R := h

theorem current {f : Token → Parse β} (h : GivesAt n slack d e s (f s.current) R) :
    GivesAt n slack d e s (Grammar.current >>= f) R := h

theorem check {g : State → Bool} {f : Bool → Parse β} (h : GivesAt n slack d e s (f (g s)) R) :
    GivesAt n slack d e s (Grammar.check g >>= f) R := h

end GivesAt

section
variable {P : Node → Prop} {item : Parse Node} {nodes : List Node}

theorem gives_reverse (h : ∀ node ∈ nodes, P node) :
    GivesAt n slack d d s (pure nodes.reverse) fun nodes _ => ∀ node ∈ nodes, P node :=
  .pure fun node hn => h node (List.mem_reverse.mp hn)

theorem gives_itemsOnto {close : Kind} (hitem : ∀ m, GivesAt n 8 d d m item fun node _ => P node)
    (count : Nat) (h : ∀ node ∈ nodes, P node) :
    GivesAt n 8 d d s (itemsOnto close item count nodes) fun nodes _ => ∀ node ∈ nodes, P node := by
  induction count generalizing s nodes with
  | zero => exact .exhaust (gives_reverse h)
  | succ count ih =>
    refine .kind (.ite (fun _ => gives_reverse h) fun _ => .bind (hitem s) fun node m hnode => ?_)
    have hall := List.forall_mem_cons.mpr ⟨hnode, h⟩
    exact .accept rfl (fun _ => ih hall) fun _ => gives_reverse hall

theorem gives_elementsOnto (hitem : ∀ m, GivesAt n 8 d d m item fun node _ => P node) (count : Nat)
    (h : ∀ node ∈ nodes, P node) :
    GivesAt n 8 d d s (elementsOnto item count nodes) fun nodes _ => ∀ node ∈ nodes, P node := by
  induction count generalizing s nodes with
  | zero => exact .exhaust (gives_reverse h)
  | succ count ih =>
    refine .kind ?_
    split
    · exact gives_reverse h
    · exact gives_reverse h
    · exact .complain
    · refine .bind (hitem s) fun node m hnode => ?_
      have hall := List.forall_mem_cons.mpr ⟨hnode, h⟩
      exact .accept rfl (fun _ => ih hall) fun _ => gives_reverse hall

theorem GivesAt.listed {close : Kind} {f : List Node → Parse β} (hclose : (close == .endOfFile) = false)
    (hitem : ∀ m, GivesAt n 8 d d m item fun node _ => P node) (count : Nat)
    (h : ∀ nodes m, (∀ node ∈ nodes, P node) → GivesAt n 8 d e m (f nodes) R) :
    GivesAt n 8 d e s (do
      let nodes ← items count close item
      discard (Grammar.expect close)
      f nodes) R :=
  .bind (gives_itemsOnto hitem count (by simp)) fun nodes m hnodes =>
    .expect hclose fun _ => h nodes _ hnodes

end

namespace Goal

/-- How many productions can be open before a token is passed. -/
def rank : Goal → Nat
  | .statement => 5
  | .expression => 4
  | .assignment => 3
  | .binary _ => 2
  | .unary => 1
  | .block | .new => 0

def Fits (limited : Bool) (goal : Goal) (depth : Nat) (node : Node) : Prop :=
  match goal with
  | .statement => Phrase limited .statement depth node
  | .block => Phrase limited .block depth node
  | .expression => ∃ links, Phrase limited (.expression links) depth node
  | .assignment => Phrase limited .assignment depth node
  | .binary least => ∃ links, Phrase limited (.binary least links) depth node
  | .unary => Phrase limited .unary depth node
  | .new => Phrase limited .new depth node

end Goal

theorem Goal.rank_lt (goal : Goal) : goal.rank < 8 := by
  cases goal <;> simp [rank]

def isLink (calls : Bool) (kind : Kind) : Bool :=
  kind == .dot || kind == .openBracket || (calls && kind == .openParen)

theorem name_of_genuine {word : Word} (h : word.Genuine) (hk : isMemberName word.kind) :
    word.value = word.text ∧ word.kind = (Kind.ofWord? word.text).getD .identifier := by
  have hmark : ∀ kind ∈ Kind.punctuation, isMemberName kind = false := by decide
  cases h with
  | name => exact ⟨rfl, rfl⟩
  | number | string => cases hk
  | mark hmem => exact absurd hk (by simp [hmark _ hmem])

theorem Leaf.isKey {node : Node} (h : Leaf isMemberName node) : Leaf isKey node := by
  cases h with
  | name hk hg => exact .name (by simp [Grammar.isKey, hk]) hg
  | literal hk hg => exact .literal (by simp [Grammar.isKey, hk]) hg

theorem insertByStart_ne_nil (complaint : Complaint) (complaints : List Complaint) :
    insertByStart complaint complaints ≠ [] := by
  cases complaints with
  | nil => nofun
  | cons other rest =>
    rw [insertByStart]
    split <;> nofun

theorem sortByStart_eq_nil {complaints : List Complaint} (h : sortByStart complaints = []) :
    complaints = [] := by
  cases complaints with
  | nil => rfl
  | cons complaint rest => exact absurd h (insertByStart_ne_nil _ _)

theorem list_eq_cons (text : String) : ∃ first rest, Token.list text = first :: rest := by
  have hlast := @Token.listFrom_getLast? text.toList _ 0 (Nat.lt_succ_self text.toList.length)
  cases hlist : Token.list text with
  | cons first rest => exact ⟨first, rest, rfl⟩
  | nil =>
    rw [Token.list] at hlist
    rw [hlist] at hlast
    cases hlast

theorem tokens_start (text : String) : (State.start (Token.list text)).tokens = Token.list text := by
  obtain ⟨first, rest, hlist⟩ := list_eq_cons text
  rw [hlist]
  rfl

theorem sourced_start (text : String) : Sourced (.start (Token.list text)) where
  genuine := by
    have hall : ∀ token ∈ Token.list text, token.complaints = [] → token.word.kind ≠ .endOfFile →
        token.word.Genuine := fun _ hmem => Token.genuine_of_mem_listFrom hmem
    obtain ⟨first, rest, hlist⟩ := list_eq_cons text
    rw [hlist] at hall ⊢
    intro hlexical
    exact ⟨hall first List.mem_cons_self (List.reverse_eq_nil_iff.mp hlexical),
      fun token hmem => hall token (List.mem_cons_of_mem _ hmem)⟩
  ended := by
    have hlast := @Token.listFrom_getLast? text.toList _ 0 (Nat.lt_succ_self text.toList.length)
    rw [tokens_start, List.getLast?_map, Option.map_map]
    exact hlast

theorem start_exceeded (tokens : List Token) : (State.start tokens).exceeded = false := by
  cases tokens <;> rfl

theorem start_depth (tokens : List Token) : (State.start tokens).depth = 0 := by
  cases tokens <;> rfl

theorem parse_clean {name text : String} (h : (parse name text).complaints = []) :
    Clean (statementsOf (Token.list text)).2 := by
  obtain ⟨hcomplaints, hlexical⟩ := List.append_eq_nil_iff.mp (sortByStart_eq_nil h)
  refine ⟨List.reverse_eq_nil_iff.mp hcomplaints, List.reverse_eq_nil_iff.mp hlexical, ?_⟩
  refine Bool.eq_false_iff.mpr fun hexceeded => ?_
  exact (Parse.before _ _).reason (by simp [start_exceeded]) hexceeded
    (List.reverse_eq_nil_iff.mp hcomplaints)

end ArrayLoops.Grammar
