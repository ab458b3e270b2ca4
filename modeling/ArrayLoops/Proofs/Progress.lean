import ArrayLoops.Proofs.Ranges
import ArrayLoops.Proofs.Reached
import Mathlib.Data.List.Chain
import Mathlib.Tactic.Ring

/-!
# A parse goes on

Whatever the tokens, every turn of a loop passes one of them and so does every nesting of
productions after a few steps, so that no bound is ever met. On the way every construct that is
opened is closed again, complaints stay inside the text and trees stay low: a chain has no more links
than constructs may be opened, and the productions inside a construct have one less to open. Only a
`new` directly behind another opens nothing, so trees stay low where there is none.

What a step does is stated for a state with fuel for eight steps on each token that is left and for
some more, the slack. Behind a token there is fuel for eight steps again.
-/

namespace ArrayLoops

open Token (Kind)
open ArrayLoops.Tree (Flags Info Node Shape)

namespace Tree.Node

def height : Node → Nat :=
  fold 0 fun _ shape => (shape.parts.map (·.2)).foldr max 0 + 1

@[simp] theorem height_absent : height .absent = 0 := rfl

theorem height_mk (info : Info) (shape : Shape Node) :
    height (.mk info shape) = (shape.parts.map height).foldr max 0 + 1 := by
  rw [height, fold_mk, Shape.parts_map, List.map_map]
  rfl

theorem height_mk_le {info : Info} {shape : Shape Node} {bound : Nat}
    (h : ∀ part ∈ shape.parts, part.height ≤ bound) : height (.mk info shape) ≤ bound + 1 := by
  rw [height_mk]
  refine Nat.succ_le_succ ?_
  generalize shape.parts = parts at h
  induction parts with
  | nil => exact Nat.zero_le _
  | cons part parts ih =>
    obtain ⟨hpart, hparts⟩ := List.forall_mem_cons.mp h
    exact Nat.max_le.mpr ⟨hpart, ih hparts⟩

end Tree.Node

namespace Grammar

def NewsApart (tokens : List Token) : Prop :=
  (tokens.map Token.kind).IsChain fun kind next => kind = .newWord → next ≠ .newWord

instance (tokens : List Token) : Decidable (NewsApart tokens) :=
  inferInstanceAs (Decidable (List.IsChain _ _))

/-- How many more constructs may be opened where `depth` are open. -/
def room (depth : Nat) : Nat := maxDepth - depth

/-- All that is complained about, and all that can be, lies before `limit`. -/
structure State.Within (limit : Nat) (s : State) : Prop where
  tokens : ∀ token ∈ s.tokens, token.Within limit
  complaints : ∀ complaint ∈ s.complaints, complaint.Within limit
  lexical : ∀ complaint ∈ s.lexical, complaint.Within limit

variable {α β : Type} {s m later : State}

theorem State.complain_current (s : State) (fault : Fault) :
    (s.complain fault).current = s.current := by
  simp only [State.complain]
  split <;> rfl

theorem State.complain_same (s : State) (fault : Fault) :
    (s.complain fault).tokens = s.tokens ∧ (s.complain fault).exhausted = s.exhausted := by
  simp only [State.complain]
  split <;> exact ⟨rfl, rfl⟩

theorem NewsApart.of_before (h : NewsApart s.tokens) (hb : s.Before later) :
    NewsApart later.tokens := by
  have hkinds : ∀ t : State, (t.tokens.map Token.word).map (·.kind) = t.tokens.map Token.kind := by
    intro t
    rw [List.map_map]
    rfl
  have hsuffix := hb.words.map (·.kind)
  rw [hkinds, hkinds] at hsuffix
  exact List.IsChain.suffix h hsuffix

theorem NewsApart.advance (h : NewsApart s.tokens) (hs : Sourced s)
    (hk : s.current.kind = .newWord) : s.advance.current.kind ≠ .newWord := by
  obtain ⟨token, ahead, hahead⟩ := hs.exists_ahead (by simp [hk])
  rw [NewsApart, State.tokens, hahead, List.map_cons, List.map_cons, List.isChain_cons_cons] at h
  have hadvance : s.advance.current = token := by
    unfold State.advance
    rw [hahead]
  rw [hadvance]
  exact h.1 hk

namespace State.Within

variable {limit : Nat}

theorem advance (h : s.Within limit) : s.advance.Within limit := by
  have htokens := h.tokens
  unfold State.advance
  split
  · rename_i hahead
    have hcurrent := htokens s.current (by simp [State.tokens])
    refine ⟨?_, h.complaints, h.lexical⟩
    intro token ht
    rw [State.tokens, hahead, List.mem_singleton] at ht
    subst ht
    exact ⟨hcurrent.start, hcurrent.fin, hcurrent.ended, by simp⟩
  · rename_i token ahead hahead
    rw [State.tokens, hahead, List.forall_mem_cons] at htokens
    refine ⟨htokens.2, h.complaints, fun complaint hc => ?_⟩
    obtain hc | hc := List.mem_append.mp hc
    · exact (htokens.2 token List.mem_cons_self).complaints complaint (List.mem_reverse.mp hc)
    · exact h.lexical complaint hc

theorem complain (h : s.Within limit) (fault : Fault) : (s.complain fault).Within limit := by
  simp only [State.complain]
  split
  · exact h
  · refine ⟨h.tokens, List.forall_mem_cons.mpr ⟨?_, h.complaints⟩, h.lexical⟩
    have hcurrent := h.tokens s.current (by simp [State.tokens])
    have := hcurrent.start
    have := hcurrent.fin
    simp only [Complaint.Within]
    omega

theorem of_reached {opened : Nat} (hr : Reached s opened m) (h : s.Within limit) : m.Within limit := by
  induction hr with
  | refl => exact h
  | advance _ ih => exact ih.advance
  | complain _ _ ih => exact ih.complain _
  | giveUp _ _ ih =>
    obtain ⟨htokens, hcomplaints, hlexical⟩ := ih.complain .nestingTooDeep
    exact ⟨htokens, hcomplaints, hlexical⟩
  | enter _ _ ih | leave _ ih | withArena _ _ ih | exhaust _ ih =>
    exact ⟨ih.tokens, ih.complaints, ih.lexical⟩

end State.Within

/-- The text of the state is there to its end, and if `A` holds, no `new` is directly behind another. -/
structure Sound (A : Prop) (s : State) : Prop where
  sourced : Sourced s
  apart : A → NewsApart s.tokens

theorem Sound.of_before {A : Prop} (hb : s.Before later) (h : Sound A s) : Sound A later :=
  ⟨h.sourced.of_before hb, fun ha => (h.apart ha).of_before hb⟩

def Low (A : Prop) (bound : Nat) (node : Node) : Prop := A → node.height ≤ bound

def Lows (A : Prop) (bound : Nat) (nodes : List Node) : Prop := ∀ node ∈ nodes, Low A bound node

variable {A : Prop} {n slack d e b c : Nat} {tree : Node} {nodes : List Node}

namespace Low

theorem mono (h : Low A b tree) (hb : b ≤ c) : Low A c tree := fun hs => Nat.le_trans (h hs) hb

theorem absent : Low A b .absent := fun _ => Nat.zero_le _

theorem mk {info : Info} {shape : Shape Node} (h : Lows A b shape.parts) :
    Low A (b + 1) (.mk info shape) :=
  fun hs => Tree.Node.height_mk_le fun part hp => h part hp hs

end Low

namespace Lows

theorem mono (h : Lows A b nodes) (hb : b ≤ c) : Lows A c nodes :=
  fun node hn => (h node hn).mono hb

theorem nil : Lows A b [] := fun _ hn => absurd hn (by simp)

theorem cons (h : Low A b tree) (hb : b ≤ c) (hs : Lows A c nodes) : Lows A c (tree :: nodes) :=
  List.forall_mem_cons.mpr ⟨h.mono hb, hs⟩

theorem single (h : Low A b tree) (hb : b ≤ c) : Lows A c [tree] := .cons h hb .nil

theorem append {others : List Node} (h : Lows A b nodes) (ho : Lows A b others) :
    Lows A b (nodes ++ others) :=
  List.forall_mem_append.mpr ⟨h, ho⟩

theorem reverse (h : Lows A b nodes) : Lows A b nodes.reverse :=
  fun node hn => h node (List.mem_reverse.mp hn)

end Lows

/-- Bounds the height of what an assignment makes where `room` constructs may be opened. -/
def tall (room : Nat) : Nat := (room + 1) * (2 * room + 1)

theorem tall_pos (room : Nat) : 0 < tall room := Nat.mul_pos (Nat.succ_pos _) (Nat.succ_pos _)

theorem tall_mono {less room : Nat} (h : less ≤ room) : tall less ≤ tall room :=
  Nat.mul_le_mul (by omega) (by omega)

theorem tall_room_lt {depth more : Nat} (h : depth < more) (hm : more ≤ maxDepth) :
    tall (room more) + 4 * room more + 5 ≤ tall (room depth) := by
  have hsucc : tall (room more + 1) = tall (room more) + 4 * room more + 5 := by
    unfold tall
    ring
  rw [← hsucc]
  refine tall_mono ?_
  unfold room
  omega

namespace Goal

/-- Bounds the height of what a production makes where `room` constructs may be opened. -/
def bound (goal : Goal) (room : Nat) : Nat :=
  match goal with
  | .statement => tall room - 1
  | .block | .assignment => tall room
  | .expression => tall room + room
  | .new => tall room + 2 * room + 3
  | .unary => tall room + 3 * room + 4
  | .binary _ => tall room + 4 * room + 4

/-- How much slack a production needs: a step for each one that can be open before a token is passed.
A block passes none if its brace is missing. -/
def need (goal : Goal) (s : State) : Nat :=
  if goal = .block ∧ s.current.kind ≠ .openBrace then 6 else goal.rank

theorem need_lt (goal : Goal) (s : State) : goal.need s < 8 := by
  have hrank := goal.rank_lt
  unfold need
  split <;> omega

end Goal

/-- With fuel for the tokens and the slack, and with `d` constructs open, the step meets no bound, ends
with `e` open, and its outcome is as stated. -/
def Goes (A : Prop) (n slack d e : Nat) (s : State) (p : Parse α) (Q : α → State → Prop) : Prop :=
  Sound A s → s.depth = d → 8 * s.tokens.length + slack ≤ n →
    (p s).2.depth = e ∧ (p s).2.exhausted = s.exhausted ∧ Q (p s).1 (p s).2

/-- The step closes what it opens and makes a low tree. -/
def Grows (A : Prop) (n slack d : Nat) (s : State) (p : Parse Node) (bound : Nat) : Prop :=
  Goes A n slack d d s p fun node _ => Low A bound node

def GrowsAll (A : Prop) (n slack d : Nat) (s : State) (p : Parse (List Node)) (bound : Nat) : Prop :=
  Goes A n slack d d s p fun nodes _ => Lows A bound nodes

def Proceeds (A : Prop) (n : Nat) (self : Productions) : Prop :=
  ∀ goal d s, Grows A n (goal.need s + 1) d s (self goal) (goal.bound (room d))

variable {Q : α → State → Prop} {R : β → State → Prop}

namespace Goes

theorem bind {p : Parse α} {f : α → Parse β} {last : Nat} (hp : Goes A n slack d e s p Q)
    (hf : ∀ a m, Q a m → Goes A n slack e last m (f a) R) : Goes A n slack d last s (p >>= f) R := by
  intro hs hd hfuel
  have hbefore := p.before s
  have hless := hbefore.length_le
  obtain ⟨hdepth, hexhausted, hq⟩ := hp hs hd hfuel
  obtain ⟨hlast, hexhausted', hr⟩ := hf _ _ hq (hs.of_before hbefore) hdepth (by omega)
  exact ⟨hlast, hexhausted'.trans hexhausted, hr⟩

/-- Behind a step that passes a token there is fuel for eight steps. -/
theorem bindPassed {p : Parse α} {f : α → Parse β} {last : Nat}
    (hp : Goes A n slack d e s p fun a later => later.tokens.length < s.tokens.length ∧ Q a later)
    (hf : ∀ a m, Q a m → Goes A n 8 e last m (f a) R) : Goes A n slack d last s (p >>= f) R := by
  intro hs hd hfuel
  obtain ⟨hdepth, hexhausted, hless, hq⟩ := hp hs hd hfuel
  obtain ⟨hlast, hexhausted', hr⟩ := hf _ _ hq (hs.of_before (p.before s)) hdepth (by omega)
  exact ⟨hlast, hexhausted'.trans hexhausted, hr⟩

theorem mono {p : Parse α} {Q' : α → State → Prop} (hp : Goes A n slack d e s p Q)
    (h : ∀ a later, Q a later → Q' a later) : Goes A n slack d e s p Q' :=
  fun hs hd hfuel => (hp hs hd hfuel).imp_right (And.imp_right (h _ _))

theorem before {p : Parse α} (hp : Goes A n slack d e s p Q) :
    Goes A n slack d e s p fun a later => s.Before later ∧ Q a later :=
  fun hs hd hfuel => (hp hs hd hfuel).imp_right (And.imp_right (⟨p.before s, ·⟩))

theorem sound {p : Parse α} (h : Sound A s → Goes A n slack d e s p Q) : Goes A n slack d e s p Q :=
  fun hs => h hs hs

theorem fuel {p : Parse α} (h : s.tokens.length ≤ n → Goes A n slack d e s p Q) :
    Goes A n slack d e s p Q :=
  fun hs hd hfuel => h (by omega) hs hd hfuel

theorem spare {p : Parse α} {less : Nat} (hp : Goes A n less d e s p Q) (h : less ≤ slack) :
    Goes A n slack d e s p Q :=
  fun hs hd hfuel => hp hs hd (by omega)

theorem pure {a : α} (h : Q a s) : Goes A n slack d d s (Pure.pure a) Q := fun _ hd _ => ⟨hd, rfl, h⟩

theorem ite {p q : Parse α} {c : Prop} [Decidable c] (hp : c → Goes A n slack d e s p Q)
    (hq : ¬ c → Goes A n slack d e s q Q) : Goes A n slack d e s (if c then p else q) Q := by
  split
  · exact hp ‹_›
  · exact hq ‹_›

theorem kind {f : Kind → Parse β} (h : Goes A n slack d e s (f s.current.kind) R) :
    Goes A n slack d e s (Grammar.kind >>= f) R := h

theorem here {f : Nat → Parse β} (h : Goes A n slack d e s (f s.current.start) R) :
    Goes A n slack d e s (Grammar.here >>= f) R := h

theorem current {f : Token → Parse β} (h : Goes A n slack d e s (f s.current) R) :
    Goes A n slack d e s (Grammar.current >>= f) R := h

theorem check {g : State → Bool} {f : Bool → Parse β} (h : Goes A n slack d e s (f (g s)) R) :
    Goes A n slack d e s (Grammar.check g >>= f) R := h

theorem advance {f : Unit → Parse β} (hk : s.current.kind ≠ .endOfFile)
    (h : s.advance.tokens.length < s.tokens.length → Goes A n 8 d e s.advance (f ()) R) :
    Goes A n slack d e s (Grammar.advance >>= f) R := by
  intro hs hd hfuel
  have hpassed := hs.sourced.passed hk
  have hlength := hpassed.length
  have hexhausted : s.advance.exhausted = s.exhausted := by
    unfold State.advance
    split <;> rfl
  obtain ⟨hdepth, hlast, hr⟩ := h (by omega) (hs.of_before (.advance s)) (hpassed.depth.trans hd) (by omega)
  exact ⟨hdepth, hlast.trans hexhausted, hr⟩

theorem passing {f : Unit → Parse β} (hk : s.current.kind ≠ .endOfFile)
    (h : Goes A n 8 d e s.advance (f ()) R) : Goes A n slack d e s (Grammar.advance >>= f)
      fun a later => later.tokens.length < s.tokens.length ∧ R a later :=
  .advance hk fun hless => h.before.mono fun _ _ hr => ⟨Nat.lt_of_le_of_lt hr.1.length_le hless, hr.2⟩

theorem complain {fault : Fault} {f : Unit → Parse β}
    (h : Goes A n slack d e (s.complain fault) (f ()) R) :
    Goes A n slack d e s (Grammar.complain fault >>= f) R := by
  obtain ⟨htokens, hexhausted⟩ := s.complain_same fault
  intro hs hd hfuel
  rw [← htokens] at hfuel
  obtain ⟨hdepth, hlast, hr⟩ := h (hs.of_before (.complain s fault)) ((s.depth_complain fault).trans hd) hfuel
  exact ⟨hdepth, hlast.trans hexhausted, hr⟩

theorem enter {f : Bool → Parse β}
    (hyes : d < maxDepth → Goes A n slack (d + 1) e s.opened (f true) R)
    (hno : ∀ later, Goes A n slack d e later (f false) R) :
    Goes A n slack d e s (Grammar.enter >>= f) R := by
  intro hs hd hfuel
  by_cases hroom : maxDepth ≤ s.depth
  · have hrun : (Grammar.enter >>= f) s = f false { s.complain .nestingTooDeep with exceeded := true } := by
      change f s.enter.1 s.enter.2 = _
      rw [State.enter, if_pos hroom]
    have hs := hs.of_before (.complain s .nestingTooDeep)
    obtain ⟨htokens, hexhausted⟩ := s.complain_same .nestingTooDeep
    rw [← htokens] at hfuel
    rw [hrun, ← hexhausted]
    exact hno _ ⟨⟨hs.sourced.genuine, hs.sourced.ended⟩, hs.apart⟩ ((s.depth_complain _).trans hd) hfuel
  · have hrun : (Grammar.enter >>= f) s = f true s.opened := by
      change f s.enter.1 s.enter.2 = _
      rw [State.enter, if_neg hroom]
      rfl
    rw [hrun]
    exact hyes (hd ▸ Nat.lt_of_not_le hroom) ⟨hs.sourced.withDepth _, hs.apart⟩ (congrArg (· + 1) hd) hfuel

theorem leave {count : Nat} {f : Unit → Parse β} (h : Goes A n slack d e (s.leave count) (f ()) R) :
    Goes A n slack (d + count) e s (Grammar.leave count >>= f) R :=
  fun hs hd => h ⟨hs.sourced.withDepth _, hs.apart⟩ (Nat.sub_eq_of_eq_add hd)

theorem accept {k : Kind} {f : Bool → Parse β} (hk : (k == .endOfFile) = false)
    (htrue : s.current.kind = k → s.advance.tokens.length < s.tokens.length →
      Goes A n 8 d e s.advance (f true) R)
    (hfalse : s.current.kind ≠ k → Goes A n slack d e s (f false) R) :
    Goes A n slack d e s (Grammar.accept k >>= f) R := by
  have haccept : Goes A n slack d e s (if s.current.kind == k then Grammar.advance >>= fun _ => f true
      else f false) R :=
    .ite (fun h => .advance (eq_of_beq h ▸ ne_of_beq_false hk) (htrue (by simpa using h)))
      fun h => hfalse (by simpa using h)
  intro hs hd hfuel
  have hrun : (Grammar.accept k >>= f) s =
      (if s.current.kind == k then Grammar.advance >>= fun _ => f true else f false : Parse β) s := by
    change f (Grammar.accept k s).1 (Grammar.accept k s).2 = _
    rw [Gives.run_accept]
    split <;> rfl
  rw [hrun]
  exact haccept hs hd hfuel

theorem expectThen {k : Kind} {f : Bool → Parse β} (hk : (k == .endOfFile) = false)
    (htrue : s.current.kind = k → s.advance.tokens.length < s.tokens.length →
      Goes A n 8 d e s.advance (f true) R)
    (hfalse : s.current.kind ≠ k → Goes A n slack d e (s.complain (.expected k)) (f false) R) :
    Goes A n slack d e s (Grammar.expect k >>= f) R := by
  have hexpect : Goes A n slack d e s (Grammar.accept k >>= fun found =>
      (if found then (Pure.pure true : Parse Bool)
        else Grammar.complain (.expected k) >>= fun _ => Pure.pure false) >>= f) R :=
    .accept hk htrue fun hne => show Goes A n slack d e s
      (Grammar.complain (.expected k) >>= fun _ => f false) R from .complain (hfalse hne)
  exact hexpect

theorem expect {k : Kind} {f : Unit → Parse β} (hk : (k == .endOfFile) = false)
    (h : ∀ later, Goes A n 8 d e later (f ()) R) :
    Goes A n 8 d e s (discard (Grammar.expect k) >>= f) R := by
  have hexpect : Goes A n 8 d e s (Grammar.expect k >>= fun _ => f ()) R :=
    .expectThen hk (fun _ _ => h _) fun _ => h _
  exact hexpect

theorem expectAt {k : Kind} {f : Unit → Parse β} (hkind : s.current.kind = k) (hk : (k == .endOfFile) = false)
    (h : s.advance.tokens.length < s.tokens.length → Goes A n 8 d e s.advance (f ()) R) :
    Goes A n slack d e s (discard (Grammar.expect k) >>= f) R := by
  have hexpect : Goes A n slack d e s (Grammar.expect k >>= fun _ => f ()) R :=
    .expectThen hk (fun _ => h) fun hne => absurd hkind hne
  exact hexpect

theorem node {pos : Nat} {shape : Shape Node} {flags : Flags} (hparts : Lows A b shape.parts) :
    Grows A n slack d s (Grammar.node pos shape flags) (b + 1) :=
  fun _ hd _ => ⟨hd, rfl, .mk hparts⟩

theorem missing : Grows A n slack d s Grammar.missing 1 := fun _ hd _ => ⟨hd, rfl, .mk .nil⟩

theorem missingBecause {fault : Fault} : Grows A n slack d s (Grammar.missingBecause fault) 1 :=
  .complain .missing

end Goes

theorem Grows.weaken {p : Parse Node} (hp : Grows A n slack d s p b) (hb : b ≤ c) :
    Grows A n slack d s p c :=
  Goes.mono hp fun _ _ h => h.mono hb

section
variable {self : Productions} {goal : Goal} (hself : Proceeds A n self)
include hself

theorem Proceeds.behind (goal : Goal) : Grows A n 8 d s (self goal) (goal.bound (room d)) :=
  Goes.spare (hself goal d s) (goal.need_lt s)

theorem Proceeds.expression : Grows A n 8 d s (self .expression) (tall (room d) + room d) :=
  hself.behind .expression

theorem Proceeds.assignment : Grows A n 8 d s (self .assignment) (tall (room d)) :=
  hself.behind .assignment

theorem Proceeds.block : Grows A n 8 d s (self .block) (tall (room d)) := hself.behind .block

theorem Proceeds.statement : Grows A n 8 d s (self .statement) (tall (room d)) :=
  (hself.behind .statement).weaken (Nat.sub_le _ _)

end

theorem goes_identifierOf {text : Token → String} (hk : s.current.kind ≠ .endOfFile) :
    Grows A n slack d s (identifierOf text) 1 :=
  .current (.advance hk fun _ => .node .nil)

theorem goes_literal (hk : s.current.kind ≠ .endOfFile) : Grows A n slack d s literal 1 :=
  .current (.advance hk fun _ => .node .nil)

theorem goes_wordExpression (hk : s.current.kind ≠ .endOfFile) :
    Grows A n slack d s wordExpression 1 :=
  .current (.advance hk fun _ => .node .nil)

theorem goes_propertyName : Grows A n slack d s propertyName 1 := by
  refine .kind (.ite (fun hk => goes_identifierOf ?_) fun _ =>
    .kind (.ite (fun hk => goes_identifierOf ?_) fun _ => .missingBecause))
  · intro heq
    simp [heq] at hk
  · intro heq
    rw [heq] at hk
    cases hk

theorem goes_bindingName : Grows A n slack d s bindingName 1 := by
  refine .kind ?_
  split
  · exact goes_identifierOf (by simp [*])
  · exact .missingBecause
  · exact .missingBecause
  · exact .missingBecause

section
variable {item : Parse Node} {count : Nat}

theorem goes_itemsOnto {close : Kind} (hitem : ∀ m, Grows A n 8 d m item b)
    (hcount : s.tokens.length ≤ count) (hnodes : Lows A b nodes) :
    GrowsAll A n 8 d s (itemsOnto close item count nodes) b := by
  induction count generalizing s nodes with
  | zero => simp [State.tokens] at hcount
  | succ count ih =>
    refine .kind (.ite (fun _ => .pure hnodes.reverse) fun _ => .bind (hitem s).before ?_)
    rintro node m ⟨hbefore, hlow⟩
    have hlength := hbefore.length_le
    have hnodes := hnodes.cons hlow (Nat.le_refl b)
    exact .accept rfl (fun _ hless => ih (by omega) hnodes) fun _ => .pure hnodes.reverse

theorem goes_elementsOnto (hitem : ∀ m, Grows A n 8 d m item b)
    (hcount : s.tokens.length ≤ count) (hnodes : Lows A b nodes) :
    GrowsAll A n 8 d s (elementsOnto item count nodes) b := by
  induction count generalizing s nodes with
  | zero => simp [State.tokens] at hcount
  | succ count ih =>
    refine .kind ?_
    split
    · exact .pure hnodes.reverse
    · exact .pure hnodes.reverse
    · rename_i hcomma
      -- The complaint leaves the comma current.
      have hkind : (s.complain .arrayHole).current.kind ≠ .endOfFile := by
        simp [State.complain_current, hcomma]
      have hlength := congrArg List.length (s.complain_same .arrayHole).1
      exact .complain (.advance hkind fun hless => ih (by omega) hnodes)
    · refine .bind (hitem s).before ?_
      rintro node m ⟨hbefore, hlow⟩
      have hlength := hbefore.length_le
      have hnodes := hnodes.cons hlow (Nat.le_refl b)
      exact .accept rfl (fun _ hless => ih (by omega) hnodes) fun _ => .pure hnodes.reverse

end

section
variable {count : Nat} {self : Productions} (hself : Proceeds A n self)
include hself

theorem goes_argumentList (hkind : s.current.kind = .openParen) (hcount : s.tokens.length ≤ count + 1) :
    Goes A n slack d d s (argumentList count self) fun arguments later =>
      later.tokens.length < s.tokens.length ∧ Lows A (tall (room d)) arguments := by
  have hlist : s.advance.tokens.length ≤ count → GrowsAll A n 8 d s.advance (do
      let arguments ← items count .closeParen (self .assignment)
      discard (expect .closeParen)
      return arguments) (tall (room d)) := fun hcount =>
    .bind (goes_itemsOnto (fun _ => hself.assignment) hcount .nil) fun arguments m hlows =>
      .expect rfl fun _ => .pure hlows
  exact .expectAt hkind rfl fun hless => (Goes.before (hlist (by omega))).mono fun _ _ h =>
    ⟨Nat.lt_of_le_of_lt h.1.length_le hless, h.2⟩

theorem goes_initializer : Grows A n slack d s (initializer self) (tall (room d)) :=
  .accept rfl (fun _ _ => hself.assignment) fun _ => .pure .absent

theorem goes_parameter : Grows A n slack d s (parameter self) (tall (room d) + 1) :=
  .here (.bind goes_bindingName fun _ _ hname => .bind (goes_initializer hself) fun _ _ hvalue =>
    .node (.cons hname (tall_pos _) (.single hvalue (Nat.le_refl _))))

theorem goes_parameterList : Goes A n slack d d s (parameterList n self) fun parameters later =>
    (s.current.kind = .openParen → later.tokens.length < s.tokens.length) ∧
      Lows A (tall (room d) + 1) parameters := by
  have hlist : s.advance.tokens.length ≤ n → GrowsAll A n 8 d s.advance (do
      let parameters ← items n .closeParen (parameter self)
      discard (expect .closeParen)
      return parameters) (tall (room d) + 1) := fun hcount =>
    .bind (goes_itemsOnto (fun _ => goes_parameter hself) hcount .nil) fun parameters m hlows =>
      .expect rfl fun _ => .pure hlows
  refine .fuel fun hn => .expectThen rfl (fun _ hless => ?_) fun hne => .pure ⟨(absurd · hne), .nil⟩
  exact (Goes.before (hlist (by omega))).mono fun _ _ h =>
    ⟨fun _ => Nat.lt_of_le_of_lt h.1.length_le hless, h.2⟩

theorem goes_parenthesized (hkind : s.current.kind = .openParen) :
    Grows A n slack d s (parenthesized self) (tall (room d) + room d + 1) :=
  .here (.expectAt hkind rfl fun _ => .bind hself.expression fun _ _ hlow =>
    .expect rfl fun _ => .node (.single hlow (Nat.le_refl _)))

theorem goes_arrayLiteral (hkind : s.current.kind = .openBracket) :
    Grows A n slack d s (arrayLiteral n self) (tall (room d) + 1) := by
  refine .here (.expectAt hkind rfl fun _ => .fuel fun hcount => ?_)
  exact .bind (goes_elementsOnto (fun _ => hself.assignment) hcount .nil) fun elements m hlows =>
    .expect rfl fun _ => .node hlows

theorem goes_property : Grows A n 8 d s (property self) (tall (room d) + 1) := by
  refine .here (.check (.kind ?_))
  let rest := propertyRest self s.current.start s.atName
  have hrest : ∀ name m, Low A 1 name → Grows A n 8 d m (rest name) (tall (room d) + 1) := by
    intro name m hname
    have hshort : ∀ last, Grows A n 8 d last (node s.current.start (.property name .absent))
        (tall (room d) + 1) :=
      fun last => .node (.cons hname (tall_pos _) (.single .absent (Nat.le_refl _)))
    refine .accept rfl (fun _ _ => .bind hself.assignment fun value last hvalue =>
      .node (.cons hname (tall_pos _) (.single hvalue (Nat.le_refl _)))) fun _ => ?_
    cases s.atName with
    | true => exact hshort _
    | false => exact .expect rfl hshort
  have hliteral : s.current.kind ≠ .endOfFile →
      Grows A n 8 d s (literal >>= rest) (tall (room d) + 1) := fun hk => .bind (goes_literal hk) hrest
  have hname : Grows A n 8 d s (if s.atName then propertyName >>= rest
      else missingBecause .propertyExpected >>= rest) (tall (room d) + 1) :=
    .ite (fun _ => .bind goes_propertyName hrest) fun _ => .bind .missingBecause hrest
  generalize hk : s.current.kind = kind at hliteral ⊢
  cases kind with
  | string | number => exact hliteral nofun
  | _ => exact hname

theorem goes_objectLiteral (hkind : s.current.kind = .openBrace) :
    Grows A n slack d s (objectLiteral n self) (tall (room d) + 2) := by
  refine .here (.expectAt hkind rfl fun _ => .fuel fun hcount => ?_)
  exact .bind (goes_itemsOnto (fun _ => goes_property hself) hcount .nil) fun properties m hlows =>
    .expect rfl fun _ => .node hlows

omit hself in
theorem goes_function {pos : Nat} {form : Tree.FunctionForm} {flags : Flags} {name body : Node}
    {parameters : List Node} (hname : Low A 1 name) (hparameters : Lows A (tall (room d) + 1) parameters)
    (hbody : Low A (tall (room d)) body) :
    Grows A n slack d s (node pos (.function form name parameters body) flags) (tall (room d) + 2) :=
  .node (.append (.cons hname (Nat.succ_pos _) hparameters) (.single hbody (Nat.le_succ _)))

theorem goes_functionRest {form : Tree.FunctionForm} {pos : Nat} {name : Node} (hname : Low A 1 name) :
    Grows A n 8 d s (functionRest form n self pos name) (tall (room d) + 2) :=
  .bind (goes_parameterList hself) fun _ _ hparameters => .bind hself.block fun _ _ hbody =>
    goes_function hname hparameters.2 hbody

theorem goes_functionExpression (hkind : s.current.kind = .functionWord) :
    Grows A n slack d s (functionExpression n self) (tall (room d) + 2) := by
  refine .here (.expectAt hkind rfl fun _ => .kind (.ite (fun hk => ?_) fun _ => ?_))
  · refine .bind (goes_identifierOf ?_) fun name m hname => goes_functionRest hself hname
    intro heq
    simp [heq] at hk
  · exact goes_functionRest hself .absent

theorem goes_primary : Grows A n slack d s (primary n self) (tall (room d) + room d + 2) := by
  refine .kind ?_
  split
  · exact (goes_identifierOf (by simp [*])).weaken (by omega)
  · exact (goes_wordExpression (by simp [*])).weaken (by omega)
  · exact (goes_wordExpression (by simp [*])).weaken (by omega)
  · exact (goes_wordExpression (by simp [*])).weaken (by omega)
  · exact (goes_wordExpression (by simp [*])).weaken (by omega)
  · exact (goes_literal (by simp [*])).weaken (by omega)
  · exact (goes_literal (by simp [*])).weaken (by omega)
  · exact (goes_parenthesized hself ‹_›).weaken (by omega)
  · exact (goes_arrayLiteral hself ‹_›).weaken (by omega)
  · exact (goes_objectLiteral hself ‹_›).weaken (by omega)
  · exact (goes_functionExpression hself ‹_›).weaken (by omega)
  · exact Goes.missingBecause.weaken (by omega)

theorem goes_memberRest {calls : Bool} {pos links base : Nat} {object : Node} (hlinks : links ≤ room d)
    (hbase : tall (room d) ≤ base) (hobject : Low A (base + links) object)
    (hcount : s.tokens.length ≤ count) :
    Goes A n slack (d + links) d s (memberRest calls self pos count links object) fun node _ =>
      Low A (base + room d) node := by
  induction count generalizing s links object with
  | zero => simp [State.tokens] at hcount
  | succ count ih =>
    have hend : ∀ m, Goes A n slack (d + links) d m (do leave links; return object) fun node _ =>
        Low A (base + room d) node :=
      fun m => .leave (.pure (hobject.mono (by omega)))
    refine .kind (.ite (fun _ => hend s) fun hlink => ?_)
    have hlink : isLink calls s.current.kind = true :=
      (Bool.not_eq_false _).mp fun hno => hlink ((Bool.not_eq_true' _).mpr hno)
    have hne : s.current.kind ≠ .endOfFile := by
      intro heq
      simp [heq, isLink] at hlink
    refine .enter (fun hdepth => .ite (by simp) fun _ => ?_) fun m => .ite (fun _ => hend m) (by simp)
    have hpos := tall_pos (room d)
    have hless : tall (room (d + (links + 1))) + 4 * room (d + (links + 1)) + 5 ≤ tall (room d) :=
      tall_room_lt (by omega) hdepth
    -- Each link makes the tree higher by one and leaves room for one less.
    have hnext : ∀ link : Parse Node, Goes A n slack (d + (links + 1)) (d + (links + 1)) s.opened link
        (fun node m => m.tokens.length < s.tokens.length ∧ Low A (base + links + 1) node) →
        Goes A n slack (d + (links + 1)) d s.opened
          (link >>= memberRest calls self pos count (links + 1)) fun node _ =>
            Low A (base + room d) node := by
      refine fun link hgoes => .bind hgoes ?_
      rintro node m ⟨hlength, hlow⟩
      have hroom : links + 1 ≤ room d := by
        unfold room
        omega
      exact ih hroom hlow (by omega)
    have hdot := hnext (do
        advance
        let name ← propertyName
        node pos (.access false object name)) <| .passing hne <|
      .bind goes_propertyName fun name m hname =>
        .node (.cons hobject (Nat.le_refl _) (.single hname (by omega)))
    have hcomputed := hnext (do
        advance
        let key ← self .expression
        discard (expect .closeBracket)
        node pos (.access true object key)) <| .passing hne <|
      .bind hself.expression fun key m hkey => .expect rfl fun _ =>
        .node (.cons hobject (Nat.le_refl _) (.single hkey (by omega)))
    have hcall : s.current.kind = .openParen → Goes A n slack _ _ s.opened _ _ := fun hkind => hnext (do
        let arguments ← argumentList count self
        node pos (.call false object true arguments)) <|
      .bind (goes_argumentList hself hkind hcount) fun arguments m hread =>
        (Goes.before (.node (.cons hobject (Nat.le_refl _) (hread.2.mono (by omega))))).mono
          fun _ _ h => ⟨Nat.lt_of_le_of_lt h.1.length_le hread.1, h.2⟩
    generalize hkind : s.current.kind = kind at hlink hcall
    cases kind with
    | dot => exact hdot
    | openBracket => exact hcomputed
    | openParen => exact hcall rfl
    | _ => simp [isLink] at hlink

theorem goes_memberHead (hnew : s.current.kind = .newWord → 1 ≤ slack) :
    Goes A n slack d d s (memberHead n self) fun node _ =>
      Low A (tall (room d) + 2 * room d + 3) node ∧
        (s.current.kind ≠ .newWord → Low A (tall (room d) + room d + 2) node) := by
  refine .kind (.ite (fun hk => ?_) fun hk => ?_)
  · have hk : s.current.kind = .newWord := by simpa using hk
    exact (Goes.spare (hself .new d s) (hnew hk)).mono fun node m hlow => ⟨hlow, absurd hk⟩
  · exact Goes.mono (goes_primary hself) fun node m hlow => ⟨hlow.mono (by omega), fun _ => hlow⟩

theorem goes_newExpression :
    Grows A n slack d s (newExpression n self) (tall (room d) + 2 * room d + 3) := by
  -- What follows the word, whether it is there or not: no other `new`.
  have hrest : ∀ more m, (A → m.current.kind ≠ .newWord) → (m.current.kind = .newWord → 1 ≤ more) →
      Grows A n more d m (do
        let calleePos ← here
        let head ← memberHead n self
        let callee ← memberRest false self calleePos n 0 head
        if (← kind) == .openParen then
          let arguments ← argumentList n self
          node s.current.start (.call true callee true arguments)
        else
          node s.current.start (.call true callee false [])) (tall (room d) + 2 * room d + 3) := by
    refine fun more m hother hnew => .here (.bind (goes_memberHead hself hnew) ?_)
    rintro head later ⟨-, hlow⟩
    have hlow : Low A (tall (room d) + room d + 2) head := fun ha => hlow (hother ha) ha
    refine .fuel fun hcount => .bind (goes_memberRest hself (Nat.zero_le _) (by omega) hlow hcount) ?_
    refine fun callee later hcallee => .kind (.ite (fun hk => ?_) fun _ => .node (.single hcallee (by omega)))
    refine .fuel fun hcount => .bind (goes_argumentList hself (by simpa using hk) (by omega)) ?_
    exact fun arguments last harguments =>
      .node (.cons hcallee (by omega) (harguments.2.mono (by omega)))
  refine .sound fun hs => .here ?_
  have hexpect : Grows A n slack d s (expect .newWord >>= fun _ => _) _ :=
    .expectThen rfl
      (fun hk _ => hrest 8 _ (fun ha => (hs.apart ha).advance hs.sourced hk) fun _ => by decide)
      fun hne => hrest slack _ (fun _ => by rwa [State.complain_current])
        fun hk => absurd hk (by rwa [State.complain_current])
  exact hexpect

theorem goes_trailing : Grows A n 1 d s (trailing n self) (tall (room d) + 3 * room d + 4) := by
  refine .here (.bind (goes_memberHead hself fun _ => Nat.le_refl 1) ?_)
  rintro head m ⟨hhead, -⟩
  refine .fuel fun hcount => .bind (goes_memberRest hself (Nat.zero_le _) (by omega) hhead hcount) ?_
  refine fun operand later hoperand => .current (.ite (fun hk => .advance ?_ fun _ => ?_) fun _ => ?_)
  · intro heq
    simp [heq] at hk
  · exact .node (.single hoperand (by omega))
  · exact .pure (hoperand.mono (by omega))

theorem goes_unary : Grows A n 1 d s (unary n self) (tall (room d) + 3 * room d + 4) := by
  refine .current (.ite (fun hk => ?_) fun _ => goes_trailing hself)
  have hne : s.opened.current.kind ≠ .endOfFile := by
    intro heq
    rw [State.opened_current] at heq
    simp [heq, isLeadingOperator] at hk
  refine .enter (fun hdepth => .ite (fun _ => .advance hne fun _ => ?_) (absurd rfl ·)) fun m =>
    .ite (by simp) fun _ => Goes.missing.weaken (by omega)
  have hless : tall (room (d + 1)) + 4 * room (d + 1) + 5 ≤ tall (room d) :=
    tall_room_lt (Nat.lt_succ_self _) hdepth
  refine .bind (hself.behind .unary) fun operand m hoperand => .leave (.node (.single hoperand ?_))
  simp only [Goal.bound]
  omega

theorem goes_binaryRest {least pos links base : Nat} {left : Node} (hlinks : links ≤ room d)
    (hbase : tall (room d) ≤ base) (hleft : Low A (base + links) left)
    (hcount : s.tokens.length ≤ count) :
    Goes A n slack (d + links) d s (binaryRest least self pos count links left) fun node _ =>
      Low A (base + room d) node := by
  induction count generalizing s slack links left with
  | zero => simp [State.tokens] at hcount
  | succ count ih =>
    have hend : ∀ m, Goes A n slack (d + links) d m (do leave links; return left) fun node _ =>
        Low A (base + room d) node :=
      fun m => .leave (.pure (hleft.mono (by omega)))
    refine .kind (.ite (fun _ => hend s) fun hgoes => ?_)
    have hne : s.opened.current.kind ≠ .endOfFile := by
      intro heq
      rw [State.opened_current] at heq
      simp [heq, Kind.precedence] at hgoes
    refine .enter (fun hdepth => .ite (by simp) fun _ => .advance hne fun hpassed => ?_) fun m =>
      .ite (fun _ => hend m) (by simp)
    have hless : tall (room (d + links + 1)) + 4 * room (d + links + 1) + 5 ≤ tall (room d) :=
      tall_room_lt (by omega) hdepth
    have hroom : links + 1 ≤ room d := by
      unfold room
      omega
    refine .bind (Goes.before (hself.behind (.binary _))) ?_
    rintro right m ⟨hbefore, hright⟩
    have hlength := hbefore.length_le
    rw [State.opened_tokens] at hpassed
    simp only [Goal.bound] at hright
    refine .bind (Goes.before (.node (.cons hleft (Nat.le_refl _) (.single hright (by omega))))) ?_
    rintro node later ⟨hbefore, hlow⟩
    have hlength := hbefore.length_le
    exact ih hroom hlow (by omega)

theorem goes_binary {least : Nat} :
    Grows A n 2 d s (binary n self least) (tall (room d) + 4 * room d + 4) := by
  refine .here (.bind (hself .unary d s) fun left m hleft => .fuel fun hcount => ?_)
  simp only [Goal.bound] at hleft
  exact Grows.weaken (goes_binaryRest hself (Nat.zero_le _) (by omega) hleft hcount) (by omega)

theorem goes_arrowFunction (harrow : s.startsArrow) :
    Grows A n slack d s (arrowFunction n self) (tall (room d) + 2) := by
  refine .here (.kind ?_)
  let rest := arrowRest self s.current.start
  have hrest : ∀ parameters m, Lows A (tall (room d) + 1) parameters →
      Grows A n 8 d m (rest parameters) (tall (room d) + 2) := fun parameters m hparameters =>
    .expect rfl fun _ => .kind (.ite
      (fun _ => .bind hself.block fun _ _ hbody => goes_function .absent hparameters hbody)
      fun _ => .bind hself.assignment fun _ _ hbody => goes_function .absent hparameters hbody)
  have hsingle : s.current.kind = .identifier → Grows A n slack d s (identifier >>= fun name =>
      node s.current.start (.parameter name .absent) >>= fun single => rest [single])
        (tall (room d) + 2) := by
    have hname : s.current.kind = .identifier → Goes A n slack d d s identifier fun name later =>
        later.tokens.length < s.tokens.length ∧ Low A 1 name :=
      fun hk => .current (.passing (by simp [hk]) (.node .nil))
    refine fun hk => .bindPassed (hname hk) fun name m hname => ?_
    refine .bind (.node (.cons hname (tall_pos (room d)) (.single .absent (Nat.le_refl _)))) ?_
    exact fun single later hsingle => hrest _ _ (.single hsingle (Nat.le_refl _))
  refine .ite (fun hk => hsingle (by simpa using hk)) fun hk => ?_
  have hopen : s.current.kind = .openParen := by
    unfold State.startsArrow at harrow
    split at harrow
    · simp_all
    · assumption
    · cases harrow
  exact .bindPassed ((goes_parameterList hself).mono fun _ _ h => ⟨h.1 hopen, h.2⟩) hrest

theorem goes_assignmentInside :
    Grows A n 3 d s (assignmentInside n self) (tall (room d) + 4 * room d + 5) := by
  refine .check (.ite (fun harrow => (goes_arrowFunction hself harrow).weaken (by omega)) fun _ => .here ?_)
  refine .bind (hself (.binary 1) d s) fun left m hleft => ?_
  simp only [Goal.bound] at hleft
  refine .kind (.ite (fun hoperator => ?_) fun _ => .accept rfl (fun _ _ => ?_) fun _ =>
    .pure (hleft.mono (by omega)))
  · have hne : m.current.kind ≠ .endOfFile := by
      intro heq
      simp [heq, Kind.isAssignment] at hoperator
    have hassign : ∀ later : State, later.current.kind ≠ .endOfFile → Grows A n 3 d later (do
        advance
        let right ← self .assignment
        node s.current.start (.binary left m.current.kind right)) (tall (room d) + 4 * room d + 5) :=
      fun later hne => .advance hne fun _ => .bind hself.assignment fun right last hright =>
        .node (.cons hleft (Nat.le_refl _) (.single hright (by omega)))
    exact .ite (fun _ => hassign m hne) fun _ => .complain (hassign _ (by rwa [State.complain_current]))
  · exact .bind hself.assignment fun whenTrue later htrue => .expect rfl fun _ =>
      .bind hself.assignment fun whenFalse last hfalse => .node (.cons hleft (Nat.le_refl _)
        (.cons htrue (by omega) (.single hfalse (by omega))))

theorem goes_assignment : Grows A n 3 d s (assignment n self) (tall (room d)) :=
  .enter (fun hdepth => .ite (fun _ => .bind (goes_assignmentInside hself) fun _ _ hlow =>
      .leave (.pure (hlow.mono (tall_room_lt (Nat.lt_succ_self _) hdepth)))) (absurd rfl ·))
    fun _ => .ite (by simp) fun _ => Goes.missing.weaken (tall_pos _)

theorem goes_commaRest {pos links base : Nat} {left : Node} (hlinks : links ≤ room d)
    (hbase : tall (room d) ≤ base) (hleft : Low A (base + links) left)
    (hcount : s.tokens.length ≤ count) :
    Goes A n slack (d + links) d s (commaRest self pos count links left) fun node _ =>
      Low A (base + room d) node := by
  induction count generalizing s slack links left with
  | zero => simp [State.tokens] at hcount
  | succ count ih =>
    have hend : ∀ m, Goes A n slack (d + links) d m (do leave links; return left) fun node _ =>
        Low A (base + room d) node :=
      fun m => .leave (.pure (hleft.mono (by omega)))
    refine .kind (.ite (fun _ => hend s) fun hcomma => ?_)
    have hne : s.opened.current.kind ≠ .endOfFile := by
      intro heq
      rw [State.opened_current] at heq
      simp [heq] at hcomma
    refine .enter (fun hdepth => .ite (by simp) fun _ => .advance hne fun hpassed => ?_) fun m =>
      .ite (fun _ => hend m) (by simp)
    have hless : tall (room (d + links + 1)) + 4 * room (d + links + 1) + 5 ≤ tall (room d) :=
      tall_room_lt (by omega) hdepth
    have hroom : links + 1 ≤ room d := by
      unfold room
      omega
    refine .bind (Goes.before hself.assignment) ?_
    rintro right m ⟨hbefore, hright⟩
    have hlength := hbefore.length_le
    rw [State.opened_tokens] at hpassed
    refine .bind (Goes.before (.node (.cons hleft (Nat.le_refl _) (.single hright (by omega))))) ?_
    rintro node later ⟨hbefore, hlow⟩
    have hlength := hbefore.length_le
    exact ih hroom hlow (by omega)

theorem goes_expression : Grows A n 4 d s (expression n self) (tall (room d) + room d) :=
  .here (.bind (hself .assignment d s) fun _ _ hleft => .fuel fun hcount =>
    goes_commaRest hself (Nat.zero_le _) (Nat.le_refl _) hleft hcount)

omit hself in
theorem current_of_before (hb : s.Before m) (hlength : s.tokens.length ≤ m.tokens.length) :
    m.current.kind = s.current.kind ∧ m.current.start = s.current.start := by
  have hwords := hb.words.eq_of_length_le (by simpa using hlength)
  have hstarts := hb.starts.eq_of_length_le (by simpa using hlength)
  simp only [State.tokens, List.map_cons, List.cons.injEq] at hwords hstarts
  exact ⟨congrArg (·.kind) hwords.1, hstarts.1⟩

def Closed (close : Kind) (s : State) : Prop :=
  s.exceeded ∨ s.current.kind = close ∨ s.current.kind = .endOfFile

theorem goes_statementsOnto {close : Kind} {statements : List Node} (hslack : 6 ≤ slack)
    (hcount : s.tokens.length ≤ count) (hstatements : Lows A (tall (room d) - 1) statements) :
    Goes A n slack d d s (statementsOnto close self count statements) fun statements later =>
      Lows A (tall (room d) - 1) statements ∧ Closed close later := by
  induction count generalizing s slack statements with
  | zero => simp [State.tokens] at hcount
  | succ count ih =>
    refine .kind (.check (.ite (fun hend => .pure ⟨hstatements.reverse, ?_⟩) fun hgoes => .here ?_))
    · simpa [Closed, or_assoc] using hend
    have hne : s.current.kind ≠ .endOfFile := by
      intro heq
      simp [heq] at hgoes
    refine .bind (Goes.before (.spare (hself .statement d s) hslack)) ?_
    rintro statement m ⟨hbefore, hlow⟩
    have hlength := hbefore.length_le
    have hstatements : Lows A (tall (room d) - 1)
        (if statement.isPresent then statement :: statements else statements) := by
      split
      · exact .cons hlow (Nat.le_refl _) hstatements
      · exact hstatements
    refine .here (.kind (.ite (fun hsame => .advance ?_ fun hless => ?_) fun hmoved => ?_))
    · rw [Bool.and_eq_true] at hsame
      simpa using hsame.2
    · exact ih (by decide) (by omega) hstatements
    · -- A statement that ends where it began would have passed no token.
      have hpassed : m.tokens.length < s.tokens.length := by
        refine Nat.lt_of_not_le fun hlength => hmoved ?_
        obtain ⟨hkind, hstart⟩ := current_of_before hbefore hlength
        simp [hkind, hstart, hne]
      exact ih hslack (by omega) hstatements

theorem goes_block : Grows A n (Goal.block.need s) d s (block n self) (tall (room d)) := by
  -- What follows the brace, whether it is there or not.
  have hrest : ∀ slack m, 6 ≤ slack → Grows A n slack d m (do
      let statements ← statementList n .closeBrace self
      discard (expect .closeBrace)
      node s.current.start (.block statements)) (tall (room d)) := by
    refine fun slack m hslack => .fuel fun hcount => .bind (goes_statementsOnto hself hslack hcount .nil) ?_
    rintro statements later ⟨hlows, -⟩
    have hpos := tall_pos (room d)
    have hend : ∀ more last, Grows A n more d last (node s.current.start (.block statements))
        (tall (room d)) := fun more last => (Goes.node hlows).weaken (by omega)
    have hexpect : Grows A n slack d later (expect .closeBrace >>= fun _ =>
        node s.current.start (.block statements)) (tall (room d)) :=
      .expectThen rfl (fun _ _ => hend 8 _) fun _ => hend slack _
    exact hexpect
  have hexpect : Grows A n (Goal.block.need s) d s (expect .openBrace >>= fun _ => _) _ :=
    .expectThen rfl (fun _ _ => hrest 8 _ (by decide)) fun hne => hrest _ _ (by simp [Goal.need, hne])
  exact .here hexpect

theorem goes_declaration : Grows A n slack d s (declaration self) (tall (room d) + 1) :=
  .here (.bind goes_bindingName fun _ _ hname => .bind (goes_initializer hself) fun _ _ hvalue =>
    .node (.cons hname (tall_pos _) (.single hvalue (Nat.le_refl _))))

theorem goes_declarationsOnto (hcount : s.tokens.length ≤ count)
    (hnodes : Lows A (tall (room d) + 1) nodes) :
    GrowsAll A n 8 d s (declarationsOnto self count nodes) (tall (room d) + 1) := by
  induction count generalizing s nodes with
  | zero => simp [State.tokens] at hcount
  | succ count ih =>
    refine .bind (Goes.before (goes_declaration hself)) ?_
    rintro node m ⟨hbefore, hlow⟩
    have hlength := hbefore.length_le
    have hnodes := hnodes.cons hlow (Nat.le_refl _)
    exact .accept rfl (fun _ hless => ih (by omega) hnodes) fun _ => .pure hnodes.reverse

theorem goes_variableList (hk : s.current.kind ≠ .endOfFile) :
    Grows A n slack d s (variableList n self) (tall (room d) + 2) :=
  .current (.advance hk fun _ => .fuel fun hcount => .bind (goes_declarationsOnto hself hcount .nil)
    fun _ _ hlows => .node hlows)

omit hself in
theorem goes_endStatement : Goes A n slack d d s endStatement fun _ _ => True := by
  refine .accept rfl (fun _ _ => .pure trivial) fun _ => .check (.ite (fun _ => .pure trivial) fun _ => ?_)
  have hexpect : Goes A n slack d d s (expect .semicolon >>= fun _ => pure ()) fun _ _ => True :=
    .expectThen rfl (fun _ _ => .pure trivial) fun _ => .pure trivial
  exact hexpect

theorem goes_variableStatement (hk : s.current.kind ≠ .endOfFile) :
    Grows A n slack d s (variableStatement n self) (tall (room d) + room d + 3) :=
  .here (.bind (goes_variableList hself hk) fun _ _ hlist => .bind goes_endStatement fun _ _ _ =>
    .node (.single hlist (by omega)))

theorem goes_functionDeclaration (hk : s.current.kind = .functionWord) :
    Grows A n slack d s (functionDeclaration n self) (tall (room d) + room d + 3) :=
  .here (.expectAt hk rfl fun _ => .bind goes_bindingName fun _ _ hname =>
    (goes_functionRest hself hname).weaken (by omega))

theorem goes_condition : Grows A n 8 d s (condition self) (tall (room d) + room d) :=
  .expect rfl fun _ => .bind hself.expression fun _ _ htest => .expect rfl fun _ => .pure htest

theorem goes_optionalExpression {close : Kind} :
    Grows A n 8 d s (optionalExpression self close) (tall (room d) + room d) :=
  .kind (.ite (fun _ => .pure .absent) fun _ => hself.expression)

theorem goes_ifStatement (hk : s.current.kind = .ifWord) :
    Grows A n slack d s (ifStatement self) (tall (room d) + room d + 3) := by
  refine .here (.expectAt hk rfl fun _ => .bind (goes_condition hself) fun test m htest => ?_)
  refine .bind hself.statement fun thenBranch later hthen => ?_
  have hbranch : ∀ elseBranch last, Low A (tall (room d)) elseBranch → Grows A n 8 d last
      (node s.current.start (.branch test thenBranch elseBranch)) (tall (room d) + room d + 3) :=
    fun elseBranch last helse =>
      .node (.cons htest (by omega) (.cons hthen (by omega) (.single helse (by omega))))
  exact .accept rfl (fun _ _ => .bind hself.statement hbranch) fun _ => hbranch .absent _ .absent

theorem goes_forStatement (hk : s.current.kind = .forWord) :
    Grows A n slack d s (forStatement n self) (tall (room d) + room d + 3) := by
  refine .here (.expectAt hk rfl fun _ => .expect rfl fun m => .kind ?_)
  have hrest : ∀ start later, Low A (tall (room d) + room d + 2) start →
      Grows A n 8 d later (counterRest self s.current.start start) (tall (room d) + room d + 3) :=
    fun start later hstart => .expect rfl fun _ => .bind (goes_optionalExpression hself)
      fun test _ htest => .expect rfl fun _ => .bind (goes_optionalExpression hself)
        fun update _ hupdate => .expect rfl fun _ => .bind hself.statement fun body _ hbody =>
          .node (.cons hstart (Nat.le_refl _)
            (.cons htest (by omega) (.cons hupdate (by omega) (.single hbody (by omega)))))
  let began := forRest self s.current.start
  have hbegan : ∀ start later, Low A (tall (room d) + room d + 2) start →
      Grows A n 8 d later (began start) (tall (room d) + room d + 3) := fun start later hstart =>
    .current (.ite (fun _ => .complain (hrest start _ hstart)) fun _ => hrest start later hstart)
  have hlist : m.current.kind ≠ .endOfFile → Grows A n 8 d m (variableList n self >>= began) _ :=
    fun hk => .bind (goes_variableList hself hk) fun start later h => hbegan start later (h.mono (by omega))
  have hexpression : Grows A n 8 d m (optionalExpression self .semicolon >>= began) _ :=
    .bind (goes_optionalExpression hself) fun start later h => hbegan start later (h.mono (by omega))
  generalize hk : m.current.kind = kind at hlist ⊢
  cases kind with
  | varWord | letWord | constWord => exact hlist nofun
  | _ => exact hexpression

theorem goes_whileStatement (hk : s.current.kind = .whileWord) :
    Grows A n slack d s (whileStatement self) (tall (room d) + room d + 3) :=
  .here (.expectAt hk rfl fun _ => .bind (goes_condition hself) fun _ _ htest =>
    .bind hself.statement fun _ _ hbody => .node (.cons .absent (Nat.le_refl _)
      (.cons htest (by omega) (.cons .absent (Nat.le_refl _) (.single hbody (by omega))))))

theorem goes_doStatement (hk : s.current.kind = .doWord) :
    Grows A n slack d s (doStatement self) (tall (room d) + room d + 3) := by
  refine .here (.expectAt hk rfl fun _ => .bind hself.statement fun body m hbody => ?_)
  refine .expect rfl fun m => .bind (goes_condition hself) fun test later htest => ?_
  have hend : ∀ last, Grows A n 8 d last (node s.current.start (.loop .doWhile .absent test .absent body))
      (tall (room d) + room d + 3) :=
    fun last => .node (.cons .absent (Nat.le_refl _)
      (.cons htest (by omega) (.cons .absent (Nat.le_refl _) (.single hbody (by omega)))))
  have haccept : Grows A n 8 d later (accept .semicolon >>= fun _ => _) _ :=
    .accept rfl (fun _ _ => hend _) fun _ => hend _
  exact haccept

theorem goes_returnStatement (hk : s.current.kind ≠ .endOfFile) :
    Grows A n slack d s (returnStatement self) (tall (room d) + room d + 3) := by
  refine .here (.advance hk fun _ => .check ?_)
  have hend : ∀ value later, Low A (tall (room d) + room d) value → Grows A n 8 d later
      (do endStatement; node s.current.start (.exit false value)) (tall (room d) + room d + 3) :=
    fun value later hvalue => .bind goes_endStatement fun _ _ _ => .node (.single hvalue (by omega))
  exact .ite (fun _ => hend .absent _ .absent) fun _ => .bind hself.expression hend

theorem goes_throwStatement (hk : s.current.kind ≠ .endOfFile) :
    Grows A n slack d s (throwStatement self) (tall (room d) + room d + 3) := by
  refine .here (.advance hk fun _ => .current ?_)
  have hrest : ∀ later, Grows A n 8 d later (do
      let value ← self .expression
      endStatement
      node s.current.start (.exit true value)) (tall (room d) + room d + 3) :=
    fun later => .bind hself.expression fun value _ hvalue => .bind goes_endStatement fun _ _ _ =>
      .node (.single hvalue (by omega))
  exact .ite (fun _ => .complain (hrest _)) fun _ => hrest _

omit hself in
theorem goes_jump {kind : Tree.Kind} (hk : s.current.kind ≠ .endOfFile) :
    Grows A n slack d s (jump kind) 1 := by
  refine .here (.advance hk fun _ => .current ?_)
  have hend : ∀ later, Grows A n 8 d later (do endStatement; node s.current.start (.bare kind)) 1 :=
    fun later => .bind goes_endStatement fun _ _ _ => .node .nil
  refine .ite (fun hlabel => .complain (.advance ?_ fun _ => hend _)) fun _ => hend _
  rw [State.complain_current]
  intro heq
  simp [heq] at hlabel

omit hself in
theorem goes_emptyStatement (hk : s.current.kind ≠ .endOfFile) : Grows A n slack d s emptyStatement 1 :=
  .here (.advance hk fun _ => .node .nil)

theorem goes_expressionStatement :
    Grows A n 5 d s (expressionStatement self) (tall (room d) + room d + 3) :=
  .here (.bind (hself .expression d s) fun _ _ (hlow : Low A (tall (room d) + room d) _) =>
    .bind goes_endStatement fun _ _ _ => .node (.single hlow (by omega)))

omit hself in
theorem goes_noStatement : Grows A n slack d s statementInside.noStatement b := .complain (.pure .absent)

theorem goes_statementInside :
    Grows A n 5 d s (statementInside n self) (tall (room d) + room d + 3) := by
  have hvariables : s.current.kind ≠ .endOfFile → Grows A n 5 d s (variableStatement n self) _ :=
    fun hk => goes_variableStatement hself hk
  have hexpression : Grows A n 5 d s (if s.startsExpression then expressionStatement self
      else statementInside.noStatement) _ :=
    .ite (fun _ => goes_expressionStatement hself) fun _ => goes_noStatement
  refine .kind ?_
  generalize hk : s.current.kind = kind at hvariables
  have hne : kind ≠ .endOfFile → s.current.kind ≠ .endOfFile := fun hkind => hk ▸ hkind
  cases kind with
  | openBrace =>
    have hneed : Goal.block.need s + 1 ≤ 5 := by simp [Goal.need, Goal.rank, hk]
    exact Grows.weaken (Goes.spare (hself .block d s) hneed) (by simp only [Goal.bound]; omega)
  | varWord | constWord => exact hvariables (by decide)
  | letWord => exact .check (.ite (fun _ => hvariables (by decide)) fun _ => goes_noStatement)
  | functionWord => exact goes_functionDeclaration hself hk
  | ifWord => exact goes_ifStatement hself hk
  | forWord => exact goes_forStatement hself hk
  | whileWord => exact goes_whileStatement hself hk
  | doWord => exact goes_doStatement hself hk
  | returnWord => exact goes_returnStatement hself (hne (by decide))
  | throwWord => exact goes_throwStatement hself (hne (by decide))
  | breakWord | continueWord => exact (goes_jump (hne (by decide))).weaken (by omega)
  | semicolon => exact (goes_emptyStatement (hne (by decide))).weaken (by omega)
  | _ => exact .check hexpression

theorem goes_statement : Grows A n 5 d s (statement n self) (tall (room d) - 1) := by
  refine .enter (fun hdepth => .ite (fun _ => ?_) (absurd rfl ·)) fun m =>
    .ite (by simp) fun _ => .pure .absent
  have hless : tall (room (d + 1)) + 4 * room (d + 1) + 5 ≤ tall (room d) :=
    tall_room_lt (Nat.lt_succ_self _) hdepth
  exact .bind (goes_statementInside hself) fun node m hlow => .leave (.pure (hlow.mono (by omega)))

end

theorem productions_proceed (A : Prop) (n : Nat) : Proceeds A n (productions n) := by
  induction n with
  | zero =>
    intro goal d s _ _ hfuel
    omega
  | succ n ih =>
    intro goal d s hs hd hfuel
    -- One step of the fuel is spent on the production itself.
    have hfuel : 8 * s.tokens.length + goal.need s ≤ n := Nat.le_of_succ_le_succ hfuel
    cases goal with
    | block => exact goes_block ih hs hd hfuel
    | statement => exact goes_statement ih hs hd (by simpa [Goal.need, Goal.rank] using hfuel)
    | expression => exact goes_expression ih hs hd (by simpa [Goal.need, Goal.rank] using hfuel)
    | assignment => exact goes_assignment ih hs hd (by simpa [Goal.need, Goal.rank] using hfuel)
    | binary least => exact goes_binary ih hs hd (by simpa [Goal.need, Goal.rank] using hfuel)
    | unary => exact goes_unary ih hs hd (by simpa [Goal.need, Goal.rank] using hfuel)
    | new =>
      have hgoes : Grows A n 0 d s (newExpression n (productions n)) _ := goes_newExpression ih
      exact hgoes hs hd (by simpa [Goal.need, Goal.rank] using hfuel)

end Grammar

end ArrayLoops
