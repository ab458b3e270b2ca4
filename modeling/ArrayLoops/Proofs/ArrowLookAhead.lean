import ArrayLoops.Proofs.Reached
import Mathlib.Logic.Function.Iterate

/-!
# Looking ahead for an arrow

Whether an arrow function begins is told by the tokens ahead. A parser that has no list of them
advances to the parenthesis in question, counts on the way, and goes back to where it was. Such a
search comes to the same answer and leaves the state as it was.
-/

namespace ArrayLoops.Grammar

/-- What is kept of a state to go back to it. Complaints are kept by their number. -/
structure Mark where
  current : Token
  ahead : List Token
  prevEnd : Nat
  complaints : Nat
  lexical : Nat

namespace State

def mark (s : State) : Mark :=
  ⟨s.current, s.ahead, s.prevEnd, s.complaints.length, s.lexical.length⟩

def back (s : State) (mark : Mark) : State :=
  { s with
    current := mark.current
    ahead := mark.ahead
    prevEnd := mark.prevEnd
    complaints := s.complaints.drop (s.complaints.length - mark.complaints)
    lexical := s.lexical.drop (s.lexical.length - mark.lexical) }

theorem back_iterate_advance (s : State) (count : Nat) : (advance^[count] s).back s.mark = s := by
  have hsame : ∃ current ahead prevEnd lexical,
      advance^[count] s = { s with current, ahead, prevEnd, lexical := lexical ++ s.lexical } := by
    induction count with
    | zero => exact ⟨_, _, _, [], rfl⟩
    | succ count ih =>
      obtain ⟨current, ahead, prevEnd, lexical, h⟩ := ih
      rw [Function.iterate_succ_apply', h, advance]
      split
      · exact ⟨_, _, _, lexical, rfl⟩
      · exact ⟨_, _, _, _ ++ lexical, by rw [List.append_assoc]⟩
  obtain ⟨current, ahead, prevEnd, lexical, h⟩ := hsame
  simp [h, back, mark]

end State

/-- A search for an arrow: the state it has come to, how many parentheses are open, which might be
less than none, and the answer. -/
structure Search where
  state : State
  depth : Int
  answer : Option Bool

namespace Search

def atArrow (s : State) : Bool := s.current.kind == .arrow && !s.current.lineBreakBefore

def start (s : State) : Search :=
  match s.current.kind with
  | .identifier => ⟨s.advance, 0, some (atArrow s.advance)⟩
  | .openParen => ⟨s, 0, none⟩
  | _ => ⟨s, 0, some false⟩

def turn (search : Search) : Search :=
  match search with
  | ⟨s, depth, none⟩ =>
    match s.current.kind with
    | .openParen => ⟨s.advance, depth + 1, none⟩
    | .closeParen =>
      ⟨s.advance, depth - 1, if depth - 1 = 0 then some (atArrow s.advance) else none⟩
    | .endOfFile => ⟨s, depth, some false⟩
    | _ => ⟨s.advance, depth, none⟩
  | search => search

/-- A search has only advanced. Where it goes on, a parenthesis is open or about to be. -/
structure Sound (s : State) (search : Search) : Prop where
  advanced : ∃ count, search.state = State.advance^[count] s
  depth : 0 ≤ search.depth
  opened : search.answer = none → search.depth = 0 → search.state.current.kind = .openParen

variable {s : State} {search : Search}

theorem sound_start (s : State) : Sound s (start s) := by
  unfold start
  split
  · exact ⟨⟨1, rfl⟩, Int.le_refl 0, fun h => by cases h⟩
  · exact ⟨⟨0, rfl⟩, Int.le_refl 0, fun _ _ => ‹_›⟩
  · exact ⟨⟨0, rfl⟩, Int.le_refl 0, fun h => by cases h⟩

theorem Sound.turn (h : Sound s search) : Sound s search.turn := by
  obtain ⟨m, depth, answer⟩ := search
  obtain ⟨⟨count, hcount⟩, hdepth, hopened⟩ := h
  simp only at hcount hdepth hopened
  have hadvanced : ∃ count, m.advance = State.advance^[count] s :=
    ⟨count + 1, by rw [Function.iterate_succ_apply', hcount]⟩
  cases answer with
  | some answer => exact ⟨⟨count, hcount⟩, hdepth, hopened⟩
  | none =>
    simp only [Search.turn]
    split
    · exact ⟨hadvanced, by simp only; omega, by simp only; omega⟩
    · -- A closing parenthesis is not the one that the search began with, so one is open.
      rename_i hclose
      have hpositive : depth ≠ 0 := by simpa [hclose] using hopened
      exact ⟨hadvanced, by simp only; omega, fun hnone hzero => absurd hzero (by simpa using hnone)⟩
    · exact ⟨⟨count, hcount⟩, hdepth, fun h => by cases h⟩
    · rename_i hopen _ _
      exact ⟨hadvanced, hdepth, fun _ hzero => absurd (hopened rfl hzero) hopen⟩

theorem sound_iterate (s : State) (turns : Nat) : Sound s (turn^[turns] (start s)) := by
  induction turns with
  | zero => exact sound_start s
  | succ turns ih =>
    rw [Function.iterate_succ_apply']
    exact ih.turn

end Search

/-- The end of the file is the last of the tokens, and none before it is. -/
def Ends : List Token → Prop
  | [] => False
  | [token] => token.kind = .endOfFile
  | token :: rest => token.kind ≠ .endOfFile ∧ Ends rest

theorem Ends.cons_iff {token : Token} {rest : List Token} (h : rest ≠ []) :
    Ends (token :: rest) ↔ token.kind ≠ .endOfFile ∧ Ends rest := by
  cases rest with
  | nil => exact absurd rfl h
  | cons next rest => rfl

theorem ends_listFrom {count pos : Nat} {cs : List Char} (h : cs.length < count) :
    Ends (Token.listFrom count pos cs) := by
  induction count generalizing pos cs with
  | zero => cases h
  | succ count ih =>
    rw [Token.listFrom_succ]
    split
    · rename_i hend
      simpa [Ends] using hend
    · rename_i hend
      have hkind : (Token.next pos cs).1.kind ≠ .endOfFile := by simpa using hend
      have hrest := @ih (Token.next pos cs).1.fin (Token.next pos cs).2
        (by have := Token.next_length hkind; omega)
      refine (Ends.cons_iff ?_).mpr ⟨hkind, hrest⟩
      rintro hnil
      simp [hnil, Ends] at hrest

variable {s m : State} {opened : Nat}

theorem ends_advance (h : Ends m.tokens) : Ends m.advance.tokens := by
  unfold State.advance
  split
  · rename_i hahead
    rw [State.tokens, hahead] at h ⊢
    exact h
  · rename_i token ahead hahead
    rw [State.tokens, hahead] at h
    exact h.2

theorem Reached.ends (h : Reached s opened m) (hs : Ends s.tokens) : Ends m.tokens := by
  have hcomplain : ∀ (m : State) (fault : Fault), (m.complain fault).tokens = m.tokens := by
    intro m fault
    simp only [State.complain]
    split <;> rfl
  induction h with
  | refl => exact hs
  | advance _ ih => exact ends_advance ih
  | complain _ _ ih => rwa [hcomplain]
  | @giveUp _ m _ _ ih => exact (hcomplain m .nestingTooDeep).symm ▸ ih
  | enter _ _ ih | leave _ ih | withArena _ _ ih | exhaust _ ih => exact ih

theorem ends_start (text : String) : Ends (State.start (Token.list text)).tokens := by
  have h : Ends (Token.list text) := ends_listFrom (Nat.lt_succ_self _)
  cases htokens : Token.list text with
  | nil => simp [htokens, Ends] at h
  | cons token ahead => rwa [htokens] at h

theorem tokens_advance (h : m.ahead ≠ []) : m.advance.tokens = m.ahead := by
  unfold State.advance
  split
  · exact absurd ‹_› h
  · exact ‹m.ahead = _›.symm

theorem arrowFirst_ahead (h : m.ahead ≠ []) :
    State.arrowFirst m.ahead = Search.atArrow m.advance := by
  rw [← tokens_advance h]
  rfl

namespace Search

theorem iterate_turn_answered (depth : Int) (answer : Bool) (turns : Nat) :
    turn^[turns] ⟨m, depth, some answer⟩ = ⟨m, depth, some answer⟩ :=
  Function.iterate_fixed rfl turns

/-- Where parentheses are open, the search comes to the answer before the tokens are at an end. -/
theorem answer_iterate (h : Ends m.tokens) {depth : Nat} (hdepth : 0 < depth) :
    (turn^[m.tokens.length] ⟨m, depth, none⟩).answer = some (State.arrowBehind depth m.tokens) := by
  -- One turn takes one token, and the count is the natural number it stands for.
  induction hlength : m.ahead.length generalizing m depth with
  | zero =>
    have hahead := List.eq_nil_of_length_eq_zero hlength
    rw [State.tokens, hahead] at h ⊢
    simp only [Ends] at h
    simp [turn, State.arrowBehind, h]
  | succ count ih =>
    have hahead : m.ahead ≠ [] := by rintro hnil; simp [hnil] at hlength
    have hnext : ∀ {depth : Nat}, 0 < depth →
        (turn^[m.ahead.length] ⟨m.advance, depth, none⟩).answer =
          some (State.arrowBehind depth m.ahead) := by
      intro depth hdepth
      have htokens := tokens_advance hahead
      rw [← htokens]
      refine ih (ends_advance h) hdepth ?_
      rw [← htokens] at hlength
      simpa [State.tokens] using hlength
    rw [State.tokens, List.length_cons, Function.iterate_succ_apply, State.arrowBehind]
    split
    · rename_i hkind
      simp only [turn, hkind]
      exact_mod_cast hnext (Nat.succ_pos depth)
    · rename_i hkind
      simp only [turn, hkind]
      split
      · have hlast : depth = 1 := by omega
        simp [hlast, iterate_turn_answered, arrowFirst_ahead hahead]
      · rw [if_neg (by omega), show (depth : Int) - 1 = (depth - 1 : Nat) by omega]
        exact hnext (by omega)
    · exact absurd ‹_› ((Ends.cons_iff hahead).mp h).1
    · have hturn : turn ⟨m, depth, none⟩ = ⟨m.advance, depth, none⟩ := by
        simp [turn]
      rw [hturn]
      exact hnext hdepth

theorem answer_start (h : Ends s.tokens) :
    ∃ turns, (turn^[turns] (start s)).answer = some s.startsArrow := by
  have hahead : s.current.kind ≠ .endOfFile → s.ahead ≠ [] := by
    rintro hkind hnil
    simp [State.tokens, hnil, Ends, hkind] at h
  by_cases hname : s.current.kind = .identifier
  · refine ⟨0, ?_⟩
    simp [start, State.startsArrow, hname, arrowFirst_ahead (hahead (by simp [hname]))]
  by_cases hparen : s.current.kind = .openParen
  · have hne := hahead (by simp [hparen])
    refine ⟨s.advance.tokens.length + 1, ?_⟩
    simp only [Function.iterate_succ_apply, start, turn, State.startsArrow, hparen]
    rw [← tokens_advance hne]
    exact answer_iterate (ends_advance h) Nat.one_pos
  · exact ⟨0, by simp [start, State.startsArrow]⟩

end Search

def openings (tokens : List Token) : Nat := tokens.countP (·.kind == .openParen)

def closings (tokens : List Token) : Nat := tokens.countP (·.kind == .closeParen)

/-- The parentheses among the tokens match, but for as many closing ones more as `outer` says. -/
structure Matched (outer : Nat) (tokens : List Token) : Prop where
  balance : closings tokens = openings tokens + outer
  within : ∀ part, part <+: tokens → closings part ≤ openings part + outer

variable {tokens inner : List Token} {token : Token} {outer : Nat}

theorem matched_nil : Matched outer [] ↔ outer = 0 := by
  refine ⟨fun h => (Nat.zero_add outer ▸ h.balance).symm, ?_⟩
  rintro rfl
  exact ⟨rfl, fun part hpart => by rw [List.prefix_nil.mp hpart]; exact Nat.le_refl 0⟩

theorem matched_cons : Matched outer (token :: inner) ↔
    closings [token] ≤ openings [token] + outer ∧
      Matched (openings [token] + outer - closings [token]) inner := by
  have hopenings : ∀ rest, openings (token :: rest) = openings [token] + openings rest :=
    fun rest => @List.countP_append _ _ [token] rest
  have hclosings : ∀ rest, closings (token :: rest) = closings [token] + closings rest :=
    fun rest => @List.countP_append _ _ [token] rest
  constructor
  · rintro ⟨hbalance, hwithin⟩
    have hfirst := hwithin [token] (List.prefix_append [token] inner)
    rw [hopenings, hclosings] at hbalance
    refine ⟨hfirst, by omega, fun part hpart => ?_⟩
    have hpart := hwithin (token :: part) (List.cons_prefix_cons.mpr ⟨rfl, hpart⟩)
    rw [hopenings, hclosings] at hpart
    omega
  · rintro ⟨hfirst, hbalance, hwithin⟩
    refine ⟨by rw [hopenings, hclosings]; omega, fun part hpart => ?_⟩
    obtain rfl | ⟨part, rfl, hrest⟩ := List.prefix_cons_iff.mp hpart
    · exact Nat.zero_le _
    · have := hwithin part hrest
      rw [hopenings, hclosings]
      omega

theorem arrowFirst_iff : State.arrowFirst tokens ↔ ∃ arrow rest, tokens = arrow :: rest ∧
    arrow.kind = .arrow ∧ arrow.lineBreakBefore = false := by
  cases tokens <;> simp [State.arrowFirst]

/-- An arrow follows the closing parenthesis that matches the last of those outside. -/
def ArrowBehind (outer : Nat) (tokens : List Token) : Prop :=
  ∃ inner close rest, tokens = inner ++ close :: rest ∧ close.kind = .closeParen ∧
    Matched outer inner ∧ State.arrowFirst rest

theorem arrowBehind_cons : ArrowBehind outer (token :: tokens) ↔
    (token.kind = .closeParen ∧ outer = 0 ∧ State.arrowFirst tokens) ∨
      closings [token] ≤ openings [token] + outer ∧
        ArrowBehind (openings [token] + outer - closings [token]) tokens := by
  constructor
  · rintro ⟨_ | ⟨first, inner⟩, close, rest, heq, hclose, hmatched, harrow⟩
    · obtain ⟨rfl, rfl⟩ := List.cons.inj heq
      exact .inl ⟨hclose, matched_nil.mp hmatched, harrow⟩
    · obtain ⟨rfl, rfl⟩ := List.cons.inj heq
      obtain ⟨hfirst, hmatched⟩ := matched_cons.mp hmatched
      exact .inr ⟨hfirst, inner, close, rest, rfl, hclose, hmatched, harrow⟩
  · rintro (⟨hclose, rfl, harrow⟩ | ⟨hfirst, inner, close, rest, rfl, hclose, hmatched, harrow⟩)
    · exact ⟨[], token, tokens, rfl, hclose, matched_nil.mpr rfl, harrow⟩
    · exact ⟨token :: inner, close, rest, rfl, hclose, matched_cons.mpr ⟨hfirst, hmatched⟩, harrow⟩

theorem arrowBehind_iff (h : Ends tokens) :
    State.arrowBehind (outer + 1) tokens ↔ ArrowBehind outer tokens := by
  induction tokens generalizing outer with
  | nil => cases h
  | cons token tokens ih =>
    rw [arrowBehind_cons, State.arrowBehind]
    -- Only the last token is the end of the file, and no parenthesis is behind it.
    by_cases htokens : tokens = []
    · subst htokens
      have hend : token.kind = .endOfFile := h
      simp [hend, ArrowBehind]
    obtain ⟨hend, h⟩ := (Ends.cons_iff htokens).mp h
    split
    · rename_i hkind
      simp [openings, closings, hkind, ih h, Nat.add_comm 1]
    · rename_i hkind
      cases outer with
      | zero => simp [openings, closings, hkind]
      | succ outer => simp [openings, closings, hkind, ih h]
    · exact absurd ‹_› hend
    · rename_i hopen hclose _
      have hnone : openings [token] = 0 ∧ closings [token] = 0 := by
        simpa [openings, closings] using ⟨hopen, hclose⟩
      simp [hnone, ih h, show token.kind ≠ .closeParen from hclose]

/-- In every state of a parse, a search for the arrow comes to an end. It never counts below zero, and
wherever it stops, going back leads to the very state that it started from. The answer is the one
that the parse uses: there is one if and only if an arrow follows the name, or the parenthesis that
matches the first, on the same line. -/
theorem arrow_lookahead_exact (text : String) (hs : Reached (.start (Token.list text)) opened s) :
    (∃ turns, (Search.turn^[turns] (.start s)).answer = some s.startsArrow) ∧
      (∀ turns, 0 ≤ (Search.turn^[turns] (.start s)).depth ∧
        (Search.turn^[turns] (.start s)).state.back s.mark = s) ∧
      check State.startsArrow s = (s.startsArrow, s) ∧
      (s.current.kind = .identifier → (s.startsArrow ↔ ∃ arrow rest, s.ahead = arrow :: rest ∧
        arrow.kind = .arrow ∧ arrow.lineBreakBefore = false)) ∧
      (s.current.kind = .openParen → (s.startsArrow ↔ ∃ inner close arrow rest,
        s.ahead = inner ++ close :: arrow :: rest ∧ Matched 0 inner ∧ close.kind = .closeParen ∧
          arrow.kind = .arrow ∧ arrow.lineBreakBefore = false)) := by
  have hends : Ends s.tokens := hs.ends (ends_start text)
  refine ⟨Search.answer_start hends, fun turns => ?_, rfl, fun hkind => ?_, fun hkind => ?_⟩
  · obtain ⟨⟨count, hcount⟩, hdepth, -⟩ := Search.sound_iterate s turns
    exact ⟨hdepth, by rw [hcount, State.back_iterate_advance]⟩
  · rw [State.startsArrow, hkind]
    exact arrowFirst_iff
  · have hahead : Ends s.ahead := by
      refine ((Ends.cons_iff ?_).mp hends).2
      rintro hnil
      simp [State.tokens, hnil, Ends, hkind] at hends
    rw [State.startsArrow, hkind]
    simp only [@arrowBehind_iff _ 0 hahead, ArrowBehind, arrowFirst_iff]
    constructor
    · rintro ⟨inner, close, _, hsplit, hclose, hinner, arrow, rest, rfl, harrow⟩
      exact ⟨inner, close, arrow, rest, hsplit, hinner, hclose, harrow⟩
    · rintro ⟨inner, close, arrow, rest, hsplit, hinner, hclose, harrow⟩
      exact ⟨inner, close, _, hsplit, hclose, hinner, arrow, rest, rfl, harrow⟩

theorem arrow_lookahead_exact_group :
    ∃ turns, (Search.turn^[turns] (.start (.start (Token.list "(a, (b)) => b")))).answer =
      some true := by
  obtain ⟨turns, hanswer⟩ := (arrow_lookahead_exact "(a, (b)) => b" .refl).1
  exact ⟨turns, hanswer.trans (congrArg some (by decide))⟩

end ArrayLoops.Grammar
