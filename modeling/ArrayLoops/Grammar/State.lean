import ArrayLoops.Token.Lexer
import ArrayLoops.Tree.Arena

/-!
# The state of a parse

A parse reads a list of tokens that ends with the end-of-file token, makes nodes and collects
complaints. It never fails: what is missing is complained about and a placeholder takes its place.
Nesting is counted, and at the limit the parse gives up: from then on nothing is complained about.

No step of a parse takes a complaint back or a token that was passed, and a step carries the proof of
this. So if nothing was complained about in the end, nothing was complained about on the way.
-/

namespace ArrayLoops.Grammar

open ArrayLoops.Tree (Arena Flags Node Shape)

def maxDepth : Nat := 500

structure State where
  current : Token
  /-- The tokens behind the current one. -/
  ahead : List Token
  /-- Where the token before the current one ends. -/
  prevEnd : Nat := 0
  depth : Nat := 0
  /-- The greatest number of constructs that were open at a time. -/
  deepest : Nat := 0
  /-- Whether more constructs were closed than were open. -/
  overdrawn : Bool := false
  /-- Whether the limit on nesting was met. -/
  exceeded : Bool := false
  /-- Whether a bound was met that only serves to show that the parse ends. -/
  exhausted : Bool := false
  arena : Arena := .empty
  /-- Complaints about the grammar, last one first. -/
  complaints : List Complaint := []
  /-- Complaints about the tokens that were made current, last one first. -/
  lexical : List Complaint := []

namespace State

def tokens (s : State) : List Token := s.current :: s.ahead

def start : List Token → State
  | [] => { current := ⟨.endOfFile, 0, 0, "", "", false, []⟩, ahead := [] }
  | token :: ahead => { current := token, ahead, lexical := token.complaints.reverse }

/-- Makes the next token current. The end of the file is never passed. -/
def advance (s : State) : State :=
  match s.ahead with
  | [] =>
    { s with
      current := { s.current with lineBreakBefore := false, complaints := [] }
      prevEnd := s.current.fin }
  | token :: ahead =>
    { s with
      current := token
      ahead
      prevEnd := s.current.fin
      lexical := token.complaints.reverse ++ s.lexical }

/-- Complains about the current token, unless the parse has given up or the last complaint is
about the same place. -/
def complain (s : State) (fault : Fault) : State :=
  let start := s.current.start
  if s.exceeded || s.complaints.head?.any (·.start == start) then s
  else
    { s with complaints := ⟨start, s.current.fin - start, fault⟩ :: s.complaints }

/-- Whether a statement may end before the current token without a semicolon. -/
def canEndStatement (s : State) : Bool :=
  s.current.kind == .semicolon || s.current.kind == .closeBrace ||
    s.current.kind == .endOfFile || s.current.lineBreakBefore

def startsLet (s : State) : Bool := s.ahead.head?.any (·.kind == .identifier)

def arrowFirst (tokens : List Token) : Bool :=
  tokens.head?.any fun token => token.kind == .arrow && !token.lineBreakBefore

/-- Whether an arrow stands behind the parenthesis that closes the last of `depth` open ones. -/
def arrowBehind : Nat → List Token → Bool
  | _, [] => false
  | depth, token :: rest =>
    match token.kind with
    | .openParen => arrowBehind (depth + 1) rest
    | .closeParen => if depth ≤ 1 then arrowFirst rest else arrowBehind (depth - 1) rest
    | .endOfFile => false
    | _ => arrowBehind depth rest

/-- Whether an arrow function begins with the current token: a name and an arrow, or parentheses
that match and an arrow. -/
def startsArrow (s : State) : Bool :=
  match s.current.kind with
  | .identifier => arrowFirst s.ahead
  | .openParen => arrowBehind 1 s.ahead
  | _ => false

def startsExpression (s : State) : Bool :=
  match s.current.kind with
  | .identifier | .number | .string | .thisWord | .trueWord | .falseWord | .nullWord
  | .functionWord | .newWord | .typeofWord | .voidWord | .openParen | .openBracket | .openBrace
  | .not | .bitNot | .plus | .minus | .increment | .decrement => true
  | _ => false

def atName (s : State) : Bool := s.current.kind == .identifier || s.current.kind.isReservedWord

/-- Makes a node that reaches from `pos` to the end of the last token passed. -/
def node (s : State) (pos : Nat) (shape : Shape Node) (flags : Flags := {}) : Node × State :=
  let (node, arena) := s.arena.add pos s.prevEnd flags shape
  (node, { s with arena })

/-- Makes the placeholder for a missing name or expression, which takes no room. -/
def missing (s : State) : Node × State :=
  let pos := s.current.start
  let (node, arena) := s.arena.add pos pos {} (.identifier "")
  (node, { s with arena })

/-- Opens a construct. At the limit this complains, gives up and answers `false`. -/
def enter (s : State) : Bool × State :=
  if maxDepth ≤ s.depth then (false, { s.complain .nestingTooDeep with exceeded := true })
  else (true, { s with depth := s.depth + 1, deepest := max s.deepest (s.depth + 1) })

def leave (s : State) (count : Nat) : State :=
  { s with depth := s.depth - count, overdrawn := s.overdrawn || s.depth < count }

/-- All words that can become current without a complaint are as `P` says. -/
def Every (P : Token.Word → Prop) (s : State) : Prop :=
  s.lexical = [] → P s.current.word ∧ ∀ token ∈ s.ahead, token.complaints = [] → P token.word

def Quiet (s : State) : Prop := s.lexical = [] ∧ ∀ token ∈ s.ahead, token.complaints = []

/-- The second state can come after the first in a parse. -/
structure Before (s later : State) : Prop where
  complaints : s.complaints <:+ later.complaints
  lexical : s.lexical <:+ later.lexical
  words : later.tokens.map Token.word <:+ s.tokens.map Token.word
  starts : later.tokens.map Token.start <:+ s.tokens.map Token.start
  every : ∀ P, s.Every P → later.Every P
  quiet : s.Quiet → later.Quiet
  exceeded : s.exceeded → later.exceeded
  /-- The limit on nesting is not met without a complaint. -/
  reason : (s.exceeded → s.complaints ≠ []) → later.exceeded → later.complaints ≠ []
  /-- Nothing is complained about once the parse has given up. -/
  silent : s.exceeded → later.complaints = s.complaints

namespace Before

variable {s later last : State}

theorem refl (s : State) : s.Before s :=
  ⟨List.suffix_rfl, List.suffix_rfl, List.suffix_rfl, List.suffix_rfl, fun _ => id, id, id, id,
    fun _ => rfl⟩

theorem trans (h : s.Before later) (hl : later.Before last) : s.Before last where
  complaints := h.complaints.trans hl.complaints
  lexical := h.lexical.trans hl.lexical
  words := hl.words.trans h.words
  starts := hl.starts.trans h.starts
  every P hp := hl.every P (h.every P hp)
  quiet hq := hl.quiet (h.quiet hq)
  exceeded he := hl.exceeded (h.exceeded he)
  reason hr := hl.reason (h.reason hr)
  silent he := (hl.silent (h.exceeded he)).trans (h.silent he)

/-- A step that has to do with neither tokens nor complaints. -/
theorem of_same (hcurrent : later.current = s.current) (hahead : later.ahead = s.ahead)
    (hcomplaints : later.complaints = s.complaints) (hlexical : later.lexical = s.lexical)
    (hexceeded : later.exceeded = s.exceeded) : s.Before later := by
  have htokens : later.tokens = s.tokens := by rw [tokens, tokens, hcurrent, hahead]
  refine ⟨hcomplaints ▸ List.suffix_rfl, hlexical ▸ List.suffix_rfl, htokens ▸ List.suffix_rfl,
    htokens ▸ List.suffix_rfl, ?_, ?_, hexceeded ▸ id, ?_, fun _ => hcomplaints⟩
  · intro P hp
    rwa [Every, hcurrent, hahead, hlexical]
  · rw [Quiet, Quiet, hahead, hlexical]
    exact id
  · rw [hexceeded, hcomplaints]
    exact id

theorem advance (s : State) : s.Before s.advance := by
  unfold State.advance
  split
  · rename_i hahead
    refine ⟨List.suffix_rfl, List.suffix_rfl, ?_, ?_, fun P hp hlexical => ?_, id, id, id,
      fun _ => rfl⟩
    · rw [tokens, tokens, hahead]
      exact List.suffix_rfl
    · rw [tokens, tokens, hahead]
      exact List.suffix_rfl
    · exact hp hlexical
  · rename_i token ahead hahead
    refine ⟨List.suffix_rfl, List.suffix_append _ _, ?_, ?_, fun P hp hlexical => ?_,
      fun ⟨hlexical, hquiet⟩ => ?_, id, id, fun _ => rfl⟩
    · rw [tokens, tokens, hahead]
      exact List.suffix_cons _ _
    · rw [tokens, tokens, hahead]
      exact List.suffix_cons _ _
    · obtain ⟨htoken, hbefore⟩ := List.append_eq_nil_iff.mp hlexical
      have hrest := (hp hbefore).2
      rw [hahead] at hrest
      exact ⟨hrest token List.mem_cons_self (List.reverse_eq_nil_iff.mp htoken),
        fun other ho => hrest other (List.mem_cons_of_mem _ ho)⟩
    · rw [hahead, List.forall_mem_cons] at hquiet
      exact ⟨by rw [hquiet.1, hlexical]; rfl, hquiet.2⟩

theorem complain (s : State) (fault : Fault) : s.Before (s.complain fault) := by
  simp only [State.complain]
  split
  · exact refl s
  · rename_i hspoken
    refine ⟨List.suffix_cons _ _, List.suffix_rfl, List.suffix_rfl, List.suffix_rfl, fun _ => id, id,
      id, fun _ _ => nofun, fun he => ?_⟩
    simp [he] at hspoken

theorem complain_ne_nil (s : State) (fault : Fault) (h : s.exceeded → s.complaints ≠ []) :
    (s.complain fault).complaints ≠ [] := by
  simp only [State.complain]
  split
  · rename_i hsame
    obtain he | hs := Bool.or_eq_true_iff.mp hsame
    · exact h he
    · intro hnone
      simp [hnone] at hs
  · nofun

theorem enter (s : State) : s.Before s.enter.2 := by
  unfold State.enter
  split
  · have h := complain s .nestingTooDeep
    exact ⟨h.complaints, h.lexical, h.words, h.starts, h.every, h.quiet, fun _ => rfl,
      fun hr _ => complain_ne_nil s .nestingTooDeep hr, h.silent⟩
  · exact of_same rfl rfl rfl rfl rfl

end Before

end State

structure Parse (α : Type) where
  run : State → α × State
  before : ∀ s : State, s.Before (run s).2

namespace Parse

variable {α : Type}

instance : CoeFun (Parse α) fun _ => State → α × State := ⟨run⟩

protected def pure (a : α) : Parse α := ⟨fun s => (a, s), State.Before.refl⟩

protected def bind {β : Type} (p : Parse α) (f : α → Parse β) : Parse β :=
  ⟨fun s => let r := p s; f r.1 r.2, fun s => (p.before s).trans ((f (p s).1).before _)⟩

instance : Monad Parse where
  pure := Parse.pure
  bind := Parse.bind

def read (f : State → α) : Parse α := ⟨fun s => (f s, s), State.Before.refl⟩

def change (f : State → State) (h : ∀ s : State, s.Before (f s)) : Parse Unit := ⟨fun s => ((), f s), h⟩

end Parse

def current : Parse Token := .read State.current

def kind : Parse Token.Kind := .read (·.current.kind)

def here : Parse Nat := .read (·.current.start)

def check (p : State → Bool) : Parse Bool := .read p

def advance : Parse Unit := .change State.advance .advance

def complain (fault : Fault) : Parse Unit := .change (·.complain fault) (.complain · fault)

def enter : Parse Bool := ⟨State.enter, .enter⟩

def leave (count : Nat) : Parse Unit :=
  .change (·.leave count) fun _ => .of_same rfl rfl rfl rfl rfl

def node (pos : Nat) (shape : Shape Node) (flags : Flags := {}) : Parse Node :=
  ⟨(·.node pos shape flags), fun _ => .of_same rfl rfl rfl rfl rfl⟩

def missing : Parse Node := ⟨State.missing, fun _ => .of_same rfl rfl rfl rfl rfl⟩

def exhaust : Parse Unit :=
  .change (fun s => { s with exhausted := true }) fun _ => .of_same rfl rfl rfl rfl rfl

def accept (k : Token.Kind) : Parse Bool := do
  if (← kind) == k then
    advance
    return true
  else
    return false

/-- Passes a token of the given kind, or complains that it is not there. -/
def expect (k : Token.Kind) : Parse Bool := do
  if ← accept k then
    return true
  else
    complain (.expected k)
    return false

def endStatement : Parse Unit := do
  unless ← accept .semicolon do
    unless ← check State.canEndStatement do
      discard (expect .semicolon)

def missingBecause (fault : Fault) : Parse Node := do
  complain fault
  missing

inductive Goal where
  | statement
  | block
  | expression
  | assignment
  /-- A chain of operators that bind at least this tightly. -/
  | binary (least : Nat)
  | unary
  | new
  deriving DecidableEq, Repr

abbrev Productions := Goal → Parse Node

end ArrayLoops.Grammar
