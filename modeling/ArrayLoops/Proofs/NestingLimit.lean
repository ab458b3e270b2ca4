import ArrayLoops.Proofs.ParsedFiles
import ArrayLoops.Proofs.ParsedTree

/-!
# Reports of the limit on nesting

The limit is complained about when it is met for the first time and never again, for from then on
the parse complains about nothing. But no two complaints in a row are about one place. So if the token
at which the limit is met was just complained about for another reason, the limit is not reported.
-/

namespace ArrayLoops

open Token (Kind)

def Unnested (complaints : List Complaint) : Prop :=
  ∀ complaint ∈ complaints, complaint.fault ≠ .nestingTooDeep

def nestingCount (complaints : List Complaint) : Nat :=
  complaints.countP (·.fault.code == Fault.nestingTooDeep.code)

theorem Unnested.nestingCount {complaints : List Complaint} (h : Unnested complaints) :
    nestingCount complaints = 0 := by
  refine List.countP_eq_zero.mpr fun complaint hc => ?_
  have := h complaint hc
  cases hfault : complaint.fault <;> simp_all [Fault.code]

namespace Token

theorem Cooking.unnested_closeHex {k : Cooking} (h : Unnested k.complaints)
    (start digits code : Nat) : Unnested (k.closeHex start digits code).complaints := by
  unfold closeHex
  split
  · exact h
  · exact List.forall_mem_append.mpr ⟨h, by simp⟩

theorem Cooking.unnested_step {k : Cooking} (h : Unnested k.complaints) (c : Char) :
    Unnested (k.step c).complaints := by
  have hplain : ∀ (k : Cooking), Unnested k.complaints → Unnested (k.plain c).complaints := by
    intro k h
    unfold plain
    split <;> exact h
  unfold step
  split
  · exact hplain k h
  · split
    · exact h
    · split <;> exact h
  · split
    · split
      · exact @unnested_closeHex { k with pos := k.pos + c.utf8Size } h _ _ _
      · exact h
    · exact hplain _ (unnested_closeHex h _ _ _)

theorem unnested_lexemeAt (pos : Nat) (cs : List Char) : Unnested (lexemeAt pos cs).complaints := by
  have hcooked : ∀ pos body, Unnested (Cooking.ofBody pos body).complaints := by
    intro pos body
    have hfold : ∀ k : Cooking, Unnested k.complaints → Unnested (body.foldl Cooking.step k).complaints := by
      induction body with
      | nil => exact fun _ => id
      | cons c body ih => exact fun k h => ih _ (Cooking.unnested_step h c)
    have hall := hfold (Cooking.start pos) (by simp [Unnested, Cooking.start])
    unfold Cooking.ofBody Cooking.finish
    split
    · exact Cooking.unnested_closeHex hall _ _ _
    · exact hall
  cases cs with
  | nil => simp [Unnested, lexemeAt]
  | cons c cs =>
    rw [lexemeAt]
    split
    · simp only [stringLexeme]
      refine List.forall_mem_append.mpr ⟨hcooked _ _, ?_⟩
      split <;> simp
    split
    · simp [Unnested, numberLexeme]
    split
    · simp [Unnested, nameLexeme]
    · unfold markLexeme
      split <;> simp [Unnested]

theorem unnested_next (pos : Nat) (cs : List Char) : Unnested (next pos cs).1.complaints := by
  simp only [next]
  refine List.forall_mem_append.mpr ⟨?_, unnested_lexemeAt _ _⟩
  split <;> simp

theorem unnested_list (text : String) : ∀ token ∈ list text, Unnested token.complaints := by
  have hall : ∀ count pos cs, ∀ token ∈ listFrom count pos cs, Unnested token.complaints := by
    intro count
    induction count with
    | zero => simp [listFrom]
    | succ count ih =>
      intro pos cs
      rw [listFrom_succ]
      split
      · simpa using unnested_next pos cs
      · exact List.forall_mem_cons.mpr ⟨unnested_next pos cs, ih _ _⟩
  exact hall _ _ _

end Token

namespace Grammar

variable {s m met : State} {opened : Nat}

theorem perm_sortByStart (complaints : List Complaint) : (sortByStart complaints).Perm complaints := by
  have hinsert : ∀ complaint complaints,
      (insertByStart complaint complaints).Perm (complaint :: complaints) := by
    intro complaint complaints
    induction complaints with
    | nil => exact .refl _
    | cons other rest ih =>
      rw [insertByStart]
      split
      · exact .refl _
      · exact (ih.cons other).trans (.swap ..)
  induction complaints with
  | nil => exact .refl _
  | cons complaint rest ih => exact (hinsert complaint _).trans (ih.cons complaint)

namespace Reached

theorem before (h : Reached s opened m) : s.Before m := by
  induction h with
  | refl => exact .refl s
  | advance _ ih => exact ih.trans (.advance _)
  | complain _ _ ih => exact ih.trans (.complain _ _)
  | @giveUp _ m _ hdepth ih =>
    have hgiven := State.Before.enter m
    rw [State.enter, if_pos hdepth] at hgiven
    exact ih.trans hgiven
  | enter _ _ ih | leave _ ih | withArena _ _ ih | exhaust _ ih =>
    exact ih.trans (.of_same rfl rfl rfl rfl rfl)

theorem unnested_lexical (h : Reached s opened m)
    (htokens : ∀ token ∈ s.tokens, Unnested token.complaints) (hlexical : Unnested s.lexical) :
    (∀ token ∈ m.tokens, Unnested token.complaints) ∧ Unnested m.lexical := by
  induction h with
  | refl => exact ⟨htokens, hlexical⟩
  | enter _ _ ih | leave _ ih | withArena _ _ ih | exhaust _ ih => exact ih
  | complain _ _ ih | giveUp _ _ ih =>
    simp only [State.complain]
    split <;> exact ih
  | advance _ ih =>
    unfold State.advance
    split
    · rename_i hahead
      refine ⟨?_, ih.2⟩
      simp [State.tokens, hahead, Unnested]
    · rename_i token ahead hahead
      rw [State.tokens, hahead] at ih
      obtain ⟨htokens, hlexical⟩ := ih
      have htokens := (List.forall_mem_cons.mp htokens).2
      refine ⟨htokens, List.forall_mem_append.mpr ⟨?_, hlexical⟩⟩
      exact fun complaint hc => htokens token List.mem_cons_self complaint (List.mem_reverse.mp hc)

end Reached

/-- The limit was not met and not complained about, or it was met first in a state from which the
parse went on. -/
inductive Limited (s m : State) : Prop where
  | within : m.exceeded = false → Unnested m.complaints → Limited s m
  | beyond {opened : Nat} {met : State} :
    Reached s opened met → met.exceeded = false → Unnested met.complaints → maxDepth ≤ met.depth →
      met.enter.2.Before m → Limited s m

theorem Limited.step {later : State} (h : Limited s m) (hbefore : m.Before later)
    (hsame : later.exceeded = m.exceeded) (hunnested : Unnested m.complaints → Unnested later.complaints) :
    Limited s later := by
  cases h with
  | within hexceeded h => exact .within (hsame.trans hexceeded) (hunnested h)
  | beyond hmet hexceeded h hdepth hb => exact .beyond hmet hexceeded h hdepth (hb.trans hbefore)

theorem Reached.limited (h : Reached s opened m) (hexceeded : s.exceeded = false)
    (hunnested : Unnested s.complaints) : Limited s m := by
  induction h with
  | refl => exact .within hexceeded hunnested
  | @advance _ m _ ih =>
    have hsame : m.advance.exceeded = m.exceeded ∧ m.advance.complaints = m.complaints := by
      unfold State.advance
      split <;> exact ⟨rfl, rfl⟩
    exact ih.step (.advance m) hsame.1 (hsame.2 ▸ id)
  | @complain _ m fault _ hfault ih =>
    refine ih.step (.complain m fault) ?_ fun h => ?_
    · simp only [State.complain]
      split <;> rfl
    · simp only [State.complain]
      split
      · exact h
      · exact List.forall_mem_cons.mpr ⟨hfault, h⟩
  | @giveUp _ m h hdepth ih =>
    have hgiven : { m.complain .nestingTooDeep with exceeded := true } = m.enter.2 := by
      rw [State.enter, if_pos hdepth]
    rw [hgiven]
    cases ih with
    | within hexceeded hunnested => exact .beyond h hexceeded hunnested hdepth (.refl _)
    | beyond hmet hexceeded hunnested hmax hb =>
      exact .beyond hmet hexceeded hunnested hmax (hb.trans (.enter m))
  | enter _ _ ih | leave _ ih | withArena _ _ ih | exhaust _ ih =>
    exact ih.step (.of_same rfl rfl rfl rfl rfl) rfl id

theorem nestingCount_of_before (hexceeded : met.exceeded = false) (hunnested : Unnested met.complaints)
    (hdepth : maxDepth ≤ met.depth) (hb : met.enter.2.Before m) :
    nestingCount m.complaints =
      if met.complaints.head?.any (·.start == met.current.start) then 0 else 1 := by
  have hzero := hunnested.nestingCount
  rw [State.enter, if_pos hdepth] at hb
  rw [hb.silent rfl]
  simp only [State.complain, hexceeded, Bool.false_or]
  split
  · exact hzero
  · rw [nestingCount, List.countP_cons_of_pos (by rfl)]
    exact congrArg (· + 1) hzero

theorem nestingCount_parse (name text : String) :
    nestingCount (parse name text).complaints =
      nestingCount (statementsOf (Token.list text)).2.complaints := by
  have hlexical : Unnested (statementsOf (Token.list text)).2.lexical := by
    have htokens := Token.unnested_list text
    refine ((reached_statementsOf _).unnested_lexical (by rwa [tokens_start]) ?_).2
    obtain ⟨first, rest, hlist⟩ := list_eq_cons text
    rw [hlist] at htokens ⊢
    exact fun complaint hc => htokens first List.mem_cons_self complaint (List.mem_reverse.mp hc)
  have hzero := hlexical.nestingCount
  rw [nestingCount] at hzero
  simp only [parse, parseTokens, nestingCount, (perm_sortByStart _).countP_eq, List.countP_append,
    List.countP_reverse, hzero, Nat.add_zero]

end Grammar

/-- Braces and an `if` without its parenthesis. -/
def unclosedBraces (braces : Nat) : List Char := List.replicate braces '\x7b' ++ "if x".toList

theorem Token.kinds_unclosedBraces (pos braces : Nat) :
    (listFrom (braces + 5) pos (unclosedBraces braces)).map (·.kind) =
      List.replicate braces .openBrace ++ [.ifWord, .identifier, .endOfFile] := by
  induction braces generalizing pos with
  | zero => rfl
  | succ braces ih =>
    have hnext : ∀ cs, (next pos ('\x7b' :: cs)).1.kind = .openBrace ∧
        (next pos ('\x7b' :: cs)).2 = cs := fun _ => ⟨rfl, rfl⟩
    rw [unclosedBraces, List.replicate_succ, List.cons_append, Nat.add_right_comm, listFrom_succ,
      (hnext _).1, (hnext _).2, if_neg (by simp), List.map_cons, (hnext _).1]
    exact congrArg (Kind.openBrace :: ·) (ih _)

namespace Grammar

variable {α β : Type} {s : State} {n : Nat} {complaints : List Complaint} {p : Parse α}

/-- The parse has given up after the step, with these complaints. -/
def GivesUp (complaints : List Complaint) (p : Parse α) (s : State) : Prop :=
  (p s).2.exceeded = true ∧ (p s).2.complaints = complaints

namespace GivesUp

theorem bind {f : α → Parse β} (h : GivesUp complaints p s) : GivesUp complaints (p >>= f) s :=
  have hbefore := (f (p s).1).before (p s).2
  ⟨hbefore.exceeded h.1, (hbefore.silent h.1).trans h.2⟩

theorem read {f : α → Parse β} {g : State → α} (h : GivesUp complaints (f (g s)) s) :
    GivesUp complaints (.read g >>= f) s := h

theorem enter {f : Bool → Parse β} (hdepth : s.depth < maxDepth)
    (h : GivesUp complaints (f true) s.opened) : GivesUp complaints (Grammar.enter >>= f) s := by
  change (f s.enter.1 s.enter.2).2.exceeded = true ∧ (f s.enter.1 s.enter.2).2.complaints = _
  rw [State.enter, if_neg (Nat.not_le_of_lt hdepth)]
  exact h

theorem expect {kind : Kind} {f : Unit → Parse β} (h : GivesUp complaints (f ())
      (if s.current.kind == kind then s.advance else s.complain (.expected kind))) :
    GivesUp complaints (discard (Grammar.expect kind) >>= f) s := by
  have hrun : (Grammar.expect kind s).2 =
      if s.current.kind == kind then s.advance else s.complain (.expected kind) := by
    change ((if (accept kind s).1 then Pure.pure true
      else complain (.expected kind) >>= fun _ => Pure.pure false : Parse Bool) (accept kind s).2).2 = _
    rw [Gives.run_accept]
    split <;> rfl
  rw [← hrun] at h
  exact h

end GivesUp

theorem givesUp_statementsOnto {closing : Kind} {self : Productions} (hexceeded : s.exceeded = false)
    (hclose : s.current.kind ≠ closing) (hend : s.current.kind ≠ .endOfFile)
    (h : GivesUp complaints (self .statement) s) :
    GivesUp complaints (statementsOnto closing self (n + 1) []) s := by
  refine .read (.read ?_)
  rw [if_neg (by simp [hexceeded, hclose, hend])]
  exact .read h.bind

theorem givesUp_block (hkind : s.current.kind = .openBrace) (hdepth : s.depth < maxDepth)
    (hexceeded : s.opened.advance.exceeded = false)
    (hclose : s.opened.advance.current.kind ≠ .closeBrace)
    (hend : s.opened.advance.current.kind ≠ .endOfFile)
    (h : GivesUp complaints (productions (n + 1) .statement) s.opened.advance) :
    GivesUp complaints (productions (n + 3) .statement) s := by
  have hblock : GivesUp complaints (block (n + 1) (productions (n + 1))) s.opened := by
    refine .read (.expect ?_)
    rw [if_pos (by simp [hkind])]
    exact (givesUp_statementsOnto hexceeded hclose hend h).bind
  have hinside : GivesUp complaints (statementInside (n + 2) (productions (n + 2))) s.opened := by
    refine .read ?_
    rw [State.opened_current, hkind]
    exact hblock
  exact .enter hdepth hinside.bind

/-- Where an `if` has the last construct open that may be, its condition cannot open another. -/
theorem givesUp_if (hkind : s.current.kind = .ifWord) (hdepth : s.depth + 1 = maxDepth)
    (hexceeded : s.opened.advance.exceeded = false) (hcomplaints : s.opened.advance.complaints = [])
    (hname : s.opened.advance.current.kind = .identifier) :
    ∃ complaints, Unnested complaints ∧ GivesUp complaints (productions (n + 3) .statement) s := by
  let m := s.opened.advance
  let missed := m.complain (.expected .openParen)
  have hmissed : missed = { m with complaints :=
      [⟨m.current.start, m.current.fin - m.current.start, .expected .openParen⟩] } := by
    simp [missed, m, State.complain, hexceeded, hcomplaints]
  have hfull : maxDepth ≤ missed.depth := by
    rw [hmissed]
    change maxDepth ≤ s.opened.advance.depth
    rw [State.depth_advance, State.opened_depth, hdepth]
  -- The parenthesis is missed at the token that is too deep.
  have henter : GivesUp missed.complaints Grammar.enter missed := by
    change missed.enter.2.exceeded = true ∧ missed.enter.2.complaints = missed.complaints
    rw [State.enter, if_pos hfull]
    refine ⟨rfl, ?_⟩
    rw [hmissed]
    simp [State.complain]
  have hcondition : GivesUp missed.complaints (condition (productions (n + 2))) m := by
    refine .expect ?_
    rw [if_neg (by simp [m, hname])]
    exact GivesUp.bind (.read (GivesUp.bind henter.bind))
  have hinside : GivesUp missed.complaints (statementInside (n + 2) (productions (n + 2))) s.opened := by
    refine .read ?_
    rw [State.opened_current, hkind]
    refine .read (.expect ?_)
    rw [if_pos (by simp [hkind])]
    exact hcondition.bind
  refine ⟨missed.complaints, ?_, .enter (by omega) hinside.bind⟩
  rw [hmissed]
  simp [Unnested]

theorem kinds_advance {kind : Kind} {kinds : List Kind}
    (h : s.tokens.map (·.kind) = kind :: kinds) (hkinds : kinds ≠ []) :
    s.current.kind = kind ∧ s.opened.advance.tokens.map (·.kind) = kinds ∧
      s.opened.advance.exceeded = s.exceeded ∧ s.opened.advance.complaints = s.complaints := by
  obtain ⟨current, ahead⟩ := s
  cases ahead with
  | nil => simp_all [State.tokens]
  | cons token ahead =>
    obtain ⟨hkind, hahead⟩ := List.cons.inj h
    exact ⟨hkind, hahead, rfl, rfl⟩

/-- The last construct that may be open is an `if` in braces: the parse gives up in it without a word
about nesting. -/
theorem givesUp_unclosedBraces {braces : Nat}
    (hkinds : s.tokens.map (·.kind) =
      List.replicate braces .openBrace ++ [.ifWord, .identifier, .endOfFile])
    (hdepth : s.depth + braces + 1 = maxDepth) (hexceeded : s.exceeded = false)
    (hcomplaints : s.complaints = []) :
    ∃ complaints, Unnested complaints ∧
      GivesUp complaints (productions (n + 2 * braces + 3) .statement) s := by
  induction braces generalizing s with
  | zero =>
    obtain ⟨hkind, hnext, he, hc⟩ := kinds_advance hkinds (by simp)
    exact givesUp_if hkind hdepth (he.trans hexceeded) (hc.trans hcomplaints)
      (List.cons.inj hnext).1
  | succ braces ih =>
    rw [List.replicate_succ, List.cons_append] at hkinds
    obtain ⟨hkind, hnext, he, hc⟩ := kinds_advance hkinds (by simp)
    obtain ⟨complaints, hunnested, h⟩ := ih hnext
      (by rw [State.depth_advance, State.opened_depth]; omega) (he.trans hexceeded)
      (hc.trans hcomplaints)
    have hfirst : s.opened.advance.current.kind = .openBrace ∨
        s.opened.advance.current.kind = .ifWord := by
      cases braces with
      | zero => exact .inr (List.cons.inj hnext).1
      | succ => exact .inl (List.cons.inj hnext).1
    exact ⟨complaints, hunnested, givesUp_block hkind (by omega) (he.trans hexceeded)
      (by rcases hfirst with h | h <;> simp [h]) (by rcases hfirst with h | h <;> simp [h]) h⟩

theorem givesUp_statementsOf {tokens : List Token}
    (hkinds : tokens.map (·.kind) =
      List.replicate (maxDepth - 1) .openBrace ++ [.ifWord, .identifier, .endOfFile]) :
    (statementsOf tokens).2.exceeded = true ∧ nestingCount (statementsOf tokens).2.complaints = 0 := by
  have hlength := congrArg List.length hkinds
  simp only [List.length_map, List.length_append, List.length_replicate, List.length_cons,
    List.length_nil] at hlength
  obtain ⟨n, hn⟩ : ∃ n, fuelFor tokens = n + 2 * (maxDepth - 1) + 3 :=
    ⟨fuelFor tokens - 2 * (maxDepth - 1) - 3, by rw [fuelFor]; omega⟩
  cases tokens with
  | nil => simp at hlength
  | cons first ahead =>
    obtain ⟨complaints, hunnested, h⟩ :=
      givesUp_unclosedBraces (s := .start (first :: ahead)) (n := n) hkinds rfl rfl rfl
    have hfirst : (State.start (first :: ahead)).current.kind = .openBrace := (List.cons.inj hkinds).1
    have hall : GivesUp complaints (statementsOnto .endOfFile
        (productions (n + 2 * (maxDepth - 1) + 3)) (n + 2 * (maxDepth - 1) + 3) []) _ :=
      givesUp_statementsOnto rfl (by simp [hfirst]) (by simp [hfirst]) h
    rw [statementsOf, hn]
    exact ⟨hall.1, (congrArg nestingCount hall.2).trans hunnested.nestingCount⟩

end Grammar

open Grammar (Reached State maxDepth statementsOf)

/-- A parse that does not meet the limit on nesting does not complain about it. A parse that meets it,
with as many constructs open as may be, complains about it once, unless its last complaint before is
about the same token: then it does not. -/
theorem limit_reported_unless_token_was (name text : String) :
    if (statementsOf (Token.list text)).2.exceeded then
      ∃ met, Reached (.start (Token.list text)) maxDepth met ∧ met.exceeded = false ∧
        met.enter.2.Before (statementsOf (Token.list text)).2 ∧
        nestingCount (parse name text).complaints =
          if met.complaints.head?.any (·.start == met.current.start) then 0 else 1
    else nestingCount (parse name text).complaints = 0 := by
  have hreached := Grammar.reached_statementsOf (Token.list text)
  have hstart : Unnested (State.start (Token.list text)).complaints := by
    obtain ⟨first, rest, hlist⟩ := Grammar.list_eq_cons text
    simp [hlist, State.start, Unnested]
  rw [Grammar.nestingCount_parse]
  cases hreached.limited (Grammar.start_exceeded _) hstart with
  | within hexceeded h =>
    rw [if_neg (by simp [hexceeded])]
    exact h.nestingCount
  | @beyond opened met hmet hexceeded hunnested hdepth hb =>
    have hcount := Grammar.nestingCount_of_before hexceeded hunnested hdepth hb
    have hopened : opened = maxDepth := by
      have hle := hmet.depth_le (by simp [Grammar.start_depth])
      have heq := hmet.depth
      rw [Grammar.start_depth, Nat.zero_add] at heq
      omega
    rw [if_pos (hb.exceeded (by rw [State.enter, if_pos hdepth]))]
    exact ⟨met, hopened ▸ hmet, hexceeded, hb, hcount⟩

/-- In this text the limit is met at the name behind `if`. About this name it was complained that it
is not a parenthesis, and so nothing is said about nesting. -/
theorem limit_unreported_behind_if :
    (statementsOf (Token.list (String.ofList (unclosedBraces (maxDepth - 1))))).2.exceeded = true ∧
      nestingCount (parse "" (String.ofList (unclosedBraces (maxDepth - 1)))).complaints = 0 := by
  have hlength : (unclosedBraces (maxDepth - 1)).length = maxDepth - 1 + 4 := by
    simp [unclosedBraces]
  rw [Grammar.nestingCount_parse]
  refine Grammar.givesUp_statementsOf ?_
  rw [Token.list, String.toList_ofList, hlength]
  exact Token.kinds_unclosedBraces 0 (maxDepth - 1)

end ArrayLoops
