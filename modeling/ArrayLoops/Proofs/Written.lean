import ArrayLoops.Proofs.Lexemes
import ArrayLoops.Proofs.Openings
import Mathlib.Data.List.Infix

/-!
# Texts made of words

A text that is made of genuine words with blanks and ends of lines between them, where words that
would be read otherwise are kept apart, is read as these words. Tokens of any text start one behind
the other.
-/

namespace ArrayLoops.Token

open Text

def gapPoints : List Nat :=
  0xFEFF :: blankRanges.flatMap fun range => List.range' range.1 (range.2 + 1 - range.1)

set_option maxRecDepth 20000 in
theorem not_isNamePart_of_mem_gapPoints : ∀ n ∈ gapPoints, isNamePart (Char.ofNat n) = false := by
  decide +kernel

theorem mem_gapPoints_of_isBlank {c : Char} (h : isBlank c) : c.toNat ∈ gapPoints := by
  obtain ⟨range, hrange, hlow, hhigh⟩ := (Ranges.has_iff _ _).mp h
  refine List.mem_cons_of_mem _ (List.mem_flatMap.mpr ⟨range, hrange, ?_⟩)
  rw [List.mem_range'_1]
  omega

theorem mem_gapPoints_of_isLineBreak {c : Char} (h : isLineBreak c) : c.toNat ∈ gapPoints := by
  simp only [isLineBreak, Bool.or_eq_true, beq_iff_eq] at h
  obtain ((rfl | rfl) | h) | h := h
  · decide
  · decide
  · exact h ▸ by decide
  · exact h ▸ by decide

theorem not_gap_of_isNamePart {c : Char} (h : isNamePart c) :
    isLineBreak c = false ∧ isInlineBlank c = false := by
  have hnot : c.toNat ∉ gapPoints := by
    intro hmem
    have := not_isNamePart_of_mem_gapPoints _ hmem
    rw [Char.ofNat_toNat] at this
    exact absurd h (by simp [this])
  have hmark : c.toNat ≠ 0xFEFF := fun heq => hnot (heq ▸ List.mem_cons_self)
  refine ⟨Bool.eq_false_iff.mpr fun hbreak => hnot (mem_gapPoints_of_isLineBreak hbreak), ?_⟩
  have hblank : isBlank c = false :=
    Bool.eq_false_iff.mpr fun hblank => hnot (mem_gapPoints_of_isBlank hblank)
  simp [isInlineBlank, hblank, hmark]

theorem not_isDigit_of_isNameStart {c : Char} (h : isNameStart c) : c.isDigit = false := by
  have hall : ∀ n < 58, 48 ≤ n → isNameStart (Char.ofNat n) = false := by decide
  refine Bool.eq_false_iff.mpr fun hdigit => ?_
  simp only [Char.isDigit, Bool.and_eq_true, decide_eq_true_eq, UInt32.le_iff_toNat_le,
    ge_iff_le] at hdigit
  have := hall c.toNat (Nat.lt_succ_of_le hdigit.2) hdigit.1
  rw [Char.ofNat_toNat] at this
  exact absurd h (by simp [this])

variable {word : Word} {rest cs : List Char} {pos : Nat} {lineBreak : Bool}

theorem Word.apart_iff_of_name (h : word.kind = .identifier ∨ word.kind.isReservedWord) :
    word.Apart rest ↔ Stops isNamePart rest := by
  unfold Word.Apart
  split
  · rename_i hkind
    rw [hkind] at h
    exact absurd h (by decide)
  · rename_i hkind
    rw [hkind] at h
    exact absurd h (by decide)
  · rw [if_pos h]

theorem Word.apart_iff_of_mark (h : word.kind ∈ Kind.punctuation) :
    word.Apart rest ↔ Stops word.kind.fuses rest := by
  have hmark : ∀ kind ∈ Kind.punctuation, kind ≠ .string ∧ kind ≠ .number ∧
      ¬ (kind = .identifier ∨ kind.isReservedWord) := by decide
  obtain ⟨hstring, hnumber, hname⟩ := hmark word.kind h
  unfold Word.Apart
  split
  · exact absurd ‹_› hstring
  · exact absurd ‹_› hnumber
  · rw [if_neg hname]

theorem ofWord?_getD (text : String) : (Kind.ofWord? text).getD .identifier = .identifier ∨
    ((Kind.ofWord? text).getD .identifier).isReservedWord := by
  cases h : Kind.ofWord? text with
  | none => exact .inl rfl
  | some kind => exact .inr (List.contains_iff_mem.mpr (List.mem_of_find?_eq_some h))

theorem lexemeAt_name {c : Char} {name : List Char} (hc : isNameStart c)
    (hname : ∀ c ∈ name, isNamePart c) (hrest : Stops isNamePart rest) (pos : Nat) :
    lexemeAt pos (c :: name ++ rest) = ⟨(Kind.ofWord? (String.ofList (c :: name))).getD .identifier,
      String.ofList (c :: name), c :: name, rest, []⟩ := by
  have hdouble : c ≠ '"' := by
    rintro rfl
    exact absurd hc (by decide)
  have hsingle : c ≠ '\'' := by
    rintro rfl
    exact absurd hc (by decide)
  have hpoint : c ≠ '.' := by
    rintro rfl
    exact absurd hc (by decide)
  have hrun : run isNamePart (c :: name ++ rest) = (c :: name, rest) :=
    run_append (List.forall_mem_cons.mpr ⟨by simp [isNamePart, hc], hname⟩) hrest
  rw [List.cons_append] at hrun ⊢
  simp [lexemeAt, hdouble, hsingle, startsNumber, not_isDigit_of_isNameStart hc, hpoint, hc,
    nameLexeme, hrun]

theorem lexemeAt_number {text : List Char} (hnumeral : Numeral text) (hstarts : startsNumber text)
    (hrest : Stops isNamePart rest) (hpoint : text.all Char.isDigit → rest.head? ≠ some '.')
    (pos : Nat) : lexemeAt pos (text ++ rest) =
      ⟨.number, String.ofList text, text, rest, []⟩ := by
  have hne : text ≠ [] := by
    rintro rfl
    cases hstarts
  have hnumber := number_append hnumeral hne hrest hpoint
  have hagain := startsNumber_of_leading hstarts rest
  obtain ⟨c, cs, rfl⟩ := List.exists_cons_of_ne_nil hne
  have hquote : (c == '"' || c == '\'') = false := by
    refine Bool.eq_false_iff.mpr fun hquote => ?_
    have hquote : c = '"' ∨ c = '\'' := by simpa using hquote
    have hfirst := startsNumber_iff.mp hstarts
    rcases hquote with rfl | rfl <;> exact absurd hfirst (by simp)
  rw [List.cons_append] at hnumber hagain ⊢
  simp [lexemeAt, hquote, hagain, numberLexeme, hnumber]

theorem lexemeAt_string {quote : Char} {body : List Char} (hquote : quote = '"' ∨ quote = '\'')
    (hclosed : Closed quote body) (hcooked : (Cooking.ofBody 0 body).complaints = []) (pos : Nat) :
    lexemeAt pos (quote :: body ++ [quote] ++ rest) =
      ⟨.string, String.ofList (Cooking.ofBody 0 body).value.reverse, quote :: body ++ [quote], rest,
        []⟩ := by
  have hbody := hclosed rest
  have halike := Cooking.Alike.ofBody 0 (pos + quote.utf8Size) body
  have hquiet : (Cooking.ofBody (pos + quote.utf8Size) body).complaints = [] := by
    have := halike.complaints
    rw [hcooked] at this
    exact List.length_eq_zero_iff.mp this.symm
  have hquotes : (quote == '"' || quote == '\'') = true := by simpa using hquote
  rw [List.append_assoc, List.cons_append, List.singleton_append, lexemeAt, if_pos hquotes,
    stringLexeme]
  simp [hbody, hquiet, ← halike.value]

theorem punctuationAt?_mark {kind : Kind} (hkind : kind ∈ Kind.punctuation)
    (hrest : Stops kind.fuses rest) : punctuationAt? (kind.spelling.toList ++ rest) = some kind := by
  have hsplit : ∀ kind ∈ Kind.punctuation, ∃ before after,
      Kind.punctuation = before ++ kind :: after ∧
        ∀ other ∈ before, ¬ other.spelling.toList <+: kind.spelling.toList := by
    intro kind hkind
    refine ⟨Kind.punctuation.takeWhile (· ≠ kind), (Kind.punctuation.dropWhile (· ≠ kind)).tail, ?_⟩
    revert kind
    decide
  obtain ⟨before, after, hlist, hbefore⟩ := hsplit kind hkind
  rw [punctuationAt?, hlist, List.find?_append, List.find?_eq_none.mpr, Option.none_or,
    List.find?_cons_of_pos (by simp)]
  intro other ho
  rw [List.isPrefixOf_iff_prefix]
  intro hleads
  obtain hshort | ⟨more, hmore⟩ :=
    List.prefix_or_prefix_of_prefix hleads (List.prefix_append kind.spelling.toList rest)
  · exact hbefore other ho hshort
  · -- The other mark is this one and the first character behind it.
    cases more with
    | nil => exact hbefore other ho (by rw [← hmore, List.append_nil])
    | cons c more =>
      rw [← hmore, List.prefix_append_right_inj] at hleads
      obtain ⟨others, hothers⟩ := hleads
      have hfuses : kind.fuses c := by
        have hmem : other ∈ Kind.punctuation := hlist ▸ List.mem_append_left _ ho
        have hlong : (kind.spelling.toList ++ [c]).isPrefixOf other.spelling.toList := by
          rw [List.isPrefixOf_iff_prefix, ← hmore, List.prefix_append_right_inj]
          exact ⟨more, rfl⟩
        simp only [Kind.fuses, Bool.or_eq_true]
        exact .inl (.inl (List.any_eq_true.mpr ⟨other, hmem, hlong⟩))
      exact absurd hfuses (by simp [hrest c (by simp [← hothers])])

theorem lexemeAt_mark {kind : Kind} (hkind : kind ∈ Kind.punctuation)
    (hrest : Stops kind.fuses rest) (pos : Nat) : lexemeAt pos (kind.spelling.toList ++ rest) =
      ⟨kind, "", kind.spelling.toList, rest, []⟩ := by
  have hfirst : ∀ kind ∈ Kind.punctuation, ∃ c cs, kind.spelling.toList = c :: cs ∧
      (c == '"' || c == '\'') = false ∧ c.isDigit = false ∧ isNameStart c = false ∧
      (c = '.' → kind = .dot) ∧ (kind = .dot → cs = []) := by
    intro kind hkind
    refine ⟨kind.spelling.toList.headD ' ', kind.spelling.toList.tail, ?_⟩
    revert kind
    decide
  obtain ⟨c, cs, htext, hquote, hdigit, hname, hpoint, hdot⟩ := hfirst kind hkind
  have hfound := punctuationAt?_mark hkind hrest
  have hnumber : startsNumber (c :: cs ++ rest) = false := by
    refine Bool.eq_false_iff.mpr fun hstarts => ?_
    obtain hstarts | ⟨hc, hhead⟩ := startsNumber_iff.mp hstarts
    · simp [hdigit] at hstarts
    · obtain rfl := hpoint hc
      obtain rfl := hdot rfl
      obtain ⟨d, hd, hisDigit⟩ := (Option.any_eq_true _ _).mp hhead
      have := hrest d hd
      simp [Kind.fuses, hisDigit] at this
  rw [htext] at hfound ⊢
  rw [List.cons_append] at hfound hnumber ⊢
  simp [lexemeAt, hquote, hnumber, hname, markLexeme, hfound, htext]

theorem lexemeAt_word (h : word.Genuine) (hapart : word.Apart rest) (pos : Nat) :
    lexemeAt pos (word.text.toList ++ rest) =
      ⟨word.kind, word.value, word.text.toList, rest, []⟩ := by
  cases h with
  | name hc hname =>
    rw [Word.apart_iff_of_name (by exact ofWord?_getD _)] at hapart
    simpa using lexemeAt_name hc hname hapart pos
  | number hnumeral hstarts =>
    obtain ⟨hrest, hpoint⟩ := hapart
    simpa using lexemeAt_number hnumeral hstarts hrest (by simpa using hpoint) pos
  | string hquote hclosed hcooked => simpa using lexemeAt_string hquote hclosed hcooked pos
  | mark hkind =>
    rw [Word.apart_iff_of_mark (by exact hkind)] at hapart
    exact lexemeAt_mark hkind hapart pos

theorem skipTrivia_lineBreak (gap : Gap) (pos : Nat) (a b : Bool) (cs : List Char) :
    { skipTrivia gap pos a cs with lineBreak := true } =
      { skipTrivia gap pos b cs with lineBreak := true } := by
  fun_induction skipTrivia gap pos a cs generalizing b with
  | case1 pos a cs ih => exact ih b
  | case2 pos a cs ih => exact ih b
  | case3 pos a c cs hline hblock hbreak ih =>
    rw [skipTrivia, if_pos hbreak]
    · exact hline
    · exact hblock
  | case4 pos a c cs hline hblock hbreak hblank ih =>
    rw [skipTrivia, if_neg hbreak, if_pos hblank]
    · exact ih b
    · exact hline
    · exact hblock
  | case5 pos a c cs hline hblock hbreak hblank =>
    rw [skipTrivia, if_neg hbreak, if_neg hblank]
    · exact hline
    · exact hblock
  | case6 pos a c cs hbreak ih => rw [skipTrivia, if_pos hbreak]
  | case7 pos a c cs hbreak ih =>
    rw [skipTrivia, if_neg hbreak]
    exact ih b
  | case8 start pos a cs ih => exact ih b
  | case9 start pos a c cs hend ih =>
    rw [skipTrivia]
    · exact ih _
    · exact hend
  | case10 => rfl
  | case11 gap pos a hgap =>
    cases gap with
    | blockComment start => exact absurd rfl (hgap start)
    | blank | lineComment => rfl

theorem skipTrivia_stop {c : Char} (hbreak : isLineBreak c = false)
    (hblank : isInlineBlank c = false)
    (hcomment : c = '/' → cs.head? ≠ some '/' ∧ cs.head? ≠ some '*') :
    skipTrivia .blank pos lineBreak (c :: cs) = ⟨pos, lineBreak, c :: cs, none⟩ := by
  rw [skipTrivia.eq_def]
  split <;> simp_all

theorem skipTrivia_word (h : word.Genuine) (hapart : word.Apart rest) :
    skipTrivia .blank pos lineBreak (word.text.toList ++ rest) =
      ⟨pos, lineBreak, word.text.toList ++ rest, none⟩ := by
  cases h with
  | @name c cs hc hname =>
    obtain ⟨hbreak, hblank⟩ := @not_gap_of_isNamePart c (by simp [isNamePart, hc])
    rw [String.toList_ofList, List.cons_append]
    refine skipTrivia_stop hbreak hblank ?_
    rintro rfl
    exact absurd hc (by decide)
  | @number text hnumeral hstarts =>
    cases text with
    | nil => cases hstarts
    | cons c cs =>
      rw [String.toList_ofList, List.cons_append]
      obtain hdigit | ⟨rfl, -⟩ := startsNumber_iff.mp hstarts
      · obtain ⟨hbreak, hblank⟩ :=
          not_gap_of_isNamePart (isNamePart_of_isHexDigit (isHexDigit_of_isDigit hdigit))
        refine skipTrivia_stop hbreak hblank ?_
        rintro rfl
        exact absurd hdigit (by decide)
      · exact skipTrivia_stop (by decide) (by decide) fun h => absurd h (by decide)
  | string hquote =>
    rw [String.toList_ofList, List.cons_append, List.cons_append]
    obtain rfl | rfl := hquote
    · exact skipTrivia_stop (by decide) (by decide) fun h => absurd h (by decide)
    · exact skipTrivia_stop (by decide) (by decide) fun h => absurd h (by decide)
  | @mark kind hkind =>
    have hfirst : ∀ kind ∈ Kind.punctuation, ∃ c cs, kind.spelling.toList = c :: cs ∧
        isLineBreak c = false ∧ isInlineBlank c = false ∧ (c = '/' → kind = .divide ∧ cs = [] ∨
          cs.head? ≠ some '/' ∧ cs.head? ≠ some '*' ∧ cs ≠ []) := by
      intro kind hkind
      refine ⟨kind.spelling.toList.headD ' ', kind.spelling.toList.tail, ?_⟩
      revert kind
      decide
    obtain ⟨c, cs, htext, hbreak, hblank, hslash⟩ := hfirst kind hkind
    rw [Word.apart_iff_of_mark (by exact hkind)] at hapart
    change skipTrivia .blank pos lineBreak (kind.spelling.toList ++ rest) =
      ⟨pos, lineBreak, kind.spelling.toList ++ rest, none⟩
    rw [htext, List.cons_append]
    refine skipTrivia_stop hbreak hblank fun hc => ?_
    obtain ⟨rfl, rfl⟩ | ⟨hline, hblock, hne⟩ := hslash hc
    · constructor
      · intro hhead
        have := hapart '/' hhead
        exact absurd this (by decide)
      · intro hhead
        have := hapart '*' hhead
        exact absurd this (by decide)
    · obtain ⟨d, ds, rfl⟩ := List.exists_cons_of_ne_nil hne
      exact ⟨hline, hblock⟩

theorem next_word (h : word.Genuine) (hapart : word.Apart rest) :
    next pos (word.text.toList ++ rest) = (⟨word.kind, pos, pos + byteLength word.text.toList,
      word.value, word.text, false, []⟩, rest) := by
  simp [next, skipTrivia_word h hapart, lexemeAt_word h hapart]

theorem next_blank : next pos (' ' :: cs) = next (pos + 1) cs := by
  have hskip : skipTrivia .blank pos false (' ' :: cs) = skipTrivia .blank (pos + 1) false cs := by
    rw [skipTrivia.eq_def]
    simp [isLineBreak, isInlineBlank, isBlank, blankRanges, Ranges.has]
    rfl
  simp only [next, hskip]

theorem next_line : ∃ token rest, next pos ('\n' :: cs) = (token, rest) ∧
    next (pos + 1) cs = ({ token with lineBreakBefore := (next (pos + 1) cs).1.lineBreakBefore }, rest)
    := by
  have hskip : skipTrivia .blank pos false ('\n' :: cs) = skipTrivia .blank (pos + 1) true cs := by
    rw [skipTrivia.eq_def]
    simp [isLineBreak]
    rfl
  have hsame := skipTrivia_lineBreak .blank (pos + 1) true false cs
  simp only [Trivia.mk.injEq, true_and] at hsame
  refine ⟨_, _, rfl, ?_⟩
  simp only [next, hskip, hsame]

theorem Word.Genuine.text_ne_nil (h : word.Genuine) : word.text.toList ≠ [] := by
  cases h with
  | name => simp
  | number _ hstarts =>
    rw [String.toList_ofList]
    rintro rfl
    cases hstarts
  | string => simp
  | @mark kind hkind =>
    have hne : ∀ kind ∈ Kind.punctuation, kind.spelling.toList ≠ [] := by decide
    exact hne kind hkind

theorem Word.Genuine.kind_ne (h : word.Genuine) : word.kind ≠ .endOfFile := by
  cases h with
  | @name c cs =>
    intro hkind
    dsimp only at hkind
    have hnamed := ofWord?_getD (String.ofList (c :: cs))
    rw [hkind] at hnamed
    exact absurd hnamed (by decide)
  | number | string => nofun
  | @mark kind hkind =>
    rintro rfl
    exact absurd hkind (by decide)

def isDivider (c : Char) : Bool :=
  !isNamePart c && c != '.' && c != '/' && c != '*' &&
    Kind.punctuation.all fun kind => !kind.spelling.toList.tail.contains c

/-- Marks that no character makes another mark of. -/
def Kind.isWhole (kind : Kind) : Bool :=
  punctuation.contains kind && kind != .dot && kind != .divide && punctuation.all fun longer =>
    longer == kind || !kind.spelling.toList.isPrefixOf longer.spelling.toList

theorem Kind.not_fuses_of_isWhole {kind : Kind} (h : kind.isWhole) (c : Char) :
    kind.fuses c = false := by
  simp only [isWhole, Bool.and_eq_true, bne_iff_ne, ne_eq, List.all_eq_true, Bool.or_eq_true,
    beq_iff_eq, Bool.not_eq_true'] at h
  obtain ⟨⟨⟨-, hdot⟩, hdivide⟩, hlonger⟩ := h
  refine Bool.eq_false_iff.mpr fun hfuses => ?_
  simp only [fuses, Bool.or_eq_true, List.any_eq_true, Bool.and_eq_true, beq_iff_eq, hdot, hdivide,
    false_and, or_false] at hfuses
  obtain ⟨longer, hmem, hleads⟩ := hfuses
  have hleads := List.isPrefixOf_iff_prefix.mp hleads
  obtain rfl | hnot := hlonger longer hmem
  · have := hleads.length_le
    simp only [List.length_append, List.length_singleton] at this
    omega
  · have : kind.spelling.toList.isPrefixOf longer.spelling.toList :=
      List.isPrefixOf_iff_prefix.mpr ((List.prefix_append _ _).trans hleads)
    rw [hnot] at this
    cases this

theorem Kind.fuses_eq_false {kind : Kind} {c : Char} (hkind : kind ∈ punctuation)
    (hc : isDivider c) : kind.fuses c = false := by
  simp only [isDivider, Bool.and_eq_true, Bool.not_eq_true', bne_iff_ne, ne_eq,
    List.all_eq_true] at hc
  obtain ⟨⟨⟨⟨hpart, -⟩, hslash⟩, hstar⟩, htails⟩ := hc
  have hdigit : c.isDigit = false := by
    refine Bool.eq_false_iff.mpr fun hdigit => ?_
    have := isNamePart_of_isHexDigit (isHexDigit_of_isDigit hdigit)
    rw [hpart] at this
    cases this
  refine Bool.eq_false_iff.mpr fun hfuses => ?_
  simp only [fuses, Bool.or_eq_true, List.any_eq_true, Bool.and_eq_true, beq_iff_eq, hdigit, hslash,
    hstar, Bool.false_eq_true, and_false, or_false] at hfuses
  obtain ⟨longer, hmem, hleads⟩ := hfuses
  obtain ⟨more, hmore⟩ := List.isPrefixOf_iff_prefix.mp hleads
  have hne : ∀ kind ∈ punctuation, kind.spelling.toList ≠ [] := by decide
  obtain ⟨first, others, hfirst⟩ := List.exists_cons_of_ne_nil (hne kind hkind)
  have hnot := htails longer hmem
  rw [← hmore, hfirst] at hnot
  simp at hnot

theorem Word.Genuine.apart_divider (h : word.Genuine) {c : Char} (hc : isDivider c)
    (cs : List Char) : word.Apart (c :: cs) := by
  have hstops : Stops isNamePart (c :: cs) := by
    intro d hd
    cases hd
    simp only [isDivider, Bool.and_eq_true, Bool.not_eq_true'] at hc
    exact hc.1.1.1.1
  cases h with
  | name => rwa [Word.apart_iff_of_name (by exact ofWord?_getD _)]
  | number =>
    refine ⟨hstops, fun _ hpoint => ?_⟩
    cases hpoint
    exact absurd hc (by decide)
  | string => trivial
  | mark hkind =>
    rw [Word.apart_iff_of_mark (by exact hkind)]
    intro d hd
    cases hd
    exact Kind.fuses_eq_false hkind hc

theorem Word.Genuine.apart_nil (h : word.Genuine) : word.Apart [] := by
  cases h with
  | name =>
    rw [Word.apart_iff_of_name (by exact ofWord?_getD _)]
    exact .nil
  | number => exact ⟨.nil, nofun⟩
  | string => trivial
  | mark hkind =>
    rw [Word.apart_iff_of_mark (by exact hkind)]
    exact .nil

theorem Word.apart_of_isWhole (h : word.kind.isWhole) (rest : List Char) : word.Apart rest := by
  have hmem : word.kind ∈ Kind.punctuation := by
    simp only [Kind.isWhole, Bool.and_eq_true, List.contains_iff_mem] at h
    exact h.1.1.1
  rw [Word.apart_iff_of_mark hmem]
  exact fun c _ => Kind.not_fuses_of_isWhole h c

theorem skipTrivia_le (gap : Gap) (pos : Nat) (lineBreak : Bool) (cs : List Char) :
    pos ≤ (skipTrivia gap pos lineBreak cs).fin := by
  fun_induction skipTrivia gap pos lineBreak cs <;> first | exact Nat.le_refl _ | omega

theorem lexemeAt_text_ne_nil (pos : Nat) (c : Char) (cs : List Char) :
    (lexemeAt pos (c :: cs)).text ≠ [] := by
  rw [lexemeAt]
  split
  · simp [stringLexeme]
  split
  · rename_i hnumber
    intro hnone
    have := startsNumber_number hnumber
    rw [show (number (c :: cs)).1 = [] from hnone] at this
    cases this
  split
  · rename_i hname
    have hpart : isNamePart c := by simp [isNamePart, hname]
    simp [nameLexeme, run, hpart]
  · simp only [markLexeme]
    split
    · rename_i kind hfound
      have hne : ∀ kind ∈ Kind.punctuation, kind.spelling.toList ≠ [] := by decide
      exact hne kind (List.mem_of_find?_eq_some hfound)
    · simp

theorem byteLength_pos {cs : List Char} (h : cs ≠ []) : 0 < byteLength cs := by
  obtain ⟨c, cs, rfl⟩ := List.exists_cons_of_ne_nil h
  have := c.utf8Size_pos
  simp only [byteLength_cons]
  omega

theorem next_rising (pos : Nat) (cs : List Char) : pos ≤ (next pos cs).1.start ∧
    ((next pos cs).1.kind ≠ .endOfFile → (next pos cs).1.start < (next pos cs).1.fin) := by
  refine ⟨skipTrivia_le .blank pos false cs, fun hkind => ?_⟩
  simp only [next] at hkind ⊢
  cases hrest : (skipTrivia .blank pos false cs).rest with
  | nil =>
    rw [hrest] at hkind
    exact absurd rfl hkind
  | cons c others =>
    exact Nat.lt_add_of_pos_right (byteLength_pos (lexemeAt_text_ne_nil _ c others))

theorem listFrom_rising (count pos : Nat) (cs : List Char) :
    (∀ token ∈ listFrom count pos cs, pos ≤ token.start) ∧
      ((listFrom count pos cs).map Token.start).Pairwise (· < ·) := by
  induction count generalizing pos cs with
  | zero => exact ⟨nofun, .nil⟩
  | succ count ih =>
    obtain ⟨hstart, hfin⟩ := next_rising pos cs
    rw [listFrom_succ]
    split
    · simpa using hstart
    · rename_i hend
      have hfin := hfin (by simpa using hend)
      obtain ⟨hall, hpairs⟩ := ih (next pos cs).1.fin (next pos cs).2
      constructor
      · intro token hmem
        obtain rfl | hmem := List.mem_cons.mp hmem
        · exact hstart
        · have := hall token hmem
          omega
      · refine List.pairwise_cons.mpr ⟨fun start hmem => ?_, hpairs⟩
        obtain ⟨token, htoken, rfl⟩ := List.mem_map.mp hmem
        exact Nat.lt_of_lt_of_le hfin (hall token htoken)

theorem list_rising (text : String) : ((list text).map Token.start).Pairwise (· < ·) :=
  (listFrom_rising _ _ _).2

end ArrayLoops.Token

namespace ArrayLoops.Grammar

open Token (Kind Word)

def StartsLine (ws : List Spelling) : Prop := ∀ word ∈ ws.head?, word.joined = false

/-- The characters are those of the words, with blanks and ends of lines between them. -/
inductive Written : List Char → List Spelling → Prop where
  | nil : Written [] []
  | blank {cs : List Char} {ws : List Spelling} : Written cs ws → Written (' ' :: cs) ws
  | line {cs : List Char} {ws : List Spelling} : Written cs ws → StartsLine ws →
    Written ('\n' :: cs) ws
  | word {cs : List Char} {ws : List Spelling} {word : Word} {joined : Bool} :
    word.Genuine → word.Apart cs → Written cs ws →
    Written (word.text.toList ++ cs) (⟨word, joined⟩ :: ws)

namespace Written

variable {cs : List Char} {ws : List Spelling} {word : Spelling}

theorem spells (h : Written cs ws) {count : Nat} (hcount : cs.length < count) (pos : Nat) :
    SpellAll (Token.listFrom count pos cs) (ws ++ [.endOfFile]) := by
  induction h generalizing count pos with
  | nil =>
    obtain ⟨count, rfl⟩ := Nat.exists_eq_succ_of_ne_zero (Nat.ne_of_gt hcount)
    exact .cons ⟨rfl, nofun, rfl⟩ .nil
  | @blank cs ws _ ih =>
    obtain ⟨count, rfl⟩ := Nat.exists_eq_succ_of_ne_zero (Nat.ne_zero_of_lt hcount)
    have hsame : Token.listFrom (count + 1) pos (' ' :: cs) =
        Token.listFrom (count + 1) (pos + 1) cs := by
      rw [Token.listFrom_succ, Token.listFrom_succ, Token.next_blank]
    rw [Nat.succ_eq_add_one, hsame]
    exact ih (Nat.lt_of_succ_lt hcount) _
  | @line cs ws _ hline ih =>
    obtain ⟨count, rfl⟩ := Nat.exists_eq_succ_of_ne_zero (Nat.ne_zero_of_lt hcount)
    obtain ⟨token, rest, htoken, hsame⟩ := @Token.next_line cs pos
    have hrest := ih (Nat.lt_of_succ_lt hcount) (pos + 1)
    rw [Token.listFrom_succ, hsame] at hrest
    rw [Token.listFrom_succ, htoken]
    -- The token is the one behind the end of the line, but for what it says of line breaks.
    have hfirst : ∀ spelling : Spelling, spelling.joined = false →
        Spells { token with lineBreakBefore := (Token.next (pos + 1) cs).1.lineBreakBefore }
          spelling → Spells token spelling :=
      fun spelling hjoined hspells => ⟨hspells.word, by simp [hjoined], hspells.quiet⟩
    cases ws with
    | nil =>
      split
      · rename_i hend
        rw [if_pos hend] at hrest
        cases hrest with
        | cons hspells hnone => exact .cons (hfirst _ rfl hspells) hnone
      · rename_i hend
        rw [if_neg hend] at hrest
        cases hrest with
        | cons hspells hnone => exact .cons (hfirst _ rfl hspells) hnone
    | cons word ws =>
      split
      · rename_i hend
        rw [if_pos hend] at hrest
        cases hrest with
        | cons hspells hmore => exact .cons (hfirst _ (hline word rfl) hspells) hmore
      · rename_i hend
        rw [if_neg hend] at hrest
        cases hrest with
        | cons hspells hmore => exact .cons (hfirst _ (hline word rfl) hspells) hmore
  | @word cs ws word joined hgenuine hapart _ ih =>
    obtain ⟨count, rfl⟩ := Nat.exists_eq_succ_of_ne_zero (Nat.ne_zero_of_lt hcount)
    have hnext := @Token.next_word word cs pos hgenuine hapart
    have hlength : cs.length < count := by
      have hshorter := @Token.next_length _ _ (by rw [hnext]; exact hgenuine.kind_ne)
      rw [hnext] at hshorter
      exact Nat.lt_of_lt_of_le hshorter (Nat.le_of_lt_succ hcount)
    rw [Token.listFrom_succ, hnext, if_neg (by simpa using hgenuine.kind_ne)]
    exact .cons ⟨rfl, fun _ => rfl, rfl⟩ (ih hlength _)

theorem unjoin (h : Written cs (word.join :: ws)) : Written cs (word :: ws) := by
  generalize hwords : word.join :: ws = words at h
  induction h with
  | nil => cases hwords
  | blank _ ih => exact .blank (ih hwords)
  | line _ hline ih =>
    subst hwords
    exact absurd (hline _ rfl) nofun
  | word hgenuine hapart hrest _ =>
    cases hwords
    exact .word hgenuine hapart hrest

theorem head (h : Written cs (word :: ws)) : ∃ c others, cs = c :: others ∧
    (c = ' ' ∨ c = '\n' ∨ word.1.text.toList.head? = some c) := by
  cases h with
  | blank => exact ⟨_, _, rfl, .inl rfl⟩
  | line => exact ⟨_, _, rfl, .inr (.inl rfl)⟩
  | word hgenuine _ _ =>
    obtain ⟨c, others, htext⟩ := List.exists_cons_of_ne_nil hgenuine.text_ne_nil
    exact ⟨c, others ++ _, by rw [htext, List.cons_append], .inr (.inr (by rw [htext]; rfl))⟩

end Written

end ArrayLoops.Grammar
