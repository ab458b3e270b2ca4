import ArrayLoops.Proofs.Ranges
import ArrayLoops.Token.Cursor

/-!
# Every cut is between two characters

The scanner that works by byte offsets finds the tokens that are read from the characters, so no cut
that it makes fails. All its offsets have whole characters before them: it moves by the size of a
character that it has seen, and it jumps over two characters of one byte or back to an offset where
it has been.
-/

namespace ArrayLoops.Token.Cursor

open Text

/-- What is behind the offset, which is not inside a character. -/
def At (text : List Char) (pos : Nat) (cs : List Char) : Prop :=
  ∃ before, text = before ++ cs ∧ pos = byteLength before

theorem splitAt?_append (before behind : List Char) :
    splitAt? (before ++ behind) (byteLength before) = some (before, behind) := by
  induction before with
  | nil => cases behind <;> rfl
  | cons c before ih =>
    have hpos := c.utf8Size_pos
    obtain ⟨less, hless⟩ : ∃ less, byteLength (c :: before) = less + 1 :=
      Nat.exists_eq_add_one.mpr (Nat.add_pos_left hpos _)
    have hrest : less + 1 - c.utf8Size = byteLength before := by
      rw [← hless, byteLength_cons, Nat.add_sub_cancel_left]
    have hfits : c.utf8Size ≤ less + 1 := hless ▸ Nat.le_add_right _ _
    rw [hless, List.cons_append, splitAt?, if_pos hfits, hrest, ih]
    rfl

variable {text cs word rest : List Char} {pos fuel : Nat} {c : Char}

namespace At

theorem behind (h : At text pos cs) (hcs : word ++ rest = cs) :
    At text (pos + byteLength word) rest := by
  obtain ⟨before, rfl, rfl⟩ := h
  exact ⟨before ++ word, by simp [← hcs], (byteLength_append before word).symm⟩

theorem tail (h : At text pos (c :: cs)) : At text (pos + c.utf8Size) cs := 
  h.behind (show [c] ++ cs = c :: cs from rfl)

theorem peekAt_eq (h : At text pos cs) (index : Nat) : peekAt text pos index = some cs[index]? := by
  obtain ⟨before, rfl, rfl⟩ := h
  simp [peekAt, splitAt?_append]

theorem bump_eq (h : At text pos (c :: cs)) : bump text pos = some (pos + c.utf8Size) := by
  simp [bump, h.peekAt_eq]

theorem slice?_eq (h : At text pos cs) (hcs : word ++ rest = cs) :
    slice? text pos (pos + byteLength word) = some word := by
  obtain ⟨before, rfl, rfl⟩ := h
  have hfin := splitAt?_append (before ++ word) rest
  rw [byteLength_append, List.append_assoc, hcs] at hfin
  simp [slice?, hfin, splitAt?_append]

theorem length_le (h : At text pos cs) : cs.length ≤ text.length := by
  obtain ⟨before, rfl, rfl⟩ := h
  simp

end At

theorem bumpTimes_eq (h : At text pos (word ++ rest)) :
    bumpTimes text word.length pos = some (pos + byteLength word) := by
  induction word generalizing pos with
  | nil => rfl
  | cons c word ih =>
    have htail : At text (pos + c.utf8Size) (word ++ rest) := h.tail
    simp [bumpTimes, At.bump_eq h, ih htail, Nat.add_assoc]

theorem bumpWhile_eq (p : Char → Bool) (h : At text pos cs) (hfuel : cs.length < fuel) :
    bumpWhile text p fuel pos = some (pos + byteLength (run p cs).1) := by
  induction fuel generalizing pos cs with
  | zero => exact absurd hfuel (Nat.not_lt_zero _)
  | succ fuel ih =>
    cases cs with
    | nil => simp [bumpWhile, h.peekAt_eq, run]
    | cons c cs =>
      have htail := ih h.tail (Nat.lt_of_succ_lt_succ hfuel)
      cases hc : p c with
      | false => simp [bumpWhile, h.peekAt_eq, run, hc]
      | true => simp [bumpWhile, h.peekAt_eq, hc, htail, run, Nat.add_assoc]

theorem fraction_eq (h : At text pos cs) (hfuel : cs.length < fuel) :
    fraction text fuel pos = some (pos + byteLength (Token.fraction cs).1) := by
  cases cs with
  | nil => simp [fraction, h.peekAt_eq, Token.fraction]
  | cons c cs =>
    have htail := bumpWhile_eq Char.isDigit h.tail (Nat.lt_of_succ_lt hfuel)
    by_cases hc : c = '.'
    · subst hc
      simp [fraction, h.peekAt_eq, h.bump_eq, htail, Token.fraction, Nat.add_assoc]
    · simp [fraction, h.peekAt_eq, hc, Token.fraction]

theorem sign_eq (h : At text pos cs) : sign text pos = some (pos + byteLength (Token.sign cs).1) := by
  cases cs with
  | nil => simp [sign, h.peekAt_eq, Token.sign]
  | cons c cs => by_cases hc : c = '+' ∨ c = '-' <;> simp [sign, h.peekAt_eq, h.bump_eq, hc, Token.sign]

theorem exponent_eq (h : At text pos cs) (hfuel : cs.length < fuel) :
    exponent text fuel pos = some (pos + byteLength (Token.exponent cs).1) := by
  cases cs with
  | nil => simp [exponent, h.peekAt_eq, Token.exponent]
  | cons e cs =>
    by_cases he : e = 'e' ∨ e = 'E'
    · have hsign := sign_eq h.tail
      have hsum := (sign_form cs).2
      have hunsigned := h.tail.behind hsum
      have hlength : (Token.sign cs).2.length < fuel := by
        have := congrArg List.length hsum
        simp only [List.length_append, List.length_cons] at this hfuel
        omega
      have hdigits := bumpWhile_eq Char.isDigit hunsigned hlength
      cases hrest : (Token.sign cs).2 with
      | nil => simp [exponent, h.peekAt_eq, h.bump_eq, he, hsign, hunsigned.peekAt_eq, hrest, Token.exponent, run]
      | cons d others =>
        rw [hrest] at hdigits
        cases hd : d.isDigit with
        | false =>
          simp [exponent, h.peekAt_eq, h.bump_eq, he, hsign, hunsigned.peekAt_eq, hrest, hd, Token.exponent, run]
        | true =>
          simp [exponent, h.peekAt_eq, h.bump_eq, he, hsign, hunsigned.peekAt_eq, hrest, hd, hdigits,
            Token.exponent, run]
          omega
    · simp [exponent, h.peekAt_eq, he, Token.exponent]

theorem number_eq (h : At text pos cs) (hfuel : cs.length < fuel) :
    number text fuel pos = some (pos + byteLength (Token.number cs).1) := by
  have hdecimal : (do exponent text fuel (← fraction text fuel (← bumpWhile text Char.isDigit fuel pos))) =
      some (pos + byteLength (number.decimal cs).1) := by
    have hwhole := h.behind (run_fst_append_snd Char.isDigit cs)
    have hpart := hwhole.behind (fraction_form _).2
    have hshort := (run_fst_append_snd Char.isDigit cs) ▸ hfuel
    have hshorter := congrArg List.length (fraction_form (run Char.isDigit cs).2).2
    simp only [List.length_append] at hshort hshorter
    simp only [bumpWhile_eq Char.isDigit h hfuel, Option.bind_eq_bind, Option.bind_some]
    rw [fraction_eq hwhole (by omega), Option.bind_some, exponent_eq hpart (by omega)]
    simp [number.decimal, Nat.add_assoc]
  by_cases hhex : cs[0]? = some '0' ∧ cs[1]?.any fun x => x == 'x' || x == 'X'
  · obtain ⟨rest, rfl⟩ := List.head?_eq_some_iff.mp (List.head?_eq_getElem?.trans hhex.1)
    cases rest with
    | nil => simp at hhex
    | cons x rest =>
      have hx : (x == 'x' || x == 'X') = true := by simpa using hhex
      have hshort : rest.length < fuel := Nat.lt_of_succ_lt (Nat.lt_of_succ_lt hfuel)
      have hx1 : x.utf8Size = 1 := by
        rcases Bool.or_eq_true_iff.mp hx with hx | hx <;> rw [beq_iff_eq.mp hx] <;> rfl
      have hdigits := bumpWhile_eq isHexDigit h.tail.tail hshort
      rw [hx1] at hdigits
      have htwo : pos + '0'.utf8Size + 1 = pos + 2 := rfl
      rw [htwo] at hdigits
      simp [number, h.peekAt_eq, hx, hdigits, Token.number, hx1]
      omega
  · have hplain : Token.number cs = number.decimal cs := by
      unfold Token.number
      split
      · rw [if_neg (by simpa using hhex)]
      · rfl
    rw [hplain, ← hdecimal, number]
    simp [h.peekAt_eq, hhex]

/-- The characters that are left of a string, by where its escapes have come. -/
def leftOf (quote : Char) : EscapeState → List Char → List Char × List Char × Bool
  | .backslash, c :: cs =>
    let (body, rest, closed) := stringBody quote cs
    (c :: body, rest, closed)
  | _, cs => stringBody quote cs

theorem leftOf_of_ne {quote : Char} {state : EscapeState} (h : state ≠ .backslash) :
    leftOf quote state cs = stringBody quote cs := by
  cases state with
  | backslash => exact absurd rfl h
  | _ => rfl

theorem closeHex_state (k : Cooking) (start digits code : Nat) :
    (k.closeHex start digits code).state = .outside := by
  unfold Cooking.closeHex
  split <;> rfl

/-- Where a numeric escape ends, the string goes on as if the escape had ended before. -/
theorem finish_foldl {k : Cooking} {body : List Char} (h : Stops isHexDigit body) :
    (body.foldl Cooking.step k.finish).finish = (body.foldl Cooking.step k).finish := by
  unfold Cooking.finish
  cases hstate : k.state with
  | outside | backslash => rfl
  | hex start digits code =>
    have hclosed := closeHex_state k start digits code
    cases body with
    | nil => simp [hstate, hclosed]
    | cons c body =>
      have hstep : (k.closeHex start digits code).step c = k.step c := by
        simp [Cooking.step, hstate, hclosed, Cooking.closeHex_pos, h c rfl]
      rw [List.foldl_cons, List.foldl_cons, hstep]

theorem isLineBreak_of_isHexDigit (h : isHexDigit c) : isLineBreak c = false := by
  refine Bool.eq_false_iff.mpr fun hline => ?_
  simp only [isLineBreak, Bool.or_eq_true, beq_iff_eq] at hline
  obtain ((rfl | rfl) | hline) | hline := hline
  · cases h
  · cases h
  · obtain rfl : c = '\u2028' := Char.ext (UInt32.toNat_inj.mp hline)
    cases h
  · obtain rfl : c = '\u2029' := Char.ext (UInt32.toNat_inj.mp hline)
    cases h

theorem stringBody_pass {quote : Char} (hslash : c ≠ '\\') (hquote : c ≠ quote)
    (hline : isLineBreak c = false) :
    stringBody quote (c :: cs) = (c :: (stringBody quote cs).1, (stringBody quote cs).2) := by
  simp [stringBody, hslash, hquote, hline]

theorem inString_eq {quote : Char} (hquote : quote = '"' ∨ quote = '\'') {k : Cooking}
    (h : At text pos cs) (hfuel : 2 * cs.length < fuel)
    (hhex : ∀ start digits code, k.state = .hex start digits code → 2 * cs.length + 1 < fuel) :
    inString text quote fuel pos k =
      let (body, _, closed) := leftOf quote k.state cs
      some (pos + byteLength (body ++ if closed then [quote] else []), (body.foldl Cooking.step k).finish, closed) := by
  induction fuel generalizing pos cs k with
  | zero => exact absurd hfuel (Nat.not_lt_zero _)
  | succ fuel ih =>
    cases cs with
    | nil =>
      have hnone : leftOf quote k.state [] = ([], [], false) := by cases k.state <;> rfl
      simp [inString, h.peekAt_eq, hnone]
    | cons c cs =>
      rw [List.length_cons] at hfuel
      have htail := ih (k := k.step c) h.tail (by omega) fun _ _ _ _ => by omega
      have hquoted : quote ≠ '\\' := by rcases hquote with rfl | rfl <;> decide
      cases hstate : k.state with
      | backslash =>
        have hnext : (k.step c).state ≠ .backslash := by
          simp only [Cooking.step, hstate]
          split
          · simp
          · split <;> simp
        rw [leftOf_of_ne hnext] at htail
        simp [inString, h.peekAt_eq, hstate, htail, leftOf, Nat.add_assoc]
      | hex start digits code =>
        cases hc : isHexDigit c with
        | true =>
          have hnext : (k.step c).state ≠ .backslash := by
            simp only [Cooking.step, hstate, hc, if_true]
            split
            · simp [closeHex_state]
            · simp
          have hslash : c ≠ '\\' := by rintro rfl; cases hc
          have hother : c ≠ quote := by rcases hquote with rfl | rfl <;> rintro rfl <;> cases hc
          have hline := isLineBreak_of_isHexDigit hc
          rw [leftOf_of_ne hnext] at htail
          simp [inString, h.peekAt_eq, hstate, hc, htail, leftOf, stringBody_pass hslash hother hline, Nat.add_assoc]
        | false =>
          have hfinish : k.finish.state = .outside := by simp [Cooking.finish, hstate, closeHex_state]
          have hmore := hhex start digits code hstate
          have hsame := ih (k := k.finish) h (by rw [List.length_cons] at *; omega) (by simp [hfinish])
          have hstop : Stops isHexDigit (stringBody quote (c :: cs)).1 := by
            have hsum := stringBody_append quote (c :: cs)
            cases hbody : (stringBody quote (c :: cs)).1 with
            | nil => exact .nil
            | cons d body =>
              rw [hbody] at hsum
              obtain rfl := (List.cons.inj hsum).1
              exact fun _ hd => Option.some.inj hd ▸ hc
          have hturn : inString text quote (fuel + 1) pos k = inString text quote fuel pos k.finish := by
            simp [inString, h.peekAt_eq, hstate, hc]
          rw [hturn, hsame, hfinish]
          simp only [leftOf, finish_foldl hstop]
          rfl
      | outside =>
        have hfinish : k.finish = k := by simp [Cooking.finish, hstate]
        by_cases hc : c = quote
        · subst hc
          simp [inString, h.peekAt_eq, hstate, leftOf, stringBody, hquoted, hfinish]
        cases hline : isLineBreak c with
        | true =>
          have hslash : c ≠ '\\' := by rintro rfl; cases hline
          simp [inString, h.peekAt_eq, hstate, leftOf, stringBody, hslash, hc, hline, hfinish]
        | false =>
          by_cases hslash : c = '\\'
          · subst hslash
            have hnext : (k.step '\\').state = .backslash := by simp [Cooking.step, hstate, Cooking.plain]
            rw [hnext] at htail
            cases cs with
            | nil => simpa [inString, h.peekAt_eq, hstate, hc, hline, leftOf, stringBody] using htail
            | cons d cs => simp [inString, h.peekAt_eq, hstate, hc, hline, htail, leftOf, stringBody, Nat.add_assoc]
          · have hnext : (k.step c).state ≠ .backslash := by simp [Cooking.step, hstate, Cooking.plain, hslash]
            rw [leftOf_of_ne hnext] at htail
            simp [inString, h.peekAt_eq, hstate, hc, hline, htail, leftOf, stringBody_pass hslash hc hline,
              Nat.add_assoc]

theorem not_ahead {first second : Char} (h : ∀ others, c = first → cs = second :: others → False) :
    ¬ (c = first ∧ cs[0]? = some second) := by
  rintro ⟨hc, hcs⟩
  obtain ⟨others, hothers⟩ := List.head?_eq_some_iff.mp (List.head?_eq_getElem?.trans hcs)
  exact h others hc hothers

theorem skip_eq {gap : Gap} {lineBreak : Bool} (h : At text pos cs) (hfuel : 2 * cs.length + 1 < fuel) :
    skip text fuel gap pos lineBreak = some ((skipTrivia gap pos lineBreak cs).fin,
      (skipTrivia gap pos lineBreak cs).lineBreak, (skipTrivia gap pos lineBreak cs).unclosed) := by
  have hslash : '/'.utf8Size = 1 := rfl
  have hstar : '*'.utf8Size = 1 := rfl
  have hmark : isLineBreak '/' = false ∧ isLineBreak '*' = false ∧ isInlineBlank '/' = false := by decide
  fun_induction skipTrivia gap pos lineBreak cs generalizing fuel with
  | case1 pos lineBreak cs ih =>
    simp only [List.length_cons] at hfuel
    obtain ⟨fuel, rfl⟩ : ∃ less, fuel = less + 3 := ⟨fuel - 3, by omega⟩
    have hsecond := h.tail
    have hthird := hsecond.tail
    rw [hslash] at hsecond hthird
    simp [skip, h.peekAt_eq, hsecond.peekAt_eq, hmark, hslash]
    exact ih hthird (by omega)
  | case2 pos lineBreak cs ih =>
    simp only [List.length_cons] at hfuel
    obtain ⟨fuel, rfl⟩ : ∃ less, fuel = less + 1 := ⟨fuel - 1, by omega⟩
    simp [skip, h.peekAt_eq, hmark]
    exact ih h.tail.tail (by omega)
  | case3 pos lineBreak c cs _ _ hc ih =>
    simp only [List.length_cons] at hfuel
    obtain ⟨fuel, rfl⟩ : ∃ less, fuel = less + 1 := ⟨fuel - 1, by omega⟩
    simp [skip, h.peekAt_eq, hc]
    exact ih h.tail (by omega)
  | case4 pos lineBreak c cs _ _ hc hblank ih =>
    simp only [List.length_cons] at hfuel
    obtain ⟨fuel, rfl⟩ : ∃ less, fuel = less + 1 := ⟨fuel - 1, by omega⟩
    simp [skip, h.peekAt_eq, hc, hblank]
    exact ih h.tail (by omega)
  | case5 pos lineBreak c cs hline hblock hc hblank =>
    obtain ⟨fuel, rfl⟩ : ∃ less, fuel = less + 1 := ⟨fuel - 1, by omega⟩
    simp [skip, h.peekAt_eq, hc, hblank, not_ahead hline, not_ahead hblock]
  | case6 pos lineBreak c cs hc ih =>
    simp only [List.length_cons] at hfuel
    obtain ⟨fuel, rfl⟩ : ∃ less, fuel = less + 2 := ⟨fuel - 2, by omega⟩
    simp [skip, h.peekAt_eq, hc]
    exact ih h.tail (by omega)
  | case7 pos lineBreak c cs hc ih =>
    simp only [List.length_cons] at hfuel
    obtain ⟨fuel, rfl⟩ : ∃ less, fuel = less + 1 := ⟨fuel - 1, by omega⟩
    simp [skip, h.peekAt_eq, hc]
    exact ih h.tail (by omega)
  | case8 start pos lineBreak cs ih =>
    simp only [List.length_cons] at hfuel
    obtain ⟨fuel, rfl⟩ : ∃ less, fuel = less + 1 := ⟨fuel - 1, by omega⟩
    simp [skip, h.peekAt_eq, h.tail.peekAt_eq, h.tail.bump_eq, hmark]
    exact ih h.tail.tail (by omega)
  | case9 start pos lineBreak c cs hopen ih =>
    simp only [List.length_cons] at hfuel
    obtain ⟨fuel, rfl⟩ : ∃ less, fuel = less + 1 := ⟨fuel - 1, by omega⟩
    cases hc : isLineBreak c with
    | true =>
      rw [hc, Bool.or_true] at ih
      simp [skip, h.peekAt_eq, hc]
      exact ih h.tail (by omega)
    | false =>
      rw [hc, Bool.or_false] at ih
      simp [skip, h.peekAt_eq, h.tail.peekAt_eq, hc, not_ahead hopen]
      exact ih h.tail (by omega)
  | case10 =>
    obtain ⟨fuel, rfl⟩ : ∃ less, fuel = less + 1 := ⟨fuel - 1, by omega⟩
    simp [skip, h.peekAt_eq]
  | case11 gap pos lineBreak hgap =>
    obtain ⟨fuel, rfl⟩ : ∃ less, fuel = less + 2 := ⟨fuel - 2, by omega⟩
    cases gap with
    | blank | lineComment => simp [skip, h.peekAt_eq]
    | blockComment start => exact absurd rfl (hgap start)

theorem punctuationAt?_take (cs : List Char) : punctuationAt? (cs.take 3) = punctuationAt? cs := by
  have hshort : ∀ kind ∈ Kind.punctuation, kind.spelling.toList.length ≤ 3 := by decide
  rw [punctuationAt?, punctuationAt?, ← List.head?_filter, ← List.head?_filter]
  refine congrArg List.head? (List.filter_congr fun kind hkind => ?_)
  rw [Bool.eq_iff_iff, List.isPrefixOf_iff_prefix, List.isPrefixOf_iff_prefix, List.prefix_take_iff]
  exact and_iff_left (hshort kind hkind)

theorem lex_eq (h : At text pos cs) (hfuel : 2 * cs.length < fuel) :
    lex text fuel pos = some ((lexemeAt pos cs).kind, (lexemeAt pos cs).value,
      pos + byteLength (lexemeAt pos cs).text, (lexemeAt pos cs).complaints) := by
  have hlength : cs.length < fuel := by omega
  rw [lex]
  cases cs with
  | nil => simp [h.peekAt_eq, lexemeAt]
  | cons c cs =>
    simp only [h.peekAt_eq, lexemeAt, Option.bind_eq_bind, Option.bind_some, List.getElem?_cons_zero,
      List.getElem?_cons_succ]
    by_cases hquote : (c == '"' || c == '\'') = true
    · have hinside : inString text c fuel (pos + c.utf8Size) (.start (pos + c.utf8Size)) = _ :=
        inString_eq (by simpa using hquote) h.tail (by rw [List.length_cons] at hfuel; omega)
          (by simp [Cooking.start])
      have hleft : leftOf c (Cooking.start (pos + c.utf8Size)).state cs = stringBody c cs := rfl
      rw [hleft] at hinside
      rw [if_pos hquote, if_pos hquote, hinside, stringLexeme]
      generalize stringBody c cs = left
      obtain ⟨body, rest, closed⟩ := left
      cases closed with
      | true => simp [Cooking.ofBody, Nat.add_assoc]
      | false => simp [Cooking.ofBody, Nat.add_assoc]
    have hnumber : (c.isDigit || (c == '.' && cs[0]?.any Char.isDigit)) = startsNumber (c :: cs) := by
      rw [startsNumber, List.head?_eq_getElem?]
    rw [if_neg hquote, if_neg hquote, hnumber]
    split
    · have hslice := h.slice?_eq (numeral_number (c :: cs)).2
      simp [number_eq h hlength, hslice, numberLexeme]
    split
    · have hslice := h.slice?_eq (run_fst_append_snd isNamePart (c :: cs))
      simp [bumpWhile_eq isNamePart h hlength, hslice, nameLexeme]
    · have hahead : c :: (cs[0]?.toList ++ cs[1]?.toList) = (c :: cs).take 3 := by
        rcases cs with _ | ⟨d, _ | ⟨e, cs⟩⟩ <;> rfl
      simp only [h.tail.peekAt_eq, Option.bind_some, hahead, punctuationAt?_take, markLexeme]
      cases hmark : punctuationAt? (c :: cs) with
      | none => simp
      | some kind =>
        have hspelled : ∀ kind ∈ Kind.punctuation, kind.spelling.toList ≠ [] := by decide
        have hsum := markLexeme_append pos c cs
        simp only [markLexeme, hmark] at hsum
        cases hspelling : kind.spelling.toList with
        | nil => exact absurd hspelling (hspelled kind (List.mem_of_find?_eq_some hmark))
        | cons d word =>
          rw [hspelling] at hsum
          obtain ⟨rfl, hcs⟩ := List.cons.inj hsum
          have hlength : kind.spelling.length - 1 = word.length := by
            rw [← String.length_toList, hspelling]
            rfl
          have hword := h.tail
          rw [← hcs] at hword
          simp [hlength, bumpTimes_eq hword, hspelling, Nat.add_assoc]

/-- The scanner by byte offsets makes no cut that fails, and reads the tokens that are there. -/
theorem scan_eq (h : At text pos cs)
    (hgap : At text (skipTrivia .blank pos false cs).fin (skipTrivia .blank pos false cs).rest) :
    scan text pos = some (next pos cs).1 := by
  have hlength := h.length_le
  have hrest := hgap.length_le
  have hskip : skip text (2 * text.length + 2) .blank pos false = _ := skip_eq h (by omega)
  have hlex : lex text (2 * text.length + 2) (skipTrivia .blank pos false cs).fin = _ :=
    lex_eq hgap (by omega)
  have hword := hgap.slice?_eq (lexemeAt_append (skipTrivia .blank pos false cs).fin _)
  rw [scan]
  simp only [hskip, hlex, hword, Option.bind_eq_bind, Option.bind_some, next, Option.pure_def]
  cases (skipTrivia .blank pos false cs).unclosed <;> rfl

end ArrayLoops.Token.Cursor
