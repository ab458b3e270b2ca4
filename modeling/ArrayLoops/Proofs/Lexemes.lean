import ArrayLoops.Token.Lexer

/-!
# Lexemes

Which words a text can have, and what may follow a word so that it is read as this word. A name ends
before a character that is no part of a name, and so does a number; after a number of digits alone no
point may follow, as this would belong to it. A string ends with its quote. A mark ends where no longer
mark begins with it.
-/

namespace ArrayLoops.Token

open Text

def Stops (p : Char → Bool) (cs : List Char) : Prop := ∀ c ∈ cs.head?, p c = false

variable {p q : Char → Bool} {cs word rest : List Char}

theorem Stops.nil : Stops p [] := nofun

theorem Stops.mono (h : Stops q cs) (hpq : ∀ c, p c → q c) : Stops p cs := by
  intro c hc
  cases hp : p c with
  | false => rfl
  | true => exact absurd (hpq c hp) (by simp [h c hc])

theorem Stops.ne {c d : Char} (h : Stops p (c :: cs)) (hd : p d) : c ≠ d := by
  rintro rfl
  exact absurd hd (by simp [h c rfl])

theorem run_append (hword : ∀ c ∈ word, p c) (hrest : Stops p rest) :
    run p (word ++ rest) = (word, rest) := by
  have hnone : rest.takeWhile p = [] ∧ rest.dropWhile p = rest := by
    cases rest with
    | nil => exact ⟨rfl, rfl⟩
    | cons c cs => simp [hrest c rfl]
  rw [run, List.takeWhile_append_of_pos hword, List.dropWhile_append_of_pos hword, hnone.1, hnone.2,
    List.append_nil]

theorem run_fst_all (p : Char → Bool) (cs : List Char) : ∀ c ∈ (run p cs).1, p c :=
  List.all_eq_true.mp List.all_takeWhile

theorem run_fst_append_snd (p : Char → Bool) (cs : List Char) :
    (run p cs).1 ++ (run p cs).2 = cs := List.takeWhile_append_dropWhile

theorem isNamePart_of_isHexDigit {c : Char} (h : isHexDigit c) : isNamePart c := by
  have hrange : (48 ≤ c.toNat ∧ c.toNat ≤ 57 ∨ 97 ≤ c.toNat ∧ c.toNat ≤ 102) ∨
      65 ≤ c.toNat ∧ c.toNat ≤ 70 := by
    simp only [isHexDigit, Char.isDigit, Bool.or_eq_true, Bool.and_eq_true, decide_eq_true_eq,
      Char.le_def, UInt32.le_iff_toNat_le] at h
    exact h
  have hsmall : c.toNat < 128 := by omega
  have hletter : c.isAlpha ↔ (65 ≤ c.toNat ∧ c.toNat ≤ 90) ∨ (97 ≤ c.toNat ∧ c.toNat ≤ 122) := by
    change (decide ('A'.val ≤ c.val ∧ c.val ≤ 'Z'.val) ||
      decide ('a'.val ≤ c.val) && decide (c.val ≤ 'z'.val)) = true ↔ _
    simp only [Bool.or_eq_true, Bool.and_eq_true, decide_eq_true_eq, UInt32.le_iff_toNat_le]
    exact Iff.rfl
  simp only [isNamePart, isNameStart, isNumeric, isAlphabetic, hsmall, if_true, Char.isDigit,
    Bool.or_eq_true, hletter, Bool.and_eq_true, decide_eq_true_eq, UInt32.le_iff_toNat_le, ge_iff_le]
  change (_ ∨ (65 ≤ c.toNat ∧ c.toNat ≤ 90) ∨ (97 ≤ c.toNat ∧ c.toNat ≤ 122)) ∨
    48 ≤ c.toNat ∧ c.toNat ≤ 57
  omega

theorem isHexDigit_of_isDigit {c : Char} (h : c.isDigit) : isHexDigit c := by
  simp [isHexDigit, h]

theorem Stops.isDigit (h : Stops isNamePart cs) : Stops Char.isDigit cs :=
  h.mono fun _ hc => isNamePart_of_isHexDigit (isHexDigit_of_isDigit hc)

/-- A point with digits, or nothing. -/
inductive Fraction : List Char → Prop where
  | none : Fraction []
  | some {digits : List Char} : (∀ c ∈ digits, c.isDigit) → Fraction ('.' :: digits)

/-- An exponent with at least one digit, or nothing. -/
inductive Exponent : List Char → Prop where
  | none : Exponent []
  | some {e : Char} {sign digits : List Char} : e = 'e' ∨ e = 'E' →
    sign = [] ∨ sign = ['+'] ∨ sign = ['-'] → digits ≠ [] → (∀ c ∈ digits, c.isDigit) →
    Exponent (e :: sign ++ digits)

inductive Numeral : List Char → Prop where
  | hex {x : Char} {digits : List Char} : x = 'x' ∨ x = 'X' → (∀ c ∈ digits, isHexDigit c) →
    Numeral ('0' :: x :: digits)
  | decimal {whole part power : List Char} : (∀ c ∈ whole, c.isDigit) → Fraction part →
    Exponent power → Numeral (whole ++ part ++ power)

theorem fraction_append {part : List Char} (h : Fraction part)
    (hrest : part ≠ [] → Stops Char.isDigit rest) (hpoint : part = [] → rest.head? ≠ some '.') :
    fraction (part ++ rest) = (part, rest) := by
  cases h with
  | none =>
    rw [List.nil_append, fraction.eq_def]
    split
    · simp at hpoint
    · rfl
  | some hdigits =>
    rw [List.cons_append, fraction, run_append hdigits (hrest nofun)]

theorem fraction_form (cs : List Char) :
    Fraction (fraction cs).1 ∧ (fraction cs).1 ++ (fraction cs).2 = cs := by
  rw [fraction.eq_def]
  split
  · exact ⟨.some (run_fst_all _ _), congrArg ('.' :: ·) (run_fst_append_snd _ _)⟩
  · exact ⟨.none, rfl⟩

theorem exponent_append {power : List Char} (h : Exponent power) (hrest : Stops isNamePart rest) :
    exponent (power ++ rest) = (power, rest) := by
  cases h with
  | none =>
    cases rest with
    | nil => rfl
    | cons c cs =>
      have he : c ≠ 'e' := hrest.ne (by decide)
      have hE : c ≠ 'E' := hrest.ne (by decide)
      simp [exponent, he, hE]
  | @some e signs digits he hsign hne hdigits =>
    have he : (e == 'e' || e == 'E') = true := by simpa using he
    obtain ⟨first, others, rfl⟩ := List.exists_cons_of_ne_nil hne
    have hplus : first ≠ '+' := fun h => absurd (hdigits first List.mem_cons_self) (h ▸ by decide)
    have hminus : first ≠ '-' := fun h => absurd (hdigits first List.mem_cons_self) (h ▸ by decide)
    have hsigned : sign (signs ++ first :: others ++ rest) = (signs, first :: others ++ rest) := by
      rcases hsign with rfl | rfl | rfl <;> simp [sign, hplus, hminus]
    have hrun := run_append hdigits hrest.isDigit
    rw [List.cons_append, List.cons_append, exponent]
    simp only [he, if_true, hsigned, hrun]
    simp

theorem sign_form (cs : List Char) :
    ((sign cs).1 = [] ∨ (sign cs).1 = ['+'] ∨ (sign cs).1 = ['-']) ∧
      (sign cs).1 ++ (sign cs).2 = cs := by
  rw [sign.eq_def]
  split
  · split
    · rename_i h
      exact ⟨by simpa using h, rfl⟩
    · exact ⟨.inl rfl, rfl⟩
  · exact ⟨.inl rfl, rfl⟩

theorem exponent_form (cs : List Char) :
    Exponent (exponent cs).1 ∧ (exponent cs).1 ++ (exponent cs).2 = cs := by
  cases cs with
  | nil => exact ⟨.none, rfl⟩
  | cons e cs =>
    rw [exponent]
    split
    · rename_i he
      obtain ⟨hsign, hunsigned⟩ := sign_form cs
      generalize sign cs = signed at hsign hunsigned
      obtain ⟨signs, unsigned⟩ := signed
      have hall := run_fst_all Char.isDigit unsigned
      have hdigits := run_fst_append_snd Char.isDigit unsigned
      dsimp only at hsign hunsigned ⊢
      generalize run Char.isDigit unsigned = result at hall hdigits
      obtain ⟨digits, rest⟩ := result
      cases digits with
      | nil => exact ⟨.none, rfl⟩
      | cons first others =>
        refine ⟨.some (by simpa using he) hsign nofun hall, ?_⟩
        simp [← hunsigned, ← hdigits]
    · exact ⟨.none, rfl⟩

theorem decimal_append {whole part power : List Char} (hwhole : ∀ c ∈ whole, c.isDigit)
    (hpart : Fraction part) (hpower : Exponent power) (hrest : Stops isNamePart rest)
    (hpoint : part = [] → power = [] → rest.head? ≠ some '.') :
    number.decimal (whole ++ part ++ power ++ rest) = (whole ++ part ++ power, rest) := by
  have hexponent := exponent_append hpower hrest
  have hpower' : Stops Char.isDigit (power ++ rest) ∧
      (power ≠ [] → (power ++ rest).head? ≠ some '.') := by
    cases hpower with
    | none => exact ⟨hrest.isDigit, by simp⟩
    | some he =>
      rcases he with rfl | rfl
      · exact ⟨fun c hc => by cases hc; rfl, fun _ => by simp⟩
      · exact ⟨fun c hc => by cases hc; rfl, fun _ => by simp⟩
  have hfraction : fraction (part ++ (power ++ rest)) = (part, power ++ rest) := by
    refine fraction_append hpart (fun _ => hpower'.1) fun hnone => ?_
    by_cases hp : power = []
    · subst hp
      exact hpoint hnone rfl
    · exact hpower'.2 hp
  have hrun : run Char.isDigit (whole ++ (part ++ (power ++ rest))) =
      (whole, part ++ (power ++ rest)) := by
    refine run_append hwhole ?_
    cases hpart with
    | none => exact hpower'.1
    | some => exact fun c hc => by cases hc; rfl
  rw [number.decimal, List.append_assoc, List.append_assoc, hrun]
  simp only [hfraction, hexponent, List.append_assoc]

theorem decimal_form (cs : List Char) : ∃ whole part power, (∀ c ∈ whole, c.isDigit) ∧
    Fraction part ∧ Exponent power ∧ (number.decimal cs).1 = whole ++ part ++ power ∧
    (number.decimal cs).1 ++ (number.decimal cs).2 = cs := by
  have hwhole := run_fst_append_snd Char.isDigit cs
  have hpart := fraction_form (run Char.isDigit cs).2
  have hpower := exponent_form (fraction (run Char.isDigit cs).2).2
  refine ⟨_, _, _, run_fst_all Char.isDigit cs, hpart.1, hpower.1, rfl, ?_⟩
  simp only [number.decimal, List.append_assoc, hpower.2, hpart.2, hwhole]

theorem numeral_number (cs : List Char) :
    Numeral (number cs).1 ∧ (number cs).1 ++ (number cs).2 = cs := by
  have hdecimal : Numeral (number.decimal cs).1 ∧
      (number.decimal cs).1 ++ (number.decimal cs).2 = cs := by
    obtain ⟨whole, part, power, hwhole, hpart, hpower, heq, hsum⟩ := decimal_form cs
    exact ⟨heq ▸ .decimal hwhole hpart hpower, hsum⟩
  rw [number.eq_def]
  split
  · split
    · rename_i x rest hx
      refine ⟨.hex (by simpa using hx) (run_fst_all _ _), ?_⟩
      simp [run_fst_append_snd]
    · exact hdecimal
  · exact hdecimal

theorem not_mem_decimal {whole part power : List Char} {x : Char} (hx : x = 'x' ∨ x = 'X')
    (hwhole : ∀ c ∈ whole, c.isDigit) (hpart : Fraction part) (hpower : Exponent power) :
    x ∉ whole ++ part ++ power := by
  have hdigit : ∀ digits : List Char, (∀ c ∈ digits, c.isDigit) → x ∉ digits := by
    intro digits hdigits hmem
    have := hdigits x hmem
    rcases hx with rfl | rfl <;> exact absurd this (by decide)
  intro hmem
  rw [List.mem_append, List.mem_append] at hmem
  obtain (hmem | hmem) | hmem := hmem
  · exact hdigit whole hwhole hmem
  · cases hpart with
    | none => cases hmem
    | some hdigits =>
      obtain rfl | hmem := List.mem_cons.mp hmem
      · simp at hx
      · exact hdigit _ hdigits hmem
  · cases hpower with
    | none => cases hmem
    | some he hsign _ hdigits =>
      rw [List.cons_append, List.mem_cons, List.mem_append] at hmem
      obtain rfl | hmem | hmem := hmem
      · rcases he with rfl | rfl <;> simp at hx
      · rcases hsign with rfl | rfl | rfl
        · cases hmem
        · obtain rfl := List.mem_singleton.mp hmem
          simp at hx
        · obtain rfl := List.mem_singleton.mp hmem
          simp at hx
      · exact hdigit _ hdigits hmem

theorem number_append {text : List Char} (h : Numeral text) (hne : text ≠ [])
    (hrest : Stops isNamePart rest) (hpoint : text.all Char.isDigit → rest.head? ≠ some '.') :
    number (text ++ rest) = (text, rest) := by
  cases h with
  | @hex x digits hx hdigits =>
    have hrun := run_append hdigits (hrest.mono fun _ => isNamePart_of_isHexDigit)
    rcases hx with rfl | rfl <;> simp [number, hrun]
  | @decimal whole part power hwhole hpart hpower =>
    have hdecimal : number.decimal (whole ++ part ++ power ++ rest) =
        (whole ++ part ++ power, rest) := by
      refine decimal_append hwhole hpart hpower hrest ?_
      rintro rfl rfl
      exact hpoint (by simpa using hwhole)
    have hx : ∀ x others, whole ++ part ++ power ++ rest = '0' :: x :: others →
        (x == 'x' || x == 'X') = false := by
      intro x others heq
      refine Bool.eq_false_iff.mpr fun hx => ?_
      have hx : x = 'x' ∨ x = 'X' := by simpa using hx
      have hmem := not_mem_decimal hx hwhole hpart hpower
      obtain ⟨first, more, hcons⟩ := List.exists_cons_of_ne_nil hne
      rw [hcons] at heq hmem
      cases more with
      | nil =>
        obtain ⟨-, rfl⟩ : first = '0' ∧ rest = x :: others := by simpa using heq
        rcases hx with rfl | rfl <;> exact absurd (hrest _ rfl) (by decide)
      | cons second more =>
        obtain ⟨-, rfl, -⟩ : first = '0' ∧ second = x ∧ more ++ rest = others := by simpa using heq
        simp at hmem
    rw [number.eq_def, ← hdecimal]
    split
    · rename_i x others heq
      rw [hx x others heq]
      rfl
    · rfl

def Closed (quote : Char) (body : List Char) : Prop :=
  ∀ rest, stringBody quote (body ++ quote :: rest) = (body, quote :: rest, true)

theorem stringBody_closed {quote : Char} (hquote : quote = '"' ∨ quote = '\'') (cs : List Char) :
    (stringBody quote cs).2.2 = true → Closed quote (stringBody quote cs).1 ∧
      ∃ rest, (stringBody quote cs).2.1 = quote :: rest ∧
        cs = (stringBody quote cs).1 ++ quote :: rest := by
  fun_induction stringBody quote cs with
  | case1 => nofun
  | case2 c cs body rest closed heq ih =>
    intro hclosed
    rw [heq] at ih
    obtain ⟨hbody, rest, hrest, hcs⟩ := ih hclosed
    refine ⟨fun others => ?_, rest, hrest, ?_⟩
    · simp [stringBody, hbody others]
    · simp [hcs]
  | case3 c cs hc heq =>
    intro _
    obtain rfl : c = quote := by simpa using heq
    refine ⟨fun others => ?_, cs, rfl, rfl⟩
    rcases hquote with rfl | rfl <;> simp [stringBody]
  | case4 => nofun
  | case5 c cs hc hne hbreak body rest closed heq ih =>
    intro hclosed
    rw [heq] at ih
    obtain ⟨hbody, rest, hrest, hcs⟩ := ih hclosed
    have hslash : c ≠ '\\' := by
      rintro rfl
      cases cs with
      | nil => cases heq; cases hclosed
      | cons d ds => exact hc d ds rfl rfl
    refine ⟨fun others => ?_, rest, hrest, ?_⟩
    · have := hbody others
      rw [List.cons_append, stringBody.eq_def]
      split
      · simp_all
      · simp_all
      · rename_i heq'
        cases heq'
        simp [hne, hbreak, this]
    · simp [hcs]

structure Cooking.Alike (k l : Cooking) : Prop where
  state : k.state = l.state ∨
    ∃ start other digits code, k.state = .hex start digits code ∧ l.state = .hex other digits code
  value : k.value = l.value
  complaints : k.complaints.length = l.complaints.length

namespace Cooking.Alike

variable {k l : Cooking}

theorem closeHex (hvalue : k.value = l.value)
    (hcomplaints : k.complaints.length = l.complaints.length) (start other digits code : Nat) :
    Alike (k.closeHex start digits code) (l.closeHex other digits code) := by
  simp only [Cooking.closeHex]
  split
  · exact ⟨.inl rfl, congrArg (_ :: ·) hvalue, hcomplaints⟩
  · exact ⟨.inl rfl, hvalue, by simp [hcomplaints]⟩

theorem plain (h : Alike k l) (c : Char) (pos other : Nat) :
    Alike { k.plain c with pos } { l.plain c with pos := other } := by
  simp only [Cooking.plain]
  split
  · exact ⟨.inl rfl, h.value, h.complaints⟩
  · exact ⟨.inl rfl, congrArg (_ :: ·) h.value, h.complaints⟩

theorem step (h : Alike k l) (c : Char) : Alike (k.step c) (l.step c) := by
  -- A numeric escape goes on, ends, or is broken off.
  have hhex : ∀ start other digits code, k.state = .hex start digits code →
      l.state = .hex other digits code → Alike (k.step c) (l.step c) := by
    intro start other digits code hk hl
    simp only [Cooking.step, hk, hl]
    split
    · split
      · exact closeHex (by exact h.value) (by exact h.complaints) ..
      · exact ⟨.inr ⟨_, _, _, _, rfl, rfl⟩, h.value, h.complaints⟩
    · exact plain (closeHex h.value h.complaints ..) ..
  obtain hstate | ⟨start, other, digits, code, hk, hl⟩ := h.state
  · cases hk : k.state with
    | outside =>
      simp only [Cooking.step, hk, ← hstate]
      exact h.plain ..
    | backslash =>
      simp only [Cooking.step, hk, ← hstate]
      split
      · exact ⟨.inr ⟨_, _, _, _, rfl, rfl⟩, h.value, h.complaints⟩
      · split
        · exact ⟨.inl rfl, h.value, h.complaints⟩
        · exact ⟨.inl rfl, congrArg (_ :: ·) h.value, h.complaints⟩
    | hex start digits code => exact hhex start start digits code hk (hstate ▸ hk)
  · exact hhex start other digits code hk hl

theorem foldl (h : Alike k l) (body : List Char) :
    Alike (body.foldl Cooking.step k) (body.foldl Cooking.step l) := by
  induction body generalizing k l with
  | nil => exact h
  | cons c cs ih => exact ih (h.step c)

theorem finish (h : Alike k l) : Alike k.finish l.finish := by
  obtain hstate | ⟨start, other, digits, code, hk, hl⟩ := h.state
  · cases hk : k.state with
    | outside | backslash =>
      simp only [Cooking.finish, hk, ← hstate]
      exact h
    | hex start digits code =>
      simp only [Cooking.finish, hk, ← hstate]
      exact closeHex h.value h.complaints ..
  · simp only [Cooking.finish, hk, hl]
    exact closeHex h.value h.complaints ..

theorem ofBody (pos other : Nat) (body : List Char) :
    Alike (Cooking.ofBody pos body) (Cooking.ofBody other body) :=
  (foldl (k := start pos) (l := start other) ⟨.inl rfl, rfl, rfl⟩ body).finish

end Cooking.Alike

/-- The words that a text can have. -/
inductive Word.Genuine : Word → Prop where
  | name {c : Char} {cs : List Char} : isNameStart c → (∀ c ∈ cs, isNamePart c) →
    Genuine ⟨(Kind.ofWord? (String.ofList (c :: cs))).getD .identifier, String.ofList (c :: cs),
      String.ofList (c :: cs)⟩
  | number {text : List Char} : Numeral text → startsNumber text →
    Genuine ⟨.number, String.ofList text, String.ofList text⟩
  | string {quote : Char} {body : List Char} : quote = '"' ∨ quote = '\'' → Closed quote body →
    (Cooking.ofBody 0 body).complaints = [] →
    Genuine ⟨.string, String.ofList (Cooking.ofBody 0 body).value.reverse,
      String.ofList (quote :: body ++ [quote])⟩
  | mark {kind : Kind} : kind ∈ Kind.punctuation → Genuine ⟨kind, "", kind.spelling⟩

def Kind.fuses (kind : Kind) (c : Char) : Bool :=
  punctuation.any (fun longer => (kind.spelling.toList ++ [c]).isPrefixOf longer.spelling.toList) ||
    (kind == .dot && c.isDigit) || (kind == .divide && (c == '/' || c == '*'))

def Word.Apart (word : Word) (rest : List Char) : Prop :=
  match word.kind with
  | .string => True
  | .number =>
    Stops isNamePart rest ∧ (word.text.toList.all Char.isDigit → rest.head? ≠ some '.')
  | kind =>
    if kind = .identifier ∨ kind.isReservedWord then Stops isNamePart rest
    else Stops kind.fuses rest

theorem startsNumber_of_leading {text : List Char} (h : startsNumber text) (rest : List Char) :
    startsNumber (text ++ rest) := by
  cases text with
  | nil => cases h
  | cons c cs =>
    cases cs with
    | nil =>
      have hc : c.isDigit = true := by simpa [startsNumber] using h
      simp [startsNumber, hc]
    | cons d ds => exact h

theorem startsNumber_iff {c : Char} {cs : List Char} :
    startsNumber (c :: cs) ↔ c.isDigit ∨ c = '.' ∧ cs.head?.any Char.isDigit := by
  simp [startsNumber]

theorem genuine_stringLexeme {pos : Nat} {quote : Char} (hquote : quote = '"' ∨ quote = '\'')
    (h : (stringLexeme pos quote cs).complaints = []) :
    Word.Genuine ⟨.string, (stringLexeme pos quote cs).value,
        String.ofList (stringLexeme pos quote cs).text⟩ ∧
      (stringLexeme pos quote cs).text ++ (stringLexeme pos quote cs).rest = quote :: cs := by
  have hclosed := stringBody_closed hquote cs
  simp only [stringLexeme] at h ⊢
  generalize stringBody quote cs = result at h hclosed
  obtain ⟨body, rest, closed⟩ := result
  obtain ⟨hcooked, hend⟩ := List.append_eq_nil_iff.mp h
  cases closed with
  | false => cases hend
  | true =>
    obtain ⟨hbody, others, hothers, hcs⟩ := hclosed rfl
    have halike := Cooking.Alike.ofBody 0 (pos + quote.utf8Size) body
    have hzero : (Cooking.ofBody 0 body).complaints = [] := by
      have := halike.complaints
      rw [hcooked] at this
      exact List.length_eq_zero_iff.mp this
    refine ⟨?_, ?_⟩
    · rw [← halike.value]
      exact .string hquote hbody hzero
    · obtain rfl : rest = quote :: others := hothers
      simp [hcs]

theorem genuine_nameLexeme {c : Char} (hc : isNameStart c) :
    Word.Genuine ⟨(nameLexeme (c :: cs)).kind, (nameLexeme (c :: cs)).value,
        String.ofList (nameLexeme (c :: cs)).text⟩ ∧
      (nameLexeme (c :: cs)).text ++ (nameLexeme (c :: cs)).rest = c :: cs := by
  have hpart : isNamePart c := by simp [isNamePart, hc]
  have hrun : run isNamePart (c :: cs) = (c :: cs.takeWhile isNamePart, cs.dropWhile isNamePart) := by
    simp [run, hpart]
  simp only [nameLexeme, hrun]
  exact ⟨.name hc (List.all_eq_true.mp List.all_takeWhile),
    congrArg (c :: ·) List.takeWhile_append_dropWhile⟩

theorem startsNumber_decimal (h : startsNumber cs) : startsNumber (number.decimal cs).1 := by
  cases cs with
  | nil => cases h
  | cons c cs =>
    obtain hc | ⟨rfl, hdigit⟩ := startsNumber_iff.mp h
    · simp [number.decimal, run, hc, startsNumber]
    · cases cs with
      | nil => cases hdigit
      | cons d ds =>
        have hd : d.isDigit = true := by simpa using hdigit
        have hpoint : Char.isDigit '.' = false := by decide
        simp [number.decimal, run, fraction, hpoint, hd, startsNumber]

theorem startsNumber_number (h : startsNumber cs) : startsNumber (number cs).1 := by
  rw [number.eq_def]
  split
  · split
    · simp [startsNumber]
    · exact startsNumber_decimal h
  · exact startsNumber_decimal h

theorem genuine_numberLexeme (h : startsNumber cs) :
    Word.Genuine ⟨.number, (numberLexeme cs).value, String.ofList (numberLexeme cs).text⟩ ∧
      (numberLexeme cs).text ++ (numberLexeme cs).rest = cs := by
  obtain ⟨hnumeral, hsum⟩ := numeral_number cs
  exact ⟨.number hnumeral (startsNumber_number h), hsum⟩

theorem genuine_markLexeme {pos : Nat} {c : Char}
    (h : (markLexeme pos c cs).complaints = []) :
    Word.Genuine ⟨(markLexeme pos c cs).kind, (markLexeme pos c cs).value,
        String.ofList (markLexeme pos c cs).text⟩ ∧
      (markLexeme pos c cs).text ++ (markLexeme pos c cs).rest = c :: cs := by
  simp only [markLexeme] at h ⊢
  cases hfound : punctuationAt? (c :: cs) with
  | none =>
    rw [hfound] at h
    cases h
  | some kind =>
    have hfits := List.find?_some (p := fun kind : Kind => kind.spelling.toList.isPrefixOf (c :: cs)) hfound
    have hleading : kind.spelling.toList <+: c :: cs := List.isPrefixOf_iff_prefix.mp hfits
    dsimp only
    rw [String.ofList_toList]
    refine ⟨.mark (List.mem_of_find?_eq_some hfound), ?_⟩
    exact (List.prefix_iff_eq_append.mp hleading)

theorem genuine_lexemeAt {pos : Nat} (h : (lexemeAt pos cs).complaints = []) (hne : cs ≠ []) :
    Word.Genuine ⟨(lexemeAt pos cs).kind, (lexemeAt pos cs).value,
      String.ofList (lexemeAt pos cs).text⟩ := by
  cases cs with
  | nil => exact absurd rfl hne
  | cons c cs =>
    rw [lexemeAt] at h ⊢
    split at h
    · rename_i hquote
      rw [if_pos hquote]
      exact (genuine_stringLexeme (by simpa using hquote) h).1
    · rename_i hquote
      rw [if_neg hquote]
      split at h
      · rename_i hnumber
        rw [if_pos hnumber]
        exact (genuine_numberLexeme hnumber).1
      · rename_i hnumber
        rw [if_neg hnumber]
        split at h
        · rename_i hname
          rw [if_pos hname]
          exact (genuine_nameLexeme hname).1
        · rename_i hname
          rw [if_neg hname]
          exact (genuine_markLexeme h).1

theorem skipTrivia_length (gap : Gap) (pos : Nat) (lineBreak : Bool) (cs : List Char) :
    (skipTrivia gap pos lineBreak cs).rest.length ≤ cs.length := by
  fun_induction skipTrivia gap pos lineBreak cs <;> simp_all <;> omega

theorem stringBody_length (quote : Char) (cs : List Char) :
    (stringBody quote cs).2.1.length ≤ cs.length := by
  fun_induction stringBody quote cs <;> simp_all <;> omega

theorem lexemeAt_length (pos : Nat) (c : Char) (cs : List Char) :
    (lexemeAt pos (c :: cs)).rest.length ≤ cs.length := by
  rw [lexemeAt]
  split
  · have := stringBody_length c cs
    simp only [stringLexeme]
    generalize stringBody c cs = result at this
    obtain ⟨body, rest, closed⟩ := result
    dsimp only at this ⊢
    split
    · simp only [List.length_drop]
      omega
    · exact this
  split
  · rename_i hnumber
    have hlength := congrArg List.length (numeral_number (c :: cs)).2
    have hne : (number (c :: cs)).1 ≠ [] := by
      intro hnone
      have := startsNumber_number hnumber
      rw [hnone] at this
      cases this
    have := List.length_pos_iff.mpr hne
    simp only [List.length_append, List.length_cons] at hlength
    change (number (c :: cs)).2.length ≤ _
    omega
  split
  · rename_i hname
    have hpart : isNamePart c := by simp [isNamePart, hname]
    simp only [nameLexeme, run, List.dropWhile_cons, hpart, if_true]
    exact (List.dropWhile_suffix _).length_le
  · simp only [markLexeme]
    split
    · rename_i kind hfound
      have hne : kind.spelling.toList ≠ [] := by
        have : ∀ kind ∈ Kind.punctuation, kind.spelling.toList ≠ [] := by decide
        exact this kind (List.mem_of_find?_eq_some hfound)
      have := List.length_pos_iff.mpr hne
      simp only [List.length_drop, List.length_cons]
      omega
    · exact Nat.le_refl _

variable {count pos : Nat} {token : Token}

theorem genuine_next (hcomplaints : (next pos cs).1.complaints = [])
    (hkind : (next pos cs).1.kind ≠ .endOfFile) : (next pos cs).1.word.Genuine := by
  refine genuine_lexemeAt (List.append_eq_nil_iff.mp hcomplaints).2 fun hnone => ?_
  simp only [next, hnone, lexemeAt] at hkind
  exact hkind rfl

theorem next_length (hkind : (next pos cs).1.kind ≠ .endOfFile) :
    (next pos cs).2.length < cs.length := by
  have hgap := skipTrivia_length .blank pos false cs
  simp only [next] at hkind ⊢
  cases hrest : (skipTrivia .blank pos false cs).rest with
  | nil =>
    rw [hrest] at hkind
    exact absurd rfl hkind
  | cons c others =>
    have := lexemeAt_length (skipTrivia .blank pos false cs).fin c others
    rw [hrest, List.length_cons] at hgap
    omega

theorem listFrom_succ (count pos : Nat) (cs : List Char) : listFrom (count + 1) pos cs =
    if (next pos cs).1.kind == .endOfFile then [(next pos cs).1]
    else (next pos cs).1 :: listFrom count (next pos cs).1.fin (next pos cs).2 := rfl

/-- Every word of a text that is not complained about is genuine. -/
theorem genuine_of_mem_listFrom (h : token ∈ listFrom count pos cs)
    (hcomplaints : token.complaints = []) (hkind : token.kind ≠ .endOfFile) :
    token.word.Genuine := by
  induction count generalizing pos cs with
  | zero => cases h
  | succ count ih =>
    rw [listFrom_succ] at h
    split at h
    · obtain rfl := List.mem_singleton.mp h
      exact genuine_next hcomplaints hkind
    · obtain rfl | h := List.mem_cons.mp h
      · exact genuine_next hcomplaints hkind
      · exact ih h

theorem listFrom_getLast? (h : cs.length < count) :
    (listFrom count pos cs).getLast?.map (·.kind) = some .endOfFile := by
  induction count generalizing pos cs with
  | zero => cases h
  | succ count ih =>
    rw [listFrom_succ]
    split
    · rename_i hend
      simpa using hend
    · rename_i hend
      have hlength : (next pos cs).2.length < cs.length := next_length (by simpa using hend)
      have hrest := @ih (next pos cs).2 (next pos cs).1.fin (by omega)
      cases hlist : listFrom count (next pos cs).1.fin (next pos cs).2 with
      | nil =>
        rw [hlist] at hrest
        cases hrest
      | cons first others =>
        rw [hlist] at hrest
        exact hrest

end ArrayLoops.Token
