import ArrayLoops.Layout.Generated
import ArrayLoops.Proofs.Documents
import ArrayLoops.Proofs.Ranges
import ArrayLoops.Proofs.Snapshots

/-!
# Spelled texts

Marks, reserved words and names that are written with a blank between them are read as they were
meant. A string in quotes is read as one token. It stands for the string if this has no control
characters but tabs and ends of lines: others are written with an `x` and two digits, and read as
these three characters.
-/

namespace ArrayLoops

open Text

namespace Token

/-- A kind that has a spelling, or a name that is not reserved. -/
inductive Spelled where
  | fixed (kind : Kind) (spelled : kind.spelling ≠ "")
  | name (text : String) (isName : isName text = true) (free : Kind.ofWord? text = none)

namespace Spelled

/-- The token that is meant. Marks have no value, reserved words have their text. -/
def word : Spelled → Word
  | .fixed kind _ => ⟨kind, if kind.isReservedWord then kind.spelling else "", kind.spelling⟩
  | .name text _ _ => ⟨.identifier, text, text⟩

theorem genuine_word (spelled : Spelled) : spelled.word.Genuine := by
  cases spelled with
  | fixed kind hspelled =>
    have hsign : ∀ kind : Kind, kind.spelling ≠ "" → Layout.isSign kind := by
      intro kind
      cases kind <;> decide
    exact Layout.genuine_sign (hsign kind hspelled)
  | name text hname hfree =>
    rw [isName] at hname
    split at hname
    · cases hname
    · rename_i c cs htext
      obtain ⟨hc, hcs⟩ : isNameStart c ∧ ∀ c ∈ cs, isNamePart c := by simpa using hname
      have hgenuine := Word.Genuine.name hc hcs
      rwa [← htext, String.ofList_toList, hfree] at hgenuine

def spaced (words : List Spelled) : List Char :=
  words.flatMap fun spelled => ' ' :: spelled.word.text.toList

theorem apart_spaced (spelled : Spelled) (words : List Spelled) : spelled.word.Apart (spaced words) := by
  cases words with
  | nil => exact spelled.genuine_word.apart_nil
  | cons => exact spelled.genuine_word.apart_divider (by decide) _

theorem toList_intercalate (spelled : Spelled) (words : List Spelled) :
    (" ".intercalate ((spelled :: words).map (·.word.text))).toList =
      spelled.word.text.toList ++ spaced words := by
  rw [String.toList_intercalate]
  induction words generalizing spelled with
  | nil => simp [spaced]
  | cons next words ih =>
    have hnext := ih next
    simp only [List.map_cons, List.intercalate_cons_cons] at hnext ⊢
    rw [hnext]
    simp [spaced]

end Spelled

end Token

namespace Scanner

open Token (Spelled)

variable {s : Scanner} {words : List Spelled}

/-- The words are read, then the end of the text, and nothing is complained about. -/
structure Reads (s : Scanner) (words : List Spelled) : Prop where
  read : (s.tokens (words.length + 1)).map Token.word = words.map (·.word) ++ [⟨.endOfFile, "", ""⟩]
  quiet : (s.tokens (words.length + 1)).flatMap (·.complaints) = []

theorem Reads.cons (spelled : Spelled) {pos : Nat} (h : Token.next s.current.fin s.rest =
    Token.next pos (spelled.word.text.toList ++ Spelled.spaced words))
    (hmore : ∀ t : Scanner, t.rest = Spelled.spaced words → Reads t words) :
    Reads s (spelled :: words) := by
  rw [Token.next_word spelled.genuine_word (spelled.apart_spaced words)] at h
  have hword : s.scan.current.word = spelled.word := by simp [scan, h, Token.word]
  have hquiet : s.scan.current.complaints = [] := by simp [scan, h]
  have hreads : Reads s.scan words := hmore s.scan (by simp [scan, h])
  refine ⟨?_, ?_⟩
  · rw [List.length_cons, tokens, List.map_cons, hword, hreads.read]
    rfl
  · rw [List.length_cons, tokens, List.flatMap_cons, hquiet, hreads.quiet]
    rfl

theorem reads_spaced (h : s.rest = Spelled.spaced words) : Reads s words := by
  induction words generalizing s with
  | nil =>
    have hscan : Token.next s.current.fin s.rest =
        (⟨.endOfFile, s.current.fin, s.current.fin, "", "", false, []⟩, []) := by
      rw [h]
      rfl
    exact ⟨by simp [tokens, scan, hscan, Token.word], by simp [tokens, scan, hscan]⟩
  | cons spelled words ih =>
    have hnext : Token.next s.current.fin s.rest = Token.next (s.current.fin + 1)
        (spelled.word.text.toList ++ Spelled.spaced words) := by
      rw [h]
      exact Token.next_blank
    exact .cons spelled hnext fun t ht => ih ht

/-- Words with single blanks between them are read as these words, and then the text ends. -/
theorem spelled_words_read_back (words : List Spelled) :
    let scanner := ofText (" ".intercalate (words.map (·.word.text)))
    (scanner.tokens (words.length + 1)).map Token.word =
        words.map (·.word) ++ [⟨.endOfFile, "", ""⟩] ∧
      (scan^[words.length + 1] scanner).complaints = [] := by
  intro scanner
  have hreads : Reads scanner words := by
    cases words with
    | nil => exact reads_spaced rfl
    | cons spelled words =>
      exact .cons spelled (congrArg (Token.next 0) (Spelled.toList_intercalate spelled words))
        fun t ht => reads_spaced ht
  refine ⟨hreads.read, ?_⟩
  rw [complaints_iterate, hreads.quiet]
  rfl

end Scanner

namespace Token

structure StandsFor (piece value : List Char) : Prop where
  inside : ∀ cs, stringBody '"' (piece ++ cs) = (piece ++ (stringBody '"' cs).1, (stringBody '"' cs).2)
  cooked : ∀ k : Cooking, k.state = .outside →
    (piece.foldl Cooking.step k).state = .outside ∧
      (piece.foldl Cooking.step k).value = value.reverse ++ k.value ∧
      (piece.foldl Cooking.step k).complaints = k.complaints

namespace StandsFor

variable {piece other value more : List Char}

theorem nil : StandsFor [] [] := ⟨fun _ => rfl, fun _ h => ⟨h, rfl, rfl⟩⟩

theorem append (h : StandsFor piece value) (hother : StandsFor other more) :
    StandsFor (piece ++ other) (value ++ more) where
  inside cs := by simp [h.inside, hother.inside]
  cooked k hk := by
    obtain ⟨hstate, hvalue, hquiet⟩ := h.cooked k hk
    obtain ⟨hstate', hvalue', hquiet'⟩ := hother.cooked _ hstate
    rw [List.foldl_append]
    exact ⟨hstate', by simp [hvalue', hvalue], hquiet'.trans hquiet⟩

theorem plain {c : Char} (hquote : c ≠ '"') (hslash : c ≠ '\\') (hbreak : isLineBreak c = false) :
    StandsFor [c] [c] where
  inside cs := by
    rw [List.singleton_append, stringBody.eq_def]
    split
    · simp_all
    · simp_all
    · rename_i heq
      cases heq
      simp [hquote, hbreak]
  cooked k hk := by simp [Cooking.step, hk, Cooking.plain, hslash]

theorem letter {c : Char} (hnumeric : c ≠ 'u') (hbreak : isLineBreak c = false) :
    StandsFor ['\\', c] [Cooking.simpleEscape c] where
  inside cs := by simp [stringBody]
  cooked k hk := by simp [Cooking.step, hk, Cooking.plain, hnumeric, hbreak]

theorem separator {c : Char} (h : c = '8' ∨ c = '9') :
    StandsFor ['\\', 'u', '2', '0', '2', c] [Char.ofNat (0x2020 + hexValue c)] where
  inside cs := by rcases h with rfl | rfl <;> simp [stringBody, isLineBreak]
  cooked k hk := by
    have hdigits : isHexDigit '2' ∧ isHexDigit '0' ∧ isHexDigit c := by
      rcases h with rfl | rfl <;> decide
    have hcode : ((hexValue '2' * 16 + hexValue '0') * 16 + hexValue '2') * 16 + hexValue c =
        0x2020 + hexValue c := rfl
    have hwhole : 0x2020 + hexValue c < 0xD800 := by
      rcases h with rfl | rfl <;> decide
    simp [Cooking.step, hk, Cooking.plain, hdigits, Cooking.closeHex, hcode, hwhole]

end StandsFor

/-- Control characters that have no letter of their own behind a backslash. -/
def isNumbered (c : Char) : Bool := c.toNat < 0x20 && c != '\n' && c != '\r' && c != '\t'

/-- What a character of a string is read as once it was written in quotes. -/
def readBack (c : Char) : List Char :=
  if isNumbered c then ['x', hexDigit (c.toNat / 16), hexDigit (c.toNat % 16)] else [c]

theorem standsFor_hexDigit {n : Nat} (h : n < 16) : StandsFor [hexDigit n] [hexDigit n] := by
  have hdigit : ∀ n < 16, hexDigit n ≠ '"' ∧ hexDigit n ≠ '\\' ∧ isLineBreak (hexDigit n) = false := by
    decide
  obtain ⟨hquote, hslash, hbreak⟩ := hdigit n h
  exact .plain hquote hslash hbreak

theorem standsFor_quotedChar (c : Char) : StandsFor (Layout.quotedChar c) (readBack c) := by
  unfold Layout.quotedChar
  split
  -- Five characters have a letter, two separators a number; the others are numbered or plain.
  · exact .letter (by decide) (by decide)
  · exact .letter (by decide) (by decide)
  · exact .letter (by decide) (by decide)
  · exact .letter (by decide) (by decide)
  · exact .letter (by decide) (by decide)
  · exact .separator (.inl rfl)
  · exact .separator (.inr rfl)
  · rename_i hquote hslash hline hreturn htab hseparator hparagraph
    split
    · rename_i hcontrol
      have hspecial : c ≠ '\n' ∧ c ≠ '\r' ∧ c ≠ '\t' := ⟨hline, hreturn, htab⟩
      have hnumbered : isNumbered c := by simp [isNumbered, hcontrol, hspecial]
      rw [readBack, if_pos hnumbered]
      exact (StandsFor.letter (c := 'x') (by decide) (by decide)).append
        ((standsFor_hexDigit (by omega)).append (standsFor_hexDigit (by omega)))
    · rename_i hcontrol
      have hnumbered : isNumbered c = false := by simp [isNumbered, hcontrol]
      rw [readBack, hnumbered]
      have hpoint : ∀ n, c ≠ Char.ofNat n → c.toNat ≠ n := fun n hne heq =>
        hne (heq ▸ (Char.ofNat_toNat c).symm)
      have hends : c ≠ '\n' ∧ c ≠ '\r' ∧ c.toNat ≠ 0x2028 ∧ c.toNat ≠ 0x2029 :=
        ⟨hline, hreturn, hpoint _ hseparator, hpoint _ hparagraph⟩
      exact .plain hquote hslash (by simp [isLineBreak, hends])

theorem standsFor_quoted (value : List Char) :
    StandsFor (value.flatMap Layout.quotedChar) (value.flatMap readBack) := by
  induction value with
  | nil => exact .nil
  | cons c value ih => exact (standsFor_quotedChar c).append ih

theorem genuine_quoted (value : String) :
    Word.Genuine ⟨.string, String.ofList (value.toList.flatMap readBack), Layout.quoted value⟩ := by
  have hstands := standsFor_quoted value.toList
  have hclosed : Closed '"' (value.toList.flatMap Layout.quotedChar) := by
    intro rest
    rw [hstands.inside]
    simp [stringBody]
  obtain ⟨hstate, hvalue, hquiet⟩ := hstands.cooked (.start 0) rfl
  have hcooked : Cooking.ofBody 0 (value.toList.flatMap Layout.quotedChar) =
      (value.toList.flatMap Layout.quotedChar).foldl Cooking.step (.start 0) := by
    rw [Cooking.ofBody, Cooking.finish, hstate]
  have hgenuine := Word.Genuine.string (.inl rfl) hclosed (by rw [hcooked, hquiet]; rfl)
  rw [hcooked, hvalue] at hgenuine
  simpa [Cooking.start, Layout.quoted] using hgenuine

theorem flatMap_readBack_eq_iff (value : List Char) :
    value.flatMap readBack = value ↔ ∀ c ∈ value, isNumbered c = false := by
  have hlong : ∀ value : List Char, value.length ≤ (value.flatMap readBack).length := by
    intro value
    induction value with
    | nil => exact Nat.le_refl _
    | cons c value ih =>
      rw [List.flatMap_cons, List.length_append, List.length_cons, readBack]
      split <;> simp only [List.length_cons, List.length_nil] <;> omega
  induction value with
  | nil => simp
  | cons c value ih =>
    rw [List.flatMap_cons, List.forall_mem_cons, readBack]
    cases hc : isNumbered c with
    | false => simpa using ih
    | true =>
      refine iff_of_false (fun heq => ?_) (by simp)
      have hlength := congrArg List.length heq
      have := hlong value
      simp only [if_true, List.length_append, List.length_cons, List.length_nil] at hlength
      omega

end Token

namespace Scanner

/-- A string in quotes is read as one token up to the end of the text, without complaints. Its value is
the string exactly if this has no control characters other than tabs and ends of lines. -/
theorem quoted_read_back_iff (value : String) :
    ∃ token, (ofText (Layout.quoted value)).scan = ⟨Layout.quoted value, token, [], []⟩ ∧
      token.kind = .string ∧ token.start = 0 ∧ token.fin = (Layout.quoted value).utf8ByteSize ∧
      token.value = String.ofList (value.toList.flatMap Token.readBack) ∧
      (token.value = value ↔ ∀ c ∈ value.toList, Token.isNumbered c = false) := by
  have hnext := @Token.next_word _ [] 0 (Token.genuine_quoted value) trivial
  rw [List.append_nil, Text.byteLength_toList, Nat.zero_add] at hnext
  have hvalue : String.ofList (value.toList.flatMap Token.readBack) = value ↔
      ∀ c ∈ value.toList, Token.isNumbered c = false := by
    rw [← Token.flatMap_readBack_eq_iff, ← String.toList_inj, String.toList_ofList]
  refine ⟨(Token.next 0 (Layout.quoted value).toList).1, by simp [scan, ofText, hnext], ?_⟩
  rw [hnext]
  exact ⟨rfl, rfl, rfl, rfl, hvalue⟩

/-- The character with number one is not read back: it is read as an `x` and two digits. -/
theorem quoted_control_not_read_back :
    Layout.quoted "\x01" = "\"\\x01\"" ∧
      (ofText (Layout.quoted "\x01")).scan.current.value = "x01" ∧
      (ofText (Layout.quoted "\x01")).scan.current.value ≠ "\x01" := by
  decide

end Scanner

end ArrayLoops
