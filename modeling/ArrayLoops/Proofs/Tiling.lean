import ArrayLoops.Proofs.Slices
import ArrayLoops.Token.Scanner
import Mathlib.Logic.Function.Iterate

/-!
# Tokens and gaps

The characters of a text are divided into tokens and the gaps before them. A gap holds blanks, line
breaks and comments, and a token knows whether a line ends in its gap. Read one after the other, the
tokens get to the end of the text, and no place between is inside a character.
-/

namespace ArrayLoops

open Text

namespace Token

def Unclosed (body : List Char) : Prop := ¬ ['*', '/'] <:+: body

/-- Blanks, line breaks and comments, with `after` behind them. A line comment goes up to a line break
or to the end of the text, and a block comment that is not closed goes up to the end as well. -/
inductive IsGap (after : List Char) : List Char → Prop where
  | nothing : IsGap after []
  | blank {c : Char} {cs : List Char} : isLineBreak c ∨ isInlineBlank c → IsGap after cs →
    IsGap after (c :: cs)
  | lineComment {body cs : List Char} : (∀ c ∈ body, isLineBreak c = false) →
    (∀ c ∈ (cs ++ after).head?, isLineBreak c) → IsGap after cs →
    IsGap after ('/' :: '/' :: (body ++ cs))
  | blockComment {body cs : List Char} : Unclosed body → IsGap after cs →
    IsGap after ('/' :: '*' :: (body ++ '*' :: '/' :: cs))
  | openComment {body : List Char} : Unclosed body → after = [] → IsGap after ('/' :: '*' :: body)

def IsGapFrom (after : List Char) : Gap → List Char → Prop
  | .blank, cs => IsGap after cs
  | .lineComment, cs => ∃ body others, cs = body ++ others ∧ (∀ c ∈ body, isLineBreak c = false) ∧
    (∀ c ∈ (others ++ after).head?, isLineBreak c) ∧ IsGap after others
  | .blockComment _, cs => (∃ body others, cs = body ++ '*' :: '/' :: others ∧ Unclosed body ∧
    IsGap after others) ∨ Unclosed cs ∧ after = []

variable {c : Char} {cs body after : List Char}

theorem unclosed_nil : Unclosed [] := by
  rintro ⟨before, behind, h⟩
  simp at h

theorem Unclosed.cons (h : Unclosed body) (hc : c = '*' → body.head? ≠ some '/') :
    Unclosed (c :: body) := by
  intro hinfix
  obtain hleading | hinfix := List.infix_cons_iff.mp hinfix
  · obtain ⟨rfl, hbody⟩ := List.cons_prefix_cons.mp hleading
    obtain ⟨rest, rfl⟩ := hbody
    exact hc rfl rfl
  · exact h hinfix

theorem skipTrivia_gap (gap : Gap) (pos : Nat) (lineBreak : Bool) (cs : List Char) :
    ∃ skipped, cs = skipped ++ (skipTrivia gap pos lineBreak cs).rest ∧
      (skipTrivia gap pos lineBreak cs).lineBreak = (lineBreak || skipped.any isLineBreak) ∧
      IsGapFrom (skipTrivia gap pos lineBreak cs).rest gap skipped := by
  have hmark : isLineBreak '/' = false ∧ isLineBreak '*' = false := by decide
  fun_induction skipTrivia gap pos lineBreak cs with
  | case1 pos lineBreak cs ih =>
    obtain ⟨skipped, hcs, hbreak, body, others, rfl, hbody, hend, hothers⟩ := ih
    exact ⟨'/' :: '/' :: (body ++ others), by simpa using hcs, by simpa [hmark] using hbreak,
      .lineComment hbody hend hothers⟩
  | case2 pos lineBreak cs ih =>
    obtain ⟨skipped, hcs, hbreak, hgap⟩ := ih
    refine ⟨'/' :: '*' :: skipped, congrArg ('/' :: '*' :: ·) hcs, by simpa [hmark] using hbreak, ?_⟩
    obtain ⟨body, others, rfl, hbody, hothers⟩ | ⟨hbody, hafter⟩ := hgap
    · exact .blockComment hbody hothers
    · exact .openComment hbody hafter
  | case3 pos lineBreak c cs _ _ hc ih =>
    obtain ⟨skipped, hcs, hbreak, hgap⟩ := ih
    exact ⟨c :: skipped, congrArg (c :: ·) hcs, by simp [hbreak, hc], .blank (.inl hc) hgap⟩
  | case4 pos lineBreak c cs _ _ hc hblank ih =>
    obtain ⟨skipped, hcs, hbreak, hgap⟩ := ih
    exact ⟨c :: skipped, congrArg (c :: ·) hcs, by simp [hbreak, hc], .blank (.inr hblank) hgap⟩
  | case5 => exact ⟨[], rfl, by simp, .nothing⟩
  | case6 pos lineBreak c cs hc ih =>
    obtain ⟨skipped, hcs, hbreak, hgap⟩ := ih
    exact ⟨c :: skipped, congrArg (c :: ·) hcs, by simp [hbreak, hc],
      [], c :: skipped, rfl, by simp, by simpa using hc, .blank (.inl hc) hgap⟩
  | case7 pos lineBreak c cs hc ih =>
    obtain ⟨skipped, hcs, hbreak, body, others, rfl, hbody, hend, hothers⟩ := ih
    exact ⟨c :: (body ++ others), congrArg (c :: ·) hcs, by simp [hbreak, hc], c :: body, others, rfl,
      List.forall_mem_cons.mpr ⟨by simpa using hc, hbody⟩, hend, hothers⟩
  | case8 start pos lineBreak cs ih =>
    obtain ⟨skipped, hcs, hbreak, hgap⟩ := ih
    exact ⟨'*' :: '/' :: skipped, congrArg ('*' :: '/' :: ·) hcs, by simpa [hmark] using hbreak,
      .inl ⟨[], skipped, rfl, unclosed_nil, hgap⟩⟩
  | case9 start pos lineBreak c cs hopen ih =>
    obtain ⟨skipped, hcs, hbreak, hgap⟩ := ih
    refine ⟨c :: skipped, congrArg (c :: ·) hcs, by simp [hbreak, Bool.or_assoc], ?_⟩
    have hslash : ∀ {others behind : List Char}, cs = others ++ behind → c = '*' →
        others.head? ≠ some '/' := by
      rintro others behind rfl hc hhead
      obtain ⟨rest, rfl⟩ := List.head?_eq_some_iff.mp hhead
      exact hopen _ hc rfl
    obtain ⟨body, others, rfl, hbody, hothers⟩ | ⟨hbody, hafter⟩ := hgap
    · rw [List.append_assoc] at hcs
      exact .inl ⟨c :: body, others, rfl, hbody.cons (hslash hcs), hothers⟩
    · exact .inr ⟨hbody.cons (hslash hcs), hafter⟩
  | case10 => exact ⟨[], rfl, by simp, .inr ⟨unclosed_nil, rfl⟩⟩
  | case11 gap pos lineBreak hgap =>
    refine ⟨[], rfl, by simp, ?_⟩
    cases gap with
    | blank => exact .nothing
    | lineComment => exact ⟨[], [], rfl, by simp, by simp, .nothing⟩
    | blockComment start => exact absurd rfl (hgap start)

/-- The token is the first behind `pos` in the text, with a gap before it and `rest` behind it. -/
structure Tile (text : List Char) (pos : Nat) (token : Token) (rest before gap : List Char) : Prop where
  divided : text = before ++ (gap ++ (token.text.toList ++ rest))
  place : pos = byteLength before
  start : token.start = pos + byteLength gap
  fin : token.fin = token.start + byteLength token.text.toList
  isGap : IsGap (token.text.toList ++ rest) gap
  lineBreak : token.lineBreakBefore = gap.any isLineBreak
  /-- Only the end of the file takes no character, and it is where nothing is left. -/
  ended : if token.kind = .endOfFile then token.text = "" ∧ rest = [] else token.text ≠ ""

namespace Tile

variable {text rest before gap : List Char} {pos : Nat} {token : Token}

theorem read (h : Tile text pos token rest before gap) :
    text = before ++ gap ++ token.text.toList ++ rest ∧
      token.fin = byteLength (before ++ gap ++ token.text.toList) := by
  refine ⟨?_, ?_⟩
  · rw [h.divided]
    simp
  · rw [h.fin, h.start, h.place]
    simp [Nat.add_assoc]

theorem at_end (h : Tile text pos token rest before gap) (hkind : token.kind = .endOfFile) :
    token.start = byteLength text ∧ token.fin = byteLength text := by
  obtain ⟨htext, hrest⟩ : token.text = "" ∧ rest = [] := by simpa [hkind] using h.ended
  obtain ⟨hdivided, hfin⟩ := h.read
  have hstart := h.fin
  rw [htext] at hdivided hfin hstart
  rw [hrest] at hdivided
  simp only [String.toList_empty, List.append_nil, byteLength_nil, Nat.add_zero] at hdivided hfin hstart
  rw [← hstart, hfin, hdivided]
  exact ⟨rfl, rfl⟩

end Tile

theorem skipTrivia_fin {gap : List Char} {pos : Nat} (h : cs = gap ++ (skipTrivia .blank pos false cs).rest) :
    (skipTrivia .blank pos false cs).fin = pos + byteLength gap := by
  have hsum := congrArg byteLength h
  have hbytes := skipTrivia_bytes .blank pos false cs
  rw [byteLength_append] at hsum
  omega

theorem scan_next {text : List Char} {pos : Nat} (h : Cursor.At text pos cs) :
    Cursor.scan text pos = some (next pos cs).1 := by
  obtain ⟨gap, hcs, -⟩ := skipTrivia_gap .blank pos false cs
  exact Cursor.scan_eq h (skipTrivia_fin hcs ▸ h.behind hcs.symm)

theorem tile_next {text before : List Char} {pos : Nat} (htext : text = before ++ cs)
    (hpos : pos = byteLength before) :
    ∃ gap, Tile text pos (next pos cs).1 (next pos cs).2 before gap := by
  obtain ⟨gap, hcs, hbreak, hgap⟩ := skipTrivia_gap .blank pos false cs
  have hlexeme := lexemeAt_append (skipTrivia .blank pos false cs).fin (skipTrivia .blank pos false cs).rest
  have hword : (next pos cs).1.text.toList ++ (next pos cs).2 = (skipTrivia .blank pos false cs).rest := by
    simpa [next] using hlexeme
  refine ⟨gap, ⟨?_, hpos, ?_, by simp [next], hword.symm ▸ hgap, hbreak.trans (Bool.false_or _), ?_⟩⟩
  · rw [hword, ← hcs, htext]
  · exact skipTrivia_fin hcs
  · cases hrest : (skipTrivia .blank pos false cs).rest with
    | nil => simp [next, hrest, lexemeAt]
    | cons c others =>
      have hkind : (next pos cs).1.kind ≠ .endOfFile := by
        simp only [next, hrest]
        exact lexemeAt_kind_ne _ c others
      have hlength := lexemeAt_length (skipTrivia .blank pos false cs).fin c others
      rw [hrest] at hword hlexeme
      rw [if_neg hkind]
      intro hnone
      rw [hnone] at hword
      have hall : (next pos cs).2 = c :: others := hword
      simp only [next, hrest] at hall
      simp [hall] at hlength

end Token

namespace Scanner

def after (source : String) (count : Nat) : Scanner := scan^[count] (ofText source)

theorem after_succ (source : String) (count : Nat) :
    after source (count + 1) = (after source count).scan :=
  Function.iterate_succ_apply' scan count (ofText source)

theorem after_at (source : String) (count : Nat) :
    Token.Cursor.At source.toList (after source count).current.fin (after source count).rest := by
  induction count with
  | zero => exact ⟨[], rfl, rfl⟩
  | succ count ih =>
    obtain ⟨before, htext, hpos⟩ := ih
    obtain ⟨gap, htile⟩ := Token.tile_next htext hpos
    rw [after_succ]
    exact ⟨_, htile.read⟩

theorem after_ends (source : String) (count : Nat) :
    (∃ i ≤ count, (after source (i + 1)).current.kind = .endOfFile) ∨
      (after source (count + 1)).rest.length + count < source.toList.length := by
  have hscan : ∀ i, (after source (i + 1)).current.kind = .endOfFile ∨
      (after source (i + 1)).rest.length < (after source i).rest.length := by
    intro i
    rw [after_succ]
    by_cases hkind : (after source i).scan.current.kind = .endOfFile
    · exact .inl hkind
    · exact .inr (Token.next_length hkind)
  induction count with
  | zero => exact (hscan 0).imp (fun h => ⟨0, Nat.le_refl 0, h⟩) id
  | succ count ih =>
    obtain ⟨i, hi, hkind⟩ | hlength := ih
    · exact .inl ⟨i, Nat.le_succ_of_le hi, hkind⟩
    · exact (hscan (count + 1)).imp (fun h => ⟨count + 1, Nat.le_refl _, h⟩) fun h => by omega

/-- The tokens that are read one after the other and the gaps between them make up the text. They get
to the end of the file, which is at the end of the text, after no more scans than there are characters
and one. The scanner that cuts the text at byte offsets finds the same tokens, so none of its cuts is
behind the end of the text or inside a character. -/
theorem tokens_tile_text (source : String) :
    (∃ count ≤ source.length, (after source (count + 1)).current.kind = .endOfFile) ∧
      (∀ count, ∃ before gap, Token.Tile source.toList (after source count).current.fin
        (after source (count + 1)).current (after source (count + 1)).rest before gap ∧
        ((after source (count + 1)).current.kind = .endOfFile →
          (after source (count + 1)).current.start = source.utf8ByteSize ∧
            (after source (count + 1)).current.fin = source.utf8ByteSize)) ∧
      ∀ count, Token.Cursor.scan source.toList (after source count).current.fin =
        some (after source (count + 1)).current := by
  refine ⟨?_, fun count => ?_, fun count => after_succ source count ▸ Token.scan_next (after_at source count)⟩
  · obtain hend | hlength := after_ends source source.length
    · exact hend
    · rw [← String.length_toList] at hlength
      omega
  · obtain ⟨before, htext, hpos⟩ := after_at source count
    obtain ⟨gap, htile⟩ := Token.tile_next htext hpos
    rw [after_succ]
    exact ⟨before, gap, htile, fun hkind => Text.byteLength_toList source ▸ htile.at_end hkind⟩

end Scanner

end ArrayLoops
