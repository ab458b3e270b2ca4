import ArrayLoops.Proofs.Lexemes
import Mathlib.Data.String.Basic

/-!
# Where tokens lie

A token and what is wrong with it lie inside the text, and the end of the file is where the text
ends. For the characters of a text are divided into gaps and tokens, and the place of each is
counted in the bytes before it.
-/

namespace ArrayLoops

open Text

namespace Text

theorem byteLength_toList (text : String) : byteLength text.toList = text.utf8ByteSize := by
  have hlength : ∀ cs, byteLength cs = String.utf8Len cs := by
    intro cs
    induction cs with
    | nil => rfl
    | cons c cs ih => rw [byteLength_cons, String.utf8Len_cons, ih, Nat.add_comm]
  rw [hlength, ← String.utf8ByteSize_ofList, String.ofList_toList]

end Text

def Complaint.Within (limit : Nat) (complaint : Complaint) : Prop :=
  complaint.start + complaint.length ≤ limit

namespace Token

structure Within (limit : Nat) (token : Token) : Prop where
  start : token.start ≤ limit
  fin : token.fin ≤ limit
  ended : token.kind = .endOfFile → token.fin = limit
  complaints : ∀ complaint ∈ token.complaints, complaint.Within limit

theorem skipTrivia_bytes (gap : Gap) (pos : Nat) (lineBreak : Bool) (cs : List Char) :
    (skipTrivia gap pos lineBreak cs).fin + byteLength (skipTrivia gap pos lineBreak cs).rest =
      pos + byteLength cs := by
  have hslash : '/'.utf8Size = 1 := rfl
  have hstar : '*'.utf8Size = 1 := rfl
  fun_induction skipTrivia gap pos lineBreak cs <;> simp_all <;> omega

theorem skipTrivia_unclosed {gap : Gap} {pos start : Nat} {lineBreak : Bool} {cs : List Char}
    (hgap : ∀ start, gap = .blockComment start → start ≤ pos)
    (h : (skipTrivia gap pos lineBreak cs).unclosed = some start) :
    start ≤ (skipTrivia gap pos lineBreak cs).fin := by
  fun_induction skipTrivia gap pos lineBreak cs <;> simp_all; omega

theorem stringBody_append (quote : Char) (cs : List Char) :
    (stringBody quote cs).1 ++ (stringBody quote cs).2.1 = cs := by
  fun_induction stringBody quote cs <;> simp_all

theorem stringLexeme_append {quote : Char} (hquote : quote = '"' ∨ quote = '\'') (pos : Nat)
    (cs : List Char) :
    (stringLexeme pos quote cs).text ++ (stringLexeme pos quote cs).rest = quote :: cs := by
  have hclosed := stringBody_closed hquote cs
  have happend := stringBody_append quote cs
  simp only [stringLexeme]
  generalize stringBody quote cs = result at *
  obtain ⟨body, rest, closed⟩ := result
  cases closed with
  | false => simpa using happend
  | true =>
    obtain ⟨-, others, rfl, -⟩ := hclosed rfl
    simpa using happend

namespace Cooking

structure Within (k : Cooking) : Prop where
  complaints : ∀ complaint ∈ k.complaints, complaint.Within k.pos
  digits : ∀ start digits code, k.state = .hex start digits code → start + digits ≤ k.pos

theorem Within.moved {k : Cooking} {pos : Nat} (h : Within k) (hpos : k.pos ≤ pos) :
    Within { k with pos } where
  complaints complaint hc := Nat.le_trans (h.complaints complaint hc) hpos
  digits start digits code hstate := Nat.le_trans (h.digits start digits code hstate) hpos

theorem Within.closeHex {k : Cooking} {start digits code : Nat} (h : Within k)
    (hdigits : start + digits ≤ k.pos) : Within (k.closeHex start digits code) := by
  unfold Cooking.closeHex
  split
  · exact ⟨h.complaints, by simp⟩
  · refine ⟨?_, by simp⟩
    simp only [List.forall_mem_append, List.forall_mem_singleton]
    exact ⟨h.complaints, hdigits⟩

theorem Within.plain {k : Cooking} (h : Within k) (c : Char) : Within (k.plain c) := by
  unfold Cooking.plain
  split
  · exact ⟨h.complaints, by simp⟩
  · exact ⟨h.complaints, by simp⟩

theorem closeHex_pos (k : Cooking) (start digits code : Nat) :
    (k.closeHex start digits code).pos = k.pos := by
  unfold closeHex
  split <;> rfl

theorem plain_pos (k : Cooking) (c : Char) : (k.plain c).pos = k.pos := by
  unfold plain
  split <;> rfl

theorem step_pos (k : Cooking) (c : Char) : (k.step c).pos = k.pos + c.utf8Size := by
  simp only [step]
  split
  · rfl
  · split
    · rfl
    · split <;> rfl
  · split
    · split
      · exact closeHex_pos ..
      · rfl
    · rfl

theorem Within.step {k : Cooking} (h : Within k) (c : Char) : Within (k.step c) := by
  have hpos : k.pos ≤ k.pos + c.utf8Size := Nat.le_add_right _ _
  have hmoved := h.moved hpos
  simp only [Cooking.step]
  split
  · exact (h.plain c).moved (by rwa [plain_pos])
  · split
    · refine ⟨hmoved.complaints, ?_⟩
      rintro start digits code ⟨⟩
      exact Nat.le_refl _
    · split
      · exact ⟨hmoved.complaints, by simp⟩
      · exact ⟨hmoved.complaints, by simp⟩
  · rename_i start digits code hstate
    have hdigits := h.digits start digits code hstate
    have hsize := c.utf8Size_pos
    split
    · split
      · rename_i hthree
        obtain rfl : digits = 3 := by simpa using hthree
        refine hmoved.closeHex ?_
        show start + 4 ≤ k.pos + c.utf8Size
        omega
      · refine ⟨hmoved.complaints, ?_⟩
        rintro start' digits' code' ⟨⟩
        show start + (digits + 1) ≤ k.pos + c.utf8Size
        omega
    · refine ((h.closeHex hdigits).plain c).moved ?_
      rwa [plain_pos, closeHex_pos]

theorem foldl_within {k : Cooking} (h : Within k) (body : List Char) :
    Within (body.foldl Cooking.step k) ∧
      (body.foldl Cooking.step k).pos = k.pos + byteLength body := by
  induction body generalizing k with
  | nil => exact ⟨h, rfl⟩
  | cons c body ih =>
    obtain ⟨hall, hpos⟩ := ih (h.step c)
    refine ⟨hall, hpos.trans ?_⟩
    rw [step_pos, byteLength_cons, Nat.add_assoc]

theorem ofBody_within {pos : Nat} {body : List Char} {complaint : Complaint}
    (h : complaint ∈ (ofBody pos body).complaints) : complaint.Within (pos + byteLength body) := by
  have hstart : Within (start pos) := ⟨by simp [start], by simp [start]⟩
  obtain ⟨hall, hpos⟩ := foldl_within hstart body
  rw [show (start pos).pos = pos from rfl] at hpos
  rw [← hpos]
  simp only [ofBody, finish] at h
  split at h
  · rename_i start digits code hstate
    have hclosed : Within (closeHex _ start digits code) :=
      hall.closeHex (hall.digits start digits code hstate)
    have hclosed := hclosed.complaints
    rw [closeHex_pos] at hclosed
    exact hclosed complaint h
  · exact hall.complaints complaint h

end Cooking

theorem stringLexeme_within {pos : Nat} {quote : Char} {cs : List Char} {complaint : Complaint}
    (h : complaint ∈ (stringLexeme pos quote cs).complaints) :
    complaint.Within (pos + byteLength (stringLexeme pos quote cs).text) := by
  simp only [stringLexeme] at h ⊢
  generalize stringBody quote cs = result at *
  obtain ⟨body, rest, closed⟩ := result
  obtain h | h := List.mem_append.mp h
  · have hbody := Cooking.ofBody_within h
    simp only [Complaint.Within, List.cons_append, byteLength_cons, byteLength_append] at hbody ⊢
    omega
  · cases closed with
    | true => cases h
    | false =>
      obtain rfl := List.mem_singleton.mp h
      exact Nat.le_refl _

theorem markLexeme_append (pos : Nat) (c : Char) (cs : List Char) :
    (markLexeme pos c cs).text ++ (markLexeme pos c cs).rest = c :: cs := by
  cases hcomplaints : (markLexeme pos c cs).complaints with
  | nil => exact (genuine_markLexeme hcomplaints).2
  | cons complaint others =>
    simp only [markLexeme] at hcomplaints ⊢
    split
    · next heq => simp [heq] at hcomplaints
    · rfl

theorem markLexeme_within {pos : Nat} {c : Char} {cs : List Char} {complaint : Complaint}
    (h : complaint ∈ (markLexeme pos c cs).complaints) :
    complaint.Within (pos + byteLength (markLexeme pos c cs).text) := by
  simp only [markLexeme] at h ⊢
  split at h
  · cases h
  · obtain rfl := List.mem_singleton.mp h
    exact Nat.le_refl _

theorem lexemeAt_append (pos : Nat) (cs : List Char) :
    (lexemeAt pos cs).text ++ (lexemeAt pos cs).rest = cs := by
  cases cs with
  | nil => rfl
  | cons c cs =>
    rw [lexemeAt]
    split
    · rename_i hquote
      exact stringLexeme_append (by simpa using hquote) pos cs
    split
    · exact (numeral_number (c :: cs)).2
    split
    · exact run_fst_append_snd isNamePart (c :: cs)
    · exact markLexeme_append pos c cs

theorem lexemeAt_within {pos : Nat} {cs : List Char} {complaint : Complaint}
    (h : complaint ∈ (lexemeAt pos cs).complaints) :
    complaint.Within (pos + byteLength (lexemeAt pos cs).text) := by
  cases cs with
  | nil => cases h
  | cons c cs =>
    rw [lexemeAt] at h ⊢
    split at h
    · rw [if_pos ‹_›]
      exact stringLexeme_within h
    rw [if_neg ‹_›]
    split at h
    · cases h
    rw [if_neg ‹_›]
    split at h
    · cases h
    rw [if_neg ‹_›]
    exact markLexeme_within h

theorem lexemeAt_kind_ne (pos : Nat) (c : Char) (cs : List Char) :
    (lexemeAt pos (c :: cs)).kind ≠ .endOfFile := by
  rw [lexemeAt]
  split
  · rintro ⟨⟩
  split
  · rintro ⟨⟩
  split
  · have hwords : ∀ kind ∈ Kind.reservedWords, kind ≠ .endOfFile := by decide
    intro hkind
    cases hfound : Kind.ofWord? (String.ofList (run isNamePart (c :: cs)).1) with
    | none => simp only [nameLexeme, hfound, Option.getD_none, reduceCtorEq] at hkind
    | some kind =>
      simp only [nameLexeme, hfound, Option.getD_some] at hkind
      exact hwords kind (List.mem_of_find?_eq_some hfound) hkind
  · have hmarks : ∀ kind ∈ Kind.punctuation, kind ≠ .endOfFile := by decide
    simp only [markLexeme]
    split
    · next hfound => exact hmarks _ (List.mem_of_find?_eq_some hfound)
    · rintro ⟨⟩

variable {pos limit count : Nat} {cs : List Char}

theorem next_bytes (h : pos + byteLength cs = limit) :
    (next pos cs).1.fin + byteLength (next pos cs).2 = limit := by
  have hgap := skipTrivia_bytes .blank pos false cs
  have hlexeme := congrArg byteLength
    (lexemeAt_append (skipTrivia .blank pos false cs).fin (skipTrivia .blank pos false cs).rest)
  rw [byteLength_append] at hlexeme
  simp only [next]
  omega

theorem next_within (h : pos + byteLength cs = limit) : (next pos cs).1.Within limit := by
  have hgap := skipTrivia_bytes .blank pos false cs
  have hfin := next_bytes h
  have hstart : (next pos cs).1.start ≤ (next pos cs).1.fin := Nat.le_add_right _ _
  refine ⟨by omega, by omega, fun hkind => ?_, fun complaint hc => ?_⟩
  · cases hrest : (skipTrivia .blank pos false cs).rest with
    | cons c others =>
      simp only [next, hrest] at hkind
      exact absurd hkind (lexemeAt_kind_ne _ c others)
    | nil =>
      rw [hrest] at hgap
      simp only [next, hrest, lexemeAt, byteLength_nil] at hgap ⊢
      omega
  · simp only [next] at hc hfin
    obtain hc | hc := List.mem_append.mp hc
    · split at hc
      · rename_i start hunclosed
        obtain rfl := List.mem_singleton.mp hc
        have := skipTrivia_unclosed (by simp) hunclosed
        simp only [Complaint.Within]
        omega
      · cases hc
    · exact Nat.le_trans (lexemeAt_within hc) (by omega)

theorem listFrom_within (h : pos + byteLength cs = limit) :
    ∀ token ∈ listFrom count pos cs, token.Within limit := by
  induction count generalizing pos cs with
  | zero => simp [listFrom]
  | succ count ih =>
    rw [listFrom_succ]
    split
    · simpa using next_within h
    · exact List.forall_mem_cons.mpr ⟨next_within h, ih (next_bytes h)⟩

theorem list_within (text : String) : ∀ token ∈ list text, token.Within text.utf8ByteSize :=
  listFrom_within (by rw [Nat.zero_add, byteLength_toList])

end Token

end ArrayLoops
