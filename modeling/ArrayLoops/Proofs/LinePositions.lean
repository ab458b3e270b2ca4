import ArrayLoops.Text.Chars
import ArrayLoops.Text.LineMap
import Mathlib.Data.List.Basic
import Mathlib.Data.Prod.Lex
import Mathlib.Order.Bounds.Basic

/-!
# Lines and columns count bytes

The table of a line map holds the offsets behind the newline bytes of the text in rising order, for
no other character has a newline among its bytes. A search in a rising table stops at the last start
that is not behind the offset. So the line of an offset is the number of newlines before it, and its
column is counted from the byte behind the last of them.
-/

namespace ArrayLoops.Text

def bytes (text : String) : List UInt8 := text.toByteArray.data.toList

def newline : UInt8 := 10

structure StartsLine (bytes : List UInt8) (offset start : Nat) : Prop where
  le : start ≤ offset
  behind : start = 0 ∨ ∃ before, start = before + 1 ∧ bytes[before]? = some newline
  last : ∀ i, start ≤ i → i < offset → bytes[i]? ≠ some newline

theorem newline_mem_utf8EncodeChar {c : Char} : newline ∈ String.utf8EncodeChar c ↔ c = '\n' := by
  have hten : ∀ n, n < 256 → newline = UInt8.ofNat n → n = 10 := by
    intro n hn h
    simpa [newline, Nat.mod_eq_of_lt hn] using (congrArg UInt8.toNat h).symm
  have hhigh : ∀ n, 128 ≤ n → n < 256 → newline ≠ UInt8.ofNat n := by
    intro n hlow hn h
    have := hten n hn h
    omega
  refine ⟨fun h => ?_, by rintro rfl; decide⟩
  rw [String.utf8EncodeChar] at h
  split at h
  · have hvalue := hten _ (by omega) (List.mem_singleton.mp h)
    exact Char.toNat_inj.mp hvalue
  · -- The bytes of all other characters are at least 128.
    exfalso
    split at h
    · simp only [List.mem_cons, List.not_mem_nil, or_false] at h
      obtain h | h := h <;> exact hhigh _ (by omega) (by omega) h
    split at h
    · simp only [List.mem_cons, List.not_mem_nil, or_false] at h
      obtain h | h | h := h <;> exact hhigh _ (by omega) (by omega) h
    · simp only [List.mem_cons, List.not_mem_nil, or_false] at h
      obtain h | h | h | h := h <;> exact hhigh _ (by omega) (by omega) h

theorem bytes_eq (text : String) : bytes text = text.toList.flatMap String.utf8EncodeChar := by
  rw [bytes, ← String.utf8Encode_toList, List.utf8Encode]
  simp

theorem length_encoded (cs : List Char) : (cs.flatMap String.utf8EncodeChar).length = byteLength cs := by
  induction cs with
  | nil => rfl
  | cons c cs ih => simp [ih]

theorem newline_mem_encoded {cs : List Char} :
    newline ∈ cs.flatMap String.utf8EncodeChar ↔ '\n' ∈ cs := by
  simp [List.mem_flatMap, newline_mem_utf8EncodeChar]

theorem count_encoded (cs : List Char) :
    (cs.flatMap String.utf8EncodeChar).count newline = cs.count '\n' := by
  induction cs with
  | nil => rfl
  | cons c cs ih =>
    rw [List.flatMap_cons, List.count_append, ih, List.count_cons, Nat.add_comm]
    by_cases hc : c = '\n'
    · subst hc
      rfl
    · rw [List.count_eq_zero.mpr (mt newline_mem_utf8EncodeChar.mp hc), if_neg (by simpa using hc)]

theorem startsAfterNewlines_eq_findIdxs (offset : Nat) (cs : List Char) :
    startsAfterNewlines offset cs =
      (cs.flatMap String.utf8EncodeChar).findIdxs (· == newline) (offset + 1) := by
  induction cs generalizing offset with
  | nil => rfl
  | cons c cs ih =>
    rw [startsAfterNewlines, List.flatMap_cons, List.findIdxs_append, ih,
      String.length_utf8EncodeChar, Nat.add_right_comm]
    by_cases hc : c = '\n'
    · subst hc
      rfl
    · have hnone : (String.utf8EncodeChar c).findIdxs (· == newline) (offset + 1) = [] := by
        rw [List.findIdxs_eq_nil_iff]
        intro byte hb
        simp only [beq_eq_false_iff_ne]
        rintro rfl
        exact hc (newline_mem_utf8EncodeChar.mp hb)
      rw [hnone, if_neg (by simpa using hc), List.nil_append]

theorem countP_findIdxs {α : Type} (p : α → Bool) (xs : List α) (s n : Nat) :
    (xs.findIdxs p s).countP (· < s + n) = (xs.take n).countP p := by
  induction xs generalizing s n with
  | nil => simp
  | cons x xs ih =>
    cases n with
    | zero =>
      rw [List.take_zero, List.countP_nil, List.countP_eq_zero]
      intro i hi
      have := List.ge_of_mem_findIdxs i hi
      simpa using this
    | succ n =>
      have hrest := ih (s + 1) n
      rw [Nat.add_right_comm, Nat.add_assoc] at hrest
      rw [List.findIdxs_cons, List.take_succ_cons, List.countP_cons]
      split
      · rw [List.countP_cons_of_pos (by simp), hrest]
      · exact hrest

/-- A hit is behind all smaller starts and counts itself; a miss counts the smaller starts. -/
theorem search_of_rising {xs : List Nat} (hrising : xs.Pairwise (· < ·)) (x : Nat) :
    (∃ i, search xs x = .ok i ∧ xs.countP (· ≤ x) = i + 1) ∨
      ∃ i, search xs x = .error i ∧ xs.countP (· ≤ x) = i := by
  by_cases hmem : x ∈ xs
  · obtain ⟨before, behind, rfl⟩ := List.append_of_mem hmem
    obtain ⟨-, hbehind, hbefore⟩ := List.pairwise_append.mp hrising
    have hless : ∀ y ∈ before, y < x := fun y hy => hbefore y hy x List.mem_cons_self
    have hmore : ∀ y ∈ behind, x < y := (List.pairwise_cons.mp hbehind).1
    have hall : before.countP (· < x) = before.length ∧ before.countP (· ≤ x) = before.length :=
      ⟨List.countP_eq_length.mpr (by simpa using hless),
        List.countP_eq_length.mpr (by simpa using fun y hy => Nat.le_of_lt (hless y hy))⟩
    have hnone : behind.countP (· < x) = 0 ∧ behind.countP (· ≤ x) = 0 :=
      ⟨List.countP_eq_zero.mpr (by simpa using fun y hy => Nat.le_of_lt (hmore y hy)),
        List.countP_eq_zero.mpr (by simpa using hmore)⟩
    exact .inl ⟨before.length, by simp [search, hall, hnone], by simp [hall, hnone]⟩
  · refine .inr ⟨xs.countP (· < x), ?_, List.countP_congr fun y hy => ?_⟩
    · have hne : xs[xs.countP (· < x)]? ≠ some x := fun h => hmem (List.mem_of_getElem? h)
      simp [search, hne]
    · have hne : y ≠ x := fun h => hmem (h ▸ hy)
      simp [Nat.lt_iff_le_and_ne, hne]

theorem countP_of_behind {xs : List Nat} {offset : Nat} (h : ∀ s ∈ xs, offset < s) :
    xs.countP (· ≤ offset) = 0 :=
  List.countP_eq_zero.mpr (by simpa using h)

namespace LineMap

variable {offset start : Nat} {later : List Nat}

theorem starts_ofText (text : String) :
    (ofText text).starts = 0 :: (bytes text).findIdxs (· == newline) 1 := by
  rw [ofText, startsAfterNewlines_eq_findIdxs, ← bytes_eq, Nat.zero_add]

theorem starts_ofText_rising (text : String) : (ofText text).starts.Pairwise (· < ·) := by
  rw [starts_ofText]
  exact List.pairwise_cons.mpr ⟨List.ge_of_mem_findIdxs, List.pairwise_findIdxs⟩

/-- A hit and the shifted miss both are the number of later starts that are not behind the offset. -/
theorem lineAt_eq {map : LineMap} (hmap : map.starts = start :: later)
    (hrising : (start :: later).Pairwise (· < ·)) (hstart : start ≤ offset) :
    map.lineAt offset = later.countP (· ≤ offset) := by
  have hcount : (start :: later).countP (· ≤ offset) = later.countP (· ≤ offset) + 1 :=
    List.countP_cons_of_pos (by simpa using hstart)
  rw [lineAt, hmap]
  obtain ⟨i, hsearch, hi⟩ | ⟨i, hsearch, hi⟩ := search_of_rising hrising offset
  all_goals
    rw [hsearch]
    dsimp only
    omega

theorem last_start (hrising : (start :: later).Pairwise (· < ·)) (hstart : start ≤ offset) :
    ∃ found, (start :: later)[later.countP (· ≤ offset)]? = some found ∧
      IsGreatest {s | s ∈ start :: later ∧ s ≤ offset} found := by
  induction later generalizing start with
  | nil =>
    refine ⟨start, rfl, ⟨List.mem_cons_self, hstart⟩, ?_⟩
    rintro s ⟨hs, -⟩
    exact Nat.le_of_eq (List.mem_singleton.mp hs)
  | cons next rest ih =>
    obtain ⟨hfirst, hrest⟩ := List.pairwise_cons.mp hrising
    by_cases hle : next ≤ offset
    · obtain ⟨found, hfound, ⟨hmem, hbefore⟩, hgreatest⟩ := ih hrest hle
      rw [List.countP_cons_of_pos (by simpa using hle)]
      refine ⟨found, hfound, ⟨List.mem_cons_of_mem _ hmem, hbefore⟩, ?_⟩
      rintro s ⟨hs, hso⟩
      obtain rfl | hs := List.mem_cons.mp hs
      · exact Nat.le_of_lt (hfirst found hmem)
      · exact hgreatest ⟨hs, hso⟩
    · -- All further starts are behind the offset too.
      have hbehind : ∀ s ∈ next :: rest, offset < s := by
        intro s hs
        have := Nat.lt_of_not_le hle
        obtain rfl | hs := List.mem_cons.mp hs
        · exact this
        · exact Nat.lt_trans this ((List.pairwise_cons.mp hrest).1 s hs)
      rw [countP_of_behind hbehind]
      refine ⟨start, rfl, ⟨List.mem_cons_self, hstart⟩, ?_⟩
      rintro s ⟨hs, hso⟩
      obtain rfl | hs := List.mem_cons.mp hs
      · exact Nat.le_refl _
      · exact absurd hso (Nat.not_le_of_lt (hbehind s hs))

theorem startsLine_of_isGreatest {text : String}
    (h : IsGreatest {s | s ∈ (ofText text).starts ∧ s ≤ offset} start) :
    StartsLine (bytes text) offset start := by
  have hmem : ∀ s, s ∈ (ofText text).starts ↔
      s = 0 ∨ ∃ before, s = before + 1 ∧ (bytes text)[before]? = some newline := by
    intro s
    rw [starts_ofText, List.mem_cons, List.mem_findIdxs_iff_getElem_sub_pos]
    refine or_congr_right ⟨?_, ?_⟩
    · rintro ⟨hpos, hlt, hbyte⟩
      exact ⟨s - 1, by omega, by rw [List.getElem?_eq_getElem hlt, eq_of_beq hbyte]⟩
    · rintro ⟨before, rfl, hbyte⟩
      obtain ⟨hlt, hbyte⟩ := List.getElem?_eq_some_iff.mp hbyte
      exact ⟨Nat.succ_pos _, hlt, by simp [hbyte]⟩
  obtain ⟨⟨hstart, hle⟩, hgreatest⟩ := h
  refine ⟨hle, (hmem start).mp hstart, fun i hi hio hbyte => ?_⟩
  have := hgreatest ⟨(hmem (i + 1)).mpr (.inr ⟨i, rfl, hbyte⟩), hio⟩
  omega

theorem position_ofText (text : String) (offset : Nat) :
    ((ofText text).position offset).line = ((bytes text).take offset).count newline ∧
      ∃ start, StartsLine (bytes text) offset start ∧
        (ofText text).starts[((ofText text).position offset).line]? = some start ∧
        start + ((ofText text).position offset).character = offset := by
  have hrising := starts_ofText_rising text
  have hstarts := starts_ofText text
  rw [hstarts] at hrising
  obtain ⟨start, hfound, hgreatest⟩ := last_start hrising (Nat.zero_le offset)
  have hline := lineAt_eq hstarts hrising (Nat.zero_le offset)
  have hcount : ((bytes text).findIdxs (· == newline) 1).countP (· ≤ offset) =
      ((bytes text).take offset).count newline := by
    rw [List.count, ← countP_findIdxs _ _ 1 offset]
    simp only [Nat.add_comm 1, Nat.lt_succ_iff]
  simp only [position, hline, hstarts, hfound]
  exact ⟨hcount, start, startsLine_of_isGreatest (hstarts ▸ hgreatest), rfl,
    Nat.add_sub_of_le hgreatest.1.2⟩

theorem position_in_line {text : String} {above before rest : List Char}
    (htext : text.toList = above ++ (before ++ rest))
    (habove : above = [] ∨ above.getLast? = some '\n') (hbefore : '\n' ∉ before) :
    (ofText text).position (byteLength (above ++ before)) = ⟨above.count '\n', byteLength before⟩ := by
  have hbytes : bytes text = (above ++ before).flatMap String.utf8EncodeChar ++
      rest.flatMap String.utf8EncodeChar := by
    rw [bytes_eq, htext, ← List.append_assoc, List.flatMap_append]
  obtain ⟨hline, start, hstarts, -, hcolumn⟩ := position_ofText text (byteLength (above ++ before))
  rw [hbytes, ← length_encoded, List.take_left, count_encoded, List.count_append,
    List.count_eq_zero.mpr hbefore, length_encoded] at hline
  -- The line starts neither inside of the lines above nor behind a later newline.
  have hstart : start = byteLength above := by
    apply Nat.le_antisymm
    · by_contra hlt
      obtain rfl | ⟨newlineAt, rfl, hbyte⟩ := hstarts.behind
      · omega
      have hle := hstarts.le
      rw [byteLength_append] at hle
      rw [hbytes, List.flatMap_append, List.append_assoc,
        List.getElem?_append_right (by rw [length_encoded]; omega),
        List.getElem?_append_left (by simp only [length_encoded]; omega)] at hbyte
      exact hbefore (newline_mem_encoded.mp (List.mem_of_getElem? hbyte))
    · obtain rfl | habove := habove
      · exact Nat.zero_le _
      by_contra hlt
      obtain ⟨others, rfl⟩ := List.getLast?_eq_some_iff.mp habove
      have hsize : byteLength (others ++ ['\n']) = byteLength others + 1 := byteLength_append others _
      rw [hsize] at hlt
      refine hstarts.last (byteLength others) (by omega) ?_ ?_
      · rw [byteLength_append, hsize]
        omega
      · rw [hbytes, List.flatMap_append, List.flatMap_append, List.append_assoc, List.append_assoc,
          List.getElem?_append_right (by rw [length_encoded])]
        rw [length_encoded, Nat.sub_self]
        rfl
  have hbehind := byteLength_append above before
  have hcharacter : ((ofText text).position (byteLength (above ++ before))).character =
      byteLength before := by omega
  rw [← hcharacter, ← Nat.add_zero (above.count _), ← hline]

end LineMap

/-- The line of an offset is the number of newlines before it and the character its distance from
the start of the line, which is in the table and not behind it. There is a line more than there are
newlines, no start lies outside the text, and positions rise with the offsets. -/
theorem line_positions_exact (text : String) :
    (LineMap.ofText text).lineCount = (bytes text).count newline + 1 ∧
      (∀ start ∈ (LineMap.ofText text).starts, start ≤ text.utf8ByteSize) ∧
      (∀ offset,
        ((LineMap.ofText text).position offset).line = ((bytes text).take offset).count newline ∧
          ∃ start, StartsLine (bytes text) offset start ∧
            (LineMap.ofText text).starts[((LineMap.ofText text).position offset).line]? =
              some start ∧
            start + ((LineMap.ofText text).position offset).character = offset) ∧
      StrictMono fun offset => toLex (((LineMap.ofText text).position offset).line,
        ((LineMap.ofText text).position offset).character) := by
  refine ⟨?_, ?_, LineMap.position_ofText text, fun a b hab => ?_⟩
  · rw [LineMap.lineCount, LineMap.starts_ofText, List.length_cons, List.length_findIdxs]
    rfl
  · rw [LineMap.starts_ofText]
    refine List.forall_mem_cons.mpr ⟨Nat.zero_le _, fun start hs => ?_⟩
    exact Nat.le_of_lt_succ (List.lt_add_of_mem_findIdxs start hs)
  · obtain ⟨hline, start, -, hstart, hcolumn⟩ := LineMap.position_ofText text a
    obtain ⟨hline', start', -, hstart', hcolumn'⟩ := LineMap.position_ofText text b
    have hle : ((LineMap.ofText text).position a).line ≤ ((LineMap.ofText text).position b).line := by
      rw [hline, hline']
      exact (List.take_sublist_take_left (Nat.le_of_lt hab)).count_le newline
    rw [Prod.Lex.toLex_lt_toLex]
    obtain hlt | heq := Nat.lt_or_eq_of_le hle
    · exact .inl hlt
    · -- Offsets of one line are counted from the same start.
      rw [heq, hstart'] at hstart
      cases hstart
      exact .inr ⟨heq, by omega⟩

end ArrayLoops.Text
