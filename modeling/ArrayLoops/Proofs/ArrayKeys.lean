import ArrayLoops.Machine.Conversion
import Mathlib.Algebra.Group.Nat.Defs
import Mathlib.Logic.ExistsUnique

/-!
# Keys of array elements

A key stands for a place in an array exactly if it is the place's number, written out in decimal.
Reading a digit appends it to what the number read so far is written as, unless that is zero; so a
key that does not begin with a zero is what its number is written as.
-/

namespace ArrayLoops.Machine

theorem digitChar_of_isDigit {c : Char} (h : c.isDigit) :
    c.toNat - '0'.toNat < 10 ∧ Nat.digitChar (c.toNat - '0'.toNat) = c := by
  have hc : 48 ≤ c.toNat ∧ c.toNat ≤ 57 := by
    simpa [Char.isDigit, UInt32.le_iff_toNat_le] using h
  have hzero : '0'.toNat = 48 := rfl
  refine ⟨by omega, Char.toNat_inj.mp ?_⟩
  rw [Nat.toNat_digitChar_of_lt_ten (by omega)]
  omega

theorem toDigits_ofDigitChars {cs : List Char} (hcs : ∀ c ∈ cs, c.isDigit) {n : Nat} (hn : 0 < n) :
    Nat.toDigits 10 (Nat.ofDigitChars 10 cs n) = Nat.toDigits 10 n ++ cs := by
  induction cs generalizing n with
  | nil => simp
  | cons c rest ih =>
    obtain ⟨hlt, hdigit⟩ := digitChar_of_isDigit (hcs c List.mem_cons_self)
    have hread : Nat.toDigits 10 (10 * n + (c.toNat - '0'.toNat)) = Nat.toDigits 10 n ++ [c] := by
      rw [← Nat.toDigits_append_toDigits (by decide) hn hlt, Nat.toDigits_of_lt_base hlt, hdigit]
    rw [Nat.ofDigitChars_cons, ih (fun d hd => hcs d (List.mem_cons_of_mem _ hd)) (by omega), hread,
      List.append_assoc, List.singleton_append]

theorem toDigits_of_not_zero {c : Char} {cs : List Char} (hcs : ∀ d ∈ c :: cs, d.isDigit)
    (hc : c ≠ '0') : Nat.toDigits 10 (Nat.ofDigitChars 10 (c :: cs) 0) = c :: cs := by
  obtain ⟨hlt, hdigit⟩ := digitChar_of_isDigit (hcs c List.mem_cons_self)
  have hpos : 0 < c.toNat - '0'.toNat := by
    rw [Nat.pos_iff_ne_zero]
    intro hzero
    rw [hzero] at hdigit
    exact hc hdigit.symm
  rw [Nat.ofDigitChars_cons, Nat.mul_zero, Nat.zero_add,
    toDigits_ofDigitChars (fun d hd => hcs d (List.mem_cons_of_mem _ hd)) hpos,
    Nat.toDigits_of_lt_base hlt, hdigit, List.singleton_append]

theorem head?_toDigits {n : Nat} (hn : 0 < n) : (Nat.toDigits 10 n).head? ≠ some '0' := by
  induction n using Nat.strongRecOn with
  | _ n ih =>
    rw [Nat.toDigits_eq_if (by decide)]
    split
    · simpa using Nat.ne_of_gt hn
    · rw [List.head?_append, ne_eq, Option.or_eq_some_iff]
      simpa using ih (n / 10) (by omega) (by omega)

theorem arrayIndex?_eq_some {key : String} {n : Nat} :
    arrayIndex? key = some n ↔ n < 2 ^ 64 ∧ key.toList ≠ [] ∧
      (1 < key.toList.length → key.toList.head? ≠ some '0') ∧ (∀ c ∈ key.toList, c.isDigit) ∧
      Nat.ofDigitChars 10 key.toList 0 = n := by
  have hfold : key.toList.foldl (fun n c => n * 10 + (c.toNat - '0'.toNat)) 0 =
      Nat.ofDigitChars 10 key.toList 0 := by
    simp only [Nat.ofDigitChars_eq_foldl, Nat.mul_comm]
  have hpower : Nat.pow 2 64 = 2 ^ 64 := rfl
  simp only [arrayIndex?, hfold, Number.twoTo, hpower]
  grind

theorem arrayIndex?_toString {n : Nat} (hn : n < 2 ^ 64) : arrayIndex? (toString n) = some n := by
  rw [arrayIndex?_eq_some, Nat.toString_eq_repr, Nat.toList_repr]
  refine ⟨hn, Nat.toDigits_ne_nil, fun hlength => head?_toDigits ?_,
    fun c hc => Nat.isDigit_of_mem_toDigits (by decide) (by decide) hc,
    Nat.ofDigitChars_toDigits (by decide) (by decide)⟩
  -- Only a single digit can be that of zero.
  rw [Nat.pos_iff_ne_zero]
  rintro rfl
  simp at hlength

theorem eq_toString_of_arrayIndex? {key : String} {n : Nat} (h : arrayIndex? key = some n) :
    key = toString n := by
  obtain ⟨-, hne, hzero, hdigits, rfl⟩ := arrayIndex?_eq_some.mp h
  rw [← String.toList_inj, Nat.toString_eq_repr, Nat.toList_repr]
  generalize key.toList = cs at *
  match cs with
  | [] => exact absurd rfl hne
  | c :: rest =>
    by_cases hc : c = '0'
    · subst hc
      cases rest with
      | nil => rfl
      | cons => exact absurd rfl (hzero (by simp))
    · exact (toDigits_of_not_zero hdigits hc).symm

/-- A key stands for the place of a number exactly if it is the number, below `2 ^ 64`, written out.
So no two keys stand for the same place, and every place has one key. -/
theorem array_key_iff_spelling (key : String) (n : Nat) :
    (arrayIndex? key = some n ↔ n < 2 ^ 64 ∧ key = toString n) ∧
    (∀ other, arrayIndex? key = some n → arrayIndex? other = some n → other = key) ∧
    ((∃! one, arrayIndex? one = some n) ↔ n < 2 ^ 64) := by
  have hspelling : ∀ text, arrayIndex? text = some n ↔ n < 2 ^ 64 ∧ text = toString n := by
    refine fun text => ⟨fun h => ?_, ?_⟩
    · exact ⟨(arrayIndex?_eq_some.mp h).1, eq_toString_of_arrayIndex? h⟩
    · rintro ⟨hn, rfl⟩
      exact arrayIndex?_toString hn
  refine ⟨hspelling key, fun other hkey hother => ?_, fun h => ?_, fun hn => ?_⟩
  · exact (eq_toString_of_arrayIndex? hother).trans (eq_toString_of_arrayIndex? hkey).symm
  · obtain ⟨one, hone, -⟩ := h
    exact ((hspelling one).mp hone).1
  · exact ⟨toString n, arrayIndex?_toString hn, fun text => eq_toString_of_arrayIndex?⟩

end ArrayLoops.Machine
