import ArrayLoops.Lowering.Names
import Mathlib.Data.List.Nodup
import Mathlib.Data.List.Range

/-!
# Names that are given out

A name that is given out is not taken: of one candidate more than there are names taken, one is
free. The names of a call are given out one after the other, so they differ from each other, from
the names of the program and from all names of the functions that are open.
-/

namespace ArrayLoops.Lowering

namespace Names

theorem candidate_injective (hint : String) : Function.Injective (candidate hint) := by
  intro a b h
  have hdigits : ∀ n : Nat, toString (n + 1) ≠ "" := by
    intro n hn
    have := congrArg String.toList hn
    simp [Nat.toString_eq_repr, Nat.toList_repr] at this
  simp only [candidate, String.append_right_inj] at h
  split at h <;> split at h
  · simp_all
  · exact absurd h.symm (hdigits b)
  · exact absurd h (hdigits a)
  · have := congrArg (fun text => Nat.ofDigitChars 10 text.toList 0) h
    simpa [Nat.toString_eq_repr, Nat.toList_repr] using this

theorem firstFree_spec (taken : List String) (hint : String) (count i : Nat) :
    ∃ j, firstFree taken hint count i = candidate hint (i + j) ∧ j ≤ count ∧
      (∀ k < j, candidate hint (i + k) ∈ taken) ∧
      (j < count → candidate hint (i + j) ∉ taken) := by
  induction count generalizing i with
  | zero => exact ⟨0, rfl, Nat.le_refl _, nofun, nofun⟩
  | succ count ih =>
    by_cases h : candidate hint i ∈ taken
    · obtain ⟨j, hfree, hle, hbefore, hfound⟩ := ih (i + 1)
      refine ⟨j + 1, ?_, Nat.succ_le_succ hle, fun k hk => ?_, fun hlt => ?_⟩
      · rw [firstFree, if_pos (by simpa using h), hfree, Nat.add_assoc, Nat.add_comm 1]
      · cases k with
        | zero => exact h
        | succ k =>
          have := hbefore k (Nat.lt_of_succ_lt_succ hk)
          rwa [Nat.add_assoc, Nat.add_comm 1] at this
      · have := hfound (Nat.lt_of_succ_lt_succ hlt)
        rwa [Nat.add_assoc, Nat.add_comm 1] at this
    · refine ⟨0, ?_, Nat.zero_le _, nofun, fun _ => h⟩
      rw [firstFree, if_neg (by simpa using h)]
      rfl

theorem fresh_eq_candidate (names : Names) (hint : String) :
    ∃ i, (names.fresh hint).1 = candidate hint i := by
  obtain ⟨j, hfree, -⟩ := firstFree_spec names.taken hint names.taken.length 0
  exact ⟨_, hfree⟩

theorem fresh_not_mem (names : Names) (hint : String) : (names.fresh hint).1 ∉ names.taken := by
  obtain ⟨j, hfree, hle, hbefore, hfound⟩ :=
    firstFree_spec names.taken hint names.taken.length 0
  change firstFree names.taken hint names.taken.length 0 ∉ names.taken
  rw [hfree]
  intro hm
  obtain rfl : j = names.taken.length :=
    Nat.le_antisymm hle (Nat.le_of_not_lt fun hlt => hfound hlt hm)
  -- Now all of one candidate more than there are names are taken.
  have hsubset : (List.range (names.taken.length + 1)).map (candidate hint) ⊆ names.taken := by
    intro name hname
    obtain ⟨k, hk, rfl⟩ := List.mem_map.mp hname
    obtain hk | rfl := Nat.lt_succ_iff_lt_or_eq.mp (List.mem_range.mp hk)
    · simpa using hbefore k hk
    · simpa using hm
  have hnodup : ((List.range (names.taken.length + 1)).map (candidate hint)).Nodup :=
    List.nodup_range.map (candidate_injective hint)
  have hlength := hnodup.length_le_of_subset hsubset
  rw [List.length_map, List.length_range] at hlength
  exact Nat.not_succ_le_self _ hlength

theorem fresh_head (names : Names) (hint : String) :
    (names.fresh hint).1.toList.head? = some '_' := by
  obtain ⟨i, hi⟩ := fresh_eq_candidate names hint
  simp [hi, candidate]

def freshAll (names : Names) : List String → List String × Names
  | [] => ([], names)
  | hint :: hints =>
    let rest := freshAll (names.fresh hint).2 hints
    ((names.fresh hint).1 :: rest.1, rest.2)

structure Gives (names : Names) (given : List String) (later : Names) : Prop where
  reserved : later.reserved = names.reserved
  outer : later.outer = names.outer
  inner : later.inner.Perm (given ++ names.inner)
  nodup : given.Nodup
  fresh : ∀ name ∈ given, name ∉ names.taken
  head : ∀ name ∈ given, name.toList.head? = some '_'

namespace Gives

variable {names middle later : Names} {given more : List String}

theorem nothing (names : Names) : Gives names [] names :=
  ⟨rfl, rfl, .refl _, List.nodup_nil, nofun, nofun⟩

theorem mem_taken (h : Gives names given later) {name : String} :
    name ∈ later.taken ↔ name ∈ given ∨ name ∈ names.taken := by
  simp only [taken, h.reserved, h.outer, List.mem_append, h.inner.mem_iff]
  tauto

theorem trans (h : Gives names given middle) (hmore : Gives middle more later) :
    Gives names (given ++ more) later where
  reserved := hmore.reserved.trans h.reserved
  outer := hmore.outer.trans h.outer
  inner := by
    refine hmore.inner.trans ?_
    refine (h.inner.append_left more).trans ?_
    rw [← List.append_assoc]
    exact List.perm_append_comm.append_right _
  nodup := by
    refine h.nodup.append hmore.nodup fun name hn hm => ?_
    exact hmore.fresh name hm (h.mem_taken.mpr (.inl hn))
  fresh name hm := by
    obtain hm | hm := List.mem_append.mp hm
    · exact h.fresh name hm
    · exact fun ht => hmore.fresh name hm (h.mem_taken.mpr (.inr ht))
  head name hm := by
    obtain hm | hm := List.mem_append.mp hm
    · exact h.head name hm
    · exact hmore.head name hm

end Gives

theorem gives_fresh (names : Names) (hint : String) :
    Gives names [(names.fresh hint).1] (names.fresh hint).2 := by
  refine ⟨rfl, rfl, .refl _, List.nodup_singleton _, ?_, ?_⟩
  · simpa using fresh_not_mem names hint
  · simpa using fresh_head names hint

theorem gives_freshAll (names : Names) (hints : List String) :
    Gives names (names.freshAll hints).1 (names.freshAll hints).2 := by
  induction hints generalizing names with
  | nil => exact .nothing names
  | cons hint hints ih => exact (gives_fresh names hint).trans (ih _)

end Names

end ArrayLoops.Lowering
