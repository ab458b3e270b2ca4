import ArrayLoops.Equivalence
import Mathlib.Data.Nat.Find
import Mathlib.Order.Bounds.Basic

/-!
# The comparison of two runs is exact

Logs are compared line by line up to the end of the longer one. The first difference is at the least
number under which the one log has another line than the other, or a line where the other has none.
Endings are compared only if there is no such number.
-/

namespace ArrayLoops

theorem firstDifference_self (line : Nat) (log : List String) : firstDifference line log log = none := by
  induction log generalizing line with
  | nil => rfl
  | cons a log ih => rw [firstDifference, if_pos rfl, ih]

theorem firstDifference_of_isLeast {before lowered : List String} {i : Nat} (line : Nat)
    (h : IsLeast {i | before[i]? ≠ lowered[i]?} i) :
    firstDifference line before lowered = some (.log (line + i) before[i]? lowered[i]?) := by
  obtain ⟨hdiffer, hleast⟩ := h
  induction i generalizing line before lowered with
  | zero => cases before <;> cases lowered <;> simp_all [firstDifference]
  | succ i ih =>
    -- Before the difference neither log has ended, and their lines are the same.
    have hfirst : before[0]? = lowered[0]? := by
      by_contra hne
      exact absurd (hleast hne) (Nat.not_succ_le_zero i)
    cases before with
    | nil =>
      cases lowered with
      | nil => exact absurd rfl hdiffer
      | cons b bs => simp at hfirst
    | cons a as =>
      cases lowered with
      | nil => simp at hfirst
      | cons b bs =>
        simp only [List.getElem?_cons_zero, Option.some.injEq] at hfirst
        have hrest : i ∈ lowerBounds {i | as[i]? ≠ bs[i]?} := by
          intro j hj
          exact Nat.le_of_succ_le_succ (@hleast (j + 1) (by simpa using hj))
        rw [firstDifference, if_pos hfirst, ih (line + 1) hdiffer hrest, List.getElem?_cons_succ,
          List.getElem?_cons_succ, Nat.add_right_comm, Nat.add_assoc]

theorem exists_isLeast_difference {before lowered : List String} (h : before ≠ lowered) :
    ∃ i : Nat, IsLeast {i | before[i]? ≠ lowered[i]?} i := by
  have hsome : ∃ i : Nat, before[i]? ≠ lowered[i]? := by
    by_contra hnone
    exact h (List.ext_getElem? (by simpa using hnone))
  exact ⟨_, Nat.find_spec hsome, fun i hi => Nat.find_min' hsome hi⟩

namespace Outcome

variable {before lowered : Outcome}

theorem divergence_of_log_eq (h : before.log = lowered.log) :
    before.divergence lowered =
      if before.ending = lowered.ending then none
      else some (.ending before.ending lowered.ending) := by
  rw [divergence, h, firstDifference_self]

theorem divergence_of_isLeast {line : Nat}
    (h : IsLeast {i | before.log[i]? ≠ lowered.log[i]?} line) :
    before.divergence lowered = some (.log line before.log[line]? lowered.log[line]?) := by
  rw [divergence, firstDifference_of_isLeast 0 h, Nat.zero_add]

theorem divergence_cases (before lowered : Outcome) :
    (before.log = lowered.log ∧ before.ending = lowered.ending ∧
        before.divergence lowered = none) ∨
      (before.log = lowered.log ∧ before.ending ≠ lowered.ending ∧
        before.divergence lowered = some (.ending before.ending lowered.ending)) ∨
      (before.log ≠ lowered.log ∧ ∃ line, IsLeast {i | before.log[i]? ≠ lowered.log[i]?} line ∧
        before.divergence lowered = some (.log line before.log[line]? lowered.log[line]?)) := by
  by_cases hlog : before.log = lowered.log
  · by_cases hending : before.ending = lowered.ending
    · exact .inl ⟨hlog, hending, by rw [divergence_of_log_eq hlog, if_pos hending]⟩
    · exact .inr (.inl ⟨hlog, hending, by rw [divergence_of_log_eq hlog, if_neg hending]⟩)
  · obtain ⟨line, hline⟩ := exists_isLeast_difference hlog
    exact .inr (.inr ⟨hlog, line, hline, divergence_of_isLeast hline⟩)

theorem isLeast_length {log : List String} {first : String} {rest : List String} :
    IsLeast {i | log[i]? ≠ (log ++ first :: rest)[i]?} log.length := by
  refine ⟨by simp, fun i hi => ?_⟩
  by_contra hlt
  exact hi (List.getElem?_append_left (Nat.lt_of_not_le hlt)).symm

end Outcome

/-- Nothing diverges exactly if the logs and the endings are the same. Otherwise the divergence is at
the least line where the logs differ, a line behind the end of a log being missing, or between the
endings if the logs are the same. -/
theorem divergence_exact (comparison : Comparison) :
    (comparison.divergence = none ↔ comparison.before.log = comparison.lowered.log ∧
        comparison.before.ending = comparison.lowered.ending) ∧
      (comparison.isEquivalent = true ↔ comparison.divergence = none) ∧
      (comparison.before.log ≠ comparison.lowered.log ↔
        ∃ line, IsLeast {i | comparison.before.log[i]? ≠ comparison.lowered.log[i]?} line ∧
          comparison.divergence =
            some (.log line comparison.before.log[line]? comparison.lowered.log[line]?)) ∧
      ((comparison.before.log = comparison.lowered.log ∧
          comparison.before.ending ≠ comparison.lowered.ending) ↔
        comparison.divergence =
          some (.ending comparison.before.ending comparison.lowered.ending)) ∧
      (∀ first rest, comparison.lowered.log = comparison.before.log ++ first :: rest →
        comparison.divergence =
          some (.log comparison.before.log.length none (some first))) ∧
      (∀ first rest, comparison.before.log = comparison.lowered.log ++ first :: rest →
        comparison.divergence =
          some (.log comparison.lowered.log.length (some first) none)) := by
  have hcases := Outcome.divergence_cases comparison.before comparison.lowered
  refine ⟨?_, Option.isNone_iff_eq_none, ?_, ?_, fun first rest h => ?_, fun first rest h => ?_⟩
  · obtain ⟨hlog, hending, h⟩ | ⟨-, hending, h⟩ | ⟨hlog, line, -, h⟩ := hcases
    · simp [Comparison.divergence, h, hlog, hending]
    · simp [Comparison.divergence, h, hending]
    · simp [Comparison.divergence, h, hlog]
  · obtain ⟨hlog, -, h⟩ | ⟨hlog, -, h⟩ | ⟨hlog, line, hline, h⟩ := hcases
    · simp [Comparison.divergence, h, hlog]
    · simp [Comparison.divergence, h, hlog]
    · exact iff_of_true hlog ⟨line, hline, h⟩
  · obtain ⟨-, hending, h⟩ | ⟨hlog, hending, h⟩ | ⟨hlog, line, -, h⟩ := hcases
    · simp [Comparison.divergence, h, hending]
    · exact iff_of_true ⟨hlog, hending⟩ h
    · simp [Comparison.divergence, h, hlog]
  · have hline := @Outcome.isLeast_length comparison.before.log first rest
    rw [← h] at hline
    rw [Comparison.divergence, Outcome.divergence_of_isLeast hline]
    simp [h]
  · have hline := @Outcome.isLeast_length comparison.lowered.log first rest
    simp only [ne_comm, ← h] at hline
    rw [Comparison.divergence, Outcome.divergence_of_isLeast hline]
    simp [h]

end ArrayLoops
