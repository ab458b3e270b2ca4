import ArrayLoops.Token.Scanner
import Mathlib.Logic.Function.Iterate

/-!
# Going back to a snapshot

A scanner is used by scanning, by making snapshots and by going back to any of those made before. Going
back leads to the token at which the snapshot was made, and from there to the same tokens and the same
new complaints. The complaints that were there are known by their number only: they are the same ones
unless the list was shorter in the meantime.
-/

namespace ArrayLoops.Scanner

def tokens (s : Scanner) : Nat → List Token
  | 0 => []
  | count + 1 => s.scan.current :: s.scan.tokens count

theorem complaints_iterate (s : Scanner) (count : Nat) :
    (scan^[count] s).complaints = s.complaints ++ (s.tokens count).flatMap (·.complaints) := by
  induction count generalizing s with
  | zero => simp [tokens]
  | succ count ih => simp [tokens, ih, scan]

theorem tokens_eq {s t : Scanner} (hcurrent : s.current = t.current) (hrest : s.rest = t.rest)
    (count : Nat) : s.tokens count = t.tokens count := by
  induction count generalizing s t with
  | zero => rfl
  | succ count ih =>
    have hscan : s.scan.current = t.scan.current ∧ s.scan.rest = t.scan.rest := by
      simp [scan, hcurrent, hrest]
    rw [tokens, tokens, hscan.1, ih hscan.1 hscan.2]

inductive Act where
  | scan
  | save
  | restore (number : Nat)

/-- A scanner and the snapshots made of it. -/
structure Session where
  scanner : Scanner
  snapshots : List Snapshot

namespace Session

def ofText (source : String) : Session := ⟨.ofText source, []⟩

def act (s : Session) : Act → Session
  | .scan => { s with scanner := s.scanner.scan }
  | .save => { s with snapshots := s.snapshots ++ [s.scanner.save] }
  | .restore number =>
    match s.snapshots[number]? with
    | some snapshot => { s with scanner := s.scanner.restore snapshot }
    | none => s

def after (s : Session) (acts : List Act) : Session := acts.foldl act s

variable {s : Session} {kept : List Complaint}

theorem snapshots_act (s : Session) (a : Act) : s.snapshots <+: (s.act a).snapshots := by
  cases a with
  | scan => exact List.prefix_refl _
  | save => exact List.prefix_append _ _
  | restore number =>
    rw [act]
    split <;> exact List.prefix_refl _

theorem snapshots_after (s : Session) (acts : List Act) : s.snapshots <+: (s.after acts).snapshots :=
  List.foldlRecOn (motive := (s.snapshots <+: ·.snapshots)) acts act (List.prefix_refl _)
    fun t h a _ => h.trans (t.snapshots_act a)

theorem kept_act (h : kept <+: s.scanner.complaints) (a : Act)
    (hlong : kept.length ≤ (s.act a).scanner.complaints.length) :
    kept <+: (s.act a).scanner.complaints := by
  cases a with
  | scan => exact h.trans (List.prefix_append _ _)
  | save => exact h
  | restore number =>
    rw [act] at hlong ⊢
    split at hlong
    -- The list is cut, but not shorter than what is kept of it.
    · simp only [restore, List.length_take] at hlong ⊢
      exact List.prefix_take_iff.mpr ⟨h, by omega⟩
    · exact h

theorem kept_after (h : kept <+: s.scanner.complaints) (acts : List Act)
    (hlong : ∀ part, part <+: acts → kept.length ≤ (s.after part).scanner.complaints.length) :
    kept <+: (s.after acts).scanner.complaints := by
  induction acts generalizing s with
  | nil => exact h
  | cons a acts ih =>
    refine ih (kept_act h a (hlong [a] ?_)) fun part hpart => hlong (a :: part) ?_
    · exact List.cons_prefix_cons.mpr ⟨rfl, List.nil_prefix⟩
    · exact List.cons_prefix_cons.mpr ⟨rfl, hpart⟩

theorem restore_saved (saved : Session) (between : List Act) :
    saved.after (.save :: between ++ [.restore saved.snapshots.length]) =
      { saved.after (.save :: between) with
        scanner := (saved.after (.save :: between)).scanner.restore saved.scanner.save } := by
  obtain ⟨later, hlater⟩ := snapshots_after (saved.act .save) between
  have hfound : (saved.after (.save :: between)).snapshots[saved.snapshots.length]? =
      some saved.scanner.save := by
    change ((saved.act .save).after between).snapshots[_]? = _
    rw [← hlater]
    simp [act]
  have hlast : saved.after (.save :: between ++ [.restore saved.snapshots.length]) =
      (saved.after (.save :: between)).act (.restore saved.snapshots.length) := by
    simp only [after, List.foldl_append, List.foldl_cons, List.foldl_nil]
  rw [hlast, act, hfound]

/-- Going back to a snapshot leads to the token at which it was made. From there the same tokens are
read, with the same complaints. The complaints from before are those that were there when it was
made, if there were never fewer of them since. -/
theorem snapshot_rewinds (source : String) (before between : List Act) :
    let saved := (ofText source).after before
    let restored := saved.after (.save :: between ++ [.restore saved.snapshots.length])
    restored.scanner.current = saved.scanner.current ∧
      (∀ count, restored.scanner.tokens count = saved.scanner.tokens count ∧
        ∃ new, (scan^[count] restored.scanner).complaints = restored.scanner.complaints ++ new ∧
          (scan^[count] saved.scanner).complaints = saved.scanner.complaints ++ new) ∧
      ((∀ part, part <+: between → saved.scanner.complaints.length ≤
          (saved.after (.save :: part)).scanner.complaints.length) →
        restored.scanner.complaints = saved.scanner.complaints) := by
  intro saved restored
  have hrestored : restored.scanner = (saved.after (.save :: between)).scanner.restore saved.scanner.save :=
    congrArg scanner (restore_saved saved between)
  have htokens : ∀ count, restored.scanner.tokens count = saved.scanner.tokens count := fun count =>
    tokens_eq (by rw [hrestored]; rfl) (by rw [hrestored]; rfl) count
  refine ⟨by rw [hrestored]; rfl, fun count => ⟨htokens count, ?_⟩, fun hlong => ?_⟩
  · exact ⟨_, complaints_iterate _ _, htokens count ▸ complaints_iterate _ _⟩
  · have hkept : saved.scanner.complaints <+: (saved.after (.save :: between)).scanner.complaints :=
      kept_after (s := saved.act .save) (List.prefix_refl _) between hlong
    rw [hrestored]
    exact (List.prefix_iff_eq_take.mp hkept).symm

/-- Where the list was shorter in the meantime, the complaints do not come back. -/
example :
    let saved := (ofText "#").after [.save, .scan]
    saved.scanner.complaints.length = 1 ∧
      (saved.after [.save, .restore 0, .restore 1]).scanner.complaints = [] := by
  decide

end Session

end ArrayLoops.Scanner
