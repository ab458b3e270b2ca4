import ArrayLoops.Proofs.FreshNames
import Mathlib.Data.List.Nodup

/-!
# Names of open functions

Names are given out while functions are opened and closed. At any time no name is in use in two open
functions or in one of them and in the program. A name is not given out again before the function is
closed in which it was given out.
-/

namespace ArrayLoops.Lowering.Names

def scopes (names : Names) : List (List String) := names.inner :: names.outer

def Free (names : Names) (name : String) : Prop :=
  name ∉ names.reserved ∧ ∀ scope ∈ names.scopes, name ∉ scope

variable {names : Names} {name : String}

theorem mem_taken_iff :
    name ∈ names.taken ↔ name ∈ names.reserved ∨ name ∈ names.scopes.flatten := by
  simp [taken, scopes, List.append_assoc]

theorem free_iff : names.Free name ↔ name ∉ names.taken := by
  simp [mem_taken_iff, Free]

theorem depth_eq_length (names : Names) : names.depth = names.scopes.length := rfl

theorem fresh_first (names : Names) (hint : String) : ∃ i ≤ names.taken.length,
    (names.fresh hint).1 = candidate hint i ∧ names.Free (candidate hint i) ∧
      ∀ j < i, ¬ names.Free (candidate hint j) := by
  obtain ⟨i, hfirst, hle, hbefore, -⟩ := firstFree_spec names.taken hint names.taken.length 0
  rw [Nat.zero_add] at hfirst
  refine ⟨i, hle, hfirst, free_iff.mpr ?_, fun j hj hfree => free_iff.mp hfree ?_⟩
  · rw [← hfirst]
    exact fresh_not_mem names hint
  · simpa using hbefore j hj

inductive Act where
  | fresh (hint : String)
  | enter
  | exit

def act (names : Names) : Act → Names
  | .fresh hint => (names.fresh hint).2
  | .enter => names.enter
  | .exit => names.exit

def after (names : Names) (acts : List Act) : Names := acts.foldl act names

theorem act_cases (names : Names) (a : Act) : (names.act a).reserved = names.reserved ∧
    ((∃ new ∉ names.taken, (names.act a).scopes = (new :: names.inner) :: names.outer) ∨
      (names.act a).scopes = [] :: names.scopes ∨
      names.scopes = names.inner :: (names.act a).scopes ∨ names.act a = names) := by
  cases a with
  | fresh hint => exact ⟨rfl, .inl ⟨_, fresh_not_mem names hint, rfl⟩⟩
  | enter => exact ⟨rfl, .inr (.inl rfl)⟩
  | exit =>
    cases houter : names.outer with
    | nil =>
      have hsame : names.act .exit = names := by simp [act, exit, houter]
      exact ⟨by rw [hsame], .inr (.inr (.inr hsame))⟩
    | cons scope outer => simp [act, exit, houter, scopes]

theorem reserved_after (names : Names) (acts : List Act) :
    (names.after acts).reserved = names.reserved :=
  List.foldlRecOn (motive := (·.reserved = names.reserved)) acts act rfl
    fun later h a _ => (later.act_cases a).1.trans h

structure Separate (names : Names) : Prop where
  nodup : names.scopes.flatten.Nodup
  unreserved : ∀ name ∈ names.scopes.flatten, name ∉ names.reserved

namespace Separate

theorem act (h : Separate names) (a : Act) : Separate (names.act a) := by
  obtain ⟨hreserved, ⟨new, hnew, hscopes⟩ | hscopes | hscopes | hsame⟩ := names.act_cases a
  · have hflat : (names.act a).scopes.flatten = new :: names.scopes.flatten := by
      rw [hscopes]
      rfl
    rw [mem_taken_iff, not_or] at hnew
    refine ⟨hflat ▸ List.nodup_cons.mpr ⟨hnew.2, h.nodup⟩, ?_⟩
    rw [hflat, hreserved]
    exact List.forall_mem_cons.mpr ⟨hnew.1, h.unreserved⟩
  · refine ⟨hscopes ▸ h.nodup, ?_⟩
    rw [hscopes, hreserved]
    exact h.unreserved
  · have hflat : names.scopes.flatten = names.inner ++ (names.act a).scopes.flatten := by
      rw [hscopes]
      rfl
    refine ⟨(hflat ▸ h.nodup).of_append_right, fun name hname => hreserved ▸ h.unreserved name ?_⟩
    rw [hflat]
    exact List.mem_append_right _ hname
  · rwa [hsame]

theorem after (h : Separate names) (acts : List Act) : Separate (names.after acts) :=
  List.foldlRecOn acts Names.act h fun _ h a _ => h.act a

end Separate

theorem separate_ofReserved (reserved : List String) : Separate (ofReserved reserved) :=
  ⟨List.nodup_nil, nofun⟩

/-- The names given out in so many of the open functions, from the top level inwards. -/
def outermost (names : Names) (count : Nat) : List String :=
  (names.scopes.drop (names.scopes.length - count)).flatten

theorem mem_taken_of_outermost {count : Nat} (h : name ∈ names.outermost count) : name ∈ names.taken := by
  obtain ⟨scope, hscope, hname⟩ := List.mem_flatten.mp h
  exact mem_taken_iff.mpr (.inr (List.mem_flatten.mpr ⟨scope, List.mem_of_mem_drop hscope, hname⟩))

theorem outermost_act {count : Nat} (h : name ∈ names.outermost count) (a : Act)
    (hopen : count ≤ names.depth) (hstays : count ≤ (names.act a).depth) :
    name ∈ (names.act a).outermost count := by
  have hcons : ∀ (scope : List String) (scopes : List (List String)), count ≤ scopes.length →
      (scope :: scopes).drop ((scope :: scopes).length - count) =
        scopes.drop (scopes.length - count) := by
    intro scope scopes hcount
    rw [List.length_cons, Nat.succ_sub hcount, List.drop_succ_cons]
  rw [depth_eq_length] at hopen hstays
  unfold outermost at h ⊢
  obtain ⟨-, ⟨new, -, hscopes⟩ | hscopes | hscopes | hsame⟩ := names.act_cases a
  · rw [hscopes]
    rw [scopes] at h
    -- The innermost function, which gets the new name, is counted only if all functions are.
    by_cases hcount : count ≤ names.outer.length
    · rwa [hcons _ _ hcount] at h ⊢
    · have hall : names.outer.length + 1 - count = 0 := by omega
      rw [List.length_cons, hall, List.drop_zero, List.flatten_cons] at h ⊢
      exact List.mem_cons_of_mem _ h
  · rwa [hscopes, hcons _ _ hopen]
  · rwa [hscopes, hcons _ _ hstays] at h
  · rwa [hsame]

theorem outermost_after {count : Nat} (h : name ∈ names.outermost count) (acts : List Act)
    (hopen : ∀ part, part <+: acts → count ≤ (names.after part).depth) :
    name ∈ (names.after acts).outermost count := by
  induction acts generalizing names with
  | nil => exact h
  | cons a acts ih =>
    have hfirst : ∀ part, part <+: acts → count ≤ ((names.act a).after part).depth :=
      fun part hpart => hopen (a :: part) (List.cons_prefix_cons.mpr ⟨rfl, hpart⟩)
    exact ih (outermost_act h a (hopen [] List.nil_prefix) (hfirst [] List.nil_prefix)) hfirst

/-- The number of one hint can make the name of another. -/
example : ((ofReserved ["_a"]).after [.fresh "a", .enter, .fresh "a2"]).scopes = [["_a22"], ["_a2"]] := by
  decide

end ArrayLoops.Lowering.Names
