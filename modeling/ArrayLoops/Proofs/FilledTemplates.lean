import ArrayLoops.Complaint
import Mathlib.Data.List.Basic

/-!
# Filling a template

Filling puts the arguments in one after the other, so a later argument can go into what an earlier
one brought in. This is the same as putting all of them in at once if no argument but the last can
be part of a place: a text into which no place reaches and from which none reaches out stays as it
is, wherever it is put.
-/

namespace ArrayLoops.Text

/-- The argument with the place that a text begins with. -/
def argumentAt? (args : List (String × Nat)) (cs : List Char) : Option (String × Nat) :=
  args.find? fun arg => (place arg.2).isPrefixOf cs

/-- Puts arguments into their numbered places, all at once: what is put in is not looked at again.
The first `skip` characters belong to a place already filled. -/
def substituteFrom (args : List (String × Nat)) : Nat → List Char → List Char
  | _, [] => []
  | skip + 1, _ :: cs => substituteFrom args skip cs
  | 0, c :: cs =>
    match argumentAt? args (c :: cs) with
    | some (text, i) => text.toList ++ substituteFrom args ((place i).length - 1) cs
    | none => c :: substituteFrom args 0 cs

/-- The template with every place that has an argument filled at once. -/
def substitute (template : String) (args : List String) : String :=
  String.ofList (substituteFrom args.zipIdx 0 template.toList)

/-- Whether no place can begin or end inside a text. Here `opened` tells that one may have begun
before it. -/
def isApart : Bool → List Char → Bool
  | opened, [] => !opened
  | opened, c :: cs =>
    if c = '\x7d' then !opened && isApart false cs
    else if c = '\x7b' then isApart true cs
    else isApart (opened && c.isDigit) cs

variable {i : Nat} {text ds cs : List Char} {c : Char} {args : List (String × Nat)}

def placeRest (i : Nat) : List Char := Nat.toDigits 10 i ++ ['\x7d']

theorem place_eq (i : Nat) : place i = '\x7b' :: placeRest i := by
  simp [place, placeRest, Nat.toString_eq_repr, Nat.toList_repr]

theorem place_prefix_cons : place i <+: c :: cs ↔ c = '\x7b' ∧ placeRest i <+: cs := by
  rw [place_eq, List.cons_prefix_cons, eq_comm]

theorem argumentAt?_cons_of_place {arg : String} (h : place i <+: cs) :
    argumentAt? ((arg, i) :: args) cs = some (arg, i) :=
  List.find?_cons_of_pos (by simpa using h)

theorem argumentAt?_cons_of_not_place {arg : String} (h : ¬ place i <+: cs) :
    argumentAt? ((arg, i) :: args) cs = argumentAt? args cs :=
  List.find?_cons_of_neg (by simpa using h)

theorem isDigit_toDigits (i : Nat) : ∀ d ∈ Nat.toDigits 10 i, d.isDigit :=
  fun _ hd => Nat.isDigit_of_mem_toDigits (by decide) (by decide) hd

theorem replaceFrom_skip (pattern replacement front rest : List Char) :
    replaceFrom pattern replacement front.length (front ++ rest) =
      replaceFrom pattern replacement 0 rest := by
  induction front with
  | nil => rfl
  | cons c front ih => exact ih

theorem replaceFrom_place (i : Nat) (text rest : List Char) :
    replaceFrom (place i) text 0 (place i ++ rest) = text ++ replaceFrom (place i) text 0 rest := by
  rw [place_eq, List.cons_append, replaceFrom, if_pos (by simp)]
  exact congrArg (text ++ ·) (replaceFrom_skip _ _ (placeRest i) rest)

theorem replaceFrom_cons (h : ¬ place i <+: c :: cs) :
    replaceFrom (place i) text 0 (c :: cs) = c :: replaceFrom (place i) text 0 cs := by
  rw [replaceFrom, if_neg (by simpa using h)]

theorem replaceFrom_placeRest (i j : Nat) (text rest : List Char) :
    replaceFrom (place i) text 0 (placeRest j ++ rest) =
      placeRest j ++ replaceFrom (place i) text 0 rest := by
  have hdigits := isDigit_toDigits j
  rw [placeRest]
  generalize Nat.toDigits 10 j = ds at hdigits
  induction ds with
  | nil => exact replaceFrom_cons (by simp [place_prefix_cons])
  | cons d ds ih =>
    obtain ⟨hd, hds⟩ := List.forall_mem_cons.mp hdigits
    rw [List.cons_append, List.cons_append, replaceFrom_cons, ih hds, List.cons_append]
    rw [place_prefix_cons]
    rintro ⟨rfl, -⟩
    exact absurd hd (by decide)

theorem substituteFrom_skip (front rest : List Char) :
    substituteFrom args front.length (front ++ rest) = substituteFrom args 0 rest := by
  induction front with
  | nil => rfl
  | cons c front ih => exact ih

theorem substituteFrom_place {arg : String} {rest : List Char}
    (h : argumentAt? args (place i ++ rest) = some (arg, i)) :
    substituteFrom args 0 (place i ++ rest) = arg.toList ++ substituteFrom args 0 rest := by
  rw [place_eq, List.cons_append] at h ⊢
  rw [substituteFrom, h]
  simp only [place_eq]
  exact congrArg (arg.toList ++ ·) (substituteFrom_skip (placeRest i) rest)

theorem substituteFrom_cons (h : argumentAt? args (c :: cs) = none) :
    substituteFrom args 0 (c :: cs) = c :: substituteFrom args 0 cs := by
  rw [substituteFrom, h]

theorem substituteFrom_nil (cs : List Char) : substituteFrom [] 0 cs = cs := by
  induction cs with
  | nil => rfl
  | cons c cs ih => rw [substituteFrom_cons rfl, ih]

theorem substituteFrom_single (arg : String) (i skip : Nat) (cs : List Char) :
    substituteFrom [(arg, i)] skip cs = replaceFrom (place i) arg.toList skip cs := by
  fun_induction replaceFrom (place i) arg.toList skip cs with
  | case1 => rfl
  | case2 skip c cs ih => exact ih
  | case3 c cs h ih =>
    rw [substituteFrom, argumentAt?_cons_of_place (List.isPrefixOf_iff_prefix.mp h)]
    exact congrArg (arg.toList ++ ·) ih
  | case4 c cs h ih =>
    rw [substituteFrom_cons, ih]
    rw [argumentAt?_cons_of_not_place (by simpa using h)]
    rfl

theorem not_digits_prefix_of_isApart (hdigits : ∀ d ∈ ds, d.isDigit) (h : isApart true text)
    (rest : List Char) : ¬ ds ++ ['\x7d'] <+: text ++ rest := by
  induction text generalizing ds with
  | nil => cases h
  | cons c text ih =>
    cases ds with
    | nil =>
      rw [List.nil_append, List.cons_append, List.cons_prefix_cons]
      rintro ⟨rfl, -⟩
      exact absurd h (by simp [isApart])
    | cons d ds =>
      obtain ⟨hd, hds⟩ := List.forall_mem_cons.mp hdigits
      rw [List.cons_append, List.cons_append, List.cons_prefix_cons]
      rintro ⟨rfl, hprefix⟩
      have hclose : d ≠ '\x7d' := by
        rintro rfl
        exact absurd hd (by decide)
      have hopen : d ≠ '\x7b' := by
        rintro rfl
        exact absurd hd (by decide)
      rw [isApart, if_neg hclose, if_neg hopen, hd] at h
      exact ih hds h hprefix

theorem substituteFrom_append {opened : Bool} (h : isApart opened text) (rest : List Char) :
    substituteFrom args 0 (text ++ rest) = text ++ substituteFrom args 0 rest := by
  induction text generalizing opened with
  | nil => rfl
  | cons c text ih =>
    have hnone : argumentAt? args (c :: (text ++ rest)) = none := by
      rw [argumentAt?, List.find?_eq_none]
      intro arg _
      rw [List.isPrefixOf_iff_prefix, place_prefix_cons]
      rintro ⟨rfl, hprefix⟩
      exact not_digits_prefix_of_isApart (isDigit_toDigits arg.2) (by simpa [isApart] using h) rest
        hprefix
    have hrest : ∃ opened, isApart opened text := by
      rw [isApart] at h
      split at h
      · exact ⟨false, (Bool.and_eq_true_iff.mp h).2⟩
      split at h
      · exact ⟨true, h⟩
      · exact ⟨_, h⟩
    obtain ⟨opened, hrest⟩ := hrest
    rw [List.cons_append, substituteFrom_cons hnone, ih hrest, List.cons_append]

/-- Filling a place with such a text makes no other place and takes none away. -/
theorem digits_prefix_replaceFrom (hdigits : ∀ d ∈ ds, d.isDigit) (h : isApart true text) :
    ds ++ ['\x7d'] <+: replaceFrom (place i) text 0 cs ↔ ds ++ ['\x7d'] <+: cs := by
  induction cs generalizing ds with
  | nil => rfl
  | cons c cs ih =>
    by_cases hplace : place i <+: c :: cs
    · -- The place is gone, and neither it nor the text begins with what is asked for.
      obtain ⟨rest, hrest⟩ := hplace
      rw [← hrest, replaceFrom_place]
      refine iff_of_false (not_digits_prefix_of_isApart hdigits h _) ?_
      rw [place_eq]
      cases ds with
      | nil => simp
      | cons d ds =>
        rw [List.cons_append, List.cons_append, List.cons_prefix_cons]
        rintro ⟨rfl, -⟩
        exact absurd (hdigits _ List.mem_cons_self) (by decide)
    · rw [replaceFrom_cons hplace]
      cases ds with
      | nil => simp
      | cons d ds =>
        rw [List.cons_append, List.cons_prefix_cons, List.cons_prefix_cons,
          ih (List.forall_mem_cons.mp hdigits).2]

theorem substituteFrom_replaceFrom {arg : String} (h : isApart true arg.toList) (cs : List Char) :
    substituteFrom args 0 (replaceFrom (place i) arg.toList 0 cs) =
      substituteFrom ((arg, i) :: args) 0 cs := by
  induction hn : cs.length using Nat.strongRecOn generalizing cs with
  | ind n ih =>
    cases cs with
    | nil => rfl
    | cons c cs =>
      by_cases hplace : place i <+: c :: cs
      · obtain ⟨rest, hrest⟩ := hplace
        rw [← hrest, replaceFrom_place, substituteFrom_append h,
          substituteFrom_place (argumentAt?_cons_of_place (List.prefix_append _ _))]
        refine congrArg (arg.toList ++ ·) (ih rest.length ?_ rest rfl)
        rw [← hn, ← hrest, place_eq]
        simp only [List.cons_append, List.length_cons, List.length_append]
        omega
      -- Behind a brace the same places are found as before.
      have hsame : argumentAt? args (c :: replaceFrom (place i) arg.toList 0 cs) =
          argumentAt? args (c :: cs) := by
        unfold argumentAt?
        congr 1
        funext other
        rw [Bool.eq_iff_iff, List.isPrefixOf_iff_prefix, List.isPrefixOf_iff_prefix,
          place_prefix_cons, place_prefix_cons, placeRest,
          digits_prefix_replaceFrom (isDigit_toDigits other.2) h]
      have hothers := @argumentAt?_cons_of_not_place _ _ args arg hplace
      rw [replaceFrom_cons hplace]
      cases hfound : argumentAt? args (c :: cs) with
      | none =>
        rw [substituteFrom_cons (hsame.trans hfound), substituteFrom_cons (hothers.trans hfound),
          ih cs.length (by simp [← hn]) cs rfl]
      | some found =>
        obtain ⟨other, j⟩ := found
        obtain ⟨rest, hrest⟩ : place j <+: c :: cs := by
          simpa using List.find?_some hfound
        obtain ⟨rfl, rfl⟩ : '\x7b' = c ∧ placeRest j ++ rest = cs := by
          simpa [place_eq] using hrest
        rw [replaceFrom_placeRest] at hsame ⊢
        simp only [← List.cons_append, ← place_eq] at hsame hothers hfound ⊢
        rw [substituteFrom_place (hsame.trans hfound), substituteFrom_place (hothers.trans hfound)]
        refine congrArg (other.toList ++ ·) (ih rest.length ?_ rest rfl)
        rw [← hn]
        simp only [List.length_cons, List.length_append]
        omega

theorem fillFrom_eq {args : List String} (h : ∀ arg ∈ args.dropLast, isApart true arg.toList)
    (i : Nat) (cs : List Char) : fillFrom i cs args = substituteFrom (args.zipIdx i) 0 cs := by
  induction args generalizing i cs with
  | nil => exact (substituteFrom_nil cs).symm
  | cons arg args ih =>
    cases args with
    | nil => exact (substituteFrom_single arg i 0 cs).symm
    | cons next args =>
      obtain ⟨harg, hargs⟩ := List.forall_mem_cons.mp h
      rw [fillFrom, ih hargs, substituteFrom_replaceFrom harg]
      rfl

/-- If every argument but the last is apart from places, filling puts the arguments in as they
are. -/
theorem fill_eq_substitute {args : List String}
    (h : ∀ arg ∈ args.dropLast, isApart true arg.toList) (template : String) :
    fill template args = substitute template args :=
  congrArg String.ofList (fillFrom_eq h 0 template.toList)

/-- A brace that opens no place does no harm, and the last argument may be anything. -/
theorem fill_eq_substitute_braces :
    (∀ arg ∈ ["\x7bx", "\x7b0\x7d"].dropLast, isApart true arg.toList) ∧
      fill "\x7b1\x7d, \x7b0\x7d" ["\x7bx", "\x7b0\x7d"] =
        substitute "\x7b1\x7d, \x7b0\x7d" ["\x7bx", "\x7b0\x7d"] :=
  have h : ∀ arg ∈ ["\x7bx", "\x7b0\x7d"].dropLast, isApart true arg.toList := by decide
  ⟨h, fill_eq_substitute h _⟩

/-- The second argument goes into a place that the first one brought in. -/
theorem fill_fills_argument :
    fill "\x7b0\x7d" ["\x7b1\x7d", "x"] = "x" ∧
      substitute "\x7b0\x7d" ["\x7b1\x7d", "x"] = "\x7b1\x7d" := by
  decide

/-- An argument need not hold a brace to become part of a place. -/
example : fill "\x7b\x7b0\x7d\x7d" ["1", "x"] = "x" := by decide

end ArrayLoops.Text
