import ArrayLoops.Proofs.LinePositions
import ArrayLoops.Reporter
import Mathlib.Algebra.GroupWithZero.Nat
import Mathlib.Data.List.Basic

/-!
# What a reporter shows

A diagnostic is placed by the line map of its file, which is made of the text that the file has when it
is first needed, and shown in the text that the file has now. So a file that gets another text after
a diagnostic about it was shown is misread.

The span below a line is told in bytes and drawn in characters. The marks are right if and only if
this makes no difference.
-/

namespace ArrayLoops.Reporter

open Text (LineMap byteLength)

variable {file : String} {offset : Nat} {a b reporter : Reporter} {diagnostic : Diagnostic}

theorem lookup_cons_ite {α : Type} (name other : String) (a : α) (entries : List (String × α)) :
    ((other, a) :: entries).lookup name = if name = other then some a else entries.lookup name := by
  by_cases h : name = other
  · simp [h]
  · have : (name == other) = false := by simpa using h
    rw [List.lookup_cons, this, if_neg h]

theorem lineMap?_fst (reporter : Reporter) (file : String) :
    (reporter.lineMap? file).1 = (reporter.sources.lookup file).map fun text =>
      (reporter.lineMaps.lookup file).getD (.ofText text) := by
  unfold lineMap?
  split
  · simp [*]
  · split <;> simp [*]

theorem lineMap?_snd (reporter : Reporter) (file other : String) :
    (reporter.lineMap? file).2.color = reporter.color ∧
      (reporter.lineMap? file).2.sources = reporter.sources ∧
      (reporter.lineMap? file).2.lineMaps.lookup other =
        if other = file then
          (reporter.lineMaps.lookup file).or ((reporter.sources.lookup file).map .ofText)
        else reporter.lineMaps.lookup other := by
  unfold lineMap?
  split
  · rename_i hnone
    refine ⟨rfl, rfl, ?_⟩
    split <;> simp [*]
  · split
    · refine ⟨rfl, rfl, ?_⟩
      split <;> simp [*]
    · refine ⟨rfl, rfl, ?_⟩
      rw [lookup_cons_ite]
      split <;> simp [*]

/-- The reporters show the same at a place of a file. -/
structure Alike (file : String) (offset : Nat) (a b : Reporter) : Prop where
  color : a.color = b.color
  source : a.sources.lookup file = b.sources.lookup file
  position : (a.position? file offset).1 = (b.position? file offset).1

theorem position?_again (reporter : Reporter) (file : String) (offset : Nat) :
    ∃ after, reporter.position? file offset = ((reporter.position? file offset).1, after) ∧
      after.position? file offset = ((reporter.position? file offset).1, after) ∧
      after.color = reporter.color ∧ after.sources = reporter.sources := by
  refine ⟨(reporter.position? file offset).2, rfl, ?_, ?_⟩
  · unfold position? lineMap?
    cases hsource : reporter.sources.lookup file with
    | none => simp [hsource]
    | some text => cases hmap : reporter.lineMaps.lookup file <;> simp [hsource, hmap]
  · exact (lineMap?_snd reporter file file).imp_right And.left

theorem Alike.format (h : Alike diagnostic.file diagnostic.start a b) :
    (a.format diagnostic).1 = (b.format diagnostic).1 := by
  -- Both ask twice, for the location and for the line, and the second time nothing is new.
  by_cases hfile : diagnostic.file.isEmpty
  · simp [Reporter.format, location, snippet?, hfile, label, painted, h.color]
  · obtain ⟨a', ha, ha', hcolor, hsources⟩ := position?_again a diagnostic.file diagnostic.start
    obtain ⟨b', hb, hb', hcolor', hsources'⟩ := position?_again b diagnostic.file diagnostic.start
    rw [h.position] at ha ha'
    generalize (b.position? diagnostic.file diagnostic.start).1 = place at ha ha' hb hb'
    have hsource : a'.sources.lookup diagnostic.file = b'.sources.lookup diagnostic.file := by
      rw [hsources, hsources', h.source]
    have hpaint : a'.color = b'.color := by rw [hcolor, hcolor', h.color]
    by_cases hlength : diagnostic.length = 0 <;> cases place <;>
      simp [Reporter.format, location, snippet?, hfile, hlength, ha, ha', hb, hb', label, painted,
        hsource, hpaint]

inductive Act where
  | add (file text : String)
  | format (diagnostic : Diagnostic)

def act (reporter : Reporter) : Act → Reporter
  | .add file text => reporter.addSource file text
  | .format diagnostic => (reporter.format diagnostic).2

def after (reporter : Reporter) (acts : List Act) : Reporter := acts.foldl act reporter

structure Known where
  latest : Option String := none
  first : Option String := none

def Known.act (file : String) (known : Known) : Act → Known
  | .add other text => if file = other then { known with latest := some text } else known
  | .format diagnostic =>
    if diagnostic.file.isEmpty then known
    else if file = diagnostic.file then { known with first := known.first.or known.latest }
    else known

def known (file : String) (acts : List Act) : Known := acts.foldl (Known.act file) {}

structure Holds (reporter : Reporter) (file : String) (known : Known) : Prop where
  latest : reporter.sources.lookup file = known.latest
  first : reporter.lineMaps.lookup file = known.first.map .ofText

theorem format_snd (reporter : Reporter) (diagnostic : Diagnostic) :
    (reporter.format diagnostic).2 = if diagnostic.file.isEmpty then reporter else
      (reporter.lineMap? diagnostic.file).2 := by
  by_cases hfile : diagnostic.file.isEmpty
  · simp [format, location, snippet?, hfile]
  · obtain ⟨after, hafter, hagain, -⟩ := position?_again reporter diagnostic.file diagnostic.start
    have hmap : (reporter.lineMap? diagnostic.file).2 = after := congrArg Prod.snd hafter
    generalize (reporter.position? diagnostic.file diagnostic.start).1 = place at hafter hagain
    by_cases hlength : diagnostic.length = 0 <;> cases place <;>
      simp [format, location, snippet?, hfile, hlength, hafter, hagain, hmap]

theorem Holds.act {known : Known} (h : Holds reporter file known) (act : Act) :
    Holds (reporter.act act) file (known.act file act) := by
  cases act with
  | add other text =>
    have hlatest := lookup_cons_ite file other text reporter.sources
    rw [h.latest] at hlatest
    rw [Known.act]
    split
    · exact ⟨hlatest.trans (if_pos ‹_›), h.first⟩
    · exact ⟨hlatest.trans (if_neg ‹_›), h.first⟩
  | format diagnostic =>
    obtain ⟨-, hsources, hmaps⟩ := lineMap?_snd reporter diagnostic.file file
    rw [Reporter.act, Known.act, format_snd]
    split
    · exact h
    split
    · rename_i hfile
      subst hfile
      refine ⟨hsources ▸ h.latest, ?_⟩
      rw [hmaps, if_pos rfl, h.first, h.latest]
      cases known.first <;> rfl
    · exact ⟨hsources ▸ h.latest, hmaps.trans ((if_neg ‹_›).trans h.first)⟩

theorem color_act (reporter : Reporter) (act : Act) : (reporter.act act).color = reporter.color := by
  cases act with
  | add => rfl
  | format diagnostic =>
    rw [act, format_snd]
    split
    · rfl
    · exact (lineMap?_snd reporter diagnostic.file diagnostic.file).1

theorem Holds.after {known : Known} (h : Holds reporter file known) (acts : List Act) :
    Holds (reporter.after acts) file (acts.foldl (Known.act file) known) ∧
      (reporter.after acts).color = reporter.color := by
  induction acts generalizing reporter known with
  | nil => exact ⟨h, rfl⟩
  | cons act acts ih => exact (ih (h.act act)).imp_right (·.trans (color_act reporter act))

/-- A diagnostic is shown as by a new reporter that has the latest texts, if its place is the same in
the latest text of its file as in the one that the file had when its lines were first needed. -/
theorem shown_as_by_new (acts : List Act) (new : Reporter) (hnew : new.lineMaps = [])
    (hlatest : ∀ file, new.sources.lookup file = (known file acts).latest)
    (hplace : ∀ first latest, (known diagnostic.file acts).first = some first →
      (known diagnostic.file acts).latest = some latest →
      (LineMap.ofText first).position diagnostic.start =
        (LineMap.ofText latest).position diagnostic.start) :
    ((({ color := new.color } : Reporter).after acts).format diagnostic).1 =
      (new.format diagnostic).1 := by
  have hempty : Holds { color := new.color } diagnostic.file {} := ⟨rfl, rfl⟩
  obtain ⟨hholds, hcolor⟩ := hempty.after acts
  rw [← known] at hholds
  refine Alike.format ⟨hcolor, hholds.latest.trans (hlatest _).symm, ?_⟩
  simp only [position?, lineMap?_fst, hholds.latest, hholds.first, hlatest, hnew]
  cases hlast : (known diagnostic.file acts).latest with
  | none => rfl
  | some latest =>
    cases hfirst : (known diagnostic.file acts).first with
    | none => rfl
    | some first => exact congrArg some (hplace first latest hfirst hlast)

def spotted : Diagnostic := ⟨"a.js", 1, 1, "odd", 0, .error⟩

/-- A text that comes after a diagnostic was shown is read with the old line map. -/
theorem late_text_misread :
    ((({} : Reporter).after [.add "a.js" "x", .format spotted, .add "a.js" "\nx"]).format spotted).1 ≠
      ((({} : Reporter).addSource "a.js" "\nx").format spotted).1 := by
  decide

theorem shown_as_by_new_longer :
    ((({} : Reporter).after [.add "a.js" "xy", .format spotted, .add "a.js" "xyz\n"]).format
      spotted).1 = ((({} : Reporter).addSource "a.js" "xyz\n").format spotted).1 := by
  refine shown_as_by_new _ (({} : Reporter).addSource "a.js" "xyz\n") rfl (fun file => ?_) ?_
  · by_cases h : file = "a.js"
    · subst h
      rfl
    · simp [addSource, known, Known.act, spotted, h]
  · rintro first latest hfirst hlatest
    obtain rfl : "xy" = first := Option.some.inj hfirst
    obtain rfl : "xyz\n" = latest := Option.some.inj hlatest
    decide

def widthOf (cs : List Char) : Nat := (cs.map width).sum

def marked (before inside : List Char) : List Char :=
  List.replicate (widthOf before) ' ' ++ List.replicate (widthOf inside) '~'

variable {before inside after above below line cs : List Char} {first last : Nat}

theorem widthOf_append (cs ds : List Char) : widthOf (cs ++ ds) = widthOf cs + widthOf ds := by
  simp [widthOf]

theorem widthOf_eq_zero : widthOf cs = 0 ↔ cs = [] := by
  cases cs with
  | nil => simp [widthOf]
  | cons c cs =>
    have : 0 < width c := by unfold width; split <;> decide
    simp only [widthOf, List.map_cons, List.sum_cons, reduceCtorEq, iff_false]
    omega

theorem marked_cons (c : Char) (before inside : List Char) :
    marked (c :: before) inside = List.replicate (width c) ' ' ++ marked before inside ∧
      marked [] (c :: inside) = List.replicate (width c) '~' ++ marked [] inside := by
  simp [marked, widthOf, ← List.replicate_append_replicate]

theorem count_marked (before inside : List Char) :
    (marked before inside).count ' ' = widthOf before ∧
      (marked before inside).count '~' = widthOf inside := by
  simp [marked, List.count_replicate]

theorem marked_inj {other : List Char} :
    marked before inside = marked before other ↔ widthOf inside = widthOf other := by
  refine ⟨fun h => ?_, fun h => by rw [marked, marked, h]⟩
  rw [← (count_marked before inside).2, h, (count_marked before other).2]

theorem marks_eq_marked (hle : first ≤ last) (line : List Char) :
    marks first last offset line =
      marked (line.take (first - offset)) ((line.drop (first - offset)).take (last - max first offset)) := by
  induction line generalizing offset with
  | nil => simp [marks, marked, widthOf]
  | cons c line ih =>
    rw [marks, ih]
    obtain hlast | hlast := Nat.lt_or_ge offset last
    · rw [if_neg (Nat.not_le_of_lt hlast)]
      obtain hfirst | hfirst := Nat.lt_or_ge offset first
      · rw [if_pos hfirst, Nat.max_eq_left hfirst, Nat.max_eq_left (Nat.le_of_lt hfirst),
          show first - offset = first - (offset + 1) + 1 by omega, List.take_succ_cons,
          List.drop_succ_cons]
        exact (marked_cons c _ _).1.symm
      · rw [if_neg (Nat.not_lt_of_le hfirst), Nat.max_eq_right hfirst,
          Nat.max_eq_right (Nat.le_succ_of_le hfirst), Nat.sub_eq_zero_of_le hfirst,
          Nat.sub_eq_zero_of_le (Nat.le_succ_of_le hfirst),
          show last - offset = last - (offset + 1) + 1 by omega]
        exact (marked_cons c [] _).2.symm
    · rw [if_pos hlast, Nat.sub_eq_zero_of_le (Nat.le_trans hle hlast),
        Nat.sub_eq_zero_of_le (Nat.le_trans hlast (Nat.le_max_right first offset))]
      rfl

theorem length_le_byteLength (cs : List Char) : cs.length ≤ byteLength cs := by
  induction cs with
  | nil => exact Nat.le_refl 0
  | cons c cs ih =>
    have := c.utf8Size_pos
    simp only [List.length_cons, Text.byteLength_cons]
    omega

theorem byteLength_eq_length_iff :
    byteLength cs = cs.length ↔ ∀ c ∈ cs, c.utf8Size = 1 := by
  induction cs with
  | nil => simp
  | cons c cs ih =>
    have hsize := c.utf8Size_pos
    have hlength := length_le_byteLength cs
    rw [List.forall_mem_cons, ← ih, Text.byteLength_cons, List.length_cons]
    omega

theorem count_underline (line : List Char) {length : Nat} (hsmall : first + length < 0x100000000) :
    (underline line first length).count ' ' = widthOf (line.take first) := by
  have hmarks := @marks_eq_marked 0 _ _ (Nat.le_add_right first length) line
  simp only [underline, wrapped, Nat.mod_eq_of_lt hsmall, hmarks]
  split <;> simp [count_marked]

theorem underline_eq_marked {length : Nat} (hsmall : first + length < 0x100000000)
    (hsome : (line.drop first).take length ≠ []) :
    underline line first length = marked (line.take first) ((line.drop first).take length) := by
  have hmarks := @marks_eq_marked 0 _ _ (Nat.le_add_right first length) line
  have hmark : 0 < (marked (line.take first) ((line.drop first).take length)).count '~' := by
    rw [(count_marked _ _).2]
    exact Nat.pos_of_ne_zero (mt widthOf_eq_zero.mp hsome)
  simp only [underline, wrapped, Nat.mod_eq_of_lt hsmall, hmarks]
  simp [List.count_pos_iff.mp hmark]

theorem underline_eq_marked_iff (hinside : inside ≠ [])
    (hsmall : byteLength before + byteLength inside < 0x100000000) :
    underline (before ++ (inside ++ after)) (byteLength before) (byteLength inside) =
        marked before inside ↔
      (∀ c ∈ before, c.utf8Size = 1) ∧ ((∀ c ∈ inside, c.utf8Size = 1) ∨ after = []) := by
  rw [← byteLength_eq_length_iff, ← byteLength_eq_length_iff]
  have hbefore := length_le_byteLength before
  have hlength := length_le_byteLength inside
  have hpositive : 0 < inside.length := List.length_pos_of_ne_nil hinside
  have hright : byteLength before = before.length →
      (underline (before ++ (inside ++ after)) (byteLength before) (byteLength inside) =
        marked before inside ↔ byteLength inside = inside.length ∨ after = []) := by
    intro hbytes
    have hspan : (inside ++ after).take (byteLength inside) =
        inside ++ after.take (byteLength inside - inside.length) := by
      rw [List.take_append, List.take_of_length_le hlength]
    rw [underline_eq_marked hsmall] <;> rw [hbytes, List.drop_left, hspan]
    · rw [List.take_left, marked_inj, widthOf_append, Nat.add_eq_left, widthOf_eq_zero,
        List.take_eq_nil_iff]
      exact or_congr_left (by omega)
    · simp [hinside]
  -- The blanks alone show whether the span begins where it should.
  refine ⟨fun h => ?_, fun h => (hright h.1).mpr h.2⟩
  have hbytes : byteLength before = before.length := by
    have hcount := congrArg (List.count ' ') h
    rw [count_underline _ hsmall, (count_marked _ _).1, List.take_append,
      List.take_of_length_le hbefore, widthOf_append, Nat.add_eq_left, widthOf_eq_zero,
      List.take_eq_nil_iff] at hcount
    simp only [List.append_eq_nil_iff, hinside, false_and, or_false] at hcount
    omega
  exact ⟨hbytes, (hright hbytes).mp h⟩

structure IsLine (above line below : List Char) : Prop where
  begins : above = [] ∨ above.getLast? = some '\n'
  inside : '\n' ∉ line
  ends : below = [] ∨ (below.head? = some '\n' ∧ line.getLast? ≠ some '\r') ∨ ['\r', '\n'] <+: below

open Text (linesOnto)

theorem linesOnto_cons {acc : List Char} {c : Char} (h : ¬(c = '\r' ∧ cs.head? = some '\n')) :
    linesOnto acc (c :: cs) =
      if c = '\n' then acc.reverse :: linesOnto [] cs else linesOnto (c :: acc) cs := by
  rw [linesOnto]
  · simp
  · rintro cs' rfl rfl
    simp at h

theorem linesOnto_above {acc : List Char}
    (habove : above = [] ∧ acc = [] ∨ above.getLast? = some '\n') :
    (linesOnto acc (above ++ cs)).drop (above.count '\n') = linesOnto [] cs := by
  induction hlength : above.length using Nat.strongRecOn generalizing above acc with
  | ind n ih =>
  subst hlength
  obtain ⟨rfl, rfl⟩ | hlast := habove
  · rfl
  have hrest : ∀ front rest, above = front ++ rest → front ≠ [] →
      (linesOnto [] (rest ++ cs)).drop (rest.count '\n') = linesOnto [] cs := by
    rintro front rest rfl hfront
    refine ih rest.length (by simpa using List.length_pos_of_ne_nil hfront) ?_ rfl
    cases rest with
    | nil => exact .inl ⟨rfl, rfl⟩
    | cons c rest => exact .inr (by simpa using hlast)
  cases above with
  | nil => cases hlast
  | cons c above =>
    -- A carriage return and a newline are taken together, so this is an induction on the length.
    by_cases hpair : c = '\r' ∧ above.head? = some '\n'
    · obtain ⟨rfl, hhead⟩ := hpair
      obtain ⟨rest, rfl⟩ : ∃ rest, above = '\n' :: rest := by cases above <;> simp_all
      rw [List.count_cons_of_ne (by decide), List.count_cons_self]
      exact hrest ['\r', '\n'] rest rfl (by simp)
    have hgap : ¬(c = '\r' ∧ (above ++ cs).head? = some '\n') := by
      cases above with
      | nil => simp_all
      | cons d above => exact hpair
    rw [List.cons_append, linesOnto_cons hgap]
    split
    · rename_i hc
      subst hc
      rw [List.count_cons_self]
      exact hrest ['\n'] above rfl (by simp)
    · rename_i hc
      rw [List.count_cons_of_ne hc]
      refine ih above.length (by simp) (.inr ?_) rfl
      cases above with
      | nil => exact absurd (by simpa using hlast) hc
      | cons d above => simpa using hlast

theorem linesOnto_line {acc : List Char} (hline : '\n' ∉ line) (hends : below = [] ∨
      (below.head? = some '\n' ∧ line.getLast? ≠ some '\r') ∨ ['\r', '\n'] <+: below)
    (hsome : acc ++ line ≠ []) :
    (linesOnto acc (line ++ below)).head? = some (acc.reverse ++ line) := by
  induction line generalizing acc with
  | nil =>
    obtain rfl | ⟨hnewline, -⟩ | ⟨rest, rfl⟩ := hends
    · simp_all [linesOnto]
    · obtain ⟨rest, rfl⟩ : ∃ rest, below = '\n' :: rest := by
        cases below <;> simp_all
      simp [linesOnto_cons]
    · simp [linesOnto]
  | cons c line ih =>
    have hc : c ≠ '\n' := (List.ne_of_not_mem_cons hline).symm
    have hlast : line.getLast? = some '\r' → (c :: line).getLast? = some '\r' := by
      cases line <;> simp
    rw [List.cons_append, linesOnto_cons, if_neg hc, ih (List.not_mem_of_not_mem_cons hline)]
    · simp
    · exact hends.imp_right (Or.imp_left (And.imp_right (mt hlast)))
    · simp
    · rintro ⟨rfl, hhead⟩
      cases line with
      | nil =>
        obtain rfl | ⟨-, hreturn⟩ | ⟨rest, rfl⟩ := hends <;> simp_all
      | cons d line => simp_all

/-- A span of characters in a line is shown below the line. The marks are right if and only if the
characters before the span take a byte each, and so do those in it unless the line ends with them. -/
theorem underline_right_iff (reporter : Reporter) (diagnostic : Diagnostic) {text : String}
    (hcolor : reporter.color = false) (hfile : diagnostic.file ≠ "")
    (hsource : reporter.sources.lookup diagnostic.file = some text)
    (hmap : (reporter.lineMap? diagnostic.file).1 = some (.ofText text))
    (htext : text.toList = above ++ (before ++ (inside ++ after)) ++ below)
    (hline : IsLine above (before ++ (inside ++ after)) below)
    (hstart : diagnostic.start = byteLength (above ++ before))
    (hlength : diagnostic.length = byteLength inside) (hinside : inside ≠ [])
    (hsmall : byteLength text.toList < 0x100000000) :
    ∃ marks, (reporter.format diagnostic).1 =
        diagnostic.file ++ ":" ++ toString (above.count '\n' + 1) ++ ":" ++
          toString (byteLength before + 1) ++ " - " ++ reporter.label diagnostic ++ ": " ++
          diagnostic.message ++ "\n  " ++ padded 3 (toString (above.count '\n' + 1)) ++ "   " ++
          String.ofList (before ++ (inside ++ after)) ++ "\n        " ++ String.ofList marks ∧
      (marks = marked before inside ↔
        (∀ c ∈ before, c.utf8Size = 1) ∧ ((∀ c ∈ inside, c.utf8Size = 1) ∨ after = [])) := by
  have hplace : (reporter.position? diagnostic.file diagnostic.start).1 =
      some ⟨above.count '\n', byteLength before⟩ := by
    rw [List.append_assoc, List.append_assoc] at htext
    have hbefore : '\n' ∉ before := fun h => hline.inside (List.mem_append_left _ h)
    simp only [position?, hmap, Option.map_some, hstart, LineMap.position_in_line htext hline.begins hbefore]
  have hshown : (Text.lines text)[above.count '\n']? = some (before ++ (inside ++ after)) := by
    have hbegins : above = [] ∧ ([] : List Char) = [] ∨ above.getLast? = some '\n' :=
      hline.begins.imp_left (⟨·, rfl⟩)
    rw [List.append_assoc] at htext
    rw [Text.lines, htext, ← List.head?_drop, linesOnto_above hbegins,
      linesOnto_line hline.inside hline.ends (by simp [hinside])]
    rfl
  have hsome : 0 < byteLength inside :=
    Nat.lt_of_lt_of_le (List.length_pos_of_ne_nil hinside) (length_le_byteLength inside)
  simp only [htext, Text.byteLength_append] at hsmall
  have hwrapped : wrapped (byteLength before + 1) = byteLength before + 1 :=
    Nat.mod_eq_of_lt (by omega)
  refine ⟨underline (before ++ (inside ++ after)) (byteLength before) (byteLength inside), ?_,
    underline_eq_marked_iff hinside (by omega)⟩
  obtain ⟨later, hlater, hagain, hcolors, hsources⟩ :=
    position?_again reporter diagnostic.file diagnostic.start
  rw [hplace] at hlater hagain
  simp [format, location, snippet?, hfile, hlater, hagain, hlength, Nat.ne_of_gt hsome, hsources,
    hsource, hshown, hwrapped, label, painted, hcolor, hcolors, String.append_assoc]

theorem underline_right_behind_tab :
    ((({} : Reporter).addSource "a.js" "a\n\tb;").format ⟨"a.js", 3, 1, "odd", 0, .error⟩).1 =
      "a.js:2:2 - error: odd\n    2   \tb;\n            ~" := by
  have hline : IsLine ['a', '\n'] (['\t'] ++ (['b'] ++ [';'])) [] :=
    ⟨.inr rfl, by decide, .inl rfl⟩
  obtain ⟨marks, hformat, hmarks⟩ := underline_right_iff
    (({} : Reporter).addSource "a.js" "a\n\tb;") ⟨"a.js", 3, 1, "odd", 0, .error⟩ rfl (by decide)
    rfl rfl (by decide) hline rfl rfl (by decide) (by decide)
  have hright : marks = marked ['\t'] ['b'] :=
    hmarks.mpr ⟨List.forall_mem_singleton.mpr rfl, .inl (List.forall_mem_singleton.mpr rfl)⟩
  rw [hformat, hright]
  decide

/-- Behind a letter of two bytes the mark is one character too far to the right. -/
theorem underline_wrong_behind_wide_letter :
    ((({} : Reporter).addSource "a.js" "é;").format ⟨"a.js", 2, 1, "odd", 0, .error⟩).1 =
        "a.js:1:3 - error: odd\n    1   é;\n          ~" ∧
      String.ofList (marked ['é'] [';']) = " ~" := by
  decide

end ArrayLoops.Reporter
