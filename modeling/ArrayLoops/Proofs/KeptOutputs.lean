import ArrayLoops.CommandLine.Outputs

/-!
# Outputs that are kept

An output stays on the disk as it was written unless a later one is written to the same place. Nothing
makes sure that places differ: two files of one name below two folders have one place.
-/

namespace ArrayLoops

namespace Disk

/-- One step on the way to a place. -/
def step (place : Place) (segment : String) : Place :=
  if Path.isIdle segment then place
  else if segment == ".." then place.dropLast
  else place ++ [segment]

/-- The place that a path leads to if there are folders on the way. -/
def goal (disk : Disk) (path : String) : Place :=
  (Path.segments (Path.join disk.here path)).foldl step []

/-- What the first disk holds is on the second, but for files at the places that are given up. -/
structure Kept (lost : Place → Prop) (disk later : Disk) : Prop where
  here : later.here = disk.here
  folder : ∀ place, disk.item? place = some .folder → later.item? place = some .folder
  file : ∀ place contents, ¬ lost place → disk.item? place = some (.file contents) →
    later.item? place = some (.file contents)

section
variable {disk later last : Disk} {place other : Place} {item item' : Item} {lost lost' : Place → Prop}
  {path text : String}

theorem Kept.refl (lost : Place → Prop) (disk : Disk) : Kept lost disk disk :=
  ⟨rfl, fun _ h => h, fun _ _ _ h => h⟩

theorem Kept.trans (h : Kept lost disk later) (h' : Kept lost later last) : Kept lost disk last where
  here := h'.here.trans h.here
  folder place hp := h'.folder place (h.folder place hp)
  file place contents hl hp := h'.file place contents hl (h.file place contents hl hp)

theorem Kept.mono (h : Kept lost disk later) (hsub : ∀ place, lost place → lost' place) :
    Kept lost' disk later :=
  ⟨h.here, h.folder, fun place contents hl => h.file place contents fun hp => hl (hsub place hp)⟩

theorem lookup_filter_ne {entries : List (Place × Item)} (h : place ≠ other) :
    (entries.filter fun entry => entry.1 != other).lookup place = entries.lookup place := by
  induction entries with
  | nil => rfl
  | cons entry rest ih =>
    obtain ⟨key, item⟩ := entry
    by_cases hkey : key = other
    · have hne : (place == key) = false := by simpa [hkey] using h
      simp [hkey, ih, List.lookup_cons, hkey ▸ hne]
    · simp [hkey, ih, List.lookup_cons]

theorem item?_put (disk : Disk) (place : Place) (item : Item) :
    (disk.put place item).item? place = some item := by
  simp [item?, put]

theorem holdsBelow_put (h : disk.holdsBelow place) : (disk.put other item).holdsBelow place := by
  simp only [holdsBelow, put, List.any_cons, List.any_filter, Bool.or_eq_true, List.any_eq_true,
    Bool.and_eq_true, bne_iff_ne] at h ⊢
  obtain ⟨entry, hentry, hbelow⟩ := h
  by_cases heq : entry.1 = other
  · exact .inl (heq ▸ hbelow)
  · exact .inr ⟨entry, hentry, heq, hbelow⟩

theorem item?_put_of_ne (h : place ≠ other) (hitem : disk.item? place = some item) :
    (disk.put other item').item? place = some item := by
  have hlookup : (disk.put other item').entries.lookup place = disk.entries.lookup place := by
    have hne : (place == other) = false := by simpa using h
    simp only [put, List.lookup_cons, hne, lookup_filter_ne h]
  unfold item? at hitem ⊢
  rw [hlookup]
  cases hfound : disk.entries.lookup place with
  | some found => simpa [hfound] using hitem
  | none =>
    simp only [hfound] at hitem ⊢
    split at hitem
    · rename_i hfolder
      rw [if_pos, hitem]
      rw [Bool.or_eq_true] at hfolder ⊢
      exact hfolder.imp_right holdsBelow_put
    · cases hitem

theorem descend_cons {segment : String} {rest : List String} :
    disk.descend place (segment :: rest) = .ok other ↔
      disk.item? place = some .folder ∧ disk.descend (step place segment) rest = .ok other := by
  rw [Disk.descend]
  cases disk.item? place with
  | none => simp
  | some item =>
    cases item with
    | file => simp
    | folder =>
      simp only [step, true_and]
      split
      · rfl
      · split <;> rfl

/-- A place is the same on every disk that has the folders on the way to it. -/
theorem Kept.descend (h : Kept lost disk later) {segments : List String}
    (hd : disk.descend place segments = .ok other) : later.descend place segments = .ok other := by
  induction segments generalizing place with
  | nil => exact hd
  | cons segment rest ih =>
    obtain ⟨hfolder, hrest⟩ := descend_cons.mp hd
    exact descend_cons.mpr ⟨h.folder place hfolder, ih hrest⟩

theorem eq_foldl_of_descend {segments : List String} (hd : disk.descend place segments = .ok other) :
    other = segments.foldl step place := by
  induction segments generalizing place with
  | nil =>
    cases hd
    rfl
  | cons segment rest ih => exact ih (descend_cons.mp hd).2

theorem Kept.place_eq (h : Kept lost disk later) (hp : disk.place path = .ok other) :
    later.place path = .ok other := by
  unfold Disk.place at hp ⊢
  split at hp
  · cases hp
  · rw [if_neg ‹_›, h.here]
    exact h.descend hp

theorem place_eq_goal (hp : disk.place path = .ok other) : other = disk.goal path := by
  unfold Disk.place at hp
  split at hp
  · cases hp
  · exact eq_foldl_of_descend hp

theorem read_eq_ok : disk.read path = .ok text ↔
    ∃ place, disk.place path = .ok place ∧ disk.item? place = some (.file (.text text)) := by
  unfold read look
  cases hp : disk.place path with
  | error => simp [bind, Except.bind]
  | ok place =>
    cases hitem : disk.item? place with
    | none => simp [bind, Except.bind, hitem, throw, throwThe, MonadExceptOf.throw]
    | some item =>
      obtain ⟨_ | _⟩ | _ := item <;>
        simp [bind, Except.bind, pure, Except.pure, hitem, throw, throwThe, MonadExceptOf.throw]

theorem Kept.read (h : Kept lost disk later) (hl : ¬ lost (disk.goal path))
    (hr : disk.read path = .ok text) : later.read path = .ok text := by
  obtain ⟨place, hp, hitem⟩ := read_eq_ok.mp hr
  exact read_eq_ok.mpr ⟨place, h.place_eq hp, h.file _ _ (place_eq_goal hp ▸ hl) hitem⟩

theorem makeFolders_kept {segments : List String} (h : disk.makeFolders place segments = .ok later) :
    Kept lost disk later := by
  induction segments generalizing disk place with
  | nil =>
    cases h
    exact .refl lost _
  | cons segment rest ih =>
    rw [makeFolders] at h
    split at h
    · exact ih h
    split at h
    · exact ih h
    dsimp only at h
    split at h
    · exact ih h
    · cases h
    · -- Only a place with nothing in it becomes a folder.
      rename_i hnone
      have hput : Kept lost disk (disk.put (place ++ [segment]) .folder) :=
        ⟨rfl, fun _ hp => item?_put_of_ne (fun heq => by simp [heq, hnone] at hp) hp,
          fun _ _ _ hp => item?_put_of_ne (fun heq => by simp [heq, hnone] at hp) hp⟩
      exact hput.trans (ih h)

theorem write_kept (h : disk.write path text = .ok later) :
    later.read path = .ok text ∧ Kept (· = disk.goal path) disk later := by
  unfold write at h
  cases hp : disk.place path with
  | error => simp [hp, bind, Except.bind] at h
  | ok place =>
    simp only [hp, bind, Except.bind] at h
    split at h
    · cases h
    · rename_i hfolder
      cases h
      have hkept : Kept (· = disk.goal path) disk (disk.put place (.file (.text text))) :=
        ⟨rfl, fun _ hq => item?_put_of_ne (fun heq => hfolder (heq ▸ hq)) hq,
          fun _ _ hl hq => item?_put_of_ne (fun heq => hl (heq.trans (place_eq_goal hp))) hq⟩
      exact ⟨read_eq_ok.mpr ⟨place, hkept.place_eq hp, item?_put disk place _⟩, hkept⟩

end

end Disk

namespace CommandLine

/-- The place of an output. -/
def FileResult.goal (disk : Disk) (folder : String) (file : FileResult) : Place :=
  disk.goal (Path.join folder file.input.relative)

section
attribute [local irreducible] writeOutput

theorem writeOutputs_cons (disk : Disk) (folder : String) (written : Nat) (file : FileResult)
    (rest : List FileResult) :
    writeOutputs disk folder written (file :: rest) =
      match file.outcome with
      | .error _ => writeOutputs disk folder written rest
      | .ok lowered =>
        match writeOutput disk folder file.input lowered.output with
        | .error failure => (.error failure, disk)
        | .ok disk => writeOutputs disk folder (written + 1) rest :=
  rfl

end

section
variable {disk later : Disk} {folder output : String} {input : Input}
  {files : List FileResult} {written n : Nat}

theorem writeOutput_kept (h : writeOutput disk folder input output = .ok later) :
    later.read (Path.join folder input.relative) = .ok output ∧
      Disk.Kept (· = disk.goal (Path.join folder input.relative)) disk later := by
  unfold writeOutput at h
  dsimp only at h
  cases hmade : disk.makeFolder (Path.parent (Path.join folder input.relative)) with
  | error =>
    rw [hmade] at h
    cases h
  | ok made =>
    rw [hmade] at h
    change (made.write (Path.join folder input.relative) output).mapError _ = .ok later at h
    have hkept : Disk.Kept (· = disk.goal (Path.join folder input.relative)) disk made :=
      Disk.makeFolders_kept hmade
    cases hwritten : made.write (Path.join folder input.relative) output with
    | error =>
      rw [hwritten] at h
      cases h
    | ok other =>
      rw [hwritten] at h
      cases h
      obtain ⟨hread, hlater⟩ := Disk.write_kept hwritten
      refine ⟨hread, hkept.trans ?_⟩
      rwa [Disk.goal, hkept.here] at hlater

/-- The induction is on the files that are still to be written: what is on the disk by now is kept
unless one of them has its place. -/
theorem writeOutputs_kept (h : writeOutputs disk folder written files = (.ok n, later)) :
    n = written + files.countP FileResult.isLowered ∧ Disk.Kept (fun place => ∃ file ∈ files,
      file.isLowered ∧ file.goal disk folder = place) disk later := by
  induction files generalizing disk written with
  | nil =>
    cases h
    exact ⟨rfl, .refl _ _⟩
  | cons file rest ih =>
    rw [writeOutputs_cons] at h
    cases houtcome : file.outcome with
    | error diagnostics =>
      rw [houtcome] at h
      obtain ⟨hn, hkept⟩ := ih h
      refine ⟨by simp [hn, houtcome, FileResult.isLowered], hkept.mono ?_⟩
      rintro place ⟨other, ho, hother⟩
      exact ⟨other, List.mem_cons_of_mem _ ho, hother⟩
    | ok lowered =>
      have hok : file.isLowered := by simp [houtcome, FileResult.isLowered]
      rw [houtcome] at h
      dsimp only at h
      cases hmade : writeOutput disk folder file.input lowered.output with
      | error failure => simp [hmade] at h
      | ok made =>
        rw [hmade] at h
        obtain ⟨hn, hkept⟩ := ih h
        obtain ⟨-, hfirst⟩ := writeOutput_kept hmade
        refine ⟨by simp [hn, hok]; omega, (hfirst.mono ?_).trans (hkept.mono ?_)⟩
        · intro place hplace
          exact ⟨file, List.mem_cons_self, hok, hplace.symm⟩
        · rintro place ⟨other, ho, hother, hplace⟩
          rw [FileResult.goal, Disk.goal, hfirst.here] at hplace
          exact ⟨other, List.mem_cons_of_mem _ ho, hother, hplace⟩

theorem writeOutputs_append {earlier : List FileResult}
    (h : writeOutputs disk folder written (earlier ++ files) = (.ok n, later)) :
    ∃ between count, between.here = disk.here ∧
      writeOutputs between folder count files = (.ok n, later) := by
  induction earlier generalizing disk written with
  | nil => exact ⟨disk, written, rfl, h⟩
  | cons file rest ih =>
    rw [List.cons_append, writeOutputs_cons] at h
    split at h
    · exact ih h
    · split at h
      · cases h
      · rename_i made hmade
        obtain ⟨between, count, hhere, hrest⟩ := ih h
        exact ⟨between, count, hhere.trans (writeOutput_kept hmade).2.here, hrest⟩

/-- If all outputs are written, as many are counted as there are lowered files. Each can be read where
it was written unless a later one has the same place, and nothing else that could be read is changed. -/
theorem outputs_kept (h : writeOutputs disk folder 0 files = (.ok n, later)) :
    n = files.countP FileResult.isLowered ∧
    (∀ earlier file following lowered, files = earlier ++ file :: following →
      file.outcome = .ok lowered →
      (∀ other ∈ following, other.isLowered → other.goal disk folder ≠ file.goal disk folder) →
      later.read (Path.join folder file.input.relative) = .ok lowered.output) ∧
    ∀ path text, disk.read path = .ok text →
      (∀ file ∈ files, file.isLowered → file.goal disk folder ≠ disk.goal path) →
      later.read path = .ok text := by
  obtain ⟨hn, hkept⟩ := writeOutputs_kept h
  refine ⟨by simpa using hn, fun earlier file following lowered hfiles houtcome hothers => ?_,
    fun path text hread hothers => hkept.read ?_ hread⟩
  · subst hfiles
    obtain ⟨between, count, hhere, hrest⟩ := writeOutputs_append h
    rw [writeOutputs_cons, houtcome] at hrest
    dsimp only at hrest
    cases hmade : writeOutput between folder file.input lowered.output with
    | error failure => simp [hmade] at hrest
    | ok made =>
      rw [hmade] at hrest
      obtain ⟨hread, hfirst⟩ := writeOutput_kept hmade
      refine (writeOutputs_kept hrest).2.read ?_ hread
      rintro ⟨other, ho, hok, hplace⟩
      apply hothers other ho hok
      simpa only [FileResult.goal, Disk.goal, hfirst.here, hhere] using hplace
  · rintro ⟨file, hf, hok, hplace⟩
    exact hothers file hf hok hplace

end

/-- A file with the given name whose output is the given text. -/
def loweredTo (name output : String) : FileResult := ⟨⟨name, name, name⟩, "", .ok ⟨output, []⟩⟩

def loweredPair : List FileResult := [loweredTo "x.js" "1;", loweredTo "y.js" "2;"]

theorem outputs_kept_pair : ∃ later, writeOutputs { here := "/" } "/out" 0 loweredPair = (.ok 2, later) ∧
    later.read (Path.join "/out" "x.js") = .ok "1;" := by
  have hwritten : (writeOutputs { here := "/" } "/out" 0 loweredPair).1.toOption = some 2 := by
    decide +kernel
  have hgoal : ∀ other ∈ [loweredTo "y.js" "2;"], other.isLowered →
      other.goal { here := "/" } "/out" ≠ (loweredTo "x.js" "1;").goal { here := "/" } "/out" := by
    decide +kernel
  cases hall : writeOutputs { here := "/" } "/out" 0 loweredPair with
  | mk written later =>
    rw [hall] at hwritten
    cases written with
    | error => cases hwritten
    | ok n =>
      cases hwritten
      exact ⟨later, rfl, (outputs_kept hall).2.1 [] (loweredTo "x.js" "1;") _ ⟨"1;", []⟩ rfl rfl hgoal⟩

def twoFolders : Disk where
  here := "/"
  entries := [(["a", "x.js"], .file (.text "log(1);")), (["b", "x.js"], .file (.text "log(2);"))]

/-- Two outputs are counted, but the second is where the first should be. -/
theorem output_overwritten :
    (collectInputs twoFolders [] ["a", "b"]).toOption.map (fun inputs =>
        let (written, disk) := writeOutputs twoFolders "/out" 0 (inputs.map (lowerInput twoFolders {}))
        (written.toOption,
          inputs.map fun input => (disk.read (Path.join "/out" input.relative)).toOption)) =
      some (some 2, [some "log(2);\n", some "log(2);\n"]) := by
  decide +kernel

end CommandLine

end ArrayLoops
