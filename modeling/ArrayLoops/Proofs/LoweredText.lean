import ArrayLoops.Proofs.AppliedPhrases
import ArrayLoops.Proofs.ShownOnce

/-!
# Lowered texts

The directives of a pass are proper: they bring in statements with values from inside the statement
and put values in the place of calls. So a lowered text is read as the tree that the directives make
of the tree of the source, unless it is nested too deep to be read.
-/

namespace ArrayLoops.Lowering

open Grammar (IsPhrase IsValue Level Phrase)
open Layout (Full Placed PlacedAt PointsApart innerNode isDigits need pointsApart_absent pointsApart_mk)
open ArrayLoops.Tree (Arena Info Node NodeId Shape)

attribute [local simp] Shape.parts

structure PointsTurn (node : Node) (applied : Applied) : Prop where
  inner : PointsApart applied.node
  items : ∀ item ∈ applied.items, PointsApart item
  embedded : PointsApart applied.embedded
  digits : isDigits applied.node = isDigits node

theorem mem_parts_rebuild {shape : Shape Applied} {part : Node} (h : part ∈ (rebuild shape).parts) :
    ∃ applied ∈ shape.parts, part = applied.node ∨ part ∈ applied.items ∨ part = applied.embedded := by
  cases shape with
  | block statements | file name statements =>
    obtain ⟨applied, ha, hp⟩ := List.mem_flatMap.mp h
    exact ⟨applied, ha, .inr (.inl hp)⟩
  | branch condition thenBranch elseBranch =>
    simp only [rebuild, Shape.parts, List.mem_cons, List.not_mem_nil, or_false] at h
    obtain rfl | rfl | rfl := h
    · exact ⟨condition, by simp, .inl rfl⟩
    · exact ⟨thenBranch, by simp, .inr (.inr rfl)⟩
    · exact ⟨elseBranch, by simp, .inr (.inr rfl)⟩
  | loop form initializer condition update body =>
    simp only [rebuild, Shape.parts, List.mem_cons, List.not_mem_nil, or_false] at h
    obtain rfl | rfl | rfl | rfl := h
    · exact ⟨initializer, by simp, .inl rfl⟩
    · exact ⟨condition, by simp, .inl rfl⟩
    · exact ⟨update, by simp, .inl rfl⟩
    · exact ⟨body, by simp, .inr (.inr rfl)⟩
  | _ =>
    rw [rebuild, Shape.parts_map, List.mem_map] at h
    · obtain ⟨applied, ha, rfl⟩ := h
      exact ⟨applied, ha, .inl rfl⟩
    all_goals simp

section
variable {applied : Node → Applied} {info : Info} {shape : Shape Node}

theorem pointsApart_inside (hparts : ∀ part ∈ shape.parts, PointsTurn part (applied part))
    (h : PointsApart (.mk info shape)) : PointsApart (.mk info (rebuild (shape.map applied))) := by
  rw [pointsApart_mk] at h ⊢
  refine ⟨fun part hp => ?_, fun object key heq => ?_⟩
  · obtain ⟨turned, ht, hp⟩ := mem_parts_rebuild hp
    rw [Shape.parts_map, List.mem_map] at ht
    obtain ⟨source, hs, rfl⟩ := ht
    obtain rfl | hp | rfl := hp
    · exact (hparts source hs).inner
    · exact (hparts source hs).items part hp
    · exact (hparts source hs).embedded
  · cases shape with
    | access isElement before name =>
      obtain ⟨rfl, rfl, rfl⟩ : isElement = false ∧ (applied before).node = object ∧
          (applied name).node = key := by simpa [rebuild, Shape.map] using heq
      rw [(hparts before (by simp)).digits]
      exact h.2 before name rfl
    | _ => simp [rebuild, Shape.map] at heq

theorem isDigits_inside : isDigits (.mk info (rebuild (shape.map applied))) = isDigits (.mk info shape) := by
  cases shape with
  | literal isString text raw value => rfl
  | _ => rfl

theorem pointsTurn_splice {before : List Code} {replacement : Option (List Code)} {made : Info}
    {nodes : Node → Node} {items : List Node}
    (hitems : items = before.map (Code.node made nodes) ++ match replacement with
      | some codes => codes.map (Code.node made nodes)
      | none => [.mk info (rebuild (shape.map applied))])
    (hkept : PointsApart (.mk info (rebuild (shape.map applied))))
    (hcodes : ∀ code ∈ before ++ replacement.getD [], PointsApart (code.node made nodes)) :
    PointsTurn (.mk info shape)
      ⟨.mk info (rebuild (shape.map applied)), items, .mk made (.block items)⟩ := by
  have hall : ∀ item ∈ items, PointsApart item := by
    rw [List.forall_mem_append] at hcodes
    rw [hitems, List.forall_mem_append, List.forall_mem_map]
    refine ⟨hcodes.1, ?_⟩
    cases replacement with
    | none => exact List.forall_mem_singleton.mpr hkept
    | some codes => exact List.forall_mem_map.mpr hcodes.2
  exact ⟨hkept, hall, pointsApart_mk.mpr ⟨hall, nofun⟩, isDigits_inside⟩

end

theorem pointsApart_inPlace {arena : Arena} {id : NodeId} {nodes : Node → Node} {value : Code}
    (hvalue : value.IsResult) :
    PointsApart (inPlace arena (Directives.made arena) id nodes value) ∧
      isDigits (inPlace arena (Directives.made arena) id nodes value) = false := by
  have hinner : ∀ info, PointsApart (value.node info nodes) ∧ isDigits (value.node info nodes) = false := by
    obtain rfl | ⟨text, -, rfl⟩ := hvalue
    · exact fun info => ⟨by simp [Code.node, Code.numeral, pointsApart_mk], rfl⟩
    · exact fun info => ⟨by simp [Code.node, pointsApart_mk], rfl⟩
  unfold inPlace
  split
  · refine ⟨?_, rfl⟩
    rw [pointsApart_mk]
    exact ⟨List.forall_mem_singleton.mpr (hinner _).1, nofun⟩
  · exact hinner _

theorem pointsTurn_within {arena : Arena} {directives : Directives} {root : Node}
    (hplaced : Placed directives root) (hpoints : PointsApart root) :
    ∀ node, node.Within root → ∀ count, need directives node ≤ count →
      PointsTurn node (directives.applyTo arena count node) := by
  induction root with
  | absent =>
    intro node hw count _
    cases hw
    rw [Layout.applyTo_absent_eq]
    exact ⟨pointsApart_absent, nofun, pointsApart_absent, rfl⟩
  | mk info shape ih =>
    have hinside : ∀ part ∈ shape.parts, ∀ node, node.Within part → ∀ count, need directives node ≤ count →
        PointsTurn node (directives.applyTo arena count node) := fun part hp =>
      ih part hp (hplaced.within (.part hp .self)) (hpoints.part part hp)
    intro node hw count hcount
    cases hw with
    | part hp hw => exact hinside _ hp node hw count hcount
    | self =>
      have hkept : PointsApart (.mk info (rebuild (shape.map (directives.applyTo arena count)))) :=
        pointsApart_inside (fun part hp =>
          hinside part hp part .self count (Layout.need_parts hcount part hp)) hpoints
      have hat := hplaced info shape .self
      rw [Layout.applyTo_mk_eq, Directives.applyNode]
      simp only [Shape.map_map, Function.comp_def]
      unfold PlacedAt at hat
      cases hget : directives.get? info.id with
      | none => exact ⟨hkept, List.forall_mem_singleton.mpr hkept, hkept, isDigits_inside⟩
      | some directive =>
        rw [hget] at hat
        cases directive with
        | substitute value =>
          obtain ⟨hvalue, -, callee, arguments, rfl⟩ := hat
          obtain ⟨hvalue, hdigits⟩ := @pointsApart_inPlace arena info.id (innerNode arena directives count) _ hvalue
          exact ⟨hvalue, List.forall_mem_singleton.mpr hkept, hkept, hdigits⟩
        | splice before replacement =>
          obtain ⟨-, hstands⟩ := hat
          have hcodes : ∀ code ∈ before ++ replacement.getD [], PointsApart
              (code.node (Directives.made arena) (innerNode arena directives count)) := by
            intro code hcode
            refine (hstands code hcode).pointsApart ?_
            rintro source ⟨⟨part, hp, hw⟩, -⟩
            have hsome : (directives.get? info.id).isSome := by rw [hget]; rfl
            obtain ⟨count, rfl, hless⟩ := Layout.need_inside hsome hcount
            exact (hinside part hp source hw count (hless part hp source hw)).inner
          exact pointsTurn_splice rfl hkept hcodes

section
variable {limited : Bool} {plan : Plan} {directives : Directives} {node : Node}

def Inside (node source : Node) : Prop := (∃ part ∈ node.parts, source.Within part) ∧ IsValue source

theorem Inside.of_part {part source : Node} (h : Inside part source) (hp : part ∈ node.parts) :
    Inside node source := by
  obtain ⟨⟨inner, hi, hw⟩, hvalue⟩ := h
  exact ⟨⟨part, hp, hw.trans (.of_part hi)⟩, hvalue⟩

theorem CallSite.inside_parts {arena : Arena} {options : Options} {site : CallSite}
    (hsite : ofCall arena options node = .ok site) (hphrase : IsPhrase limited node) :
    ∀ source ∈ site.parts, Inside node source := by
  obtain ⟨info, member, isComputed, key, isListed, rfl, -, -⟩ := ofCall_spec hsite
  obtain ⟨-, -, ⟨depth, links, hcallee⟩, harguments⟩ := hphrase.call_spec
  refine List.forall_mem_cons.mpr ⟨⟨⟨_, List.mem_cons_self, ?_⟩, hcallee.object_isValue⟩, fun source hs => ?_⟩
  · exact .part List.mem_cons_self .self
  · exact ⟨⟨source, List.mem_cons_of_mem _ hs, .self⟩, harguments source hs⟩

theorem Plan.stands_pending (hphrase : IsPhrase limited node) (depth : Nat) :
    ∀ hoisted ∈ (plan.lower node depth).pending, Code.Stands (Inside node) .statement hoisted.code := by
  induction node generalizing depth with
  | absent => nofun
  | mk info shape ih =>
    have hparts : ∀ part ∈ shape.parts, ∀ hoisted ∈ (plan.lower part (depth + 1)).pending,
        Code.Stands (Inside (.mk info shape)) .statement hoisted.code := by
      intro part hp hoisted hm
      cases part with
      | absent => cases hm
      | mk partInfo partShape =>
        have hinner := ih _ hp (hphrase.within (.part hp .self) rfl) (depth + 1) hoisted hm
        exact hinner.mono fun source hsource => hsource.of_part hp
    cases hsite : plan.site? (.mk info shape) depth with
    | none =>
      rw [lower_parts hsite]
      intro hoisted hm
      obtain ⟨piece, hpiece, hm⟩ := Piece.mem_pendingIn hm
      rw [Shape.parts_map, List.mem_map] at hpiece
      obtain ⟨part, hp, rfl⟩ := hpiece
      exact hparts part hp hoisted hm
    | some site =>
      have hcall := (Pass.site?_spec hsite).2
      have hsources := CallSite.inside_parts hcall hphrase
      obtain ⟨_, _, _, _, _, hnode, -, -⟩ := CallSite.ofCall_spec hcall
      cases hnode
      rw [lower_site hsite]
      intro hoisted hm
      simp only [lowerSite, List.mem_append, List.mem_flatMap] at hm
      obtain hm | ⟨code, hcode, hm⟩ := hm
      · exact hparts _ List.mem_cons_self hoisted hm
      · obtain ⟨argument, ha, hm⟩ | hm := hm
        · obtain ⟨source, hs, rfl⟩ := List.mem_map.mp ha
          split at hm
          · exact hparts source (List.mem_cons_of_mem _ hs) hoisted hm
          · cases hm
        · obtain rfl := List.mem_singleton.mp hm
          exact ((site.stands_loweredWith _).1 code hcode).mono hsources

theorem Obeys.within {root : Node} {depth : Nat} (h : Obeys plan directives root depth) (hw : node.Within root) :
    ∃ below, Obeys plan directives node below := by
  induction hw generalizing depth with
  | self => exact ⟨depth, h⟩
  | part hp _ ih =>
    cases h with
    | mk _ hparts => exact ih (hparts _ hp)

theorem Obeys.placedAt {info : Info} {shape : Shape Node} {depth : Nat}
    (h : Obeys plan directives (.mk info shape) depth) (hphrase : IsPhrase limited (.mk info shape)) :
    PlacedAt directives info shape := by
  cases h with
  | mk hentry _ =>
    unfold Entry at hentry
    cases hs : (Node.mk info shape).isStatement with
    | true =>
      simp only [hs, if_true, Holds] at hentry
      split at hentry
      · simp only [PlacedAt, hentry]
      · rename_i hne
        obtain ⟨before, replacement, hget, hcodes, -⟩ := hentry
        simp only [PlacedAt, hget, hcodes]
        refine ⟨hne, fun code hcode => ?_⟩
        obtain ⟨hoisted, hm, rfl⟩ := List.mem_map.mp hcode
        exact Plan.stands_pending hphrase depth hoisted hm
    | false =>
      simp only [hs, Bool.false_eq_true, if_false] at hentry
      cases hsite : plan.site? (.mk info shape) depth with
      | none =>
        rw [hsite] at hentry
        simp only [PlacedAt, hentry]
      | some site =>
        obtain ⟨_, _, _, _, _, hnode, -, -⟩ := Pass.site?_call hsite
        cases hnode
        obtain ⟨hflags, rfl, -, -⟩ := hphrase.call_spec
        simp only [hsite] at hentry
        unfold PlacedAt
        rw [hentry]
        split
        · trivial
        · rename_i value heq
          obtain ⟨-, rfl⟩ : _ ∧ (site.loweredWith (plan.naming info.id)).value = value := by
            simpa using heq
          exact ⟨(site.stands_loweredWith _).2, hflags, _, _, rfl⟩
        · rename_i heq
          simp at heq

end

theorem full_of_isFile {limited : Bool} {root : Node} (h : Grammar.IsFile limited root) : Full root := by
  intro info statements hw node hn
  obtain heq | hphrase := h.within hw rfl
  · obtain ⟨id, fin, name, others, rfl, -⟩ := h
    cases heq
  · exact hphrase.block node hn

theorem runPass_placed {arena : Arena} {options : Options} {root : Node} {result : PassResult}
    {limited : Bool} (hforest : arena.Forest [root]) (hregular : root.Regular)
    (hfile : Grammar.IsFile limited root) (hrun : runPass arena options root = .ok result) :
    Placed result.directives root ∧ root.id?.bind result.directives.get? = none := by
  obtain ⟨naming, -, hobeys, -⟩ := runPass_obeys hforest hregular hfile.isKind hrun
  obtain ⟨id, fin, name, statements, hroot, -⟩ := id hfile
  have hnone : result.directives.get? id = none := by
    rw [hroot] at hobeys
    exact hobeys.get?_eq_none rfl (Plan.site?_of_not_call (by simp [Shape.kind]))
  refine ⟨fun info shape hw => ?_, by rw [hroot]; exact hnone⟩
  obtain ⟨depth, hbelow⟩ := hobeys.within hw
  obtain heq | hphrase := hfile.within hw rfl
  · rw [hroot] at heq
    cases heq
    simp [PlacedAt, hnone]
  · exact hbelow.placedAt hphrase

theorem apply_file {arena : Arena} {directives : Directives} {limited : Bool} {info : Info} {name : String}
    {statements : List Node} (hknows : arena.Knows (.mk info (.file name statements)))
    (hplaced : Placed directives (.mk info (.file name statements)))
    (hnone : directives.get? info.id = none)
    (hneed : need directives (.mk info (.file name statements)) ≤ arena.size)
    (hall : ∀ statement ∈ statements, Phrase limited .statement 0 statement) :
    let items := statements.flatMap fun statement => (directives.applyTo arena arena.size statement).items
    directives.apply arena (.mk info (.file name statements)) = .mk info (.file name items) ∧
      ∀ item ∈ items, Phrase false .statement 0 item := by
  refine ⟨?_, fun item hi => ?_⟩
  · rw [Directives.apply, node_applyTo (by simp [hnone])]
    simp [Shape.map, rebuild, List.flatMap_map]
  · obtain ⟨statement, hs, hi⟩ := List.mem_flatMap.mp hi
    have hturns := turns_within hknows hplaced statement (.part hs .self) arena.size
      (Layout.need_parts hneed statement hs) (hall statement hs)
    exact hturns.items rfl item hi 0

section
variable {name text : String} {options : Options} {result : PassResult}
  (h : (parse name text).complaints = [])
  (hrun : runPass (parse name text).arena options (parse name text).root = .ok result)
include h hrun

theorem lowered_isFile : ∃ id fin statements,
    result.directives.apply (parse name text).arena (parse name text).root =
        .mk ⟨id, 0, fin, {}⟩ (.file name statements) ∧
      (∀ statement ∈ statements, Phrase false .statement 0 statement) ∧
      Layout.print (parse name text).arena result.directives (parse name text).root =
        Layout.print (parse name text).arena .empty (.mk ⟨id, 0, fin, {}⟩ (.file name statements)) ∧
      (PointsApart (parse name text).root →
        PointsApart (.mk ⟨id, 0, fin, {}⟩ (.file name statements))) := by
  have hforest := parse_forest name text
  have hfile := Grammar.parse_isFile h
  obtain ⟨hplaced, hnone⟩ := runPass_placed hforest (parse_regular name text) hfile hrun
  have hfull := full_of_isFile hfile
  have hneed : need result.directives (parse name text).root ≤ (parse name text).arena.size := by
    have hlength : (parse name text).root.ids.length = (parse name text).arena.size := by
      simpa using hforest.ids.length_eq
    exact hlength ▸ List.countP_le_length
  have hsize : need result.directives (parse name text).root ≤ result.directives.size :=
    need_le_size (by simpa using hforest.nodup)
  have hknows : (parse name text).arena.Knows (parse name text).root := hforest.known _ List.mem_cons_self
  have hpoints : PointsApart (parse name text).root →
      PointsApart (result.directives.apply (parse name text).arena (parse name text).root) :=
    fun hpoints => (pointsTurn_within hplaced hpoints _ .self _ hneed).inner
  obtain ⟨id, fin, statements, hroot, hall⟩ := Grammar.parse_statements h
  rw [hroot] at hplaced hnone hfull hneed hsize hknows hpoints ⊢
  obtain ⟨happly, hphrases⟩ := apply_file hknows hplaced hnone hneed hall
  have hprint := Layout.print_apply hplaced hfull hnone hsize hneed
  rw [happly] at hpoints hprint
  exact ⟨id, fin, _, happly, hphrases, hprint, hpoints⟩

/-- A lowered text is read as the tree that the directives make, unless it is nested too deep. -/
theorem parse_lowered (hpoints : PointsApart (parse name text).root) :
    let output := Layout.print (parse name text).arena result.directives (parse name text).root
    (parse name output).complaints = [] ∧ (parse name output).root.unplaced =
        (result.directives.apply (parse name text).arena (parse name text).root).unplaced ∨
      ∃ start length, (parse name output).complaints = [⟨start, length, .nestingTooDeep⟩] := by
  obtain ⟨id, fin, statements, happly, hphrases, hprint, happart⟩ := lowered_isFile h hrun
  intro output
  rw [happly]
  obtain hback | ⟨-, hdeep⟩ := Layout.parse_print hphrases (happart hpoints) (parse name text).arena hprint
  · exact .inl hback
  · exact .inr hdeep

end

end ArrayLoops.Lowering

namespace ArrayLoops

open Layout (Doc PointsApart docs isTight)
open Lowering (BindsTighter Options)
open ArrayLoops.Tree (Node)

def parseChars (name : String) (cs : List Char) : ParsedFile :=
  parseTokens name (Token.listFrom (cs.length + 1) 0 cs)

theorem parse_ofList (name : String) (cs : List Char) : parse name (String.ofList cs) = parseChars name cs := by
  rw [parse, Token.list, String.toList_ofList, parseChars]

def complaintsAgain (name : String) (options : Options) (parsed : ParsedFile) : Option (List Complaint) :=
  (Lowering.runPass parsed.arena options parsed.root).toOption.map fun result =>
    (parseChars name ((docs parsed.arena result.directives parsed.root .whole).put 0 true).1).complaints

theorem complaintsAgain_eq {name text : String} {options : Options} {lowered : LoweredFile}
    (h : lower name text options = .ok lowered) :
    complaintsAgain name options (parse name text) = some (parse name lowered.output).complaints := by
  unfold lower at h
  simp only at h
  split at h
  · cases h
  · split at h
    · cases h
    · rename_i result hrun
      cases h
      rw [complaintsAgain, hrun, Layout.print, Doc.render_eq, parse_ofList]
      rfl

/-- A lowered text that can be read has the tree that the directives of the pass make of the tree of
the source. The value of a call is in parentheses there where what stands around the call binds
tighter. -/
theorem lowered_text_has_applied_tree {name text : String} (options : Options)
    (h : (parse name text).complaints = []) (hpoints : PointsApart (parse name text).root) :
    ∃ result lowered, Lowering.runPass (parse name text).arena options (parse name text).root = .ok result ∧
      lower name text options = .ok lowered ∧
      ((parse name lowered.output).complaints = [] → (parse name lowered.output).root.unplaced =
        (result.directives.apply (parse name text).arena (parse name text).root).unplaced) ∧
      ∀ info shape part id, Node.Within (.mk info shape) (parse name text).root → part ∈ shape.parts →
        part.id? = some id → (isTight (parse name text).arena id ↔ BindsTighter shape part) := by
  obtain ⟨result, hrun⟩ := Lowering.runPass_ok options h
  refine ⟨result, _, hrun, by simp only [lower, h, hrun]; rfl, fun hclean => ?_, ?_⟩
  · obtain ⟨-, htree⟩ | ⟨start, length, hdeep⟩ := Lowering.parse_lowered h hrun hpoints
    · exact htree
    · rw [hdeep] at hclean
      cases hclean
  · intro info shape part id hw hp hid
    exact Lowering.isTight_iff (((parse_forest name text).known _ List.mem_cons_self).within hw) hp hid

set_option maxRecDepth 100000 in
/-- A single statement with two calls becomes a block, and one of the values is put in parentheses. -/
theorem lowered_text_has_applied_tree_branch :
    let text := "if (a) b.forEach(c).d = e.map(f);"
    (parse "a.js" text).complaints = [] ∧ PointsApart (parse "a.js" text).root ∧
      ∃ result lowered, Lowering.runPass (parse "a.js" text).arena {} (parse "a.js" text).root = .ok result ∧
        lower "a.js" text {} = .ok lowered ∧ (parse "a.js" lowered.output).complaints = [] ∧
        (parse "a.js" lowered.output).root.unplaced =
          (result.directives.apply (parse "a.js" text).arena (parse "a.js" text).root).unplaced := by
  intro text
  have hclean : (parse "a.js" text).complaints = [] := by decide +kernel
  have hpoints : PointsApart (parse "a.js" text).root := by decide +kernel
  obtain ⟨result, lowered, hrun, hlower, htree, -⟩ := lowered_text_has_applied_tree {} hclean hpoints
  have hread : complaintsAgain "a.js" {} (parse "a.js" text) = some [] := by decide +kernel
  have houtput := complaintsAgain_eq hlower
  rw [hread] at houtput
  have houtput := Option.some.inj houtput.symm
  exact ⟨hclean, hpoints, result, lowered, hrun, hlower, houtput, htree houtput⟩

end ArrayLoops
