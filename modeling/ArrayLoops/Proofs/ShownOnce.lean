import ArrayLoops.Proofs.Notes
import ArrayLoops.Proofs.PassChanges
import ArrayLoops.Proofs.PassTree

/-!
# What a pass leaves of the source is printed once

With the directives of a pass, every leaf of a source tree is printed exactly once, the names of the
methods that are lowered apart, and every directive is followed exactly once. The reason is a
balance: what is printed in the place of a node, and what the node leaves to the statement around it,
show together all that is in the node but these names.
-/

namespace ArrayLoops

open Lowering (Code Directive Directives)
open ArrayLoops.Tree (Arena Info Node NodeId Shape Slot)

attribute [local simp] Shape.parts Shape.placed Shape.kind

namespace Lowering

open Layout
open Doc (Note)

/-- The name of the method that a call is lowered for. -/
def CallSite.key (site : CallSite) : Node :=
  match site.call with
  | .mk _ (.call _ (.mk _ (.access _ _ key)) _ _) => key
  | _ => .absent

def followedAt (directives : Directives) (note : Note) (info : Info) : Nat :=
  if directives.contains info.id ∧ note = .followed info.id then 1 else 0

theorem followedAt_none {directives : Directives} {note : Note} {info : Info}
    (h : directives.get? info.id = none) : followedAt directives note info = 0 := by
  simp [followedAt, Directives.contains, h]

theorem followedAt_some {directives : Directives} {note : Note} {info : Info}
    (h : (directives.get? info.id).isSome) :
    followedAt directives note info = if note = .followed info.id then 1 else 0 := by
  simp [followedAt, Directives.contains, h]

def total (directives : Directives) (note : Note) : Node → Nat :=
  Node.fold 0 fun info shape =>
    spelledAt note info shape + shownAt note info + followedAt directives note info +
      (shape.parts.map (·.2)).sum

theorem total_mk (directives : Directives) (note : Note) (info : Info) (shape : Shape Node) :
    total directives note (.mk info shape) = spelledAt note info shape + shownAt note info +
      followedAt directives note info + (shape.parts.map (total directives note)).sum := by
  rw [total, Node.fold_mk, Shape.parts_map, List.map_map]
  have hleaf : leafText (shape.map fun part => (part, total directives note part)) = leafText shape := by
    cases shape with
    | bare kind => cases kind <;> rfl
    | _ => rfl
  rw [spelledAt, spelledAt, ← hleaf]
  rfl

/-- What goes with a call that is lowered: the name of the method and the access to it. -/
def CallSite.lost (note : Note) (site : CallSite) : Nat :=
  match site.call with
  | .mk _ (.call _ (.mk member (.access _ _ (.mk key shape))) _ _) =>
    shownAt note member + (spelledAt note key shape + shownAt note key)
  | _ => 0

def Plan.dropped (plan : Plan) (note : Note) (node : Node) (depth : Nat) : Nat :=
  ((plan.sites node depth).map (·.lost note)).sum

theorem Plan.dropped_mk (plan : Plan) (note : Note) (info : Info) (shape : Shape Node)
    (depth : Nat) : plan.dropped note (.mk info shape) depth =
      (shape.slots.map (plan.dropped note · (depth + 1))).sum +
        ((plan.site? (.mk info shape) depth).toList.map (·.lost note)).sum := by
  rw [dropped, sites_mk, List.map_append, List.sum_append, List.map_flatMap, List.flatMap_def,
    List.sum_flatten, List.map_map]
  rfl

def brought (plan : Plan) (directives : Directives) (note : Note) (count : Nat)
    (codes : List Code) : Nat :=
  Layout.Code.countSources note (nodeDocs plan.arena directives count) (Code.mentionsIn codes)

section
variable {plan : Plan} {directives : Directives} {note : Note} {count : Nat}

@[simp] theorem brought_nil : brought plan directives note count [] = 0 := rfl

@[simp] theorem brought_append (codes more : List Code) :
    brought plan directives note count (codes ++ more) =
      brought plan directives note count codes + brought plan directives note count more := by
  simp [brought, Code.mentionsIn_eq]

theorem brought_flatMap (nodes : List Node) (codes : Node → List Code) :
    brought plan directives note count (nodes.flatMap codes) =
      (nodes.map fun node => brought plan directives note count (codes node)).sum := by
  induction nodes with
  | nil => rfl
  | cons node rest ih => simp [ih]

end

theorem sum_slots {info : Info} {shape : Shape Node} (h : (Node.mk info shape).Regular)
    {f : Node → Nat} (hf : f .absent = 0) :
    (shape.slots.map f).sum = (shape.parts.map f).sum := by
  cases shape with
  | loop form initializer condition update body =>
    cases form with
    | doWhile =>
      obtain rfl := Slot.eq_absent (h.placed (.vacant, initializer) (by simp))
      obtain rfl := Slot.eq_absent (h.placed (.vacant, update) (by simp))
      simp [Shape.slots, hf, Nat.add_comm]
    | _ => rfl
  | _ => rfl

/-- What is printed in the place of a node, what the node leaves to the statement around it and what
is left out of it are all that there is in it. A call that is all of its statement is printed nowhere,
because the statement goes. -/
structure Balanced (plan : Plan) (directives : Directives) (note : Note) (node : Node) (depth : Nat) :
    Prop where
  sources : ∀ source ∈ Code.sourcesOf (Code.mentionsIn (plan.left node depth)),
    source.isStatement = false
  printed : ∀ slot role, slot.admits node → PrintedAs slot node role → ∀ count more,
    need directives node ≤ count → need directives node ≤ more →
    ((plan.lower node depth).isSettled → node.isStatement = false →
      (node.unwrapped.id?.bind directives.get?).isSome) →
    (nodeDocs plan.arena directives count node role).count note +
      brought plan directives note more (plan.left node depth) + plan.dropped note node depth =
        total directives note node
  gone : (plan.lower node depth).isSettled → node.isStatement = false →
    (node.unwrapped.id?.bind directives.get?).isSome = false → ∀ more, need directives node ≤ more →
      brought plan directives note more (plan.left node depth) + plan.dropped note node depth =
        total directives note node

namespace Balanced

variable {plan : Plan} {directives : Directives} {note : Note} {depth : Nat} {root : Node}
  {above : List Node} {info : Info} {shape : Shape Node}

theorem count_absent (count : Nat) (role : Role) :
    (nodeDocs plan.arena directives count .absent role).count note = 0 := by
  rw [nodeDocs_absent]
  cases role <;> rfl

theorem absent : Balanced plan directives note .absent depth where
  sources := nofun
  printed _ role _ _ count _ _ _ _ := by rw [count_absent]; rfl
  gone h := by cases h

def seenIn (plan : Plan) (directives : Directives) (note : Note) (count : Nat)
    (entry : Slot × Node) : Nat :=
  (nodeDocs plan.arena directives count entry.2 (roleIn entry.1 entry.2)).count note

theorem seenIn_absent {count : Nat} (entry : Slot × Node) (h : entry.2 = .absent) :
    seenIn plan directives note count entry = 0 := by
  rw [seenIn, h, count_absent]

section
variable (hregular : (Node.mk info shape).Regular)
  (hparts : ∀ part ∈ shape.parts, Balanced plan directives note part (depth + 1))
  (hsettled : ∀ part ∈ shape.parts, (plan.lower part (depth + 1)).isSettled →
    part.isStatement = false → (part.unwrapped.id?.bind directives.get?).isSome)
  {count more : Nat} (hcount : ∀ part ∈ shape.parts, need directives part ≤ count)
  (hmore : ∀ part ∈ shape.parts, need directives part ≤ more)
include hregular hparts hsettled hcount hmore

theorem entry {entry : Slot × Node} (he : entry ∈ shape.placed info.flags) :
    seenIn plan directives note count entry +
        brought plan directives note more (plan.left entry.2 (depth + 1)) +
          plan.dropped note entry.2 (depth + 1) = total directives note entry.2 ∧
      ∀ role, PrintedAs entry.1 entry.2 role →
        (nodeDocs plan.arena directives count entry.2 role).count note =
          seenIn plan directives note count entry := by
  have hp : entry.2 ∈ shape.parts := by
    rw [← shape.map_snd_placed info.flags]
    exact List.mem_map_of_mem he
  have hprinted := fun role hrole => (hparts _ hp).printed entry.1 role (hregular.placed entry he)
    hrole count more (hcount _ hp) (hmore _ hp) (hsettled _ hp)
  by_cases hvacant : entry.1 = .vacant
  · obtain ⟨slot, node⟩ := entry
    obtain rfl : slot = .vacant := hvacant
    obtain rfl := Slot.eq_absent (hregular.placed _ he)
    exact ⟨by rw [seenIn, count_absent]; rfl, nofun⟩
  · have hrole := hprinted _ (printedAs_roleIn hvacant entry.2)
    refine ⟨hrole, fun role hother => ?_⟩
    have := hprinted role hother
    rw [seenIn]
    omega

theorem sum_parts :
    ((shape.placed info.flags).map (seenIn plan directives note count)).sum +
        brought plan directives note more (shape.slots.flatMap (plan.left · (depth + 1))) +
          (shape.slots.map (plan.dropped note · (depth + 1))).sum =
      (shape.parts.map (total directives note)).sum := by
  rw [brought_flatMap, sum_slots hregular rfl, sum_slots hregular rfl,
    ← shape.map_snd_placed info.flags, List.map_map, List.map_map, List.map_map,
    ← List.sum_map_add, ← List.sum_map_add]
  refine congrArg List.sum (List.map_congr_left fun entry he => ?_)
  exact (Balanced.entry hregular hparts hsettled hcount hmore he).1

theorem plain (hcomplete : Complete info shape) (hnone : directives.get? info.id = none)
    (hsite : plan.site? (.mk info shape) depth = none) {slot : Slot} {role : Role}
    (hadmits : slot.admits (.mk info shape)) (hrole : PrintedAs slot (.mk info shape) role) :
    (nodeDocs plan.arena directives count (.mk info shape) role).count note +
        brought plan directives note more (shape.slots.flatMap (plan.left · (depth + 1))) +
          plan.dropped note (.mk info shape) depth = total directives note (.mk info shape) := by
  have hsum := sum_parts hregular hparts hsettled hcount hmore
  rw [count_nodeDocs, count_nodeDoc
      (fun entry he => (Balanced.entry hregular hparts hsettled hcount hmore he).2) hnone hadmits hrole
      hcomplete hregular.placed fun entry _ => seenIn_absent entry,
    total_mk, Plan.dropped_mk, hsite, followedAt_none hnone, Option.toList_none, List.map_nil,
    List.sum_nil]
  omega

theorem staying (hcomplete : Complete info shape) (hs : (Node.mk info shape).isStatement)
    (hsite : plan.site? (.mk info shape) depth = none) :
    (statementInside directives info
        (shape.map fun part => (part, nodeDocs plan.arena directives count part))).count note +
        brought plan directives note more (shape.slots.flatMap (plan.left · (depth + 1))) +
          plan.dropped note (.mk info shape) depth + followedAt directives note info +
          shownAt note info =
      total directives note (.mk info shape) := by
  have hsum := sum_parts hregular hparts hsettled hcount hmore
  rw [count_statementInside
      (fun entry he => (Balanced.entry hregular hparts hsettled hcount hmore he).2)
      hcomplete hregular.placed (fun entry _ => seenIn_absent entry) hs,
    total_mk, Plan.dropped_mk, hsite, Option.toList_none, List.map_nil, List.sum_nil]
  omega

end

section
variable (hforest : plan.arena.Forest [root]) (hregular : root.Regular)
  (hpath : root.Path (.mk info shape) above)
  (hobeys : Obeys plan directives (.mk info shape) depth)
  (hsite : plan.site? (.mk info shape) depth = none)
  (hparts : ∀ part ∈ shape.parts, Balanced plan directives note part (depth + 1))
include hforest hregular hpath hsite hparts

theorem sources_of_parts : ∀ source ∈ Code.sourcesOf (Code.mentionsIn
    ((plan.lower (.mk info shape) depth).pending.map (·.code))), source.isStatement = false := by
  rw [← Plan.left_parts hforest hregular hpath hsite]
  intro source hm
  obtain ⟨code, hcode, hsource⟩ := Code.mem_sourcesOf_mentionsIn.mp hm
  obtain ⟨part, hp, hcode⟩ := List.mem_flatMap.mp hcode
  exact (hparts part (shape.slots_subset hp)).sources source
    (Code.mem_sourcesOf_mentionsIn.mpr ⟨code, hcode, hsource⟩)

include hobeys

theorem of_expression (hcomplete : Complete info shape)
    (hs : (Node.mk info shape).isStatement = false)
    (hkept : (plan.lower (.mk info shape) depth).isSettled →
      ((Node.mk info shape).unwrapped.id?.bind directives.get?).isSome = false →
        note ≠ .shown info.id) :
    Balanced plan directives note (.mk info shape) depth where
  sources := by
    rw [Plan.left_of_not_statement hs]
    exact sources_of_parts hforest hregular hpath hsite hparts
  printed slot role hadmits hrole count more hcount hmore hsettled := by
    have hnode := hregular.within hpath.within
    have hnone : directives.get? info.id = none := hobeys.get?_eq_none hs hsite
    have hsubstituted := hobeys.settled_parts hforest hregular hpath hsite
      fun h => ⟨hs, hsettled h hs⟩
    rw [Plan.left_of_not_statement hs, ← Plan.left_parts hforest hregular hpath hsite]
    exact plain hnode hparts hsubstituted (need_parts hcount) (need_parts hmore) hcomplete hnone hsite
      hadmits hrole
  gone h hs hnone more hmore := by
    have hshown : shownAt note info = 0 := if_neg (hkept h hnone)
    rw [Plan.lower_parts hsite] at h
    cases shape with
    | parenthesized expression =>
      have hp : expression ∈ (Shape.parenthesized expression).parts := by simp
      have hgone := (hparts expression hp).gone h
        ((hregular.within hpath.within).part_not_statement hp rfl) hnone more
        (need_parts hmore expression hp)
      have hentry : directives.get? info.id = none := hobeys.get?_eq_none hs hsite
      rw [Plan.left_of_not_statement hs, ← Plan.left_parts hforest hregular hpath hsite, total_mk,
        Plan.dropped_mk, hsite, followedAt_none hentry, hshown]
      simpa [Shape.slots, spelledAt, leafText] using hgone
    | evaluate => cases hs
    | _ => cases h

theorem going (hs : (Node.mk info shape).isStatement)
    (hsettled : (plan.lower (.mk info shape) depth).isSettled) {more : Nat}
    (hmore : ∀ part ∈ shape.parts, need directives part ≤ more) :
    brought plan directives note more (shape.slots.flatMap (plan.left · (depth + 1))) +
        plan.dropped note (.mk info shape) depth + followedAt directives note info +
        shownAt note info =
      total directives note (.mk info shape) := by
  have hnode := hregular.within hpath.within
  rw [total_mk, Plan.dropped_mk, hsite]
  rw [Plan.lower_parts hsite] at hsettled
  cases shape with
  | evaluate expression =>
    have hp : expression ∈ (Shape.evaluate expression).parts := by simp
    have hk : expression.isStatement = false := hnode.part_not_statement hp rfl
    have hpresent : expression.unwrapped.isPresent := Plan.settled_unwrapped hsettled
    have hexpression : expression.isPresent := by
      cases expression with
      | absent => cases hpresent
      | mk => rfl
    have hnone : (expression.unwrapped.id?.bind directives.get?).isSome = false := by
      cases hobeys with
      | mk _ hob =>
        rw [(hob expression hp).settled (hnode.part _ hp) hsettled hk,
          enclosingStatement_unwrapped hforest hregular (.part hpath hp hexpression) hk hpresent,
          Pass.statementOf_cons_of_statement hs]
        simp [Pass.isWholeStatement]
    have hgone := (hparts expression hp).gone hsettled hk hnone more (hmore expression hp)
    simp only [Shape.slots, Shape.parts, List.flatMap_cons, List.flatMap_nil, List.append_nil,
      List.map_cons, List.map_nil, List.sum_cons, List.sum_nil, Option.toList_none, spelledAt, leafText,
      Option.any_none, Bool.false_eq_true, if_false]
    omega
  | parenthesized => cases hs
  | _ => cases hsettled

theorem spliced (hcomplete : Complete info shape) (hs : (Node.mk info shape).isStatement)
    (hcodes : shape.slots.flatMap (plan.left · (depth + 1)) ≠ []) {role : Role}
    (hrole : PrintedAs .statement (.mk info shape) role) {count : Nat}
    (hcount : need directives (.mk info shape) ≤ count) :
    (nodeDocs plan.arena directives count (.mk info shape) role).count note +
      plan.dropped note (.mk info shape) depth = total directives note (.mk info shape) := by
  have hleft := Plan.left_parts hforest hregular hpath hsite
  have hsources := sources_of_parts hforest hregular hpath hsite hparts
  have hentry : Holds (directives.get? info.id)
      ((plan.lower (.mk info shape) depth).pending.map (·.code))
      (plan.lower (.mk info shape) depth).isSettled := by
    cases hobeys with
    | mk hentry _ =>
      rw [Entry, if_pos hs] at hentry
      exact hentry
  rw [← hleft] at hentry hsources
  rw [Holds, if_neg hcodes] at hentry
  obtain ⟨before, replacement, hentry, hboth, hreplaced⟩ := hentry
  have hsome : (directives.get? info.id).isSome := by rw [hentry]; rfl
  have hpositive : count ≠ 0 := fun h => need_pos hsome (Nat.le_zero.mp (h ▸ hcount))
  obtain ⟨count, rfl⟩ := Nat.exists_eq_succ_of_ne_zero hpositive
  -- One of the directives that are counted is that of the statement.
  have hinner : ∀ part ∈ shape.parts, need directives part ≤ count := need_directed hsome hcount
  rw [← hboth] at hsources
  rw [count_nodeDocs, count_spliced hentry hrole hsources, hboth, hreplaced, ← followedAt_some hsome]
  change _ + (_ + brought plan directives note count _ + _) + _ = _
  cases hsettled : (plan.lower (.mk info shape) depth).isSettled with
  | true =>
    have hgoing := going hforest hregular hpath hobeys hsite hparts hs hsettled hinner
    rw [if_pos rfl]
    omega
  | false =>
    have hstays := hobeys.settled_parts hforest hregular hpath hsite
      fun h => absurd h (by simp [hsettled])
    have hstaying := staying (hregular.within hpath.within) hparts hstays (need_parts hcount) hinner
      hcomplete hs hsite
    rw [if_neg (by simp)]
    omega

theorem of_statement (hcomplete : Complete info shape) (hs : (Node.mk info shape).isStatement) :
    Balanced plan directives note (.mk info shape) depth where
  sources := by
    rw [Plan.left_statement hs]
    exact nofun
  printed slot role hadmits hrole count more hcount hmore _ := by
    have hleft := Plan.left_parts hforest hregular hpath hsite
    rw [Plan.left_statement hs, brought_nil, Nat.add_zero]
    by_cases hcodes : shape.slots.flatMap (plan.left · (depth + 1)) = []
    · have hpending : (plan.lower (.mk info shape) depth).pending = [] := by
        rwa [hcodes, eq_comm, List.map_eq_nil_iff] at hleft
      have hstays := hobeys.settled_parts hforest hregular hpath hsite
        fun h => absurd hpending (Plan.pending_of_settled h)
      have hnone : directives.get? info.id = none := by
        cases hobeys with
        | mk hentry _ =>
          rw [Entry, if_pos hs] at hentry
          simpa [Holds, hpending] using hentry
      have hplain := plain (hregular.within hpath.within) hparts hstays (need_parts hcount)
        (need_parts hmore) hcomplete hnone hsite hadmits hrole
      rwa [hcodes, brought_nil, Nat.add_zero] at hplain
    · obtain rfl : slot = .statement := by
        by_contra hslot
        by_cases hbody : slot = .body
        · subst hbody
          cases shape with
          | block => exact hcodes (by rw [hleft, Plan.lower_parts hsite]; rfl)
          | _ => cases hadmits
        · rw [slot.not_isStatement hadmits ⟨hslot, hbody⟩] at hs
          cases hs
      exact spliced hforest hregular hpath hobeys hsite hparts hcomplete hs hcodes hrole hcount
  gone h hs' := by
    rw [hs] at hs'
    cases hs'

end

theorem brought_behind (arguments : List (Node × List Code)) (codes : List Code) (count : Nat) :
    brought plan directives note count (codes.flatMap (Code.behind arguments)) =
      brought plan directives note count (codes.flatMap fun code =>
        arguments.flatMap fun argument => if code.captures argument.1 then argument.2 else []) +
      brought plan directives note count codes := by
  induction codes with
  | nil => rfl
  | cons code rest ih =>
    have hcons : brought plan directives note count (code :: rest) = _ := brought_append [code] rest
    rw [List.flatMap_cons, List.flatMap_cons, Code.behind, brought_append, brought_append,
      brought_append, ih, hcons]
    omega

section
variable {callee : Node} {isListed : Bool} {arguments : List Node} {site : CallSite}
  (hforest : plan.arena.Forest [root]) (hregular : root.Regular)
  (hpath : root.Path (.mk info (.call false callee isListed arguments)) above)
  (hobeys : Obeys plan directives (.mk info (.call false callee isListed arguments)) depth)
  (hsite : plan.site? (.mk info (.call false callee isListed arguments)) depth = some site)
  (hparts : ∀ part ∈ callee :: arguments, Balanced plan directives note part (depth + 1))
  (hinner : ∀ part ∈ callee.parts, Balanced plan directives note part (depth + 2))
include hforest hregular hpath hsite

theorem left_callee : plan.left callee (depth + 1) = plan.left site.receiver (depth + 2) := by
  obtain ⟨_, member, isComputed, key, _, hnode, -, -⟩ := Pass.site?_call hsite
  cases hnode
  have hcallee : root.Path (.mk member (.access isComputed site.receiver key)) (_ :: above) :=
    .part hpath (by simp) rfl
  have hnone : plan.site? (.mk member (.access isComputed site.receiver key)) (depth + 1) = none :=
    Plan.site?_of_not_call (by cases isComputed <;> simp)
  have hkey : plan.left key (depth + 2) = [] := by
    obtain ⟨_, _, rfl, ⟨_, rfl⟩ | ⟨_, _, _, rfl⟩⟩ := CallSite.ofCall_key (Pass.site?_spec hsite).2
    all_goals
      rw [Plan.left_of_not_statement rfl,
        Plan.lower_parts (Plan.site?_of_not_call (by simp))]
      rfl
  rw [Plan.left_of_not_statement (by cases isComputed <;> rfl),
    ← Plan.left_parts hforest hregular hcallee hnone]
  simp [Shape.slots, hkey]

theorem brought_site (more : Nat) :
    brought plan directives note more
        (plan.left (.mk info (.call false callee isListed arguments)) depth) =
      (nodeDocs plan.arena directives more site.receiver .expression).count note +
        brought plan directives note more (plan.left site.receiver (depth + 2)) +
        (arguments.map fun argument =>
          (nodeDocs plan.arena directives more argument .expression).count note +
            brought plan directives note more (plan.left argument (depth + 1))).sum := by
  have hnode := hregular.within hpath.within
  have hnodup := Pass.node_nodup hforest hpath
  rw [Plan.left_site hsite fun part hp => hnode.part_not_statement hp rfl, brought_append,
    left_callee hforest hregular hpath hsite, brought_behind]
  obtain ⟨_, member, isComputed, key, _, hcall, -, -⟩ := Pass.site?_call hsite
  cases hcall
  have hids : (site.receiver.ids ++ (site.callback :: site.extra.toList).flatMap Node.ids).Nodup := by
    refine hnodup.sublist ?_
    simp only [Node.ids_mk, Shape.parts, List.flatMap_cons, List.cons_append]
    refine .cons _ (.cons _ ?_)
    exact (List.sublist_append_left _ _).append (.refl _)
  have hcaptures := @site.flatMap_captures _ (plan.left · (depth + 1)) rfl hids
    (plan.naming info.id)
  have hstatements : brought plan directives note more
      (site.loweredWith (plan.naming info.id)).statements =
        (nodeDocs plan.arena directives more site.receiver .expression).count note +
          ((site.callback :: site.extra.toList).map fun argument =>
            (nodeDocs plan.arena directives more argument .expression).count note).sum := by
    rw [brought, Layout.Code.countSources, site.sourcesOf_loweredWith (plan.naming info.id),
      List.map_cons, List.sum_cons]
  simp only [List.flatMap_map] at hcaptures ⊢
  rw [hcaptures, brought_flatMap, List.sum_map_add, hstatements]
  omega

include hobeys

omit hforest hregular hpath in
theorem total_callee : plan.dropped note callee (depth + 1) =
      plan.dropped note site.receiver (depth + 2) ∧
    total directives note callee = total directives note site.receiver + site.lost note := by
  obtain ⟨_, member, isComputed, key, _, hcall, hself, -⟩ := Pass.site?_call hsite
  cases hcall
  have hnone : plan.site? (.mk member (.access isComputed site.receiver key)) (depth + 1) = none :=
    Plan.site?_of_not_call (by cases isComputed <;> simp)
  have hcallee : Obeys plan directives (.mk member (.access isComputed site.receiver key))
      (depth + 1) := by
    cases hobeys with
    | mk _ hparts => exact hparts _ List.mem_cons_self
  have hkeyObeys : Obeys plan directives key (depth + 2) := by
    cases hcallee with
    | mk _ hparts => exact hparts key (by simp)
  have hmember := hcallee.get?_eq_none (by cases isComputed <;> rfl) hnone
  obtain ⟨keyInfo, keyShape, rfl, hshape⟩ := CallSite.ofCall_key (Pass.site?_spec hsite).2
  have hkeyNone : plan.site? (.mk keyInfo keyShape) (depth + 2) = none :=
    Plan.site?_of_not_call (by obtain ⟨_, rfl⟩ | ⟨_, _, _, rfl⟩ := hshape <;> simp)
  have hkeyStatement : (Node.mk keyInfo keyShape).isStatement = false := by
    obtain ⟨_, rfl⟩ | ⟨_, _, _, rfl⟩ := hshape <;> rfl
  have hkey := hkeyObeys.get?_eq_none hkeyStatement hkeyNone
  have hleaf : keyShape.parts = [] ∧ keyShape.slots = [] := by
    obtain ⟨_, rfl⟩ | ⟨_, _, _, rfl⟩ := hshape <;> exact ⟨rfl, rfl⟩
  have hkeyTotal : total directives note (.mk keyInfo keyShape) =
      spelledAt note keyInfo keyShape + shownAt note keyInfo := by
    rw [total_mk, hleaf.1]
    simp [followedAt_none hkey]
  have hlost : site.lost note =
      shownAt note member + (spelledAt note keyInfo keyShape + shownAt note keyInfo) := by
    rw [CallSite.lost, hself]
  have hkeyDropped : plan.dropped note (.mk keyInfo keyShape) (depth + 2) = 0 := by
    simp [Plan.dropped_mk, hkeyNone, hleaf]
  constructor
  · rw [Plan.dropped_mk, hnone]
    simp [Shape.slots, hkeyDropped]
  · rw [total_mk, followedAt_none hmember, hlost]
    simp only [Shape.parts, List.map_cons, List.map_nil, List.sum_cons, List.sum_nil, hkeyTotal,
      spelledAt, leafText, Option.any_none, Bool.false_eq_true, if_false]
    omega

include hparts hinner

theorem site_sum {more : Nat}
    (hmore : need directives (.mk info (.call false callee isListed arguments)) ≤ more) :
    brought plan directives note more
          (plan.left (.mk info (.call false callee isListed arguments)) depth) +
        plan.dropped note (.mk info (.call false callee isListed arguments)) depth +
        followedAt directives note info + shownAt note info =
      total directives note (.mk info (.call false callee isListed arguments)) := by
  have hnode := hregular.within hpath.within
  obtain ⟨hdropped, htotal⟩ : plan.dropped note callee (depth + 1) = _ ∧
      total directives note callee = _ := total_callee hobeys hsite
  obtain ⟨⟨hreceiverStatement, hreceiverSettled⟩, harguments⟩ :=
    hobeys.site_parts hforest hregular hpath hsite
  have hreceiver : (nodeDocs plan.arena directives more site.receiver .expression).count note +
      brought plan directives note more (plan.left site.receiver (depth + 2)) +
        plan.dropped note site.receiver (depth + 2) = total directives note site.receiver := by
    obtain ⟨_, member, isComputed, key, _, hcall, -, -⟩ := Pass.site?_call hsite
    cases hcall
    have hcallee := hnode.part _ List.mem_cons_self
    have hneed := need_parts (need_parts hmore _ List.mem_cons_self) site.receiver
      (by simp)
    exact (hinner site.receiver (by simp [Node.parts])).printed .expression _
      (hcallee.placed (_, site.receiver) (by simp)) .expression more more hneed hneed
      fun hs _ => hreceiverSettled hs
  have hsum : (arguments.map fun argument =>
      (nodeDocs plan.arena directives more argument .expression).count note +
        brought plan directives note more (plan.left argument (depth + 1))).sum +
      (arguments.map (plan.dropped note · (depth + 1))).sum =
        (arguments.map (total directives note)).sum := by
    rw [← List.sum_map_add]
    refine congrArg List.sum (List.map_congr_left fun argument ha => ?_)
    have hp := List.mem_cons_of_mem callee ha
    have hneed := need_parts hmore argument hp
    exact (hparts argument hp).printed .expression _
      (hnode.placed (_, argument) (by simp [ha])) .expression more more hneed hneed
      fun hs _ => (harguments argument ha).2 hs
  rw [brought_site hforest hregular hpath hsite, total_mk, Plan.dropped_mk, hsite]
  simp only [Shape.slots, Shape.parts, List.map_cons, List.sum_cons, hdropped, htotal,
    Option.toList_some, List.map_nil, List.sum_nil, spelledAt, leafText, Option.any_none,
    Bool.false_eq_true, if_false]
  omega

theorem of_site (hkept : (plan.lower (.mk info (.call false callee isListed arguments)) depth).isSettled →
      ((Node.mk info (.call false callee isListed arguments)).unwrapped.id?.bind
        directives.get?).isSome = false → note ≠ .shown info.id) :
    Balanced plan directives note (.mk info (.call false callee isListed arguments)) depth where
  sources := by
    have hnode := hregular.within hpath.within
    obtain ⟨⟨hreceiver, -⟩, harguments⟩ := hobeys.site_parts hforest hregular hpath hsite
    have hof : ∀ part ∈ callee :: arguments, ∀ code ∈ plan.left part (depth + 1),
        ∀ source ∈ code.sources, source.isStatement = false := fun part hp code hcode source hs =>
      (hparts part hp).sources source (Code.mem_sourcesOf_mentionsIn.mpr ⟨code, hcode, hs⟩)
    intro source hm
    obtain ⟨code, hcode, hsource⟩ := Code.mem_sourcesOf_mentionsIn.mp hm
    rw [Plan.left_site hsite fun part hp => hnode.part_not_statement hp rfl, List.mem_append,
      List.mem_flatMap] at hcode
    obtain hcode | ⟨own, hown, hcode⟩ := hcode
    · exact hof callee List.mem_cons_self code hcode source hsource
    · rw [Code.behind, List.flatMap_map, List.mem_append, List.mem_flatMap,
        List.mem_singleton] at hcode
      obtain ⟨argument, ha, hcode⟩ | rfl := hcode
      · split at hcode
        · exact hof argument (List.mem_cons_of_mem _ ha) code hcode source hsource
        · cases hcode
      · obtain ⟨_, _, _, _, _, hcall, -, -⟩ := Pass.site?_call hsite
        cases hcall
        obtain rfl | hm := List.mem_cons.mp (site.sources_loweredWith _ code hown source hsource)
        · exact hreceiver
        · exact (harguments source hm).1
  printed slot role hadmits hrole count more hcount hmore hsettled := by
    have hsum := site_sum hforest hregular hpath hobeys hsite hparts hinner hmore
    have hsome : (directives.get? info.id).isSome :=
      hsettled (by rw [Plan.lower_site hsite]; rfl) rfl
    have hentry := hobeys.substitute_at_site hsite hsome
    obtain ⟨_, _, _, _, _, -, -, -, -, hvalue⟩ := site.loweredWith_spec (plan.naming info.id)
    have hcount : (nodeDocs plan.arena directives count
        (.mk info (.call false callee isListed arguments)) .expression).count note =
          shownAt note info + followedAt directives note info := by
      rw [count_nodeDocs, followedAt_some hsome]
      simp [nodeDoc, nodeDoc.expression, hentry, count_substituted hvalue]
    cases hrole with
    | expression | start =>
      rw [hcount]
      omega
    | startList h => cases h
    | _ => cases hadmits
  gone h hs hnone more hmore := by
    have hsum := site_sum hforest hregular hpath hobeys hsite hparts hinner hmore
    have hnone' : directives.get? info.id = none := by
      simpa [Node.unwrapped] using hnone
    have hshown : shownAt note info = 0 := if_neg (hkept h hnone)
    rwa [followedAt_none hnone', hshown] at hsum

end

end Balanced

/-- The note is not about a call that is all of a statement, in parentheses or not: such a statement
gives way to the loop and nothing is laid out in the place of the call. -/
def Kept (plan : Plan) (directives : Directives) (root : Node) (note : Note) : Prop :=
  ∀ node above, root.Path node above → node.isStatement = false →
    (plan.lower node above.length).isSettled →
    (node.unwrapped.id?.bind directives.get?).isSome = false → ∀ id, node.id? = some id →
      note ≠ .shown id

/-- Every node of a file is balanced if the directives are right. -/
theorem balanced_of_obeys {plan : Plan} {directives : Directives} {note : Note} {root node : Node}
    {above : List Node} {depth : Nat} (hforest : plan.arena.Forest [root])
    (hregular : root.Regular) (hfile : Grammar.IsFile true root)
    (hkept : Kept plan directives root note) (hpath : node.isPresent → root.Path node above)
    (hdepth : depth = above.length) (h : Obeys plan directives node depth) :
    Balanced plan directives note node depth ∧
      ∀ part ∈ node.parts, Balanced plan directives note part (depth + 1) := by
  -- The receiver of a call is a part of a part of it.
  induction h generalizing above with
  | absent => exact ⟨.absent, nofun⟩
  | @mk info shape depth hentry hobeys ih =>
    have hpath := hpath rfl
    have hboth := fun part hp => ih part hp (fun hpresent => .part hpath hp hpresent)
      (congrArg (· + 1) hdepth)
    have hkept := fun hs hsettled hnone =>
      hkept _ above hpath hs (hdepth ▸ hsettled) hnone info.id rfl
    have hparts := fun part hp => (hboth part hp).1
    have hobeys := Obeys.mk hentry hobeys
    have hcomplete : Complete info shape := by
      obtain hroot | hphrase := hfile.within hpath.within rfl
      · obtain ⟨id, fin, name, statements, rfl, -⟩ := hfile
        cases hroot
        trivial
      · exact complete_of_phrase hphrase
    refine ⟨?_, hparts⟩
    cases hsite : plan.site? (.mk info shape) depth with
    | none =>
      cases hs : (Node.mk info shape).isStatement with
      | true => exact .of_statement hforest hregular hpath hobeys hsite hparts hcomplete hs
      | false => exact .of_expression hforest hregular hpath hobeys hsite hparts hcomplete hs (hkept hs)
    | some site =>
      obtain ⟨_, _, _, _, _, hnode, -, -⟩ := Pass.site?_call hsite
      cases hnode
      exact .of_site hforest hregular hpath hobeys hsite hparts (hboth _ List.mem_cons_self).2 (hkept rfl)

theorem need_le_size {directives : Directives} {node : Node} (h : node.ids.Nodup) :
    need directives node ≤ directives.size := by
  have hsubset : node.ids.filter directives.contains ⊆ directives.entries.map (·.1) := by
    intro id hm
    have hsome : (directives.entries.lookup id).isSome := (List.mem_filter.mp hm).2
    by_contra hid
    rw [List.lookup_eq_none_iff.mpr] at hsome
    · cases hsome
    · intro entry he
      simpa using fun heq : id = entry.1 => hid (heq ▸ List.mem_map_of_mem he)
  calc need directives node = (node.ids.filter directives.contains).length := List.countP_eq_length_filter
    _ ≤ (directives.entries.map (·.1)).length := (List.subperm_of_subset (h.filter _) hsubset).length_le
    _ = directives.size := List.length_map _

theorem count_file {plan : Plan} {directives : Directives} {note : Note} {root : Node}
    (hforest : plan.arena.Forest [root]) (hregular : root.Regular)
    (hfile : Grammar.IsFile true root) (hkept : Kept plan directives root note)
    (hobeys : Obeys plan directives root 0) :
    (docs plan.arena directives root .whole).count note + plan.dropped note root 0 =
      total directives note root := by
  have hparts : ∀ part ∈ root.parts, Balanced plan directives note part 1 :=
    (balanced_of_obeys hforest hregular hfile hkept (fun _ => .root) rfl hobeys).2
  have hneed : need directives root ≤ directives.size :=
    need_le_size (by simpa using hforest.nodup)
  obtain ⟨id, fin, name, statements, rfl, hphrases⟩ := hfile
  have hsite : plan.site? (.mk ⟨id, 0, fin, {}⟩ (.file name statements)) 0 = none :=
    Plan.site?_of_not_call (by simp)
  have hnone := hobeys.get?_eq_none rfl hsite
  have hstatement : ∀ statement ∈ statements,
      (nodeDocs plan.arena directives directives.size statement .statement).count note +
        plan.dropped note statement 1 = total directives note statement := by
    intro statement hm
    have hadmits : Slot.statement.admits statement :=
      hregular.placed (.statement, statement) (List.mem_map_of_mem hm)
    have hs : statement.isStatement := by
      cases statement with
      | absent => cases (hphrases _ hm).isPresent
      | mk => exact hadmits
    have hcount := need_parts hneed statement hm
    have hbalance := (hparts statement hm).printed .statement _ hadmits .statement _ _ hcount hcount
      fun _ hfalse => by rw [hs] at hfalse; cases hfalse
    rwa [Plan.left_statement hs, brought_nil, Nat.add_zero] at hbalance
  have hsum : (statements.map fun statement => (nodeDocs plan.arena directives directives.size
      statement .statement).count note).sum + (statements.map (plan.dropped note · 1)).sum =
        (statements.map (total directives note)).sum := by
    rw [← List.sum_map_add]
    exact congrArg List.sum (List.map_congr_left hstatement)
  rw [docs, count_nodeDocs, total_mk, Plan.dropped_mk, hsite, followedAt_none hnone]
  simp only [nodeDoc, Shape.map, Shape.slots, Shape.parts, spelledAt, leafText, Doc.count_concat,
    List.map_map, Function.comp_def, Option.any_none, Bool.false_eq_true, if_false, Option.toList_none,
    List.map_nil, List.sum_nil, Nat.zero_add]
  omega

section
variable {note : Note} {info : Info} (h : note.id ≠ info.id)
include h

theorem spelledAt_eq_zero {shape : Shape Node} : spelledAt note info shape = 0 := by
  rw [spelledAt, if_neg]
  simp only [Option.any_eq_true, decide_eq_true_eq]
  rintro ⟨_, -, rfl⟩
  exact h rfl

theorem shownAt_eq_zero : shownAt note info = 0 := by
  rw [shownAt, if_neg]
  rintro rfl
  exact h rfl

theorem followedAt_eq_zero {directives : Directives} : followedAt directives note info = 0 := by
  rw [followedAt, if_neg]
  rintro ⟨-, rfl⟩
  exact h rfl

end

theorem total_eq_zero {directives : Directives} {note : Note} {node : Node}
    (h : note.id ∉ node.ids) : total directives note node = 0 := by
  induction node with
  | absent => rfl
  | mk info shape ih =>
    rw [Node.ids_mk, List.mem_cons, List.mem_flatMap, not_or] at h
    rw [total_mk, spelledAt_eq_zero h.1, shownAt_eq_zero h.1, followedAt_eq_zero h.1, Nat.zero_add]
    refine List.sum_eq_zero fun n hn => ?_
    obtain ⟨part, hp, rfl⟩ := List.mem_map.mp hn
    exact ih part hp fun hm => h.2 ⟨part, hp, hm⟩

theorem sum_total_eq_zero {directives : Directives} {note : Note} {nodes : List Node}
    (h : note.id ∉ nodes.flatMap Node.ids) : (nodes.map (total directives note)).sum = 0 := by
  refine List.sum_eq_zero fun n hn => ?_
  obtain ⟨part, hp, rfl⟩ := List.mem_map.mp hn
  exact total_eq_zero fun hm => h (List.mem_flatMap.mpr ⟨part, hp, hm⟩)

theorem total_within {directives : Directives} {note : Note} {node : Node} {info : Info}
    {shape : Shape Node} (hw : (Node.mk info shape).Within node) (hnodup : node.ids.Nodup)
    (hid : note.id = info.id) :
    total directives note node =
      spelledAt note info shape + shownAt note info + followedAt directives note info := by
  induction hw with
  | self =>
    rw [Node.ids_mk, List.nodup_cons, ← hid] at hnodup
    rw [total_mk, sum_total_eq_zero hnodup.1, Nat.add_zero]
  | @part outer outerShape part hp hw ih =>
    have hmem : note.id ∈ part.ids := hw.ids_subset (by simp [hid])
    rw [Node.ids_mk, List.nodup_cons] at hnodup
    have houter : note.id ≠ outer.id := fun heq =>
      hnodup.1 (List.mem_flatMap.mpr ⟨part, hp, heq ▸ hmem⟩)
    rw [total_mk, spelledAt_eq_zero houter, shownAt_eq_zero houter, followedAt_eq_zero houter,
      Nat.zero_add]
    obtain ⟨before, after, heq⟩ := List.append_of_mem hp
    have hflat := hnodup.2
    rw [heq, List.flatMap_append, List.flatMap_cons, List.nodup_append', List.nodup_append'] at hflat
    obtain ⟨-, ⟨hpart, -, hafter⟩, hbefore⟩ := hflat
    rw [heq, List.map_append, List.sum_append, List.map_cons, List.sum_cons,
      sum_total_eq_zero fun hm => hbefore hm (List.mem_append_left _ hmem),
      sum_total_eq_zero fun hm => hafter hmem hm, ih hpart]
    omega

def loweredCalls (parsed : ParsedFile) (options : Options) : List CallSite :=
  (parsed.root.postorder 0).filterMap fun entry =>
    if Pass.maxDepth ≤ entry.1 then none
    else (CallSite.ofCall parsed.arena options entry.2).toOption

def operandsIn : Shape Node → List Node
  | .access _ object _ => [object]
  | .call false _ _ arguments => arguments
  | _ => []

theorem first_not_mem_rest {info : Info} {shape : Shape Node} {first : Node} {rest : List Node} {id : NodeId}
    (hparts : shape.parts = first :: rest) (hnodup : (Node.mk info shape).ids.Nodup)
    (hid : first.id? = some id) : first ∉ rest := by
  intro hm
  rw [Node.ids_mk, hparts, List.nodup_cons, List.flatMap_cons, List.nodup_append'] at hnodup
  exact hnodup.2.2.2 (Node.id?_mem_ids hid) (List.mem_flatMap.mpr ⟨first, hm, Node.id?_mem_ids hid⟩)

section
variable {plan : Plan} {directives : Directives} {root operand : Node} {above : List Node}
  {site : CallSite} {id : NodeId}

theorem exists_site (hsite : site ∈ plan.sites root 0) :
    ∃ info member isComputed key shape isListed above call,
      call = .mk info (.call false (.mk member (.access isComputed site.receiver (.mk key shape))) isListed
        (site.callback :: site.extra.toList)) ∧
      site.call = call ∧ root.Path call above ∧ (above.length, call) ∈ root.postorder 0 ∧
        plan.site? call above.length = some site := by
  obtain ⟨⟨depth, call⟩, hentry, hsite⟩ := List.mem_filterMap.mp hsite
  obtain ⟨above, hpath, hdepth⟩ := Node.path_of_mem_postorder hentry
  obtain rfl : depth = above.length := hdepth.trans (Nat.zero_add _)
  obtain ⟨info, member, isComputed, key, isListed, hnode, hself, -⟩ := Pass.site?_call hsite
  obtain rfl : call = _ := hnode
  obtain ⟨keyInfo, shape, rfl, -⟩ := CallSite.ofCall_key (Pass.site?_spec hsite).2
  exact ⟨_, _, _, _, _, _, above, _, rfl, hself, hpath, hentry, hsite⟩

theorem exists_key (hsite : site ∈ plan.sites root 0) : ∃ info shape, site.key = .mk info shape ∧
    (Node.mk info shape).Within root ∧
      ∀ id text, site.lost (.leaf id text) = spelledAt (.leaf id text) info shape := by
  obtain ⟨_, member, isComputed, key, shape, _, above, call, rfl, hself, hpath, -⟩ := exists_site hsite
  refine ⟨key, shape, by rw [CallSite.key, hself], ?_, fun id text => ?_⟩
  · have hcallee := Node.Path.part hpath List.mem_cons_self rfl
    exact .trans (.part (by simp) .self) hcallee.within
  · rw [CallSite.lost, hself]
    simp [shownAt]

variable (hforest : plan.arena.Forest [root])
include hforest

theorem exists_operand_path (hregular : root.Regular) (hfile : Grammar.IsFile true root)
    (hobeys : Obeys plan directives root 0) (hsite : site ∈ plan.sites root 0)
    (ho : operand ∈ site.parts) : ∃ info shape above,
      root.Path operand (.mk info shape :: above) ∧ operand ∈ operandsIn shape ∧
        ((plan.lower operand (above.length + 1)).isSettled →
          (operand.unwrapped.id?.bind directives.get?).isSome) ∧ operand.isPresent := by
  obtain ⟨info, member, isComputed, _, _, _, above, call, rfl, -, hpath, hentry, hsite⟩ := exists_site hsite
  have hphrase : ∀ {info shape}, (Node.mk info shape).Within root → shape.kind ≠ .file →
      Grammar.IsPhrase true (.mk info shape) := by
    intro info shape hw hkind
    refine (hfile.within hw rfl).resolve_left ?_
    rintro rfl
    obtain ⟨_, _, _, _, hroot, -⟩ := hfile
    cases hroot
    exact hkind rfl
  have hcallee := Node.Path.part hpath List.mem_cons_self rfl
  have hobject := (hphrase hcallee.within (by cases isComputed <;> simp)).access.1
  obtain ⟨⟨-, hreceiver⟩, harguments⟩ :=
    (hobeys.of_mem_postorder hentry).site_parts hforest hregular hpath hsite
  obtain rfl | ho := List.mem_cons.mp ho
  · exact ⟨member, _, _, .part hcallee List.mem_cons_self hobject, List.mem_cons_self, hreceiver, hobject⟩
  · have hpresent := (hphrase hpath.within (by simp)).call.2 operand ho
    exact ⟨info, _, above, .part hpath (List.mem_cons_of_mem _ ho) hpresent, ho,
      (harguments operand ho).2, hpresent⟩

variable {info : Info} {shape : Shape Node} (hpath : root.Path operand (.mk info shape :: above))
  (hid : operand.id? = some id)
include hpath hid

theorem path_unique {node : Node} {others : List Node} (hother : root.Path node others)
    (hsame : node.id? = some id) : node = operand ∧ others = .mk info shape :: above := by
  have heq := (hforest.known root List.mem_cons_self).unique hother.within hpath.within hsame hid
  subst heq
  exact ⟨rfl, (hforest.ancestors_eq hother).symm.trans (hforest.ancestors_eq hpath)⟩

theorem kept_operand (hsettled : (plan.lower operand (above.length + 1)).isSettled →
    (operand.unwrapped.id?.bind directives.get?).isSome) : Kept plan directives root (.shown id) := by
  rintro node others hother - hlower hnone _ hnode ⟨⟩
  obtain ⟨rfl, rfl⟩ := path_unique hforest hpath hid hother hnode
  rw [hsettled hlower] at hnone
  cases hnone

theorem lost_operand (ho : operand ∈ operandsIn shape) (hsite : site ∈ plan.sites root 0) :
    site.lost (.shown id) = 0 := by
  obtain ⟨_, member, _, key, shape, _, _, call, rfl, hself, hcall, -⟩ := exists_site hsite
  have hcallee := Node.Path.part hcall List.mem_cons_self rfl
  have hkey : root.Path (.mk key shape) _ := .part hcallee (by simp) rfl
  have hmember : Note.shown id ≠ .shown member.id := by
    rintro ⟨⟩
    obtain ⟨rfl, heq⟩ := path_unique hforest hpath hid hcallee rfl
    cases heq
    exact first_not_mem_rest rfl (Pass.node_nodup hforest hcall) hid ho
  have hkeyId : Note.shown id ≠ .shown key.id := by
    rintro ⟨⟩
    obtain ⟨hsame, heq⟩ := path_unique hforest hpath hid hkey rfl
    cases heq
    obtain rfl := List.mem_singleton.mp ho
    exact first_not_mem_rest rfl (Pass.node_nodup hforest hcallee) hid (by simp [hsame])
  rw [CallSite.lost, hself]
  simp [shownAt, spelledAt, hmember, hkeyId]

end

/-- With the directives of a pass, the text of each leaf of a file is written once, the names of lowered
methods apart, each part of a call that a loop captures is laid out once, and each directive is followed
once. The log tells what is written. -/
structure ShowsOnce (parsed : ParsedFile) (options : Options) (directives : Directives)
    (log : List Doc.Event) : Prop where
  printed : print parsed.arena directives parsed.root = String.join (log.map Doc.Event.words)
  dropped : ∀ site ∈ loweredCalls parsed options, ∀ id, site.key.id? = some id →
    ∀ text, log.count (.note (.leaf id text)) = 0
  leaf : ∀ info shape text, (Node.mk info shape).Within parsed.root → leafText shape = some text →
    (∀ site ∈ loweredCalls parsed options, site.key.id? ≠ some info.id) →
    ∀ other, log.count (.note (.leaf info.id other)) = if other = text then 1 else 0
  operand : ∀ site ∈ loweredCalls parsed options, ∀ operand ∈ site.parts, ∃ id,
    operand.id? = some id ∧ log.count (.note (.shown id)) = 1
  followed : ∀ id, directives.contains id → log.count (.note (.followed id)) = 1

theorem runPass_showsOnce {parsed : ParsedFile} (options : Options)
    (hforest : parsed.arena.Forest [parsed.root]) (hregular : parsed.root.Regular)
    (hfile : Grammar.IsFile true parsed.root) : ∃ result,
      runPass parsed.arena options parsed.root = .ok result ∧
        result.changes = (loweredCalls parsed options).map (Pass.changeOf parsed.arena) ∧
        ShowsOnce parsed options result.directives (log parsed.arena result.directives parsed.root) := by
  obtain ⟨result, hrun, hchanges⟩ := @runPass_sites
    ⟨parsed.arena, options, fun _ => .ofReserved [], fun _ => Directives.made parsed.arena⟩
    parsed.root hforest hregular hfile
  obtain ⟨naming, -, hobeys, hids⟩ := runPass_obeys hforest hregular hfile.isKind hrun
  let plan : Plan := ⟨parsed.arena, options, naming, fun _ => Directives.made parsed.arena⟩
  have hnodup : parsed.root.ids.Nodup := by simpa using hforest.nodup
  have hcount : ∀ note, Kept plan result.directives parsed.root note →
      (log parsed.arena result.directives parsed.root).count (.note note) +
        plan.dropped note parsed.root 0 = total result.directives note parsed.root := by
    intro note hkept
    rw [log, Doc.count_log]
    exact count_file hforest hregular hfile hkept hobeys
  have hother : ∀ note, (∀ id, note ≠ .shown id) →
      (log parsed.arena result.directives parsed.root).count (.note note) +
        plan.dropped note parsed.root 0 = total result.directives note parsed.root :=
    fun note hnote => hcount note fun _ _ _ _ _ _ id _ => hnote id
  refine ⟨result, hrun, hchanges, print_eq_log _ _ _, fun site hsite id hid text => ?_,
    fun info shape text hw hleaf hkeys other => ?_, fun site hsite operand ho => ?_, fun id hid => ?_⟩
  · -- The name of the method is all that is lost.
    have hsite : site ∈ plan.sites parsed.root 0 := hsite
    obtain ⟨info, shape, hkey, hw, hlost⟩ := exists_key hsite
    obtain rfl : info.id = id := by
      rw [hkey] at hid
      exact Option.some.inj hid
    have hdropped : site.lost (.leaf info.id text) ≤ plan.dropped (.leaf info.id text) parsed.root 0 :=
      List.le_sum_of_mem (List.mem_map_of_mem hsite)
    have htotal : total result.directives (.leaf info.id text) parsed.root =
        spelledAt (.leaf info.id text) info shape := by
      rw [total_within hw hnodup rfl]
      simp [shownAt, followedAt]
    have := hother (.leaf info.id text) nofun
    rw [hlost] at hdropped
    omega
  · have hdropped : plan.dropped (.leaf info.id other) parsed.root 0 = 0 := by
      refine List.sum_eq_zero fun n hn => ?_
      obtain ⟨site, hsite, rfl⟩ := List.mem_map.mp hn
      obtain ⟨key, keyShape, hkey, -, hlost⟩ := exists_key hsite
      have hne : (Note.leaf info.id other).id ≠ key.id := fun heq : info.id = key.id =>
        hkeys site hsite (by rw [hkey, heq]; rfl)
      rw [hlost]
      exact spelledAt_eq_zero hne
    have htotal : total result.directives (.leaf info.id other) parsed.root = if other = text then 1 else 0 := by
      rw [total_within hw hnodup rfl]
      simp [spelledAt, shownAt, followedAt, hleaf]
    have := hother (.leaf info.id other) nofun
    omega
  · obtain ⟨info, shape, above, hpath, hmem, hsettled, hpresent⟩ :=
      exists_operand_path hforest hregular hfile hobeys hsite ho
    obtain ⟨id, hid⟩ := Node.exists_id hpresent
    have hdropped : plan.dropped (.shown id) parsed.root 0 = 0 :=
      List.sum_eq_zero fun n hn => by
        obtain ⟨other, hother, rfl⟩ := List.mem_map.mp hn
        exact lost_operand hforest hpath hid hmem hother
    have htotal : total result.directives (.shown id) parsed.root = 1 := by
      obtain ⟨_ | ⟨info, shape⟩⟩ := operand
      · cases hid
      · cases hid
        rw [total_within hpath.within hnodup rfl]
        simp [spelledAt, shownAt, followedAt]
    have := hcount _ (kept_operand hforest hpath hid hsettled)
    exact ⟨id, hid, by omega⟩
  · have htotal : total result.directives (.followed id) parsed.root = 1 := by
      obtain ⟨_ | ⟨info, shape⟩, hw, hinner⟩ := Node.exists_within_of_mem_ids (hids id hid)
      · cases hinner
      · obtain rfl : info.id = id := Option.some.inj hinner
        rw [total_within hw hnodup rfl]
        simp [spelledAt, shownAt, followedAt, hid]
    have hdropped : plan.dropped (.followed id) parsed.root 0 = 0 := by
      refine List.sum_eq_zero fun n hn => ?_
      obtain ⟨site, hsite, rfl⟩ := List.mem_map.mp hn
      obtain ⟨_, _, _, _, _, _, _, _, rfl, hself, -⟩ := exists_site hsite
      rw [CallSite.lost, hself]
      simp [shownAt, spelledAt]
    have := hother (.followed id) nofun
    omega

/-- Lowered calls in each other, as statements, behind `else` and as the single statement of a
loop. -/
def placesText : String :=
  "if (a) b[\"map\"](c.filter(f)).forEach(g, this); else while (x) y = z.find(h) + 1;"

end Lowering

end ArrayLoops
