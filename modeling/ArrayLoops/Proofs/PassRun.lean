import ArrayLoops.Proofs.Links
import ArrayLoops.Proofs.LoopCode

/-!
# What the pass records

The pass visits a tree with a state; the lowering of trees has none. A visit records exactly what the
lowering of the visited node says: the directive of every node below it, the names behind it, and the
statements that it leaves to the statement around it or to the argument it stands in.
-/

namespace ArrayLoops.Lowering

open ArrayLoops.Tree (Arena Info Node NodeId Shape Slot)

namespace Directives

variable {directives : Directives} {id other : NodeId}

theorem lookup_filter (entries : List (NodeId × Directive)) (h : other ≠ id) :
    (entries.filter fun entry => entry.1 != id).lookup other = entries.lookup other := by
  induction entries with
  | nil => rfl
  | cons entry rest ih =>
    obtain ⟨key, directive⟩ := entry
    by_cases hk : key = id
    · subst hk
      have hne : (other == key) = false := by simpa using h
      simp [List.lookup_cons, hne, ih]
    · simp [hk, List.lookup_cons, ih]

@[simp] theorem get?_insert_self (directive : Directive) :
    (directives.insert id directive).get? id = some directive := by
  simp [get?, insert]

theorem get?_insert_other (directive : Directive) (h : other ≠ id) :
    (directives.insert id directive).get? other = directives.get? other := by
  have hne : (other == id) = false := by simpa using h
  simp only [get?, insert, List.lookup_cons, hne]
  exact lookup_filter _ h

theorem get?_spliceBefore_other (codes : List Code) (h : other ≠ id) :
    (directives.spliceBefore id codes).get? other = directives.get? other := by
  unfold spliceBefore
  split <;> exact get?_insert_other _ h

theorem get?_replaceStatement_other (codes : List Code) (h : other ≠ id) :
    (directives.replaceStatement id codes).get? other = directives.get? other := by
  unfold replaceStatement
  split <;> exact get?_insert_other _ h

end Directives

/-- The directive of a statement brings in the given codes, and takes its place if it is settled. -/
def Holds (entry : Option Directive) (codes : List Code) (settled : Bool) : Prop :=
  if codes = [] then entry = none
  else ∃ before replacement, entry = some (.splice before replacement) ∧
    before ++ replacement.getD [] = codes ∧ replacement.isSome = settled

namespace Holds

variable {directives : Directives} {id : NodeId} {codes more : List Code}

theorem nil : Holds none [] false := by simp [Holds]

theorem spliceBefore (h : Holds (directives.get? id) codes false) (hmore : more ≠ []) :
    Holds ((directives.spliceBefore id more).get? id) (codes ++ more) false := by
  have hne : codes ++ more ≠ [] := by simp [hmore]
  unfold Holds at h
  rw [Holds, if_neg hne]
  split at h
  · subst codes
    exact ⟨more, none, by simp [Directives.spliceBefore, h], by simp, rfl⟩
  · obtain ⟨before, replacement, hentry, hcodes, hsettled⟩ := h
    obtain rfl : replacement = none := by simpa using hsettled
    refine ⟨before ++ more, none, by simp [Directives.spliceBefore, hentry], ?_, rfl⟩
    simp [← hcodes]

theorem replaceStatement (h : Holds (directives.get? id) codes false) (hmore : more ≠ []) :
    Holds ((directives.replaceStatement id more).get? id) (codes ++ more) true := by
  have hne : codes ++ more ≠ [] := by simp [hmore]
  unfold Holds at h
  rw [Holds, if_neg hne]
  split at h
  · subst codes
    exact ⟨[], some more, by simp [Directives.replaceStatement, h], by simp, rfl⟩
  · obtain ⟨before, replacement, hentry, hcodes, hsettled⟩ := h
    obtain rfl : replacement = none := by simpa using hsettled
    refine ⟨before, some more, by simp [Directives.replaceStatement, hentry], ?_, rfl⟩
    simp [← hcodes]

end Holds

namespace Pass

variable {arena : Arena} {options : Options}

theorem bind_ok {α β : Type} {act : Step α} {next : α → Step β} {s s' : State} {b : β}
    (h : (act >>= next) s = .ok (b, s')) :
    ∃ a between, act s = .ok (a, between) ∧ next a between = .ok (b, s') := by
  change (act s >>= fun (a, between) => next a between) = _ at h
  cases hact : act s with
  | error error => simp [hact, bind, Except.bind] at h
  | ok result => exact ⟨result.1, result.2, rfl, by simpa [hact, bind, Except.bind] using h⟩

theorem forM_cons_ok {nodes : List Node} {node : Node} {visit : Node → Step Unit} {s s' : State}
    (h : ((node :: nodes).forM visit) s = .ok ((), s')) :
    ∃ between, visit node s = .ok ((), between) ∧ nodes.forM visit between = .ok ((), s') := by
  obtain ⟨⟨⟩, between, hnode, hnodes⟩ := bind_ok h
  exact ⟨between, hnode, hnodes⟩

theorem visit_mk (info : Info) (shape : Shape Node) (depth : Nat) :
    visit arena options (.mk info shape) depth =
      visitNode arena options info (shape.map fun part => (part, visit arena options part)) depth := by
  rw [visit, Node.fold_mk]

theorem visitParts_map (shape : Shape Node) (depth : Nat) :
    visitParts (shape.map fun part => (part, visit arena options part)) depth =
      shape.slots.forM fun part => visit arena options part depth := by
  rw [visitParts, Shape.slots_map]
  exact List.forM_map

theorem site?_spec {plan : Plan} {node : Node} {depth : Nat} {site : CallSite}
    (h : plan.site? node depth = some site) :
    depth < maxDepth ∧ CallSite.ofCall plan.arena plan.options node = .ok site := by
  unfold Plan.site? at h
  split at h
  · cases h
  · rename_i hdepth
    refine ⟨Nat.lt_of_not_le hdepth, ?_⟩
    cases hcall : CallSite.ofCall plan.arena plan.options node with
    | error => simp [hcall, Except.toOption] at h
    | ok found =>
      simp only [hcall, Except.toOption, Option.some.injEq] at h
      rw [h]

theorem site?_call {plan : Plan} {node : Node} {depth : Nat} {site : CallSite}
    (h : plan.site? node depth = some site) :
    ∃ info member isComputed key isListed,
      node = .mk info (.call false (.mk member (.access isComputed site.receiver key)) isListed
        (site.callback :: site.extra.toList)) ∧
      site.call = node ∧ CallSite.unsafePlace plan.arena node = none :=
  CallSite.ofCall_spec (site?_spec h).2

theorem visit_deep {node : Node} {depth : Nat} (h : maxDepth ≤ depth) :
    visit arena options node depth = pure () := by
  cases node with
  | absent => rfl
  | mk info shape =>
    rw [visit_mk]
    unfold visitNode
    rw [if_pos h]

theorem visit_parts {plan : Plan} {info : Info} {shape : Shape Node} {depth : Nat}
    (hdepth : depth < maxDepth) (hsite : plan.site? (.mk info shape) depth = none) :
    visit plan.arena plan.options (.mk info shape) depth =
      if shape.kind.isFunction then
        inFunction (shape.slots.forM fun part => visit plan.arena plan.options part (depth + 1))
      else shape.slots.forM fun part => visit plan.arena plan.options part (depth + 1) := by
  have herror : ∀ site, CallSite.ofCall plan.arena plan.options (.mk info shape) ≠ .ok site := by
    intro site hcall
    simp [Plan.site?, Nat.not_le.mpr hdepth, hcall, Except.toOption] at hsite
  rw [visit_mk, ← visitParts_map]
  unfold visitNode
  rw [if_neg (Nat.not_le.mpr hdepth)]
  split
  · rename_i callee isListed arguments heq
    rw [← Shape.kind_map fun part => (part, visit plan.arena plan.options part), heq]
    split
    · rename_i site hcall
      rw [← heq, Shape.map_map] at hcall
      exact absurd hcall (by simpa [Function.comp_def] using herror site)
    · rw [if_neg (by simp [Shape.kind, Tree.Kind.isFunction])]
  · rw [Shape.kind_map]

theorem visit_site {plan : Plan} {info : Info} {callee : Node} {isListed : Bool}
    {arguments : List Node} {depth : Nat} {site : CallSite}
    (hsite : plan.site? (.mk info (.call false callee isListed arguments)) depth = some site) :
    visit plan.arena plan.options (.mk info (.call false callee isListed arguments)) depth =
      visitSite plan.arena site (visit plan.arena plan.options callee)
        (arguments.map fun argument => (argument, visit plan.arena plan.options argument))
        (depth + 1) := by
  obtain ⟨hdepth, hcall⟩ := site?_spec hsite
  rw [visit_mk]
  simp only [Shape.map, visitNode, if_neg (Nat.not_le.mpr hdepth), List.map_map,
    Function.comp_def, List.map_id']
  rw [hcall]

end Pass

theorem Piece.pendingIn_eq_nil {shape : Shape Piece} (h : ∀ part ∈ shape.parts, part.pending = []) :
    pendingIn shape = [] := by
  have hparts : shape.parts.flatMap (·.pending) = [] := by simpa using h
  cases shape with
  | block | file | function => rfl
  | branch condition _ _ => exact h condition (by simp [Shape.parts])
  | loop _ initializer _ _ _ => exact h initializer (by simp [Shape.parts])
  | _ => exact hparts

theorem Piece.exists_pending {shape : Shape Piece} (h : pendingIn shape ≠ []) :
    ∃ part ∈ shape.parts, part.pending ≠ [] := by
  by_contra hn
  push Not at hn
  exact h (pendingIn_eq_nil hn)

theorem CallSite.isStatement_of_stop {arena : Arena} {child : Node} {info : Info}
    {shape : Shape Node} (h : placeIn arena child (.mk info shape) = some none) :
    shape.kind.isStatement := by
  cases shape with
  | conditional | function | parameter => cases h
  | loop form _ _ _ _ => cases form <;> rfl
  | «variable» =>
    simp only [placeIn] at h
    split at h <;> cases h
  | binary =>
    simp only [placeIn] at h
    split at h <;> cases h
  | _ =>
    simp only [placeIn] at h
    split at h
    · assumption
    · cases h

namespace Plan

variable {plan : Plan} {depth : Nat}

theorem site?_deep (h : Pass.maxDepth ≤ depth) (node : Node) : plan.site? node depth = none :=
  if_pos h

theorem namesAfterAll_of_same {nodes : List Node}
    (h : ∀ node ∈ nodes, ∀ names, plan.namesAfter node depth names = names) (names : Names) :
    plan.namesAfterAll depth nodes names = names := by
  induction nodes with
  | nil => rfl
  | cons node rest ih =>
    rw [namesAfterAll, List.foldl_cons, h node List.mem_cons_self]
    exact ih fun other ho => h other (List.mem_cons_of_mem _ ho)

theorem lower_deep (h : Pass.maxDepth ≤ depth) (node : Node) :
    (plan.lower node depth).pending = [] ∧ (plan.lower node depth).isSettled = false ∧
      ∀ names, plan.namesAfter node depth names = names := by
  induction node generalizing depth with
  | absent => exact ⟨rfl, rfl, fun _ => rfl⟩
  | mk info shape ih =>
    have hdeep : Pass.maxDepth ≤ depth + 1 := Nat.le_succ_of_le h
    have hparts := fun part hp => ih part hp hdeep
    have hnames : ∀ names, plan.namesAfterAll (depth + 1) shape.slots names = names :=
      namesAfterAll_of_same fun part hp => (hparts part (shape.slots_subset hp)).2.2
    rw [lower_parts (site?_deep h _)]
    refine ⟨?_, ?_, fun names => ?_⟩
    · refine Piece.pendingIn_eq_nil ?_
      simp only [Shape.parts_map, List.mem_map]
      rintro piece ⟨part, hp, rfl⟩
      exact (hparts part hp).1
    · cases shape with
      | parenthesized expression | evaluate expression =>
        exact (hparts expression (by simp [Shape.parts])).2.1
      | _ => rfl
    · rw [namesAfter_mk, site?_deep h]
      simp only [hnames]
      split <;> rfl

def left (plan : Plan) (node : Node) (depth : Nat) : List Code :=
  if node.isStatement then [] else (plan.lower node depth).pending.map (·.code)

theorem left_absent : plan.left .absent depth = [] := rfl

theorem left_statement {node : Node} (h : node.isStatement) : plan.left node depth = [] :=
  if_pos h

variable {root : Node} (hforest : plan.arena.Forest [root]) (hregular : root.Regular)
include hforest hregular

theorem safe_of_left {node : Node} {above : List Node} (hpath : root.Path node above)
    (h : plan.left node depth ≠ []) :
    CallSite.unsafePlaceFrom plan.arena node above = none := by
  induction node generalizing depth above with
  | absent => exact absurd left_absent h
  | mk info shape ih =>
    have hk : (Node.mk info shape).isStatement = false := by
      by_contra hs
      exact h (left_statement (by simpa using hs))
    rw [left, hk] at h
    simp only [Bool.false_eq_true, if_false, ne_eq, List.map_eq_nil_iff] at h
    cases hsite : plan.site? (.mk info shape) depth with
    | some site =>
      obtain ⟨-, -, -, -, -, -, -, hplace⟩ := Pass.site?_call hsite
      rwa [CallSite.unsafePlace, hforest.ancestors_eq hpath] at hplace
    | none =>
      rw [lower_parts hsite] at h
      obtain ⟨piece, hm, hpiece⟩ := Piece.exists_pending h
      rw [Shape.parts_map, List.mem_map] at hm
      obtain ⟨part, hp, rfl⟩ := hm
      have hholds : shape.holdsStatements = false := by
        cases shape with
        | function | file => exact absurd rfl h
        | block | branch => cases hk
        | loop form => cases form <;> cases hk
        | _ => rfl
      have hpart : part.isStatement = false :=
        (hregular.within hpath.within).part_not_statement hp hholds
      have hleft : plan.left part (depth + 1) ≠ [] := by
        simpa [left, hpart] using hpiece
      have hpresent : part.isPresent := by
        cases part with
        | absent => exact absurd left_absent hleft
        | mk => rfl
      have hup := ih part hp (.part hpath hp hpresent) hleft
      simp only [CallSite.unsafePlaceFrom] at hup
      split at hup
      · rename_i result hplace
        subst hup
        have hstop : (Node.mk info shape).isStatement = true := CallSite.isStatement_of_stop hplace
        rw [hk] at hstop
        cases hstop
      · exact hup

end Plan

/-- The directives are right at a node: a statement brings in what its expressions leave, and a
lowered call gives way to its value, unless the statement goes with it. -/
def Entry (plan : Plan) (directives : Directives) (info : Info) (shape : Shape Node) (depth : Nat) :
    Prop :=
  let node := Node.mk info shape
  let piece := plan.lower node depth
  if node.isStatement then
    Holds (directives.get? info.id) (piece.pending.map (·.code)) piece.isSettled
  else
    match plan.site? node depth with
    | none => directives.get? info.id = none
    | some site =>
      directives.get? info.id =
        if (plan.arena.enclosingStatement node).any (Pass.isWholeStatement · node) then none
        else some (.substitute (site.loweredWith (plan.naming info.id)).value)

/-- The directives are right at a node and at all nodes below it. -/
inductive Obeys (plan : Plan) (directives : Directives) : Node → Nat → Prop where
  | absent {depth : Nat} : Obeys plan directives .absent depth
  | mk {info : Info} {shape : Shape Node} {depth : Nat} :
    Entry plan directives info shape depth →
    (∀ part ∈ shape.parts, Obeys plan directives part (depth + 1)) →
    Obeys plan directives (.mk info shape) depth

theorem Obeys.of_same {plan : Plan} {directives others : Directives} {node : Node} {depth : Nat}
    (h : Obeys plan directives node depth)
    (hs : ∀ id ∈ node.ids, others.get? id = directives.get? id) :
    Obeys plan others node depth := by
  induction h with
  | absent => exact .absent
  | @mk info shape depth hentry _ ih =>
    rw [Node.ids_mk] at hs
    refine .mk ?_ fun part hp => ih part hp fun id hi =>
      hs id (List.mem_cons_of_mem _ (List.mem_flatMap.mpr ⟨part, hp, hi⟩))
    rw [Entry, hs info.id List.mem_cons_self]
    exact hentry

theorem Obeys.get?_eq_none {plan : Plan} {directives : Directives} {info : Info}
    {shape : Shape Node} {depth : Nat} (h : Obeys plan directives (.mk info shape) depth)
    (hs : (Node.mk info shape).isStatement = false)
    (hsite : plan.site? (.mk info shape) depth = none) : directives.get? info.id = none := by
  cases h with
  | mk hentry _ => simpa [Entry, hs, hsite] using hentry

theorem Obeys.of_deep {plan : Plan} {directives : Directives} {node : Node} {depth : Nat}
    (hdepth : Pass.maxDepth ≤ depth) (h : ∀ id ∈ node.ids, directives.get? id = none) :
    Obeys plan directives node depth := by
  induction node generalizing depth with
  | absent => exact .absent
  | mk info shape ih =>
    rw [Node.ids_mk] at h
    refine .mk ?_ fun part hp => ih part hp (Nat.le_succ_of_le hdepth) fun id hi =>
      h id (List.mem_cons_of_mem _ (List.mem_flatMap.mpr ⟨part, hp, hi⟩))
    have hlower : (plan.lower (.mk info shape) depth).pending = [] ∧
        (plan.lower (.mk info shape) depth).isSettled = false := by
      obtain ⟨hpending, hsettled, -⟩ := Plan.lower_deep hdepth (.mk info shape)
      exact ⟨hpending, hsettled⟩
    obtain ⟨hpending, hsettled⟩ := hlower
    rw [Entry, h info.id List.mem_cons_self, hpending, hsettled, Plan.site?_deep hdepth]
    split
    · exact Holds.nil
    · rfl

namespace Pass

def statementOf (above : List Node) : Option Node := above.find? Node.isStatement

def isCaptured (s : State) : Bool :=
  match s.captures with
  | some _ :: _ => true
  | _ => false

/-- The open argument or else the statement has received the given codes. -/
def Receives (above : List Node) (s : State) (codes : List Code) (settled : Bool) : Prop :=
  match s.captures with
  | some pending :: _ => pending = codes ∧ settled = false
  | _ => ∀ id, (statementOf above).bind Node.id? = some id →
      Holds (s.directives.get? id) codes settled

def capturesWith (codes : List Code) : List (Option (List Code)) → List (Option (List Code))
  | some pending :: rest => some (pending ++ codes) :: rest
  | captures => captures

/-- The statement of a node goes with it. -/
def goesWith (plan : Plan) (above : List Node) (node : Node) (depth : Nat) : Bool :=
  !node.isStatement && (plan.lower node depth).isSettled &&
    (statementOf above).any (isWholeStatement · node.unwrapped)

/-- A state in which a node can be visited. -/
structure Ready (plan : Plan) (above : List Node) (node : Node) (depth : Nat) (s : State) : Prop where
  fresh : ∀ id ∈ node.ids, s.directives.get? id = none
  named : plan.Named node depth s.names
  captured : isCaptured s → node.isStatement = false ∧ node.isKind .file = false ∧
    goesWith plan above node depth = false

/-- What a visit of a node does to the state. -/
structure Records (plan : Plan) (above : List Node) (node : Node) (depth : Nat) (s s' : State) :
    Prop where
  names : s'.names = plan.namesAfter node depth s.names
  captures : s'.captures = capturesWith (plan.left node depth) s.captures
  same : ∀ id ∉ node.ids, isCaptured s ∨ (statementOf above).bind Node.id? ≠ some id ∨
    plan.left node depth = [] → s'.directives.get? id = s.directives.get? id
  obeys : Obeys plan s'.directives node depth
  receives : ∀ codes, Receives above s codes false →
    Receives above s' (codes ++ plan.left node depth) (goesWith plan above node depth)

theorem capturesWith_nil (captures : List (Option (List Code))) :
    capturesWith [] captures = captures := by
  unfold capturesWith
  split <;> simp

theorem capturesWith_append (codes more : List Code) (captures : List (Option (List Code))) :
    capturesWith more (capturesWith codes captures) = capturesWith (codes ++ more) captures := by
  rcases captures with _ | ⟨_ | pending, rest⟩ <;> simp [capturesWith]

theorem isCaptured_of_captures {s s' : State} {codes : List Code}
    (h : s'.captures = capturesWith codes s.captures) : isCaptured s' = isCaptured s := by
  unfold isCaptured
  rw [h]
  rcases s.captures with _ | ⟨_ | pending, rest⟩ <;> rfl

theorem capturesWith_of_not_captured {s : State} (h : isCaptured s = false) (codes : List Code) :
    capturesWith codes s.captures = s.captures := by
  unfold isCaptured at h
  unfold capturesWith
  split
  · rename_i heq
    simp [heq] at h
  · rfl

theorem receives_of_not_captured {above : List Node} {s : State} (h : isCaptured s = false)
    (codes : List Code) (settled : Bool) :
    Receives above s codes settled ↔ ∀ id, (statementOf above).bind Node.id? = some id →
      Holds (s.directives.get? id) codes settled := by
  unfold isCaptured at h
  unfold Receives
  split
  · rename_i heq
    simp [heq] at h
  · rfl

theorem receives_of_same {above : List Node} {s s' : State} {codes : List Code} {settled : Bool}
    (hc : s'.captures = s.captures)
    (hd : ∀ id, (statementOf above).bind Node.id? = some id →
      s'.directives.get? id = s.directives.get? id)
    (h : Receives above s codes settled) : Receives above s' codes settled := by
  unfold Receives at h ⊢
  rw [hc]
  split at h
  · exact h
  · intro id hid
    rw [hd id hid]
    exact h id hid

theorem receives_congr {above others : List Node} (h : statementOf above = statementOf others)
    (s : State) (codes : List Code) (settled : Bool) :
    Receives above s codes settled = Receives others s codes settled := by
  unfold Receives
  rw [h]

/-- What visits of some nodes, one after the other, do to the state. -/
structure RecordsAll (plan : Plan) (above nodes : List Node) (depth : Nat) (s s' : State) : Prop where
  names : s'.names = plan.namesAfterAll depth nodes s.names
  captures : s'.captures = capturesWith (nodes.flatMap (plan.left · depth)) s.captures
  same : ∀ id ∉ nodes.flatMap Node.ids, isCaptured s ∨
    (statementOf above).bind Node.id? ≠ some id ∨ nodes.flatMap (plan.left · depth) = [] →
    s'.directives.get? id = s.directives.get? id
  obeys : ∀ node ∈ nodes, Obeys plan s'.directives node depth
  receives : ∀ codes, Receives above s codes false →
    Receives above s' (codes ++ nodes.flatMap (plan.left · depth))
      (nodes.any (goesWith plan above · depth))

/-- A state in which some nodes can be visited one after the other. -/
structure ReadyAll (plan : Plan) (above nodes : List Node) (depth : Nat) (s : State) : Prop where
  nodup : (nodes.flatMap Node.ids).Nodup
  statement : ∀ id, (statementOf above).bind Node.id? = some id → id ∉ nodes.flatMap Node.ids
  fresh : ∀ id ∈ nodes.flatMap Node.ids, s.directives.get? id = none
  named : ∀ before node after, nodes = before ++ node :: after →
    plan.Named node depth (plan.namesAfterAll depth before s.names)
  captured : isCaptured s → ∀ node ∈ nodes, node.isStatement = false ∧ node.isKind .file = false ∧
    goesWith plan above node depth = false
  /-- A statement goes with its last part only. -/
  stays : ∀ before node after, nodes = before ++ node :: after → after ≠ [] →
    goesWith plan above node depth = false

theorem ReadyAll.head {plan : Plan} {above nodes : List Node} {node : Node} {depth : Nat}
    {s : State} (h : ReadyAll plan above (node :: nodes) depth s) :
    Ready plan above node depth s where
  fresh id hi := h.fresh id (by simp [hi])
  named := h.named [] node nodes rfl
  captured hc := h.captured hc node List.mem_cons_self

theorem ReadyAll.tail {plan : Plan} {above nodes : List Node} {node : Node} {depth : Nat}
    {s s' : State} (h : ReadyAll plan above (node :: nodes) depth s)
    (hn : s'.names = plan.namesAfter node depth s.names)
    (hs : ∀ id ∉ node.ids, (statementOf above).bind Node.id? ≠ some id →
      s'.directives.get? id = s.directives.get? id)
    (hc : isCaptured s' = isCaptured s) : ReadyAll plan above nodes depth s' := by
  have hnodup := h.nodup
  rw [List.flatMap_cons, List.nodup_append'] at hnodup
  refine ⟨hnodup.2.1, fun id hi hm => h.statement id hi (by simp_all), fun id hi => ?_, ?_, ?_, ?_⟩
  · rw [hs id (fun hm => hnodup.2.2 hm hi)]
    · exact h.fresh id (by simp_all)
    · exact fun hid => h.statement id hid (by simp_all)
  · rintro before other after rfl
    rw [hn]
    exact h.named (node :: before) other after rfl
  · intro hcaptured other ho
    exact h.captured (hc ▸ hcaptured) other (List.mem_cons_of_mem _ ho)
  · rintro before other after rfl hne
    exact h.stays (node :: before) other after rfl hne

theorem recordsAll {plan : Plan} {above nodes : List Node} {depth : Nat} {s s' : State}
    (ih : ∀ node ∈ nodes, ∀ s s', Ready plan above node depth s →
      visit plan.arena plan.options node depth s = .ok ((), s') →
      Records plan above node depth s s')
    (h : ReadyAll plan above nodes depth s)
    (hrun : nodes.forM (fun node => visit plan.arena plan.options node depth) s = .ok ((), s')) :
    RecordsAll plan above nodes depth s s' := by
  induction nodes generalizing s with
  | nil =>
    cases hrun
    exact ⟨rfl, (capturesWith_nil _).symm, fun _ _ _ => rfl, nofun, by simp⟩
  | cons node rest ihn =>
    obtain ⟨between, hnode, hrest⟩ := forM_cons_ok hrun
    have hfirst := ih node List.mem_cons_self s between h.head hnode
    have hcaptured := isCaptured_of_captures hfirst.captures
    have hready := h.tail hfirst.names (fun id hi hs => hfirst.same id hi (.inr (.inl hs))) hcaptured
    have hothers := ihn (fun other ho => ih other (List.mem_cons_of_mem _ ho)) hready hrest
    have hnodup := h.nodup
    rw [List.flatMap_cons, List.nodup_append'] at hnodup
    refine ⟨?_, ?_, fun id hi hs => ?_, fun other ho => ?_, fun codes hc => ?_⟩
    · rw [hothers.names, hfirst.names]
      rfl
    · rw [hothers.captures, hfirst.captures, capturesWith_append, List.flatMap_cons]
    · rw [List.flatMap_cons, List.mem_append, not_or] at hi
      rw [List.flatMap_cons, List.append_eq_nil_iff] at hs
      rw [hothers.same id hi.2, hfirst.same id hi.1]
      · exact hs.imp_right (Or.imp_right And.left)
      · rw [hcaptured]
        exact hs.imp_right (Or.imp_right And.right)
    · obtain rfl | ho := List.mem_cons.mp ho
      · refine hfirst.obeys.of_same fun id hi => hothers.same id (fun hm => hnodup.2.2 hi hm) ?_
        exact .inr (.inl fun hs => h.statement id hs (by simp [hi]))
      · exact hothers.obeys other ho
    · have hcodes := hfirst.receives codes hc
      cases rest with
      | nil =>
        cases hrest
        simpa using hcodes
      | cons next rest =>
        have hstays := h.stays [] node (next :: rest) rfl nofun
        rw [hstays] at hcodes
        rw [List.flatMap_cons, ← List.append_assoc, List.any_cons, hstays, Bool.false_or]
        exact hothers.receives _ hcodes

end Pass

end ArrayLoops.Lowering
