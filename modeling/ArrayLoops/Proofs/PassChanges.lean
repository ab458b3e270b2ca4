import ArrayLoops.Lowering
import ArrayLoops.Proofs.ParsedStatements
import ArrayLoops.Proofs.ParsedTree
import ArrayLoops.Proofs.PassRecords

/-!
# Which calls a pass lowers

A pass over a file without complaints succeeds, and it lowers the calls that can be lowered and no
others, each once, parts before wholes. Which loops are open around a call does not matter for what is
reported of it: a call in an argument of a lowered call is never all of a statement.
-/

namespace ArrayLoops

open ArrayLoops.Tree (Arena Info Node NodeId Shape)

/-- The node and all below it, each behind its parts, with their depths. -/
def Tree.Node.postorder : Node → Nat → List (Nat × Node) :=
  Node.fold (fun _ => []) fun info shape depth =>
    shape.slots.flatMap (fun part => part.2 (depth + 1)) ++ [(depth, .mk info (shape.map (·.1)))]

theorem Tree.Node.postorder_mk (info : Info) (shape : Shape Node) (depth : Nat) :
    (Node.mk info shape).postorder depth =
      shape.slots.flatMap (·.postorder (depth + 1)) ++ [(depth, .mk info shape)] := by
  rw [postorder, Node.fold_mk, Shape.slots_map, List.flatMap_map, Shape.map_map]
  simp [Function.comp_def]

theorem Tree.Node.path_of_mem_postorder {node : Node} {depth : Nat} {entry : Nat × Node}
    (h : entry ∈ node.postorder depth) :
    ∃ above, node.Path entry.2 above ∧ entry.1 = depth + above.length := by
  induction node generalizing depth with
  | absent => cases h
  | mk info shape ih =>
    rw [postorder_mk, List.mem_append, List.mem_flatMap] at h
    obtain ⟨part, hp, hentry⟩ | hentry := h
    · obtain ⟨above, hpath, hdepth⟩ := ih part (shape.slots_subset hp) hentry
      have hpresent : part.isPresent := by
        cases part with
        | absent => cases hentry
        | mk => rfl
      refine ⟨_, .append (.part .root (shape.slots_subset hp) hpresent) hpath, ?_⟩
      rw [hdepth, List.length_append]
      simp only [List.length_cons, List.length_nil]
      omega
    · obtain rfl := List.mem_singleton.mp hentry
      exact ⟨[], .root, rfl⟩

theorem Tree.Node.within_of_mem_postorder {node : Node} {depth : Nat} {entry : Nat × Node}
    (h : entry ∈ node.postorder depth) : entry.2.Within node := by
  obtain ⟨_, hpath, -⟩ := path_of_mem_postorder h
  exact hpath.within

theorem Tree.Node.Path.suffix {root node outer : Node} {front back : List Node}
    (h : root.Path node (front ++ outer :: back)) : root.Path outer back := by
  induction front generalizing node with
  | nil =>
    cases h with
    | part hpath => exact hpath
  | cons first rest ih =>
    cases h with
    | part hpath => exact ih hpath

namespace Lowering

theorem Obeys.of_mem_postorder {plan : Plan} {directives : Directives} {node : Node} {depth : Nat}
    {entry : Nat × Node} (h : Obeys plan directives node depth) (hentry : entry ∈ node.postorder depth) :
    Obeys plan directives entry.2 entry.1 := by
  induction h with
  | absent => cases hentry
  | @mk info shape depth here hparts ih =>
    rw [Node.postorder_mk, List.mem_append, List.mem_flatMap] at hentry
    obtain ⟨part, hp, hentry⟩ | hentry := hentry
    · exact ih part (shape.slots_subset hp) hentry
    · obtain rfl := List.mem_singleton.mp hentry
      exact .mk here hparts

def Plan.sites (plan : Plan) (node : Node) (depth : Nat) : List CallSite :=
  (node.postorder depth).filterMap fun entry => plan.site? entry.2 entry.1

theorem Plan.sites_mk (plan : Plan) (info : Info) (shape : Shape Node) (depth : Nat) :
    plan.sites (.mk info shape) depth =
      shape.slots.flatMap (plan.sites · (depth + 1)) ++
        (plan.site? (.mk info shape) depth).toList := by
  rw [sites, Node.postorder_mk, List.filterMap_append, List.filterMap_flatMap]
  rfl

theorem Plan.sites_deep {plan : Plan} {depth : Nat} (h : Pass.maxDepth ≤ depth) (node : Node) :
    plan.sites node depth = [] := by
  induction node generalizing depth with
  | absent => rfl
  | mk info shape ih =>
    rw [sites_mk, site?_deep h]
    simpa using fun part hp => ih part (shape.slots_subset hp) (Nat.le_succ_of_le h)

namespace Pass

def modeOf (arena : Arena) (call : Node) : Mode :=
  if (arena.enclosingStatement call).any (isWholeStatement · call) then .replaceStatement
  else .hoistBefore

def changeOf (arena : Arena) (site : CallSite) : Change where
  operation := site.operation
  pos := (site.call.range?.getD (0, 0)).1
  fin := (site.call.range?.getD (0, 0)).2
  mode := modeOf arena site.call

variable {plan : Plan} {root node : Node} {info : Info} {shape : Shape Node} {above : List Node}
  {depth : Nat} {s s' : State}

/-- The way up meets a call before it meets a statement. -/
def InCall (above : List Node) : Prop :=
  ∃ front call back, above = front ++ call :: back ∧ call.isKind .call ∧
    ∀ node ∈ front, node.isStatement = false

theorem InCall.cons (h : InCall above) (hs : node.isStatement = false) : InCall (node :: above) := by
  obtain ⟨front, call, back, rfl, hcall, hfront⟩ := h
  exact ⟨node :: front, call, back, rfl, hcall, List.forall_mem_cons.mpr ⟨hs, hfront⟩⟩

theorem not_isStatement_of_call (h : node.isKind .call) : node.isStatement = false := by
  cases node with
  | absent => cases h
  | mk info shape =>
    have hk : shape.kind = .call := by simpa [Node.isKind, Node.kind?] using h
    simp [Node.isStatement, Node.kind?, hk, Tree.Kind.isStatement]

theorem InCall.not_isWholeStatement (hforest : plan.arena.Forest [root])
    (hpath : root.Path node above) (hpresent : node.isPresent) (h : InCall above)
    {statement : Node} (hstatement : statementOf above = some statement) : isWholeStatement statement node = false := by
  obtain ⟨front, call, back, rfl, hcall, hfront⟩ := h
  have hback : statement ∈ back := by
    have hnone : front.find? Node.isStatement = none :=
      List.find?_eq_none.mpr fun other ho => by simp [hfront other ho]
    rw [statementOf, List.find?_append, hnone, Option.none_or,
      List.find?_cons_of_neg (by simp [not_isStatement_of_call hcall])] at hstatement
    exact List.mem_of_find?_eq_some hstatement
  have hcallPath : root.Path call back := hpath.suffix
  have hmem : call ∈ front ++ call :: back := by simp
  obtain ⟨part, hp, hnode⟩ := hpath.within_part hmem
  cases call with
  | absent => cases hcall
  | mk callInfo callShape =>
    refine Pass.not_isWholeStatement hforest hcallPath hback hp hnode ?_ hpresent
    rintro inner rfl
    cases hcall

theorem bind_eq {α β : Type} {act : Step α} {next : α → Step β} {a : α} {between : State}
    (h : act s = .ok (a, between)) : (act >>= next) s = next a between := by
  change (act s >>= fun (a, between) => next a between) = _
  rw [h]
  rfl

/-- What the visits of some nodes do to the state: the calls are reported, and loops may have gone to
the open argument. -/
structure Reports (plan : Plan) (nodes : List Node) (depth : Nat) (s s' : State) : Prop where
  changes : s'.changes =
    ((nodes.flatMap (plan.sites · depth)).map (changeOf plan.arena)).reverse ++ s.changes
  captures : ∃ codes, s'.captures = capturesWith codes s.captures

namespace Reports

variable {nodes : List Node}

theorem isCaptured (h : Reports plan nodes depth s s') : isCaptured s' = isCaptured s :=
  isCaptured_of_captures h.captures.choose_spec

theorem nil (s : State) : Reports plan [] depth s s := ⟨rfl, [], (capturesWith_nil _).symm⟩

theorem cons {between : State} (h : Reports plan [node] depth s between)
    (hr : Reports plan nodes depth between s') : Reports plan (node :: nodes) depth s s' := by
  obtain ⟨hchanges, codes, hcodes⟩ := h
  obtain ⟨hothers, more, hmore⟩ := hr
  refine ⟨?_, codes ++ more, ?_⟩
  · rw [hothers, hchanges]
    simp
  · rw [hmore, hcodes, capturesWith_append]

end Reports

/-- Where loops go to an open argument, the node is an expression in it. -/
def Admitted (above : List Node) (node : Node) (s : State) : Prop :=
  isCaptured s → node.isStatement = false ∧ node.isKind .file = false ∧ InCall above

theorem visitAll_reports {nodes : List Node}
    (ih : ∀ node ∈ nodes, ∀ s, Admitted above node s → ∃ s',
      visit plan.arena plan.options node depth s = .ok ((), s') ∧ Reports plan [node] depth s s')
    (h : ∀ node ∈ nodes, Admitted above node s) : ∃ s',
      nodes.forM (fun node => visit plan.arena plan.options node depth) s = .ok ((), s') ∧
        Reports plan nodes depth s s' := by
  induction nodes generalizing s with
  | nil => exact ⟨s, rfl, .nil s⟩
  | cons node rest ihn =>
    obtain ⟨between, hnode, hfirst⟩ := ih node List.mem_cons_self s (h node List.mem_cons_self)
    have hrest : ∀ other ∈ rest, Admitted above other between := fun other ho hc =>
      h other (List.mem_cons_of_mem _ ho) (hfirst.isCaptured ▸ hc)
    obtain ⟨s', hothers, hreports⟩ :=
      ihn (fun other ho => ih other (List.mem_cons_of_mem _ ho)) hrest
    exact ⟨s', (bind_eq hnode).trans hothers, hfirst.cons hreports⟩

theorem visitArguments_reports {nodes : List Node} (act : Node × Visit → Step (Node × List Code))
    (s : State)
    (hact : ∀ node ∈ nodes, act (node, visit plan.arena plan.options node) = do
      return (node, ← capturing (visit plan.arena plan.options node depth)))
    (ih : ∀ node ∈ nodes, ∀ s, Admitted above node s → ∃ s',
      visit plan.arena plan.options node depth s = .ok ((), s') ∧ Reports plan [node] depth s s')
    (h : ∀ node ∈ nodes, node.isStatement = false ∧ node.isKind .file = false)
    (hcall : InCall above) : ∃ nested s',
      (nodes.map fun node => (node, visit plan.arena plan.options node)).mapM act s =
        .ok (nested, s') ∧
      nested.map (·.1) = nodes ∧ Reports plan nodes depth s s' ∧ s'.captures = s.captures := by
  induction nodes generalizing s with
  | nil => exact ⟨[], s, rfl, rfl, .nil s, rfl⟩
  | cons node rest ihn =>
    obtain ⟨hs, hfile⟩ := h node List.mem_cons_self
    obtain ⟨t, hvisit, hreports⟩ := ih node List.mem_cons_self
      { s with captures := some [] :: s.captures } fun _ => ⟨hs, hfile, hcall⟩
    obtain ⟨codes, hcodes⟩ := hreports.captures
    have hcapturing : capturing (visit plan.arena plan.options node depth) s =
        .ok (codes, { t with captures := s.captures }) := by
      refine (bind_eq rfl).trans ((bind_eq hvisit).trans ?_)
      change Except.ok ((t.captures.head?.join).getD [], { t with captures := t.captures.tail }) = _
      rw [hcodes]
      rfl
    have hfirst : Reports plan [node] depth s { t with captures := s.captures } :=
      ⟨hreports.changes, [], (capturesWith_nil _).symm⟩
    obtain ⟨nested, s', hothers, hnested, hrest, hcaptures⟩ :=
      @ihn { t with captures := s.captures } (fun other ho => hact other (List.mem_cons_of_mem _ ho))
        (fun other ho => ih other (List.mem_cons_of_mem _ ho))
        (fun other ho => h other (List.mem_cons_of_mem _ ho))
    refine ⟨(node, codes) :: nested, s', ?_, by simp [hnested], hfirst.cons hrest, hcaptures⟩
    rw [List.map_cons, List.mapM_cons, hact node List.mem_cons_self]
    refine (bind_eq (bind_eq hcapturing)).trans ((bind_eq hothers).trans rfl)

theorem record_mode {statement call : Node} {lowered : LoweredCall}
    (h : isCaptured s → isWholeStatement statement call = false) :
    (record statement call lowered s).1 =
      if isWholeStatement statement call then .replaceStatement else .hoistBefore := by
  unfold isCaptured at h
  unfold record
  split
  · rename_i hcaptures
    rw [if_neg]
    simp [h (by simp [hcaptures])]
  · split <;> rfl

theorem record_state (statement call : Node) (lowered : LoweredCall) (s : State) :
    (record statement call lowered s).2.changes = s.changes ∧
      ∃ codes, (record statement call lowered s).2.captures = capturesWith codes s.captures := by
  unfold record
  split
  · rename_i pending captures hcaptures
    refine ⟨rfl, lowered.statements, ?_⟩
    rw [hcaptures]
    rfl
  · split <;> exact ⟨rfl, [], (capturesWith_nil _).symm⟩

theorem lowerCall_reports {site : CallSite} {nested : List (Node × List Code)} {statement : Node}
    {statements : List Code} (hreceiver : site.receiver.isPresent)
    (hcallback : site.callback.isPresent)
    (hstatement : plan.arena.enclosingStatement site.call = some statement)
    (hplaced : placeNested (site.call.range?.getD (0, 0)).1 (site.loweredWith s.names) nested =
      .ok statements)
    (hwhole : isCaptured s → isWholeStatement statement site.call = false) : ∃ s',
      lowerCall plan.arena site nested s = .ok ((), s') ∧
        s'.changes = changeOf plan.arena site :: s.changes ∧
        ∃ codes, s'.captures = capturesWith codes s.captures := by
  let lowered : LoweredCall := { site.loweredWith s.names with statements }
  let result := record statement site.call lowered { s with names := site.namesAfter s.names }
  have hrecord := record_state statement site.call lowered { s with names := site.namesAfter s.names }
  have hmode : result.1 = modeOf plan.arena site.call := by
    simp only [modeOf, hstatement, Option.any_some]
    exact record_mode hwhole
  refine ⟨{ result.2 with changes := changeOf plan.arena site :: s.changes }, ?_, rfl, hrecord.2⟩
  unfold lowerCall
  dsimp only
  rw [if_neg (by simp [hreceiver, hcallback]), hstatement]
  have hlower : (liftM (site.lower s.names) : Step (LoweredCall × Names)) s =
      .ok ((site.loweredWith s.names, site.namesAfter s.names), s) := by
    rw [CallSite.lower_eq]
    rfl
  have hplace : (liftM (placeNested (site.call.range?.getD (0, 0)).1 (site.loweredWith s.names)
      nested) : Step (List Code)) s = .ok (statements, s) := by
    rw [hplaced]
    rfl
  refine (bind_eq rfl).trans ((bind_eq hlower).trans ((bind_eq hplace).trans ?_))
  change Except.ok ((), { result.2 with
    changes := { operation := site.operation
                 pos := (site.call.range?.getD (0, 0)).1
                 fin := (site.call.range?.getD (0, 0)).2
                 mode := result.1 } :: result.2.changes }) = _
  rw [hmode, hrecord.1]
  rfl

section
variable (hregular : root.Regular) (hfile : Grammar.IsFile true root)
include hregular hfile

theorem exists_statement (hpath : root.Path node above) (hne : above ≠ []) :
    ∃ statement, (node :: above).find? Node.isStatement = some statement := by
  induction hpath with
  | root => exact absurd rfl hne
  | @part info shape part above hpath hp hpresent ih =>
    cases above with
    | cons first rest =>
      obtain ⟨statement, hstatement⟩ := ih nofun
      by_cases hs : part.isStatement
      · exact ⟨part, List.find?_cons_of_pos hs⟩
      · exact ⟨statement, by rw [List.find?_cons_of_neg hs, hstatement]⟩
    | nil =>
      -- The node is a statement of the file.
      obtain ⟨id, fin, name, statements, rfl, -⟩ := hfile
      cases hpath
      have hadmits := hregular.placed (.statement, part) (List.mem_map_of_mem hp)
      cases part with
      | absent => cases hpresent
      | mk partInfo partShape => exact ⟨_, List.find?_cons_of_pos hadmits⟩

theorem site_complete {site : CallSite} (hpath : root.Path node above)
    (hsite : plan.site? node depth = some site) : site.receiver.isPresent ∧
      site.callback.isPresent ∧ ∃ statement, statementOf above = some statement := by
  obtain ⟨_, member, isComputed, key, isListed, rfl, -, -⟩ := site?_call hsite
  have hcall : Grammar.IsPhrase true _ := (hfile.within hpath.within rfl).resolve_left fun heq => by
    have := hfile.isKind
    rw [← heq] at this
    cases this
  have hmember : (Node.mk member (.access isComputed site.receiver key)).Within root :=
    (Node.Within.part (by simp [Shape.parts]) .self).trans hpath.within
  have haccess : Grammar.IsPhrase true _ := (hfile.within hmember rfl).resolve_left fun heq => by
    have := hfile.isKind
    rw [← heq] at this
    cases isComputed <;> cases this
  refine ⟨haccess.access.1, hcall.call.2 _ List.mem_cons_self, ?_⟩
  have hne : above ≠ [] := by
    rintro rfl
    cases hpath with
    | root => cases hfile.isKind
  obtain ⟨statement, hstatement⟩ := exists_statement hregular hfile hpath hne
  exact ⟨statement, by rwa [List.find?_cons_of_neg (by nofun)] at hstatement⟩

variable (hforest : plan.arena.Forest [root])
include hforest

omit hfile hforest in
theorem admitted_part (hpath : root.Path (.mk info shape) above)
    (h : Admitted above (.mk info shape) s) (hf : shape.kind.isFunction = false) {part : Node}
    (hp : part ∈ shape.parts) : Admitted (.mk info shape :: above) part s := by
  intro hc
  obtain ⟨hstatement, hnotFile, hcall⟩ := h hc
  have hnode := hregular.within hpath.within
  have hholds : shape.holdsStatements = false := by
    cases shape with
    | block | branch => cases hstatement
    | loop form => cases form <;> cases hstatement
    | function form => cases form <;> cases hf
    | file => cases hnotFile
    | _ => rfl
  exact ⟨hnode.part_not_statement hp hholds, hnode.part_not_file hp, hcall.cons hstatement⟩

theorem visit_site_reports {callee : Node} {isListed : Bool} {arguments : List Node}
    {site : CallSite} (hpath : root.Path (.mk info (.call false callee isListed arguments)) above)
    (h : Admitted above (.mk info (.call false callee isListed arguments)) s)
    (hsite : plan.site? (.mk info (.call false callee isListed arguments)) depth = some site)
    (ih : ∀ part ∈ callee :: arguments, ∀ s,
      Admitted (.mk info (.call false callee isListed arguments) :: above) part s → ∃ s',
      visit plan.arena plan.options part (depth + 1) s = .ok ((), s') ∧
        Reports plan [part] (depth + 1) s s') : ∃ s',
    visit plan.arena plan.options (.mk info (.call false callee isListed arguments)) depth s =
        .ok ((), s') ∧
      Reports plan [.mk info (.call false callee isListed arguments)] depth s s' := by
  have hnode := hregular.within hpath.within
  have hquiet : ∀ part ∈ callee :: arguments, part.isStatement = false ∧ part.isKind .file = false :=
    fun part hp => ⟨hnode.part_not_statement hp rfl, hnode.part_not_file hp⟩
  obtain ⟨hreceiver, hcallback, statement, hstatement⟩ := site_complete hregular hfile hpath hsite
  obtain ⟨between, hvisit, hcallee⟩ := ih callee List.mem_cons_self s
    (admitted_part hregular hpath h rfl List.mem_cons_self)
  let act : Node × Visit → Step (Node × List Code) := fun item => do
    return (item.1, ← capturing (item.2 (depth + 1)))
  obtain ⟨nested, t, harguments, hnested, hrest, hcaptures⟩ :=
    visitArguments_reports act between (fun _ _ => rfl) (fun part hp => ih part (List.mem_cons_of_mem _ hp))
      (fun part hp => hquiet part (List.mem_cons_of_mem _ hp)) ⟨[], _, above, rfl, rfl, by simp⟩
  have hcaptured : isCaptured t = isCaptured s := by
    rw [← hcallee.isCaptured]
    simp only [isCaptured, hcaptures]
  have hplaced := placeNested_site hforest hpath hsite hreceiver hcallback
    (site.call.range?.getD (0, 0)).1 t.names hnested
  obtain ⟨-, -, -, -, -, -, hcall, -⟩ := site?_call hsite
  have henclosing : plan.arena.enclosingStatement site.call = some statement := by
    rw [hcall, enclosingStatement_call hforest hpath, hstatement]
  obtain ⟨s', hlower, hchanges, codes, hcodes⟩ := lowerCall_reports hreceiver hcallback henclosing
    hplaced fun hc => by
      rw [hcall]
      exact (h (hcaptured ▸ hc)).2.2.not_isWholeStatement hforest hpath rfl hstatement
  refine ⟨s', ?_, ?_, ?_⟩
  · rw [visit_site hsite]
    exact (bind_eq hvisit).trans ((bind_eq harguments).trans hlower)
  · rw [hchanges, (hcallee.cons hrest).changes]
    simp [Plan.sites_mk, hsite, Shape.slots, Shape.parts]
  · obtain ⟨more, hmore⟩ := hcallee.captures
    exact ⟨more ++ codes, by rw [hcodes, hcaptures, hmore, capturesWith_append]⟩

/-- A visit of a node of a file succeeds and reports the calls that are lowered. -/
theorem visit_reports {node : Node} (hpath : node.isPresent → root.Path node above)
    (h : Admitted above node s) : ∃ s', visit plan.arena plan.options node depth s = .ok ((), s') ∧
      Reports plan [node] depth s s' := by
  induction node generalizing above depth s with
  | absent => exact ⟨s, rfl, rfl, [], (capturesWith_nil _).symm⟩
  | mk info shape ih =>
    have hpath := hpath rfl
    have ihParts : ∀ part ∈ shape.parts, ∀ s, Admitted (.mk info shape :: above) part s → ∃ s',
        visit plan.arena plan.options part (depth + 1) s = .ok ((), s') ∧
          Reports plan [part] (depth + 1) s s' :=
      fun part hp s hs => ih part hp (fun hpresent => .part hpath hp hpresent) hs
    have ihSlots := fun part hp => ihParts part (shape.slots_subset hp)
    by_cases hdepth : maxDepth ≤ depth
    · refine ⟨s, by rw [visit_deep hdepth]; rfl, ?_, [], (capturesWith_nil _).symm⟩
      simp [Plan.sites_deep hdepth]
    cases hsite : plan.site? (.mk info shape) depth with
    | some site =>
      obtain ⟨_, _, _, _, _, hnode, -, -⟩ := site?_call hsite
      cases hnode
      exact visit_site_reports hregular hfile hforest hpath h hsite ihParts
    | none =>
      have hsites : (plan.sites (.mk info shape) depth) =
          shape.slots.flatMap (plan.sites · (depth + 1)) := by
        rw [Plan.sites_mk, hsite]
        simp
      rw [visit_parts (Nat.lt_of_not_le hdepth) hsite]
      split
      · obtain ⟨t, ht, hreports⟩ := @visitAll_reports _ _ _
          { s with names := s.names.enter, captures := none :: s.captures } _ ihSlots nofun
        refine ⟨{ t with names := t.names.exit, captures := t.captures.tail }, ?_, ?_, [], ?_⟩
        · exact (bind_eq rfl).trans ((bind_eq ht).trans rfl)
        · simpa [hsites] using hreports.changes
        · obtain ⟨codes, hcodes⟩ := hreports.captures
          change t.captures.tail = _
          rw [hcodes, capturesWith_nil]
          rfl
      · rename_i hf
        obtain ⟨s', hrun, hreports⟩ := visitAll_reports ihSlots fun part hp =>
          admitted_part hregular hpath h (by simpa using hf) (shape.slots_subset hp)
        refine ⟨s', hrun, ?_, hreports.captures⟩
        simpa [hsites] using hreports.changes

end

/-- The call, in parentheses or not, is all of an expression statement. -/
def IsWhole (root call : Node) : Prop :=
  ∃ info expression, (Node.mk info (.evaluate expression)).Within root ∧
    expression.unwrapped = call

theorem path_unwrapped {expression : Node} (hpath : root.Path expression above)
    (hpresent : expression.unwrapped.isPresent) : ∃ front,
      root.Path expression.unwrapped (front ++ above) ∧
        ∀ other ∈ front, other.isStatement = false := by
  induction expression generalizing above with
  | absent => exact ⟨[], hpath, nofun⟩
  | mk info shape ih =>
    cases shape with
    | parenthesized inner =>
      have hmem : inner ∈ (Shape.parenthesized inner).parts := by simp [Shape.parts]
      have hinner : inner.isPresent := by
        cases inner with
        | absent => exact hpresent
        | mk => rfl
      obtain ⟨front, hfront, hall⟩ := ih inner hmem (.part hpath hmem hinner) hpresent
      refine ⟨front ++ [.mk info (.parenthesized inner)], by simpa [Node.unwrapped] using hfront, ?_⟩
      intro other ho
      obtain ho | ho := List.mem_append.mp ho
      · exact hall other ho
      · obtain rfl := List.mem_singleton.mp ho
        rfl
    | _ => exact ⟨[], hpath, nofun⟩

theorem modeOf_eq_replaceStatement_iff (hforest : plan.arena.Forest [root]) {call : Node}
    (hcall : call.Within root) (hkind : call.isKind .call) :
    modeOf plan.arena call = .replaceStatement ↔ IsWhole root call := by
  have hpresent : call.isPresent := by
    cases call with
    | absent => cases hkind
    | mk => rfl
  constructor
  · intro hmode
    simp only [modeOf] at hmode
    split at hmode
    · rename_i hwhole
      obtain ⟨above, hpath⟩ := hcall.path hpresent
      obtain ⟨statement, hstatement, hwhole⟩ := (Option.any_eq_true _ _).mp hwhole
      rw [Arena.enclosingStatement, hforest.ancestors_eq hpath] at hstatement
      unfold isWholeStatement at hwhole
      split at hwhole
      · rename_i info expression
        have hmem := List.mem_of_find?_eq_some hstatement
        have hwithin : (Node.mk info (.evaluate expression)).Within root := by
          obtain rfl | hmem := List.mem_cons.mp hmem
          · cases hkind
          · exact hpath.above_within hmem
        obtain ⟨id, hid⟩ := Node.exists_id hpresent
        refine ⟨info, expression, hwithin,
          (hforest.known root List.mem_cons_self).unique ?_ hcall ?_ hid⟩
        · exact (Node.unwrapped_within _).trans ((Node.Within.of_part (by simp [Node.parts,
            Shape.parts])).trans hwithin)
        · simpa [Node.same, hid] using hwhole
      · cases hwhole
    · cases hmode
  · rintro ⟨info, expression, hwithin, rfl⟩
    have hexpression : expression.isPresent := by
      cases expression with
      | absent => cases hpresent
      | mk => rfl
    obtain ⟨above, hpath⟩ := hwithin.path rfl
    obtain ⟨front, hfront, hall⟩ := path_unwrapped (.part hpath (by simp [Shape.parts]) hexpression)
      hpresent
    have hstatement : plan.arena.enclosingStatement expression.unwrapped =
        some (.mk info (.evaluate expression)) := by
      have hnone : front.find? Node.isStatement = none :=
        List.find?_eq_none.mpr fun other ho => by simp [hall other ho]
      rw [Arena.enclosingStatement, hforest.ancestors_eq hfront,
        List.find?_cons_of_neg (by simp [not_isStatement_of_call hkind]), List.find?_append, hnone,
        Option.none_or]
      exact List.find?_cons_of_pos rfl
    simp [modeOf, hstatement, isWholeStatement]

end Pass

theorem runPass_sites {plan : Plan} {root : Node} (hforest : plan.arena.Forest [root])
    (hregular : root.Regular) (hfile : Grammar.IsFile true root) : ∃ result,
      runPass plan.arena plan.options root = .ok result ∧
        result.changes = (plan.sites root 0).map (Pass.changeOf plan.arena) := by
  obtain ⟨s, hrun, hreports⟩ := @Pass.visit_reports plan root [] 0
    ⟨.empty, [], .ofReserved root.identifierNames, []⟩ hregular hfile hforest root (fun _ => .root)
    nofun
  refine ⟨⟨s.directives, s.changes.reverse⟩, ?_, by simp [hreports.changes]⟩
  simp only [runPass, StateT.run, hrun]
  rfl

/-- What is to be reported of a call that can be lowered. -/
structure Describes (parsed : ParsedFile) (options : Options) (call : Node) (change : Change) :
    Prop where
  operation : ∃ site, CallSite.ofCall parsed.arena options call = .ok site ∧
    change.operation = site.operation
  range : call.range? = some (change.pos, change.fin)
  mode : change.mode = .replaceStatement ↔ Pass.IsWhole parsed.root call

def acceptedCalls (parsed : ParsedFile) (options : Options) : List Node :=
  ((parsed.root.postorder 0).map (·.2)).filter fun node =>
    (CallSite.ofCall parsed.arena options node).isOk

theorem forall₂_sites {plan : Plan} {entries : List (Nat × Node)} {R : Node → Change → Prop}
    (hdepth : ∀ entry ∈ entries, entry.1 < Pass.maxDepth)
    (h : ∀ entry ∈ entries, ∀ site, CallSite.ofCall plan.arena plan.options entry.2 = .ok site →
      R entry.2 (Pass.changeOf plan.arena site)) :
    List.Forall₂ R
      ((entries.map (·.2)).filter fun node => (CallSite.ofCall plan.arena plan.options node).isOk)
      ((entries.filterMap fun entry => plan.site? entry.2 entry.1).map
        (Pass.changeOf plan.arena)) := by
  induction entries with
  | nil => exact .nil
  | cons entry rest ih =>
    have hrest := ih (fun other ho => hdepth other (List.mem_cons_of_mem _ ho))
      fun other ho => h other (List.mem_cons_of_mem _ ho)
    have hlt := Nat.not_le.mpr (hdepth entry List.mem_cons_self)
    cases hcall : CallSite.ofCall plan.arena plan.options entry.2 with
    | error =>
      have hsite : plan.site? entry.2 entry.1 = none := by
        simp [Plan.site?, hlt, hcall, Except.toOption]
      rw [List.map_cons, List.filter_cons_of_neg (by simp [hcall, Except.isOk, Except.toBool]),
        List.filterMap_cons_none (f := fun entry : Nat × Node => plan.site? entry.2 entry.1) hsite]
      exact hrest
    | ok site =>
      have hsite : plan.site? entry.2 entry.1 = some site := by
        simp [Plan.site?, hlt, hcall, Except.toOption]
      rw [List.map_cons, List.filter_cons_of_pos (by simp [hcall, Except.isOk, Except.toBool]),
        List.filterMap_cons_some (f := fun entry : Nat × Node => plan.site? entry.2 entry.1) hsite]
      exact .cons (h entry List.mem_cons_self site hcall) hrest

theorem runPass_ok {name text : String} (options : Options)
    (h : (parse name text).complaints = []) :
    ∃ result, runPass (parse name text).arena options (parse name text).root = .ok result := by
  obtain ⟨result, hrun, -⟩ := @runPass_sites
    ⟨(parse name text).arena, options, fun _ => .ofReserved [], fun _ => ⟨0, 0, 0, {}⟩⟩ _
    (parse_forest name text) (parse_regular name text) (Grammar.parse_isFile h)
  exact ⟨result, hrun⟩

theorem runPass_describes {parsed : ParsedFile} (options : Options)
    (hforest : parsed.arena.Forest [parsed.root]) (hregular : parsed.root.Regular)
    (hfile : Grammar.IsFile true parsed.root)
    (hdepth : ∀ entry ∈ parsed.root.postorder 0, entry.1 < Pass.maxDepth) : ∃ result,
      runPass parsed.arena options parsed.root = .ok result ∧
        List.Forall₂ (Describes parsed options) (acceptedCalls parsed options) result.changes := by
  let plan : Plan := ⟨parsed.arena, options, fun _ => .ofReserved [], fun _ => ⟨0, 0, 0, {}⟩⟩
  obtain ⟨result, hrun, hchanges⟩ := @runPass_sites plan parsed.root hforest hregular hfile
  refine ⟨result, hrun, ?_⟩
  rw [hchanges]
  refine @forall₂_sites plan _ _ hdepth fun entry hentry site hsite => ?_
  obtain ⟨info, _, _, _, _, hnode, hcall, -⟩ := CallSite.ofCall_spec hsite
  have hwithin := Node.within_of_mem_postorder hentry
  refine ⟨⟨site, hsite, rfl⟩, ?_, ?_⟩
  · simp only [Pass.changeOf, hcall, hnode]
    rfl
  · rw [Pass.changeOf, hcall]
    exact Pass.modeOf_eq_replaceStatement_iff hforest hwithin (by rw [hnode]; rfl)

/-- A pass over a file without complaints lowers the calls that can be lowered and no others, each
once, parts before wholes, if none is too deep to be visited. -/
theorem changes_describe_accepted {name text : String} {options : Options}
    (h : (parse name text).complaints = [])
    (hdepth : ∀ entry ∈ (parse name text).root.postorder 0, entry.1 < Pass.maxDepth) : ∃ result,
      runPass (parse name text).arena options (parse name text).root = .ok result ∧
        List.Forall₂ (Describes (parse name text) options)
          (acceptedCalls (parse name text) options) result.changes :=
  runPass_describes options (parse_forest name text) (parse_regular name text)
    (Grammar.parse_isFile h) hdepth

/-- A lowered call in an argument of another, one in a function and one that is left as it is. -/
def nestedText : String :=
  "(a.map(b.filter(f))); x = c.some(function () { d.forEach(g); }) && e.every(h);"

set_option maxRecDepth 100000 in
theorem changes_describe_accepted_nested :
    (parse "a.js" nestedText).complaints = [] ∧
      (∀ entry ∈ (parse "a.js" nestedText).root.postorder 0, entry.1 < Pass.maxDepth) ∧
      ∃ result, runPass (parse "a.js" nestedText).arena {} (parse "a.js" nestedText).root =
          .ok result ∧ List.Forall₂ (Describes (parse "a.js" nestedText) {})
            (acceptedCalls (parse "a.js" nestedText) {}) result.changes := by
  have hcomplaints : (parse "a.js" nestedText).complaints = [] := by decide +kernel
  have hdepth : ∀ entry ∈ (parse "a.js" nestedText).root.postorder 0, entry.1 < Pass.maxDepth := by
    have hall : (((parse "a.js" nestedText).root.postorder 0).all fun entry =>
        decide (entry.1 < Pass.maxDepth)) = true := by
      decide +kernel
    simpa using hall
  exact ⟨hcomplaints, hdepth, changes_describe_accepted hcomplaints hdepth⟩

end Lowering

/-- A file is lowered unless the parser has complaints, and then it is these that are reported. The
pass itself never fails. -/
theorem lower_fails_on_complaints_only (file source : String) (options : Lowering.Options) :
    match lower file source options with
    | .ok _ => (parse file source).complaints = []
    | .error (.grammar name complaints) =>
      name = file ∧ complaints = (parse file source).complaints ∧ complaints ≠ []
    | .error (.lowering _) => False := by
  unfold lower
  by_cases h : (parse file source).complaints = []
  · obtain ⟨result, hrun⟩ := Lowering.runPass_ok options h
    simp [h, hrun]
  · simp [h]

end ArrayLoops
