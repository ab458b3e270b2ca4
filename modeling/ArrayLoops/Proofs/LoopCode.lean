import ArrayLoops.Proofs.FreshNames
import ArrayLoops.Proofs.LoweredTree
import ArrayLoops.Text.Chars

/-!
# The code of one loop

What is known of the statements that a call is lowered to, whatever its operation: they begin with
the variables that the parts of the call are put into, and hold no other source nodes.
-/

namespace ArrayLoops.Lowering

open ArrayLoops.Tree (Info Node)

def Bindings.names (bindings : Bindings) : List String :=
  [bindings.array, bindings.index, bindings.callback] ++ bindings.this.toList

namespace CallSite

def thisArgument (site : CallSite) : Option Node :=
  if site.operation.takesThis then site.extra else none

/-- The skeleton of a call is filled with variables of the given names. -/
inductive Fills (site : CallSite) (bindings : Bindings) : List String → Skeleton × Code → Prop where
  | visiting : site.operation = .forEach →
    Fills site bindings bindings.names (site.skeleton bindings).visiting
  | reducing (names : ElementNames) (accumulator : String) : site.operation = .reduce →
    Fills site bindings (bindings.names ++ [names.element, names.result, accumulator])
      ((site.skeleton bindings).reducing names accumulator site.extra)
  | gathering (names : ElementNames) (result : String) :
    site.operation ≠ .forEach → site.operation ≠ .reduce →
    Fills site bindings (bindings.names ++ [names.element, names.result, result])
      ((site.skeleton bindings).gathering names result)

section
variable (site : CallSite) (names : Names)

omit site names in
theorem forall_isNamePart {hints : List String} (h : (hints.all fun hint => hint.toList.all Text.isNamePart) = true) :
    ∀ hint ∈ hints, ∀ c ∈ hint.toList, Text.isNamePart c := by
  simpa only [List.all_eq_true] using h

theorem fill_fills : ∃ bindings given hints, bindings.this.isSome = site.thisArgument.isSome ∧
    site.Fills bindings given ((fill site).run names).1 ∧
    names.freshAll hints = (given, site.namesAfter names) ∧
    ∀ hint ∈ hints, ∀ c ∈ hint.toList, Text.isNamePart c := by
  obtain ⟨call, operation, receiver, callback, extra⟩ := site
  cases operation
  case forEach =>
    cases extra with
    | none => exact ⟨_, _, ["a", "i", "f"], rfl, .visiting rfl, rfl, forall_isNamePart rfl⟩
    | some extra => exact ⟨_, _, ["a", "i", "f", "t"], rfl, .visiting rfl, rfl, forall_isNamePart rfl⟩
  case reduce =>
    refine ⟨_, _, ["a", "i", "f", "e", "z", "acc"], ?_, .reducing _ _ rfl, rfl, forall_isNamePart rfl⟩
    rfl
  all_goals
    cases extra with
    | none =>
      refine ⟨_, _, ["a", "i", "f", "e", "z", "r"], ?_, .gathering _ _ nofun nofun, rfl, forall_isNamePart rfl⟩
      rfl
    | some extra =>
      refine ⟨_, _, ["a", "i", "f", "t", "e", "z", "r"], ?_, .gathering _ _ nofun nofun, rfl,
        forall_isNamePart rfl⟩
      rfl

theorem fill_gives : ∃ bindings given, bindings.this.isSome = site.thisArgument.isSome ∧
    site.Fills bindings given ((fill site).run names).1 ∧ names.Gives given (site.namesAfter names) := by
  obtain ⟨bindings, given, hints, hthis, hfills, hfresh, -⟩ := fill_fills site names
  have hgives := names.gives_freshAll hints
  rw [hfresh] at hgives
  exact ⟨bindings, given, hthis, hfills, hgives⟩

theorem lower_eq : site.lower names = .ok (site.loweredWith names, site.namesAfter names) := by
  obtain ⟨call, operation, receiver, callback, extra⟩ := site
  cases operation <;> cases extra <;> rfl

end

variable {site : CallSite} {bindings : Bindings} {given : List String} {filled : Skeleton × Code}

section
attribute [local simp] skeleton Skeleton.loop Code.captures

theorem Fills.build_eq (h : site.Fills bindings given filled)
    (hthis : bindings.this.isSome = site.thisArgument.isSome) : ∃ extra rest,
    filled.1.build = .ok (.declare bindings.array (some (.source site.receiver)) ::
      .declare bindings.index (some (.number "0")) ::
      .declare bindings.callback (some (.source site.callback)) ::
      (site.extra.toList.map fun node => .declare extra (some (.source node))) ++ rest) ∧
    rest ≠ [] ∧ (∀ code ∈ rest, ∀ node, code.captures node = false) ∧ Code.sourcesOf (Code.mentionsIn rest) = [] ∧
    filled.2.sources = [] := by
  obtain ⟨call, operation, receiver, callback, extra⟩ := site
  obtain ⟨array, index, function, this⟩ := bindings
  cases h with
  | visiting ho =>
    subst ho
    cases extra with
    | none =>
      cases this with
      | none =>
        refine ⟨"", _, rfl, nofun, ?_, rfl, rfl⟩
        simp [Skeleton.visiting]
      | some this => cases hthis
    | some extra =>
      cases this with
      | none => cases hthis
      | some this =>
        refine ⟨this, _, rfl, nofun, ?_, rfl, rfl⟩
        simp [Skeleton.visiting]
  | reducing names accumulator ho =>
    subst ho
    cases this with
    | some this => cases hthis
    | none =>
      cases extra with
      | none =>
        refine ⟨"", _, rfl, nofun, ?_, rfl, rfl⟩
        simp [Skeleton.reducing, startAccumulator, Code.when]
      | some extra =>
        refine ⟨accumulator, _, rfl, nofun, ?_, rfl, rfl⟩
        simp [Skeleton.reducing]
  | gathering names result hf hr =>
    cases operation
    case forEach => exact absurd rfl hf
    case reduce => exact absurd rfl hr
    all_goals
      cases extra with
      | none =>
        cases this with
        | none =>
          refine ⟨"", _, rfl, nofun, ?_, rfl, rfl⟩
          simp [Skeleton.gathering, collecting]
        | some this => cases hthis
      | some extra =>
        cases this with
        | none => cases hthis
        | some this =>
          refine ⟨this, _, rfl, nofun, ?_, rfl, rfl⟩
          simp [Skeleton.gathering, collecting]

end

theorem loweredWith_spec (site : CallSite) (names : Names) : ∃ array index callback extra rest,
    (site.loweredWith names).statements =
      .declare array (some (.source site.receiver)) :: .declare index (some (.number "0")) ::
        .declare callback (some (.source site.callback)) ::
        (site.extra.toList.map fun node => .declare extra (some (.source node))) ++ rest ∧
    rest ≠ [] ∧ (∀ code ∈ rest, ∀ node, code.captures node = false) ∧ Code.sourcesOf (Code.mentionsIn rest) = [] ∧
    (site.loweredWith names).value.sources = [] := by
  obtain ⟨bindings, given, hthis, hfills, -⟩ := fill_gives site names
  obtain ⟨extra, rest, hbuild, hrest⟩ := hfills.build_eq hthis
  refine ⟨bindings.array, bindings.index, bindings.callback, extra, rest, ?_, hrest⟩
  simp only [loweredWith, hbuild]
  rfl

theorem Fills.declares (h : site.Fills bindings given filled)
    (hthis : bindings.this.isSome = site.thisArgument.isSome) {statements : List Code}
    (hbuild : filled.1.build = .ok statements) :
    (Code.declaredOf (Code.mentionsIn statements)).Perm given := by
  obtain ⟨call, operation, receiver, callback, extra⟩ := site
  obtain ⟨array, index, function, this⟩ := bindings
  cases h with
  | visiting ho =>
    subst ho
    cases extra <;> cases this <;> cases hthis <;> cases hbuild <;> exact .refl _
  | reducing names accumulator ho =>
    subst ho
    have hperm := (List.perm_append_singleton accumulator [names.element, names.result]).symm
    cases this <;> cases hthis
    cases extra <;> cases hbuild <;> exact hperm.append_left [array, index, function]
  | gathering names result hf hr =>
    have hperm := (List.perm_append_singleton result [names.element, names.result]).symm
    cases operation
    case forEach => exact absurd rfl hf
    case reduce => exact absurd rfl hr
    all_goals
      cases this with
      | none =>
        cases extra <;> cases hthis
        cases hbuild
        exact hperm.append_left [array, index, function]
      | some this =>
        cases extra <;> cases hthis
        cases hbuild
        exact hperm.append_left [array, index, function, this]

theorem Fills.uses (h : site.Fills bindings given filled)
    (hthis : bindings.this.isSome = site.thisArgument.isSome) {statements : List Code}
    (hbuild : filled.1.build = .ok statements) {text : String}
    (hm : .uses text ∈ Code.mentionsIn statements) : text = "TypeError" ∨ text ∈ given := by
  obtain ⟨call, operation, receiver, callback, extra⟩ := site
  obtain ⟨array, index, function, this⟩ := bindings
  cases h with
  | visiting ho =>
    subst ho
    cases extra <;> cases this <;> cases hthis <;> cases hbuild
    all_goals
      simp [Skeleton.visiting, skeleton, Skeleton.loop, Skeleton.invoke, Skeleton.currentElement,
        Skeleton.arrayName, Skeleton.indexName, Skeleton.declareThis, Operation.takesThis,
        Code.mentionsIn, Code.mentions, Code.mentions?, Bindings.names] at hm ⊢
      grind
  | reducing names accumulator ho =>
    subst ho
    cases extra <;> cases this <;> cases hthis <;> cases hbuild
    all_goals
      simp [Skeleton.reducing, skeleton, startAccumulator, Code.when, Code.assign, Skeleton.loop,
        Skeleton.invoke, Skeleton.currentElement, Skeleton.arrayName, Skeleton.indexName,
        Skeleton.declareThis, ElementNames.declarations, ElementNames.keep, Operation.takesThis,
        Code.mentionsIn, Code.mentions, Code.mentions?, Bindings.names] at hm ⊢
      grind
  | gathering names result hf hr =>
    cases operation
    case forEach => exact absurd rfl hf
    case reduce => exact absurd rfl hr
    all_goals
      cases extra <;> cases this <;> cases hthis <;> cases hbuild
      all_goals
        simp [Skeleton.gathering, skeleton, collecting, pushTo, settle, Code.when, Code.assign,
          Code.not, Skeleton.loop, Skeleton.invoke, Skeleton.currentElement, Skeleton.arrayName,
          Skeleton.indexName, Skeleton.declareThis, ElementNames.declarations, ElementNames.keep,
          Operation.takesThis, Code.mentionsIn, Code.mentions, Code.mentions?,
          Bindings.names] at hm ⊢
        grind

theorem Fills.value (h : site.Fills bindings given filled) :
    Code.declaredOf filled.2.mentions = [] ∧ ∀ text, .uses text ∈ filled.2.mentions → text ∈ given := by
  cases h with
  | visiting => exact ⟨rfl, nofun⟩
  | reducing names accumulator =>
    refine ⟨rfl, fun text hm => ?_⟩
    obtain rfl : text = accumulator := by simpa [Skeleton.reducing, Code.mentions] using hm
    simp
  | gathering names result =>
    refine ⟨rfl, fun text hm => ?_⟩
    obtain rfl : text = result := by simpa [Skeleton.gathering, Code.mentions] using hm
    simp

theorem loweredWith_names (site : CallSite) (names : Names) : ∃ given,
    names.Gives given (site.namesAfter names) ∧
    (Code.declaredOf (Code.mentionsIn (site.loweredWith names).statements)).Perm given ∧
    (∀ text, .uses text ∈ Code.mentionsIn (site.loweredWith names).statements →
      text = "TypeError" ∨ text ∈ given) ∧
    Code.declaredOf (site.loweredWith names).value.mentions = [] ∧
    ∀ text, .uses text ∈ (site.loweredWith names).value.mentions → text ∈ given := by
  obtain ⟨bindings, given, hthis, hfills, hgives⟩ := fill_gives site names
  obtain ⟨extra, rest, hbuild, -⟩ := hfills.build_eq hthis
  have hstatements : (site.loweredWith names).statements =
      (((fill site).run names).1.1.build.toOption).getD [] := rfl
  rw [hbuild] at hstatements
  refine ⟨given, hgives, ?_, fun text => ?_, hfills.value⟩
  · rw [hstatements]
    exact hfills.declares hthis hbuild
  · rw [hstatements]
    exact hfills.uses hthis hbuild

theorem sourcesOf_loweredWith (site : CallSite) (names : Names) :
    Code.sourcesOf (Code.mentionsIn (site.loweredWith names).statements) =
      site.receiver :: site.callback :: site.extra.toList := by
  obtain ⟨array, index, callback, extra, rest, hstatements, -, -, hrest, -⟩ :=
    site.loweredWith_spec names
  rw [hstatements]
  cases site.extra with
  | none => exact congrArg (site.receiver :: site.callback :: ·) hrest
  | some other => exact congrArg (site.receiver :: site.callback :: other :: ·) hrest

theorem sources_loweredWith (site : CallSite) (names : Names) :
    ∀ code ∈ (site.loweredWith names).statements, ∀ node ∈ code.sources,
      node ∈ site.receiver :: site.callback :: site.extra.toList := by
  intro code hm node hnode
  rw [← sourcesOf_loweredWith site names, Code.mem_sourcesOf_mentionsIn]
  exact ⟨code, hm, hnode⟩

theorem flatMap_captures {α : Type} {items : Node → List α} (habsent : items .absent = [])
    (hnodup : (site.receiver.ids ++ (site.callback :: site.extra.toList).flatMap Node.ids).Nodup)
    (names : Names) :
    (site.loweredWith names).statements.flatMap (fun code =>
        (site.callback :: site.extra.toList).flatMap fun argument =>
          if code.captures argument then items argument else []) =
      (site.callback :: site.extra.toList).flatMap items := by
  obtain ⟨array, index, callback, extra, rest, hstatements, -, hrest, -⟩ :=
    site.loweredWith_spec names
  have hnone : rest.flatMap (fun code => (site.callback :: site.extra.toList).flatMap fun argument =>
      if code.captures argument then items argument else []) = [] := by
    rw [List.flatMap_eq_nil_iff]
    intro code hm
    simp [hrest code hm]
  have hself : ∀ (name : String) (node : Node),
      (if Code.captures node (.declare name (some (.source node))) then items node else []) =
        items node := by
    intro name node
    simp [Code.captures]
  have hother : ∀ (name : String) {node other : Node}, (∀ id ∈ node.ids, id ∉ other.ids) →
      (if Code.captures other (.declare name (some (.source node))) then items other else []) =
        [] := by
    intro name node other hd
    cases node with
    | mk info shape => simp [Code.captures, Node.not_same rfl hd]
    | absent =>
      cases other with
      | mk => rfl
      | absent => simp [habsent]
  have hnumber : ∀ (node : Node), (if Code.captures node (.declare index (some (.number "0"))) then
      items node else []) = [] := fun _ => rfl
  rw [List.flatMap_cons, List.nodup_append', List.nodup_append', List.disjoint_append_right] at hnodup
  obtain ⟨-, ⟨-, -, hextra⟩, hcallback, hreceiver⟩ := hnodup
  have hfirst := hother array fun id hr hc => hcallback hr hc
  rw [hstatements, List.flatMap_append, hnone]
  cases hsite : site.extra with
  | none =>
    simp only [Option.toList_none, List.map_nil, List.flatMap_cons, List.flatMap_nil,
      List.append_nil, hfirst, hnumber, hself, List.nil_append]
  | some other =>
    simp only [hsite, Option.toList_some, List.flatMap_cons, List.flatMap_nil, List.append_nil]
      at hextra hreceiver
    simp only [Option.toList_some, List.map_cons, List.map_nil, List.flatMap_cons,
      List.flatMap_nil, List.append_nil, hfirst, hnumber, hself,
      hother array fun id hr ho => hreceiver hr ho, hother callback fun id hc ho => hextra hc ho,
      hother extra fun id ho hc => hextra hc ho, List.nil_append]

theorem memberCallee_spec {callee receiver : Node} {name : String}
    (h : memberCallee callee = .ok (receiver, name)) :
    ∃ member isComputed key, callee = .mk member (.access isComputed receiver key) := by
  unfold memberCallee at h
  split at h
  · split at h
    · cases h
    · cases h
      exact ⟨_, _, _, rfl⟩
    · cases h
    · cases h
      exact ⟨_, _, _, rfl⟩
    · cases h
  · cases h

theorem ofShape_spec {options : Options} {node : Node} {site : CallSite}
    (h : ofShape options node = .ok site) :
    ∃ info member isComputed key isListed,
      node = .mk info (.call false (.mk member (.access isComputed site.receiver key)) isListed
        (site.callback :: site.extra.toList)) ∧ site.call = node := by
  unfold ofShape at h
  split at h
  · rename_i info callee isListed arguments
    simp only [bind, Except.bind] at h
    split at h
    · cases h
    · rename_i found hfound
      obtain ⟨receiver, name⟩ := found
      obtain ⟨member, isComputed, key, rfl⟩ := memberCallee_spec hfound
      split at h
      · cases h
      · split at h
        · cases h
        · split at h
          · cases h
            exact ⟨_, _, _, _, _, rfl, rfl⟩
          · split at h
            · cases h
            · cases h
              exact ⟨_, _, _, _, _, rfl, rfl⟩
          · cases h
  · cases h

/-- What a loop captures. -/
def parts (site : CallSite) : List Node := site.receiver :: site.callback :: site.extra.toList

/-- A call that is lowered is a call of a method, with its parts, in no unsafe place. -/
theorem ofCall_spec {arena : Tree.Arena} {options : Options} {node : Node} {site : CallSite}
    (h : ofCall arena options node = .ok site) :
    ∃ info member isComputed key isListed,
      node = .mk info (.call false (.mk member (.access isComputed site.receiver key)) isListed
        (site.callback :: site.extra.toList)) ∧
      site.call = node ∧ unsafePlace arena node = none := by
  simp only [ofCall, bind, Except.bind] at h
  split at h
  · cases h
  · rename_i found hshape
    split at h
    · cases h
    · rename_i hplace
      cases h
      obtain ⟨info, member, isComputed, key, isListed, hnode, hcall⟩ := ofShape_spec hshape
      exact ⟨info, member, isComputed, key, isListed, hnode, hcall, hplace⟩

theorem ofCall_key {arena : Tree.Arena} {options : Options} {info member : Info}
    {isComputed isListed : Bool} {object key : Node} {arguments : List Node}
    (h : ofCall arena options (.mk info (.call false (.mk member (.access isComputed object key))
      isListed arguments)) = .ok site) :
    ∃ keyInfo shape, key = .mk keyInfo shape ∧ ((∃ text, shape = .identifier text) ∨
      ∃ text raw value, shape = .literal true text raw value) := by
  cases key with
  | absent => cases isComputed <;> cases h
  | mk keyInfo shape =>
    cases shape with
    | identifier text => exact ⟨_, _, rfl, .inl ⟨text, rfl⟩⟩
    | literal isString text raw value =>
      cases isString with
      | true => exact ⟨_, _, rfl, .inr ⟨text, raw, value, rfl⟩⟩
      | false => cases isComputed <;> cases h
    | _ => cases isComputed <;> cases h

end CallSite

def Code.behind (arguments : List (Node × List Code)) (code : Code) : List Code :=
  arguments.flatMap (fun argument => if code.captures argument.1 then argument.2 else []) ++ [code]

theorem flatMap_behind_of_not_captures {arguments : List (Node × List Code)} {codes : List Code}
    (h : ∀ code ∈ codes, ∀ node, code.captures node = false) :
    codes.flatMap (Code.behind arguments) = codes := by
  induction codes with
  | nil => rfl
  | cons code rest ih =>
    rw [List.flatMap_cons, ih fun other ho => h other (List.mem_cons_of_mem _ ho)]
    simp [Code.behind, h code List.mem_cons_self]

namespace Pass

section
variable {site : CallSite} {names : Names} {pos : Nat}
  (hcallback : site.receiver.same site.callback = false)
include hcallback

theorem placeNested_one (hsite : site.extra = none) (codes : List Code) :
    placeNested pos (site.loweredWith names)
        ([(site.callback, codes)].filter fun entry => !entry.2.isEmpty) =
      .ok ((site.loweredWith names).statements.flatMap (Code.behind [(site.callback, codes)])) := by
  obtain ⟨array, index, callback, extra, rest, hstatements, -, hrest, -⟩ :=
    site.loweredWith_spec names
  simp only [hsite, Option.toList_none, List.map_nil] at hstatements
  have hposition : (site.loweredWith names).capturePosition site.callback = some 2 := by
    simp [LoweredCall.capturePosition, hstatements, List.findIdx?_cons, Code.captures, hcallback]
  have hright : (site.loweredWith names).statements.flatMap
      (Code.behind [(site.callback, codes)]) =
      .declare array (some (.source site.receiver)) :: .declare index (some (.number "0")) ::
        codes ++ .declare callback (some (.source site.callback)) :: rest := by
    simp [hstatements, flatMap_behind_of_not_captures hrest, Code.behind, Code.captures, hcallback]
  rw [hright]
  cases codes with
  | nil => simp [placeNested, hstatements, pure, Except.pure, bind, Except.bind]
  | cons code codes =>
    simp [placeNested, hposition, insertByPosition, insertAt, hstatements, pure, Except.pure, bind,
      Except.bind]

theorem placeNested_two {other : Node} (hsite : site.extra = some other)
    (hreceiver : site.receiver.same other = false) (hother : site.callback.same other = false)
    (codes more : List Code) :
    placeNested pos (site.loweredWith names)
        ([(site.callback, codes), (other, more)].filter fun entry => !entry.2.isEmpty) =
      .ok ((site.loweredWith names).statements.flatMap
        (Code.behind [(site.callback, codes), (other, more)])) := by
  obtain ⟨array, index, callback, extra, rest, hstatements, -, hrest, -⟩ :=
    site.loweredWith_spec names
  have hswap : other.same site.callback = false := by
    rw [← hother, Node.same, Node.same, Bool.beq_comm]
  simp only [hsite, Option.toList_some, List.map_cons, List.map_nil] at hstatements
  have hposition : (site.loweredWith names).capturePosition site.callback = some 2 := by
    simp [LoweredCall.capturePosition, hstatements, List.findIdx?_cons, Code.captures, hcallback]
  have hnext : (site.loweredWith names).capturePosition other = some 3 := by
    simp [LoweredCall.capturePosition, hstatements, List.findIdx?_cons, Code.captures, hreceiver,
      hother]
  have hright : (site.loweredWith names).statements.flatMap
      (Code.behind [(site.callback, codes), (other, more)]) =
      .declare array (some (.source site.receiver)) :: .declare index (some (.number "0")) ::
        codes ++ .declare callback (some (.source site.callback)) ::
        more ++ .declare extra (some (.source other)) :: rest := by
    simp [hstatements, flatMap_behind_of_not_captures hrest, Code.behind, Code.captures, hcallback,
      hreceiver, hother, hswap]
  rw [hright]
  cases codes with
  | nil =>
    cases more with
    | nil => simp [placeNested, hstatements, pure, Except.pure, bind, Except.bind]
    | cons code more =>
      simp [placeNested, hnext, insertByPosition, insertAt, hstatements, pure, Except.pure, bind,
        Except.bind]
  | cons code codes =>
    cases more with
    | nil =>
      simp [placeNested, hposition, insertByPosition, insertAt, hstatements, pure, Except.pure,
        bind, Except.bind]
    | cons code more =>
      simp [placeNested, hposition, hnext, insertByPosition, insertAt, hstatements, pure,
        Except.pure, bind, Except.bind]

theorem placeNested_eq {nested : List (Node × List Code)}
    (hextra : ∀ other ∈ site.extra,
      site.receiver.same other = false ∧ site.callback.same other = false)
    (hnested : nested.map (·.1) = site.callback :: site.extra.toList) :
    placeNested pos (site.loweredWith names) (nested.filter fun entry => !entry.2.isEmpty) =
      .ok ((site.loweredWith names).statements.flatMap (Code.behind nested)) := by
  cases hsite : site.extra with
  | none =>
    rw [hsite] at hnested
    obtain ⟨⟨_, codes⟩, rfl, rfl⟩ := List.map_eq_singleton_iff.mp hnested
    exact placeNested_one hcallback hsite codes
  | some other =>
    obtain ⟨hreceiver, hother⟩ := hextra other hsite
    rw [hsite] at hnested
    obtain ⟨⟨_, codes⟩, rest, rfl, rfl, hrest⟩ := List.map_eq_cons_iff.mp hnested
    obtain ⟨⟨_, more⟩, rfl, rfl⟩ := List.map_eq_singleton_iff.mp hrest
    exact placeNested_two hcallback hsite hreceiver hother codes more

end

end Pass

end ArrayLoops.Lowering
