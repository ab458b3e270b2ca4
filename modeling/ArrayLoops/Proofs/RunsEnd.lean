import ArrayLoops.Program
import ArrayLoops.Proofs.ParsedStatements
import ArrayLoops.Proofs.ParsedTree
import ArrayLoops.Proofs.Steps
import Mathlib.Data.List.Perm.Subperm
import Mathlib.Logic.Relation

/-!
# Runs come to an end

Steps of a run are never nested so deep that the bound is met: whatever is put in the place of deeper
steps, a run does the same. Between two calls of functions of the program steps follow the tree. A
built-in function calls others, but only the one that calls its receiver can do so again and again,
and it uses up an argument each time. The open functions of the program are counted by the machine.

A conversion to a text comes to an end, too, unless an object holds itself.
-/

namespace ArrayLoops.Machine

open ArrayLoops.Tree (Info Node Shape)

/-- The machine with something else in the place of steps that are nested deeper than `n`. -/
def atop (deeper : Recursion Run) : Nat → Recursion Run
  | 0 => deeper
  | n + 1 => ⟨evalStep (atop deeper n), execStep (atop deeper n), callStep (atop deeper n)⟩

section
variable {α β : Type} {made : Node → Prop} {m : Machine} {x y : Run α} {f g : α → Run β}

/-- From the machine both runs do the same, and what runs of a program do. -/
def AlikeFrom (made : Node → Prop) (m : Machine) (x y : Run α) : Prop :=
  y m = x m ∧ Follows made m (after x m)

theorem AlikeFrom.lift (act : Run α) [h : Keeps made act] : AlikeFrom made m act act :=
  ⟨rfl, h.keeps m⟩

theorem AlikeFrom.bind (h : AlikeFrom made m x y)
    (hf : ∀ a m', x m = .ok a m' → Follows made m m' → AlikeFrom made m' (f a) (g a)) :
    AlikeFrom made m (x >>= f) (y >>= g) := by
  obtain ⟨heq, hfollows⟩ := h
  rw [after] at hfollows
  rw [AlikeFrom, after_bind]
  simp only [Bind.bind, EStateM.bind, heq]
  cases hx : x m with
  | ok a m' =>
    rw [hx] at hfollows
    obtain ⟨heq', hfollows'⟩ := hf a m' hx hfollows
    exact ⟨heq', hfollows.trans hfollows'⟩
  | error stop m' =>
    rw [hx] at hfollows
    exact ⟨rfl, hfollows⟩

end

/-- Runs that do the same while `depth` functions of the program are open. -/
def alike (made : Node → Prop) (depth : Nat) : Agreement Run Run where
  rel x y := ∀ m : Machine, m.depth = depth → m.heap.MadeOf made → AlikeFrom made m x y
  made := made
  pure a _ _ _ := .lift (pure a)
  bind hx hf m hdepth hheap := (hx m hdepth hheap).bind fun a m' _ hfollows =>
    hf a m' (hfollows.depth.trans hdepth) (hfollows.heap hheap)
  lift act := fun [Keeps made act] _ _ _ => .lift act
  inBlock {_ x y} h m hdepth hheap := by
    obtain ⟨heq, hfollows⟩ := h m.entered hdepth hheap
    refine ⟨?_, hfollows.inBlock⟩
    simp only [entered] at heq
    simp only [Stepping.inBlock, inBlock, heq]
  initialise _ hx m hdepth hheap :=
    (hx m hdepth hheap).bind fun value _ _ _ => .lift (initialise _ value)

section
variable {made : Node → Prop} {depth : Nat} {r s : Recursion Run}

/-- As many arguments are passed as there are nodes for them. -/
theorem alike_evalAll {β : Type} {nodes : List Node} {f g : List Value → Run β}
    (h : ∀ node ∈ nodes, (alike made depth).rel (r.eval node) (s.eval node))
    (hf : ∀ args : List Value, args.length = nodes.length → (alike made depth).rel (f args) (g args)) :
    (alike made depth).rel (evalAll r nodes >>= f) (evalAll s nodes >>= g) := by
  induction nodes generalizing f g with
  | nil => simpa [evalAll] using hf [] rfl
  | cons node rest ih =>
    simp only [evalAll, List.mapM_cons, bind_assoc, pure_bind]
    refine (alike made depth).bind (h node List.mem_cons_self) fun value => ?_
    refine ih (fun other ho => h other (List.mem_cons_of_mem _ ho)) fun args hargs => ?_
    exact hf _ (congrArg (· + 1) hargs)

def isReference : Value → Bool
  | .object _ => true
  | _ => false

theorem thisArray_ok {this : Value} {method : String} {m m' : Machine} {id : ObjectId}
    (h : thisArray this method m = .ok id m') : isReference this := by
  cases this with
  | object => rfl
  | _ => cases h

theorem callbackOf_ok {args : List Value} {callback : Value} {m m' : Machine}
    (h : callbackOf args m = .ok callback m') :
    callback = args.headD .undefined ∧ isReference callback := by
  have hcallable : ∀ value, (value.callable? m.heap).isSome → isReference value := by
    intro value hvalue
    cases value with
    | object => rfl
    | _ => cases hvalue
  simp only [callbackOf, bind, EStateM.bind, callable?] at h
  cases hfound : (args.headD .undefined).callable? m.heap with
  | some found =>
    rw [hfound] at h
    cases h
    exact ⟨rfl, hcallable _ (by rw [hfound]; rfl)⟩
  | none =>
    rw [hfound] at h
    dsimp only [EStateM.bind] at h
    split at h <;> cases h

/-- Before an array method calls anything, it has found out that it can. -/
theorem alike_callback {β : Type} {this : Value} {method : String} {args : List Value}
    {f g : ObjectId → Value → Run β}
    (h : isReference this → isReference (args.headD .undefined) → ∀ id,
      (alike made depth).rel (f id (args.headD .undefined)) (g id (args.headD .undefined))) :
    (alike made depth).rel (thisArray this method >>= fun id => callbackOf args >>= f id)
      (thisArray this method >>= fun id => callbackOf args >>= g id) := by
  intro m hdepth hheap
  refine .bind (.lift (thisArray this method)) fun id m₁ hid hfollows₁ => ?_
  refine .bind (.lift (callbackOf args)) fun callback m₂ hfound hfollows₂ => ?_
  obtain ⟨rfl, hcallback⟩ := callbackOf_ok hfound
  have hfollows := hfollows₁.trans hfollows₂
  exact h (thisArray_ok hid) hcallback id m₂ (hfollows.depth.trans hdepth) (hfollows.heap hheap)

end

section
variable (deeper : Recursion Run) (made : Node → Prop) (depth : Nat)

def CallAlike (n : Nat) (callee this : Value) (args : List Value) : Prop :=
  (alike made depth).rel (call n callee this args) ((atop deeper n).call callee this args)

/-- What an array method calls with its callback. -/
structure VisitsAlike (n : Nat) (this : Value) (args : List Value) : Prop where
  item : ∀ item x, CallAlike deeper made depth n (args.headD .undefined)
    ((args[1]?).getD .undefined) [item, .number x, this]
  accumulated : ∀ given, CallAlike deeper made depth n (args.headD .undefined) .undefined given

/-- Functions of the program run alike if no more than `least` levels are the machine's own. -/
def ClosuresAlike (least : Nat) : Prop :=
  ∀ n, least ≤ n → ∀ (closure : Closure) this args, made closure.function →
    (alike made depth).rel (callClosure (recursion n) closure this args)
      (callClosure (atop deeper n) closure this args)

end

section
variable {deeper : Recursion Run} {made : Node → Prop} {depth least n : Nat} {callee this : Value}
  {args : List Value}

theorem alike_callBuiltin (builtin : Builtin)
    (hcall : CallAlike deeper made depth n this (args.headD .undefined) args.tail)
    (hvisits : isReference this → isReference (args.headD .undefined) →
      VisitsAlike deeper made depth n this args) :
    (alike made depth).rel (callBuiltin (call n) builtin this args)
      (callBuiltin (atop deeper n).call builtin this args) := by
  unfold callBuiltin
  split
  · exact hcall
  · refine alike_callback fun hthis hcallback id => ?_
    have hvisit := (hvisits hthis hcallback).accumulated
    refine (alike made depth).bind ((alike made depth).lift _) fun length => ?_
    split
    · exact Agreement.reduceFrom hvisit _ _ _
    · refine (alike made depth).bind ((alike made depth).lift _) fun first => ?_
      split
      · exact Agreement.reduceFrom hvisit _ _ _
      · exact (alike made depth).lift _
  · refine alike_callback fun hthis hcallback id => ?_
    have hvisit := (hvisits hthis hcallback).item
    refine (alike made depth).bind ((alike made depth).lift _) fun length => ?_
    split
    · exact (alike made depth).bind (Agreement.iterate hvisit _ _ _) fun _ => (alike made depth).lift _
    · exact (alike made depth).bind (Agreement.iterate hvisit _ _ _) fun _ => (alike made depth).lift _
    all_goals exact (alike made depth).bind (Agreement.iterate hvisit _ _ _) fun _ =>
      (alike made depth).pure _
  · exact (alike made depth).lift _

variable (hclosures : ClosuresAlike deeper made depth least)
include hclosures

theorem alike_call (hn : 0 < n)
    (h : isReference callee → least < n ∧
      CallAlike deeper made depth (n - 1) this (args.headD .undefined) args.tail ∧
      (isReference this → isReference (args.headD .undefined) →
        VisitsAlike deeper made depth (n - 1) this args)) :
    CallAlike deeper made depth n callee this args := by
  obtain ⟨n, rfl⟩ := Nat.exists_eq_succ_of_ne_zero (Nat.ne_of_gt hn)
  intro m hdepth hheap
  refine .bind (.lift (callable? callee)) fun callable m' hok _ => ?_
  cases hok
  cases callee with
  | object id =>
    obtain ⟨hleast, hcall, hvisits⟩ := h rfl
    split
    · exact alike_callBuiltin _ hcall hvisits m hdepth hheap
    · rename_i closure hfound
      -- A function on the heap was made of a node of the program.
      refine hclosures n (Nat.le_of_lt_succ hleast) closure this args ?_ m hdepth hheap
      simp only [Value.callable?] at hfound
      split at hfound
      · cases hfound
        exact hheap _ _ _ ‹_› rfl
      · cases hfound
    · exact .bind (.lift (inspect _)) fun _ _ _ _ => .lift (raise _ _)
  | _ => exact .bind (.lift (inspect _)) fun _ _ _ _ => .lift (raise _ _)

variable (hleast : 0 < least)
include hleast

/-- With a receiver that is no object, a built-in function calls nothing that could be called. -/
theorem alike_call_of_value (hthis : isReference this = false) (hn : least < n) :
    CallAlike deeper made depth n callee this args :=
  alike_call hclosures (by omega) fun _ =>
    ⟨hn, alike_call hclosures (by omega) (by simp [hthis]), by simp [hthis]⟩

theorem alike_call_of_head (hhead : isReference (args.headD .undefined) = false)
    (hn : least + 1 < n) : CallAlike deeper made depth n callee this args :=
  alike_call hclosures (by omega) fun _ =>
    ⟨by omega, alike_call_of_value hclosures hleast hhead (by omega), fun _ hitem =>
      nomatch hhead.symm.trans hitem⟩

/-- An array method passes a number behind the element, which ends a chain of calls. -/
theorem alike_call_item {item receiver : Value} {x : Float} (hn : least + 2 < n) :
    CallAlike deeper made depth n callee this [item, .number x, receiver] := by
  refine alike_call hclosures (by omega) fun _ => ⟨by omega, ?_, fun _ _ => ⟨fun _ _ => ?_, fun _ => ?_⟩⟩
  · exact alike_call_of_head hclosures hleast rfl (by omega)
  · exact alike_call_of_value hclosures hleast rfl (by omega)
  · exact alike_call_of_value hclosures hleast rfl (by omega)

/-- A call is nested no deeper than it has arguments, but for the functions of the program in it. -/
theorem alike_call_args (hn : least + 3 + args.length < n) :
    CallAlike deeper made depth n callee this args := by
  induction args generalizing n callee this with
  | nil => exact alike_call_of_head hclosures hleast rfl (by omega)
  | cons first rest ih =>
    rw [List.length_cons] at hn
    refine alike_call hclosures (by omega) fun _ =>
      ⟨by omega, ih (by omega), fun _ _ => ⟨fun _ _ => ?_, fun _ => ?_⟩⟩
    · exact alike_call_item hclosures hleast (by omega)
    · exact alike_call_of_value hclosures hleast rfl (by omega)

end

/-- The tree has at most `size` nodes, and no call in it has more arguments. -/
structure Fits (size : Nat) (node : Node) : Prop where
  nodes : node.ids.length ≤ size
  arguments : ∀ info isNew callee isListed arguments,
    Node.Within (.mk info (.call isNew callee isListed arguments)) node → arguments.length ≤ size

theorem length_ids_part {info : Info} {shape : Shape Node} {part : Node} (h : part ∈ shape.parts) :
    part.ids.length < (Node.mk info shape).ids.length := by
  rw [Node.ids_mk, List.length_cons, List.flatMap_def]
  exact Nat.lt_succ_of_le (List.sublist_flatten_of_mem (List.mem_map_of_mem h)).length_le

theorem length_ids_within {inner node : Node} (h : inner.Within node) :
    inner.ids.length ≤ node.ids.length := by
  induction h with
  | self => exact Nat.le_refl _
  | part hp _ ih => exact Nat.le_trans ih (Nat.le_of_lt (length_ids_part hp))

theorem Fits.within {size : Nat} {inner node : Node} (h : Fits size node) (hw : inner.Within node) :
    Fits size inner where
  nodes := Nat.le_trans (length_ids_within hw) h.nodes
  arguments _ _ _ _ _ hc := h.arguments _ _ _ _ _ (hc.trans hw)

/-- Within a function of the program the machine goes through the node alike. -/
structure NodeAlike (deeper : Recursion Run) (size depth n : Nat) (node : Node) : Prop where
  eval : (alike (Fits size) depth).rel (eval n node) ((atop deeper n).eval node)
  exec : (alike (Fits size) depth).rel (exec n node) ((atop deeper n).exec node)

section
variable {deeper : Recursion Run} {size depth least n : Nat} {node : Node}

theorem alike_evalStep (hfits : Fits size node)
    (hparts : ∀ part ∈ node.parts,
      (alike (Fits size) depth).OnExpressions (recursion n) (atop deeper n) part)
    (hcall : isCall node → ∀ callee this (args : List Value), args.length ≤ size →
      CallAlike deeper (Fits size) depth n callee this args) :
    (alike (Fits size) depth).rel (evalStep (recursion n) node) (evalStep (atop deeper n) node) := by
  by_cases hnode : isCall node
  · unfold isCall at hnode
    split at hnode
    · rename_i info isNew callee isListed arguments
      have hcallee := hparts callee (by simp [Node.parts, Shape.parts])
      have harguments : ∀ node ∈ arguments,
          (alike (Fits size) depth).rel (eval n node) ((atop deeper n).eval node) :=
        fun node hn => (hparts node (by simp [Node.parts, Shape.parts, hn])).self
      have hpassed : ∀ callee this (args : List Value), args.length = arguments.length →
          CallAlike deeper (Fits size) depth n callee this args :=
        fun _ _ _ hargs => hcall rfl _ _ _ (hargs ▸ hfits.arguments _ _ _ _ _ .self)
      cases isNew with
      | false => exact Agreement.evalCall hcallee fun _ _ => alike_evalAll harguments (hpassed _ _)
      | true =>
        refine (alike (Fits size) depth).bind hcallee.self fun function => ?_
        refine alike_evalAll harguments fun args hargs => ?_
        exact Agreement.construct fun this => hpassed _ _ _ hargs
    · cases hnode
  · exact Agreement.evalStep hfits hparts fun h => absurd h hnode

/-- Steps follow the tree down to a call, and then the calls that built-in functions make. -/
theorem alike_tree (hclosures : ClosuresAlike deeper (Fits size) depth least) (hleast : 0 < least)
    (hfits : Fits size node) (hn : node.ids.length + least + 4 + size ≤ n) :
    NodeAlike deeper size depth n node := by
  induction n generalizing node with
  | zero => omega
  | succ n ih =>
    have hinner : ∀ part ∈ node.parts, ∀ inner : Node, inner.Within part →
        NodeAlike deeper size depth n inner := by
      intro part hp inner hw
      have hlength := length_ids_within hw
      have hless : part.ids.length < node.ids.length := by
        cases node with
        | absent => cases hp
        | mk => exact length_ids_part hp
      -- A part has fewer nodes, which pays for the level.
      exact ih (hfits.within (hw.trans (.of_part hp))) (by omega)
    refine ⟨alike_evalStep hfits (fun part hp inner hw => (hinner part hp inner hw).eval) ?_, ?_⟩
    · intro hnode callee this args hargs
      have hpos : 0 < node.ids.length := by
        cases node with
        | absent => cases hnode
        | mk => simp
      exact alike_call_args hclosures hleast (by omega)
    · exact Agreement.execStep (fun part hp inner hw => (hinner part hp inner hw).eval)
        (fun part hp => hfits.within (.of_part (nested_subset node hp)))
        (fun part hp => (hinner part (nested_subset node hp) part .self).exec) fun _ _ _ _ => trivial

theorem alike_inFrame {α : Type} {made : Node → Prop} {x y : Run α}
    (h : depth < maxCallDepth → (alike made (depth + 1)).rel x y) (outer : ScopeId) (this : Value) :
    (alike made depth).rel (withRoom (Calling.inFrame outer this x))
      (withRoom (Calling.inFrame outer this y)) := by
  intro m hdepth hheap
  refine .bind (.lift get) fun m' _ hok _ => ?_
  cases hok
  by_cases hroom : maxCallDepth ≤ m.depth
  · rw [if_pos hroom, if_pos hroom]
    exact .lift (raise _ _)
  · rw [if_neg hroom, if_neg hroom]
    obtain ⟨heq, hfollows⟩ := h (hdepth ▸ Nat.lt_of_not_le hroom) (m.framed outer this)
      (congrArg (· + 1) hdepth) hheap
    refine ⟨?_, hfollows.inFrame⟩
    simp only [framed] at heq
    simp only [Calling.inFrame, inFrame, heq]

/-- The induction is on the number of functions that may still be opened: the body of one is gone
through alike because there is room for one less in it. -/
theorem closures_alike (deeper : Recursion Run) (size : Nat) {count : Nat}
    (h : maxCallDepth ≤ depth + count) :
    ClosuresAlike deeper (Fits size) depth (1 + count * (2 * size + 4)) := by
  induction count generalizing depth with
  | zero =>
    -- There is no room for another function of the program.
    intro n _ closure this args _
    unfold callClosure
    split
    · exact Agreement.withRoom ((alike _ depth).pure _)
    · exact alike_inFrame (fun hroom => by omega) _ _
    · exact Agreement.withRoom ((alike _ depth).lift _)
  | succ count ih =>
    have hclosures : ClosuresAlike deeper (Fits size) (depth + 1) _ := ih (by omega)
    intro n hn closure this args hfits
    rw [Nat.succ_mul] at hn
    have htree : ∀ {inner : Node}, inner.Within closure.function →
        NodeAlike deeper size (depth + 1) n inner := by
      intro inner hw
      have hlength := (hfits.within hw).nodes
      exact alike_tree hclosures (by omega) (hfits.within hw) (by omega)
    unfold callClosure
    split
    · exact Agreement.withRoom ((alike _ depth).pure _)
    · rename_i info form name parameters body hfunction
      rw [hfunction] at htree hfits
      refine alike_inFrame (fun _ => ?_) _ _
      refine (alike _ (depth + 1)).bind
        (Agreement.bindParameters fun parameter hp inner hw => ?_) fun _ => ?_
      · exact (htree (hw.trans (.of_part (by simp [Node.parts, Shape.parts, hp])))).eval
      · have hbody : body.Within (.mk info (.function form name parameters body)) :=
          .of_part (by simp [Node.parts, Shape.parts])
        unfold runBody
        refine Agreement.ite (htree hbody).eval ?_
        split
        · rename_i statements
          have hstatement : ∀ statement ∈ statements, Node.Within statement _ :=
            fun statement hs => (Node.Within.of_part hs).trans hbody
          refine (alike _ (depth + 1)).bind (Agreement.execAll
            (fun statement hs => hfits.within (hstatement statement hs))
            fun statement hs => (htree (hstatement statement hs)).exec) fun completion => ?_
          split <;> exact (alike _ (depth + 1)).pure _
        · exact (alike _ (depth + 1)).pure _
    · exact Agreement.withRoom ((alike _ depth).lift _)

end

/-- No call in a file has more arguments than there are nodes, since arguments are not left out. -/
theorem fits_parse {name text : String} (h : (parse name text).complaints = []) :
    Fits (parse name text).arena.size (parse name text).root := by
  have hids : (parse name text).root.ids.length = (parse name text).arena.size := by
    simpa using (parse_forest name text).ids.length_eq
  obtain ⟨id, fin, statements, hroot, hstatements⟩ := Grammar.parse_statements h
  have hfile : Grammar.IsFile true (parse name text).root := ⟨id, fin, name, statements, hroot, hstatements⟩
  refine ⟨Nat.le_of_eq hids, fun info isNew callee isListed arguments hw => ?_⟩
  have hpresent : ∀ argument ∈ arguments, argument.isPresent := by
    obtain heq | hphrase := hfile.within hw rfl
    · rw [hroot] at heq
      cases heq
    · exact hphrase.call.2
  have hlength : arguments.length ≤ (arguments.flatMap Node.ids).length := by
    clear hw
    induction arguments with
    | nil => exact Nat.le_refl _
    | cons argument rest ih =>
      rw [List.forall_mem_cons] at hpresent
      obtain ⟨id, hid⟩ := Node.exists_id hpresent.1
      have := List.length_pos_of_mem (Node.id?_mem_ids hid)
      have := ih hpresent.2
      simp only [List.flatMap_cons, List.length_append, List.length_cons]
      omega
  have hinside := length_ids_within hw
  simp only [Node.ids_mk, Shape.parts, List.flatMap_cons, List.length_cons, List.length_append] at hinside
  omega

/-- The text of the object is made of the text of the other. -/
def Holds (heap : Heap) (id other : ObjectId) : Prop :=
  ∃ held, heap[id]? = some held ∧ match held.kind with
    | .array items => .object other ∈ items.toList
    | .error => ∃ key, held.properties.lookup key = some (.object other)
    | _ => False

theorem exists_of_mapM_eq_none {α β : Type} {f : α → Option β} {list : List α}
    (h : list.mapM f = none) : ∃ a ∈ list, f a = none := by
  induction list with
  | nil => cases h
  | cons a rest ih =>
    simp only [List.mapM_cons, Option.bind_eq_bind, Option.bind_eq_none_iff] at h
    cases ha : f a with
    | none => exact ⟨a, List.mem_cons_self, ha⟩
    | some b =>
      have hrest : rest.mapM f = none :=
        Option.eq_none_iff_forall_ne_some.mpr fun found hfound => nomatch h b ha found hfound
      obtain ⟨a', ha', hnone⟩ := ih hrest
      exact ⟨a', List.mem_cons_of_mem _ ha', hnone⟩

theorem exists_of_summary_eq_none {display : Value → Option String} {properties : Properties}
    (h : properties.summary display = none) :
    ∃ key value, properties.lookup key = some value ∧ display value = none := by
  by_contra hall
  push Not at hall
  have hfield : ∀ key, properties.lookup key = none ∨
      ∃ value text, properties.lookup key = some value ∧ display value = some text := by
    intro key
    cases hkey : properties.lookup key with
    | none => exact .inl rfl
    | some value =>
      obtain ⟨text, htext⟩ := Option.ne_none_iff_exists'.mp (hall key value hkey)
      exact .inr ⟨value, text, rfl, htext⟩
  obtain hname | ⟨name, _, hname, hnameText⟩ := hfield "name" <;>
    obtain hmessage | ⟨message, _, hmessage, hmessageText⟩ := hfield "message" <;>
    simp [Properties.summary, *] at h

/-- A value whose text has no end leads from object to object, to one that is not there or on and on. -/
theorem chain_of_displayWithin_eq_none {heap : Heap} {n : Nat} {value : Value}
    (h : value.displayWithin heap n = none) :
    ∃ id path, value = .object id ∧ List.IsChain (Holds heap) (id :: path) ∧
      (path.length = n ∨ ∃ last ∈ id :: path, heap[last]? = none) := by
  induction n generalizing value with
  | zero =>
    cases value with
    | object id => exact ⟨id, [], rfl, .singleton id, .inl rfl⟩
    | _ => cases h
  | succ n ih =>
    cases value with
    | object id =>
      cases hid : heap[id]? with
      | none => exact ⟨id, [], rfl, .singleton id, .inr ⟨id, List.mem_cons_self, hid⟩⟩
      | some held =>
        -- One of the texts that the text of the object is made of has no end.
        obtain ⟨item, hitem, hholds⟩ : ∃ item : Value, item.displayWithin heap n = none ∧
            ∀ other, item = .object other → Holds heap id other := by
          simp only [Value.displayWithin, hid] at h
          cases hkind : held.kind with
          | array items =>
            simp only [hkind, Option.bind_eq_bind, Option.bind_eq_none_iff] at h
            obtain ⟨item, hmem, hitem⟩ := exists_of_mapM_eq_none
              (Option.eq_none_iff_forall_ne_some.mpr fun parts hparts => nomatch h parts hparts)
            split at hitem
            · cases hitem
            · refine ⟨item, hitem, fun other hother => ⟨held, hid, ?_⟩⟩
              rw [hkind]
              exact hother ▸ hmem
          | error =>
            simp only [hkind] at h
            obtain ⟨key, item, hkey, hitem⟩ := exists_of_summary_eq_none h
            refine ⟨item, hitem, fun other hother => ⟨held, hid, ?_⟩⟩
            rw [hkind]
            exact ⟨key, hother ▸ hkey⟩
          | _ => simp [hkind] at h
        obtain ⟨other, path, rfl, hchain, hend⟩ := ih hitem
        refine ⟨id, other :: path, rfl, .cons_cons (hholds other rfl) hchain, ?_⟩
        obtain hlength | ⟨last, hlast, hnone⟩ := hend
        · exact .inl (congrArg (· + 1) hlength)
        · exact .inr ⟨last, List.mem_cons_of_mem _ hlast, hnone⟩
    | _ => cases h

/-- Only so many objects can follow one another without one that comes twice. -/
theorem holds_itself_of_display?_eq_none {heap : Heap} {value : Value}
    (h : value.display? heap = none) :
    ∃ first id, value = .object first ∧ Relation.ReflTransGen (Holds heap) first id ∧
      (heap[id]? = none ∨ Relation.TransGen (Holds heap) id id) := by
  obtain ⟨first, path, rfl, hchain, hend⟩ := chain_of_displayWithin_eq_none h
  have hpairwise : (first :: path).Pairwise (Relation.TransGen (Holds heap)) :=
    (hchain.imp fun _ _ hholds => .single hholds).pairwise
  have hreached : ∀ id ∈ first :: path, Relation.ReflTransGen (Holds heap) first id := by
    intro id hid
    obtain rfl | hid := List.mem_cons.mp hid
    · exact .refl
    · exact (List.rel_of_pairwise_cons hpairwise hid).to_reflTransGen
  by_contra hall
  push Not at hall
  have hall := fun id hid => hall first id rfl (hreached id hid)
  obtain hlength | ⟨last, hlast, hnone⟩ := hend
  · have hnodup : (first :: path).Nodup := by
      refine hpairwise.imp_of_mem fun {id other} hid _ hholds heq => ?_
      subst heq
      exact (hall id hid).2 hholds
    have hsubset : first :: path ⊆ List.range heap.size := by
      intro id hid
      obtain ⟨held, hheld⟩ := Option.ne_none_iff_exists'.mp (hall id hid).1
      exact List.mem_range.mpr (Array.getElem?_eq_some_iff.mp hheld).1
    -- Without a repetition the path would name more objects than there are.
    have hle := (hnodup.subperm hsubset).length_le
    simp only [List.length_cons, List.length_range] at hle
    omega
  · exact (hall last hlast).1 hnone

/-- The run that `runSource` observes, on a machine with as many levels as the program is given. -/
def runOn (machine : Nat → Recursion Run) (source : String) :
    EStateM.Result Stop Machine Completion :=
  let parsed := parse programName source
  execAll (machine (depthFor parsed.arena.size)) (Program.statements parsed.root) start

/-- Steps of a program without syntax errors are never nested so deep that the bound is met: whatever
is done in the place of deeper ones, it runs the same. A conversion comes to an end as well unless
it comes to an object that holds itself, or to none. -/
theorem run_ends {source : String} (h : (parse programName source).complaints = []) :
    (∀ deeper : Recursion Run, runOn (atop deeper) source = runOn recursion source) ∧
    ∀ (heap : Heap) (value : Value), value.display? heap = none →
      ∃ first id, value = .object first ∧ Relation.ReflTransGen (Holds heap) first id ∧
        (heap[id]? = none ∨ Relation.TransGen (Holds heap) id id) := by
  refine ⟨fun deeper => ?_, fun _ _ => holds_itself_of_display?_eq_none⟩
  have hfits := fits_parse h
  obtain ⟨id, fin, statements, hroot, -⟩ := Grammar.parse_statements h
  simp only [runOn, hroot] at hfits ⊢
  generalize (parse programName source).arena.size = size at hfits ⊢
  have hclosures := closures_alike deeper size (Nat.le_add_left maxCallDepth 0)
  have hstatement : ∀ statement ∈ statements, Fits size statement := fun statement hs =>
    hfits.within (.of_part hs)
  have hrun : (alike (Fits size) 0).rel (execAll (recursion (depthFor size)) statements)
      (execAll (atop deeper (depthFor size)) statements) := by
    refine Agreement.execAll hstatement fun statement hs => ?_
    refine (alike_tree hclosures (by omega) (hstatement statement hs) ?_).exec
    -- The levels are enough for all functions that may be open at once.
    have hnodes := (hstatement statement hs).nodes
    simp only [depthFor, maxCallDepth]
    omega
  exact (hrun start rfl (madeOf_start _)).1

def endlessCalls : String := "function f() \x7b return f(); \x7d f();"

theorem run_ends_of_endless_calls : (parse programName endlessCalls).complaints = [] ∧
    ∀ deeper : Recursion Run, runOn (atop deeper) endlessCalls = runOn recursion endlessCalls :=
  have hclean : (parse programName endlessCalls).complaints = [] := by decide +kernel
  ⟨hclean, (run_ends hclean).1⟩

/-- A run that converts an array that holds itself is given up. -/
theorem run_of_array_in_itself :
    (parse programName "var a = []; a.push(a); result = a.join();").complaints = [] ∧
      runSource "var a = []; a.push(a); result = a.join();" = .error (.failure .stuck) := by
  decide +kernel

end ArrayLoops.Machine
