import ArrayLoops.Lowering.Lowered
import ArrayLoops.Proofs.Application
import ArrayLoops.Proofs.Steps

/-!
# Reducing an empty array

An empty array without an initial value is rejected by generated code, which makes the error by the
name `TypeError`. It is the error that the method raises if the name leads to the built-in function,
and another one if it leads to something that is no function.
-/

namespace ArrayLoops.Machine

open Lowering (Code Skeleton emptyReduceMessage startAccumulator)
open ArrayLoops.Tree (Info Node)

section
variable {α β : Type} {m m' : Machine} {x : Run α} {f : α → Run β} {a : α} {stop : Stop}

theorem bind_of_ok (h : x m = .ok a m') : (x >>= f) m = f a m' := by
  simp only [bind, EStateM.bind, h]

theorem bind_of_error (h : x m = .error stop m') : (x >>= f) m = .error stop m' := by
  simp only [bind, EStateM.bind, h]

theorem inBlock_of_ok (h : x m.entered = .ok a m') :
    inBlock x m = .ok a { m' with scope := m.scope } := by
  have hinside : x { m with
      scope := m.scopes.size, scopes := m.scopes.push ⟨[], some m.scope, false⟩ } = .ok a m' := h
  simp only [inBlock, Scopes.child, hinside]

theorem inBlock_of_error (h : x m.entered = .error stop m') :
    inBlock x m = .error stop { m' with scope := m.scope } := by
  have hinside : x { m with
      scope := m.scopes.size, scopes := m.scopes.push ⟨[], some m.scope, false⟩ } = .error stop m' := h
  simp only [inBlock, Scopes.child, hinside]

end

section
variable {m : Machine} {value : Value} {name : String}

/-- What is found in a scope is found from every scope that is put into it later. -/
theorem lookupUp_push {scopes : Scopes} {scope : Scope} {id : ScopeId} {n k : Nat} {binding : Binding}
    (h : scopes.lookupUp name n id = some binding) (hk : n ≤ k) :
    Scopes.lookupUp (scopes.push scope) name k id = some binding := by
  induction n generalizing id k with
  | zero => cases h
  | succ n ih =>
    obtain ⟨k, rfl⟩ := Nat.exists_eq_add_of_le' (Nat.lt_of_lt_of_le n.succ_pos hk)
    rw [Scopes.lookupUp] at h ⊢
    cases hid : scopes[id]? with
    | none => simp [hid] at h
    | some found =>
      obtain ⟨hlt, hfound⟩ := Array.getElem?_eq_some_iff.mp hid
      rw [Array.getElem?_push, if_neg (Nat.ne_of_lt hlt)]
      simp only [hid] at h ⊢
      cases hget : found.get? name with
      | some binding => simpa only [hget] using h
      | none =>
        simp only [hget] at h ⊢
        cases hparent : found.parent with
        | none => simp [hparent] at h
        | some parent =>
          simp only [hparent] at h ⊢
          exact ih h (by omega)

theorem lookup_entered (h : m.scopes.lookup m.scope name = some value) :
    m.entered.scopes.lookup m.entered.scope name = some value := by
  obtain ⟨binding, hbinding, rfl⟩ := Option.map_eq_some_iff.mp h
  have hlt : m.scope < m.scopes.size := by
    refine Nat.lt_of_not_le fun hle => ?_
    rw [Scopes.lookupUp, Array.getElem?_eq_none hle] at hbinding
    cases hbinding
  have hup : Scopes.lookupUp (m.scopes.push ⟨[], some m.scope, false⟩) name m.scopes.size m.scope = _ :=
    lookupUp_push hbinding hlt
  simp only [entered, Scopes.child, Scopes.lookup]
  rw [Scopes.lookupUp, Array.getElem?_push_size]
  exact congrArg _ hup

theorem lookup_of_some (h : m.scopes.lookup m.scope name = some value) :
    lookup name m = .ok value m := by
  have hfound : lookup? name m = .ok (some value) m := by
    simp only [lookup?, h]
  rw [lookup, bind_of_ok hfound]
  rfl

theorem inspect?_ofError (heap : Heap) (kind : ErrorClass) {message : String}
    (hmessage : message.isEmpty = false) :
    (Value.object heap.size).inspect? (heap.push (.ofError kind message)) =
      some (kind.name ++ ": " ++ message) := by
  simp only [Value.inspect?, Value.inspectNested?, Array.getElem?_push_size]
  show some (if message.isEmpty then _ else _) = _
  rw [hmessage]
  rfl

theorem raise_eq {α : Type} (kind : ErrorClass) (message : String) (m : Machine) :
    (raise kind message : Run α) m =
      .error (.thrown (.object m.heap.size)) { m with heap := m.heap.push (.ofError kind message) } :=
  rfl

/-- What a run throws, as it is shown, and what is logged until then. -/
def thrownBy {α : Type} (act : Run α) (m : Machine) : Option (String × List String) :=
  match act m with
  | .error (.thrown value) m' => (value.inspect? m'.heap).map (·, m'.log)
  | _ => none

theorem thrownBy_eq {α : Type} {act : Run α} {m' : Machine} {text : String}
    (h : act m = .error (.thrown value) m') (hshown : value.inspect? m'.heap = some text) :
    thrownBy act m = some (text, m'.log) := by
  simp only [thrownBy, h, hshown, Option.map_some]

end

section
variable {m : Machine} {k : Skeleton} {info : Info} {nodes : Node → Node} {array : ObjectId}
  {properties : Properties} {callback value : Value} {result : String} {rest : List Node}

/-- The error that generated code makes for an empty array. -/
def emptyError : Code := .new (.name "TypeError") [.string emptyReduceMessage]

theorem eval_identifier (info : Info) {name : String} (h : m.scopes.lookup m.scope name = some value)
    (n : Nat) :
    eval (n + 1) (.mk info (.identifier name)) m = .ok value m :=
  lookup_of_some h

theorem eval_length {name : String} {items : Array Value}
    (harray : m.scopes.lookup m.scope name = some (.object array))
    (hitems : m.heap[array]? = some ⟨.array items, properties⟩) (n : Nat) :
    eval (n + 2) (Code.node info nodes (.member (.name name) "length")) m =
      .ok (.number (Float.ofNat items.size)) m := by
  have hproperty : getProperty (.object array) "length" m = .ok (.number (Float.ofNat items.size)) m := by
    simp only [getProperty, bind, EStateM.bind, hitems]
    rfl
  have hmember : evalMember (recursion (n + 1)) (Code.node info nodes (.member (.name name) "length")) m =
      .ok (.object array, "length") m := bind_of_ok (eval_identifier info harray n)
  exact (bind_of_ok hmember).trans hproperty

theorem eval_emptyError (info : Info) (nodes : Node → Node)
    (h : m.scopes.lookup m.scope "TypeError" = some value) (n : Nat) :
    eval (n + 2) (emptyError.node info nodes) m =
      construct (recursion (n + 1)) value [.string emptyReduceMessage] m :=
  bind_of_ok (eval_identifier info h n)

/-- The condition under which the error is made. -/
def isEmpty (k : Skeleton) : Code := .binary (.member k.arrayName "length") "===" (.number "0")

theorem eval_isEmpty (harray : m.scopes.lookup m.scope k.bindings.array = some (.object array))
    (hitems : m.heap[array]? = some ⟨.array #[], properties⟩) (n : Nat) :
    eval (n + 3) ((isEmpty k).node info nodes) m = .ok (.boolean true) m := by
  have hzero : eval (n + 2) (Code.numeral info "0") m = .ok (.number (Float.ofNat 0)) m := by
    rfl
  have hsame : (Float.ofNat 0 == Float.ofNat 0) = true := by decide +kernel
  refine (bind_of_ok (eval_length harray hitems n)).trans ((bind_of_ok hzero).trans ?_)
  exact congrArg (fun b => EStateM.Result.ok (Value.boolean b) m) hsame

/-- Generated code goes on as what is thrown in a block. -/
theorem execInOrder_guard (harray : m.scopes.lookup m.scope k.bindings.array = some (.object array))
    (hitems : m.heap[array]? = some ⟨.array #[], properties⟩)
    (hvalue : m.scopes.lookup m.scope "TypeError" = some value) {n : Nat} {later : Machine} {thrown : Value}
    (hthrown : (construct (recursion (n + 1)) value [.string emptyReduceMessage] >>= fun error =>
      (throw (.thrown error) : Run Completion)) m.entered = .error (.thrown thrown) later) :
    execInOrder (recursion (n + 5)) (Code.nodeList info nodes (startAccumulator k result none) ++ rest) m =
      .error (.thrown thrown) { later with scope := m.scope } := by
  have hexit : exec (n + 3) ((Code.throw emptyError).node info nodes) m.entered =
      .error (.thrown thrown) later := by
    -- The block has a scope of its own, where the name leads to the same value.
    have heval := eval_emptyError info nodes (lookup_entered hvalue) n
    rw [← hthrown]
    show (eval (n + 2) (emptyError.node info nodes) >>= fun error => (throw (.thrown error) : Run Completion)) _ = _
    simp only [bind, EStateM.bind, heval]
  have hblock : exec (n + 4) (.mk info (.block [(Code.throw emptyError).node info nodes])) m =
      .error (.thrown thrown) { later with scope := m.scope } := by
    have hall : execAll (recursion (n + 3)) [(Code.throw emptyError).node info nodes] m.entered =
        .error (.thrown thrown) later := by
      have hhoist : hoist [(Code.throw emptyError).node info nodes] m.entered = .ok () m.entered := rfl
      exact (bind_of_ok hhoist).trans (bind_of_error hexit)
    exact inBlock_of_error hall
  exact bind_of_error ((bind_of_ok (eval_isEmpty harray hitems (n + 1))).trans hblock)

theorem thisArray_of_array {items : Array Value} (hitems : m.heap[array]? = some ⟨.array items, properties⟩)
    (method : String) : thisArray (.object array) method m = .ok array m := by
  have hget : (get : Run Machine) m = .ok m m := rfl
  refine (bind_of_ok hget).trans ?_
  simp only [Value.arrayId?, hitems]
  rfl

theorem callbackOf_callable (hcallback : (callback.callable? m.heap).isSome) :
    callbackOf [callback] m = .ok callback m := by
  obtain ⟨function, hfunction⟩ := Option.isSome_iff_exists.mp hcallback
  have hcallable : callable? callback m = .ok (some function) m := by
    simp only [callable?, hfunction]
  exact bind_of_ok hcallable

theorem lengthOf_array {items : Array Value} (hitems : m.heap[array]? = some ⟨.array items, properties⟩) :
    lengthOf array m = .ok items.size m := by
  simp only [lengthOf, hitems]

theorem reduceArray_empty (call : Call Run) (hitems : m.heap[array]? = some ⟨.array #[], properties⟩)
    (hcallback : (callback.callable? m.heap).isSome) :
    reduceArray call (.object array) [callback] m = raise .typeError emptyReduceMessage m := by
  have hfirst : itemAt array 0 m = .ok none m := by
    simp only [itemAt, hitems]
    rfl
  exact (bind_of_ok (thisArray_of_array hitems _)).trans ((bind_of_ok (callbackOf_callable hcallback)).trans
    ((bind_of_ok (lengthOf_array hitems)).trans (bind_of_ok hfirst)))

theorem message_nonempty (shown : String) : (shown ++ " is not a constructor").isEmpty = false := by
  simp [String.isEmpty_eq_false_iff]

/-- An empty array without an initial value is rejected by generated code as by the method, with an
error that is shown the same, if `TypeError` leads to the built-in function. If it leads to something
that is no function, the error is shown otherwise. -/
theorem empty_reduce_rejected_alike
    (harray : m.scopes.lookup m.scope k.bindings.array = some (.object array))
    (hitems : m.heap[array]? = some ⟨.array #[], properties⟩)
    (hcallback : (callback.callable? m.heap).isSome)
    (hvalue : m.scopes.lookup m.scope "TypeError" = some value) (call : Call Run) (n : Nat) :
    thrownBy (reduceArray call (.object array) [callback]) m =
        some ("TypeError: " ++ emptyReduceMessage, m.log) ∧
      (value.callable? m.heap = some (.native (.makeError .typeError)) →
        thrownBy (execInOrder (recursion (n + 5))
            (Code.nodeList info nodes (startAccumulator k result none) ++ rest)) m =
          thrownBy (reduceArray call (.object array) [callback]) m) ∧
      (value.callable? m.heap = none → ∀ shown, value.inspect? m.heap = some shown →
        thrownBy (execInOrder (recursion (n + 5))
            (Code.nodeList info nodes (startAccumulator k result none) ++ rest)) m =
          some ("TypeError: " ++ (shown ++ " is not a constructor"), m.log)) := by
  have hempty := inspect?_ofError m.heap .typeError (rfl : emptyReduceMessage.isEmpty = false)
  have hraised := thrownBy_eq ((reduceArray_empty call hitems hcallback).trans (raise_eq _ _ m)) hempty
  refine ⟨hraised, fun hbuiltin => ?_, fun hnone shown hshown => ?_⟩
  · have hcallable : callable? value m.entered = .ok (some (.native (.makeError .typeError))) m.entered :=
      congrArg (EStateM.Result.ok · m.entered) hbuiltin
    have hcall : Machine.call (n + 1) value .undefined [.string emptyReduceMessage] m.entered =
        .ok (.object m.heap.size)
          { m.entered with heap := m.heap.push (.ofError .typeError emptyReduceMessage) } :=
      bind_of_ok hcallable
    have hmade : construct (recursion (n + 1)) value [.string emptyReduceMessage] m.entered = _ :=
      (bind_of_ok hcallable).trans hcall
    exact (thrownBy_eq (execInOrder_guard harray hitems hvalue (bind_of_ok hmade)) hempty).trans
      hraised.symm
  · have hcallable : callable? value m.entered = .ok none m.entered :=
      congrArg (EStateM.Result.ok · m.entered) hnone
    have hinspect : inspect value m.entered = .ok shown m.entered := by
      simp only [inspect, convert, show value.inspect? m.entered.heap = some shown from hshown]
    have hfailed : construct (recursion (n + 1)) value [.string emptyReduceMessage] m.entered = _ :=
      (bind_of_ok hcallable).trans ((bind_of_ok hinspect).trans (raise_eq .typeError _ _))
    have hshow := inspect?_ofError m.heap .typeError (message_nonempty shown)
    exact (thrownBy_eq (execInOrder_guard harray hitems hvalue (bind_of_error hfailed)) hshow).trans rfl

end

/-- A program finds an empty array under the name `_a`, and the value under the other name. -/
def withEmptyArray (name : String) (value : Value) : Machine :=
  after (do
    declare "_a" (← allocate (.ofItems #[])) true
    declare name value true) start

def reduceLoop : Skeleton where
  operation := .reduce
  bindings := ⟨"_a", "_i", "_f", none⟩
  array := .array []
  callback := .name "log"
  this := none

theorem empty_reduce_rejected_alike_log :
    thrownBy (execInOrder (recursion 5)
        (Code.nodeList ⟨0, 0, 0, {}⟩ id (startAccumulator reduceLoop "_acc" none) ++ []))
        (withEmptyArray "x" .null) =
      thrownBy (reduceArray (call 0) (.object 6) [.object 0]) (withEmptyArray "x" .null) :=
  (@empty_reduce_rejected_alike (withEmptyArray "x" .null) reduceLoop ⟨0, 0, 0, {}⟩ id 6 [] (.object 0)
    (.object 4) "_acc" [] rfl rfl rfl rfl (call 0) 0).2.1 rfl

theorem empty_reduce_rejected_otherwise :
    thrownBy (reduceArray (call 0) (.object 6) [.object 0]) (withEmptyArray "TypeError" .null) =
        some ("TypeError: Reduce of empty array with no initial value", []) ∧
      thrownBy (execInOrder (recursion 5)
          (Code.nodeList ⟨0, 0, 0, {}⟩ id (startAccumulator reduceLoop "_acc" none)))
          (withEmptyArray "TypeError" .null) =
        some ("TypeError: null is not a constructor", []) := by
  decide +kernel

end ArrayLoops.Machine
