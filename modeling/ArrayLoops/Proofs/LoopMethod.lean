import ArrayLoops.Proofs.EmptyReduce

/-!
# The loop and the method

The loop that takes the place of a call of `forEach` is run beside the method. One turn of it does
what the method does for one item, but it makes the call among scopes that the method does not have.
So both end alike if the callback does not notice these scopes and leaves the items of the array alone.
-/

namespace ArrayLoops.Machine

open Lowering (Bindings Code Skeleton)
open ArrayLoops.Tree (Info Node)

/-- A machine with the scopes of another, and as many turns taken. -/
def among (m outer : Machine) : Machine :=
  { m with scopes := outer.scopes, scope := outer.scope, iterations := outer.iterations }

/-- A result that leads to a machine among other scopes. -/
def resultAmong {α β : Type} (outer : Machine) (f : α → β) :
    EStateM.Result Stop Machine α → EStateM.Result Stop Machine β
  | .ok a m => .ok (f a) (m.among outer)
  | .error stop m => .error stop (m.among outer)

section
variable {α β γ : Type} {m outer : Machine} {x : Run β} {g : γ → β} {result : EStateM.Result Stop Machine γ}

theorem bind_among {f : β → Run α} {k : γ → α} (h : x m = resultAmong outer g result)
    (hf : ∀ c m', f (g c) m' = .ok (k c) m') : (x >>= f) m = resultAmong outer k result := by
  cases result with
  | ok c m' => exact (bind_of_ok h).trans (hf c _)
  | error stop m' => exact bind_of_error h

theorem inBlock_among (h : x m.entered = resultAmong outer g result) :
    inBlock x m = resultAmong { outer with scope := m.scope } g result := by
  cases result with
  | ok c m' => exact inBlock_of_ok h
  | error stop m' => exact inBlock_of_error h

end

-- What a callback may rely on: objects, but not scopes.
section
variable {expected : Heap → Prop} {α β : Type}

/-- As long as the objects are as expected, the run does not notice scopes and turns, and it leaves the
objects as expected. -/
def Aside (expected : Heap → Prop) (act : Run α) : Prop :=
  ∀ m, expected m.heap →
    (∀ outer, act (m.among outer) = resultAmong outer id (act m)) ∧ expected (after act m).heap

theorem Aside.bind {x : Run α} {f : α → Run β} (hx : Aside expected x)
    (hf : ∀ m a m', expected m.heap → x m = .ok a m' → Aside expected (f a)) :
    Aside expected (x >>= f) := by
  intro m hm
  obtain ⟨hframed, hkept⟩ := hx m hm
  cases hrun : x m with
  | ok a m' =>
    rw [after, hrun] at hkept
    rw [hrun] at hframed
    obtain ⟨hframed', hkept'⟩ := hf m a m' hm hrun m' hkept
    refine ⟨fun outer => ?_, ?_⟩
    · rw [bind_of_ok hrun, bind_of_ok (hframed outer)]
      exact hframed' outer
    · rw [after, bind_of_ok hrun]
      exact hkept'
  | error stop m' =>
    rw [after, hrun] at hkept
    rw [hrun] at hframed
    refine ⟨fun outer => ?_, ?_⟩
    · rw [bind_of_error hrun, bind_of_error (hframed outer)]
      rfl
    · rw [after, bind_of_error hrun]
      exact hkept

theorem aside_inspect (value : Value) : Aside expected (inspect value) := by
  intro m hm
  cases h : value.inspect? m.heap <;> simp [inspect, convert, among, resultAmong, after, h, hm]

theorem aside_log (this : Value) (args : List Value) : Aside expected (applyBuiltin .log this args) := by
  have hparts : Aside expected (args.mapM inspect) := by
    induction args with
    | nil => exact fun _ hm => ⟨fun _ => rfl, hm⟩
    | cons arg rest ih =>
      rw [List.mapM_cons]
      exact (aside_inspect arg).bind fun _ _ _ _ _ => ih.bind fun _ _ _ _ _ _ hm => ⟨fun _ => rfl, hm⟩
  exact hparts.bind fun _ _ _ _ _ _ hm => ⟨fun _ => rfl, hm⟩

/-- A call of the built-in `log` is such a run. -/
theorem aside_call_log {callee : Value} (this : Value) (args : List Value) (n : Nat)
    (hlog : ∀ heap, expected heap → callee.callable? heap = some (.native .log)) :
    Aside expected (call (n + 1) callee this args) := by
  have hcallable : Aside expected (callable? callee) := fun _ hm => ⟨fun _ => rfl, hm⟩
  refine hcallable.bind fun m function m' hm hrun => ?_
  rw [callable?, hlog m.heap hm] at hrun
  cases hrun
  exact aside_log this args

end

-- The parts of the loop.
section
variable {m : Machine} {info : Info} {nodes : Node → Node} {array : ObjectId} {items : Array Value}
  {properties : Properties} {a i : String}

/-- Numbers are exact as far as an array of the given length needs them. -/
def Counts (length : Nat) : Prop :=
  ¬ Float.ofNat length < Float.ofNat length ∧ ∀ i < length,
    Float.ofNat i < Float.ofNat length ∧ Float.ofNat i + 1.0 = Float.ofNat (i + 1) ∧
      arrayIndex? (Number.text (Float.ofNat i)) = some i

theorem eval_less {x y : Float} {left right : Node} {n : Nat} (hleft : eval n left m = .ok (.number x) m)
    (hright : eval n right m = .ok (.number y) m) :
    ∃ value, eval (n + 1) (.mk info (.binary left (some .less) right)) m = .ok value m ∧
      value.isTruthy = decide (x < y) := by
  refine ⟨_, (bind_of_ok hleft).trans (bind_of_ok hright), ?_⟩
  by_cases h : x < y
  · simp [h, Value.isTruthy]
  · by_cases h' : x == y
    · simp [h, h', Value.isTruthy]
    · simp [h, h', Value.isTruthy]
      split <;> simp

theorem eval_element {x : Float} {k : Nat} {item : Value}
    (harray : m.scopes.lookup m.scope a = some (.object array))
    (hindex : m.scopes.lookup m.scope i = some (.number x))
    (hitems : m.heap[array]? = some ⟨.array items, properties⟩)
    (hkey : arrayIndex? (Number.text x) = some k) (hitem : items[k]? = some item) (n : Nat) :
    eval (n + 2) (Code.node info nodes (.element (.name a) (.name i))) m = .ok item m := by
  have hne : (Number.text x == "length") = false := by
    refine beq_eq_false_iff_ne.mpr fun heq => ?_
    rw [heq] at hkey
    cases hkey.symm.trans (by decide : arrayIndex? "length" = none)
  have hproperty : getProperty (.object array) (Number.text x) m = .ok item m := by
    simp only [getProperty, bind, EStateM.bind, hitems, Option.map_some, Object.find, hne, hkey, hitem]
    rfl
  have hmember : evalMember (recursion (n + 1)) (Code.node info nodes (.element (.name a) (.name i))) m =
      .ok (.object array, Number.text x) m :=
    (bind_of_ok (eval_identifier info harray n)).trans (bind_of_ok (eval_identifier info hindex n))
  exact (bind_of_ok hmember).trans hproperty

end

def visitCall (b : Bindings) : Code :=
  .call (.name b.callback) [.element (.name b.array) (.name b.index), .name b.index, .name b.array]

def visitTest (b : Bindings) : Code := .binary (.name b.index) "<" (.member (.name b.array) "length")

def visitBody (b : Bindings) : Code := .block [.evaluate (visitCall b)]

def visitUpdate (b : Bindings) : Code := .postfixed (.name b.index) "++"

/-- The loop that calls a callback for each item of an array. -/
def visitLoop (b : Bindings) : Code :=
  .loop none (some (visitTest b)) (some (visitUpdate b)) (visitBody b)

/-- The statements that a call of `forEach` without a receiver for its callback is lowered to. -/
theorem build_visiting {b : Bindings} (site : Lowering.CallSite) (hthis : b.this = none) :
    (site.skeleton b).visiting.1.build = .ok [.declare b.array (some (.source site.receiver)),
      .declare b.index (some (.number "0")), .declare b.callback (some (.source site.callback)),
      visitLoop b] := by
  simp only [Skeleton.build, Skeleton.visiting, Skeleton.invoke, Skeleton.declareThis,
    Lowering.CallSite.skeleton, hthis]
  rfl

/-- What the variables of the loop hold in a turn. -/
def held (b : Bindings) (array : ObjectId) (callback : Value) (i : Nat) : List (String × Value) :=
  [(b.array, .object array), (b.callback, callback), (b.index, .number (Float.ofNat i))]

/-- What a turn of the loop finds: its block lies in the scope of its variables. -/
structure AtTurn (b : Bindings) (array : ObjectId) (callback : Value) (home : ScopeId) (i : Nat)
    (m : Machine) : Prop where
  inside : home < m.scope
  block : m.scopes[m.scope]? = some ⟨[], some home, false⟩
  named : ∃ scope, m.scopes[home]? = some scope ∧
    ∀ entry ∈ held b array callback i, scope.get? entry.1 = some ⟨entry.2, true⟩

namespace AtTurn

variable {m m' : Machine} {b : Bindings} {array : ObjectId} {callback : Value} {home : ScopeId} {i : Nat}
  {info : Info} {nodes : Node → Node} (h : AtTurn b array callback home i m)
include h

theorem lookup {name : String} {value : Value} (hmem : (name, value) ∈ held b array callback i) :
    m.scopes.lookup m.scope name = some value := by
  obtain ⟨scope, hhome, hget⟩ := h.named
  obtain ⟨k, hk⟩ := Nat.exists_eq_add_of_lt h.inside
  simp only [Scopes.lookup, Scopes.lookupUp, h.block, Scope.get?, List.lookup_nil]
  rw [hk, Scopes.lookupUp]
  simp only [hhome]
  rw [hget _ hmem]
  rfl

theorem lookup_array : m.scopes.lookup m.scope b.array = some (.object array) := h.lookup (by simp [held])

theorem lookup_index : m.scopes.lookup m.scope b.index = some (.number (Float.ofNat i)) :=
  h.lookup (by simp [held])

theorem of_scopes (hscope : m'.scope = m.scope) (hscopes : m'.scopes = m.scopes) :
    AtTurn b array callback home i m' :=
  ⟨hscope ▸ h.inside, hscope ▸ hscopes ▸ h.block, hscopes ▸ h.named⟩

theorem target_index : target b.index m = .ok (.bound home) m := by
  obtain ⟨scope, hhome, hget⟩ := h.named
  have hindex := hget (b.index, .number (Float.ofNat i)) (by simp [held])
  obtain ⟨k, hk⟩ := Nat.exists_eq_add_of_lt h.inside
  have howner : m.scopes.owner? m.scope b.index = some home := by
    have hempty : Scope.contains ⟨[], some home, false⟩ b.index = false := rfl
    simp only [Scopes.owner?, Scopes.findUp, h.block, hempty]
    rw [hk, Scopes.findUp]
    simp [hhome, Scope.contains, hindex]
  simp only [target, howner, hhome, Option.bind_some, hindex]
  rfl

/-- The update leads to the next turn. -/
theorem update (hnext : Float.ofNat i + 1.0 = Float.ofNat (i + 1))
    (hnames : b.array ≠ b.index ∧ b.callback ≠ b.index) (n : Nat) :
    ∃ value scopes, eval (n + 1) ((visitUpdate b).node info nodes) m = .ok value { m with scopes } ∧
      AtTurn b array callback home (i + 1) { m with scopes } := by
  have hget : (Reference.variable b.index).get m = .ok (.number (Float.ofNat i)) m :=
    lookup_of_some h.lookup_index
  have hput : (Reference.variable b.index).put (.number (Float.ofNat i + 1.0)) m = .ok () _ :=
    bind_of_ok h.target_index
  have hnumber : toNumber (.number (Float.ofNat i)) m = .ok (Float.ofNat i) m := rfl
  have hstep : (Reference.variable b.index).step 1.0 m = .ok (Float.ofNat i, Float.ofNat i + 1.0) _ :=
    (bind_of_ok hget).trans ((bind_of_ok hnumber).trans (bind_of_ok hput))
  refine ⟨_, _, bind_of_ok hstep, ?_⟩
  obtain ⟨scope, hhome, hvariables⟩ := h.named
  refine ⟨h.inside, ?_, scope.declare b.index ⟨.number (Float.ofNat i + 1.0), true⟩, ?_, ?_⟩
  · simp [Scopes.declare, Array.getElem?_modify, Nat.ne_of_lt h.inside, h.block]
  · simp [Scopes.declare, Array.getElem?_modify, hhome]
  · simp only [held, List.forall_mem_cons] at hvariables ⊢
    simp [hvariables, hnames, hnext]

end AtTurn

section
variable {m outer : Machine} {b : Bindings} {array : ObjectId} {callback : Value} {home : ScopeId} {i n : Nat}
  {info : Info} {nodes : Node → Node} {items : Array Value} {item : Value} {properties : Properties}
  {expected : Heap → Prop}

/-- The call for an item, as the method makes it. -/
def visit (n : Nat) (array : ObjectId) (callback item : Value) (i : Nat) : Run Value :=
  call (n + 2) callback .undefined [item, .number (Float.ofNat i), .object array]

theorem eval_visitCall (h : AtTurn b array callback home i m)
    (hitems : m.heap[array]? = some ⟨.array items, properties⟩)
    (hkey : arrayIndex? (Number.text (Float.ofNat i)) = some i) (hitem : items[i]? = some item) (n : Nat) :
    eval (n + 3) ((visitCall b).node info nodes) m.entered = visit n array callback item i m.entered := by
  have harray := lookup_entered h.lookup_array
  have hindex := lookup_entered h.lookup_index
  have hcallback := lookup_entered (h.lookup (by simp [held] : (b.callback, callback) ∈ _))
  have hargs : evalAll (recursion (n + 2)) (Code.nodeList info nodes
      [.element (.name b.array) (.name b.index), .name b.index, .name b.array]) m.entered =
        .ok [item, .number (Float.ofNat i), .object array] m.entered :=
    (bind_of_ok (eval_element harray hindex hitems hkey hitem n)).trans
      ((bind_of_ok (eval_identifier info hindex (n + 1))).trans
        (bind_of_ok (eval_identifier info harray (n + 1))))
  exact (bind_of_ok (eval_identifier info hcallback (n + 1))).trans (bind_of_ok hargs)

/-- The scopes behind a turn: the block of the body is left among them. -/
def behind (outer : Machine) : Machine :=
  { outer with
    scopes := outer.scopes.push ⟨[], some outer.scope, false⟩, iterations := outer.iterations + 1 }

theorem AtTurn.behind (h : AtTurn b array callback home i outer) :
    AtTurn b array callback home i (behind outer) := by
  have hkept : ∀ {id : ScopeId} {s : Scope}, outer.scopes[id]? = some s →
      (Machine.behind outer).scopes[id]? = some s := by
    intro id s hs
    have hlt := (Array.getElem?_eq_some_iff.mp hs).1
    exact (Array.getElem?_push ..).trans ((if_neg (Nat.ne_of_lt hlt)).trans hs)
  obtain ⟨s, hhome, hs⟩ := h.named
  exact ⟨h.inside, hkept h.block, s, hkept hhome, hs⟩

/-- The body ends as the call of the method does, among the scopes of the loop. -/
theorem execBody_among (h : AtTurn b array callback home i outer)
    (hitems : m.heap[array]? = some ⟨.array items, properties⟩)
    (hkey : arrayIndex? (Number.text (Float.ofNat i)) = some i) (hitem : items[i]? = some item)
    (hroom : outer.iterations < maxIterations) (hheap : expected m.heap)
    (hact : Aside expected (visit n array callback item i)) :
    execBody (recursion (n + 5)) ((visitBody b).node info nodes) (m.among outer) =
      resultAmong (behind outer) (fun _ => none) (visit n array callback item i m) := by
  let counted : Machine := { outer with iterations := outer.iterations + 1 }
  have hcounted : countIteration (m.among outer) = .ok () (m.among counted) :=
    if_neg (Nat.not_lt.mpr hroom)
  have hcall := @eval_visitCall (m.among counted) _ _ _ _ _ info nodes _ _ _ (h.of_scopes rfl rfl) hitems
    hkey hitem n
  rw [show (m.among counted).entered = m.among counted.entered from rfl, (hact m hheap).1] at hcall
  let statement := Code.node info nodes (.evaluate (visitCall b))
  have hhoist : hoist [statement] (m.among counted.entered) = .ok () (m.among counted.entered) := rfl
  have hexec : exec (n + 4) statement (m.among counted.entered) =
      resultAmong counted.entered (fun _ => .finished) (visit n array callback item i m) :=
    bind_among hcall fun _ _ => rfl
  have hall : execAll (recursion (n + 4)) [statement] (m.among counted).entered =
      resultAmong counted.entered (fun _ => .finished) (visit n array callback item i m) :=
    (bind_of_ok hhoist).trans (bind_among hexec fun _ _ => rfl)
  exact (bind_of_ok hcounted).trans (bind_among (inBlock_among hall) fun _ _ => rfl)

theorem holds_test (h : AtTurn b array callback home i m)
    (hitems : m.heap[array]? = some ⟨.array items, properties⟩) (n : Nat) :
    holds (recursion (n + 3)) ((visitTest b).node info nodes) m =
      .ok (decide (Float.ofNat i < Float.ofNat items.size)) m := by
  obtain ⟨value, hvalue, htruthy⟩ := @eval_less m info _ _ _ _ _ (eval_identifier info h.lookup_index (n + 1))
    (eval_length h.lookup_array hitems n)
  rw [← htruthy]
  exact bind_of_ok hvalue

/-- The turns of the loop. -/
def turns (n : Nat) (info : Info) (nodes : Node → Node) (b : Bindings) (count : Nat) : Run Completion :=
  execTurns (recursion (n + 5)) (holds (recursion (n + 5)) ((visitTest b).node info nodes))
    ((visitBody b).node info nodes) ((visitUpdate b).node info nodes) count

/-- The calls of the method, from some item on. -/
def visits (n : Nat) (array : ObjectId) (callback : Value) (left i : Nat) : Run Unit :=
  iterate (call (n + 2)) array (.object array) callback .undefined (fun _ _ _ _ => ((), true)) left i ()

/-- The loop ends as the method does, in a machine with the same objects and the same log. -/
def EndsAs {α : Type} (loop : EStateM.Result Stop Machine Completion)
    (method : EStateM.Result Stop Machine α) : Prop :=
  ∃ outer, loop = resultAmong outer (fun _ => .finished) method

/-- From some item on, the loop ends as the method does. -/
theorem turns_endAs_visits (hcounts : Counts items.size)
    (hitems : ∀ heap, expected heap → ∃ properties, heap[array]? = some ⟨.array items, properties⟩)
    (hact : ∀ args, Aside expected (call (n + 2) callback .undefined args))
    (hnames : b.array ≠ b.index ∧ b.callback ≠ b.index) {left count : Nat} (hleft : i + left = items.size)
    (hcount : left < count) (hroom : outer.iterations + left ≤ maxIterations)
    (h : AtTurn b array callback home i outer) (hheap : expected m.heap) :
    EndsAs (turns n info nodes b count (m.among outer)) (visits n array callback left i m) := by
  -- Objects and log are those of the method after each turn; the scopes only grow.
  obtain ⟨count, rfl⟩ := Nat.exists_eq_succ_of_ne_zero (Nat.ne_zero_of_lt hcount)
  induction left generalizing i count m outer with
  | zero =>
    obtain ⟨properties, hfound⟩ := hitems m.heap hheap
    have htest := @holds_test (m.among outer) _ _ _ _ _ info nodes _ _ (h.of_scopes rfl rfl) hfound (n + 2)
    rw [show i = items.size from hleft, decide_eq_false hcounts.1] at htest
    exact ⟨outer, bind_of_ok htest⟩
  | succ left ih =>
    obtain ⟨properties, hfound⟩ := hitems m.heap hheap
    have hlt : i < items.size := by omega
    obtain ⟨hless, hnext, hkey⟩ := hcounts.2 i hlt
    have hitem : items[i]? = some items[i] := Array.getElem?_eq_getElem hlt
    have htest := @holds_test (m.among outer) _ _ _ _ _ info nodes _ _ (h.of_scopes rfl rfl) hfound (n + 2)
    rw [decide_eq_true hless] at htest
    have hbody := @execBody_among m outer _ _ _ _ _ n info nodes _ _ _ _ h hfound hkey hitem (by omega) hheap
      (hact _)
    have hat : itemAt array i m = .ok (some items[i]) m := by
      simp only [itemAt, hfound, hitem]
    cases hrun : visit n array callback items[i] i m with
    | error stop m₁ =>
      rw [hrun] at hbody
      have hmethod : visits n array callback (left + 1) i m = .error stop m₁ :=
        (bind_of_ok hat).trans (bind_of_error hrun)
      rw [hmethod]
      exact ⟨behind outer, (bind_of_ok htest).trans (bind_of_error hbody)⟩
    | ok value m₁ =>
      rw [hrun] at hbody
      have hmethod : visits n array callback (left + 1) i m = visits n array callback left (i + 1) m₁ :=
        (bind_of_ok hat).trans (bind_of_ok hrun)
      have hkept : expected (after (visit n array callback items[i] i) m).heap := (hact _ m hheap).2
      rw [after, hrun] at hkept
      obtain ⟨old, scopes, hupdate, hturn⟩ := @AtTurn.update (m₁.among (behind outer)) _ _ _ _ _ info nodes
        (h.behind.of_scopes rfl rfl) hnext hnames (n + 4)
      obtain ⟨count, rfl⟩ := Nat.exists_eq_succ_of_ne_zero (show count ≠ 0 by omega)
      have hloop : turns n info nodes b (count + 2) (m.among outer) =
          turns n info nodes b (count + 1) (m₁.among { behind outer with scopes }) :=
        (bind_of_ok htest).trans ((bind_of_ok hbody).trans (bind_of_ok hupdate))
      rw [hmethod, hloop]
      exact ih (by omega) (show outer.iterations + 1 + left ≤ maxIterations by omega)
        (hturn.of_scopes rfl rfl) hkept count (by omega)

theorem forEach_eq_visits (hitems : m.heap[array]? = some ⟨.array items, properties⟩)
    (hfunction : (callback.callable? m.heap).isSome) :
    iterateArray (call (n + 2)) .forEach (.object array) [callback] m =
      (visits n array callback items.size 0 >>= fun _ => return .undefined) m :=
  (bind_of_ok (thisArray_of_array hitems _)).trans
    ((bind_of_ok (callbackOf_callable hfunction)).trans (bind_of_ok (lengthOf_array hitems)))

/-- The loop that takes the place of a call of `forEach` ends as the method does, with the same objects
and the same log, if the callback does not notice the scopes and turns of the loop and leaves the items of
the array alone. -/
theorem visitLoop_endsAs_forEach {scope : Scope} (hscope : m.scopes[m.scope]? = some scope)
    (hheld : ∀ entry ∈ held b array callback 0, scope.get? entry.1 = some ⟨entry.2, true⟩)
    (hnames : b.array ≠ b.index ∧ b.callback ≠ b.index)
    (hitems : ∀ heap, expected heap → ∃ properties, heap[array]? = some ⟨.array items, properties⟩)
    (hcounts : Counts items.size) (hroom : m.iterations + items.size ≤ maxIterations)
    (hfunction : (callback.callable? m.heap).isSome)
    (hact : ∀ args, Aside expected (call (n + 2) callback .undefined args)) (hheap : expected m.heap) :
    EndsAs (exec (n + 6) ((visitLoop b).node info nodes) m)
      (iterateArray (call (n + 2)) .forEach (.object array) [callback] m) := by
  have hlt : m.scope < m.scopes.size := (Array.getElem?_eq_some_iff.mp hscope).1
  have hkept : m.entered.scopes[m.scope]? = some scope :=
    (Array.getElem?_push ..).trans ((if_neg (Nat.ne_of_lt hlt)).trans hscope)
  have hturn : AtTurn b array callback m.scope 0 m.entered :=
    ⟨hlt, Array.getElem?_push_size, scope, hkept, hheld⟩
  have hbound : items.size < turnBound := by
    unfold turnBound
    omega
  obtain ⟨outer, hloop⟩ := @turns_endAs_visits m m.entered _ _ _ _ _ n info nodes _ _ hcounts hitems hact
    hnames items.size turnBound (Nat.zero_add _) hbound hroom hturn hheap
  have habsent : eval (n + 5) .absent m.entered = .ok .undefined m.entered := rfl
  have hfor : execFor (recursion (n + 5)) .absent ((visitTest b).node info nodes)
      ((visitUpdate b).node info nodes) ((visitBody b).node info nodes) m.entered =
        turns n info nodes b turnBound (m.among m.entered) := bind_of_ok habsent
  obtain ⟨properties, hfound⟩ := hitems m.heap hheap
  refine ⟨{ outer with scope := m.scope }, (inBlock_among (hfor.trans hloop)).trans ?_⟩
  rw [forEach_eq_visits hfound hfunction]
  cases hrun : visits n array callback items.size 0 m with
  | ok _ m' =>
    rw [bind_of_ok hrun]
    rfl
  | error stop m' =>
    rw [bind_of_error hrun]
    rfl

/-- If the callback is the built-in `log`, this is so for every array. -/
theorem visitLoop_endsAs_forEach_log {scope : Scope} (hscope : m.scopes[m.scope]? = some scope)
    (hheld : ∀ entry ∈ held b array callback 0, scope.get? entry.1 = some ⟨entry.2, true⟩)
    (hnames : b.array ≠ b.index ∧ b.callback ≠ b.index)
    (hitems : m.heap[array]? = some ⟨.array items, properties⟩) (hcounts : Counts items.size)
    (hroom : m.iterations + items.size ≤ maxIterations)
    (hlog : callback.callable? m.heap = some (.native .log)) :
    EndsAs (exec (n + 6) ((visitLoop b).node info nodes) m)
      (iterateArray (call (n + 2)) .forEach (.object array) [callback] m) := by
  let expected (heap : Heap) : Prop :=
    heap[array]? = some ⟨.array items, properties⟩ ∧ callback.callable? heap = some (.native .log)
  have hact (args : List Value) : Aside expected (call (n + 2) callback .undefined args) :=
    aside_call_log .undefined args (n + 1) fun _ h => h.2
  exact visitLoop_endsAs_forEach hscope hheld hnames (fun _ h => ⟨properties, h.1⟩) hcounts hroom
    (by rw [hlog]; rfl) hact ⟨hitems, hlog⟩

end

/-- A program finds three items under the name `_a` and the built-in `log` under the name `_f`. -/
def logging : Machine :=
  after (do
    declare "_a" (← allocate (.ofItems #[.null, .boolean true, .string "x"])) true
    declare "_f" (.object 0) true
    declare "_i" (.number (Float.ofNat 0)) true) start

example : EndsAs (exec 6 ((visitLoop ⟨"_a", "_i", "_f", none⟩).node ⟨0, 0, 0, {}⟩ id) logging)
    (iterateArray (call 2) .forEach (.object 6) [.object 0] logging) := by
  refine visitLoop_endsAs_forEach_log rfl ?_ (by decide) rfl ?_ (by decide) rfl
  · simp only [held, List.forall_mem_cons]
    exact ⟨rfl, rfl, rfl, List.forall_mem_nil _⟩
  · unfold Counts
    decide +kernel

end ArrayLoops.Machine
