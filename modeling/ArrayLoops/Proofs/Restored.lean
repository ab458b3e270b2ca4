import ArrayLoops.Proofs.Steps

/-!
# Contexts are restored

Whatever is evaluated, run or called, and however that ends, the machine is back in its context.
`context_restored_and_calls_bounded` says so, and that never more functions of the program are open
than may be. For that a run is taken with a trace of all machines it goes through; the steps are
those of the machine itself, taken in another monad.
-/

namespace ArrayLoops.Machine

open ArrayLoops.Tree (Node)

def staying : CallAgreement Run Run where
  rel x _ := Keeps (fun _ => True) x
  pure _ := inferInstance
  bind := Keeps.bind
  lift _ := fun [h : Keeps _ _] => h
  inBlock h := ⟨fun m => (h.keeps m.entered).inBlock⟩
  initialise _ h := h.bind fun _ => inferInstanceAs (Keeps _ (initialise _ _))
  inFrame h := .bind (inferInstanceAs (Keeps _ get)) fun m => by
    split
    · exact inferInstanceAs (Keeps _ (raise _ _))
    · exact ⟨fun m => (h.keeps _).inFrame⟩

theorem recursion_stays (n : Nat) : staying.Everywhere (recursion n) (recursion n) := by
  induction n with
  | zero => exact ⟨fun _ => ⟨.refl⟩, fun _ => ⟨.refl⟩, fun _ _ _ => ⟨.refl⟩⟩
  | succ n ih => exact ih.step

structure Trace where
  machine : Machine
  past : List Machine

namespace Trace

def next (t : Trace) (m : Machine) : Trace := ⟨m, t.machine :: t.past⟩

def machines (t : Trace) : List Machine := t.machine :: t.past

def Shallow (t : Trace) : Prop := ∀ m ∈ t.machines, m.depth ≤ maxCallDepth

theorem Shallow.next {t : Trace} {m : Machine} (h : t.Shallow) (hm : m.depth ≤ maxCallDepth) :
    (t.next m).Shallow :=
  List.forall_mem_cons.mpr ⟨hm, h⟩

theorem Shallow.depth_le {t : Trace} (h : t.Shallow) : t.machine.depth ≤ maxCallDepth :=
  h _ List.mem_cons_self

end Trace

abbrev Traced := EStateM Stop Trace

namespace Traced

variable {α β : Type}

/-- Takes a run between two changes of the machine, one on the way in and one on the way out. The
latter sees the machine from before the first. -/
def passing (enter : Machine → Machine) (leave : Machine → Machine → Machine) (x : Traced α) :
    Traced α := fun t =>
  match x (t.next (enter t.machine)) with
  | .ok a t' => .ok a (t'.next (leave t.machine t'.machine))
  | .error stop t' => .error stop (t'.next (leave t.machine t'.machine))

def noted (t : Trace) : EStateM.Result Stop Machine α → EStateM.Result Stop Trace α
  | .ok a m => .ok a (t.next m)
  | .error stop m => .error stop (t.next m)

instance : Calling Traced where
  monadLift act := fun t => noted t (act t.machine)
  inBlock := passing
    (fun m => { m with
      scope := (m.scopes.child m.scope false).1, scopes := (m.scopes.child m.scope false).2 })
    fun m m' => { m' with scope := m.scope }
  inFrame outer this := passing
    (fun m => { m with
      scope := (m.scopes.child outer true).1, scopes := (m.scopes.child outer true).2, this,
      depth := m.depth + 1 })
    fun m m' => { m' with scope := m.scope, this := m.this, depth := m'.depth - 1 }

def untraced : EStateM.Result Stop Trace α → EStateM.Result Stop Machine α
  | .ok a t => .ok a t.machine
  | .error stop t => .error stop t.machine

def trace : EStateM.Result Stop Trace α → Trace
  | .ok _ t | .error _ t => t

end Traced

def tracing : Nat → Recursion Traced
  | 0 => ⟨fun _ => fail .stuck, fun _ => fail .stuck, fun _ _ _ => fail .stuck⟩
  | n + 1 => ⟨evalStep (tracing n), execStep (tracing n), callStep (tracing n)⟩

section
variable {α β : Type}

def Traces (x : Traced α) (run : Run α) : Prop := ∀ t, Traced.untraced (x t) = run t.machine

theorem Traces.bind {x : Traced α} {run : Run α} {f : α → Traced β} {g : α → Run β}
    (h : Traces x run) (hf : ∀ a, Traces (f a) (g a)) : Traces (x >>= f) (run >>= g) := by
  intro t
  have hx := h t
  simp only [Bind.bind, EStateM.bind]
  cases hresult : x t with
  | ok a t' =>
    rw [hresult, Traced.untraced] at hx
    rw [← hx]
    exact hf a t'
  | error stop t' =>
    rw [hresult, Traced.untraced] at hx
    rw [← hx]
    rfl

theorem Traces.inBlock {x : Traced α} {run : Run α} (h : Traces x run) :
    Traces (Stepping.inBlock x) (inBlock run) := by
  intro t
  have hx := h (t.next { t.machine with
    scope := (t.machine.scopes.child t.machine.scope false).1
    scopes := (t.machine.scopes.child t.machine.scope false).2 })
  simp only [Trace.next] at hx
  simp only [Stepping.inBlock, Traced.passing, Machine.inBlock, Trace.next, ← hx]
  cases x _ <;> rfl

theorem Traces.inFrame {outer : ScopeId} {this : Value} {x : Traced α} {run : Run α}
    (h : Traces x run) : Traces (Calling.inFrame outer this x) (inFrame outer this run) := by
  intro t
  have hx := h (t.next { t.machine with
    scope := (t.machine.scopes.child outer true).1
    scopes := (t.machine.scopes.child outer true).2
    this, depth := t.machine.depth + 1 })
  simp only [Trace.next] at hx
  simp only [Calling.inFrame, Traced.passing, Machine.inFrame, Trace.next, ← hx]
  cases x _ <;> rfl

theorem Traces.lift (act : Run α) : Traces (liftM act) act := by
  intro t
  show Traced.untraced (Traced.noted t (act t.machine)) = act t.machine
  cases act t.machine <;> rfl

end

def untracing : CallAgreement Traced Run where
  rel := Traces
  pure _ _ := rfl
  bind := Traces.bind
  lift act := Traces.lift act
  inBlock := Traces.inBlock
  initialise _ h := h.bind fun _ => .lift _
  inFrame h := .bind (.lift _) fun m => by
    split
    · exact .lift _
    · exact h.inFrame

theorem tracing_traces (n : Nat) : untracing.Everywhere (tracing n) (recursion n) := by
  induction n with
  | zero => exact ⟨fun _ _ => rfl, fun _ _ => rfl, fun _ _ _ _ => rfl⟩
  | succ n ih => exact ih.step

section
variable {α β : Type}

def KeepsShallow (x : Traced α) : Prop := ∀ t : Trace, t.Shallow → (Traced.trace (x t)).Shallow

theorem KeepsShallow.bind {x : Traced α} {f : α → Traced β} (h : KeepsShallow x)
    (hf : ∀ a, KeepsShallow (f a)) : KeepsShallow (x >>= f) := by
  intro t ht
  have hx := h t ht
  simp only [Bind.bind, EStateM.bind]
  cases hresult : x t with
  | ok a t' =>
    rw [hresult] at hx
    exact hf a t' hx
  | error stop t' =>
    rw [hresult] at hx
    exact hx

theorem KeepsShallow.lift (act : Run α) [h : Keeps (fun _ => True) act] : KeepsShallow (liftM act) := by
  intro t ht
  have hdepth := (h.stays t.machine).depth
  show (Traced.trace (Traced.noted t (act t.machine))).Shallow
  rw [after] at hdepth
  cases hresult : act t.machine with
  | ok a m =>
    rw [hresult] at hdepth
    exact ht.next (hdepth ▸ ht.depth_le)
  | error stop m =>
    rw [hresult] at hdepth
    exact ht.next (hdepth ▸ ht.depth_le)

theorem KeepsShallow.passing {enter : Machine → Machine} {leave : Machine → Machine → Machine}
    {x : Traced α} {t : Trace} (h : KeepsShallow x) (ht : t.Shallow)
    (henter : (enter t.machine).depth ≤ maxCallDepth)
    (hleave : ∀ m, (leave t.machine m).depth ≤ m.depth) :
    (Traced.trace (Traced.passing enter leave x t)).Shallow := by
  have hinner := h _ (ht.next henter)
  unfold Traced.passing
  split
  all_goals
    rename_i heq
    rw [heq] at hinner
    exact Trace.Shallow.next hinner (Nat.le_trans (hleave _) hinner.depth_le)

theorem KeepsShallow.inFrame {outer : ScopeId} {this : Value} {x : Traced α} (h : KeepsShallow x) :
    KeepsShallow (withRoom (Calling.inFrame outer this x)) := by
  intro t ht
  show (Traced.trace ((if maxCallDepth ≤ t.machine.depth then _ else _ : Traced α)
    (t.next t.machine))).Shallow
  have hnext := ht.next ht.depth_le
  split
  · exact KeepsShallow.lift _ _ hnext
  · next hroom =>
    exact h.passing hnext (Nat.lt_of_not_le hroom) fun m => Nat.sub_le _ _

end

def shallow : CallAgreement Traced Traced where
  rel x _ := KeepsShallow x
  pure _ _ ht := ht
  bind := KeepsShallow.bind
  lift act := KeepsShallow.lift act
  inBlock h _ ht := h.passing ht ht.depth_le fun _ => Nat.le_refl _
  initialise _ h := h.bind fun _ => .lift _
  inFrame := KeepsShallow.inFrame

theorem tracing_shallow (n : Nat) : shallow.Everywhere (tracing n) (tracing n) := by
  induction n with
  | zero => exact ⟨fun _ => .lift _, fun _ => .lift _, fun _ _ _ => .lift _⟩
  | succ n ih => exact ih.step

theorem shallow_start : Trace.Shallow ⟨start, []⟩ := by
  intro m hm
  obtain rfl := List.mem_singleton.mp hm
  exact Nat.zero_le _

/-- Evaluating, running, calling and constructing bring the machine back to its context, and in a
run of a program no machine is gone through that has too many open functions. -/
theorem context_restored_and_calls_bounded (n : Nat) :
    (∀ node m, SameContext m (after (eval n node) m)) ∧
    (∀ node m, SameContext m (after (exec n node) m)) ∧
    (∀ statements m, SameContext m (after (execAll (recursion n) statements) m)) ∧
    (∀ callee this args m, SameContext m (after (call n callee this args) m)) ∧
    (∀ callee args m, SameContext m (after (construct (recursion n) callee args) m)) ∧
    ∀ statements,
      Traced.untraced (execAll (tracing n) statements ⟨start, []⟩) =
          execAll (recursion n) statements start ∧
        ∀ m ∈ (Traced.trace (execAll (tracing n) statements ⟨start, []⟩)).machines,
          m.depth ≤ maxCallDepth := by
  have hstays := recursion_stays n
  refine ⟨fun node => (hstays.eval node).stays, fun node => (hstays.exec node).stays,
    fun statements => ?_, fun callee this args => (hstays.call callee this args).stays,
    fun callee args => ?_, fun statements => ⟨?_, ?_⟩⟩
  · exact (Agreement.execAll (C := staying.toAgreement) (fun _ _ => trivial)
      fun node _ => hstays.exec node).stays
  · exact (Agreement.construct (C := staying.toAgreement) fun this => hstays.call callee this args).stays
  · exact Agreement.execAll (C := untracing.toAgreement) (fun _ _ => trivial)
      (fun node _ => (tracing_traces n).exec node) ⟨start, []⟩
  · exact Agreement.execAll (C := shallow.toAgreement) (fun _ _ => trivial)
      (fun node _ => (tracing_shallow n).exec node) _ shallow_start

end ArrayLoops.Machine
