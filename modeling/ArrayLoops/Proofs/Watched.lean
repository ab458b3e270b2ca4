import ArrayLoops.Machine.Call
import ArrayLoops.Proofs.Steps

/-!
# Watched runs

A watched run does what the run does and tells in order which expressions are evaluated and which
statements are run. What the functions do that are called meanwhile is not told. The steps are those
of the machine itself, taken in another monad; `watchExec_outcome` says that watching changes
nothing, and `watchExec_subject` that all that is told is about nodes in the statement.
-/

namespace ArrayLoops.Machine

open ArrayLoops.Tree (Node NodeId)

inductive Event where
  /-- The evaluation of an expression begins. -/
  | asked (id : NodeId)
  /-- The evaluation of an expression ends with a value. -/
  | answered (id : NodeId)
  /-- A statement is begun. -/
  | ran (id : NodeId)
  deriving DecidableEq, Repr

namespace Event

def subject : Event → NodeId
  | .asked id | .answered id | .ran id => id

def isRan : Event → Bool
  | .ran _ => true
  | _ => false

end Event

def Watched (α : Type) : Type := Machine → List Event × EStateM.Result Stop Machine α

namespace Watched

variable {α β : Type}

instance : Monad Watched where
  pure a := fun m => ([], .ok a m)
  bind x f := fun m =>
    match x m with
    | (events, .ok a m) => (events ++ (f a m).1, (f a m).2)
    | (events, .error stop m) => (events, .error stop m)

def outcome (x : Watched α) : Run α := fun m => (x m).2

def events (x : Watched α) (m : Machine) : List Event := (x m).1

instance : Stepping Watched where
  monadLift act := fun m => ([], act m)
  inBlock x := fun m =>
    let (scope, scopes) := m.scopes.child m.scope false
    (x.events { m with scope, scopes }, inBlock x.outcome m)

def tell (event : NodeId → Event) (node : Node) : Watched Unit :=
  fun m => (node.id?.toList.map event, .ok () m)

@[simp] theorem events_pure (a : α) (m : Machine) : (pure a : Watched α).events m = [] := rfl

@[simp] theorem outcome_pure (a : α) : (pure a : Watched α).outcome = pure a := rfl

@[simp] theorem events_lift (act : Run α) (m : Machine) :
    (liftM act : Watched α).events m = [] := rfl

@[simp] theorem outcome_lift (act : Run α) : (liftM act : Watched α).outcome = act := rfl

@[simp] theorem events_tell (event : NodeId → Event) (node : Node) (m : Machine) :
    (tell event node).events m = node.id?.toList.map event := rfl

@[simp] theorem outcome_tell (event : NodeId → Event) (node : Node) :
    (tell event node).outcome = pure () := rfl

section
variable {x : Watched α} {f : α → Watched β} {m m' : Machine} {a : α} {stop : Stop}

theorem bind_ok (h : x.outcome m = .ok a m') :
    (x >>= f) m = (x.events m ++ (f a).events m', (f a).outcome m') := by
  show (match x m with | (_, .ok a m) => _ | (_, .error stop m) => _ : _ × _) = _
  simp only [outcome] at h
  split <;> simp_all [events, outcome]

theorem bind_error (h : x.outcome m = .error stop m') :
    (x >>= f) m = (x.events m, .error stop m') := by
  show (match x m with | (_, .ok a m) => _ | (_, .error stop m) => _ : _ × _) = _
  simp only [outcome] at h
  split <;> simp_all [events]

theorem events_bind_ok (h : x.outcome m = .ok a m') :
    (x >>= f).events m = x.events m ++ (f a).events m' := by
  rw [events, bind_ok h]

theorem events_bind_error (h : x.outcome m = .error stop m') :
    (x >>= f).events m = x.events m := by
  rw [events, bind_error h]

theorem outcome_bind_ok (h : x.outcome m = .ok a m') :
    (x >>= f).outcome m = (f a).outcome m' := by
  rw [outcome, bind_ok h]

theorem outcome_bind_error (h : x.outcome m = .error stop m') :
    (x >>= f).outcome m = .error stop m' := by
  rw [outcome, bind_error h]

theorem outcome_bind (x : Watched α) (f : α → Watched β) :
    (x >>= f).outcome = x.outcome >>= fun a => (f a).outcome := by
  funext m
  show _ = (EStateM.bind _ _ m : EStateM.Result Stop Machine β)
  cases h : x.outcome m with
  | ok a m' => rw [outcome_bind_ok h, EStateM.bind, h]
  | error stop m' => rw [outcome_bind_error h, EStateM.bind, h]

end

end Watched

mutual
def watchEval : Nat → Node → Watched Value
  | 0, _ => fail .stuck
  | n + 1, node => do
    .tell .asked node
    let value ← evalStep ⟨watchEval n, watchExec n, fun callee this args => call n callee this args⟩
      node
    .tell .answered node
    return value
def watchExec : Nat → Node → Watched Completion
  | 0, _ => fail .stuck
  | n + 1, node => do
    .tell .ran node
    execStep ⟨watchEval n, watchExec n, fun callee this args => call n callee this args⟩ node
end

def watching (n : Nat) : Recursion Watched :=
  ⟨watchEval n, watchExec n, fun callee this args => call n callee this args⟩

def erasure : Agreement Watched Run where
  rel x run := x.outcome = run
  pure a := rfl
  bind h hf := by
    subst h
    rw [Watched.outcome_bind]
    exact congrArg _ (funext hf)
  lift act := rfl
  inBlock h := by
    subst h
    rfl
  initialise _ h := by
    subst h
    exact Watched.outcome_bind _ _

theorem watch_outcome (n : Nat) (node : Node) :
    (watchEval n node).outcome = eval n node ∧ (watchExec n node).outcome = exec n node := by
  induction n generalizing node with
  | zero => exact ⟨rfl, rfl⟩
  | succ n ih =>
    have hon : ∀ part ∈ node.parts, erasure.OnExpressions (watching n) (recursion n) part :=
      fun part _ inner _ => (ih inner).1
    have heval : (evalStep (watching n) node).outcome = evalStep (recursion n) node :=
      Agreement.evalStep trivial hon fun _ _ _ _ => rfl
    have hexec : (execStep (watching n) node).outcome = execStep (recursion n) node :=
      Agreement.execStep hon (fun _ _ => trivial) (fun part _ => (ih part).2)
        fun _ _ _ _ => trivial
    simp only [watching] at heval hexec
    simp [watchEval, watchExec, Watched.outcome_bind, heval, hexec, eval, exec, recursion]

theorem watchExec_outcome (n : Nat) (node : Node) : (watchExec n node).outcome = exec n node :=
  (watch_outcome n node).2

/-- Only events of a kind are told of a run. -/
def Watched.Tells {α : Type} (P : Event → Prop) (x : Watched α) : Prop :=
  ∀ m, ∀ event ∈ x.events m, P event

namespace Watched.Tells

variable {α β : Type} {P Q : Event → Prop}

theorem pure (a : α) : Tells P (Pure.pure a : Watched α) := by simp [Tells]

theorem lift (act : Run α) : Tells P (liftM act : Watched α) := by simp [Tells]

theorem bind {x : Watched α} {f : α → Watched β} (hx : x.Tells P) (hf : ∀ a, (f a).Tells P) :
    (x >>= f).Tells P := by
  intro m event he
  cases ho : x.outcome m with
  | ok a m' =>
    rw [events_bind_ok ho, List.mem_append] at he
    obtain he | he := he
    · exact hx m event he
    · exact hf a m' event he
  | error stop m' =>
    rw [events_bind_error ho] at he
    exact hx m event he

theorem inBlock {x : Watched α} (hx : x.Tells P) : (Stepping.inBlock x).Tells P :=
  fun _ event he => hx _ event he

theorem mono {x : Watched α} (hx : x.Tells P) (h : ∀ event, P event → Q event) : x.Tells Q :=
  fun m event he => h event (hx m event he)

theorem tell {event : NodeId → Event} {node : Node}
    (h : ∀ id, node.id? = some id → P (event id)) : (Watched.tell event node).Tells P := by
  intro m other ho
  simp only [events_tell, List.mem_map, Option.mem_toList] at ho
  obtain ⟨id, hid, rfl⟩ := ho
  exact h id hid

/-- What is told of steps is told of the steps they are put together from. -/
def agreement (P : Event → Prop) : Agreement Watched Watched where
  rel x _ := x.Tells P
  pure := pure
  bind := bind
  lift act := lift act
  inBlock := inBlock
  initialise _ h := bind h fun _ => lift _

end Watched.Tells

/-- The event is about an expression in the node. -/
def Event.EvaluatesIn (node : Node) (event : Event) : Prop :=
  event.subject ∈ node.ids ∧ event.isRan = false

theorem evalStep_tells_of {n : Nat} (h : ∀ node, (watchEval n node).Tells (Event.EvaluatesIn node))
    (node : Node) :
    (evalStep (watching n) node).Tells fun event => ∃ part ∈ node.parts, event.EvaluatesIn part := by
  refine Agreement.evalStep (C := Watched.Tells.agreement _) (s := watching n) trivial
    (fun part hp inner hw => ?_) fun _ _ _ _ => .lift _
  exact (h inner).mono fun event he => ⟨part, hp, hw.ids_subset he.1, he.2⟩

theorem watchEval_tells (n : Nat) (node : Node) :
    (watchEval n node).Tells (Event.EvaluatesIn node) := by
  induction n generalizing node with
  | zero => exact .lift _
  | succ n ih =>
    refine .bind (.tell fun id hid => ⟨Node.id?_mem_ids hid, rfl⟩) fun _ => .bind ?_ fun value => ?_
    · refine (evalStep_tells_of ih node).mono ?_
      rintro event ⟨part, hp, hids, hran⟩
      exact ⟨(Node.Within.of_part hp).ids_subset hids, hran⟩
    · exact .bind (.tell fun id hid => ⟨Node.id?_mem_ids hid, rfl⟩) fun _ => .pure _

theorem evalStep_tells (n : Nat) (node : Node) :
    (evalStep (watching n) node).Tells fun event => ∃ part ∈ node.parts, event.EvaluatesIn part :=
  evalStep_tells_of (watchEval_tells n) node

section
variable {n : Nat} {info : Tree.Info} {shape : Tree.Shape Node} {m m' : Machine} {value : Value}
  {stop : Stop}

theorem watchEval_ok (h : (evalStep (watching n) (.mk info shape)).outcome m = .ok value m') :
    watchEval (n + 1) (.mk info shape) m =
      (.asked info.id :: (evalStep (watching n) (.mk info shape)).events m ++ [.answered info.id],
        .ok value m') := by
  simp only [watching] at h
  rw [watchEval, Watched.bind_ok rfl, Watched.events_bind_ok h, Watched.outcome_bind_ok h]
  rfl

theorem watchEval_error (h : (evalStep (watching n) (.mk info shape)).outcome m = .error stop m') :
    watchEval (n + 1) (.mk info shape) m =
      (.asked info.id :: (evalStep (watching n) (.mk info shape)).events m, .error stop m') := by
  simp only [watching] at h
  rw [watchEval, Watched.bind_ok rfl, Watched.events_bind_error h, Watched.outcome_bind_error h]
  rfl

theorem watchExec_events :
    (watchExec (n + 1) (.mk info shape)).events m =
      .ran info.id :: (execStep (watching n) (.mk info shape)).events m := by
  rw [watchExec, Watched.events_bind_ok rfl]
  rfl

end

theorem watchExec_tells (n : Nat) (node : Node) :
    (watchExec n node).Tells (·.subject ∈ node.ids) := by
  induction n generalizing node with
  | zero => exact .lift _
  | succ n ih =>
    refine .bind (.tell fun id hid => Node.id?_mem_ids hid) fun _ => ?_
    have hsub : ∀ inner part : Node, part ∈ node.parts → inner.Within part → inner.ids ⊆ node.ids :=
      fun inner part hp hw => (hw.trans (.of_part hp)).ids_subset
    refine Agreement.execStep (C := Watched.Tells.agreement _) (s := watching n) (fun part hp => ?_)
      (fun _ _ => trivial) (fun part hp => ?_) fun _ _ _ _ => trivial
    · exact fun inner hw => (watchEval_tells n inner).mono fun _ he => hsub inner part hp hw he.1
    · exact (ih part).mono fun event he => hsub part part (nested_subset node hp) .self he

end ArrayLoops.Machine
