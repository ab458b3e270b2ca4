import ArrayLoops.Program
import ArrayLoops.Proofs.ParsedTree
import ArrayLoops.Proofs.Steps

/-!
# Variables are declared before they are initialised

Before the statements of a function are run, its scope binds all variables that are declared in them
with `var`, at any depth. So whenever such a variable gets its initial value, it is bound already;
`vars_bound_when_initialised` says so of all runs of programs. For that a run is taken with notes of
the machines in which variables are initialised. The steps are those of the machine itself, taken in
another monad.
-/

namespace ArrayLoops.Machine

open ArrayLoops.Tree (Node Shape Slot)

/-- A variable declared with `var` that gets its initial value, and a machine in which it does. -/
abbrev Note := String × Machine

structure Noted (α : Type) where
  outcome : Run α
  notes : Machine → List Note

namespace Noted

variable {α β : Type}

def behind (act : Run α) (notes : α → Machine → List Note) (m : Machine) : List Note :=
  match act m with
  | .ok a m' => notes a m'
  | .error _ _ => []

instance : Monad Noted where
  pure a := ⟨pure a, fun _ => []⟩
  bind x f := {
    outcome := x.outcome >>= fun a => (f a).outcome
    notes := fun m => x.notes m ++ behind x.outcome (fun a => (f a).notes) m }

/-- An initialisation is noted twice: before the value is computed, and when it is there. -/
instance : Calling Noted where
  monadLift act := ⟨act, fun _ => []⟩
  inBlock x := ⟨inBlock x.outcome, fun m => x.notes m.entered⟩
  initialise name x := {
    outcome := do initialise name (← x.outcome)
    notes := fun m => (name, m) :: x.notes m ++ behind x.outcome (fun _ m' => [(name, m')]) m }
  inFrame outer this x := ⟨inFrame outer this x.outcome, fun m => x.notes (m.framed outer this)⟩

end Noted

def noting : Nat → Recursion Noted
  | 0 => ⟨fun _ => fail .stuck, fun _ => fail .stuck, fun _ _ _ => fail .stuck⟩
  | n + 1 => ⟨evalStep (noting n), execStep (noting n), callStep (noting n)⟩

def forgetting : CallAgreement Noted Run where
  rel x run := x.outcome = run
  pure _ := rfl
  bind h hf := by
    subst h
    exact congrArg (Bind.bind _) (funext hf)
  lift _ := rfl
  inBlock h := congrArg inBlock h
  initialise _ h := by
    subst h
    rfl
  inFrame h := by
    subst h
    exact congrArg (Bind.bind (get : Run Machine)) (funext fun m => apply_ite Noted.outcome _ _ _)

theorem noting_outcome (n : Nat) : forgetting.Everywhere (noting n) (recursion n) := by
  induction n with
  | zero => exact ⟨fun _ => rfl, fun _ => rfl, fun _ _ _ => rfl⟩
  | succ n ih => exact ih.step

theorem mem_notes_declareVariables {n : Nat} {flags : Tree.Flags} {info : Tree.Info}
    {name value : Node} {text : String} {rest : List Node} {m : Machine}
    (hflags : flags.isBlockScoped = false) (hname : name.name? = some text)
    (hvalue : value.isPresent) :
    let noted := declareVariables (noting n) flags (.mk info (.variable name value) :: rest)
    (text, m) ∈ noted.notes m ∧
      ∀ result m', (recursion n).eval value m = .ok result m' → (text, m') ∈ noted.notes m := by
  rw [declareVariables, hname]
  simp only [hflags, hvalue]
  refine ⟨List.mem_append_left _ List.mem_cons_self, fun result m' hok => ?_⟩
  refine List.mem_append_left _ (List.mem_cons_of_mem _ (List.mem_append_right _ ?_))
  have heval : ((noting n).eval value).outcome = (recursion n).eval value :=
    (noting_outcome n).eval value
  rw [Noted.behind, heval, hok]
  exact List.mem_singleton_self _

def Hoists (node : Node) (text : String) : Prop := ∀ names, text ∈ varNamesOnto names node

section
variable {text : String}

theorem mem_declaredNames {names : List String} {declarations : List Node}
    (h : text ∈ names ∨ ∃ info name value, .mk info (.variable name value) ∈ declarations ∧
      name.name? = some text) : text ∈ declaredNames names declarations := by
  induction declarations generalizing names with
  | nil => exact h.resolve_right (by simp)
  | cons declaration rest ih =>
    refine ih ?_
    obtain ht | ⟨info, name, value, hm, hname⟩ := h
    · refine .inl ?_
      dsimp only
      split
      · exact List.mem_cons_of_mem _ ht
      · exact ht
    · obtain rfl | hm := List.mem_cons.mp hm
      · unfold Node.name? at hname
        split at hname
        · cases hname
          exact .inl List.mem_cons_self
        · cases hname
      · exact .inr ⟨info, name, value, hm, hname⟩

theorem mem_varNamesOfAll {nodes : List Node} {names : List String}
    (h : ∀ node ∈ nodes, ∀ names, text ∈ names → text ∈ varNamesOnto names node)
    (ht : text ∈ names) : text ∈ varNamesOfAll names nodes := by
  induction nodes generalizing names with
  | nil => exact ht
  | cons node rest ih =>
    rw [List.forall_mem_cons] at h
    exact ih h.2 (h.1 names ht)

theorem mem_varNamesOnto {node : Node} {names : List String} (ht : text ∈ names) :
    text ∈ varNamesOnto names node := by
  induction node generalizing names with
  | absent => exact ht
  | mk info shape ih =>
    cases shape with
    | block nodes => exact mem_varNamesOfAll (fun node hn _ => ih node hn) ht
    | «variables» isStatement nodes =>
      rw [varNamesOnto]
      split
      · exact mem_varNamesOfAll (fun node hn _ => ih node hn) ht
      · split
        · exact ht
        · exact mem_declaredNames (.inl ht)
    | branch condition thenBranch elseBranch =>
      exact ih elseBranch (by simp [Shape.parts]) (ih thenBranch (by simp [Shape.parts]) ht)
    | loop form initializer condition update body =>
      exact ih body (by simp [Shape.parts]) (ih initializer (by simp [Shape.parts]) ht)
    | _ => exact ht

theorem Hoists.mem_all {node : Node} (h : Hoists node text) {nodes : List Node} (hn : node ∈ nodes)
    (names : List String) : text ∈ varNamesOfAll names nodes := by
  induction nodes generalizing names with
  | nil => cases hn
  | cons first rest ih =>
    rw [varNamesOfAll]
    obtain rfl | hn := List.mem_cons.mp hn
    · exact mem_varNamesOfAll (fun _ _ _ => mem_varNamesOnto) (h names)
    · exact ih hn _

theorem Hoists.of_nested {node part : Node} (hp : part ∈ nested node) (h : Hoists part text) :
    Hoists node text := by
  intro names
  unfold nested at hp
  split at hp
  · exact h.mem_all hp names
  · rw [varNamesOnto]
    obtain rfl | hp := List.mem_cons.mp hp
    · exact mem_varNamesOnto (h names)
    · obtain rfl := List.mem_singleton.mp hp
      exact h _
  · obtain rfl := List.mem_singleton.mp hp
    exact h _
  · cases hp

theorem Hoists.of_list {node list : Node} (hr : node.Regular) (hl : list ∈ declaredLists node)
    (h : DeclaresVar list text) : Hoists node text := by
  obtain ⟨info, isStatement, declarations, other, name, value, rfl, hflags, hm, hname⟩ := h
  have hlist : isStatement = false →
      Hoists (.mk info (.variables isStatement declarations)) text := by
    rintro rfl names
    rw [varNamesOnto, if_neg (by simp), if_neg (by simp [hflags])]
    exact mem_declaredNames (.inr ⟨other, name, value, hm, hname⟩)
  -- A list that were a statement itself would be passed by, but a regular tree has none here.
  unfold declaredLists at hl
  split at hl
  · have hslot := hr.placed (.list, _) (List.mem_map_of_mem hl)
    cases isStatement with
    | true => cases hslot
    | false => exact (hlist rfl).mem_all hl
  · -- The list that a loop begins with is collected before what the body declares.
    obtain rfl := List.mem_singleton.mp hl
    have hslot := hr.placed (.start, _) List.mem_cons_self
    cases isStatement with
    | true => cases hslot
    | false =>
      intro names
      rw [varNamesOnto]
      exact mem_varNamesOnto (hlist rfl names)
  · cases hl

end

/-- The machine is in a run of a regular program, and names are bound in the scope of the current
function. -/
structure Ready (names : String → Prop) (m : Machine) : Prop where
  heap : m.heap.MadeOf Node.Regular
  home : ∃ home, m.scopes.Home home m.scope ∧ ∀ name, names name → m.scopes.hasOwn home name

def Note.Bound (note : Note) : Prop :=
  ∃ home, note.2.scopes.Home home note.2.scope ∧ note.2.scopes.hasOwn home note.1

section
variable {names : String → Prop} {m m' : Machine}

theorem Ready.follows (h : Ready names m) (hf : Follows Node.Regular m m') : Ready names m' := by
  obtain ⟨home, hhome, hnames⟩ := h.home
  refine ⟨hf.heap h.heap, home, ?_, fun name hn => hf.scopes.hasOwn (hnames name hn)⟩
  rw [hf.scope]
  exact hhome.grow hf.scopes

theorem Ready.bound (h : Ready names m) {name : String} (hn : names name) :
    Note.Bound (name, m) := by
  obtain ⟨home, hhome, hnames⟩ := h.home
  exact ⟨home, hhome, hnames name hn⟩

theorem Ready.entered (h : Ready names m) : Ready names m.entered := by
  obtain ⟨home, hhome, hnames⟩ := h.home
  exact ⟨h.heap, home, hhome.block, fun name hn => (m.scopes.grow_push _).hasOwn (hnames name hn)⟩

theorem Ready.framed (h : Ready names m) (outer : ScopeId) (this : Value) :
    Ready (fun _ => False) (m.framed outer this) :=
  ⟨h.heap, _, m.scopes.home_frame outer, fun _ => False.elim⟩

end

section
variable {α β : Type} {names : String → Prop} {m : Machine}

/-- From the machine the run goes on as runs of regular programs do, and all notes of it are of
names that are bound. -/
def SoundFrom (m : Machine) (x : Noted α) : Prop :=
  Follows Node.Regular m (after x.outcome m) ∧ ∀ note ∈ x.notes m, note.Bound

theorem SoundFrom.lift (act : Run α) [h : Keeps Node.Regular act] :
    SoundFrom m (liftM act : Noted α) :=
  ⟨h.keeps m, List.forall_mem_nil _⟩

theorem SoundFrom.bind {x : Noted α} {f : α → Noted β} (h : SoundFrom m x)
    (hf : ∀ a m', x.outcome m = .ok a m' → Follows Node.Regular m m' → SoundFrom m' (f a)) :
    SoundFrom m (x >>= f) := by
  obtain ⟨hfollows, hnotes⟩ := h
  show Follows _ m (after (x.outcome >>= _) m) ∧ ∀ note ∈ x.notes m ++ Noted.behind _ _ m, _
  rw [after_bind]
  rw [after] at hfollows
  cases hx : x.outcome m with
  | ok a m' =>
    rw [hx] at hfollows
    obtain ⟨hfollows', hnotes'⟩ := hf a m' hx hfollows
    refine ⟨hfollows.trans hfollows', List.forall_mem_append.mpr ⟨hnotes, ?_⟩⟩
    rwa [Noted.behind, hx]
  | error stop m' =>
    rw [hx] at hfollows
    refine ⟨hfollows, List.forall_mem_append.mpr ⟨hnotes, ?_⟩⟩
    rw [Noted.behind, hx]
    exact List.forall_mem_nil _

end

/-- Runs with notes that are sound once names are bound, beside any others. -/
def sound (names : String → Prop) : Agreement Noted Noted where
  rel x _ := ∀ m, Ready names m → SoundFrom m x
  made := Node.Regular
  initialised := names
  pure _ m _ := ⟨.refl m, List.forall_mem_nil _⟩
  bind hx hf m hm := (hx m hm).bind fun a m' _ hfollows => hf a m' (hm.follows hfollows)
  lift act := fun [Keeps Node.Regular act] _ _ => .lift act
  inBlock h m hm := ⟨(h _ hm.entered).1.inBlock, (h _ hm.entered).2⟩
  initialise hname h m hm := by
    -- The name is bound before the value is computed, and scopes only grow while it is.
    obtain ⟨hfollows, hnotes⟩ := h m hm
    refine ⟨((h m hm).bind fun value _ _ _ => .lift (initialise _ value)).1, ?_⟩
    refine List.forall_mem_cons.mpr ⟨hm.bound hname, List.forall_mem_append.mpr ⟨hnotes, ?_⟩⟩
    rw [after] at hfollows
    unfold Noted.behind
    split
    · rename_i hx
      rw [hx] at hfollows
      exact List.forall_mem_singleton.mpr ((hm.follows hfollows).bound hname)
    · exact List.forall_mem_nil _

/-- All that a machine evaluates, runs and calls is sound. A statement may be run once the variables
that it declares for the function are bound. -/
structure SoundMachine (r : Recursion Noted) : Prop where
  eval : ∀ names node, node.Regular → (sound names).rel (r.eval node) (r.eval node)
  exec : ∀ (names : String → Prop) node, node.Regular → (∀ text, Hoists node text → names text) →
    (sound names).rel (r.exec node) (r.exec node)
  call : ∀ names callee this args,
    (sound names).rel (r.call callee this args) (r.call callee this args)

section
variable {r : Recursion Noted} {names : String → Prop}

theorem SoundMachine.onExpressions (h : SoundMachine r) {node : Node} (hr : node.Regular) :
    (sound names).OnExpressions r r node :=
  fun inner hw => h.eval names inner (hr.within hw)

theorem SoundMachine.execAll (h : SoundMachine r) {statements : List Node}
    (hr : ∀ statement ∈ statements, statement.Regular) :
    (sound names).rel (Machine.execAll r statements) (Machine.execAll r statements) := by
  intro m hm
  have := Keeps.hoist hr
  refine SoundFrom.bind (.lift _) fun _ m' hok _ => ?_
  -- Functions are bound behind the variables, and take no name away.
  let bound : Machine := { m with
    scopes := (varNames statements).foldl
      (fun scopes name => scopes.declareVar (m.scopes.functionScope m.scope) name) m.scopes }
  have hbound : Ready (· ∈ varNames statements) bound := by
    obtain ⟨home, hhome, -⟩ := hm.home
    obtain ⟨scope, hscope⟩ := hhome.exists_scope
    obtain ⟨hgrow, hnames⟩ :=
      m.scopes.declareVars_spec (m.scopes.functionScope m.scope) (varNames statements)
    refine ⟨hm.heap, home, hhome.grow hgrow, ?_⟩
    rw [hhome.functionScope] at hnames
    exact hhome.functionScope ▸ hnames scope hscope
  have hafter : after (statements.forM hoistFunction) bound = m' := by
    rw [after, show statements.forM hoistFunction bound = .ok () m' from hok]
  refine Agreement.execInOrder (C := sound (· ∈ varNames statements)) (s := r)
    (fun statement hs => h.exec _ statement (hr statement hs) fun text ht => ?_) m' ?_
  · exact List.mem_reverse.mpr (ht.mem_all hs [])
  · exact hbound.follows (hafter ▸ (Keeps.hoistFunctions hr).keeps bound)

theorem SoundMachine.runBody (h : SoundMachine r) (isExpression : Bool) {body : Node}
    (hr : body.Regular) :
    (sound names).rel (Machine.runBody r isExpression body) (Machine.runBody r isExpression body) := by
  refine Agreement.ite (h.eval names body hr) ?_
  split
  · refine (sound names).bind (h.execAll hr.part) fun completion => ?_
    split <;> exact (sound names).pure _
  · exact (sound names).pure _

theorem SoundMachine.callClosure (h : SoundMachine r) {closure : Closure}
    (hr : closure.function.Regular) (this : Value) (args : List Value) :
    (sound names).rel (Machine.callClosure r closure this args)
      (Machine.callClosure r closure this args) := by
  unfold Machine.callClosure
  split
  · exact Agreement.withRoom ((sound names).pure _)
  · rename_i info form name parameters body heq
    rw [heq] at hr
    have hbody := hr.part body (by simp [Shape.parts])
    have hparameters : ∀ parameter ∈ parameters, parameter.Regular :=
      fun parameter hp => hr.part parameter (by simp [Shape.parts, hp])
    -- Nothing is bound in the new frame before the body binds what it declares.
    refine Agreement.withRoom fun m hm => ?_
    obtain ⟨hfollows, hnotes⟩ := (sound _).bind
      (Agreement.bindParameters fun parameter hp => h.onExpressions (hparameters parameter hp))
      (fun _ => h.runBody info.flags.expressionBody hbody) _
      (hm.framed closure.scope (closure.this.getD this))
    exact ⟨hfollows.inFrame, hnotes⟩
  · exact Agreement.withRoom ((sound names).lift _)

theorem SoundMachine.callStep (h : SoundMachine r) (callee this : Value) (args : List Value) :
    (sound names).rel (Machine.callStep r callee this args) (Machine.callStep r callee this args) := by
  intro m hm
  refine SoundFrom.bind (.lift _) fun callable m' hok hfollows => ?_
  have hm' := hm.follows hfollows
  cases hok
  split
  · exact Agreement.callBuiltin (C := sound names) (h.call names) m hm'
  · rename_i closure heq
    -- A closure on the heap was made of a node of the program.
    refine h.callClosure ?_ this args m hm'
    unfold Value.callable? at heq
    split at heq
    · split at heq
      · cases heq
        exact hm.heap _ _ _ ‹_› rfl
      · cases heq
    · cases heq
  · exact (sound names).bind (y := liftM (inspect callee)) ((sound names).lift _)
      (fun _ => (sound names).lift _) m hm'

theorem SoundMachine.step (h : SoundMachine r) :
    SoundMachine ⟨evalStep r, execStep r, Machine.callStep r⟩ where
  eval names _ hr := Agreement.evalStep (C := sound names) hr
    (fun _ hp => h.onExpressions (hr.within (.of_part hp))) fun _ => h.call names
  exec names node hr hnames := by
    have hnested : ∀ part ∈ nested node, part.Regular :=
      fun part hp => hr.within (.of_part (nested_subset node hp))
    refine Agreement.execStep (C := sound names)
      (fun _ hp => h.onExpressions (hr.within (.of_part hp))) hnested (fun part hp => ?_) ?_
    · exact h.exec names part (hnested part hp) fun text ht => hnames text (ht.of_nested hp)
    · exact fun _ hl text hd => hnames text (.of_list hr hl hd)
  call _ callee this args := h.callStep callee this args

theorem noting_sound (n : Nat) : SoundMachine (noting n) := by
  induction n with
  | zero =>
    exact ⟨fun names _ _ => (sound names).lift _, fun names _ _ _ => (sound names).lift _,
      fun names _ _ _ => (sound names).lift _⟩
  | succ n ih => exact ih.step

end

theorem ready_start : Ready (fun _ => False) start where
  heap := madeOf_start _
  home := ⟨0, .self rfl rfl, fun _ => False.elim⟩

theorem Note.Bound.spec {name : String} {m : Machine} (h : Note.Bound (name, m)) :
    (∃ id ∈ m.scopes.upToFunction (m.scope + 1) m.scope, m.scopes.hasOwn id name) ∧
      (∀ value, m.scopes.assign m.scope name value ≠ .unbound) ∧
      ∀ m', target name m ≠ .ok .unbound m' := by
  obtain ⟨home, hhome, hname⟩ := h
  obtain ⟨owner, howner⟩ := Option.isSome_iff_exists.mp (hhome.owner?_isSome hname)
  refine ⟨⟨home, hhome.mem_upToFunction (Nat.lt_succ_self _), hname⟩, fun value => ?_, fun m' => ?_⟩
  · simp only [Scopes.assign, howner]
    split <;> simp
  · simp only [target, howner]
    split <;> simp

/-- In every run of a program, whenever a variable declared with `var` gets an initial value, a scope
from the current one up to that of the function binds it already. So it is never found unbound, and
never declared only then. -/
theorem vars_bound_when_initialised (source : String) (n : Nat) :
    (execAll (noting n) (Program.statements (parse programName source).root)).outcome =
        execAll (recursion n) (Program.statements (parse programName source).root) ∧
    (∀ (flags : Tree.Flags) (info : Tree.Info) (name value : Node) text rest m,
      flags.isBlockScoped = false → name.name? = some text → value.isPresent →
      let noted := declareVariables (noting n) flags (.mk info (.variable name value) :: rest)
      (text, m) ∈ noted.notes m ∧
        ∀ result m', (recursion n).eval value m = .ok result m' → (text, m') ∈ noted.notes m) ∧
    ∀ name m, (name, m) ∈
        (execAll (noting n) (Program.statements (parse programName source).root)).notes start →
      (∃ id ∈ m.scopes.upToFunction (m.scope + 1) m.scope, m.scopes.hasOwn id name) ∧
        (∀ value, m.scopes.assign m.scope name value ≠ .unbound) ∧
        ∀ m', target name m ≠ .ok .unbound m' := by
  have hregular := parse_regular programName source
  refine ⟨?_, ?_, fun name m hm => ?_⟩
  · exact Agreement.execAll (C := forgetting.toAgreement) (fun _ _ => trivial)
      fun node _ => (noting_outcome n).exec node
  · intro flags info name value text rest m hflags hname hvalue
    exact mem_notes_declareVariables hflags hname hvalue
  · refine Note.Bound.spec (((noting_sound n).execAll ?_ start ready_start).2 _ hm)
    exact hregular.part

end ArrayLoops.Machine
