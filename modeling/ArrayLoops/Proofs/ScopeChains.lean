import ArrayLoops.Machine.Scope

/-!
# Chains of scopes

While a program runs, scopes only grow: none goes away, none gets into another place, and no name
that is bound in one is unbound again. So what is found on the way outward from a scope by its place
alone, like the scope of the nearest function, is found there ever after.
-/

namespace ArrayLoops.Machine

namespace Scope

structure Grows (scope scope' : Scope) : Prop where
  parent : scope'.parent = scope.parent
  isFunction : scope'.isFunction = scope.isFunction
  names : ∀ name, scope.contains name → scope'.contains name

variable {scope scope' scope'' : Scope}

theorem Grows.refl (scope : Scope) : scope.Grows scope := ⟨rfl, rfl, fun _ => id⟩

theorem Grows.trans (h : scope.Grows scope') (h' : scope'.Grows scope'') : scope.Grows scope'' :=
  ⟨h'.parent.trans h.parent, h'.isFunction.trans h.isFunction,
    fun name hn => h'.names name (h.names name hn)⟩

theorem lookup_replace {name other : String} {binding : Binding} {bindings : List (String × Binding)}
    (h : (bindings.lookup name).isSome) : (replace name binding bindings).lookup other =
      if other = name then some binding else bindings.lookup other := by
  induction bindings with
  | nil => cases h
  | cons entry rest ih =>
    obtain ⟨key, old⟩ := entry
    by_cases hkey : key = name
    · by_cases hother : other = name <;> simp [replace, List.lookup_cons, hkey, hother, beq_false_of_ne]
    · have hrest : (rest.lookup name).isSome := by
        simpa [List.lookup_cons, beq_false_of_ne (Ne.symm hkey)] using h
      by_cases hother : other = key
      · simp [replace, hkey, hother]
      · simp [replace, List.lookup_cons, hkey, beq_false_of_ne hother, ih hrest]

@[simp] theorem get?_declare (scope : Scope) (name other : String) (binding : Binding) :
    (scope.declare name binding).get? other = if other = name then some binding else scope.get? other := by
  unfold declare
  split
  · exact lookup_replace ‹_›
  · by_cases h : other = name <;> simp [get?, List.lookup_cons, h, beq_false_of_ne]

theorem contains_declare (scope : Scope) (name other : String) (binding : Binding) :
    (scope.declare name binding).contains other ↔ other = name ∨ scope.contains other := by
  rw [contains, get?_declare, contains]
  split <;> simp [*]

theorem contains_declareVar (scope : Scope) (name other : String) :
    (scope.declareVar name).contains other ↔ other = name ∨ scope.contains other := by
  unfold declareVar
  split
  · grind
  · exact scope.contains_declare name other _

theorem grows_declare (scope : Scope) (name : String) (binding : Binding) :
    scope.Grows (scope.declare name binding) where
  parent := by unfold declare; split <;> rfl
  isFunction := by unfold declare; split <;> rfl
  names other h := (scope.contains_declare name other binding).mpr (.inr h)

theorem grows_declareVar (scope : Scope) (name : String) : scope.Grows (scope.declareVar name) := by
  unfold declareVar
  split
  · exact .refl _
  · exact scope.grows_declare name _

/-- Whether the variables declared with `var` inside the scope belong to it. -/
def holdsVars (scope : Scope) : Bool := scope.isFunction || scope.parent.isNone

theorem Grows.holdsVars (h : scope.Grows scope') : scope'.holdsVars = scope.holdsVars := by
  rw [Scope.holdsVars, h.isFunction, h.parent, Scope.holdsVars]

end Scope

namespace Scopes

def Grow (scopes scopes' : Scopes) : Prop :=
  ∀ (id : ScopeId) (scope : Scope), scopes[id]? = some scope →
    ∃ scope', scopes'[id]? = some scope' ∧ scope.Grows scope'

variable {scopes scopes' scopes'' : Scopes} {id home : ScopeId} {name : String}

theorem Grow.refl (scopes : Scopes) : scopes.Grow scopes := fun _ scope h => ⟨scope, h, .refl _⟩

theorem Grow.trans (h : scopes.Grow scopes') (h' : scopes'.Grow scopes'') :
    scopes.Grow scopes'' := by
  intro id scope hs
  obtain ⟨scope', hs', hg⟩ := h id scope hs
  obtain ⟨scope'', hs'', hg'⟩ := h' id scope' hs'
  exact ⟨scope'', hs'', hg.trans hg'⟩

theorem grow_modify (scopes : Scopes) (id : ScopeId) {f : Scope → Scope}
    (hf : ∀ scope : Scope, scope.Grows (f scope)) : Grow scopes (scopes.modify id f) := by
  intro other scope hs
  rw [Array.getElem?_modify]
  split
  · exact ⟨f scope, by rw [hs]; rfl, hf scope⟩
  · exact ⟨scope, hs, .refl _⟩

theorem grow_push (scopes : Scopes) (scope : Scope) : Grow scopes (scopes.push scope) := by
  intro id other hs
  have hlt := (Array.getElem?_eq_some_iff.mp hs).1
  exact ⟨other, by rw [Array.getElem?_push_lt hlt, ← hs, Array.getElem?_eq_getElem hlt], .refl _⟩

theorem hasOwn_iff :
    scopes.hasOwn id name ↔ ∃ scope, scopes[id]? = some scope ∧ scope.contains name :=
  Option.any_eq_true _ _

theorem Grow.hasOwn (h : scopes.Grow scopes') (hn : scopes.hasOwn id name) :
    scopes'.hasOwn id name := by
  obtain ⟨scope, hs, hc⟩ := hasOwn_iff.mp hn
  obtain ⟨scope', hs', hg⟩ := h id scope hs
  exact hasOwn_iff.mpr ⟨scope', hs', hg.names name hc⟩

/-- The variables declared with `var` in the scope belong to the scope `home`, which it is or which
is the nearest around it of those that hold such variables. -/
inductive Home (scopes : Scopes) (home : ScopeId) : ScopeId → Prop where
  | self {scope : Scope} : scopes[home]? = some scope → scope.holdsVars → Home scopes home home
  | outward {id parent : ScopeId} {scope : Scope} :
    scopes[id]? = some scope → scope.holdsVars = false → scope.parent = some parent → parent < id →
    Home scopes home parent → Home scopes home id

/-- At most `n` scopes, from a scope outward up to that of the nearest function. -/
def upToFunction (scopes : Scopes) : Nat → ScopeId → List ScopeId
  | 0, _ => []
  | n + 1, id =>
    match scopes[id]? with
    | none => []
    | some scope =>
      if scope.holdsVars then [id]
      else id :: (scope.parent.map (upToFunction scopes n)).getD []

theorem Home.grow (h : scopes.Home home id) (hg : scopes.Grow scopes') : scopes'.Home home id := by
  induction h with
  | self hs hv =>
    obtain ⟨scope', hs', hscope⟩ := hg _ _ hs
    exact .self hs' (hscope.holdsVars ▸ hv)
  | outward hs hv hp hlt _ ih =>
    obtain ⟨scope', hs', hscope⟩ := hg _ _ hs
    exact .outward hs' (hscope.holdsVars ▸ hv) (hscope.parent ▸ hp) hlt ih

theorem Home.exists_scope (h : scopes.Home home id) : ∃ scope, scopes[home]? = some scope := by
  induction h with
  | self hs => exact ⟨_, hs⟩
  | outward _ _ _ _ _ ih => exact ih

theorem Home.lt_size (h : scopes.Home home id) : id < scopes.size := by
  cases h with
  | self hs | outward hs => exact (Array.getElem?_eq_some_iff.mp hs).1

theorem Home.block (h : scopes.Home home id) :
    (scopes.child id false).2.Home home (scopes.child id false).1 :=
  .outward Array.getElem?_push_size rfl rfl h.lt_size (h.grow (scopes.grow_push _))

theorem home_frame (scopes : Scopes) (outer : ScopeId) :
    (scopes.child outer true).2.Home (scopes.child outer true).1 (scopes.child outer true).1 :=
  .self Array.getElem?_push_size rfl

theorem Home.functionScope (h : scopes.Home home id) : scopes.functionScope id = home := by
  -- Each parent has a smaller number, so the bound on the search is never reached.
  have hfind : ∀ n, id < n → scopes.findUp Scope.holdsVars n id = some home := by
    induction h with
    | self hs hv => rintro (_ | n) hn <;> grind [findUp]
    | outward hs hv hp hlt _ ih => rintro (_ | n) hn <;> grind [findUp]
  rw [Scopes.functionScope]
  exact congrArg (·.getD id) (hfind (id + 1) (Nat.lt_succ_self id))

theorem Home.mem_upToFunction (h : scopes.Home home id) {n : Nat} (hn : id < n) :
    home ∈ scopes.upToFunction n id := by
  induction h generalizing n with
  | self hs hv => cases n <;> grind [upToFunction]
  | outward hs hv hp hlt _ ih => cases n <;> grind [upToFunction]

theorem Home.owner?_isSome (h : scopes.Home home id) (hn : scopes.hasOwn home name) :
    (scopes.owner? id name).isSome := by
  obtain ⟨scope, hscope, hname⟩ := hasOwn_iff.mp hn
  have hfind : ∀ n, id < n → (scopes.findUp (·.contains name) n id).isSome := by
    induction h with
    | self hs hv => rintro (_ | n) hn <;> grind [findUp]
    | outward hs hv hp hlt _ ih => rintro (_ | n) hn <;> grind [findUp]
  exact hfind (id + 1) (Nat.lt_succ_self id)

theorem declareVars_spec (scopes : Scopes) (id : ScopeId) (names : List String) :
    let scopes' := names.foldl (fun scopes name => scopes.declareVar id name) scopes
    scopes.Grow scopes' ∧
      ∀ scope, scopes[id]? = some scope → ∀ name ∈ names, scopes'.hasOwn id name := by
  induction names generalizing scopes with
  | nil => exact ⟨.refl _, by simp⟩
  | cons name rest ih =>
    obtain ⟨hgrow, hnames⟩ := ih (scopes.declareVar id name)
    refine ⟨(scopes.grow_modify id (·.grows_declareVar name)).trans hgrow, fun scope hs => ?_⟩
    have hs' : (scopes.declareVar id name)[id]? = some (scope.declareVar name) := by
      rw [declareVar, Array.getElem?_modify, if_pos rfl, hs]
      rfl
    have hname := hasOwn_iff.mpr ⟨_, hs', (scope.contains_declareVar name name).mpr (.inl rfl)⟩
    exact List.forall_mem_cons.mpr ⟨hgrow.hasOwn hname, hnames _ hs'⟩

end Scopes

end ArrayLoops.Machine
