import ArrayLoops.Proofs.ParsedPhrases

/-!
# States that a parse reaches

Whatever a production does, it does in a few kinds of steps: it passes a token, complains, opens a
construct or gives up at the limit, closes constructs, makes a node. A state is reached from another
if such steps lead to it. The number of constructs that were opened on the way and are still open
belongs to the notion, so no step closes one that is not open. What every reached state is like is
shown once, step by step.
-/

namespace ArrayLoops.Grammar

/-- Steps lead from `s` to the state, and as many constructs opened on the way are still open. -/
inductive Reached (s : State) : Nat → State → Prop where
  | refl : Reached s 0 s
  | advance {opened : Nat} {m : State} : Reached s opened m → Reached s opened m.advance
  | complain {opened : Nat} {m : State} {fault : Fault} :
    Reached s opened m → fault ≠ .nestingTooDeep → Reached s opened (m.complain fault)
  | enter {opened : Nat} {m : State} :
    Reached s opened m → m.depth < maxDepth → Reached s (opened + 1) m.opened
  | giveUp {opened : Nat} {m : State} :
    Reached s opened m → maxDepth ≤ m.depth →
      Reached s opened { m.complain .nestingTooDeep with exceeded := true }
  | leave {opened count : Nat} {m : State} :
    Reached s (opened + count) m → Reached s opened (m.leave count)
  | withArena {opened : Nat} {m : State} (arena : Tree.Arena) :
    Reached s opened m → Reached s opened { m with arena }
  | exhaust {opened : Nat} {m : State} :
    Reached s opened m → Reached s opened { m with exhausted := true }

variable {s m : State} {opened : Nat}

theorem State.depth_advance (s : State) : s.advance.depth = s.depth := by
  unfold State.advance
  split <;> rfl

theorem State.depth_complain (s : State) (fault : Fault) : (s.complain fault).depth = s.depth := by
  simp only [State.complain]
  split <;> rfl

theorem State.charges_advance (s : State) :
    s.advance.overdrawn = s.overdrawn ∧ s.advance.deepest = s.deepest := by
  unfold State.advance
  split <;> exact ⟨rfl, rfl⟩

theorem State.charges_complain (s : State) (fault : Fault) :
    (s.complain fault).overdrawn = s.overdrawn ∧ (s.complain fault).deepest = s.deepest := by
  simp only [State.complain]
  split <;> exact ⟨rfl, rfl⟩

theorem Reached.depth (h : Reached s opened m) : m.depth = s.depth + opened := by
  induction h with
  | refl => rfl
  | advance _ ih => rw [State.depth_advance, ih]
  | complain _ _ ih | giveUp _ _ ih => exact (State.depth_complain _ _).trans ih
  | enter _ _ ih => exact congrArg (· + 1) ih
  | leave _ ih =>
    rw [State.leave, ih, ← Nat.add_assoc]
    exact Nat.add_sub_cancel _ _
  | withArena _ _ ih | exhaust _ ih => exact ih

theorem Reached.depth_le (h : Reached s opened m) (hs : s.depth ≤ maxDepth) :
    m.depth ≤ maxDepth := by
  induction h with
  | refl => exact hs
  | advance _ ih => rwa [State.depth_advance]
  | complain _ _ ih | giveUp _ _ ih => exact Nat.le_trans (Nat.le_of_eq (State.depth_complain _ _)) ih
  | enter _ hdepth _ => exact hdepth
  | leave _ ih => exact Nat.le_trans (Nat.sub_le _ _) ih
  | withArena _ _ ih | exhaust _ ih => exact ih

theorem Reached.overdrawn (h : Reached s opened m) : m.overdrawn = s.overdrawn := by
  induction h with
  | refl => rfl
  | advance _ ih => exact (State.charges_advance _).1.trans ih
  | complain _ _ ih | giveUp _ _ ih => exact (State.charges_complain _ _).1.trans ih
  | @leave opened count m h ih =>
    have hopen : ¬m.depth < count := by rw [h.depth]; omega
    simp [State.leave, hopen, ih]
  | enter _ _ ih | withArena _ _ ih | exhaust _ ih => exact ih

theorem Reached.deepest_le (h : Reached s opened m) : m.deepest ≤ max s.deepest maxDepth := by
  induction h with
  | refl => exact Nat.le_max_left _ _
  | advance _ ih => exact Nat.le_trans (Nat.le_of_eq (State.charges_advance _).2) ih
  | complain _ _ ih | giveUp _ _ ih => exact Nat.le_trans (Nat.le_of_eq (State.charges_complain _ _).2) ih
  | enter _ hdepth ih => exact Nat.max_le.mpr ⟨ih, Nat.le_trans hdepth (Nat.le_max_right _ _)⟩
  | leave _ ih | withArena _ _ ih | exhaust _ ih => exact ih

end ArrayLoops.Grammar
