import Mathlib.Order.Basic

/-! Paths of a given length through a relation, and the relation with one more edge. -/

namespace TinyKernel.Lib

variable {α : Type*}

/-- `y` is reached from `x` in this many steps. -/
def Steps (r : α → α → Prop) : Nat → α → α → Prop
  | 0, x, y => x = y
  | n + 1, x, y => ∃ z, r x z ∧ Steps r n z y

/-- The relation with the edge from `a` to `b`. -/
def Added (r : α → α → Prop) (a b : α) (x y : α) : Prop := r x y ∨ (x = a ∧ y = b)

theorem Steps.mono (steps : Steps r n x y) (sub : ∀ x y, r x y → r' x y) : Steps r' n x y := by
  induction n generalizing x with
  | zero => exact steps
  | succ n ih => ?_
  obtain ⟨z, first, rest⟩ := steps
  exact ⟨z, sub x z first, ih rest⟩

theorem Steps.append (first : Steps r n x y) (second : Steps r m y z) : Steps r (n + m) x z := by
  induction n generalizing x with
  | zero =>
    cases first
    rwa [Nat.zero_add]
  | succ n ih => ?_
  obtain ⟨w, here, rest⟩ := first
  rw [Nat.add_right_comm]
  exact ⟨w, here, ih rest⟩

/-- A path to the start of the new edge does not need that edge. -/
theorem Steps.reach (steps : Steps (Added r a b) n x a) : ∃ m ≤ n, Steps r m x a := by
  induction n generalizing x with
  | zero => exact ⟨0, Nat.le_refl 0, steps⟩
  | succ n ih => ?_
  obtain ⟨y, first, rest⟩ := steps
  rcases first with old | ⟨rfl, _⟩
  · obtain ⟨m, le, path⟩ := ih rest
    exact ⟨m + 1, Nat.succ_le_succ le, y, old, path⟩
  exact ⟨0, Nat.zero_le _, rfl⟩

/-- A path uses old edges only, or up to where it takes the new one first. -/
theorem Steps.split (steps : Steps (Added r a b) n x y) :
    Steps r n x y ∨ ∃ i j, i + j < n ∧ Steps r i x a ∧ Steps (Added r a b) j b y := by
  induction n generalizing x with
  | zero => exact .inl steps
  | succ n ih => ?_
  obtain ⟨z, first, rest⟩ := steps
  rcases first with old | ⟨rfl, rfl⟩
  · rcases ih rest with path | ⟨i, j, less, before, after⟩
    · exact .inl ⟨z, old, path⟩
    exact .inr ⟨i + 1, j, by omega, ⟨z, old, before⟩, after⟩
  exact .inr ⟨0, n, by omega, rfl, rest⟩

/-- A cycle that was not there before goes from the end of the new edge to its start. -/
theorem Steps.closes (cycle : Steps (Added r a b) n x x) (before : ¬ Steps r n x x) :
    ∃ m < n, Steps r m b a := by
  rcases cycle.split with old | ⟨i, j, less, toStart, fromEnd⟩
  · exact absurd old before
  have back : Steps (Added r a b) (j + i) b a := fromEnd.append (toStart.mono fun _ _ => .inl)
  obtain ⟨m, le, path⟩ := back.reach
  exact ⟨m, by omega, path⟩

end TinyKernel.Lib
