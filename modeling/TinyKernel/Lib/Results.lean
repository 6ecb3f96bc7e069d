import Mathlib.Tactic.Common

/-! Computations that may fail. -/

namespace TinyKernel.Lib

section

variable {Error : Type*} {Value Result : Type}
    {second : Value → Except Error Result}

/-- A computation in two parts succeeds when both parts do. -/
theorem bind_eq_ok :
    (first >>= second) = .ok result ↔ ∃ value, first = .ok value ∧ second value = .ok result := by
  cases first with
  | error error =>
    constructor
    · intro ran
      cases ran
    rintro ⟨value, ran, _⟩
    cases ran
  | ok value => ?_
  constructor
  · exact fun ran => ⟨value, rfl, ran⟩
  rintro ⟨same, ran, succeeded⟩
  cases ran
  exact succeeded

/-- A computation in two parts does not fail in a way that none of its parts fails in. -/
theorem bind_ne_error (start : first ≠ .error error)
    (rest : ∀ value, first = .ok value → second value ≠ .error error) :
    (first >>= second) ≠ .error error := by
  cases first with
  | error other => exact fun same => start (congrArg Except.error (Except.error.inj same))
  | ok value => exact rest value rfl

end

section

variable {Error Item : Type} {body : Item → Except Error Unit} {items : List Item}

theorem forM_eq_ok {done : Unit} :
    items.forM body = .ok done ↔ ∀ item ∈ items, body item = .ok () := by
  induction items with
  | nil => exact iff_of_true rfl fun item mem => absurd mem List.not_mem_nil
  | cons item items ih => ?_
  rw [List.forM, bind_eq_ok, List.forall_mem_cons, ← ih]
  constructor
  · rintro ⟨value, first, rest⟩
    exact ⟨first, rest⟩
  exact fun both => ⟨(), both.1, both.2⟩

theorem forM_ne_error {error : Error} (never : ∀ item ∈ items, body item ≠ .error error) :
    items.forM body ≠ .error error := by
  induction items with
  | nil => simp [pure, Except.pure]
  | cons item items ih => ?_
  rw [List.forall_mem_cons] at never
  exact bind_ne_error never.1 fun _ _ => ih never.2

end

end TinyKernel.Lib
