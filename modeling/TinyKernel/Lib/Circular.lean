import Mathlib.Algebra.Order.Ring.Nat
import Mathlib.Algebra.Order.Sub.Basic
import Mathlib.Data.Nat.ModEq
import Mathlib.Data.Nat.SuccPred

/-! Buffers in which positions go around: a queue occupies a part of the buffer from some position
on. -/

namespace TinyKernel.Lib

open List

/-- From a position on, the buffer holds these values one after the other. -/
def HoldsAround {α : Type*} (buffer : List α) (start : Nat) (values : List α) : Prop :=
  ∀ i, i < values.length → buffer[(start + i) % buffer.length]? = values[i]?

namespace HoldsAround

variable {α : Type*}

theorem nil : HoldsAround buffer start [] := fun i inside => absurd inside (Nat.not_lt_zero i)

/-- Two positions less than a round apart are different. -/
theorem mod_ne {i j size : Nat} (apart : i < j) (near : j < i + size) : i % size ≠ j % size := by
  intro same
  have divides : size ∣ j - i := (Nat.modEq_iff_dvd' apart.le).mp same
  have := Nat.le_of_dvd (Nat.sub_pos_of_lt apart) divides
  omega

/-- One more value behind the others. -/
theorem push (holds : HoldsAround buffer start values) (value : α)
    (room : values.length < buffer.length) :
    HoldsAround (buffer.set ((start + values.length) % buffer.length) value) start
      (values ++ [value]) := by
  intro i inside
  rw [length_set]
  rw [length_append, length_singleton] at inside
  rcases Nat.lt_or_ge i values.length with old | last
  · have ne : (start + i) % buffer.length ≠ (start + values.length) % buffer.length :=
      mod_ne (by omega) (by omega)
    rw [getElem?_set_ne ne.symm, getElem?_append_left old]
    exact holds i old
  obtain rfl : i = values.length := by omega
  rw [getElem?_set_self (Nat.mod_lt _ (by omega))]
  simp

theorem drop (holds : HoldsAround buffer start values) (n : Nat) :
    HoldsAround buffer (start + n) (values.drop n) := by
  intro i inside
  rw [length_drop] at inside
  rw [getElem?_drop, Nat.add_assoc]
  exact holds (n + i) (by omega)

end HoldsAround

end TinyKernel.Lib
