import Mathlib.Data.Nat.Bitwise
import Mathlib.Data.Nat.ModEq

/-! Sums and differences of unsigned machine words, and rounding to an alignment. -/

namespace TinyKernel.Lib.Words

open Nat

def plus (bits a b : Nat) : Nat := (a + b) % 2 ^ bits

def minus (bits a b : Nat) : Nat := (a + 2 ^ bits - b) % 2 ^ bits

variable {bits a b : Nat}

theorem plus_eq (small : a + b < 2 ^ bits) : plus bits a b = a + b := mod_eq_of_lt small

theorem minus_eq (le : b ≤ a) (small : a < 2 ^ bits) : minus bits a b = a - b := by
  have split : a + 2 ^ bits - b = a - b + 2 ^ bits := by omega
  rw [minus, split, add_mod_right]
  exact mod_eq_of_lt (by omega)

/-- A word wraps around exactly when the sum is less than a summand. -/
theorem plus_lt_iff (left : a < 2 ^ bits) (right : b < 2 ^ bits) :
    plus bits a b < a ↔ 2 ^ bits ≤ a + b := by
  constructor
  · intro less
    by_contra small
    rw [plus_eq (by omega)] at less
    omega
  intro wraps
  rw [plus, mod_eq_sub_mod wraps, mod_eq_of_lt (by omega)]
  omega

section

variable {mask k : Nat}

/-- The low bits of a difference, for a mask of low bits. -/
theorem minus_and (mask_eq : mask + 1 = 2 ^ k) (small : mask < 2 ^ bits) (right : b < 2 ^ bits) :
    minus bits a b &&& mask < 2 ^ k ∧ (b + (minus bits a b &&& mask)) % 2 ^ k = a % 2 ^ k := by
  have mask_sub : mask = 2 ^ k - 1 := by omega
  have le : 2 ^ k ≤ 2 ^ bits := by omega
  have divides : 2 ^ k ∣ 2 ^ bits := Nat.pow_dvd_pow 2 ((Nat.pow_le_pow_iff_right (by omega)).mp le)
  have low : minus bits a b &&& mask = (a + 2 ^ bits - b) % 2 ^ k := by
    rw [mask_sub, and_two_pow_sub_one_eq_mod, minus, mod_mod_of_dvd _ divides]
  rw [low]
  refine ⟨Nat.mod_lt _ (Nat.two_pow_pos k), ?_⟩
  obtain ⟨c, whole⟩ := divides
  have sum : b + (a + 2 ^ bits - b) = a + 2 ^ k * c := by omega
  rw [add_mod_mod, sum, add_mul_mod_self_left]

/-- The word moved up to the next one with the offset's low bits. -/
theorem align_up (offset : Nat) (mask_eq : mask + 1 = 2 ^ k) (room : b + mask < 2 ^ bits) :
    ∃ up ≤ mask, plus bits b (minus bits offset b &&& mask) = b + up ∧
      (b + up) % 2 ^ k = offset % 2 ^ k := by
  obtain ⟨less, low⟩ := minus_and (a := offset) mask_eq (by omega) (show b < 2 ^ bits by omega)
  exact ⟨minus bits offset b &&& mask, by omega, plus_eq (by omega), low⟩

/-- The word moved down to the one before with the offset's low bits. -/
theorem align_down {offset : Nat} (mask_eq : mask + 1 = 2 ^ k) (room : mask ≤ b)
    (small : b < 2 ^ bits) (right : offset < 2 ^ bits) :
    ∃ down ≤ mask, minus bits b (minus bits b offset &&& mask) = b - down ∧
      (b - down) % 2 ^ k = offset % 2 ^ k := by
  obtain ⟨less, low⟩ := minus_and (a := b) mask_eq (by omega) right
  refine ⟨minus bits b offset &&& mask, by omega, minus_eq (by omega) small, ?_⟩
  have sum : (b - (minus bits b offset &&& mask) + (minus bits b offset &&& mask)) % 2 ^ k =
      (offset + (minus bits b offset &&& mask)) % 2 ^ k := by
    rw [Nat.sub_add_cancel (by omega), low]
  exact Nat.ModEq.add_right_cancel' _ sum

end

end TinyKernel.Lib.Words
