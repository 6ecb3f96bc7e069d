import Mathlib.Data.Nat.Size
import Mathlib.Tactic.Ring

/-!
# Reciprocal division

`reciprocal_value` of `lib/reciprocal_div.c` turns a divisor into a multiplier and two shifts, with
which `reciprocal_divide` divides.
-/

namespace TinyKernel.Division

structure ReciprocalValue where
  m : Nat
  sh1 : Nat
  sh2 : Nat

/-- The words are reduced where the code stores them; `fls` counts the bits. -/
def reciprocalValue (d : Nat) : ReciprocalValue :=
  let l := ((d + 2 ^ 32 - 1) % 2 ^ 32).size
  let m := 2 ^ 32 * ((2 ^ l + 2 ^ 64 - d) % 2 ^ 64) % 2 ^ 64 / d
  ⟨(m + 1) % 2 ^ 32, min l 1, l - 1⟩

def reciprocalDivide (a : Nat) (r : ReciprocalValue) : Nat :=
  let t := a * r.m / 2 ^ 32 % 2 ^ 32
  ((t + (a + 2 ^ 32 - t) % 2 ^ 32 / 2 ^ r.sh1) % 2 ^ 32) / 2 ^ r.sh2

/-- A multiplier that is a little too large divides exactly below a bound. -/
theorem mul_div_of_scaled (scaled : multiplier * d = scale + excess) (small : a * excess < scale)
    (pos : 0 < d) : a * multiplier / scale = a / d := by
  have total : a * multiplier * d = a * scale + a * excess := by
    rw [Nat.mul_assoc, scaled, Nat.mul_add]
  have least := Nat.div_mul_le_self a d
  have below : a + 1 ≤ d * (a / d + 1) := Nat.lt_mul_div_succ a pos
  apply Nat.div_eq_of_lt_le
  · apply Nat.le_of_mul_le_mul_right _ pos
    calc a / d * scale * d = a / d * d * scale := by ring
      _ ≤ a * scale := Nat.mul_le_mul_right scale least
      _ ≤ a * multiplier * d := by omega
  apply Nat.lt_of_mul_lt_mul_right
  calc a * multiplier * d < (a + 1) * scale := by rw [Nat.add_mul]; omega
    _ ≤ d * (a / d + 1) * scale := Nat.mul_le_mul_right scale below
    _ = (a / d + 1) * scale * d := by ring

/-- The number of bits puts a divisor between two powers of two. -/
theorem size_pred (low : 2 ≤ d) (word : d < 2 ^ 32) :
    ∃ k < 32, (d - 1).size = k + 1 ∧ 2 ^ k < d ∧ d ≤ 2 ^ k + 2 ^ k := by
  have some : 0 < (d - 1).size := Nat.size_pos.mpr (by omega)
  obtain ⟨k, size⟩ := Nat.exists_eq_succ_of_ne_zero some.ne'
  have few : (d - 1).size ≤ 32 := Nat.size_le.mpr (by omega)
  have lower : 2 ^ k ≤ d - 1 := Nat.lt_size.mp (by omega)
  have upper := Nat.lt_size_self (d - 1)
  rw [size, Nat.pow_succ] at upper
  exact ⟨k, by omega, size, by omega, by omega⟩

/-- The division of the larger dividend by a power of two. -/
theorem reciprocalDivide_eq (word : a < 2 ^ 32) (small : m < 2 ^ 32) :
    reciprocalDivide a ⟨m, 1, k⟩ = a * (2 ^ 32 + m) / 2 ^ (32 + (k + 1)) := by
  have fewer : a * m / 2 ^ 32 ≤ a := by
    apply Nat.div_le_of_le_mul
    rw [Nat.mul_comm]
    exact Nat.mul_le_mul_right a small.le
  have sum : a * (2 ^ 32 + m) / 2 ^ 32 = a + a * m / 2 ^ 32 := by
    rw [Nat.mul_add, Nat.mul_comm a (2 ^ 32), Nat.mul_add_div (by decide)]
  rw [Nat.pow_add, ← Nat.div_div_eq_div_mul, sum, pow_succ' 2 k, ← Nat.div_div_eq_div_mul]
  simp only [reciprocalDivide]
  congr 1
  omega

/-- Multiplying by the reciprocal divides every word by every other one. -/
theorem reciprocal_divide_exact (d a : Nat) (pos : 1 ≤ d) (divisor : d < 2 ^ 32)
    (dividend : a < 2 ^ 32) : reciprocalDivide a (reciprocalValue d) = a / d := by
  have pred : (d + 2 ^ 32 - 1) % 2 ^ 32 = d - 1 := by omega
  rcases pos.eq_or_lt with rfl | two
  · have one : reciprocalValue 1 = ⟨1, 0, 0⟩ := by simp [reciprocalValue]
    simp only [one, reciprocalDivide]
    omega
  obtain ⟨k, few, size, above, below⟩ := size_pred two divisor
  have wide : (2 ^ (k + 1) + 2 ^ 64 - d) % 2 ^ 64 = 2 ^ k + 2 ^ k - d := by omega
  simp only [reciprocalValue, pred, size, wide, Nat.add_sub_cancel]
  have quotient := Nat.div_add_mod (2 ^ 32 * (2 ^ k + 2 ^ k - d)) d
  have rest := Nat.mod_lt (2 ^ 32 * (2 ^ k + 2 ^ k - d)) pos
  rw [Nat.mod_eq_of_lt (by omega : 2 ^ 32 * (2 ^ k + 2 ^ k - d) < 2 ^ 64)]
  generalize 2 ^ 32 * (2 ^ k + 2 ^ k - d) / d = q at *
  generalize 2 ^ 32 * (2 ^ k + 2 ^ k - d) % d = r at *
  have scale : 2 ^ (32 + (k + 1)) = 2 ^ 32 * (2 ^ k + 2 ^ k) := by
    rw [Nat.pow_add, pow_succ 2 k, Nat.mul_two]
  have small : q + 1 < 2 ^ 32 := by
    by_contra large
    have product := Nat.mul_le_mul_left d (by omega : 2 ^ 32 - 1 ≤ q)
    omega
  have scaled : (2 ^ 32 + (q + 1)) * d = 2 ^ (32 + (k + 1)) + (d - r) := by
    rw [scale, Nat.add_mul, Nat.succ_mul, Nat.mul_comm q]
    omega
  have excess : a * (d - r) < 2 ^ (32 + (k + 1)) := by
    rw [scale]
    exact Nat.mul_lt_mul_of_lt_of_le dividend (by omega) (by omega)
  rw [Nat.mod_eq_of_lt small, min_eq_right (by omega), reciprocalDivide_eq dividend small,
    mul_div_of_scaled scaled excess pos]

theorem reciprocal_divide_exact_seven :
    reciprocalDivide (2 ^ 32 - 1) (reciprocalValue 7) = (2 ^ 32 - 1) / 7 :=
  reciprocal_divide_exact 7 (2 ^ 32 - 1) (by decide) (by decide) (by decide)

end TinyKernel.Division
