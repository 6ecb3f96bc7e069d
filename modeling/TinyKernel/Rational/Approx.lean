import Mathlib.Algebra.Order.Field.Rat
import Mathlib.Algebra.Order.Field.Basic
import Mathlib.Tactic.Linarith
import Mathlib.Tactic.LinearCombination
import Mathlib.Tactic.GCongr
import Mathlib.Tactic.Ring

/-!
# Rational approximation

`rational_best_approximation` of `lib/rational.c` expands a fraction into its continued
fraction and stops at the first convergent that leaves the bounds.
-/

namespace TinyKernel.Rational

/-- What is left of the fraction, and the last two convergents. -/
structure Locals where
  n : Nat
  d : Nat
  n0 : Nat
  d0 : Nat
  n1 : Nat
  d1 : Nat

variable (bits : Nat)

/-- The next convergent term in an `unsigned long`. -/
def term (n d last current : Nat) : Nat := (last + n / d * current) % 2 ^ bits

def Locals.next (locals : Locals) : Locals where
  n := locals.d
  d := locals.n % locals.d
  n0 := locals.n1
  d0 := locals.d1
  n1 := term bits locals.n locals.d locals.n0 locals.n1
  d1 := term bits locals.n locals.d locals.d0 locals.d1

/-- The two convergents and the remainders still make up the given fraction, and the convergents are
neighbours: no fraction with smaller terms lies between them. -/
structure Locals.Expands (locals : Locals) (numerator denominator : Nat) : Prop where
  numerator_eq : locals.n1 * locals.n + locals.n0 * locals.d = numerator
  denominator_eq : locals.d1 * locals.n + locals.d0 * locals.d = denominator
  neighbours : (locals.n1 * locals.d0 - locals.n0 * locals.d1 : ℤ).natAbs = 1

variable {bits} {numerator denominator maxNumerator maxDenominator : Nat} {locals : Locals}

/-- The products never wrap: a term is at most the number it is a term of. -/
theorem term_eq (expands : cur * n + last * d = total) (pos : 0 < d) (word : total < 2 ^ bits) :
    term bits n d last cur = last + n / d * cur ∧
      (last + n / d * cur) * d + cur * (n % d) = total := by
  have sum : (last + n / d * cur) * d + cur * (n % d) = total := by
    rw [← expands]
    nth_rewrite 3 [← Nat.div_add_mod n d]
    ring
  have bounded := Nat.le_mul_of_pos_right (last + n / d * cur) pos
  exact ⟨Nat.mod_eq_of_lt (by omega), sum⟩

theorem Locals.Expands.next (expands : locals.Expands numerator denominator) (pos : 0 < locals.d)
    (word : numerator < 2 ^ bits) (word' : denominator < 2 ^ bits) :
    (locals.next bits).Expands numerator denominator := by
  obtain ⟨term, sum⟩ := term_eq expands.numerator_eq pos word
  obtain ⟨term', sum'⟩ := term_eq expands.denominator_eq pos word'
  refine ⟨?_, ?_, ?_⟩ <;> simp only [Locals.next, term, term']
  · exact sum
  · exact sum'
  rw [← expands.neighbours, ← Int.natAbs_neg]
  congr 1
  push_cast
  ring

end TinyKernel.Rational
