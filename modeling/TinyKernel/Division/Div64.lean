import Mathlib.Data.Nat.Size
import Mathlib.Tactic.Linarith
import TinyKernel.Lib.Words

/-!
# Long division

The 64-bit divisions of `lib/div64.c` for 32-bit builds. Words are natural numbers, reduced where
the code stores them.
-/

namespace TinyKernel.Division

open Lib Nat

/-- The first loop of `__div64_32` doubles the divisor. -/
def doubled (rem b d : Nat) : Nat × Nat :=
  if 0 < b ∧ b < 2 ^ 63 ∧ b < rem then doubled rem ((b + b) % 2 ^ 64) ((d + d) % 2 ^ 64) else (b, d)
termination_by rem - b

def subtract (rem res b d : Nat) : Nat × Nat :=
  if b ≤ rem then (rem - b, (res + d) % 2 ^ 64) else (rem, res)

/-- The second loop subtracts it back. -/
def subtracted (rem res b d : Nat) : Nat × Nat :=
  let (rem, res) := subtract rem res b d
  if d / 2 = 0 then (res, rem) else subtracted rem res (b / 2) (d / 2)
termination_by d

/-- The quotient in `*n` and the returned remainder. -/
def div64_32 (n base : Nat) : Nat × Nat :=
  let high := n / 2 ^ 32
  let (rem, res) := if base ≤ high
    then (n - high / base * base % 2 ^ 32 * 2 ^ 32, high / base * 2 ^ 32) else (n, 0)
  let (b, d) := doubled rem base 1
  let (res, rem) := subtracted rem res b d
  (res, rem % 2 ^ 32)

theorem doubled_spec (pos : 0 < base) (word : rem < 2 ^ 64) (scaled : b = base * d)
    (power : ∃ k, d = 2 ^ k) :
    ∃ k, doubled rem b d = (base * 2 ^ k, 2 ^ k) ∧ rem < 2 * (base * 2 ^ k) := by
  have least : d ≤ b := scaled ▸ Nat.le_mul_of_pos_left d pos
  fun_induction doubled rem b d with
  | case1 b d again ih =>
      rw [mod_eq_of_lt (by omega), mod_eq_of_lt (by omega)] at ih ⊢
      obtain ⟨k, rfl⟩ := power
      refine ih ?_ ⟨k + 1, by rw [pow_succ 2 k, mul_two]⟩ (by omega)
      rw [scaled, mul_add]
  | case2 b d ended => ?_
  obtain ⟨k, rfl⟩ := power
  have some := Nat.two_pow_pos k
  subst scaled
  exact ⟨k, rfl, by omega⟩

theorem subtract_spec (total : base * res + rem = n) (word : n < 2 ^ 64)
    (near : rem < 2 * (base * d)) :
    ∃ rem' res', subtract rem res (base * d) d = (rem', res') ∧ base * res' + rem' = n ∧
      rem' < base * d := by
  rw [subtract]
  split
  · have sum : base * (res + d) + (rem - base * d) = n := by
      rw [mul_add]
      omega
    have pos : 0 < base := Nat.pos_of_ne_zero (by rintro rfl; omega)
    have least := Nat.le_mul_of_pos_left (res + d) pos
    rw [Nat.mod_eq_of_lt (by omega)]
    exact ⟨_, _, rfl, sum, by omega⟩
  exact ⟨rem, res, rfl, total, by omega⟩

theorem subtracted_spec (total : base * res + rem = n) (word : n < 2 ^ 64)
    (near : rem < 2 * (base * 2 ^ k)) :
    subtracted rem res (base * 2 ^ k) (2 ^ k) = (n / base, n % base) := by
  induction k generalizing rem res with
  | zero =>
      obtain ⟨rem', res', step, total', below⟩ := subtract_spec total word near
      rw [Nat.pow_zero, Nat.mul_one] at below
      obtain ⟨quotient, remainder⟩ :=
        (Nat.div_mod_unique (by omega)).mpr ⟨(Nat.add_comm ..).trans total', below⟩
      rw [subtracted, step, quotient, remainder]
      rfl
  | succ k ih => ?_
  obtain ⟨rem', res', step, total', below⟩ := subtract_spec total word near
  have some := Nat.two_pow_pos k
  have half : 2 ^ (k + 1) / 2 = 2 ^ k := by omega
  have half' : base * 2 ^ (k + 1) / 2 = base * 2 ^ k := by
    rw [pow_succ 2 k, ← Nat.mul_assoc, Nat.mul_div_cancel _ (by decide)]
  rw [subtracted, step]
  simp only [half, half', some.ne', if_false]
  rw [pow_succ 2 k, ← mul_assoc, mul_comm] at below
  exact ih total' below

/-- `__div64_32` divides every word by every 32-bit one. -/
theorem div64_32_exact (n base : Nat) (word : n < 2 ^ 64) (divisor : base < 2 ^ 32)
    (ne : base ≠ 0) : div64_32 n base = (n / base, n % base) := by
  have pos := pos_of_ne_zero ne
  -- the high word is divided first
  have finish (rem res : Nat) (total : base * res + rem = n) :
      ∃ b d, doubled rem base 1 = (b, d) ∧ subtracted rem res b d = (n / base, n % base) := by
    obtain ⟨k, twice, near⟩ :=
      doubled_spec pos (by omega : rem < 2 ^ 64) (mul_one base).symm ⟨0, rfl⟩
    exact ⟨_, _, twice, subtracted_spec total word near⟩
  have small : n % base % 2 ^ 32 = n % base := mod_eq_of_lt ((mod_lt n pos).trans divisor)
  simp only [div64_32]
  split
  · have high := div_mul_le_self (n / 2 ^ 32) base
    rw [mod_eq_of_lt (by omega)]
    obtain ⟨b, d, twice, quotient⟩ := finish (n - n / 2 ^ 32 / base * base * 2 ^ 32)
      (n / 2 ^ 32 / base * 2 ^ 32) (by rw [← mul_assoc, mul_comm base]; omega)
    simp only [twice, quotient, small]
  obtain ⟨b, d, twice, quotient⟩ := finish n 0 (zero_add n)
  simp only [twice, quotient, small]

theorem div64_32_exact_top :
    div64_32 (2 ^ 64 - 1) (2 ^ 32 - 1) =
      ((2 ^ 64 - 1) / (2 ^ 32 - 1), (2 ^ 64 - 1) % (2 ^ 32 - 1)) :=
  div64_32_exact _ _ (by decide) (by decide) (by decide)

/-- The quotient of the operands without their low bits, less one. -/
def estimate (dividend divisor : Nat) : Nat :=
  let n := 1 + (divisor / 2 ^ 32).size
  let quot := dividend / 2 ^ n / (divisor / 2 ^ n % 2 ^ 32)
  if quot ≠ 0 then quot - 1 else quot

/-- `div_u64_rem` by a 32-bit divisor is taken as exact. -/
def div64U64Rem (dividend divisor : Nat) : Nat × Nat :=
  if divisor / 2 ^ 32 = 0 then (dividend / (divisor % 2 ^ 32), dividend % (divisor % 2 ^ 32))
  else
    let quot := estimate dividend divisor
    let remainder := Words.minus 64 dividend (quot * divisor % 2 ^ 64)
    if divisor ≤ remainder then (quot + 1, remainder - divisor) else (quot, remainder)

def div64U64 (dividend divisor : Nat) : Nat :=
  if divisor / 2 ^ 32 = 0 then dividend / (divisor % 2 ^ 32)
  else
    let quot := estimate dividend divisor
    if divisor ≤ Words.minus 64 dividend (quot * divisor % 2 ^ 64) then quot + 1 else quot

def abs64 (x : BitVec 64) : BitVec 64 := if x.msb then -x else x

def div64S64 (dividend divisor : BitVec 64) : BitVec 64 :=
  let quot := BitVec.ofNat 64 (div64U64 (abs64 dividend).toNat (abs64 divisor).toNat)
  let t := (dividend ^^^ divisor).sshiftRight 63
  (quot ^^^ t) - t

/-- The divisor is short, or without the low bits of the operands the quotient grows by one at
most. -/
def Near (dividend divisor : Nat) : Prop :=
  divisor < 2 ^ 32 ∨ dividend / 2 ^ (1 + (divisor / 2 ^ 32).size) /
    (divisor / 2 ^ (1 + (divisor / 2 ^ 32).size)) ≤ dividend / divisor + 1

/-- Without their low bits two numbers have no smaller a quotient. -/
theorem le_div_scaled (pos : 0 < scale) (large : 0 < v / scale) :
    u / v ≤ u / scale / (v / scale) := by
  rw [le_div_iff_mul_le large, le_div_iff_mul_le pos, mul_assoc]
  exact (Nat.mul_le_mul_left _ (div_mul_le_self v scale)).trans (div_mul_le_self u v)

/-- The divisor keeps 31 bits. -/
theorem size_shift (high : v / 2 ^ 32 ≠ 0) :
    2 ^ 30 ≤ v / 2 ^ (1 + (v / 2 ^ 32).size) ∧ v / 2 ^ (1 + (v / 2 ^ 32).size) < 2 ^ 32 := by
  obtain ⟨k, size⟩ := exists_eq_succ_of_ne_zero (size_pos.mpr (pos_of_ne_zero high)).ne'
  have lower : 2 ^ k ≤ v / 2 ^ 32 := lt_size.mp (by omega)
  have upper := lt_size_self (v / 2 ^ 32)
  have power : 2 ^ (1 + (k + 1)) = 4 * 2 ^ k := by
    rw [pow_add, pow_succ 2 k]
    omega
  rw [size, succ_eq_add_one, power]
  rw [size, succ_eq_add_one, pow_succ 2 k] at upper
  constructor
  · rw [le_div_iff_mul_le (by omega)]
    omega
  apply Nat.div_lt_of_lt_mul
  omega

theorem estimate_spec (high : v / 2 ^ 32 ≠ 0) :
    u / v ≤ estimate u v + 1 ∧ (estimate u v ≤ u / v ↔ Near u v) := by
  obtain ⟨large, small⟩ := size_shift high
  have least := le_div_scaled (u := u) (Nat.two_pow_pos _) ((Nat.two_pow_pos 30).trans_le large)
  simp only [estimate, Near, Nat.mod_eq_of_lt small]
  generalize u / v = q at *
  split
  · omega
  omega

/-- A quotient that is at most one too small is corrected by the remainder. -/
theorem corrected (word : u < 2 ^ 64) (pos : 0 < v) (least : quot ≤ u / v)
    (most : u / v ≤ quot + 1) :
    let remainder := Words.minus 64 u (quot * v % 2 ^ 64)
    (if v ≤ remainder then (quot + 1, remainder - v) else (quot, remainder)) = (u / v, u % v) := by
  have total := div_add_mod' u v
  have below := mod_lt u pos
  have product := mul_le_mul_right v least
  simp only
    [mod_eq_of_lt (by omega : quot * v < 2 ^ 64), Words.minus_eq (by omega : quot * v ≤ u) word]
  rcases least.eq_or_lt with same | less
  · subst same
    rw [if_neg (by omega)]
    exact Prod.ext rfl (by simp only; omega)
  obtain same : u / v = quot + 1 := by omega
  rw [same, succ_mul] at total
  rw [if_pos (by omega)]
  exact Prod.ext same.symm (by simp only; omega)

theorem div64U64Rem_eq (word : u < 2 ^ 64) (ne : v ≠ 0) (near : Near u v) :
    div64U64Rem u v = (u / v, u % v) := by
  rw [div64U64Rem]
  split
  · rw [mod_eq_of_lt (by omega : v < 2 ^ 32)]
  rename_i high
  obtain ⟨most, least⟩ := estimate_spec (u := u) high
  exact corrected word (pos_of_ne_zero ne) (least.mpr near) most

/-- An estimate that is still too large is never lowered again. -/
theorem lt_div64U64Rem (far : ¬Near u v) : u / v < (div64U64Rem u v).1 := by
  have high : v / 2 ^ 32 ≠ 0 := by
    intro low
    exact far (.inl (by omega))
  have above := lt_of_not_ge (mt (estimate_spec high).2.mp far)
  rw [div64U64Rem, if_neg high]
  simp only
  split
  · exact above.trans (lt_succ_self _)
  exact above

theorem div64U64Rem_lt (word : u < 2 ^ 64) : (div64U64Rem u v).1 < 2 ^ 64 := by
  rw [div64U64Rem]
  split
  · exact (div_le_self ..).trans_lt word
  have below : estimate u v ≤ u / 2 ^ (1 + (v / 2 ^ 32).size) := by
    simp only [estimate]
    split
    · exact (sub_le ..).trans (div_le_self ..)
    exact div_le_self ..
  have half : u / 2 ^ (1 + (v / 2 ^ 32).size) ≤ u / 2 := div_le_div_left (by
    rw [pow_add]
    exact Nat.le_mul_of_pos_right _ (Nat.two_pow_pos _)) (by decide)
  simp only
  split <;> simp only <;> omega

theorem div64U64_eq : div64U64 u v = (div64U64Rem u v).1 := by
  simp only [div64U64, div64U64Rem]
  split
  · rfl
  split
  · rfl
  rfl

/-- The sign mask negates. -/
theorem xor_sub_sign (quot x : BitVec 64) :
    (quot ^^^ x.sshiftRight 63) - x.sshiftRight 63 = if x.msb then -quot else quot := by
  have mask : x.sshiftRight 63 = if x.msb then -1#64 else 0 := by
    apply BitVec.eq_of_toInt_eq
    rw [BitVec.toInt_sshiftRight, Int.shiftRight_eq_div_pow, BitVec.msb_eq_toInt]
    have low := BitVec.le_toInt x
    have high := x.toInt_lt
    by_cases negative : x.toInt < 0
    · rw [if_pos (decide_eq_true negative)]
      exact (by omega : x.toInt / 2 ^ 63 = -1)
    rw [if_neg (by simpa using negative)]
    exact (by omega : x.toInt / 2 ^ 63 = 0)
  rw [mask]
  split
  · rw [BitVec.neg_one_eq_allOnes, BitVec.xor_allOnes, ← BitVec.neg_one_eq_allOnes, BitVec.sub_neg,
      BitVec.neg_eq_not_add]
  simp

theorem div64S64_eq_iff (ne : y ≠ 0) :
    div64S64 x y = x.sdiv y ↔ Near (abs64 x).toNat (abs64 y).toNat := by
  have nonzero' : (abs64 y).toNat ≠ 0 := by
    intro zero
    have zero : abs64 y = 0 := BitVec.eq_of_toNat_eq zero
    rw [abs64] at zero
    split at zero <;> simp_all
  have quotient : BitVec.ofNat 64 (div64U64 (abs64 x).toNat (abs64 y).toNat) =
        (abs64 x).udiv (abs64 y) ↔ Near (abs64 x).toNat (abs64 y).toNat := by
    rw [div64U64_eq, ← BitVec.toNat_inj, BitVec.toNat_ofNat,
      mod_eq_of_lt (div64U64Rem_lt (abs64 x).isLt)]
    constructor
    · intro same
      by_contra far
      exact (lt_div64U64Rem far).ne' same
    intro near
    rw [div64U64Rem_eq (abs64 x).isLt nonzero' near]
    rfl
  rw [← quotient]
  simp only [div64S64, xor_sub_sign, BitVec.msb_xor, BitVec.sdiv_eq]
  simp only [abs64]
  cases x.msb <;> cases y.msb <;> simp [BitVec.neg_inj]

/-- The divisions are exact for short divisors and exactly where the estimate is good enough. -/
theorem div64_exact_iff (u v : Nat) (x y : BitVec 64) :
    (u < 2 ^ 64 → v < 2 ^ 64 → v ≠ 0 →
        (div64U64 u v = u / v ↔ Near u v) ∧ (div64U64Rem u v = (u / v, u % v) ↔ Near u v)) ∧
      (y ≠ 0 → ¬(x = .intMin 64 ∧ y = -1) →
        ((div64S64 x y).toInt = x.toInt.tdiv y.toInt ↔ Near (abs64 x).toNat (abs64 y).toNat)) := by
  refine ⟨fun word _ ne => ?_, fun ne inRange => ?_⟩
  · have exact (near : Near u v) := div64U64Rem_eq word ne near
    have far (far : ¬Near u v) : (div64U64Rem u v).1 ≠ u / v := (lt_div64U64Rem far).ne'
    rw [div64U64_eq]
    refine ⟨⟨fun same => ?_, fun near => by rw [exact near]⟩, ⟨fun same => ?_, exact⟩⟩
    · by_contra apart
      exact far apart same
    by_contra apart
    exact far apart (by rw [same])
  rw [← div64S64_eq_iff ne, ← BitVec.toInt_sdiv_of_ne_or_ne _ _ (not_and_or.mp inRange),
    BitVec.toInt_inj]

/-- The largest dividend, for which the estimate by the least long divisor is right. -/
theorem div64_exact_iff_long :
    div64U64Rem (2 ^ 64 - 1) (2 ^ 32) = ((2 ^ 64 - 1) / 2 ^ 32, (2 ^ 64 - 1) % 2 ^ 32) ∧
      (div64S64 (-7) (-2)).toInt =
        Int.tdiv (BitVec.toInt (-7 : BitVec 64)) (BitVec.toInt (-2 : BitVec 64)) := by
  obtain ⟨word, signed⟩ := div64_exact_iff (2 ^ 64 - 1) (2 ^ 32) (-7) (-2)
  refine ⟨(word (by decide) (by decide) (by decide)).2.mpr (.inr ?_),
    (signed (by decide) (by decide)).mpr (.inl ?_)⟩
  · decide +kernel
  decide

/-- The shift takes one bit too many: the quotient is two too large. -/
theorem div64_off_by_two :
    div64U64 (2 ^ 64 - 1) (2 ^ 32 + 3) = 2 ^ 32 - 1 ∧ (2 ^ 64 - 1) / (2 ^ 32 + 3) = 2 ^ 32 - 3 := by
  decide +kernel

end TinyKernel.Division
