import Mathlib.Algebra.Order.Ring.Int
import Mathlib.Order.ConditionallyCompleteLattice.Defs
import Mathlib.Order.ConditionallyCompletePartialOrder.Defs
import TinyKernel.Genalloc.Owners

/-! The invariant of a pool and its steps. -/

namespace TinyKernel.Genalloc

open Lib Int

theorem toInt_of_lt (low : 0 ≤ value) (high : value < 2 ^ 31) : toInt value = value := by
  apply bmod_eq_of_le <;> omega

theorem toUlong_natCast {value : Nat} (high : value < 2 ^ 64) : toUlong value = value := by
  rw [toUlong]
  omega

theorem toUint_natCast {value : Nat} (high : value < 2 ^ 32) : toUint value = value := by
  rw [toUint]
  omega

theorem toInt_toInt_add (first second : Int) :
    toInt (toInt first + second) = toInt (first + second) :=
  bmod_add_bmod

theorem toInt_add_toInt (first second : Int) :
    toInt (first + toInt second) = toInt (first + second) :=
  add_bmod_bmod

theorem toInt_sub_toInt (first second : Int) :
    toInt (first + -toInt second) = toInt (first - second) := by
  exact sub_bmod_bmod

variable {pool : Pool}

/-- The number of granules for some bytes. -/
def Pool.granules (pool : Pool) (size : Nat) : Nat :=
  (size + (2 ^ pool.order - 1)) / 2 ^ pool.order

/-- The number of granules of a chunk. -/
def Pool.room (pool : Pool) (c : Fin pool.count) : Nat := chunkSize (pool.chunk c) / 2 ^ pool.order

/-- Chunks of different memory, none at address zero and none as large as an `int` can not count. -/
structure Pool.Sound (pool : Pool) : Prop where
  start : ∀ c, 0 < (pool.chunk c).startAddr
  ordered : ∀ c, (pool.chunk c).startAddr ≤ (pool.chunk c).endAddr
  last : ∀ c, (pool.chunk c).endAddr < 2 ^ 64
  small : ∀ c, chunkSize (pool.chunk c) < 2 ^ 31
  apart : ∀ c d, c ≠ d → (pool.chunk c).endAddr < (pool.chunk d).startAddr ∨
    (pool.chunk d).endAddr < (pool.chunk c).startAddr

/-- A request whose granules an `int` can count, also behind the end of a chunk. -/
structure Pool.Fits (pool : Pool) (size : Nat) : Prop where
  bytes : size + 2 ^ pool.order ≤ 2 ^ 64
  counted : pool.granules size < 2 ^ 31
  behind : ∀ c, pool.room c + 3 * pool.granules size < 2 ^ 31

section

theorem Pool.Sound.size_eq (sound : pool.Sound) (c : Fin pool.count) :
    chunkSize (pool.chunk c) = (pool.chunk c).endAddr + 1 - (pool.chunk c).startAddr := by
  have := sound.start c
  have := sound.ordered c
  have := sound.last c
  rw [chunkSize]
  omega

theorem Pool.Sound.endBit_eq (sound : pool.Sound) (c : Fin pool.count) :
    pool.endBit c = pool.room c := by
  have small : chunkSize (pool.chunk c) / 2 ^ pool.order < 2 ^ 31 :=
    (Nat.div_le_self _ _).trans_lt (sound.small c)
  exact toInt_of_lt (natCast_nonneg _) (by exact_mod_cast small)

theorem Pool.Fits.nbits_eq (fits : pool.Fits size) : pool.nbits size = pool.granules size := by
  have pos := Nat.two_pow_pos pool.order
  have bytes := fits.bytes
  have counted := fits.counted
  rw [Pool.nbits, Nat.mod_eq_of_lt (by omega)]
  exact toInt_of_lt (natCast_nonneg _) (by exact_mod_cast counted)

theorem Pool.granules_pos (some : 0 < size) : 0 < pool.granules size := by
  have pos := Nat.two_pow_pos pool.order
  exact Nat.div_pos (by omega) pos

theorem Pool.le_granules (pool : Pool) (size : Nat) :
    size ≤ pool.granules size * 2 ^ pool.order := by
  have pos := Nat.two_pow_pos pool.order
  have parts := Nat.div_add_mod (size + (2 ^ pool.order - 1)) (2 ^ pool.order)
  rw [Pool.granules, Nat.mul_comm]
  omega

/-- The variables of a call that was made with a size. -/
structure Request.Accepted (pool : Pool) (r : Request) : Prop where
  some : 0 < r.size
  fits : pool.Fits r.size
  nbits : r.nbits = pool.granules r.size

theorem Pool.Fits.accepted (fits : pool.Fits size) (some : 0 < size) :
    Request.Accepted pool ⟨size, pool.nbits size, 0⟩ := by
  rw [fits.nbits_eq]
  exact ⟨some, fits, rfl⟩

/-- The range of a call lies inside the chunk. -/
structure Request.Inside (pool : Pool) (r : Request) (c : Fin pool.count) :
    Prop extends r.Accepted pool where
  low : 0 ≤ r.startBit
  high : r.startBit.toNat + pool.granules r.size ≤ pool.room c

variable {r : Request}

theorem Request.Accepted.toNat (accepted : r.Accepted pool) :
    r.nbits.toNat = pool.granules r.size := by
  rw [accepted.nbits]
  rfl

/-- The place that a search returns is behind the chunk or inside it. -/
theorem Request.Accepted.place (sound : pool.Sound) (accepted : r.Accepted pool)
    (c : Fin pool.count) (views : Nat → Nat → Nat → Bool) (place : Nat)
    (found : pool.algo.find views (toUlong (pool.endBit c)) (toUlong r.startBit) (toUint r.nbits) =
      place) :
    toInt place = place ∧ (pool.room c ≤ place ∨ place + pool.granules r.size ≤ pool.room c) := by
  have behind := accepted.fits.behind c
  have some : 0 < pool.granules r.size := Pool.granules_pos accepted.some
  have small : pool.room c < 2 ^ 64 := by omega
  rw [sound.endBit_eq, accepted.nbits, toUlong_natCast small, toUint_natCast (by omega)] at found
  have range := pool.algo.find_range views (pool.room c) (toUlong r.startBit) some
  refine ⟨toInt_of_lt (natCast_nonneg _) ?_, by omega⟩
  norm_cast
  omega

/-- The end of the range in bytes. -/
theorem Request.Inside.bytes (sound : pool.Sound) (inside : r.Inside pool c) :
    (pool.chunk c).startAddr + r.startBit.toNat * 2 ^ pool.order +
        pool.granules r.size * 2 ^ pool.order ≤ (pool.chunk c).endAddr + 1 := by
  have size := sound.size_eq c
  have ordered := sound.ordered c
  have covered : (r.startBit.toNat + pool.granules r.size) * 2 ^ pool.order ≤
      chunkSize (pool.chunk c) :=
    (Nat.mul_le_mul_right _ inside.high).trans (Nat.div_mul_le_self _ _)
  rw [Nat.add_mul] at covered
  omega

theorem Request.Inside.addr (sound : pool.Sound) {c : Fin pool.count} (inside : r.Inside pool c) :
    addrOf pool r c = (pool.chunk c).startAddr + r.startBit.toNat * 2 ^ pool.order := by
  have bytes := inside.bytes sound
  have last := sound.last c
  have some : 0 < pool.granules r.size * 2 ^ pool.order :=
    Nat.mul_pos (Pool.granules_pos inside.some) (Nat.two_pow_pos _)
  have high := inside.high
  have behind := inside.fits.behind c
  have start : toUlong r.startBit = r.startBit.toNat := by
    conv_lhs => rw [← toNat_of_nonneg inside.low]
    exact toUlong_natCast (by omega)
  rw [addrOf, start]
  apply Nat.mod_eq_of_lt
  omega

/-- A chunk is found again by any of its addresses. -/
theorem Pool.Sound.chunkOf_eq (sound : pool.Sound) (low : (pool.chunk c).startAddr ≤ addr)
    (high : addr ≤ (pool.chunk c).endAddr) : chunkOf pool addr = some c := by
  have found : (chunkOf pool addr).isSome = true := by
    rw [chunkOf, List.find?_isSome]
    exact ⟨c, List.mem_finRange c, by simp [low, high]⟩
  obtain ⟨d, same⟩ := Option.isSome_iff_exists.mp found
  have holds := List.find?_some same
  have bounds : (pool.chunk d).startAddr ≤ addr ∧ addr ≤ (pool.chunk d).endAddr := by
    simpa using holds
  by_cases eq : c = d
  · rw [same, eq]
  have apart := sound.apart c d eq
  omega

end

/-- An allocation lies at a place of a chunk. -/
structure Allocation.Placed (pool : Pool) (a : Allocation) (c : Fin pool.count) (start : Nat) :
    Prop where
  some : 0 < a.size
  fits : pool.Fits a.size
  chunk : chunkOf pool a.addr = Option.some c
  addr : a.addr = (pool.chunk c).startAddr + start * 2 ^ pool.order
  high : start + pool.granules a.size ≤ pool.room c

section

variable {c : Fin pool.count}

theorem Allocation.Placed.startBit_eq {a : Allocation} (placed : a.Placed pool c start) :
    startBitOf pool a.addr c = start := by
  have behind := placed.fits.behind c
  have high := placed.high
  have quotient : (a.addr - (pool.chunk c).startAddr) / 2 ^ pool.order = start := by
    rw [placed.addr, Nat.add_sub_cancel_left, Nat.mul_div_cancel _ (Nat.two_pow_pos _)]
  rw [startBitOf, quotient]
  refine toInt_of_lt (natCast_nonneg _) ?_
  norm_cast
  omega

/-- What `gen_pool_free` computes for an allocation. -/
def Allocation.request (pool : Pool) (a : Allocation) (c : Fin pool.count) : Request :=
  ⟨a.size, pool.nbits a.size, startBitOf pool a.addr c⟩

theorem Allocation.Placed.inside {a : Allocation} (placed : a.Placed pool c start) :
    (a.request pool c).Inside pool c := by
  have nbits := placed.fits.nbits_eq
  simp only [Allocation.request, placed.startBit_eq, nbits]
  exact ⟨⟨placed.some, placed.fits, rfl⟩, natCast_nonneg _, placed.high⟩

theorem Request.Inside.placed (sound : pool.Sound) (inside : r.Inside pool c) :
    Allocation.Placed pool ⟨addrOf pool r c, r.size⟩ c r.startBit.toNat := by
  have bytes := inside.bytes sound
  have some : 0 < pool.granules r.size * 2 ^ pool.order :=
    Nat.mul_pos (Pool.granules_pos inside.some) (Nat.two_pow_pos _)
  have addr := inside.addr sound
  refine ⟨inside.some, inside.fits, sound.chunkOf_eq ?_ ?_, addr, inside.high⟩ <;> simp only [addr]
    <;> omega

end

end TinyKernel.Genalloc
