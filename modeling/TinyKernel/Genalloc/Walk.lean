import Mathlib.Algebra.Order.Ring.Nat
import TinyKernel.Genalloc.Code

/-! What the search and the walks over a bitmap do: a place that was found lies inside the bitmap,
and each word of a walk covers the next bits of its range. -/

namespace TinyKernel.Genalloc

open Nat
open BitVec hiding shiftLeft_eq

theorem alignMask_le (x mask : Nat) : alignMask x mask ≤ x + mask := by exact div_mul_le_self _ _

theorem area_range (views : Nat → Nat → Bool) (size start nr mask : Nat) :
    (size < bitmapFindNextZeroArea views size start nr mask ∧
        bitmapFindNextZeroArea views size start nr mask ≤ size + mask + nr) ∨
      bitmapFindNextZeroArea views size start nr mask + nr ≤ size := by
  fun_induction bitmapFindNextZeroArea views size start nr mask with
  | case1 views start index last out =>
    have low : findNextZeroBit (views 0) size start ≤ size := findNextBit_le _ size start
    have align : index ≤ findNextZeroBit (views 0) size start + mask := alignMask_le _ mask
    exact .inl ⟨out, by omega⟩
  | case2 views start index last inside i again ih => exact ih
  | case3 views start index last inside i found => exact .inr (not_lt.mp inside)

theorem bestFitLoop_range (views : Nat → Nat → Nat → Bool) {size nr startBit index : Nat}
    (len : Nat) (best : startBit = size ∨ startBit + nr ≤ size)
    (place : index < size → index + nr ≤ size) :
    bestFitLoop views size nr startBit len index = size ∨
      bestFitLoop views size nr startBit len index + nr ≤ size := by
  fun_induction bestFitLoop views size nr startBit len index with
  | case1 views startBit len index inside nextBit better fits =>
    have chosen : better = (index, nextBit - index) := if_pos fits.1
    rw [chosen]
    exact .inr (place inside)
  | case2 views startBit len index inside nextBit better worse ih =>
    apply ih
    · simp only [better]
      split
      next => exact .inr (place inside)
      next => exact best
    intro inside'
    have := area_range (views 1) size (nextBit + 1) nr 0
    omega
  | case3 views startBit len index out => exact best

theorem mask_lt (some : 0 < nr) : 2 ^ clog 2 nr - 1 ≤ 2 * nr := by
  rcases lt_or_ge 1 nr with many | one
  · have below := pow_pred_clog_lt_self one_lt_two many
    have pos := clog_pos one_lt_two many
    obtain ⟨log, same⟩ := Nat.exists_eq_succ_of_ne_zero pos.ne'
    rw [same, Nat.pred_succ] at below
    rw [same, Nat.pow_succ]
    omega
  obtain rfl : nr = 1 := by omega
  decide

/-- A search ends behind the bitmap, though not far behind it, or with room for all the bits. -/
theorem Algo.find_range (algo : Algo) (views : Nat → Nat → Nat → Bool) (size start : Nat) {nr : Nat}
    (some : 0 < nr) :
    (size ≤ algo.find views size start nr ∧ algo.find views size start nr ≤ size + 3 * nr) ∨
      algo.find views size start nr + nr ≤ size := by
  cases algo with
  | firstFit =>
    have range := area_range (views 0) size start nr 0
    rw [Algo.find, genPoolFirstFit]
    omega
  | firstFitOrderAlign =>
    have range := area_range (views 0) size start nr (2 ^ clog 2 nr - 1)
    have small := mask_lt some
    rw [Algo.find, genPoolFirstFitOrderAlign]
    omega
  | bestFit => ?_
  have first := area_range (views 0) size start nr 0
  have place : bitmapFindNextZeroArea (views 0) size start nr 0 < size →
      bitmapFindNextZeroArea (views 0) size start nr 0 + nr ≤ size := by omega
  rw [Algo.find, genPoolBestFit]
  rcases bestFitLoop_range (fun search => views (search + 1)) (size + 1) (.inl rfl) place with
    same | room
  · exact .inl (by omega)
  exact .inr room

theorem getLsbD_first (start i : Nat) :
    (bitmapFirstWordMask start).getLsbD i = decide (start % 64 ≤ i ∧ i < 64) := by
  rw [bitmapFirstWordMask, getLsbD_shiftLeft, getLsbD_allOnes, Bool.eq_iff_iff]
  simp only [Bool.and_eq_true, Bool.not_eq_true', decide_eq_true_eq, decide_eq_false_iff_not]
  omega

theorem getLsbD_last (nbits i : Nat) :
    (bitmapLastWordMask nbits).getLsbD i = decide (i < 64 ∧ (nbits % 64 = 0 ∨ i < nbits % 64)) := by
  rw [bitmapLastWordMask]
  split
  next some =>
    have small : nbits % 64 < 64 := mod_lt _ (by decide)
    have value : (1#64 <<< (nbits % 64)) - 1#64 = BitVec.ofNat 64 (2 ^ (nbits % 64) - 1) := by
      have pos : 0 < 2 ^ (nbits % 64) := Nat.two_pow_pos _
      apply eq_of_toNat_eq
      rw [toNat_sub, toNat_shiftLeft, toNat_ofNat, toNat_ofNat, shiftLeft_eq]
      omega
    rw [value, getLsbD_ofNat, testBit_two_pow_sub_one]
    simp [some]
  next none => rw [getLsbD_allOnes]; simp [not_not.mp none]

namespace Walk

/-- The first bit that is not done. -/
def lo (walk : Walk) : Nat := walk.size - walk.nr

/-- The end of the part in the current word. -/
def hi (walk : Walk) : Nat := if walk.bits ≤ walk.nr then walk.lo + walk.bits else walk.size

/-- A walk stands at the first bit that is not done, and has tested what it read. -/
structure Sound (mode : Mode) (walk : Walk) : Prop where
  word : walk.p = walk.lo / 64
  bits : walk.bits = 64 - walk.lo % 64
  mask : walk.mask = bitmapFirstWordMask walk.lo
  some : 0 < walk.nr
  inside : walk.nr ≤ walk.size
  tested : ∀ val, walk.val = Option.some val → mode.busy val walk.wordMask = false

variable {walk : Walk}

theorem Sound.hi_le (sound : walk.Sound mode) : walk.hi ≤ walk.size := by
  have := sound.inside
  rw [hi, lo]
  split <;> omega

theorem Sound.lo_lt (sound : walk.Sound mode) : walk.lo < walk.hi := by
  have := sound.inside
  have := sound.some
  have := sound.bits
  rw [hi, lo] at *
  split <;> omega

/-- The mask covers the bits of the part in the current word. -/
theorem Sound.covers (sound : walk.Sound mode) (bit : Nat) :
    bit / 64 = walk.p ∧ walk.wordMask.getLsbD (bit % 64) = true ↔
      walk.lo ≤ bit ∧ bit < walk.hi := by
  have inside := sound.inside
  have some := sound.some
  have bits := sound.bits
  have range : walk.lo + walk.nr = walk.size := by rw [lo]; omega
  rw [sound.word, wordMask, hi, sound.mask]
  split
  next whole =>
    rw [getLsbD_first, decide_eq_true_eq]
    omega
  next part =>
    rw [getLsbD_and, getLsbD_first, getLsbD_last, ← Bool.decide_and, decide_eq_true_eq]
    omega

/-- What an access to the current word can do. -/
inductive Accessed (mode : Mode) (walk : Walk) (current : Word) : Outcome × Word → Prop
  | refused : mode.busy current walk.wordMask = true →
    Accessed mode walk current (.done walk.nr, current)
  | read {walk' : Walk} : walk'.Sound mode → walk'.size = walk.size → walk'.nr = walk.nr →
      Accessed mode walk current (.more walk', current)
  | part {walk' : Walk} : mode.busy current walk.wordMask = false → walk'.Sound mode →
      walk'.size = walk.size → walk'.lo = walk.hi →
      Accessed mode walk current (.more walk', mode.apply current walk.wordMask)
  | whole : mode.busy current walk.wordMask = false → walk.hi = walk.size →
      Accessed mode walk current (.done 0, mode.apply current walk.wordMask)

theorem Sound.test (sound : walk.Sound mode) (cur : Word) :
    Accessed mode walk cur (walk.test mode cur, cur) := by
  rw [Walk.test]
  split
  next busy => exact .refused busy
  next idle =>
    have untouched : mode.busy cur walk.wordMask = false := by simpa using idle
    refine .read ⟨sound.word, sound.bits, sound.mask, sound.some, sound.inside, ?_⟩ rfl rfl
    rintro val ⟨⟩
    exact untouched

/-- After the current word the walk is at its end or at the next word. -/
theorem Sound.advance_cases (sound : walk.Sound mode) :
    (walk.advance = .done 0 ∧ walk.hi = walk.size) ∨
      ∃ walk', walk.advance = .more walk' ∧ walk'.Sound mode ∧ walk'.val = none ∧
        walk'.size = walk.size ∧ walk'.lo = walk.hi := by
  have inside := sound.inside
  have bits := sound.bits
  rw [Walk.advance]
  split
  next whole =>
    rw [next]
    simp only
    split
    next last =>
      refine .inl ⟨rfl, ?_⟩
      rw [hi, if_pos whole, lo]
      omega
    next more =>
      have place : walk.size - (walk.nr - walk.bits) = walk.hi := by
        rw [hi, if_pos whole, lo]
        omega
      have align : walk.hi = 64 * (walk.p + 1) := by
        rw [hi, if_pos whole, sound.word]
        omega
      refine .inr ⟨_, rfl, ⟨?_, ?_, ?_, ?_, ?_, nofun⟩, rfl, rfl, place⟩
      · rw [lo, place, align]
        simp
      · rw [lo, place, align]
        simp
      · rw [lo, place, align]
        simp [bitmapFirstWordMask]
      · exact pos_of_ne_zero more
      exact (sub_le _ _).trans inside
  next part => exact .inl ⟨rfl, by rw [hi, if_neg part]⟩

theorem Sound.advance (sound : walk.Sound mode) (idle : mode.busy cur walk.wordMask = false) :
    Accessed mode walk cur (walk.advance, mode.apply cur walk.wordMask) := by
  rcases sound.advance_cases with ⟨done, last⟩ | ⟨walk', more, sound', -, size, lo⟩
  · rw [done]
    exact .whole idle last
  rw [more]
  exact .part idle sound' size lo

theorem Sound.access (sound : walk.Sound mode) (cur : Word) :
    Accessed mode walk cur (walk.access mode cur) := by
  rw [Walk.access]
  split
  next => exact sound.test cur
  next val read =>
    split
    next same =>
      subst same
      exact sound.advance (sound.tested cur read)
    next => exact sound.test cur

/-- A walk over a range starts in order, or has nothing to do. -/
theorem start_sound (mode : Mode) (first nr : Nat) :
    (nr = 0 ∧ start first nr = .done 0) ∨
      ∃ walk, start first nr = .more walk ∧ walk.Sound mode ∧ walk.lo = first ∧
        walk.size = first + nr := by
  rw [start, next]
  split
  next none => exact .inl ⟨none, rfl⟩
  next some =>
    have place : first + nr - nr = first := Nat.add_sub_cancel first nr
    refine .inr
        ⟨_, rfl, ⟨?_, ?_, ?_, Nat.pos_of_ne_zero some, Nat.le_add_left _ _, nofun⟩, place, rfl⟩ <;>
      simp [lo]

end Walk

end TinyKernel.Genalloc
