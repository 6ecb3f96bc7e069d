import Mathlib.Algebra.BigOperators.Intervals
import Mathlib.Algebra.Star.Basic
import Mathlib.Data.Int.SuccPred
import Mathlib.Tactic.Positivity
import TinyKernel.Buddy.Run

/-! `__zone_watermark_ok` against `__rmqueue`: what the arithmetic of the first promises
about the search of the second. A `long` has 32 bits. Page counts are far below its limit,
so that only the caller's `mark` can make an intermediate value wrap. -/

namespace TinyKernel.Buddy

open Finset

def allocHarder : Nat := 0x10

def allocHigh : Nat := 0x20

def toLong (value : Int) : Int := value.bmod (2 ^ 32)

/-- `min` before the checks: lower for callers that may dip into the reserves. -/
def watermarkMin (mark allocFlags : Nat) : Int :=
  let min := toLong mark
  let min := if allocFlags &&& allocHigh ≠ 0 then min - min.tdiv 2 else min
  if allocFlags &&& allocHarder ≠ 0 then min - min.tdiv 4 else min

/-- The `for` loop of `__zone_watermark_ok` from order `o`, `left` orders to go. A shift
reads the low byte of its count. -/
def watermarkFrom (zone : Zone) (minFreeOrderShift : Int) : Nat → Nat → Int → Int → Bool
  | 0, _, _, _ => true
  | left + 1, o, freePages, min =>
    let freePages := freePages - zone.nrFree o * 2 ^ o
    let min := min >>> (minFreeOrderShift % 256).toNat
    if freePages ≤ min then false
    else watermarkFrom zone minFreeOrderShift left (o + 1) freePages min

/-- `__zone_watermark_ok`. -/
def zoneWatermarkOk (zone : Zone) (minFreeOrderShift : Int) (lowmemReserve : Nat → Int)
    (order mark classzoneIdx allocFlags : Nat) (freePages : Int) : Bool :=
  let freePages := freePages - (2 ^ order - 1)
  let min := watermarkMin mark allocFlags
  if freePages ≤ toLong (min + lowmemReserve classzoneIdx) then false
  else watermarkFrom zone minFreeOrderShift order 0 freePages min

variable {layout : Layout} {zone : Zone} {order : Nat} {type : MigrateType}

theorem toLong_of_lt (nonneg : 0 ≤ value) (fits : value < 2 ^ 31) : toLong value = value :=
  Int.bmod_eq_of_le (by omega) (by omega)

theorem watermarkMin_nonneg (fits : mark < 2 ^ 31) (allocFlags : Nat) :
    0 ≤ watermarkMin mark allocFlags := by
  have less {min : Int} (part : Int) (nonneg : 0 ≤ min) : 0 ≤ min - min.tdiv part := by
    rw [Int.tdiv_eq_ediv_of_nonneg nonneg]
    have quotient := Int.ediv_le_self part nonneg
    omega
  rw [watermarkMin, toLong_of_lt (by omega) (by omega)]
  grind

/-- Once an order is left behind, the pages still counted exceed a threshold that is never
negative. -/
theorem watermarkFrom_pos (left o : Nat) {min : Int} (nonneg : 0 ≤ min)
    (passes : watermarkFrom zone shift left o (total - ∑ i ∈ range o, zone.nrFree i * 2 ^ i) min)
    (start : 0 < left ∨ 0 < total - ∑ i ∈ range o, zone.nrFree i * 2 ^ i) :
    0 < total - ∑ i ∈ range (o + left), zone.nrFree i * 2 ^ i := by
  induction left generalizing o min with
  | zero => simpa using start
  | succ left ih => ?_
  simp only [watermarkFrom, sub_sub, ← sum_range_succ] at passes
  have shifted : 0 ≤ min >>> (shift % 256).toNat := by
    rw [Int.shiftRight_eq_div_pow]
    exact Int.ediv_nonneg nonneg (by positivity)
  split at passes
  · contradiction
  rw [← Nat.succ_add_eq_add_succ]
  exact ih (o + 1) shifted passes (.inr (by omega))

theorem rmqueueSmallestFrom_none (left cur : Nat)
    (failed : rmqueueSmallestFrom zone order type left cur = none) (low : cur ≤ other)
    (high : other < cur + left) : zone.freeList other type = [] := by
  induction left generalizing cur with
  | zero => omega
  | succ left ih => ?_
  rw [rmqueueSmallestFrom] at failed
  split at failed
  case h_1 empty =>
    rcases low.eq_or_lt with rfl | low
    · exact empty
    exact ih (cur + 1) failed low (by omega)
  case h_2 => contradiction

theorem rmqueueSmallest_none (failed : rmqueueSmallest layout zone order type = none)
    (low : order ≤ other) (high : other < layout.maxOrder) : zone.freeList other type = [] :=
  rmqueueSmallestFrom_none _ order failed low (by omega)

theorem rmqueueFallbackFrom_none (above : Nat)
    (failed : rmqueueFallbackFrom layout zone order type above = none) (low : order ≤ other)
    (high : other < above) : fallbackAt layout zone order other type (fallbacks type) = none := by
  induction above with
  | zero => omega
  | succ above ih => ?_
  rw [rmqueueFallbackFrom, if_pos (by omega)] at failed
  split at failed
  · contradiction
  case h_2 here =>
    rcases (Nat.le_of_lt_succ high).eq_or_lt with rfl | high
    · exact here
    exact ih failed high

/-- `__rmqueue` fails only when no list holds a block of the order or above. -/
theorem rmqueue_none (movable : type ≠ .reserve) (failed : rmqueue layout zone order type = none)
    (low : order ≤ other) (high : other < layout.maxOrder) (kind : MigrateType) :
    zone.freeList other kind = [] := by
  rw [rmqueue] at failed
  split at failed
  · contradiction
  case h_2 smallest => ?_
  rw [if_neg movable] at failed
  split at failed
  · contradiction
  case h_2 fallback => ?_
  have own := rmqueueSmallest_none smallest low high
  have last := rmqueueSmallest_none failed low high
  have others := rmqueueFallbackFrom_none _ fallback low high
  cases type <;> cases kind <;> grind [fallbackAt, fallbacks]

theorem rmqueueSmallestFrom_empty (left cur : Nat)
    (empty : ∀ other, cur ≤ other → other < cur + left → zone.freeList other type = []) :
    rmqueueSmallestFrom zone order type left cur = none := by
  induction left generalizing cur with
  | zero => rfl
  | succ left ih => ?_
  rw [rmqueueSmallestFrom, empty cur le_rfl (by omega)]
  exact ih (cur + 1) fun other low high => empty other (by omega) (by omega)

theorem rmqueueFallbackFrom_empty (above : Nat)
    (empty : ∀ other kind, order ≤ other → other < above → zone.freeList other kind = []) :
    rmqueueFallbackFrom layout zone order type above = none := by
  induction above with
  | zero => rfl
  | succ above ih => ?_
  rw [rmqueueFallbackFrom]
  split
  · next low =>
    have here : fallbackAt layout zone order above type (fallbacks type) = none := by
      cases type <;> simp [fallbackAt, fallbacks, empty above _ low]
    rw [here]
    exact ih fun other kind low high => empty other kind low (by omega)
  rfl

/-- `__rmqueue` fails exactly when the lists that it may take from hold no block of the order or
above. -/
theorem rmqueue_none_iff :
    rmqueue layout zone order type = none ↔
      ∀ other kind, order ≤ other → other < layout.maxOrder → (type = .reserve → kind = .reserve) →
        zone.freeList other kind = [] := by
  constructor
  · intro failed other kind low high may
    by_cases reserve : type = .reserve
    · rw [may reserve]
      rw [reserve, rmqueue] at failed
      split at failed
      · contradiction
      case h_2 smallest => exact rmqueueSmallest_none smallest low high
    exact rmqueue_none reserve failed low high kind
  intro empty
  have smallest (kind : MigrateType) (may : type = .reserve → kind = .reserve) :
      rmqueueSmallest layout zone order kind = none :=
    rmqueueSmallestFrom_empty _ order fun other low high => empty other kind low (by omega) may
  rw [rmqueue, smallest type id]
  simp only
  split
  · rfl
  next movable =>
  have fallback : rmqueueFallback layout zone order type = none :=
    rmqueueFallbackFrom_empty _ fun other kind low high => empty other kind low high fun same =>
      absurd same movable
  rw [fallback]
  exact smallest .reserve fun _ => rfl

/-- A passed watermark guarantees an allocation. The first check alone protects order 0,
so there the sum it compares with must not wrap. -/
theorem rmqueue_of_watermark (shift : Int) (lowmemReserve : Nat → Int)
    (mark classzoneIdx allocFlags : Nat) (bound : order < layout.maxOrder)
    (total : zone.nrFreePages = ∑ o ∈ range layout.maxOrder, zone.nrFree o * 2 ^ o)
    (counted : ∀ o < layout.maxOrder,
      zone.nrFree o = ((MigrateType.all.map fun type => (zone.freeList o type).length).sum : Nat))
    (reserve : ∀ idx, 0 ≤ lowmemReserve idx) (fits : mark < 2 ^ 31)
    (noWrap : order = 0 → watermarkMin mark allocFlags + lowmemReserve classzoneIdx < 2 ^ 31)
    (passes :
      zoneWatermarkOk zone shift lowmemReserve order mark classzoneIdx allocFlags zone.nrFreePages)
    (movable : type ≠ .reserve) : (rmqueue layout zone order type).isSome := by
  rw [Option.isSome_iff_ne_none]
  intro failed
  have empty : ∑ o ∈ Ico order layout.maxOrder, zone.nrFree o * 2 ^ o = 0 := by
    refine sum_eq_zero fun o inside => ?_
    obtain ⟨low, high⟩ := mem_Ico.mp inside
    simp [counted o high, rmqueue_none movable failed low high]
  rw [← sum_range_add_sum_Ico _ bound.le, empty, add_zero] at total
  have nonneg := watermarkMin_nonneg fits allocFlags
  have power : (1 : Int) ≤ 2 ^ order := one_le_pow₀ (by decide)
  simp only [zoneWatermarkOk] at passes
  split at passes
  · contradiction
  case isFalse above => ?_
  have start : 0 < order ∨ 0 < zone.nrFreePages - (2 ^ order - 1) := by
    rcases order.eq_zero_or_pos with rfl | positive
    · have lowmem := reserve classzoneIdx
      rw [toLong_of_lt (by omega) (noWrap rfl)] at above
      exact .inr (by omega)
    exact .inl positive
  have rest := watermarkFrom_pos order 0 nonneg (by simpa using passes) (by simpa using start)
  rw [zero_add] at rest
  omega

theorem rmqueue_of_watermark_two_blocks :
    (rmqueue twoBlockLayout twoBlockZone 1 .unmovable).isSome :=
  rmqueue_of_watermark 4 (fun _ => 0) 2 0 allocHigh (by decide) (by decide) (by decide)
    (fun _ => le_rfl) (by decide) (by decide) (by decide) (by decide)

def drainedZone : Zone where
  page := fun _ => ⟨false, 0, .movable⟩
  freeList := fun _ _ => []
  nrFree := fun _ => 0
  pageblock := fun _ => .movable
  nrFreePages := 0

/-- `mark` is the largest `long` and one page is reserved: the sum wraps below zero. -/
theorem wrapped_watermark_passes :
    drainedZone.nrFreePages =
      ∑ o ∈ range twoBlockLayout.maxOrder, drainedZone.nrFree o * 2 ^ o ∧
        (∀ o < twoBlockLayout.maxOrder, drainedZone.nrFree o =
          ((MigrateType.all.map fun type => (drainedZone.freeList o type).length).sum : Nat)) ∧
        zoneWatermarkOk drainedZone 4 (fun _ => 1) 0 (2 ^ 31 - 1) 0 0 drainedZone.nrFreePages =
          true ∧ rmqueue twoBlockLayout drainedZone 0 .movable = none := by
  decide

end TinyKernel.Buddy
