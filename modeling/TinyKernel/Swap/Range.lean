import Mathlib.Algebra.Order.Ring.Nat
import Mathlib.Data.Nat.SuccPred
import Mathlib.Order.Interval.Finset.Nat

/-! `get_swap_range_of_type` of `mm/swapfile.c`: a run of swap slots in one call. -/

namespace TinyKernel.Swap

open Function Finset Nat

def swapMapBad : UInt8 := 0x3f

def swapHasCache : UInt8 := 0x40

/-- `swap_count` -/
def swapCount (ent : UInt8) : UInt8 := ent &&& ~~~swapHasCache

/-- `struct swap_info_struct`; a slot that is 0 in `swapMap` is free. -/
structure SwapInfo where
  swapMap : Nat → UInt8
  max : Nat
  lowestBit : Nat
  highestBit : Nat
  pages : Nat
  inusePages : Nat
  writeok : Bool

/-- `count && swap_count(count) != SWAP_MAP_BAD` -/
def inUse (count : UInt8) : Bool := count ≠ 0 ∧ swapCount count ≠ swapMapBad

section

variable {swapMap : Nat → UInt8}

end

section

/-- A slot that may be used. -/
def Good (si : SwapInfo) (i : Nat) : Prop := swapCount (si.swapMap i) ≠ swapMapBad

instance (si : SwapInfo) : DecidablePred (Good si) := fun _ => inferInstanceAs (Decidable (_ ≠ _))

/-- A swap area whose hints and counts are right. -/
structure Area (si : SwapInfo) : Prop where
  small : si.max < 2 ^ 32
  inside : si.highestBit < si.max
  lowest : si.highestBit ≠ 0 → si.lowestBit < si.max
  bounds : ∀ i < si.max, si.swapMap i = 0 → si.lowestBit ≤ i ∧ i ≤ si.highestBit
  inuse : si.inusePages = ((range si.max).filter fun i => inUse (si.swapMap i)).card
  pages : si.pages = ((range si.max).filter (Good si)).card

variable {si : SwapInfo} {start next limit : Nat}

variable {stop : Nat}

section

variable (area : Area si) (order : start ≤ stop) (inside : stop < si.max)
    (free : ∀ i, start ≤ i → i ≤ stop → si.swapMap i = 0)
include area order inside free

end

end

section

variable {si : SwapInfo} {start limit : Nat}

end

end TinyKernel.Swap
