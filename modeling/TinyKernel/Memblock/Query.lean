import TinyKernel.Memblock.Trim

/-! `memblock_is_region_reserved`: whether a range meets a reserved region. -/

namespace TinyKernel.Memblock

open Lib Span List

def addrsOverlap (base1 size1 base2 size2 : Nat) : Bool :=
  base1 < base2 + size2 && base2 < base1 + size1

def overlapsRegion (type : MemblockType) (base size : Nat) : Option Nat :=
  type.regions.findIdx? fun region => addrsOverlap base size region.base region.size

def isRegionReserved (memblock : State) (base size : Nat) : Bool :=
  (overlapsRegion memblock.reserved base (capSize base size)).isSome

/-- A range counts as reserved when one of its addresses is, and an empty one strictly inside a
region. -/
theorem region_reserved_iff {memblock : State} (holds : memblock.reserved.Holds spans)
    (base size : Nat) :
    isRegionReserved memblock base size = true ↔
      (∃ address, base ≤ address ∧ address < base + capSize base size ∧
          (lookup memblock.reserved.regions address).isSome = true) ∨
        capSize base size = 0 ∧ ∃ span ∈ spans, span.base < base ∧ base < span.limit := by
  have only : isRegionReserved memblock base size = true ↔
      ∃ span ∈ spans, base < span.limit ∧ span.base < base + capSize base size := by
    rw [isRegionReserved, overlapsRegion, findIdx?_isSome, any_eq_true, holds.shape]
    split
    · next none => simp [none, dummy, addrsOverlap]
    simp [addrsOverlap, limit]
  simp only [only, holds.lookup_regions]
  constructor
  · rintro ⟨span, mem, low, high⟩
    by_cases empty : capSize base size = 0
    · exact .inr ⟨empty, span, mem, by omega, low⟩
    -- the larger of the two bases is in both
    have positive := (holds.ordered.base_le mem).2
    have inside : span.Covers (max base span.base) := by grind [Covers, limit]
    refine .inl ⟨max base span.base, le_max_left _ _, by omega, ?_⟩
    rw [holds.ordered.lookup_eq mem inside]
    rfl
  rintro (⟨address, low, high, covered⟩ | ⟨empty, span, mem, below, above⟩)
  · obtain ⟨span, mem, inside⟩ := lookup_isSome.mp covered
    exact ⟨span, mem, low.trans_lt inside.2, inside.1.trans_lt high⟩
  exact ⟨span, mem, above, by omega⟩

theorem region_reserved_iff_empty : isRegionReserved ⟨twoRegions, twoRegions⟩ 5 0 = true :=
  (region_reserved_iff twoRegions_keeps.toHolds 5 0).mpr
    (.inr ⟨rfl, _, .head _, by decide, by decide⟩)

end TinyKernel.Memblock
