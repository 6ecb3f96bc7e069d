import TinyKernel.Memblock.Grow
import TinyKernel.Memblock.RegionsSpec

/-! What the top-down search returns: page-aligned memory that nothing reserves. -/

namespace TinyKernel.Memblock

open Lib Span List Option

/-- The reserved entries in the order the search relies on. -/
structure Sorted (regions : List Region) : Prop where
  apart : regions.Pairwise fun first second => first.limit ≤ second.base
  bounded : ∀ region ∈ regions, region.limit ≤ ullongMax

theorem MemblockType.Holds.sorted {type : MemblockType} (holds : type.Holds spans) :
    Sorted type.regions := by
  rw [holds.shape]
  split
  · refine ⟨pairwise_singleton _ _, fun region mem => ?_⟩
    obtain rfl := mem_singleton.mp mem
    exact Nat.zero_le _
  exact ⟨holds.ordered.pairwise, holds.bounded⟩

/-- Every address from `start` up to `stop` is free of these regions. -/
def Free (regions : List Region) (start stop : Nat) : Prop :=
  ∀ address, start ≤ address → address < stop → lookup regions address = none

variable {idxB start stop size align : Nat}

theorem areaBefore_free (sorted : Sorted reserved) (within : idxB ≤ reserved.length) :
    Free reserved (areaBefore reserved idxB).1 (areaBefore reserved idxB).2 ∧
      (areaBefore reserved idxB).2 ≤ ullongMax := by
  have ordered {i j : Nat} {first second : Region} (less : i < j)
      (one : reserved[i]? = some first) (two : reserved[j]? = some second) :
      first.limit ≤ second.base := by
    obtain ⟨low, rfl⟩ := List.getElem?_eq_some_iff.mp one
    obtain ⟨high, rfl⟩ := List.getElem?_eq_some_iff.mp two
    exact pairwise_iff_getElem.mp sorted.apart i j low high less
  constructor
  · intro address low high
    by_contra found
    obtain ⟨span, mem, inside⟩ := lookup_isSome.mp (isSome_iff_ne_none.mpr found)
    obtain ⟨i, here⟩ := mem_iff_getElem?.mp mem
    simp only [Span.Covers] at inside
    simp only [areaBefore] at low high
    rcases lt_or_ge i idxB with below | above
    · -- the entry lies at or below the one whose end starts the area
      rw [if_neg (by omega)] at low
      have last := getElem?_eq_getElem (show idxB - 1 < reserved.length by omega)
      rw [last] at low
      simp only [map_some, getD_some] at low
      rcases Nat.lt_or_eq_of_le (show i ≤ idxB - 1 by omega) with less | rfl
      · have step := ordered less here last
        have grow : reserved[idxB - 1].base ≤ reserved[idxB - 1].limit := Nat.le_add_right _ _
        omega
      rw [here] at last
      rw [← some.inj last] at low
      omega
    cases next : reserved[idxB]? with
    | none =>
      have bound := (List.getElem?_eq_some_iff.mp here).1
      have past := List.getElem?_eq_none_iff.mp next
      omega
    | some first => ?_
    rw [next] at high
    simp only [map_some, getD_some] at high
    rcases Nat.lt_or_eq_of_le above with less | rfl
    · have step := ordered less next here
      have grow : first.base ≤ first.limit := Nat.le_add_right _ _
      omega
    rw [here] at next
    obtain rfl := some.inj next
    omega
  simp only [areaBefore]
  cases next : reserved[idxB]? with
  | none => exact le_rfl
  | some first => ?_
  have bound := sorted.bounded first (mem_of_getElem? next)
  have grow : first.base ≤ first.limit := Nat.le_add_right _ _
  simp only [map_some, getD_some]
  omega

theorem Free.shrink (free : Free reserved start stop) (above : start ≤ low) (below : high ≤ stop) :
    Free reserved low high :=
  fun address from_ upTo => free address (by omega) (by omega)

/-- What the inner loop guarantees about the range it finds and where it stops. -/
theorem scanRev_spec (sorted : Sorted reserved) (mStart mEnd counter : Nat)
    (within : counter ≤ reserved.length + 1) :
    match scanRev reserved mStart mEnd counter with
    | .found start stop _ idxB => idxB ≤ reserved.length + 1 ∧ Free reserved start stop ∧
        stop ≤ ullongMax
    | .stop idxB => idxB ≤ reserved.length + 1 := by
  induction counter with
  | zero => exact Nat.zero_le _
  | succ idxB ih => ?_
  have area := areaBefore_free sorted (show idxB ≤ reserved.length by omega)
  rw [scanRev]
  simp only
  by_cases past : (areaBefore reserved idxB).2 ≤ mStart
  · rw [if_pos past]
    exact within
  rw [if_neg past]
  by_cases meets : (areaBefore reserved idxB).1 < mEnd
  · rw [if_pos meets]
    refine ⟨?_, area.1.shrink (by omega) (by omega), by omega⟩
    split <;> omega
  rw [if_neg meets]
  exact ih (by omega)

theorem nextMemRangeRev_spec (sorted : Sorted reserved) (memory : List Region) (idxA : Nat)
    (within : idxB ≤ reserved.length + 1)
    (found : nextMemRangeRev memory reserved idxA idxB = some (start, stop, nextA, nextB)) :
    nextB ≤ reserved.length + 1 ∧ Free reserved start stop ∧ stop ≤ ullongMax := by
  induction idxA generalizing idxB with
  | zero => cases found
  | succ idxA ih => ?_
  rw [nextMemRangeRev] at found
  split at found
  · cases found
  rename_i m _
  have seen := scanRev_spec sorted m.base m.limit idxB within
  split at found
  · rename_i first last lowerA counter out
    rw [out] at seen
    obtain ⟨rfl, rfl, _, rfl⟩ := found
    exact seen
  rename_i counter out
  rw [out] at seen
  exact ih seen found

/-- The memory the search returns lies in the asked range and is free. -/
structure Found (reserved : List Region) (low high size addr : Nat) : Prop where
  above : low ≤ addr
  below : addr + size ≤ high
  free : Free reserved addr (addr + size)
  fits : addr + size ≤ ullongMax

theorem findRangeTopDown_spec (sorted : Sorted reserved) (memory : List Region) (sized : 0 < size)
    (order : start ≤ stop) (rounds idxA : Nat) (within : idxB ≤ reserved.length + 1)
    (found : findRangeTopDown memory reserved start stop size align rounds idxA idxB ≠ 0) :
    Found reserved start stop size
      (findRangeTopDown memory reserved start stop size align rounds idxA idxB) := by
  induction rounds generalizing idxA idxB with
  | zero => exact absurd rfl found
  | succ rounds ih => ?_
  rw [findRangeTopDown] at found ⊢
  cases next : nextMemRangeRev memory reserved idxA idxB with
  | none =>
    rw [next] at found
    exact absurd rfl found
  | some range => ?_
  obtain ⟨thisStart, thisEnd, nextA, nextB⟩ := range
  obtain ⟨bound, free, top⟩ := nextMemRangeRev_spec sorted memory idxA within next
  rw [next] at found
  simp only at found ⊢
  by_cases small : clamp thisEnd start stop < size
  · rw [if_pos small] at found ⊢
    exact ih nextA bound found
  rw [if_neg small] at found ⊢
  have rounded : roundDown (clamp thisEnd start stop - size) align ≤
      clamp thisEnd start stop - size := Nat.div_mul_le_self _ _
  by_cases fits : clamp thisStart start stop ≤ roundDown (clamp thisEnd start stop - size) align
  · rw [if_pos fits]
    -- a clamped range that still has room was not moved by the clamp
    simp only [clamp] at *
    exact ⟨by omega, by omega, free.shrink (by omega) (by omega), by omega⟩
  rw [if_neg fits] at found ⊢
  exact ih nextA bound found

section

variable {env : Env} {memblock : State} (sorted : Sorted memblock.reserved.regions)
include sorted

theorem findInRange_spec (sized : 0 < size)
    (found : findInRange env memblock start stop size align ≠ 0) :
    Found memblock.reserved.regions (max start pageSize)
      (max (max start pageSize) (if stop = 0 then env.currentLimit.toNat else stop)) size
      (findInRange env memblock start stop size align) :=
  findRangeTopDown_spec sorted _ sized (le_max_left _ _) _ _ le_rfl found

/-- A new array lies in free memory; and the reserved array stays clear of the area about to
be changed, unless that area starts at address zero. -/
theorem findArray_spec {bytes : Nat} (sized : 0 < bytes)
    (found : findArray env memblock kind start size bytes ≠ 0) :
    let addr := findArray env memblock kind start size bytes
    Free memblock.reserved.regions addr (addr + bytes) ∧ addr + bytes ≤ ullongMax ∧
      pageSize ≤ addr ∧
      (kind = .reserved → start ≠ 0 → addr + bytes ≤ start ∨ start + size ≤ addr) := by
  simp only [findArray] at found ⊢
  generalize area : (if kind = Kind.reserved then (start, size) else (0, 0)) = pair at found ⊢
  obtain ⟨low, width⟩ := pair
  by_cases missed :
    findInRange env memblock (low + width) env.currentLimit.toNat bytes pageSize = 0 ∧ width ≠ 0
  · rw [if_pos missed] at found ⊢
    obtain ⟨above, below, free, fits⟩ := findInRange_spec sorted sized found
    refine ⟨free, fits, by omega, fun reserved ne => .inl ?_⟩
    rw [if_pos reserved] at area
    obtain ⟨rfl, rfl⟩ := Prod.mk.inj area
    split at below <;> omega
  rw [if_neg missed] at found ⊢
  obtain ⟨above, below, free, fits⟩ := findInRange_spec sorted sized found
  refine ⟨free, fits, by omega, fun reserved _ => .inr ?_⟩
  rw [if_pos reserved] at area
  obtain ⟨rfl, rfl⟩ := Prod.mk.inj area
  omega

end

end TinyKernel.Memblock
