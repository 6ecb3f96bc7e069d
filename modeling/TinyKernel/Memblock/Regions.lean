import TinyKernel.Lib.Spans

/-! One region array of `mm/memblock.c`: insertion, merging, isolation, removal and search,
by index as the source walks it. Node ids are compiled out in this tree, so a region is
its range and its flags. Physical addresses are 64-bit; once a size is capped no sum of
a base and a size wraps. -/

namespace TinyKernel.Memblock

open Lib

abbrev Flags := BitVec 64

/-- `struct memblock_region`. -/
abbrev Region := Span Flags

def ullongMax : Nat := 2 ^ 64 - 1

/-- Where an array lives: the static one, memory found by memblock itself, or the slab. -/
inductive Home where
  | static
  | memblock (addr : Nat)
  | slab
  deriving DecidableEq, Repr

/-- `struct memblock_type`. `regions` holds the first `cnt` entries of the array. -/
structure MemblockType where
  regions : List Region
  max : Nat
  totalSize : Nat
  home : Home
  deriving DecidableEq, Repr

def MemblockType.cnt (type : MemblockType) : Nat := type.regions.length

/-- Where the model stops: at the `BUG_ON`s of the source; when a new array is put over one that is
not reserved yet, where the source copies the one over the other and goes on with the two in the
same memory; and in doublings nested deeper than the model follows. -/
inductive Fault where
  | insertRegion
  | mergeRegions
  | doubleArray
  | overlap
  | depth
  deriving DecidableEq, Repr

def capSize (base size : Nat) : Nat := min size (ullongMax - base)

/-- The entry an empty array is left with. -/
def dummy : Region := ⟨0, 0, 0⟩

def insertRegion (type : MemblockType) (idx : Nat) (region : Region) : Except Fault MemblockType :=
  if type.max ≤ type.cnt then .error .insertRegion
  else .ok { type with
    regions := type.regions.take idx ++ region :: type.regions.drop idx
    totalSize := type.totalSize + region.size }

def removeRegion (type : MemblockType) (r : Nat) : MemblockType :=
  let size := (type.regions[r]?.map Span.size).getD 0
  let regions := type.regions.take r ++ type.regions.drop (r + 1)
  { type with
    regions := if regions.isEmpty then [dummy] else regions
    totalSize := type.totalSize - size }

/-- The `while` loop of `memblock_merge_regions` from index `i`. Every round advances or
drops an entry. -/
def mergeRegionsFrom : Nat → MemblockType → Nat → Except Fault MemblockType
  | 0, type, _ => .ok type
  | rounds + 1, type, i =>
    match type.regions[i]?, type.regions[i + 1]? with
    | some this, some next =>
      if this.limit ≠ next.base ∨ this.flags ≠ next.flags then
        if next.base < this.limit then .error .mergeRegions
        else mergeRegionsFrom rounds type (i + 1)
      else
        let joined : Region := ⟨this.base, this.size + next.size, this.flags⟩
        mergeRegionsFrom rounds
          { type with
            regions := type.regions.take i ++ joined :: type.regions.drop (i + 2) } i
    | _, _ => .ok type

def mergeRegions (type : MemblockType) : Except Fault MemblockType :=
  mergeRegionsFrom type.cnt type 0

/-- The locals of `memblock_add_range` while it walks the array. -/
structure Walk where
  type : MemblockType
  i : Nat
  base : Nat
  nrNew : Nat

/-- One of the two rounds of the `for` loop of `memblock_add_range`, counting or inserting.
`rounds` bounds the old entries still to visit. -/
def addWalk (insert : Bool) (stop : Nat) (flags : Flags) : Nat → Walk → Except Fault Walk
  | 0, walk => .ok walk
  | rounds + 1, walk =>
    match walk.type.regions[walk.i]? with
    | none => .ok walk
    | some rgn =>
      if stop ≤ rgn.base then .ok walk
      else if rgn.limit ≤ walk.base then
        addWalk insert stop flags rounds { walk with i := walk.i + 1 }
      else if walk.base < rgn.base then
        if insert then do
          let type ← insertRegion walk.type walk.i ⟨walk.base, rgn.base - walk.base, flags⟩
          addWalk insert stop flags rounds
            { type, i := walk.i + 2, base := min rgn.limit stop, nrNew := walk.nrNew + 1 }
        else
          addWalk insert stop flags rounds
            { walk with i := walk.i + 1, base := min rgn.limit stop, nrNew := walk.nrNew + 1 }
      else
        addWalk insert stop flags rounds { walk with i := walk.i + 1, base := min rgn.limit stop }

/-- A whole round: the walk, then the remaining portion. -/
def addRound (insert : Bool) (type : MemblockType) (base stop : Nat) (flags : Flags) :
    Except Fault (MemblockType × Nat) := do
  let walk ← addWalk insert stop flags type.cnt { type, i := 0, base, nrNew := 0 }
  if walk.base < stop then
    if insert then do
      let type ← insertRegion walk.type walk.i ⟨walk.base, stop - walk.base, flags⟩
      .ok (type, walk.nrNew + 1)
    else .ok (walk.type, walk.nrNew + 1)
  else .ok (walk.type, walk.nrNew)

/-- The loop of `memblock_isolate_range` from index `i`. A region that crosses `base` is cut
and its top half comes next; one that crosses `stop` is cut and its bottom half redone. -/
def isolateWalk (base stop : Nat) :
    Nat → MemblockType → Nat → Nat × Nat → Except Fault (MemblockType × Nat × Nat)
  | 0, type, _, found => .ok (type, found)
  | rounds + 1, type, i, (startRgn, endRgn) =>
    match type.regions[i]? with
    | none => .ok (type, startRgn, endRgn)
    | some rgn =>
      if stop ≤ rgn.base then .ok (type, startRgn, endRgn)
      else if rgn.limit ≤ base then isolateWalk base stop rounds type (i + 1) (startRgn, endRgn)
      else if rgn.base < base then do
        let upper : Region := ⟨base, rgn.size - (base - rgn.base), rgn.flags⟩
        let cut := { type with
          regions := type.regions.set i upper
          totalSize := type.totalSize - (base - rgn.base) }
        let type ← insertRegion cut i ⟨rgn.base, base - rgn.base, rgn.flags⟩
        isolateWalk base stop rounds type (i + 1) (startRgn, endRgn)
      else if stop < rgn.limit then do
        let upper : Region := ⟨stop, rgn.size - (stop - rgn.base), rgn.flags⟩
        let cut := { type with
          regions := type.regions.set i upper
          totalSize := type.totalSize - (stop - rgn.base) }
        let type ← insertRegion cut i ⟨rgn.base, stop - rgn.base, rgn.flags⟩
        isolateWalk base stop rounds type i (startRgn, endRgn)
      else
        isolateWalk base stop rounds type (i + 1) (if endRgn = 0 then i else startRgn, i + 1)

/-- The removal loop of `memblock_remove_range`: `left` regions from `startRgn` up, the last
one first. -/
def removeRegions (type : MemblockType) (startRgn : Nat) : Nat → MemblockType
  | 0 => type
  | left + 1 => removeRegions (removeRegion type (startRgn + left)) startRgn left

/-- The flag loops of `memblock_mark_hotplug` and `memblock_clear_hotplug`. -/
def updateFlags (update : Flags → Flags) (type : MemblockType) (startRgn endRgn : Nat) :
    MemblockType :=
  { type with
    regions := type.regions.mapIdx fun i region =>
      if startRgn ≤ i ∧ i < endRgn then { region with flags := update region.flags } else region }

def memblockHotplug : Flags := 1

/-- The `do … while` loop of `memblock_search`. Every round shrinks `[left, right)`. -/
def searchFrom (type : MemblockType) (addr : Nat) : Nat → Nat → Nat → Option Nat
  | 0, _, _ => none
  | rounds + 1, left, right =>
    let mid := (right + left) / 2
    match type.regions[mid]? with
    | none => none
    | some region =>
      if addr < region.base then
        if left < mid then searchFrom type addr rounds left mid else none
      else if region.limit ≤ addr then
        if mid + 1 < right then searchFrom type addr rounds (mid + 1) right else none
      else some mid

/-- `memblock_search`; `none` is the result `-1`. -/
def search (type : MemblockType) (addr : Nat) : Option Nat :=
  searchFrom type addr type.cnt 0 type.cnt

end TinyKernel.Memblock
