import TinyKernel.Memblock.Regions

/-! Both region arrays together: finding free memory from the top down, doubling an array
in place or out of the very memory it describes, and the calls built on it. The
`CONFIG_MOVABLE_NODE` paths (bottom-up search, hotpluggable memory skipped) are compiled
out in this tree. -/

namespace TinyKernel.Memblock

open Lib

/-- `struct memblock`. -/
structure State where
  memory : MemblockType
  reserved : MemblockType
  deriving DecidableEq, Repr

inductive Kind where
  | memory
  | reserved
  deriving DecidableEq, Repr

namespace State

def type (memblock : State) : Kind → MemblockType
  | .memory => memblock.memory
  | .reserved => memblock.reserved

def set (memblock : State) (kind : Kind) (type : MemblockType) : State :=
  match kind with
  | .memory => { memblock with memory := type }
  | .reserved => { memblock with reserved := type }

end State

/-- What a call finds around it: `memblock_can_resize`, `slab_is_available()`, whether
`kmalloc` succeeds for an array of so many bytes, and `memblock.current_limit`. -/
structure Env where
  canResize : Bool
  slabIsAvailable : Bool
  kmalloc : Kind → Nat → Bool
  currentLimit : UInt64

inductive Status where
  | ok
  | noMem
  deriving DecidableEq, Repr

def pageSize : Nat := 4096

def pageAlign (size : Nat) : Nat := (size + (pageSize - 1)) / pageSize * pageSize

def roundDown (value align : Nat) : Nat := value / align * align

def clamp (value low high : Nat) : Nat := min (max value low) high

/-- `sizeof(struct memblock_region)`. -/
def regionBytes : Nat := 24

/-- The area before reserved entry `idxB`: from the end of the entry below it. -/
def areaBefore (reserved : List Region) (idxB : Nat) : Nat × Nat :=
  (if idxB = 0 then 0
  else (reserved[idxB - 1]?.map Span.limit).getD 0, (reserved[idxB]?.map Span.base).getD ullongMax)

/-- How the inner loop of `__next_mem_range_rev` ends: with a range and whether `idx_a` is
the index to lower, or with the `idx_b` it stopped at. -/
inductive Scan where
  | found (start stop : Nat) (lowerA : Bool) (idxB : Nat)
  | stop (idxB : Nat)

/-- The inner loop of `__next_mem_range_rev`; its counter is `idx_b + 1`. -/
def scanRev (reserved : List Region) (mStart mEnd : Nat) : Nat → Scan
  | 0 => .stop 0
  | idxB + 1 =>
    let (rStart, rEnd) := areaBefore reserved idxB
    if rEnd ≤ mStart then .stop (idxB + 1)
    else if rStart < mEnd then
      .found (max mStart rStart) (min mEnd rEnd) (decide (rStart ≤ mStart))
        (if rStart ≤ mStart then idxB + 1 else idxB)
    else scanRev reserved mStart mEnd idxB

/-- `__next_mem_range_rev` over the memory not reserved; the counters are `idx_a + 1` and
`idx_b + 1`. -/
def nextMemRangeRev (memory reserved : List Region) : Nat → Nat → Option (Nat × Nat × Nat × Nat)
  | 0, _ => none
  | idxA + 1, idxB =>
    match memory[idxA]? with
    | none => none
    | some m =>
      match scanRev reserved m.base m.limit idxB with
      | .found start stop lowerA idxB =>
        some (start, stop, if lowerA then idxA else idxA + 1, idxB)
      | .stop idxB => nextMemRangeRev memory reserved idxA idxB

/-- `__memblock_find_range_top_down`. Every round lowers one of the two indices. -/
def findRangeTopDown (memory reserved : List Region) (start stop size align : Nat) :
    Nat → Nat → Nat → Nat
  | 0, _, _ => 0
  | rounds + 1, idxA, idxB =>
    match nextMemRangeRev memory reserved idxA idxB with
    | none => 0
    | some (thisStart, thisEnd, idxA, idxB) =>
      let thisStart := clamp thisStart start stop
      let thisEnd := clamp thisEnd start stop
      if thisEnd < size then
        findRangeTopDown memory reserved start stop size align rounds idxA idxB
      else
        let cand := roundDown (thisEnd - size) align
        if thisStart ≤ cand then cand
        else findRangeTopDown memory reserved start stop size align rounds idxA idxB

/-- `memblock_find_in_range`; an end of `0` is `MEMBLOCK_ALLOC_ACCESSIBLE`. -/
def findInRange (env : Env) (memblock : State) (start stop size align : Nat) : Nat :=
  let stop := if stop = 0 then env.currentLimit.toNat else stop
  let start := max start pageSize
  let stop := max start stop
  findRangeTopDown memblock.memory.regions memblock.reserved.regions start stop size align
    (memblock.memory.cnt + memblock.reserved.cnt + 2) memblock.memory.cnt
    (memblock.reserved.cnt + 1)

/-- A call that doubles the array of a kind, given the area about to be changed. The flag
is `false` for the result `-1`. -/
abbrev Double := Kind → Nat → Nat → State → Except Fault (State × Bool)

/-- `while (type->cnt + extra > type->max)`. Two doublings are always enough. -/
def growWhile (double : Double) (kind : Kind) (extra start size : Nat) :
    Nat → State → Except Fault (State × Bool)
  | 0, _ => .error .depth
  | rounds + 1, memblock =>
    if (memblock.type kind).max < (memblock.type kind).cnt + extra then do
      let (memblock, doubled) ← double kind start size memblock
      if doubled then growWhile double kind extra start size rounds memblock
      else .ok (memblock, false)
    else .ok (memblock, true)

/-- `memblock_add_range`. -/
def addRange (double : Double) (memblock : State) (kind : Kind) (base size : Nat) (flags : Flags) :
    Except Fault (State × Status) :=
  let size := capSize base size
  let stop := base + size
  let type := memblock.type kind
  if size = 0 then .ok (memblock, .ok)
  else if (type.regions[0]?.map Span.size) = some 0 then
    .ok (memblock.set kind
      { type with regions := type.regions.set 0 ⟨base, size, flags⟩, totalSize := size }, .ok)
  else do
    let (_, nrNew) ← addRound false type base stop flags
    let (memblock, enough) ← growWhile double kind nrNew base size 3 memblock
    if enough then do
      let (type, _) ← addRound true (memblock.type kind) base stop flags
      let type ← mergeRegions type
      .ok (memblock.set kind type, .ok)
    else .ok (memblock, .noMem)

/-- `memblock_isolate_range`: the indices `[start_rgn, end_rgn)`, or `none` for `-ENOMEM`. -/
def isolateRange (double : Double) (memblock : State) (kind : Kind) (base size : Nat) :
    Except Fault (State × Option (Nat × Nat)) :=
  let size := capSize base size
  let stop := base + size
  if size = 0 then .ok (memblock, some (0, 0))
  else do
    let (memblock, enough) ← growWhile double kind 2 base size 3 memblock
    if enough then do
      let type := memblock.type kind
      let (type, found) ← isolateWalk base stop (type.cnt + 2) type 0 (0, 0)
      .ok (memblock.set kind type, some found)
    else .ok (memblock, none)

/-- `memblock_remove_range`. -/
def removeRange (double : Double) (memblock : State) (kind : Kind) (base size : Nat) :
    Except Fault (State × Status) := do
  let (memblock, found) ← isolateRange double memblock kind base size
  match found with
  | none => .ok (memblock, .noMem)
  | some (startRgn, endRgn) =>
    .ok (memblock.set kind (removeRegions (memblock.type kind) startRgn (endRgn - startRgn)), .ok)

/-- `memblock_mark_hotplug` and `memblock_clear_hotplug`, which differ in the flag update. -/
def changeHotplug (update : Flags → Flags) (double : Double) (memblock : State) (base size : Nat) :
    Except Fault (State × Status) := do
  let (memblock, found) ← isolateRange double memblock .memory base size
  match found with
  | none => .ok (memblock, .noMem)
  | some (startRgn, endRgn) => do
    let type ← mergeRegions (updateFlags update memblock.memory startRgn endRgn)
    .ok (memblock.set .memory type, .ok)

/-- The memory an array found by memblock takes up. -/
def MemblockType.area (type : MemblockType) : Nat × Nat :=
  match type.home with
  | .memblock addr => (addr, addr + pageAlign (type.max * regionBytes))
  | _ => (0, 0)

def areasMeet (first second : Nat × Nat) : Bool :=
  decide (first.1 < second.2 ∧ second.1 < first.2)

/-- Where `memblock_double_array` puts an array that memblock has to find room for; `0`
when there is none. Only the reserved array stays clear of the area about to change. -/
def findArray (env : Env) (memblock : State) (kind : Kind) (start size bytes : Nat) : Nat :=
  let (start, size) := if kind = .reserved then (start, size) else (0, 0)
  let addr := findInRange env memblock (start + size) env.currentLimit.toNat bytes pageSize
  if addr = 0 ∧ size ≠ 0 then
    findInRange env memblock 0 (min start env.currentLimit.toNat) bytes pageSize
  else addr

/-- The array copied to its new place, with room for twice as many entries. -/
def MemblockType.moveTo (type : MemblockType) (home : Home) : MemblockType :=
  { type with max := type.max * 2, home }

/-- Giving back the memory of the old array. The static one is kept, and the slab's goes to
`kfree`. -/
def freeArray (double : Double) (type : MemblockType) (memblock : State) : Except Fault State :=
  match type.home with
  | .memblock addr => do
    let (memblock, _) ← removeRange double memblock .reserved addr
      (pageAlign (type.max * regionBytes))
    .ok memblock
  | _ => .ok memblock

/-- The body of `memblock_double_array` for the array `type`. The array is moved first; then
the old one is given back and the new one reserved, both through the ordinary calls,
which may double in turn. -/
def doubleOnce (env : Env) (double : Double) (kind : Kind) (type : MemblockType) (start size : Nat)
    (memblock : State) : Except Fault (State × Bool) :=
  let newAllocSize := pageAlign (type.max * regionBytes * 2)
  if !env.canResize then .ok (memblock, false)
  else if env.slabIsAvailable then
    if env.kmalloc kind (type.max * regionBytes * 2) then do
      let memblock ← freeArray double type (memblock.set kind (type.moveTo .slab))
      .ok (memblock, true)
    else .ok (memblock, false)
  else
    let addr := findArray env memblock kind start size newAllocSize
    if addr = 0 then .ok (memblock, false)
    else if areasMeet (addr, addr + newAllocSize) memblock.memory.area ||
        areasMeet (addr, addr + newAllocSize) memblock.reserved.area then .error .overlap
    else do
      let memblock ← freeArray double type (memblock.set kind (type.moveTo (.memblock addr)))
      let (memblock, status) ← addRange double memblock .reserved addr newAllocSize 0
      if status = .noMem then .error .doubleArray else .ok (memblock, true)

/-- `memblock_double_array`, with the doublings nested in it down to a depth. -/
def doubleArray (env : Env) : Nat → Double
  | 0 => fun _ _ _ _ => .error .depth
  | depth + 1 => fun kind start size memblock =>
    doubleOnce env (doubleArray env depth) kind (memblock.type kind) start size memblock

/-- The calls a run is made of. -/
inductive Call where
  | add (base size : UInt64)
  | reserve (base size : UInt64)
  | remove (base size : UInt64)
  | free (base size : UInt64)
  | markHotplug (base size : UInt64)
  | clearHotplug (base size : UInt64)

/-- A doubling of the memory array may nest one of the reserved array, and no more. -/
def callDouble (env : Env) : Double := doubleArray env 2

def step (env : Env) (memblock : State) : Call → Except Fault (State × Status)
  | .add base size => addRange (callDouble env) memblock .memory base.toNat size.toNat 0
  | .reserve base size => addRange (callDouble env) memblock .reserved base.toNat size.toNat 0
  | .remove base size => removeRange (callDouble env) memblock .memory base.toNat size.toNat
  | .free base size => removeRange (callDouble env) memblock .reserved base.toNat size.toNat
  | .markHotplug base size =>
    changeHotplug (· ||| memblockHotplug) (callDouble env) memblock base.toNat size.toNat
  | .clearHotplug base size =>
    changeHotplug (· &&& ~~~ memblockHotplug) (callDouble env) memblock base.toNat size.toNat

def initMemblockRegions : Nat := 128

def emptyType : MemblockType := ⟨[dummy], initMemblockRegions, 0, .static⟩

/-- `memblock` as the kernel starts with it. -/
def init : State := ⟨emptyType, emptyType⟩

/-- An early boot: arrays may be resized and the slab is not there yet. -/
def earlyEnv : Env := ⟨true, false, fun _ _ => false, 0xffffffffffffffff⟩

end TinyKernel.Memblock
