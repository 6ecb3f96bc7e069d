import Mathlib.Tactic.Common

/-! The area map of a per-cpu chunk, `mm/percpu.c`. An entry of the map is the offset at which an
area starts, with bit 0 set if the area is in use. -/

namespace TinyKernel.Percpu

/-- `x & 1` -/
def used (entry : Int) : Bool := entry % 2 = 1

/-- `x & ~1` -/
def clear (entry : Int) : Int := entry - entry % 2

/-- `x | 1` -/
def mark (entry : Int) : Int := clear entry + 1

def pageSize : Int := 4096

def sizeofInt : Int := 4

/-- `ALIGN` for a power of two. -/
def alignUp (x align : Int) : Int := (x + (align - 1)) - (x + (align - 1)) % align

def roundDown (x align : Int) : Int := x - x % align

def pfnDown (x : Int) : Nat := (x / pageSize).toNat

def pfnUp (x : Int) : Nat := ((x + pageSize - 1) / pageSize).toNat

/-- `find_next_bit` and `find_next_zero_bit`: the first index from `start` on, or the size. -/
def findNext (want : Nat → Bool) (size start : Nat) : Nat :=
  ((List.range size).find? fun i => start ≤ i && want i).getD size

/-- `pcpu_next_unpop` -/
def nextUnpop (populated : Nat → Bool) (start stop : Nat) : Nat × Nat :=
  let rs := findNext (fun i => !populated i) stop start
  (rs, findNext populated stop (rs + 1))

/-- `struct pcpu_chunk`. The map is given up to the sentry, so `map_used` is one less than its
length; `below` is the word that lies in front of it in memory. -/
structure Chunk where
  freeSize : Int
  contigHint : Int
  map : List Int
  firstFree : Nat
  populated : Nat → Bool
  below : Int

def Chunk.mapUsed (c : Chunk) : Nat := c.map.length - 1

/-- What `pcpu_alloc_chunk` sets up. -/
def allocChunk (unitSize : Int) (populated : Nat → Bool) (below : Int) : Chunk :=
  { freeSize := unitSize,
    contigHint := unitSize,
    map := [0, mark unitSize],
    firstFree := 0,
    populated,
    below }

/-- `pcpu_count_occupied_pages` -/
def pcpuCountOccupiedPages (map : List Int) (i : Nat) : Int :=
  let off := clear (map.getD i 0)
  let stop := clear (map.getD (i + 1) 0)
  let prev := map.getD (i - 1) 0
  let next := map.getD (i + 1) 0
  let nend := clear (map.getD (i + 2) 0)
  let off := if off % pageSize ≠ 0 ∧ i > 0 ∧ ¬ used prev ∧ prev ≤ roundDown off pageSize then
    roundDown off pageSize else off
  let stop := if stop % pageSize ≠ 0 ∧ i + 1 < map.length - 1 ∧ ¬ used next ∧
    nend ≥ alignUp stop pageSize then alignUp stop pageSize else stop
  max ((pfnDown stop : Int) - pfnUp off) 0

/-- The loop of `pcpu_fit_in_area`; -1 is `none`. The variables are `int`s there and integers here:
`pcpu_alloc` refuses a size over `PCPU_MIN_UNIT_SIZE` and an alignment over `PAGE_SIZE`, and `head`
stays inside the unit, so `head + size` does not wrap for a unit of less than 2 ^ 31 -
`PCPU_MIN_UNIT_SIZE` bytes. -/
def fitLoop (populated : Nat → Bool) (off thisSize size align : Int) (popOnly : Bool) :
    Nat → Int → Option Int
  | 0, _ => none
  | rounds + 1, candOff =>
    let head := alignUp candOff align - off
    if thisSize < head + size then none
    else if !popOnly then some head
    else
      let (rs, re) := nextUnpop populated (pfnDown (head + off)) (pfnUp (off + thisSize))
      if rs ≥ pfnUp (head + off + size) then some head
      else fitLoop populated off thisSize size align popOnly rounds (re * pageSize)

def pcpuFitInArea (populated : Nat → Bool) (off thisSize size align : Int) (popOnly : Bool) :
    Option Int :=
  fitLoop populated off thisSize size align popOnly (pfnUp (off + thisSize) + 2) off

/-- What the loop of `pcpu_alloc_area` carries along. -/
structure Scan where
  firstFree : Nat
  seenFree : Bool
  maxContig : Int

/-- `if (!seen_free) { first_free = i; seen_free = true; }` -/
def Scan.see (s : Scan) (i : Nat) : Scan :=
  if s.seenFree then s else { s with firstFree := i, seenFree := true }

def Scan.contig (s : Scan) (size : Int) : Scan := { s with maxContig := max size s.maxContig }

/-- The area at `place`, between the entries before and behind it, is put to use. -/
def placeArea (c : Chunk) (freeSize : Int) (front : List Int) (place : Int) (back : List Int)
    (size : Int) (s : Scan) : Chunk × Option (Int × Int) :=
  let i := front.length
  let map := front ++ mark place :: back
  ({ c with
      map
      freeSize := freeSize - size
      firstFree := if s.seenFree then s.firstFree else i + 1
      contigHint := if i + 1 = map.length - 1 then s.maxContig else max c.contigHint s.maxContig },
    some (place, pcpuCountOccupiedPages map i))

/-- The area at `off` is split, unless what is left of it behind the allocation is small. -/
def splitArea (c : Chunk) (freeSize : Int) (passed : List Int) (off next : Int) (rest : List Int)
    (head size : Int) (s : Scan) : Chunk × Option (Int × Int) :=
  let thisSize := clear next - off
  let tail := thisSize - head - size
  let front := if head ≠ 0 then passed ++ [off] else passed
  let s := if head ≠ 0 then (s.see passed.length).contig head else s
  if tail < sizeofInt then
    placeArea c freeSize front (off + head) (next :: rest) (thisSize - head) s
  else
    placeArea c freeSize front (off + head) ((off + head + size) :: next :: rest) size
      (s.contig tail)

/-- A head that is small or follows a free area is merged with the area before it. -/
def takeArea (c : Chunk) (passed : List Int) (off next : Int) (rest : List Int) (head size : Int)
    (s : Scan) : Chunk × Option (Int × Int) :=
  let prev := passed.getLastD c.below
  if head ≠ 0 ∧ (head < sizeofInt ∨ ¬ used prev) then
    if used prev then splitArea c (c.freeSize - head) passed (off + head) next rest 0 size s
    else splitArea c c.freeSize passed (off + head) next rest 0 size (s.contig (off + head - prev))
  else splitArea c c.freeSize passed off next rest head size s

/-- The loop of `pcpu_alloc_area` over the entries from index `passed.length` on. -/
def allocLoop (c : Chunk) (size align : Int) (popOnly : Bool) (passed : List Int) :
    List Int → Scan → Chunk × Option (Int × Int)
  | off :: next :: rest, s =>
    if used off then allocLoop c size align popOnly (passed ++ [off]) (next :: rest) s
    else
      let thisSize := clear next - off
      match pcpuFitInArea c.populated off thisSize size align popOnly with
      | none =>
        allocLoop c size align popOnly (passed ++ [off]) (next :: rest)
          ((s.see passed.length).contig thisSize)
      | some head => takeArea c passed off next rest head size s
  | _, s => ({ c with firstFree := s.firstFree, contigHint := s.maxContig }, none)

/-- The offset and the number of pages occupied, or `none` for -1. -/
def pcpuAllocArea (c : Chunk) (size align : Int) (popOnly : Bool) : Chunk × Option (Int × Int) :=
  allocLoop c size align popOnly (c.map.take c.firstFree) (c.map.drop c.firstFree)
    ⟨c.firstFree, false, 0⟩

/-- The search for an entry between the indices `i` and `j`, with the last entry that was read. -/
def search (map : List Int) (freeme : Int) : Nat → Nat → Nat → Int → Nat × Int
  | 0, i, _, off => (i, off)
  | rounds + 1, i, j, off =>
    if i = j then (i, off)
    else
      let k := (i + j) / 2
      let off := map.getD k 0
      if off < freeme then search map freeme rounds (k + 1) j off
      else if off > freeme then search map freeme rounds i k off
      else (k, off)

/-- The entry of index `i` is cleared and its area merged with free neighbours. -/
def releaseArea (c : Chunk) (i : Nat) (off : Int) : Chunk × Int :=
  let map := c.map.set i off
  let next := map.getD (i + 1) 0
  let withNext : Bool := !used next
  let withPrev : Bool := i > 0 ∧ ¬ used (map.getD (i - 1) 0)
  let toFree := (if withNext then 1 else 0) + (if withPrev then 1 else 0)
  let k := if withPrev then i - 1 else i
  let merged := map.take (k + 1) ++ map.drop (k + 1 + toFree)
  ({ c with
      map := merged
      freeSize := c.freeSize + (clear next - off)
      firstFree := if i < c.firstFree then i else c.firstFree
      contigHint := max (merged.getD (k + 1) 0 - merged.getD k 0 - 1) c.contigHint },
    pcpuCountOccupiedPages map i)

/-- The chunk and the number of pages occupied before; `none` if the `BUG_ON` is hit. -/
def pcpuFreeArea (c : Chunk) (freeme : Int) : Option (Chunk × Int) :=
  let freeme := mark freeme
  let (i, off) := search c.map freeme c.map.length 0 c.mapUsed 0
  if off ≠ freeme then none else some (releaseArea c i (clear off))

end TinyKernel.Percpu
