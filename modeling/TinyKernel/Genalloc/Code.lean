import Mathlib.Algebra.Group.Int.Defs
import Mathlib.Algebra.Ring.Nat
import Mathlib.Data.Nat.Log
import Mathlib.Order.MinMax
import Mathlib.Tactic.Common

/-! The pool allocator of `lib/genalloc.c`. A call is in one of the states between two accesses to
memory that others may change; each access is one step, and the steps of all calls interleave. -/

namespace TinyKernel.Genalloc

open Function List Nat

/-- A value stored in an `int`. -/
def toInt (value : Int) : Int := value.bmod (2 ^ 32)

/-- An `int` used as an `unsigned long`. -/
def toUlong (value : Int) : Nat := (value % 2 ^ 64).toNat

/-- An `int` used as an `unsigned int`. -/
def toUint (value : Int) : Nat := (value % 2 ^ 32).toNat

abbrev Word := BitVec 64

def bitmapFirstWordMask (start : Nat) : Word := BitVec.allOnes 64 <<< (start % 64)

def bitmapLastWordMask (nbits : Nat) : Word :=
  if nbits % 64 ≠ 0 then (1#64 <<< (nbits % 64)) - 1#64 else BitVec.allOnes 64

/-- The first set bit from `offset` on, or `size`. -/
def findNextBit (view : Nat → Bool) (size offset : Nat) : Nat :=
  ((range' offset (size - offset)).find? view).getD size

def findNextZeroBit (view : Nat → Bool) (size offset : Nat) : Nat :=
  findNextBit (fun bit => !view bit) size offset

theorem findNextBit_ge (view : Nat → Bool) (size offset : Nat) :
    min offset size ≤ findNextBit view size offset := by
  rw [findNextBit]
  cases found : (range' offset (size - offset)).find? view with
  | none => exact min_le_right _ _
  | some bit => ?_
  have inside := mem_range'_1.mp (mem_of_find?_eq_some found)
  simp only [Option.getD_some]
  omega

theorem findNextBit_le (view : Nat → Bool) (size offset : Nat) :
    findNextBit view size offset ≤ size := by
  rw [findNextBit]
  cases found : (range' offset (size - offset)).find? view with
  | none => exact le_rfl
  | some bit => ?_
  have inside := mem_range'_1.mp (mem_of_find?_eq_some found)
  simp only [Option.getD_some]
  omega

/-- `__ALIGN_MASK` for a mask below a power of two. -/
def alignMask (x mask : Nat) : Nat := (x + mask) / (mask + 1) * (mask + 1)

theorem le_alignMask (x mask : Nat) : x ≤ alignMask x mask := by
  rw [alignMask]
  have := div_add_mod (x + mask) (mask + 1)
  have := mod_lt (x + mask) (add_one_pos mask)
  rw [mul_comm]
  omega

/-- A set bit in a place that was found is at or after the start of the search. -/
theorem start_le_of_set (view later : Nat → Bool) (size start mask : Nat) {last : Nat}
    (inside : last ≤ size)
    (set : findNextBit later last (alignMask (findNextZeroBit view size start) mask) < last) :
    start ≤ findNextBit later last (alignMask (findNextZeroBit view size start) mask) := by
  have low := findNextBit_ge later last (alignMask (findNextZeroBit view size start) mask)
  have first := findNextBit_ge (fun bit => !view bit) size start
  have align := le_alignMask (findNextZeroBit view size start) mask
  rw [findNextZeroBit] at *
  omega

/-- `bitmap_find_next_zero_area`. The bits may change under it: each pass over them has its own
view. -/
def bitmapFindNextZeroArea (views : Nat → Nat → Bool) (size start nr mask : Nat) : Nat :=
  let index := alignMask (findNextZeroBit (views 0) size start) mask
  let last := index + nr
  if size < last then last
  else
    let i := findNextBit (views 1) last index
    if i < last then bitmapFindNextZeroArea (fun pass => views (pass + 2)) size (i + 1) nr mask
    else index
termination_by size - start
decreasing_by
  rename_i inside set
  have later := start_le_of_set (views 0) (views 1) size start mask (not_lt.mp inside) set
  exact Nat.sub_lt_sub_left ((later.trans_lt set).trans_le (not_lt.mp inside))
    (Nat.lt_succ_of_le later)

def genPoolFirstFit (views : Nat → Nat → Bool) (size start nr : Nat) : Nat :=
  bitmapFindNextZeroArea views size start nr 0

def genPoolFirstFitOrderAlign (views : Nat → Nat → Bool) (size start nr : Nat) : Nat :=
  bitmapFindNextZeroArea views size start nr (2 ^ clog 2 nr - 1)

theorem le_bitmapFindNextZeroArea (views : Nat → Nat → Bool) (size start nr mask : Nat) :
    min start size ≤ bitmapFindNextZeroArea views size start nr mask := by
  fun_induction bitmapFindNextZeroArea views size start nr mask with
  | case1 views start index last out =>
    exact (min_le_right _ _).trans out.le
  | case2 views start index last inside i again ih =>
    have later := start_le_of_set (views 0) (views 1) size start mask (not_lt.mp inside) again
    exact (min_le_min_right size (later.trans (le_succ _))).trans ih
  | case3 views start index last inside i found => ?_
  have first := findNextBit_ge (fun bit => !views 0 bit) size start
  exact first.trans (le_alignMask _ mask)

/-- The loop of `gen_pool_best_fit`, with the best place so far. -/
def bestFitLoop (views : Nat → Nat → Nat → Bool) (size nr startBit len index : Nat) : Nat :=
  if index < size then
    let nextBit := findNextBit (views 0 0) size (index + nr)
    let best := if nextBit - index < len then (index, nextBit - index) else (startBit, len)
    if nextBit - index < len ∧ best.2 = nr then best.1
    else
      bestFitLoop (fun search => views (search + 2)) size nr best.1 best.2
        (bitmapFindNextZeroArea (views 1) size (nextBit + 1) nr 0)
  else startBit
termination_by size - index
decreasing_by
  rename_i inside _
  have later := findNextBit_ge (views 0 0) size (index + nr)
  have next := le_bitmapFindNextZeroArea (views 1) size
    (findNextBit (views 0 0) size (index + nr) + 1) nr 0
  apply Nat.sub_lt_sub_left inside
  omega

def genPoolBestFit (views : Nat → Nat → Nat → Bool) (size start nr : Nat) : Nat :=
  bestFitLoop (fun search => views (search + 1)) size nr size (size + 1)
    (bitmapFindNextZeroArea (views 0) size start nr 0)

/-- The functions of the source for `pool->algo`. -/
inductive Algo where
  | firstFit
  | firstFitOrderAlign
  | bestFit
  deriving DecidableEq, Repr

def Algo.find (views : Nat → Nat → Nat → Bool) (size start nr : Nat) : Algo → Nat
  | firstFit => genPoolFirstFit (views 0) size start nr
  | firstFitOrderAlign => genPoolFirstFitOrderAlign (views 0) size start nr
  | bestFit => genPoolBestFit views size start nr

/-- Whether bits are set or cleared. -/
inductive Mode where
  | set
  | clear
  deriving DecidableEq, Repr

/-- The test of `set_bits_ll` and of `clear_bits_ll` that ends in `-EBUSY`. -/
def Mode.busy : Mode → Word → Word → Bool
  | set, val, mask => val &&& mask ≠ 0
  | clear, val, mask => val &&& mask ≠ mask

/-- The new value in the `cmpxchg` of `set_bits_ll` and of `clear_bits_ll`. -/
def Mode.apply : Mode → Word → Word → Word
  | set, val, mask => val ||| mask
  | clear, val, mask => val &&& ~~~mask

/-- `bitmap_set_ll` or `bitmap_clear_ll` at a word, with the value that was read from it last. -/
structure Walk where
  p : Nat
  nr : Nat
  bits : Nat
  mask : Word
  size : Nat
  val : Option Word
  deriving DecidableEq

namespace Walk

/-- How far a walk is after an access: at a word, or at its end with the remaining bits. -/
inductive Outcome where
  | more (walk : Walk)
  | done (remain : Nat)

/-- The heads of the `while` and the `if` before the next word. -/
def next (walk : Walk) : Outcome := if walk.nr = 0 then .done 0 else .more walk

def start (start nr : Nat) : Outcome :=
  next ⟨start / 64, nr, 64 - start % 64, bitmapFirstWordMask start, start + nr, none⟩

def wordMask (walk : Walk) : Word :=
  if walk.bits ≤ walk.nr then walk.mask else walk.mask &&& bitmapLastWordMask walk.size

/-- The value that was read is tested before the `cmpxchg`. -/
def test (walk : Walk) (mode : Mode) (val : Word) : Outcome :=
  if mode.busy val walk.wordMask then .done walk.nr else .more { walk with val := some val }

def advance (walk : Walk) : Outcome :=
  if walk.bits ≤ walk.nr then
    next ⟨walk.p + 1, walk.nr - walk.bits, 64, BitVec.allOnes 64, walk.size, none⟩
  else .done 0

/-- One access to the word: the first read or a `cmpxchg`. It gives the word afterwards. -/
def access (walk : Walk) (mode : Mode) (current : Word) : Outcome × Word :=
  match walk.val with
  | none => (walk.test mode current, current)
  | some val =>
    if current = val then (walk.advance, mode.apply val walk.wordMask)
    else (walk.test mode current, current)

end Walk

structure Chunk where
  startAddr : Nat
  endAddr : Nat
  deriving DecidableEq, Repr

def chunkSize (chunk : Chunk) : Nat := (chunk.endAddr + 1 + (2 ^ 64 - chunk.startAddr)) % 2 ^ 64

structure Pool where
  order : Nat
  algo : Algo
  chunks : List Chunk

def genPoolAddVirt (pool : Pool) (virt size : Nat) : Pool :=
  { pool with chunks := ⟨virt, (virt + size + (2 ^ 64 - 1)) % 2 ^ 64⟩ :: pool.chunks }

abbrev Pool.count (pool : Pool) : Nat := pool.chunks.length

def Pool.chunk (pool : Pool) (c : Fin pool.count) : Chunk := pool.chunks.get c

/-- `(size + (1UL << order) - 1) >> order` in an `int`. -/
def Pool.nbits (pool : Pool) (size : Nat) : Int :=
  toInt ((size + (2 ^ pool.order - 1)) % 2 ^ 64 / 2 ^ pool.order : Nat)

def Pool.endBit (pool : Pool) (c : Fin pool.count) : Int :=
  toInt (chunkSize (pool.chunk c) / 2 ^ pool.order : Nat)

/-- The bitmaps and the counters of `n` chunks. -/
structure Memory (n : Nat) where
  bits : Fin n → Nat → Word
  avail : Fin n → Int

/-- The memory after all chunks were added. -/
def Pool.fresh (pool : Pool) : Memory pool.count where
  bits := fun _ _ => 0
  avail := fun c => toInt (chunkSize (pool.chunk c))

/-- The local variables of a call. -/
structure Request where
  size : Nat
  nbits : Int
  startBit : Int
  deriving DecidableEq, Repr

/-- Where a call stands on `n` chunks. After a failed `BUG_ON` it is at `bug`; a walk with a
negative position or length, which leaves the bitmap, is at `wild`. -/
inductive Call (n : Nat) where
  | idle
  | scan (r : Request) (next : Nat)
  | search (r : Request) (c : Fin n)
  | set (r : Request) (c : Fin n) (walk : Walk)
  | undo (r : Request) (c : Fin n) (walk : Walk)
  | sub (r : Request) (c : Fin n)
  | clear (r : Request) (c : Fin n) (walk : Walk)
  | add (r : Request) (c : Fin n)
  | bug
  | wild
  deriving DecidableEq

/-- What a caller of `gen_pool_alloc` got, for what it asked. -/
structure Allocation where
  addr : Nat
  size : Nat
  deriving DecidableEq, Repr

section

variable (pool : Pool)

def genPoolAlloc (size : Nat) : Call pool.count :=
  if size = 0 then .idle else .scan ⟨size, pool.nbits size, 0⟩ 0

/-- After `bitmap_set_ll` has got as far as `outcome`. -/
def afterSet (r : Request) (c : Fin pool.count) : Walk.Outcome → Call pool.count
  | .more walk => .set r c walk
  | .done 0 => .sub r c
  | .done remain =>
    match Walk.start r.startBit.toNat (r.nbits.toNat - remain) with
    | .more walk => .undo r c walk
    | .done _ => .search r c

/-- After the `bitmap_clear_ll` of `gen_pool_alloc`: `BUG_ON(remain)` and `goto retry`. -/
def afterUndo (r : Request) (c : Fin pool.count) : Walk.Outcome → Call pool.count
  | .more walk => .undo r c walk
  | .done 0 => .search r c
  | .done _ => .bug

/-- After the `bitmap_clear_ll` of `gen_pool_free`. -/
def afterClear (r : Request) (c : Fin pool.count) : Walk.Outcome → Call pool.count
  | .more walk => .clear r c walk
  | .done 0 => .add r c
  | .done _ => .bug

/-- From `retry` on, with the place that `pool->algo` found. -/
def tryPlace (r : Request) (c : Fin pool.count) : Call pool.count :=
  if pool.endBit c ≤ r.startBit then .scan r (c + 1)
  else if r.startBit < 0 ∨ r.nbits < 0 then .wild
  else afterSet pool r c (Walk.start r.startBit.toNat r.nbits.toNat)

def addrOf (r : Request) (c : Fin pool.count) : Nat :=
  ((pool.chunk c).startAddr + toUlong r.startBit * 2 ^ pool.order) % 2 ^ 64

/-- The first chunk that holds an address. -/
def chunkOf (addr : Nat) : Option (Fin pool.count) :=
  (finRange pool.count).find? fun c =>
    (pool.chunk c).startAddr ≤ addr ∧ addr ≤ (pool.chunk c).endAddr

def startBitOf (addr : Nat) (c : Fin pool.count) : Int :=
  toInt ((addr - (pool.chunk c).startAddr) / 2 ^ pool.order : Nat)

def genPoolFree (addr size : Nat) : Call pool.count :=
  match chunkOf pool addr with
  | none => .bug
  | some c =>
    if (pool.chunk c).endAddr < (addr + size + (2 ^ 64 - 1)) % 2 ^ 64 then .bug
    else
      let r : Request := ⟨size, pool.nbits size, startBitOf pool addr c⟩
      if r.startBit < 0 ∨ r.nbits < 0 then .wild
      else afterClear pool r c (Walk.start r.startBit.toNat r.nbits.toNat)

end

section

/-- One access of a walk to the bitmap of a chunk. -/
def Memory.access {n : Nat} (memory : Memory n) (c : Fin n) (walk : Walk) (mode : Mode) :
    Walk.Outcome × Memory n :=
  let (outcome, word) := walk.access mode (memory.bits c walk.p)
  (outcome, { memory with
    bits := update memory.bits c (update (memory.bits c) walk.p word) })

def Memory.addAvail {n : Nat} (memory : Memory n) (c : Fin n) (amount : Int) : Memory n :=
  { memory with avail := update memory.avail c (toInt (memory.avail c + amount)) }

/-- The next access of a call: the call and the memory afterwards, and what it returns to its
caller. `views` is what the search sees. -/
def advance (pool : Pool) (views : Nat → Nat → Nat → Bool) (memory : Memory pool.count) :
    Call pool.count → Option (Call pool.count × Memory pool.count × Option Allocation)
  | .scan r next =>
    if inside : next < pool.count then
      if toUlong (memory.avail ⟨next, inside⟩) < r.size then some (.scan r (next + 1), memory, none)
      else some (.search r ⟨next, inside⟩, memory, none)
    else some (.idle, memory, none)
  | .search r c =>
    let place :=
      pool.algo.find views (toUlong (pool.endBit c)) (toUlong r.startBit) (toUint r.nbits)
    some (tryPlace pool { r with startBit := toInt place } c, memory, none)
  | .set r c walk =>
    let (outcome, memory) := memory.access c walk .set
    some (afterSet pool r c outcome, memory, none)
  | .undo r c walk =>
    let (outcome, memory) := memory.access c walk .clear
    some (afterUndo pool r c outcome, memory, none)
  | .sub r c =>
    let addr := addrOf pool r c
    some (.idle, memory.addAvail c (-toInt (r.nbits * 2 ^ pool.order)),
      if addr = 0 then none else some ⟨addr, r.size⟩)
  | .clear r c walk =>
    let (outcome, memory) := memory.access c walk .clear
    some (afterClear pool r c outcome, memory, none)
  | .add r c => some (.idle, memory.addAvail c (toInt (r.nbits * 2 ^ pool.order)), none)
  | .idle | .bug | .wild => none

/-- The memory of a pool, the calls of all contexts and the live allocations. -/
structure World (pool : Pool) (Context : Type) where
  memory : Memory pool.count
  calls : Context → Call pool.count
  live : List Allocation

inductive Event where
  | alloc (size : Nat)
  | free (allocation : Allocation)
  | run (views : Nat → Nat → Nat → Bool)

variable {pool : Pool} {Context : Type} [DecidableEq Context]

/-- A context calls one of the functions, or takes one step in its call. Only live allocations are
freed. -/
def step (world : World pool Context) (t : Context) : Event → Option (World pool Context)
  | .alloc size =>
    if world.calls t = .idle then
      some { world with calls := update world.calls t (genPoolAlloc pool size) }
    else none
  | .free a =>
    if world.calls t = .idle ∧ a ∈ world.live then
      some { world with
        calls := update world.calls t (genPoolFree pool a.addr a.size)
        live := world.live.erase a }
    else none
  | .run views =>
    (advance pool views world.memory (world.calls t)).map fun (call, memory, returned) =>
      { memory, calls := update world.calls t call
        live := returned.toList ++ world.live }

/-- The pool before any call. -/
def World.fresh (pool : Pool) (Context : Type) : World pool Context :=
  ⟨pool.fresh, fun _ => .idle, []⟩

end

end TinyKernel.Genalloc
