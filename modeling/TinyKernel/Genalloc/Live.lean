import Mathlib.Algebra.BigOperators.Ring.Finset
import Mathlib.Data.Nat.SuccPred
import Mathlib.Order.Interval.Finset.Nat
import Mathlib.Tactic.Positivity
import TinyKernel.Genalloc.Runs

/-! What holds of live allocations in every interleaving, and what large sizes break. -/

namespace TinyKernel.Genalloc

open Lib Finset Nat

variable {pool : Pool}

/-- A byte of an allocation lies in a granule of a chunk. -/
def Allocation.Meets (pool : Pool) (a : Allocation) (c : Fin pool.count) (granule : Nat) : Prop :=
  (pool.chunk c).startAddr + granule * 2 ^ pool.order < a.addr + a.size ∧
    a.addr < (pool.chunk c).startAddr + (granule + 1) * 2 ^ pool.order

/-- The bytes of two allocations are different ones. -/
def Allocation.Apart (a b : Allocation) : Prop :=
  a.addr + a.size ≤ b.addr ∨ b.addr + b.size ≤ a.addr

section

theorem Pool.granules_lt (pool : Pool) (size : Nat) :
    pool.granules size * 2 ^ pool.order < size + 2 ^ pool.order := by
  have pos := Nat.two_pow_pos pool.order
  have below := Nat.div_mul_le_self (size + (2 ^ pool.order - 1)) (2 ^ pool.order)
  rw [Pool.granules]
  omega

theorem Pool.room_le (sound : pool.Sound) (c : Fin pool.count) :
    (pool.chunk c).startAddr + pool.room c * 2 ^ pool.order ≤ (pool.chunk c).endAddr + 1 := by
  have size := sound.size_eq c
  have order := sound.ordered c
  have covered : pool.room c * 2 ^ pool.order ≤ chunkSize (pool.chunk c) := div_mul_le_self _ _
  omega

variable {a : Allocation} {c : Fin pool.count} {start : Nat}

/-- An allocation keeps inside its chunk, with the bytes that round it up. -/
theorem Allocation.Placed.le_end (placed : a.Placed pool c start) (sound : pool.Sound) :
    a.addr + pool.granules a.size * 2 ^ pool.order ≤ (pool.chunk c).endAddr + 1 := by
  have room := Pool.room_le sound c
  have high := mul_le_mul_right (2 ^ pool.order) placed.high
  have addr := placed.addr
  rw [Nat.add_mul] at high
  omega

/-- The granules with a byte of an allocation are those it owns. -/
theorem Allocation.Placed.meets_iff (placed : a.Placed pool c start) (sound : pool.Sound)
    (inside : granule < pool.room d) : a.Meets pool d granule ↔ (d, granule) ∈ a.holds pool := by
  have addr := placed.addr
  have enough := pool.le_granules a.size
  have tight := pool.granules_lt a.size
  have below : (granule + 1) * 2 ^ pool.order ≤ pool.room d * 2 ^ pool.order :=
    mul_le_mul_right _ inside
  have room := Pool.room_le sound d
  have last := placed.le_end sound
  rw [placed.holds_eq, mem_span, Allocation.Meets]
  constructor
  · rintro ⟨first, second⟩
    have same : d = c := by
      by_contra ne
      have apart := sound.apart d c ne
      omega
    subst same
    rw [addr] at first second
    have low : start * 2 ^ pool.order < (granule + 1) * 2 ^ pool.order := by omega
    have high : granule * 2 ^ pool.order < (start + pool.granules a.size) * 2 ^ pool.order := by
      rw [add_mul]
      omega
    exact ⟨rfl, Nat.lt_succ_iff.mp (Nat.lt_of_mul_lt_mul_right low),
      Nat.lt_of_mul_lt_mul_right high⟩
  rintro ⟨same, low, high⟩
  obtain rfl : d = c := same
  have low' : start * 2 ^ pool.order ≤ granule * 2 ^ pool.order := mul_le_mul_right _ low
  have high' : (granule + 1) * 2 ^ pool.order ≤ (start + pool.granules a.size) * 2 ^ pool.order :=
    Nat.mul_le_mul_right _ high
  have pos := Nat.two_pow_pos pool.order
  simp only [Nat.add_mul] at high' ⊢
  omega

/-- Allocations that own different bits have different bytes. -/
theorem Allocation.Placed.apart (sound : pool.Sound) (one : a.Placed pool c first)
    (two : b.Placed pool d second) (disjoint : Disjoint (a.holds pool) (b.holds pool)) :
    a.Apart b := by
  have lastA := one.le_end sound
  have lastB := two.le_end sound
  have enoughA := pool.le_granules a.size
  have enoughB := pool.le_granules b.size
  have addrA := one.addr
  have addrB := two.addr
  rw [Allocation.Apart]
  by_cases same : c = d
  · subst same
    have split : first + pool.granules a.size ≤ second ∨ second + pool.granules b.size ≤ first := by
      by_contra overlap
      push Not at overlap
      have positiveA : 0 < pool.granules a.size := Pool.granules_pos one.some
      have positiveB : 0 < pool.granules b.size := Pool.granules_pos two.some
      have mineA : (c, max first second) ∈ a.holds pool := by
        rw [one.holds_eq]
        exact ⟨rfl, le_max_left _ _, max_lt (by omega) overlap.1⟩
      have mineB : (c, max first second) ∈ b.holds pool := by
        rw [two.holds_eq]
        exact ⟨rfl, le_max_right _ _, max_lt overlap.2 (by omega)⟩
      exact Set.disjoint_left.mp disjoint mineA mineB
    rcases split with before | behind
    · have bytes := mul_le_mul_right (2 ^ pool.order) before
      rw [add_mul] at bytes
      omega
    have bytes := mul_le_mul_right (2 ^ pool.order) behind
    rw [add_mul] at bytes
    omega
  have apart := sound.apart c d same
  omega

end

variable {Context : Type} [DecidableEq Context] [Fintype Context] {world : World pool Context}

omit [DecidableEq Context] in
theorem Inv.disjoint (inv : Inv world) {a b : Allocation} (one : a ∈ world.live)
    (two : b ∈ world.live) (ne : a ≠ b) : Disjoint (a.holds pool) (b.holds pool) := by
  have apart := inv.owned.apart (.inr a) (.inr b) fun same => ne (Sum.inr.inj same)
  rwa [World.holds, World.holds, if_pos one, if_pos two] at apart

/-- The bits of a chunk that an allocation owns. -/
def Allocation.part (pool : Pool) (c : Fin pool.count) (a : Allocation) : Finset Nat :=
  if chunkOf pool a.addr = some c then
    Ico (startBitOf pool a.addr c).toNat ((startBitOf pool a.addr c).toNat + pool.granules a.size)
  else ∅

theorem Allocation.mem_part {a : Allocation} {bit : Nat} :
    bit ∈ a.part pool c ↔ (c, bit) ∈ a.holds pool := by
  rw [Allocation.part, Allocation.holds]
  split <;> simp [*]

theorem Allocation.charge_eq (c : Fin pool.count) (a : Allocation) :
    a.charge pool c = (a.part pool c).card * 2 ^ pool.order := by
  rw [Allocation.charge, Allocation.part]
  split <;> simp

omit [DecidableEq Context] in
/-- Live allocations together use no more than the chunk has. -/
theorem Inv.total_le (inv : Inv world) (c : Fin pool.count) :
    (world.live.map (Allocation.charge pool c)).sum ≤ chunkSize (pool.chunk c) := by
  have apart : (world.live.toFinset : Set Allocation).PairwiseDisjoint
      (Allocation.part pool c) := by
    intro a one b two ne
    refine disjoint_left.mpr fun bit first second => ?_
    have disjoint := inv.disjoint (List.mem_toFinset.mp one) (List.mem_toFinset.mp two) ne
    exact Set.disjoint_left.mp disjoint (Allocation.mem_part.mp first)
      (Allocation.mem_part.mp second)
  have inside : world.live.toFinset.biUnion (Allocation.part pool c) ⊆ range (pool.room c) := by
    intro bit mem
    obtain ⟨a, old, part⟩ := mem_biUnion.mp mem
    obtain ⟨d, start, placed⟩ := inv.placed a (List.mem_toFinset.mp old)
    have held := Allocation.mem_part.mp part
    rw [placed.holds_eq] at held
    obtain ⟨rfl, -, high⟩ := held
    exact mem_range.mpr (high.trans_le placed.high)
  have cards : ∑ a ∈ world.live.toFinset, (a.part pool c).card ≤ pool.room c := by
    rw [← card_biUnion apart]
    simpa using card_le_card inside
  have room : pool.room c * 2 ^ pool.order ≤ chunkSize (pool.chunk c) := div_mul_le_self _ _
  rw [← List.sum_toFinset _ inv.nodup]
  simp only [Allocation.charge_eq, ← sum_mul]
  exact_mod_cast (mul_le_mul_right _ cards).trans room

section

variable {pool : Pool} {memory after : Memory pool.count} {call next : Call pool.count}
  {live : List Allocation} {allowed : Nat → Prop}

theorem advance_search (algo : pool.algo = .firstFit)
    (found : bitmapFindNextZeroArea (fun _ _ => false) (toUlong (pool.endBit c))
        (toUlong r.startBit) (toUint r.nbits) 0 = 0) :
    advance pool (fun _ _ _ => false) memory (.search r c) =
      some (tryPlace pool { r with startBit := 0 } c, memory, none) := by
  simp only [advance, algo, Algo.find, genPoolFirstFit, found]
  rfl

theorem advance_scan (views : Nat → Nat → Nat → Bool) {next : Nat} (inside : next < pool.count)
    (enough : ¬toUlong (memory.avail ⟨next, inside⟩) < r.size) :
    advance pool views memory (.scan r next) = some (.search r ⟨next, inside⟩, memory, none) := by
  rw [advance, dif_pos inside, if_neg enough]

/-- A step of the only context. -/
theorem Reached.alone (there : Reached pool Unit allowed ⟨memory, fun _ => call, live⟩)
    (views : Nat → Nat → Nat → Bool)
    (moved : advance pool views memory call = some (next, after, returned)) :
    Reached pool Unit allowed ⟨after, fun _ => next, returned.toList ++ live⟩ := by
  refine .step () (.run views) there nofun ?_
  simp only [Genalloc.step, moved, Option.map_some]
  congr 2

theorem Reached.request (there : Reached pool Unit allowed ⟨memory, fun _ => .idle, live⟩)
    (size : Nat) (fine : allowed size) :
    Reached pool Unit allowed ⟨memory, fun _ => genPoolAlloc pool size, live⟩ := by
  refine .step () (.alloc size) there ?_ ?_
  · rintro size ⟨⟩
    exact fine
  simp only [Genalloc.step, if_pos]
  congr 2

end

/-- On a pool of separate chunks that an `int` can count, with requests that it can count too:
however the steps of the calls interleave, live allocations have bytes of their own inside a chunk,
and no `BUG_ON` fires. While no call runs, the bits are those of the granules of live allocations,
and the counter of a chunk is what they leave of it. -/
theorem pool_allocations_apart (pool : Pool) (Context : Type) [DecidableEq Context]
    [Fintype Context] (sound : pool.Sound) (world : World pool Context)
    (reached : Reached pool Context pool.Fits world) :
    (∀ a ∈ world.live, ∃ c, (pool.chunk c).startAddr ≤ a.addr ∧
        a.addr + a.size ≤ (pool.chunk c).endAddr + 1) ∧ world.live.Pairwise Allocation.Apart ∧
      (∀ t, world.calls t ≠ .bug ∧ world.calls t ≠ .wild) ∧
      ((∀ t, world.calls t = .idle) →
        ∀ c, (∀ granule, (world.memory.bits c (granule / 64)).getLsbD (granule % 64) = true ↔
            granule < pool.room c ∧ ∃ a ∈ world.live, a.Meets pool c granule) ∧
          world.memory.avail c =
            chunkSize (pool.chunk c) - (world.live.map (Allocation.charge pool c)).sum) := by
  have inv := reached.inv sound
  refine ⟨?_, ?_, ?_, fun idle c => ⟨fun granule => ?_, ?_⟩⟩
  · intro a member
    obtain ⟨c, start, placed⟩ := inv.placed a member
    have last := placed.le_end sound
    have enough := pool.le_granules a.size
    have addr := placed.addr
    exact ⟨c, by omega, by omega⟩
  · refine inv.nodup.imp_of_mem fun one two different => ?_
    obtain ⟨c, first, placedA⟩ := inv.placed _ one
    obtain ⟨d, second, placedB⟩ := inv.placed _ two
    exact placedA.apart sound placedB (inv.disjoint one two different)
  · intro t
    have good := inv.good t
    constructor <;> intro state <;> rw [state] at good <;> exact good
  · have owners : (c, granule) ∈ world.memory.taken ↔
        ∃ a ∈ world.live, (c, granule) ∈ a.holds pool := by
      rw [inv.owned.covered]
      constructor
      · rintro ⟨t | a, held⟩
        · rw [World.holds_inl, idle t] at held
          cases held
        rw [World.holds] at held
        split at held
        next member => exact ⟨a, member, held⟩
        next => cases held
      rintro ⟨a, member, held⟩
      exact ⟨.inr a, by rwa [World.holds, if_pos member]⟩
    rw [show (world.memory.bits c (granule / 64)).getLsbD (granule % 64) = true ↔
      (c, granule) ∈ world.memory.taken from Iff.rfl, owners]
    constructor
    · rintro ⟨a, member, held⟩
      obtain ⟨d, start, placed⟩ := inv.placed a member
      have inside : granule < pool.room c := by
        have span := held
        rw [placed.holds_eq] at span
        obtain ⟨rfl, -, high⟩ := span
        exact high.trans_le placed.high
      exact ⟨inside, a, member, (placed.meets_iff sound inside).mpr held⟩
    rintro ⟨inside, a, member, meets⟩
    obtain ⟨d, start, placed⟩ := inv.placed a member
    exact ⟨a, member, (placed.meets_iff sound inside).mp meets⟩
  have total := inv.total_le c
  have small := sound.small c
  have positive : 0 ≤ (world.live.map (Allocation.charge pool c)).sum := by
    refine List.sum_nonneg fun charge member => ?_
    obtain ⟨a, -, rfl⟩ := List.mem_map.mp member
    rw [Allocation.charge_eq]
    positivity
  have spent : world.spent c = (world.live.map (Allocation.charge pool c)).sum := by
    simp [World.spent, idle, Call.charge]
  rw [inv.avail c, spent]
  exact toInt_of_lt (by omega) (by omega)

def runEvents (world : World pool Context) (events : List (Context × Event)) :
    Option (World pool Context) :=
  events.foldlM (fun world event => step world event.1 event.2) world

omit [Fintype Context] in
theorem Reached.runEvents {allowed : Nat → Prop} {world after : World pool Context}
    {events : List (Context × Event)} (there : Reached pool Context allowed world)
    (fine : ∀ event ∈ events, ∀ size, event.2 = .alloc size → allowed size)
    (ran : runEvents world events = some after) : Reached pool Context allowed after := by
  induction events generalizing world with
  | nil =>
    obtain rfl := Option.some.inj ran
    exact there
  | cons event events ih => ?_
  obtain ⟨next, stepped, ran⟩ := Option.bind_eq_some_iff.mp ran
  obtain ⟨now, later⟩ := List.forall_mem_cons.mp fine
  exact ih (.step event.1 event.2 there now stepped) later ran

def smallPool : Pool := genPoolAddVirt ⟨4, .firstFit, []⟩ 4096 256

/-- Two contexts that both see an empty bitmap. The one reads a word before the other has changed
it, finds the bits set when it comes to change them itself, searches again and gets the granules
behind. -/
def racing : List (Bool × Event) :=
  let blind : Event := .run fun _ _ _ => false
  let seeing : Event := .run fun _ _ bit => bit < 2
  [(false, .alloc 20), (true, .alloc 30), (false, blind), (true, blind), (false, blind),
    (true, blind), (true, blind), (false, blind), (false, blind), (true, blind), (true, seeing),
    (false, blind), (true, blind), (true, blind), (true, blind)]

theorem pool_allocations_apart_racing :
    smallPool.Sound ∧
      ∃ world, Reached smallPool Bool smallPool.Fits world ∧ (∀ t, world.calls t = .idle) ∧
        world.live = [⟨4128, 30⟩, ⟨4096, 20⟩] ∧ world.live.Pairwise Allocation.Apart ∧
        ∀ c, world.memory.avail c =
          chunkSize (smallPool.chunk c) - (world.live.map (Allocation.charge smallPool c)).sum := by
  have sound : smallPool.Sound := by constructor <;> decide
  have fits : smallPool.Fits 20 ∧ smallPool.Fits 30 := by constructor <;> constructor <;> decide
  have fine : ∀ event ∈ racing, ∀ size, event.2 = .alloc size → smallPool.Fits size := by
    simp [racing, fits]
  have ended : ((runEvents (World.fresh smallPool Bool) racing).map fun world =>
      (world.live, world.calls false, world.calls true)) =
        some ([⟨4128, 30⟩, ⟨4096, 20⟩], .idle, .idle) := by
    decide +kernel
  obtain ⟨world, ran, same⟩ := Option.map_eq_some_iff.mp ended
  obtain ⟨live, first, second⟩ : _ ∧ _ ∧ _ := by simpa using same
  have idle : ∀ t, world.calls t = .idle := Bool.rec first second
  have reached := Reached.fresh.runEvents fine ran
  obtain ⟨-, apart, -, exact⟩ := pool_allocations_apart smallPool Bool sound world reached
  exact ⟨sound, world, reached, idle, live, apart, fun c => (exact idle c).2⟩

/-- A chunk whose size does not fit in an `int`. -/
def largePool : Pool := genPoolAddVirt ⟨12, .firstFit, []⟩ 0x1000000 (2 ^ 31)

theorem largePool_again
    (there : Reached largePool Unit (fun _ => True) ⟨memory, fun _ => .idle, live⟩)
    (negative : memory.avail ⟨0, by decide⟩ = -2 ^ 31) :
    ∃ after : Memory largePool.count, after.avail ⟨0, by decide⟩ = -2 ^ 31 ∧
      Reached largePool Unit (fun _ => True)
        ⟨after, fun _ => .idle, ⟨0x1000000, 2 ^ 44⟩ :: live⟩ := by
  have called := there.request (2 ^ 44) trivial
  have begun : genPoolAlloc largePool (2 ^ 44) = .scan ⟨2 ^ 44, 0, 0⟩ 0 := by decide +kernel
  rw [begun] at called
  have enough : ¬toUlong (memory.avail ⟨0, by decide⟩) < 2 ^ 44 := by
    rw [negative]
    decide +kernel
  have seen := called.alone (fun _ _ _ => false) (advance_scan _ (by decide) enough)
  have searched := seen.alone _ (advance_search rfl (by decide +kernel))
  have placed : tryPlace largePool ⟨2 ^ 44, 0, 0⟩ ⟨0, by decide⟩ =
      .sub ⟨2 ^ 44, 0, 0⟩ ⟨0, by decide⟩ := by
    decide +kernel
  rw [placed] at searched
  have done := searched.alone (fun _ _ _ => false) rfl
  refine ⟨_, ?_, done⟩
  rw [avail_addAvail, if_pos rfl, negative]
  decide +kernel

/-- Two requests of so many bytes that their number of granules is zero in an `int` get the same
address. -/
theorem large_requests_get_one_address :
    (∀ c, 2 ^ largePool.order ∣ chunkSize (largePool.chunk c)) ∧
      ∃ world, Reached largePool Unit (fun _ => True) world ∧ (∀ t, world.calls t = .idle) ∧
        world.live = [⟨0x1000000, 2 ^ 44⟩, ⟨0x1000000, 2 ^ 44⟩] ∧
        ¬world.live.Pairwise Allocation.Apart := by
  refine ⟨by decide +kernel, ?_⟩
  obtain ⟨memory, negative, once⟩ := largePool_again .fresh (by decide +kernel)
  obtain ⟨memory', -, twice⟩ := largePool_again once negative
  refine ⟨_, twice, fun _ => rfl, rfl, ?_⟩
  simp [Allocation.Apart]

end TinyKernel.Genalloc
