import Mathlib.Tactic.Positivity
import TinyKernel.Percpu.Alloc
import TinyKernel.Percpu.Free

/-! A chunk through any sequence of allocations and frees. -/

namespace TinyKernel.Percpu

open List

/-- An allocation that was not given back. -/
structure Live where
  place : Int
  size : Int
  align : Int
  deriving DecidableEq, Repr

/-- The chunk, and what its users hold. -/
structure State where
  chunk : Chunk
  live : List Live

/-- A call, or what the rest of the kernel does to the pages and to the memory before the map. -/
inductive Event where
  | alloc (size align : Int) (popOnly : Bool)
  | free (place : Int)
  | outside (populated : Nat → Bool) (below : Int)

namespace State

variable (s : State)

def alloc (size align : Int) (popOnly : Bool) : State :=
  let (chunk, result) := pcpuAllocArea s.chunk size align popOnly
  ⟨chunk, (result.map fun (place, _) => ⟨place, size, align⟩).toList ++ s.live⟩

/-- `none` if a `BUG_ON` is hit. -/
def step : Event → Option State
  | .alloc size align popOnly => some (s.alloc size align popOnly)
  | .free place => (pcpuFreeArea s.chunk place).map fun (chunk, _) =>
      ⟨chunk, s.live.filter fun l => l.place ≠ place⟩
  | .outside populated below => some { s with chunk := { s.chunk with populated, below } }

def run : State → List Event → Option State
  | s, [] => some s
  | s, event :: events => (s.step event).bind fun s => s.run events

/-- Sizes are even and not 0, alignments are powers of two from 2 on, and what is given back was
allocated. `pcpu_alloc` lets through only sizes up to `PCPU_MIN_UNIT_SIZE` and alignments up to
`PAGE_SIZE`, which keeps its `int`s from wrapping; the integers here need no such bound. -/
def Proper : Event → Prop
  | .alloc size align _ => 2 ≤ size ∧ size % 2 = 0 ∧ ∃ k : Nat, align = 2 ^ (k + 1)
  | .free place => ∃ l ∈ s.live, l.place = place
  | .outside _ _ => True

/-- No allocation takes the word in front of the map for an entry. -/
def Safe : Event → Prop
  | .alloc size align popOnly => ¬ ReadsBelow s.chunk size align popOnly
  | _ => True

/-- Every call of a sequence is proper and safe in the state that it meets; those of `pcpu_alloc`,
with sizes up to `PCPU_MIN_UNIT_SIZE`, are among them. -/
def Orderly : State → List Event → Prop
  | _, [] => True
  | s, event :: events => s.Proper event ∧ s.Safe event ∧
      ∀ s', s.step event = some s' → s'.Orderly events

/-- The map and the hints of the chunk fit each other and what is allocated. -/
structure MapInvariant (unitSize : Int) : Prop where
  increasing : Increasing s.chunk.map
  sentry : s.chunk.map.getLast? = some (mark unitSize)
  disjoint : s.live.Pairwise fun x y => x.place + x.size ≤ y.place ∨ y.place + y.size ≤ x.place
  aligned : ∀ l ∈ s.live, l.place % l.align = 0
  enough : ∀ l ∈ s.live, ∃ a ∈ areas s.chunk.map, a.inUse = true ∧ a.start = l.place ∧
    l.size ≤ a.size
  coalesced : Coalesced s.chunk.map
  freeSize : s.chunk.freeSize = freeSum (areas s.chunk.map)
  firstFree : ∀ x ∈ s.chunk.map.take s.chunk.firstFree, used x = true
  contigHint : ∀ a ∈ areas s.chunk.map, a.inUse = false → a.size ≤ s.chunk.contigHint

end State

section

variable {unitSize : Int}

/-- What is carried through a run. -/
structure Held (unitSize : Int) (s : State) : Prop where
  tiled : Tiled unitSize s.chunk
  distinct : (s.live.map Live.place).Nodup
  aligned : ∀ l ∈ s.live, l.place % l.align = 0
  enough : ∀ l ∈ s.live, ∃ a ∈ areas s.chunk.map, a.inUse = true ∧ a.start = l.place ∧
    l.size ≤ a.size

/-- The areas of a map follow each other. -/
theorem areas_ordered {map : List Int} (increasing : Increasing map) :
    (areas map).Pairwise (fun a b => a.stop ≤ b.start) ∧ ∀ a ∈ areas map, a.start < a.stop := by
  induction map with
  | nil => simp [areas]
  | cons x map ih => ?_
  cases map with
  | nil => simp
  | cons y map => ?_
  obtain ⟨above, rest⟩ := pairwise_cons.mp increasing
  obtain ⟨order, nonempty⟩ := ih rest
  refine ⟨pairwise_cons.mpr ⟨fun b mem => ?_, order⟩, fun a mem => ?_⟩
  · obtain ⟨front, z, next, behind, isMap, rfl⟩ := exists_of_mem_areas mem
    have inMap : z ∈ y :: map := by simp [isMap]
    rcases mem_cons.mp inMap with rfl | later
    · exact Int.le_refl _
    exact ((pairwise_cons.mp rest).1 z later).le
  rcases mem_cons.mp mem with rfl | later
  · exact above y (.head _)
  exact nonempty a later

theorem areas_apart {map : List Int} (increasing : Increasing map) {a b : Area}
    (inA : a ∈ areas map) (inB : b ∈ areas map) (ne : a ≠ b) :
    a.stop ≤ b.start ∨ b.stop ≤ a.start := by
  have either : (areas map).Pairwise fun a b => a.stop ≤ b.start ∨ b.stop ≤ a.start :=
    (areas_ordered increasing).1.imp .inl
  have : Std.Symm fun a b : Area => a.stop ≤ b.start ∨ b.stop ≤ a.start := ⟨fun _ _ => Or.symm⟩
  exact either.forall inA inB ne

theorem Held.mapInvariant (held : Held unitSize s) : s.MapInvariant unitSize := by
  obtain ⟨tiled, distinct, aligned, enough⟩ := held
  refine ⟨tiled.increasing, tiled.sentry, ?_, aligned, enough, tiled.coalesced, tiled.freeSize,
    tiled.firstFree, tiled.contigHint⟩
  have apart := pairwise_map.mp distinct
  refine apart.imp_of_mem fun {x y} inX inY ne => ?_
  obtain ⟨a, inA, _, startA, sizeA⟩ := enough x inX
  obtain ⟨b, inB, _, startB, sizeB⟩ := enough y inY
  have := areas_apart tiled.increasing inA inB fun same => ne (by rw [← startA, same, startB])
  simp only [Area.size] at sizeA sizeB
  omega

theorem even_pow (k : Nat) : (2 : Int) ^ (k + 1) % 2 = 0 := by
  rw [Int.pow_succ]
  exact Int.mul_emod_left ..

/-- Without `pop_only` an allocation at the start of the chunk has no head. -/
theorem not_readsBelow (pos : 0 < align) : ¬ ReadsBelow c size align false := by
  rintro ⟨_, next, rest, _, head, fits, some⟩
  rw [fit_all, alignUp_zero pos] at fits
  split at fits
  · cases fits
  exact some (by simpa using fits.symm)

theorem Held.alloc (held : Held unitSize s) (proper : s.Proper (.alloc size align popOnly))
    (safe : ¬ ReadsBelow s.chunk size align popOnly) :
    Held unitSize (s.alloc size align popOnly) := by
  obtain ⟨large, sizeEven, k, rfl⟩ := proper
  have pos : (0 : Int) < 2 ^ (k + 1) := by positivity
  rw [State.alloc]
  rcases pcpuAllocArea_cases held.tiled pos (even_pow k) (by omega : 0 < size) sizeEven safe with
    ⟨place, pages, isPlace, allocated⟩ | ⟨isNone, sameMap, tiled, _⟩
  · obtain ⟨a, inA, aFree, aStart, aStop⟩ := allocated.wasFree
    simp only [isPlace, Option.map_some, Option.toList_some, singleton_append]
    refine ⟨allocated.tiled, ?_, ?_, ?_⟩
    · refine nodup_cons.mpr ⟨fun mem => ?_, held.distinct⟩
      obtain ⟨l, inLive, atPlace⟩ := mem_map.mp mem
      have samePlace : l.place = place := atPlace
      obtain ⟨b, inB, bUsed, bStart, _⟩ := held.enough l inLive
      have bOrder := (areas_ordered held.tiled.increasing).2 b inB
      have := areas_apart held.tiled.increasing inA inB fun same => by
        rw [same, bUsed] at aFree
        cases aFree
      omega
    · intro l mem
      rcases mem_cons.mp mem with rfl | old
      · exact allocated.aligned
      exact held.aligned l old
    intro l mem
    rcases mem_cons.mp mem with rfl | old
    · exact allocated.area
    obtain ⟨b, inB, bUsed, bStart, bSize⟩ := held.enough l old
    obtain ⟨b', inB', b'Used, b'Start, b'Stop⟩ := allocated.covers b inB bUsed
    refine ⟨b', inB', b'Used, b'Start.trans bStart, ?_⟩
    simp only [Area.size] at bSize ⊢
    omega
  simp only [isNone, Option.map_none, Option.toList_none, nil_append]
  exact ⟨tiled, held.distinct, held.aligned, by rw [sameMap]; exact held.enough⟩

theorem Held.free (held : Held unitSize s) (proper : s.Proper (.free place)) :
    ∃ s', s.step (.free place) = some s' ∧ Held unitSize s' := by
  obtain ⟨l, inLive, isPlace⟩ := proper
  obtain ⟨a, inA, aUsed, aStart, _⟩ := held.enough l inLive
  obtain ⟨c', pages, ran, freed⟩ := pcpuFreeArea_freed held.tiled inA aUsed (aStart.trans isPlace)
  refine ⟨⟨c', s.live.filter fun l => l.place ≠ place⟩, by simp [State.step, ran], freed.tiled, ?_,
    fun l mem => held.aligned l (mem_filter.mp mem).1, fun l mem => ?_⟩
  · exact held.distinct.sublist (filter_sublist.map _)
  obtain ⟨inLive, away⟩ := mem_filter.mp mem
  obtain ⟨b, inB, bUsed, bStart, bSize⟩ := held.enough l inLive
  refine ⟨b, freed.others b inB bUsed ?_, bUsed, bStart, bSize⟩
  rw [bStart]
  simpa using away

theorem Held.step (held : Held unitSize s) (proper : s.Proper event) (safe : s.Safe event) :
    ∃ s', s.step event = some s' ∧ Held unitSize s' := by
  cases event with
  | alloc size align popOnly => exact ⟨_, rfl, held.alloc proper safe⟩
  | free place => exact held.free proper
  | outside populated below => ?_
  obtain ⟨tiled, distinct, aligned, enough⟩ := held
  obtain ⟨start, sentry, increasing, coalesced, freeSize, firstFree, contigHint⟩ := tiled
  exact ⟨_, rfl, ⟨start, sentry, increasing, coalesced, freeSize, firstFree, contigHint⟩, distinct,
    aligned, enough⟩

theorem Held.run (held : Held unitSize s) (orderly : s.Orderly events) :
    ∃ s', s.run events = some s' ∧ Held unitSize s' := by
  induction events generalizing s with
  | nil => exact ⟨s, rfl, held⟩
  | cons event events ih => ?_
  obtain ⟨proper, safe, rest⟩ := orderly
  obtain ⟨s', ran, held'⟩ := held.step proper safe
  obtain ⟨s'', ranRest, held''⟩ := ih held' (rest s' ran)
  exact ⟨s'', by rw [State.run, ran]; exact ranRest, held''⟩

end

/-- The empty chunk. -/
def fresh (unitSize : Int) (populated : Nat → Bool) (below : Int) : State :=
  ⟨allocChunk unitSize populated below, []⟩

/-- After any orderly sequence of calls the map is as it should be, the next allocation keeps it so
exactly if it does not read below the map, and it fails only for want of a large enough area. -/
theorem area_map_invariant {unitSize below : Int} {populated : Nat → Bool} {events : List Event}
    (even : unitSize % 2 = 0) (positive : 0 < unitSize)
    (orderly : (fresh unitSize populated below).Orderly events) :
    ∃ s, (fresh unitSize populated below).run events = some s ∧ s.MapInvariant unitSize ∧
      ∀ size align popOnly, s.Proper (.alloc size align popOnly) →
        ((s.alloc size align popOnly).MapInvariant unitSize ↔
            ¬ ReadsBelow s.chunk size align popOnly) ∧
          (popOnly = false → (pcpuAllocArea s.chunk size align popOnly).2 = none →
            ∀ a ∈ areas s.chunk.map, a.inUse = false →
              ∀ place, place % align = 0 → a.start ≤ place → a.stop < place + size) := by
  have start : Held unitSize (fresh unitSize populated below) :=
    ⟨allocChunk_tiled even positive, by simp [fresh], by simp [fresh], by simp [fresh]⟩
  obtain ⟨s, ran, held⟩ := start.run orderly
  refine ⟨s, ran, held.mapInvariant, fun size align popOnly proper => ⟨⟨?_, ?_⟩, ?_⟩⟩
  · intro invariant below
    obtain ⟨_, sizeEven, k, rfl⟩ := proper
    exact below.loses held.tiled (by positivity) (even_pow k) sizeEven invariant.freeSize
  · exact fun safe => (held.alloc proper safe).mapInvariant
  rintro rfl failed a member free place aligned above
  obtain ⟨large, sizeEven, k, rfl⟩ := proper
  have alignPositive : (0 : Int) < 2 ^ (k + 1) := by positivity
  rcases pcpuAllocArea_cases held.tiled alignPositive (even_pow k) (by omega : 0 < size) sizeEven
    (not_readsBelow alignPositive) with ⟨_, _, isPlace, _⟩ | ⟨_, _, _, all⟩
  · rw [isPlace] at failed
    cases failed
  have := fit_none alignPositive (all a member free) aligned above
  simp only [Area.size] at this
  omega


/-- Three allocations and a free in a chunk of 64 bytes. -/
theorem area_map_invariant_small :
    ∃ s, (fresh 64 (fun _ => true) 0).run
          [.alloc 6 2 false, .alloc 8 8 false, .alloc 16 16 false, .free 0] = some s ∧
      s.MapInvariant 64 := by
  have orderly : (fresh 64 (fun _ => true) 0).Orderly
      [.alloc 6 2 false, .alloc 8 8 false, .alloc 16 16 false, .free 0] := by
    refine ⟨⟨by decide, by decide, 0, by decide⟩, not_readsBelow (by decide), ?_⟩
    rintro _ ⟨⟩
    refine ⟨⟨by decide, by decide, 2, by decide⟩, not_readsBelow (by decide), ?_⟩
    rintro _ ⟨⟩
    refine ⟨⟨by decide, by decide, 3, by decide⟩, not_readsBelow (by decide), ?_⟩
    rintro _ ⟨⟩
    exact ⟨⟨⟨0, 6, 2⟩, by decide, rfl⟩, trivial, fun _ _ => trivial⟩
  obtain ⟨s, ran, invariant, _⟩ := area_map_invariant (by decide) (by decide) orderly
  exact ⟨s, ran, invariant⟩

/-- The first page is not there: the allocation goes to the second one, and the word below the map
says that the area before it is free. -/
theorem first_page_is_lost :
    (fresh 8192 (fun page => page == 1) 0).Proper (.alloc 8 8 true) ∧
      ((fresh 8192 (fun page => page == 1) 0).alloc 8 8 true).chunk.map = [4097, 4104, 8193] ∧
      ((fresh 8192 (fun page => page == 1) 0).alloc 8 8 true).chunk.freeSize = 8184 ∧
      freeSum (areas ((fresh 8192 (fun page => page == 1) 0).alloc 8 8 true).chunk.map) = 4088 ∧
      ¬ ((fresh 8192 (fun page => page == 1) 0).alloc 8 8 true).MapInvariant 8192 := by
  refine ⟨⟨by decide, by decide, 2, by decide⟩, by decide, by decide, by decide,
    fun invariant => ?_⟩
  exact absurd invariant.freeSize (by decide)

end TinyKernel.Percpu
