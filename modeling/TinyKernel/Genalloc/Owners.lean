import TinyKernel.Genalloc.Walk
import TinyKernel.Lib.Ownership

/-! Who owns which bits. A call owns the part of its range that it has set and not yet cleared, a
live allocation owns its granules, and every set bit has exactly one owner. -/

namespace TinyKernel.Genalloc

open Lib

section

variable {n : Nat}

/-- The bits from `lo` up to `hi` of a chunk. -/
def span (c : Fin n) (lo hi : Nat) : Set (Fin n × Nat) :=
  {cell | cell.1 = c ∧ lo ≤ cell.2 ∧ cell.2 < hi}

variable {cell : Fin n × Nat}

theorem mem_span : cell ∈ span c lo hi ↔ cell.1 = c ∧ lo ≤ cell.2 ∧ cell.2 < hi := Iff.rfl

theorem span_union (c : Fin n) (first : lo ≤ mid) (second : mid ≤ hi) :
    span c lo mid ∪ span c mid hi = span c lo hi := by
  ext cell
  simp only [Set.mem_union, mem_span]
  omega

theorem span_diff (c : Fin n) (first : lo ≤ mid) :
    span c lo hi \ span c lo mid = span c mid hi := by
  ext cell
  simp only [Set.mem_sdiff, mem_span]
  omega

theorem span_empty (c : Fin n) (none : hi ≤ lo) : span c lo hi = ∅ := by
  refine Set.eq_empty_of_forall_notMem fun cell => ?_
  rintro ⟨-, low, high⟩
  omega

theorem span_subset (c : Fin n) (inside : hi ≤ top) : span c lo hi ⊆ span c lo top :=
  fun _ ⟨same, low, high⟩ => ⟨same, low, high.trans_le inside⟩

/-- The bits that are set. -/
def Memory.taken (memory : Memory n) : Set (Fin n × Nat) :=
  {cell | (memory.bits cell.1 (cell.2 / 64)).getLsbD (cell.2 % 64) = true}

/-- What setting or clearing some bits means for the set ones. -/
def Mode.Does (taken cells after : Set (Fin n × Nat)) : Mode → Prop
  | set => Disjoint cells taken ∧ after = taken ∪ cells
  | clear => cells ⊆ taken ∧ after = taken \ cells

theorem busy_set :
    Mode.set.busy val mask = false ↔ ∀ i, mask.getLsbD i = true → val.getLsbD i = false := by
  rw [Mode.busy, decide_eq_false_iff_not, not_not]
  constructor
  · intro zero i covered
    have bit := congrArg (fun word => word.getLsbD i) zero
    simpa [covered] using bit
  intro free
  apply BitVec.eq_of_getLsbD_eq
  intro i _
  cases covered : mask.getLsbD i with
  | false => simp [covered]
  | true => simp [free i covered]

theorem busy_clear :
    Mode.clear.busy val mask = false ↔ ∀ i, mask.getLsbD i = true → val.getLsbD i = true := by
  rw [Mode.busy, decide_eq_false_iff_not, not_not]
  constructor
  · intro same i covered
    have bit := congrArg (fun word => word.getLsbD i) same
    simpa [covered] using bit
  intro set
  apply BitVec.eq_of_getLsbD_eq
  intro i _
  cases covered : mask.getLsbD i with
  | false => simp [covered]
  | true => simp [set i covered, covered]

/-- The memory after a word of a bitmap was written. -/
def Memory.write (memory : Memory n) (c : Fin n) (p : Nat) (word : Word) : Memory n :=
  { memory with bits := Function.update memory.bits c (Function.update (memory.bits c) p word) }

theorem Memory.write_same (memory : Memory n) (c : Fin n) (p : Nat) :
    memory.write c p (memory.bits c p) = memory := by
  simp [Memory.write]

theorem Memory.mem_write {memory : Memory n} :
    cell ∈ (memory.write c p word).taken ↔
      if cell.1 = c ∧ cell.2 / 64 = p then word.getLsbD (cell.2 % 64) = true
      else cell ∈ memory.taken := by
  simp only [Memory.taken, Memory.write, Set.mem_ofPred_eq]
  by_cases chunk : cell.1 = c
  · rw [chunk, Function.update_self]
    by_cases same : cell.2 / 64 = p
    · simp [same]
    simp [same]
  simp [chunk]

variable {walk : Walk} {memory : Memory n}

theorem mem_span_walk (sound : walk.Sound mode) :
    cell ∈ span c walk.lo walk.hi ↔
      (cell.1 = c ∧ cell.2 / 64 = walk.p) ∧ walk.wordMask.getLsbD (cell.2 % 64) = true := by
  rw [mem_span, ← sound.covers, and_assoc]

theorem mem_taken_of_word (here : cell.1 = c ∧ cell.2 / 64 = walk.p) :
    cell ∈ memory.taken ↔ (memory.bits c walk.p).getLsbD (cell.2 % 64) = true := by
  rw [Memory.taken, Set.mem_ofPred_eq, here.1, here.2]

theorem Walk.Sound.does (sound : walk.Sound mode)
    (idle : mode.busy (memory.bits c walk.p) walk.wordMask = false) :
    mode.Does memory.taken (span c walk.lo walk.hi)
      (memory.write c walk.p (mode.apply (memory.bits c walk.p) walk.wordMask)).taken := by
  cases mode with
  | set =>
    constructor
    · refine Set.disjoint_left.mpr fun cell covered taken => ?_
      obtain ⟨here, mask⟩ := (mem_span_walk sound).mp covered
      have free := busy_set.mp idle _ mask
      rw [mem_taken_of_word here, free] at taken
      cases taken
    ext cell
    rw [Memory.mem_write, Set.mem_union, mem_span_walk sound]
    split
    next here => simp [mem_taken_of_word here, here, Mode.apply]
    next away => simp [away]
  | clear => ?_
  constructor
  · intro cell covered
    obtain ⟨here, mask⟩ := (mem_span_walk sound).mp covered
    exact (mem_taken_of_word here).mpr (busy_clear.mp idle _ mask)
  ext cell
  rw [Memory.mem_write, Set.mem_sdiff, mem_span_walk sound]
  split
  next here =>
    have small : cell.2 % 64 < 64 := Nat.mod_lt _ (by decide)
    simp [mem_taken_of_word here, here, Mode.apply, small]
  next away => simp [away]

/-- A bit of the mask is a cell of the part in the current word. -/
theorem Walk.Sound.exists_cell (sound : walk.Sound mode)
    (covered : walk.wordMask.getLsbD i = true) :
    ∃ cell ∈ span c walk.lo walk.hi, cell ∈ memory.taken ↔
      (memory.bits c walk.p).getLsbD i = true := by
  have small : i < 64 := BitVec.lt_of_getLsbD covered
  have place : (walk.p * 64 + i) / 64 = walk.p ∧ (walk.p * 64 + i) % 64 = i := by omega
  refine ⟨(c, walk.p * 64 + i), (mem_span_walk sound).mpr ⟨⟨rfl, place.1⟩, by rwa [place.2]⟩, ?_⟩
  rw [mem_taken_of_word ⟨rfl, place.1⟩, place.2]

theorem Walk.Sound.not_subset (sound : walk.Sound .clear)
    (busy : Mode.clear.busy (memory.bits c walk.p) walk.wordMask = true) :
    ¬span c walk.lo walk.hi ⊆ memory.taken := by
  intro mine
  have idle : Mode.clear.busy (memory.bits c walk.p) walk.wordMask = false := by
    refine busy_clear.mpr fun i covered => ?_
    obtain ⟨cell, inside, taken⟩ := sound.exists_cell covered
    exact taken.mp (mine inside)
  rw [idle] at busy
  cases busy

/-- What an access of a walk to the memory can do. -/
inductive Reaches (mode : Mode) (c : Fin n) (walk : Walk) (memory : Memory n) :
    Walk.Outcome × Memory n → Prop
  | refused : (mode = .clear → ¬span c walk.lo walk.hi ⊆ memory.taken) →
      Reaches mode c walk memory (.done walk.nr, memory)
  | read {walk' : Walk} : walk'.Sound mode → walk'.size = walk.size → walk'.lo = walk.lo →
      Reaches mode c walk memory (.more walk', memory)
  | part {walk' : Walk} {memory' : Memory n} :
      mode.Does memory.taken (span c walk.lo walk.hi) memory'.taken → memory'.avail = memory.avail →
      walk'.Sound mode → walk'.size = walk.size → walk'.lo = walk.hi →
      Reaches mode c walk memory (.more walk', memory')
  | whole {memory' : Memory n} :
      mode.Does memory.taken (span c walk.lo walk.hi) memory'.taken → memory'.avail = memory.avail →
      walk.hi = walk.size → Reaches mode c walk memory (.done 0, memory')

theorem Memory.access_reaches (memory : Memory n) (c : Fin n) (sound : walk.Sound mode) :
    Reaches mode c walk memory (memory.access c walk mode) := by
  have accessed := sound.access (memory.bits c walk.p)
  have split : memory.access c walk mode = ((walk.access mode (memory.bits c walk.p)).1,
      memory.write c walk.p (walk.access mode (memory.bits c walk.p)).2) := rfl
  rw [split]
  generalize walk.access mode (memory.bits c walk.p) = out at accessed
  cases accessed with
  | refused busy =>
    rw [Memory.write_same]
    refine .refused ?_
    rintro rfl
    exact sound.not_subset busy
  | read sound' size nr =>
    rw [Memory.write_same]
    exact .read sound' size (by rw [Walk.lo, Walk.lo, size, nr])
  | part idle sound' size lo => exact .part (sound.does idle) rfl sound' size lo
  | whole idle hi => exact .whole (sound.does idle) rfl hi

end

end TinyKernel.Genalloc
