import TinyKernel.Mmap.Search

/-! The index of an address space, its gaps, and what the two searches return. -/

namespace TinyKernel.Mmap

open Lib TinyKernel.Lib.Words TinyKernel.Rbtree Bin List

variable {bits : Nat} {mm : Mm}

/-- The list of VMAs from a first one on, with the links back. -/
def Linked (mm : Mm) : Option Id → Option Id → List Id → Prop
  | _, head, [] => head = none
  | prev, head, vma :: rest =>
    head = some vma ∧ mm.vmPrev vma = prev ∧ Linked mm (some vma) (mm.vmNext vma) rest

/-- Ranges that are not empty, one after the other from some address on. -/
def Ascending (bits : Nat) : Nat → List Area → Prop
  | _, [] => True
  | low, area :: rest => low ≤ area.vmStart ∧ area.vmStart < area.vmEnd ∧ area.vmEnd < 2 ^ bits ∧
      Ascending bits area.vmEnd rest

def lastEnd (low : Nat) : List Area → Nat
  | [] => low
  | area :: rest => lastEnd area.vmEnd rest

/-- The VMA index: the tree in order is the list, which is sorted, and the gaps in the tree are
right. -/
structure Indexed (bits : Nat) (mm : Mm) (vmas : List Id) : Prop where
  tree : ∃ t, Holds mm.mmRb t ∧ t.ids = vmas
  linked : Linked mm none mm.mmap vmas
  ascending : Ascending bits 0 (vmas.map mm.area)
  gaps : ∀ vma ∈ vmas, mm.subtreeGap vma = vmaComputeSubtreeGap bits mm vma
  highest : mm.highestVmEnd = lastEnd 0 (vmas.map mm.area)

/-- The gaps between ranges, with those before the first and after the last. -/
def gaps (bits : Nat) : Nat → List Area → List (Nat × Nat)
  | low, [] => [(low, 2 ^ bits)]
  | low, area :: rest => (low, area.vmStart) :: gaps bits area.vmEnd rest

/-- A gap has room within the limits for the length with its worst alignment overhead. -/
def Fits (info : UnmappedAreaInfo) (gap : Nat × Nat) : Prop :=
  ∃ a, gap.1 ≤ a ∧ a + (info.length + info.alignMask) ≤ gap.2 ∧
    info.lowLimit ≤ a ∧ a + (info.length + info.alignMask) ≤ info.highLimit

/-- An address for the request: aligned, within the limits and not mapped. -/
structure Serves (info : UnmappedAreaInfo) (areas : List Area) (a : Nat) : Prop where
  aligned : a % (info.alignMask + 1) = info.alignOffset % (info.alignMask + 1)
  low : info.lowLimit ≤ a
  high : a + info.length ≤ info.highLimit
  unmapped : ∀ area ∈ areas, a + info.length ≤ area.vmStart ∨ area.vmEnd ≤ a

structure UnmappedAreaInfo.Valid (bits : Nat) (info : UnmappedAreaInfo) : Prop where
  positive : 0 < info.length
  length : info.length < 2 ^ bits
  lowLimit : info.lowLimit < 2 ^ bits
  highLimit : info.highLimit < 2 ^ bits
  alignMask : info.alignMask < 2 ^ bits
  alignOffset : info.alignOffset < 2 ^ bits
  power : ∃ k, info.alignMask + 1 = 2 ^ k

section

variable {vmas : List Id} {prev head : Option Id}

def gapOf (mm : Mm) (vma : Id) : Nat × Nat := (mm.prevEnd vma, (mm.area vma).vmStart)

/-- What the end of the VMA before a list is. -/
def endOf (mm : Mm) (prev : Option Id) : Nat := (prev.map fun prev => (mm.area prev).vmEnd).getD 0

theorem gaps_eq (linked : Linked mm prev head vmas) :
    gaps bits (endOf mm prev) (vmas.map mm.area) =
      vmas.map (gapOf mm) ++ [(lastEnd (endOf mm prev) (vmas.map mm.area), 2 ^ bits)] := by
  induction vmas generalizing prev head with
  | nil => rfl
  | cons vma rest ih => ?_
  obtain ⟨_, back, linked⟩ := linked
  have before : mm.prevEnd vma = endOf mm prev := by rw [Mm.prevEnd, back, endOf]
  simp only [map_cons, gaps, lastEnd, cons_append, gapOf, before]
  rw [show (mm.area vma).vmEnd = endOf mm (some vma) from rfl, ih linked]

section

variable (linked : Linked mm prev head vmas)
    (ascending : Ascending bits (endOf mm prev) (vmas.map mm.area))
include linked ascending

theorem prevEnd_ge : ∀ vma ∈ vmas, endOf mm prev ≤ mm.prevEnd vma := by
  induction vmas generalizing prev head with
  | nil => exact fun vma mem => by cases mem
  | cons vma rest ih => ?_
  obtain ⟨_, back, linked⟩ := linked
  obtain ⟨above, proper, _, ascending⟩ := ascending
  intro x mem
  rcases mem_cons.mp mem with rfl | mem
  · rw [Mm.prevEnd, back, endOf]
  have later := ih linked ascending x mem
  have own : endOf mm (some vma) = (mm.area vma).vmEnd := rfl
  omega

/-- A later VMA starts after an earlier one ends. -/
theorem pairwise_ends : vmas.Pairwise fun x y => (mm.area x).vmEnd ≤ mm.prevEnd y := by
  induction vmas generalizing prev head with
  | nil => exact .nil
  | cons vma rest ih => ?_
  obtain ⟨_, _, linked⟩ := linked
  obtain ⟨_, _, _, ascending⟩ := ascending
  exact .cons (prevEnd_ge linked ascending) (ih linked ascending)

theorem gap_bounds :
    ∀ vma ∈ vmas, mm.prevEnd vma ≤ (mm.area vma).vmStart ∧
      (mm.area vma).vmStart < (mm.area vma).vmEnd ∧ (mm.area vma).vmEnd < 2 ^ bits := by
  induction vmas generalizing prev head with
  | nil => exact fun vma mem => by cases mem
  | cons vma rest ih => ?_
  obtain ⟨_, back, linked⟩ := linked
  obtain ⟨above, proper, small, ascending⟩ := ascending
  intro x mem
  rcases mem_cons.mp mem with rfl | mem
  · rw [Mm.prevEnd, back]
    exact ⟨above, proper, small⟩
  exact ih linked ascending x mem

end

/-- Only the first VMA has none before it. -/
theorem prev_of_mem_tail (linked : Linked mm prev head (vma :: rest)) :
    ∀ x ∈ rest, mm.vmPrev x ≠ none := by
  induction rest generalizing prev head vma with
  | nil => exact fun x mem => by cases mem
  | cons next rest ih => ?_
  obtain ⟨_, _, linked⟩ := linked
  intro x mem
  rcases mem_cons.mp mem with rfl | mem
  · rw [linked.2.1]
    exact Option.some_ne_none _
  exact ih linked x mem

theorem le_lastEnd (ascending : Ascending bits low (vmas.map mm.area)) :
    low ≤ lastEnd low (vmas.map mm.area) ∧
      ∀ vma ∈ vmas, (mm.area vma).vmEnd ≤ lastEnd low (vmas.map mm.area) := by
  induction vmas generalizing low with
  | nil => exact ⟨le_rfl, fun vma mem => by cases mem⟩
  | cons vma rest ih => ?_
  obtain ⟨above, proper, _, ascending⟩ := ascending
  obtain ⟨last, ends⟩ := ih ascending
  simp only [map_cons, lastEnd]
  refine ⟨by omega, fun x mem => ?_⟩
  rcases mem_cons.mp mem with rfl | mem
  · exact last
  exact ends x mem

theorem le_of_mem_gaps (ascending : Ascending bits low areas) :
    ∀ gap ∈ gaps bits low areas, low ≤ gap.1 := by
  induction areas generalizing low with
  | nil =>
    intro gap mem
    rw [mem_singleton.mp mem]
  | cons area rest ih => ?_
  obtain ⟨above, proper, _, ascending⟩ := ascending
  intro gap mem
  rcases mem_cons.mp mem with rfl | mem
  · exact le_rfl
  have later := ih ascending gap mem
  omega

theorem start_of_mem (ascending : Ascending bits low areas) :
    ∀ area ∈ areas, low ≤ area.vmStart := by
  induction areas generalizing low with
  | nil => exact fun area mem => by cases mem
  | cons first rest ih => ?_
  obtain ⟨above, proper, _, ascending⟩ := ascending
  intro area mem
  rcases mem_cons.mp mem with rfl | mem
  · exact above
  have later := ih ascending area mem
  omega

/-- No range reaches into a gap. -/
theorem gap_unmapped (ascending : Ascending bits low areas) :
    ∀ gap ∈ gaps bits low areas, ∀ area ∈ areas, gap.2 ≤ area.vmStart ∨ area.vmEnd ≤ gap.1 := by
  induction areas generalizing low with
  | nil => exact fun _ _ area mem => by cases mem
  | cons first rest ih => ?_
  obtain ⟨above, proper, _, ascending⟩ := ascending
  intro gap isGap area mem
  rcases mem_cons.mp isGap with rfl | isGap <;> rcases mem_cons.mp mem with rfl | mem
  · exact .inl (le_rfl)
  · have later := start_of_mem ascending area mem
    exact .inl (by change first.vmStart ≤ _; omega)
  · exact .inr (le_of_mem_gaps ascending gap isGap)
  exact ih ascending gap isGap area mem

end

/-- The limits leave room at all. -/
theorem adjust_cases (valid : info.Valid bits) :
    adjust bits info = none ∧ (∀ gap, ¬Fits info gap) ∨
      adjust bits info =
          some (info.length + info.alignMask, info.lowLimit +
            (info.length + info.alignMask), info.highLimit - (info.length + info.alignMask)) ∧
        info.lowLimit + (info.length + info.alignMask) ≤ info.highLimit := by
  obtain ⟨_, length, lowLimit, highLimit, alignMask, _, _⟩ := valid
  have wraps := plus_lt_iff length alignMask
  simp only [adjust]
  by_cases wrap : plus bits info.length info.alignMask < info.length
  · refine .inl ⟨if_pos wrap, ?_⟩
    rintro gap ⟨a, _, _, _, high⟩
    omega
  have sum : plus bits info.length info.alignMask = info.length + info.alignMask :=
    plus_eq (by omega)
  rw [if_neg wrap, sum]
  split
  · refine .inl ⟨rfl, ?_⟩
    rintro gap ⟨a, _, _, _, high⟩
    omega
  split
  · refine .inl ⟨rfl, ?_⟩
    rintro gap ⟨a, _, _, low, high⟩
    omega
  refine .inr ⟨?_, by omega⟩
  rw [plus_eq (by omega)]

/-- What the code asks of a gap. -/
def Suits (length lowLimit highLimit : Nat) (gap : Nat × Nat) : Prop :=
  gap.1 ≤ highLimit ∧ lowLimit ≤ gap.2 ∧ length ≤ gap.2 - gap.1

theorem suits_iff_fits (room : info.lowLimit + (info.length + info.alignMask) ≤ info.highLimit)
    (positive : 0 < info.length) (gap : Nat × Nat) :
    Suits (info.length + info.alignMask) (info.lowLimit + (info.length + info.alignMask))
        (info.highLimit - (info.length + info.alignMask)) gap ↔ Fits info gap := by
  constructor
  · rintro ⟨start, stop, long⟩
    refine ⟨max gap.1 info.lowLimit, le_max_left _ _, ?_, le_max_right _ _, ?_⟩ <;>
      rcases max_choice gap.1 info.lowLimit with same | same <;> omega
  rintro ⟨a, start, stop, low, high⟩
  exact ⟨by omega, by omega, by omega⟩

/-- Where an address lies in a gap that fits. -/
structure Within (info : UnmappedAreaInfo) (gap : Nat × Nat) (a : Nat) : Prop where
  aligned : a % (info.alignMask + 1) = info.alignOffset % (info.alignMask + 1)
  low : info.lowLimit ≤ a
  high : a + info.length ≤ info.highLimit
  start : gap.1 ≤ a
  stop : a + info.length ≤ gap.2

theorem lowestIn_spec (valid : info.Valid bits) (fits : Fits info (gapStart, gapEnd)) :
    ∃ a, lowestIn bits info gapStart gapEnd = .ok (some a) ∧ Within info (gapStart, gapEnd) a := by
  obtain ⟨b, start, stop, low, high⟩ := fits
  obtain ⟨k, power⟩ := valid.power
  have small := valid.highLimit
  have clipped : ∃ s, (if gapStart < info.lowLimit then info.lowLimit else gapStart) = s ∧
      gapStart ≤ s ∧ info.lowLimit ≤ s ∧ s ≤ b := by
    split
    · exact ⟨_, rfl, by omega, le_rfl, low⟩
    exact ⟨_, rfl, le_rfl, by omega, start⟩
  obtain ⟨s, clip, afterStart, afterLow, beforeB⟩ := clipped
  obtain ⟨up, little, moved, low_bits⟩ :=
    align_up info.alignOffset power (show s + info.alignMask < 2 ^ bits by omega)
  have sum : plus bits (s + up) info.length = s + up + info.length := plus_eq (by omega)
  refine ⟨s + up, ?_, ?_⟩
  · simp only [lowestIn, clip, moved, sum]
    rw [if_neg (by omega), if_neg (by omega)]
  rw [← power] at low_bits
  exact ⟨low_bits, by omega, by omega, by change gapStart ≤ _; omega, by change _ ≤ gapEnd; omega⟩

theorem highestIn_spec (valid : info.Valid bits) (below : gapEnd ≤ info.highLimit)
    (fits : Fits info (gapStart, gapEnd)) :
    ∃ a, highestIn bits info gapStart gapEnd = .ok (some a) ∧ Within info (gapStart, gapEnd) a := by
  obtain ⟨b, start, stop, low, high⟩ := fits
  obtain ⟨k, power⟩ := valid.power
  have small := valid.highLimit
  have difference : minus bits gapEnd info.length = gapEnd - info.length :=
    minus_eq (by omega) (by omega)
  obtain ⟨down, little, moved, low_bits⟩ := align_down power
    (show info.alignMask ≤ gapEnd - info.length by omega) (by omega) valid.alignOffset
  refine ⟨gapEnd - info.length - down, ?_, ?_⟩
  · simp only [highestIn, difference, moved]
    rw [if_neg (by omega), if_neg (by omega)]
  rw [← power] at low_bits
  exact ⟨low_bits, by omega, by omega, by change gapStart ≤ _; omega, by change _ ≤ gapEnd; omega⟩

end TinyKernel.Mmap
