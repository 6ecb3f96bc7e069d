import Mathlib.Algebra.Order.Ring.Int
import Mathlib.Algebra.Star.Basic
import Mathlib.Data.Nat.Cast.Order.Ring
import TinyKernel.Memblock.Calls

/-! `memblock_trim_memory`: the regions of the memory array are cut to aligned ends in
place, or removed when nothing aligned is left of them. -/

namespace TinyKernel.Memblock

open Lib Span MemblockType List

def alignUp (value align : Nat) : Nat := (value + align - 1) / align * align

/-- `round_up`; above the last multiple of `align` it wraps to 0. -/
def roundUp (value align : Nat) : Nat := alignUp value align % 2 ^ 64

/-- The loop of `memblock_trim_memory` from region `r`, `none` when the rounds run out.
Stepping back after a removal comes to the same index again. -/
def trimMemory (align : Nat) : Nat → MemblockType → Nat → Option MemblockType
  | 0, _, _ => none
  | rounds + 1, type, r =>
    match type.regions[r]? with
    | none => some type
    | some region =>
      let start := roundUp region.base align
      let stop := roundDown region.limit align
      if start = region.base ∧ stop = region.limit then trimMemory align rounds type (r + 1)
      else if start < stop then
        let regions := type.regions.set r ⟨start, stop - start, region.flags⟩
        trimMemory align rounds { type with regions } (r + 1)
      else trimMemory align rounds (removeRegion type r) r

def cut (start stop : Nat) (span : Region) : Option Region :=
  if start < stop then some ⟨start, stop - start, span.flags⟩ else none

/-- What the code makes of a region. -/
def trimmed (align : Nat) (span : Region) : Option Region :=
  cut (roundUp span.base align) (roundDown span.limit align) span

/-- Whether the code leaves a region in the array. -/
def stays (align : Nat) (span : Region) : Bool := (trimmed align span).isSome

/-- The largest part of a region with aligned ends. -/
def alignedPart (align : Nat) (span : Region) : Option Region :=
  cut (alignUp span.base align) (roundDown span.limit align) span

/-- No wrap, and nothing to cut off a region that stays. -/
def Trimmable (align : Nat) (span : Region) : Prop :=
  span.base + align ≤ 2 ^ 64 ∧
    ((alignedPart align span).isSome → align ∣ span.base ∧ align ∣ span.limit)

variable {align : Nat} {type : MemblockType} {pre rest spans : List Region} {span : Region}

/-- One round on a region puts what is left of it in its place. -/
theorem trimMemory_step (align rounds : Nat) (shape : type.regions = pre ++ span :: rest)
    (sized : 0 < span.size) :
    trimMemory align (rounds + 1) type pre.length =
      (trimmed align span).elim (trimMemory align rounds (removeRegion type pre.length) pre.length)
        fun new => trimMemory align rounds { type with regions := pre ++ new :: rest }
        (pre.length + 1) := by
  have here : type.regions[pre.length]? = some span := by simp [shape]
  simp only [trimMemory, here, trimmed, cut]
  split
  case isTrue aligned =>
    have same : (⟨span.base, span.limit - span.base, span.flags⟩ : Region) = span := by simp [limit]
    have nonempty : span.base < span.limit := Nat.lt_add_of_pos_right sized
    rw [aligned.1, aligned.2, if_pos nonempty, same, Option.elim_some, ← shape]
  split
  · simp [shape]
  rfl

/-- The accounts keep the old size of every region that stays. -/
theorem trimMemory_eq (positive : 0 < align) (suf pre : List Region) (rounds extra : Nat)
    (type : MemblockType) (sized : ∀ span ∈ suf, 0 < span.size)
    (shape : type.regions = if pre ++ suf = [] then [dummy] else pre ++ suf)
    (account : type.totalSize = extra + total suf) :
    ∃ new, trimMemory align (rounds + suf.length + 2) type pre.length = some new ∧
      new.max = type.max ∧
      new.regions =
        (if pre ++ suf.filterMap (trimmed align) = [] then [dummy]
        else pre ++ suf.filterMap (trimmed align)) ∧
      new.totalSize = extra + total (suf.filter (stays align)) := by
  induction suf generalizing pre extra type with
  | nil =>
    refine ⟨type, ?_, rfl, by simpa using shape, by simpa using account⟩
    by_cases empty : pre = []
    · -- the dummy entry is aligned already
      have zero : roundUp 0 align = 0 := by
        simp [roundUp, alignUp, Nat.div_eq_of_lt (Nat.sub_one_lt_of_lt positive)]
      simp [trimMemory, shape, empty, dummy, limit, zero, roundDown]
    simp [trimMemory, shape, empty]
  | cons span rest ih => ?_
  obtain ⟨here, later⟩ := forall_mem_cons.mp sized
  simp only [append_eq_nil_iff, reduceCtorEq, and_false, if_false] at shape
  simp only [total_cons] at account
  have step := trimMemory_step align (rounds + rest.length + 2) shape here
  cases left : trimmed align span with
  | some new =>
    obtain ⟨final, done, max, regions, total⟩ := ih (pre ++ [new]) (extra + span.size)
      { type with regions := pre ++ new :: rest } later (by simp) (by simp; omega)
    rw [left, Option.elim_some] at step
    refine ⟨final, step.trans (by simpa using done), max, by simpa [left] using regions, ?_⟩
    simp [total, stays, left, add_assoc]
  | none =>
    rw [left, Option.elim_none] at step
    have removed := removeRegion_at shape
    obtain ⟨final, done, max, regions, total⟩ := ih pre extra (removeRegion type pre.length) later
      (by rw [removed]) (by rw [removed]; simp only; omega)
    refine ⟨final, step.trans done, by rw [max, removed], ?_, ?_⟩
    · simpa [left] using regions
    simpa [stays, left] using total

theorem alignUp_bounds (positive : 0 < align) (value : Nat) :
    value ≤ alignUp value align ∧ alignUp value align < value + align ∧
      align ∣ alignUp value align := by
  have low := Nat.lt_div_mul_add (a := value + align - 1) positive
  have high := Nat.div_mul_le_self (value + align - 1) align
  refine ⟨?_, ?_, Nat.dvd_mul_left ..⟩ <;> rw [alignUp] <;> omega

theorem trimmed_of_room (positive : 0 < align) (room : span.base + align ≤ 2 ^ 64) :
    trimmed align span = alignedPart align span := by
  have bounds := alignUp_bounds positive span.base
  rw [trimmed, roundUp, Nat.mod_eq_of_lt (by omega)]
  rfl

/-- A region that begins above the last multiple has no aligned part, but stays. -/
theorem trimmed_of_wrap {k : Nat} (power : k < 64) (sized : 0 < span.size)
    (bounded : span.limit ≤ ullongMax) (wraps : 2 ^ 64 < span.base + 2 ^ k) :
    alignedPart (2 ^ k) span = none ∧ (trimmed (2 ^ k) span).isSome := by
  have divides : 2 ^ k ∣ 2 ^ 64 := pow_dvd_pow 2 power.le
  have half : 2 ^ k * 2 ≤ 2 ^ 64 := by rw [← pow_succ]; exact Nat.pow_le_pow_right (by decide) power
  obtain ⟨low, high, multiple⟩ := alignUp_bounds (Nat.two_pow_pos k) span.base
  have nonempty : span.limit = span.base + span.size := rfl
  have stop : 0 < roundDown span.limit (2 ^ k) :=
    Nat.mul_pos (Nat.div_pos (by omega) (Nat.two_pow_pos k)) (Nat.two_pow_pos k)
  have below : roundDown span.limit (2 ^ k) ≤ span.limit := Nat.div_mul_le_self ..
  have top : alignUp span.base (2 ^ k) = 2 ^ 64 := by
    have above := Nat.eq_zero_of_dvd_of_lt (Nat.dvd_sub multiple divides)
    have under := Nat.eq_zero_of_dvd_of_lt (Nat.dvd_sub divides multiple)
    rw [ullongMax] at bounded
    omega
  constructor
  · rw [alignedPart, cut, if_neg (by rw [top, ullongMax] at *; omega)]
  rw [trimmed, roundUp, top, Nat.mod_self, cut, if_pos stop, Option.isSome_some]

/-- A region is left as it is or dropped, as it should be, or keeps too large a share of
the accounts. -/
theorem trim_cases {k : Nat} (power : k < 64) (sized : 0 < span.size)
    (bounded : span.limit ≤ ullongMax) :
    Trimmable (2 ^ k) span ∧ trimmed (2 ^ k) span = alignedPart (2 ^ k) span ∧
        (alignedPart (2 ^ k) span = none ∨ alignedPart (2 ^ k) span = some span) ∨
      ¬Trimmable (2 ^ k) span ∧ stays (2 ^ k) span ∧
        total (alignedPart (2 ^ k) span).toList < span.size := by
  by_cases room : span.base + 2 ^ k ≤ 2 ^ 64
  case neg =>
    obtain ⟨nothing, isSome⟩ := trimmed_of_wrap power sized bounded (by omega)
    exact .inr ⟨fun fine => room fine.1, isSome, by rwa [nothing]⟩
  have same := trimmed_of_room (Nat.two_pow_pos k) room
  by_cases some : alignUp span.base (2 ^ k) < roundDown span.limit (2 ^ k)
  case neg =>
    have nothing : alignedPart (2 ^ k) span = none := if_neg some
    exact .inl ⟨⟨room, by simp [nothing]⟩, same, .inl nothing⟩
  have part : alignedPart (2 ^ k) span = _ := if_pos some
  obtain ⟨low, high, multiple⟩ := alignUp_bounds (Nat.two_pow_pos k) span.base
  have below : roundDown span.limit (2 ^ k) ≤ span.limit := Nat.div_mul_le_self ..
  have nonempty : span.limit = span.base + span.size := rfl
  by_cases aligned : 2 ^ k ∣ span.base ∧ 2 ^ k ∣ span.limit
  · have start := Nat.eq_zero_of_dvd_of_lt (Nat.dvd_sub multiple aligned.1) (by omega)
    have stop : roundDown span.limit (2 ^ k) = span.limit := Nat.div_mul_cancel aligned.2
    have start' : alignUp span.base (2 ^ k) = span.base := by omega
    refine .inl ⟨⟨room, fun _ => aligned⟩, same, .inr ?_⟩
    rw [part, start', stop]
    simp [limit]
  refine .inr ⟨fun fine => aligned (fine.2 (by rw [part]; rfl)), by rw [stays, same, part]; rfl, ?_⟩
  simp only [part, Option.toList_some, total_cons, total_nil]
  by_contra large
  have start : alignUp span.base (2 ^ k) = span.base := by omega
  have stop : roundDown span.limit (2 ^ k) = span.limit := by omega
  exact aligned ⟨start ▸ multiple, stop ▸ Nat.dvd_mul_left ..⟩

section

variable {k : Nat} (power : k < 64) (good : ∀ span ∈ spans, 0 < span.size ∧ span.limit ≤ ullongMax)
include power good

theorem filterMap_trimmed (fine : ∀ span ∈ spans, Trimmable (2 ^ k) span) :
    spans.filterMap (trimmed (2 ^ k)) = spans.filter (stays (2 ^ k)) ∧
      spans.filterMap (alignedPart (2 ^ k)) = spans.filter (stays (2 ^ k)) := by
  induction spans with
  | nil => simp
  | cons span rest ih => ?_
  obtain ⟨⟨sized, bounded⟩, later⟩ := forall_mem_cons.mp good
  obtain ⟨here, fine⟩ := forall_mem_cons.mp fine
  obtain ⟨code, part⟩ := ih later fine
  obtain ⟨_, same, nothing | whole⟩ | ⟨unfit, _⟩ := trim_cases power sized bounded
  · simp [same, nothing, stays, code, part]
  · simp [same, whole, stays, code, part]
  contradiction

/-- The accounts are right only when no region has too large a share. -/
theorem total_trimmed :
    total (spans.filterMap (alignedPart (2 ^ k))) ≤ total (spans.filter (stays (2 ^ k))) ∧
      (total (spans.filterMap (alignedPart (2 ^ k))) = total (spans.filter (stays (2 ^ k))) →
        ∀ span ∈ spans, Trimmable (2 ^ k) span) := by
  induction spans with
  | nil => simp
  | cons span rest ih => ?_
  obtain ⟨⟨sized, bounded⟩, later⟩ := forall_mem_cons.mp good
  obtain ⟨less, fine⟩ := ih later
  rw [forall_mem_cons]
  obtain ⟨here, same, nothing | whole⟩ | ⟨_, kept, smaller⟩ := trim_cases power sized bounded
  · simpa [same, nothing, stays, here] using And.intro less fine
  · simpa [same, whole, stays, here] using And.intro less fine
  have split : total ((span :: rest).filterMap (alignedPart (2 ^ k))) =
      total (alignedPart (2 ^ k) span).toList + total (rest.filterMap (alignedPart (2 ^ k))) := by
    cases found : alignedPart (2 ^ k) span <;> simp [found]
  rw [split, filter_cons_of_pos kept, total_cons]
  omega

end

/-- `memblock_trim_memory` terminates with the aligned parts and right accounts exactly when
no `round_up` wraps and no region has to shrink: `total_size` is not adjusted for that. -/
theorem trim_keeps_iff (k rounds : Nat) (power : k < 64) (keeps : type.Keeps spans) :
    (∃ new, trimMemory (2 ^ k) (rounds + spans.length + 2) type 0 = some new ∧
        new.Keeps (spans.filterMap (alignedPart (2 ^ k)))) ↔
      ∀ span ∈ spans, Trimmable (2 ^ k) span := by
  have good : ∀ span ∈ spans, 0 < span.size ∧ span.limit ≤ ullongMax :=
    fun span mem => ⟨(keeps.ordered.base_le mem).2, keeps.bounded span mem⟩
  obtain ⟨new, done, max, shape, account⟩ :=
    trimMemory_eq (Nat.two_pow_pos k) spans [] rounds 0 type (fun span mem => (good span mem).1)
      keeps.shape (by rw [keeps.totalSize, zero_add])
  rw [zero_add] at account
  constructor
  · rintro ⟨final, ended, kept⟩
    cases done.symm.trans ended
    exact (total_trimmed power good).2 (kept.totalSize.symm.trans account)
  intro fine
  obtain ⟨code, part⟩ := filterMap_trimmed power good fine
  rw [nil_append, code] at shape
  rw [part]
  refine ⟨new, done, ⟨shape, keeps.ordered.filter _, ?_, account⟩,
    keeps.minimal.filter keeps.ordered _, ?_⟩
  · exact fun span mem => keeps.bounded span (mem_filter.mp mem).1
  have fits := keeps.fits
  have shorter := spans.length_filter_le (stays (2 ^ k))
  rw [cnt, max, shape]
  rw [cnt, keeps.shape] at fits
  grind

def twoRegions : MemblockType := ⟨[⟨0, 8, 0⟩, ⟨17, 3, 0⟩], 128, 11, .static⟩

theorem twoRegions_keeps : twoRegions.Keeps twoRegions.regions := by
  refine ⟨⟨rfl, by simp [twoRegions, Ordered, limit], ?_, rfl⟩, ?_, by decide⟩
  · simp [twoRegions, limit, ullongMax]
  simp [twoRegions, Span.Minimal, limit]

theorem trim_keeps_two_regions :
    ∃ new, trimMemory (2 ^ 3) 4 twoRegions 0 = some new ∧
      new.Keeps (twoRegions.regions.filterMap (alignedPart (2 ^ 3))) := by
  refine (trim_keeps_iff 3 0 (by decide) twoRegions_keeps).mpr ?_
  simp only [twoRegions, forall_mem_cons, Trimmable]
  decide

/-- The second region shrinks to two bytes, and its third stays in the total. -/
theorem trim_leaves_total_size :
    twoRegions.Keeps twoRegions.regions ∧
      trimMemory (2 ^ 1) 4 twoRegions 0 =
        some { twoRegions with regions := [⟨0, 8, 0⟩, ⟨18, 2, 0⟩] } ∧
      total ([⟨0, 8, 0⟩, ⟨18, 2, 0⟩] : List Region) ≠ twoRegions.totalSize :=
  ⟨twoRegions_keeps, by decide, by decide⟩

end TinyKernel.Memblock
