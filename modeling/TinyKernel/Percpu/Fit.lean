import Mathlib.Algebra.Order.Ring.Nat
import Mathlib.Algebra.Star.Basic
import TinyKernel.Percpu.Areas

/-! Where in a free area an allocation fits. -/

namespace TinyKernel.Percpu

open Int

theorem alignUp_eq : alignUp x align = align * ((x + (align - 1)) / align) := by
  have := mul_ediv_add_emod (x + (align - 1)) align
  rw [alignUp]
  omega

theorem alignUp_aligned : alignUp x align % align = 0 := by
  rw [alignUp_eq]
  exact mul_emod_right ..

theorem le_alignUp (pos : 0 < align) : x ≤ alignUp x align := by
  have := Int.emod_lt_of_pos (x + (align - 1)) pos
  rw [alignUp]
  omega

/-- There is no aligned offset in between. -/
theorem alignUp_le (pos : 0 < align) (above : x ≤ y) (aligned : y % align = 0) :
    alignUp x align ≤ y := by
  obtain ⟨k, rfl⟩ := Int.dvd_of_emod_eq_zero aligned
  rw [alignUp_eq]
  refine mul_le_mul_of_nonneg_left ?_ pos.le
  have less : x + (align - 1) < align * (k + 1) := by
    rw [mul_add]
    omega
  have := Int.ediv_lt_of_lt_mul pos (by rwa [Int.mul_comm] at less)
  omega

theorem alignUp_even (even : align % 2 = 0) : alignUp x align % 2 = 0 := by
  obtain ⟨k, rfl⟩ := dvd_of_emod_eq_zero even
  rw [alignUp_eq, mul_assoc]
  exact mul_emod_right ..

theorem alignUp_zero (pos : 0 < align) : alignUp 0 align = 0 :=
  le_antisymm (alignUp_le pos (le_refl 0) (zero_emod _)) (le_alignUp pos)

theorem le_findNext (found : findNext want size start < size) :
    start ≤ findNext want size start := by
  rw [findNext] at found ⊢
  cases out : (List.range size).find? fun i => start ≤ i && want i with
  | none =>
    rw [out] at found
    exact absurd found (Nat.lt_irrefl _)
  | some i => ?_
  have := List.find?_some out
  simp only [Bool.and_eq_true, decide_eq_true_eq] at this
  exact this.1

/-- A retry starts on a later page. -/
theorem nextUnpop_lt (found : (nextUnpop populated start stop).1 < stop) :
    start < (nextUnpop populated start stop).2 := by
  have first : start ≤ (nextUnpop populated start stop).1 := le_findNext found
  have second : (nextUnpop populated start stop).1 < (nextUnpop populated start stop).2 := by
    by_cases inside : (nextUnpop populated start stop).2 < stop
    · exact le_findNext inside
    exact Nat.lt_of_lt_of_le found (Nat.le_of_not_lt inside)
  exact Nat.lt_of_le_of_lt first second

theorem pfnUp_mono (le : x ≤ y) : pfnUp x ≤ pfnUp y := by
  simp only [pfnUp, pageSize]
  omega

theorem lt_of_pfnDown_lt (less : pfnDown x < page) : x < page * pageSize := by
  simp only [pfnDown, pageSize] at *
  omega

theorem lt_of_pfnUp_lt (less : pfnUp x + 1 < 0 + pfnDown y) : x < y := by
  simp only [pfnUp, pfnDown, pageSize] at *
  omega

theorem pfnDown_mul (page : Nat) : pfnDown (page * pageSize) = page := by
  simp only [pfnDown, pageSize]
  omega

theorem pfnDown_mono (le : x ≤ y) : pfnDown x ≤ pfnDown y := by
  simp only [pfnDown, pageSize]
  omega

/-- Where a retry goes on: behind the place that was just tried. -/
theorem retry_later (inside : place + size ≤ off + thisSize)
    (unpopulated :
      (nextUnpop populated (pfnDown place) (pfnUp (off + thisSize))).1 < pfnUp (place + size)) :
    place < (nextUnpop populated (pfnDown place) (pfnUp (off + thisSize))).2 * pageSize := by
  refine lt_of_pfnDown_lt (nextUnpop_lt ?_)
  exact Nat.lt_of_lt_of_le unpopulated (pfnUp_mono inside)

theorem fitLoop_some (pos : 0 < align) (above : off ≤ candOff)
    (fits : fitLoop populated off thisSize size align popOnly rounds candOff = some head) :
    0 ≤ head ∧ head + size ≤ thisSize ∧
      ∃ from_, head = alignUp from_ align - off ∧ (from_ = candOff ∨ pageSize ≤ from_) := by
  induction rounds generalizing candOff with
  | zero => cases fits
  | succ rounds ih => ?_
  have low := le_alignUp (x := candOff) pos
  simp only [fitLoop] at fits
  split at fits
  · cases fits
  split at fits
  · cases fits
    exact ⟨by omega, by omega, candOff, rfl, .inl rfl⟩
  split at fits
  · cases fits
    exact ⟨by omega, by omega, candOff, rfl, .inl rfl⟩
  rename_i unpopulated
  have inside : alignUp candOff align - off + off + size ≤ off + thisSize := by omega
  have later := retry_later inside (Nat.lt_of_not_le unpopulated)
  obtain ⟨nonneg, fitsIn, from_, isHead, isRetry⟩ := ih (by omega) fits
  refine ⟨nonneg, fitsIn, from_, isHead, .inr ?_⟩
  have page := nextUnpop_lt (Nat.lt_of_lt_of_le (Nat.lt_of_not_le unpopulated) (pfnUp_mono inside))
  simp only [pageSize] at isRetry ⊢
  omega

theorem fit_some (pos : 0 < align)
    (fits : pcpuFitInArea populated off thisSize size align popOnly = some head) :
    0 ≤ head ∧ head + size ≤ thisSize ∧ (off + head) % align = 0 := by
  obtain ⟨nonneg, inside, from_, rfl, _⟩ := fitLoop_some pos (le_refl off) fits
  refine ⟨nonneg, inside, ?_⟩
  rw [show off + (alignUp from_ align - off) = alignUp from_ align by omega]
  exact alignUp_aligned

theorem fit_even (pos : 0 < align) (even : align % 2 = 0) (offEven : off % 2 = 0)
    (fits : pcpuFitInArea populated off thisSize size align popOnly = some head) :
    head % 2 = 0 := by
  obtain ⟨_, _, from_, rfl, _⟩ := fitLoop_some pos (le_refl off) fits
  have := alignUp_even (x := from_) even
  omega

/-- At the start of the chunk an allocation begins at once or on a later page. -/
theorem fit_at_zero (pos : 0 < align)
    (fits : pcpuFitInArea populated 0 thisSize size align popOnly = some head) :
    head = 0 ∨ pageSize ≤ head := by
  obtain ⟨_, _, from_, rfl, rfl | later⟩ := fitLoop_some pos (le_refl 0) fits
  · exact .inl (by rw [alignUp_zero pos, sub_zero])
  have := le_alignUp (x := from_) pos
  exact .inr (by omega)

theorem fit_all :
    pcpuFitInArea populated off thisSize size align false =
      if thisSize < alignUp off align - off + size then none
      else some (alignUp off align - off) := by
  simp [pcpuFitInArea, fitLoop]

/-- Without `pop_only`, an area is passed over only if no aligned block of the size is in it. -/
theorem fit_none (pos : 0 < align)
    (fails : pcpuFitInArea populated off thisSize size align false = none)
    (aligned : place % align = 0) (low : off ≤ place) : off + thisSize < place + size := by
  rw [fit_all] at fails
  split at fails
  · have := alignUp_le pos low aligned
    omega
  cases fails

end TinyKernel.Percpu
