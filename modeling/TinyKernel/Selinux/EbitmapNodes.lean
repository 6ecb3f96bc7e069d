import TinyKernel.Selinux.Ebitmap

/-! The bits of one node of an extensible bitmap. -/

namespace TinyKernel.Selinux

open Nat BitVec

variable {width units : Nat} [NeZero width] {n m : Node width units} {offset bit : Nat}

theorem index_lt (bound : offset < units * width) : offset / width < units :=
  (div_lt_iff_lt_mul (NeZero.pos width)).mpr bound

theorem offset_lt (bound : offset / width < units) : offset < units * width :=
  (div_lt_iff_lt_mul (NeZero.pos width)).mp bound

theorem Node.bit_lt (set : n.bit offset = true) : offset < n.size := by
  rw [Node.bit] at set
  split at set
  next bound => exact offset_lt bound
  next => cases set

theorem bit_mk (bound : i < units) (small : k < width) :
    (⟨startbit, maps⟩ : Node width units).bit (i * width + k) = (maps[i]).getLsbD k := by
  have div : (i * width + k) / width = i := by
    rw [mul_comm, mul_add_div (NeZero.pos width), div_eq_of_lt small, add_zero]
  have mod : (i * width + k) % width = k := by rw [mul_comm, mul_add_mod, mod_eq_of_lt small]
  simp only [Node.bit, div, mod, bound, dite_true]

/-- Two nodes with the same bits have the same words. -/
theorem maps_eq (same : ∀ offset, n.bit offset = m.bit offset) : n.maps = m.maps := by
  apply Vector.ext
  intro i bound
  apply eq_of_getLsbD_eq
  intro k small
  have bits := same (i * width + k)
  rwa [bit_mk bound small, bit_mk bound small] at bits

omit [NeZero width] in
theorem mask_bit (ofs k : Nat) (small : ofs < width) :
    (BitVec.ofNat width 1 <<< ofs).getLsbD k = decide (k = ofs) := by
  grind

omit [NeZero width] in
theorem and_mask_ne_zero (word : BitVec width) (ofs : Nat) (small : ofs < width) :
    word &&& (BitVec.ofNat width 1 <<< ofs) ≠ 0 ↔ word.getLsbD ofs = true := by
  constructor
  · intro some
    by_contra clear
    apply some
    apply eq_of_getLsbD_eq
    intro k _
    rw [BitVec.getLsbD_and, mask_bit _ k small]
    by_cases here : k = ofs
    · simpa [here] using clear
    simp [here]
  intro set zero
  have here := congrArg (BitVec.getLsbD · ofs) zero
  simp [getLsbD_and, mask_bit _ _ small, set] at here

/-- The bits after one word has been changed under a mask. -/
theorem bit_set (bound : place / width < units)
    (here : ∀ k < width,
      word.getLsbD k = if k = place % width then value else (maps[place / width]).getLsbD k)
    (offset : Nat) :
    (⟨startbit, maps.set (place / width) word⟩ : Node width units).bit offset =
      if offset = place then value else (⟨startbit, maps⟩ : Node width units).bit offset := by
  have split : offset = place ↔
      offset / width = place / width ∧ offset % width = place % width := by
    constructor
    · rintro rfl
      exact ⟨rfl, rfl⟩
    rintro ⟨div, mod⟩
    rw [← div_add_mod offset width, div, mod, div_add_mod]
  simp only [Node.bit, Vector.getElem_set, split]
  have small := mod_lt offset (NeZero.pos width)
  by_cases inside : offset / width < units
  · simp only [inside, dite_true]
    by_cases same : place / width = offset / width
    · simp [same, here _ small]
    simp [same, Ne.symm same]
  have other : offset / width ≠ place / width := by
    intro same
    exact inside (same ▸ bound)
  simp [inside, other]

section

variable (low : n.startbit ≤ bit) (high : bit < n.startbit + n.size)
include low high

omit [NeZero width] in
theorem place_lt : bit - n.startbit < units * width := by
  rw [Node.size] at high
  omega

theorem access_eq {α : Type} (use : Fin units → BitVec width → α) :
    n.access bit use =
      some (use ⟨(bit - n.startbit) / width, index_lt (place_lt low high)⟩
        (BitVec.ofNat width 1 <<< ((bit - n.startbit) % width))) := by
  exact dif_pos (index_lt (place_lt low high))

theorem node_getBit : n.getBit bit = some (n.bit (bit - n.startbit)) := by
  have small := mod_lt (bit - n.startbit) (NeZero.pos width)
  refine (access_eq low high _).trans ?_
  simp only [Node.bit, index_lt (place_lt low high), dite_true, Fin.getElem_fin, Option.some.injEq]
  apply Bool.eq_iff_iff.mpr
  rw [decide_eq_true_iff]
  exact and_mask_ne_zero _ _ small

theorem node_setBit :
    ∃ n', n.setBit bit = some n' ∧ n'.startbit = n.startbit ∧
      ∀ offset, n'.bit offset = if offset = bit - n.startbit then true else n.bit offset := by
  have small := mod_lt (bit - n.startbit) (NeZero.pos width)
  refine ⟨_, access_eq low high _, rfl, ?_⟩
  intro offset
  refine bit_set (index_lt (place_lt low high)) ?_ offset
  intro k _
  rw [BitVec.getLsbD_or, mask_bit _ k small]
  by_cases here : k = (bit - n.startbit) % width <;> simp [here]

theorem node_clrBit :
    ∃ n', n.clrBit bit = some n' ∧ n'.startbit = n.startbit ∧
      ∀ offset, n'.bit offset = if offset = bit - n.startbit then false else n.bit offset := by
  have small := mod_lt (bit - n.startbit) (NeZero.pos width)
  refine ⟨_, access_eq low high _, rfl, ?_⟩
  intro offset
  refine bit_set (index_lt (place_lt low high)) ?_ offset
  intro k bound
  rw [getLsbD_and, getLsbD_not, mask_bit _ k small]
  by_cases here : k = (bit - n.startbit) % width
  · simp [here]
  simp [here, bound]

end

omit [NeZero width] in
/-- The bit found is the first one, or there is none. -/
theorem findNextBit_cases (n : Node width units) (offset : Nat) :
    (n.findNextBit offset < n.size ∧ offset ≤ n.findNextBit offset ∧
        n.bit (n.findNextBit offset) = true ∧
        ∀ k, offset ≤ k → n.bit k = true → n.findNextBit offset ≤ k) ∨
      n.findNextBit offset = n.size ∧ ∀ k < n.size, offset ≤ k → n.bit k = false := by
  rw [Node.findNextBit]
  cases found : (List.range' offset (n.size - offset)).find? n.bit with
  | none =>
    refine .inr ⟨rfl, ?_⟩
    intro k high low
    have all := List.find?_eq_none.mp found k (List.mem_range'_1.mpr ⟨low, by omega⟩)
    simpa using all
  | some ofs => ?_
  obtain ⟨set, mem, first⟩ := List.find?_range'_eq_some.mp found
  obtain ⟨low, high⟩ := List.mem_range'_1.mp mem
  refine .inl ⟨?_, low, set, ?_⟩
  · simp only [Option.getD_some]
    omega
  intro k behind set
  by_contra before
  have clear := first k behind (not_le.mp before)
  simp [set] at clear

end TinyKernel.Selinux
