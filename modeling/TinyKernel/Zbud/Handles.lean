import Mathlib.Algebra.Order.Ring.Nat
import Mathlib.Algebra.Order.Sub.Basic
import Mathlib.Algebra.Star.Basic
import TinyKernel.Zbud.Lists

/-! Handles are addresses: what they say about the page and the buddy. -/

namespace TinyKernel.Zbud

open Nat

variable {shift size : Nat} {page page' : Nat}

theorem pageSize_eq (shift : Nat) : pageSize shift = 64 * 2 ^ shift := by
  rw [pageSize, Nat.pow_add, nchunksOrder]
  omega

/-- A size that `zbud_alloc` does not refuse. -/
def Storable (chunkShift size : Nat) : Prop :=
  size ≠ 0 ∧ size ≤ pageSize chunkShift - chunkSize chunkShift - chunkSize chunkShift

theorem Storable.chunks (storable : Storable shift size) :
    sizeToChunks shift size ≠ 0 ∧ sizeToChunks shift size < nchunks ∧
      size ≤ sizeToChunks shift size * 2 ^ shift := by
  obtain ⟨pos, small⟩ := storable
  rw [pageSize_eq, chunkSize] at small
  rw [sizeToChunks, chunkSize, nchunks]
  have chunk := Nat.two_pow_pos shift
  have split := Nat.div_add_mod' (size + 2 ^ shift - 1) (2 ^ shift)
  refine ⟨?_, ?_, by omega⟩
  · intro none
    rw [none] at split
    omega
  rw [div_lt_iff_lt_mul chunk]
  omega

/-- The chunk of a page at which a buddy starts. -/
def startChunk (header : Header) : Buddy → Nat
  | .first => 1
  | .last => 64 - header.lastChunks

theorem startChunk_pos (used : header.Used) (bud : Buddy) (occupied : header.chunks bud ≠ 0) :
    1 ≤ startChunk header bud ∧ startChunk header bud + header.chunks bud ≤ 64 := by
  have first := used.first
  have last := used.last
  rw [nchunks] at first last
  cases bud with
  | first => exact ⟨le_refl 1, by simp only [startChunk, Header.chunks]; omega⟩
  | last => ?_
  simp only [startChunk, Header.chunks] at occupied ⊢
  omega

theorem encodeHandle_eq (page : Nat) (bud : Buddy) :
    encodeHandle shift header page bud =
      page * pageSize shift + startChunk header bud * 2 ^ shift := by
  cases bud with
  | first => rw [encodeHandle, startChunk, chunkSize, Nat.one_mul]
  | last => rw [encodeHandle, startChunk, pageSize_eq, Nat.sub_mul]

theorem handle_page (used : header.Used) (occupied : header.chunks bud ≠ 0) :
    handleToZbudHeader shift (encodeHandle shift header page bud) = page := by
  obtain ⟨-, fits⟩ := startChunk_pos used bud occupied
  have chunk := Nat.two_pow_pos shift
  have inside : startChunk header bud * 2 ^ shift < pageSize shift := by
    rw [pageSize_eq]
    exact mul_lt_mul_of_pos_right (by omega) chunk
  rw [handleToZbudHeader, encodeHandle_eq, Nat.mul_comm page, Nat.mul_add_div (by omega),
    Nat.div_eq_of_lt inside, Nat.add_zero]

/-- `zbud_free` knows the buddy. -/
theorem handle_buddy (used : header.Used) (occupied : header.chunks bud ≠ 0) :
    handleBuddy shift (encodeHandle shift header page bud) = bud := by
  obtain ⟨starts, fits⟩ := startChunk_pos used bud occupied
  have chunk := Nat.two_pow_pos shift
  have shifted : encodeHandle shift header page bud - chunkSize shift =
      pageSize shift * page + (startChunk header bud - 1) * 2 ^ shift := by
    have first_chunk := Nat.mul_le_mul_right (2 ^ shift) starts
    rw [encodeHandle_eq, chunkSize, Nat.sub_mul, Nat.mul_comm page]
    omega
  have inside : (startChunk header bud - 1) * 2 ^ shift < pageSize shift := by
    rw [pageSize_eq]
    exact mul_lt_mul_of_pos_right (by omega) chunk
  rw [handleBuddy, shifted, mul_add_mod, mod_eq_of_lt inside]
  cases bud with
  | first => simp [startChunk]
  | last => ?_
  have later : startChunk header .last - 1 ≠ 0 := by
    have last := used.last
    rw [nchunks] at last
    simp only [startChunk]
    omega
  rw [if_pos (mul_ne_zero later chunk.ne')]

theorem handle_inside (page : Nat) (used : header.Used) (storable : Storable shift size)
    (chunks : header.chunks bud = sizeToChunks shift size) :
    page * pageSize shift + chunkSize shift ≤ encodeHandle shift header page bud ∧
      encodeHandle shift header page bud + size ≤ page * pageSize shift + pageSize shift := by
  obtain ⟨pos, -, fits⟩ := storable.chunks
  obtain ⟨starts, ends⟩ := startChunk_pos used bud (by rwa [chunks])
  have lower := mul_le_mul_right (2 ^ shift) starts
  have upper := mul_le_mul_right (2 ^ shift) ends
  rw [add_mul, chunks] at upper
  rw [encodeHandle_eq]
  rw [pageSize_eq, chunkSize]
  omega

/-- The bytes of the two buddies of a page do not overlap. -/
theorem buddies_apart {size' : Nat} (used : header.Used) (storable : Storable shift size)
    (chunks : header.firstChunks = sizeToChunks shift size)
    (chunks' : header.lastChunks = sizeToChunks shift size') :
    encodeHandle shift header page .first + size ≤ encodeHandle shift header page .last := by
  obtain ⟨-, -, fits⟩ := storable.chunks
  have total := used.total
  have last := used.last
  rw [nchunks] at total last
  have between : (1 + header.firstChunks) * 2 ^ shift ≤ (64 - header.lastChunks) * 2 ^ shift :=
    mul_le_mul_right _ (by omega)
  rw [add_mul, chunks] at between
  rw [encodeHandle_eq, encodeHandle_eq]
  simp only [startChunk]
  omega

/-- The bytes of two buddies, of one page or of two, do not overlap. -/
theorem handles_apart {size' : Nat} (used : header.Used) (used' : header'.Used)
    (storable : Storable shift size) (storable' : Storable shift size')
    (chunks : header.chunks bud = sizeToChunks shift size)
    (chunks' : header'.chunks bud' = sizeToChunks shift size')
    (same : page = page' → header = header') (ne : page ≠ page' ∨ bud ≠ bud') :
    encodeHandle shift header page bud + size ≤ encodeHandle shift header' page' bud' ∨
      encodeHandle shift header' page' bud' + size' ≤ encodeHandle shift header page bud := by
  obtain ⟨lower, upper⟩ := handle_inside page used storable chunks
  obtain ⟨lower', upper'⟩ := handle_inside page' used' storable' chunks'
  rcases lt_trichotomy page page' with below | eq | above
  · have next := mul_le_mul_right (pageSize shift) below
    rw [succ_mul] at next
    omega
  · subst eq
    obtain rfl := same rfl
    have other : bud ≠ bud' := by simpa using ne
    cases bud with
    | first =>
      cases bud' with
      | first => exact absurd rfl other
      | last => exact .inl (buddies_apart used storable chunks chunks')
    | last => ?_
    cases bud' with
    | first => exact .inr (buddies_apart used storable' chunks' chunks)
    | last => exact absurd rfl other
  have next := mul_le_mul_right (pageSize shift) above
  rw [succ_mul] at next
  omega

end TinyKernel.Zbud
