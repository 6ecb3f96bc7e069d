import TinyKernel.Lib.Shifts
import TinyKernel.Userns.Code

/-! What a lookup in an id map computes, as a map made of shifted intervals. -/

namespace TinyKernel.Userns

open Lib List

def Extent.piece (extent : Extent) : Piece :=
  ⟨extent.first.toNat, extent.lowerFirst.toNat, extent.count.toNat⟩

/-- An extent that is not empty and stays below `(u32) -1` on both sides. -/
structure Extent.Sound (extent : Extent) : Prop where
  nonempty : 0 < extent.count.toNat
  upper : extent.first.toNat + extent.count.toNat < 2 ^ 32
  lower : extent.lowerFirst.toNat + extent.count.toNat < 2 ^ 32

variable {extent : Extent}

theorem Extent.Sound.within (sound : extent.Sound) (id : U32) :
    (id ≥ extent.first && id ≤ extent.first + extent.count - 1) = true ↔
      extent.piece.source ≤ id.toNat ∧ id.toNat < extent.piece.source + extent.piece.length := by
  obtain ⟨nonempty, upper, lower⟩ := sound
  simp only [Extent.piece, Bool.and_eq_true, decide_eq_true_eq, ge_iff_le]
  bv_omega

variable {id : U32}

theorem Extent.Sound.sends (sound : extent.Sound) (above : extent.piece.source ≤ id.toNat)
    (below : id.toNat < extent.piece.source + extent.piece.length) :
    extent.piece.Sends id.toNat ((id - extent.first) + extent.lowerFirst).toNat := by
  obtain ⟨nonempty, upper, lower⟩ := sound
  refine ⟨above, below, ?_⟩
  simp only [Extent.piece] at *
  bv_omega

theorem Extent.Sound.lt (sound : extent.Sound) (sent : extent.piece.Sends a b) :
    a < 2 ^ 32 - 1 ∧ b < 2 ^ 32 - 1 := by
  obtain ⟨above, below, value⟩ := sent
  obtain ⟨nonempty, upper, lower⟩ := sound
  simp only [Extent.piece] at *
  omega

def UidGidMap.pieces (map : UidGidMap) : List Piece := map.extents.map Extent.piece

/-- An id map in which no id stands on either side of two extents. -/
structure UidGidMap.Sound (map : UidGidMap) : Prop where
  extents : ∀ extent ∈ map.extents, extent.Sound
  sources : SourcesApart map.pieces
  targets : TargetsApart map.pieces

variable {map : UidGidMap}

theorem UidGidMap.Sound.lt (sound : map.Sound) (sent : Sends map.pieces a b) :
    a < 2 ^ 32 - 1 ∧ b < 2 ^ 32 - 1 := by
  obtain ⟨_, mem, sends⟩ := sent
  obtain ⟨extent, found, rfl⟩ := mem_map.mp mem
  exact (sound.extents extent found).lt sends

theorem toNat_ne_invalid : id ≠ invalidId ↔ id.toNat < 2 ^ 32 - 1 := by
  unfold invalidId
  bv_omega

theorem mapIdDown_cases (sound : map.Sound) (id : U32) :
    (∃ extent ∈ map.extents, extent.piece.Sends id.toNat (mapIdDown map id).toNat) ∨
      mapIdDown map id = invalidId ∧
        ∀ extent ∈ map.extents, ¬(extent.piece.source ≤ id.toNat ∧
          id.toNat < extent.piece.source + extent.piece.length) := by
  simp only [mapIdDown]
  split
  next extent found =>
    have mem := mem_of_find?_eq_some found
    have inside := find?_some found
    obtain ⟨above, below⟩ := ((sound.extents extent mem).within id).mp inside
    exact .inl ⟨extent, mem, (sound.extents extent mem).sends above below⟩
  next none =>
    refine .inr ⟨rfl, ?_⟩
    intro extent mem inside
    exact find?_eq_none.mp none extent mem (((sound.extents extent mem).within id).mpr inside)

theorem mapIdDown_sends (sound : map.Sound) (valid : mapIdDown map id ≠ invalidId) :
    Sends map.pieces id.toNat (mapIdDown map id).toNat := by
  rcases mapIdDown_cases sound id with ⟨extent, mem, sent⟩ | ⟨invalid, -⟩
  · exact ⟨extent.piece, mem_map_of_mem mem, sent⟩
  exact absurd invalid valid

theorem mapIdDown_eq (sound : map.Sound) {lower : U32}
    (sent : Sends map.pieces id.toNat lower.toNat) : mapIdDown map id = lower := by
  rcases mapIdDown_cases sound id with ⟨extent, mem, found⟩ | ⟨-, none⟩
  · have other : Sends map.pieces id.toNat (mapIdDown map id).toNat :=
      ⟨extent.piece, mem_map_of_mem mem, found⟩
    exact BitVec.eq_of_toNat_eq (other.unique sound.sources sent)
  obtain ⟨_, mem, sends⟩ := sent
  obtain ⟨extent, found, rfl⟩ := mem_map.mp mem
  exact absurd ⟨sends.1, sends.2.1⟩ (none extent found)

/-- The map read from its other side. -/
def UidGidMap.flip (map : UidGidMap) : UidGidMap where
  extents := map.extents.map fun extent => ⟨extent.lowerFirst, extent.first, extent.count⟩
  fits := by simpa using map.fits

theorem UidGidMap.pieces_flip (map : UidGidMap) : map.flip.pieces = map.pieces.map Piece.flip := by
  simp [UidGidMap.pieces, UidGidMap.flip, Extent.piece, Piece.flip]

theorem UidGidMap.Sound.flip (sound : map.Sound) : map.flip.Sound where
  extents := by
    intro extent mem
    obtain ⟨extent, found, rfl⟩ := mem_map.mp mem
    obtain ⟨nonempty, upper, lower⟩ := sound.extents extent found
    exact ⟨nonempty, lower, upper⟩
  sources := by
    rw [UidGidMap.pieces_flip]
    exact sound.targets
  targets := by
    have twice : Piece.flip ∘ Piece.flip = id := rfl
    rw [TargetsApart, UidGidMap.pieces_flip, map_map, twice, map_id]
    exact sound.sources

theorem mapIdUp_eq_flip (map : UidGidMap) (id : U32) : mapIdUp map id = mapIdDown map.flip id := by
  simp only [mapIdUp, mapIdDown, UidGidMap.flip, find?_map, Function.comp_def]
  cases find? _ map.extents <;> rfl

theorem mapIdUp_sends (sound : map.Sound) (valid : mapIdUp map id ≠ invalidId) :
    Sends map.pieces (mapIdUp map id).toNat id.toNat := by
  rw [mapIdUp_eq_flip] at valid ⊢
  have sent := mapIdDown_sends sound.flip valid
  rw [UidGidMap.pieces_flip] at sent
  exact sends_flip.mp sent

theorem mapIdUp_eq (sound : map.Sound) {upper : U32}
    (sent : Sends map.pieces upper.toNat id.toNat) : mapIdUp map id = upper := by
  rw [mapIdUp_eq_flip]
  apply mapIdDown_eq sound.flip
  rw [UidGidMap.pieces_flip]
  exact sends_flip.mpr sent

/-- The ends of a range that is mapped as a whole lie in one extent. -/
theorem mapIdRangeDown_through (sound : map.Sound) (good : extent.Sound)
    (valid : mapIdRangeDown map extent.lowerFirst extent.count ≠ invalidId) :
    extent.piece.Through map.pieces
      { extent with lowerFirst := mapIdRangeDown map extent.lowerFirst extent.count }.piece := by
  simp only [mapIdRangeDown] at valid ⊢
  cases found : find? _ map.extents with
  | none =>
    rw [found] at valid
    exact absurd rfl valid
  | some other => ?_
  have mem := mem_of_find?_eq_some found
  have inside := find?_some found
  obtain ⟨nonempty, upper, lower⟩ := sound.extents other mem
  obtain ⟨some, -, below⟩ := good
  refine ⟨rfl, rfl, other.piece, mem_map_of_mem mem, ?_⟩
  simp only [Extent.piece, Bool.and_eq_true, decide_eq_true_eq, ge_iff_le] at inside ⊢
  bv_omega

end TinyKernel.Userns
