import Mathlib.Data.Set.BooleanAlgebra
import Mathlib.Order.CompletePartialOrder
import Mathlib.Tactic.Common

/-! Cells that are taken and given back by many owners. Every taken cell has exactly one owner; an
owner takes cells that are free, gives its own back, or hands them over. -/

namespace TinyKernel.Lib

open Function

variable {Cell Owner : Type*}

/-- The taken cells are those that some owner holds, and no two owners hold the same. -/
structure Owned (taken : Set Cell) (holds : Owner → Set Cell) : Prop where
  covered : ∀ cell, cell ∈ taken ↔ ∃ owner, cell ∈ holds owner
  apart : ∀ first second, first ≠ second → Disjoint (holds first) (holds second)

namespace Owned

variable {taken : Set Cell} {holds : Owner → Set Cell}

theorem subset (owned : Owned taken holds) (owner : Owner) : holds owner ⊆ taken :=
  fun cell held => (owned.covered cell).mpr ⟨owner, held⟩

/-- A cell of one owner is of no other. -/
theorem unique (owned : Owned taken holds) (one : cell ∈ holds first) (two : cell ∈ holds second) :
    first = second := by
  by_contra ne
  exact Set.disjoint_left.mp (owned.apart first second ne) one two

section

variable [DecidableEq Owner]

variable {cells : Set Cell}

/-- The rule behind the others: one owner holds something else, that nobody else holds. -/
theorem update (owned : Owned taken holds)
    (free : ∀ cell ∈ cells, ∀ other, cell ∈ holds other → other = owner)
    (same : ∀ cell, cell ∈ after ↔ cell ∈ cells ∨ cell ∈ taken ∧ cell ∉ holds owner) :
    Owned after (update holds owner cells) := by
  have away : ∀ other, other ≠ owner → Disjoint cells (holds other) := by
    intro other ne
    refine Set.disjoint_left.mpr fun cell mine held => ne (free cell mine other held)
  constructor
  · intro cell
    rw [same cell]
    constructor
    · rintro (mine | ⟨was, gone⟩)
      · exact ⟨owner, by simpa using mine⟩
      obtain ⟨other, held⟩ := (owned.covered cell).mp was
      have ne : other ≠ owner := by
        rintro rfl
        exact gone held
      exact ⟨other, by rwa [update_of_ne ne]⟩
    rintro ⟨other, held⟩
    by_cases ne : other = owner
    · subst ne
      exact .inl (by simpa using held)
    rw [update_of_ne ne] at held
    exact .inr ⟨owned.subset other held, fun mine => ne (owned.unique held mine)⟩
  intro first second ne
  by_cases one : first = owner
  · subst one
    rw [update_self, update_of_ne ne.symm]
    exact away second ne.symm
  rw [update_of_ne one]
  by_cases two : second = owner
  · subst two
    rw [update_self]
    exact (away first ne).symm
  rw [update_of_ne two]
  exact owned.apart first second ne

/-- Cells that nobody holds are taken. -/
theorem take (owned : Owned taken holds) (owner : Owner) (free : Disjoint cells taken) :
    Owned (taken ∪ cells) (Function.update holds owner (holds owner ∪ cells)) := by
  apply owned.update
  · rintro cell (mine | new) other held
    · exact owned.unique held mine
    exact absurd (owned.subset other held) (Set.disjoint_left.mp free new)
  intro cell
  have mine : cell ∈ holds owner → cell ∈ taken := fun held => owned.subset owner held
  simp only [Set.mem_union]
  tauto

/-- Cells of an owner are given back. -/
theorem release (owned : Owned taken holds) (owner : Owner) (mine : cells ⊆ holds owner) :
    Owned (taken \ cells) (Function.update holds owner (holds owner \ cells)) := by
  apply owned.update
  · exact fun cell kept other held => owned.unique held kept.1
  intro cell
  have held : cell ∈ holds owner → cell ∈ taken := fun held => owned.subset owner held
  simp only [Set.mem_sdiff]
  tauto

/-- One owner hands over to another that held nothing. -/
theorem hand (owned : Owned taken holds) (ne : giver ≠ receiver) (empty : holds receiver = ∅) :
    Owned taken (Function.update (Function.update holds giver ∅) receiver (holds giver)) := by
  have given : Owned (taken \ holds giver) (Function.update holds giver ∅) := by
    have := owned.release giver subset_rfl
    rwa [Set.sdiff_self] at this
  have nothing : Function.update holds giver ∅ receiver = ∅ := by
    rw [Function.update_of_ne ne.symm, empty]
  have taken' := given.take receiver Set.disjoint_sdiff_right
  rw [nothing, Set.empty_union, Set.sdiff_union_of_subset (owned.subset giver)] at taken'
  exact taken'

end

end Owned

end TinyKernel.Lib
