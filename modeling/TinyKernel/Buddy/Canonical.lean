import TinyKernel.Buddy.Run

/-! Coalescing is canonical. The free memory of a fully merged zone has one decomposition
into blocks, so once everything is given back the zone is as it was, whatever the order
of the frees. -/

namespace TinyKernel.Buddy

open Lib List

variable {layout : Layout} {held : Nat → Prop}

theorem Inv.decomposition (inv : Inv layout held zone taken) :
    Decomposition layout.maxOrder (· ∈ zone.blocks layout) where
  aligned block member := (inv.placed block (by simp [member])).1
  bounded block member := (inv.placed block (by simp [member])).2.1
  apart first second one two different := inv.safe.freeApart first one second two different

/-- Two fully merged zones over the same memory, with the same blocks taken, have the
same free blocks. -/
theorem Inv.blocks_unique {next : Zone} (before : Inv layout held zone taken)
    (after : Inv layout held next taken) (merged : zone.FullyMerged layout)
    (again : next.FullyMerged layout) (block : Block) :
    block ∈ next.blocks layout ↔ block ∈ zone.blocks layout := by
  -- a unit is free when it is held and no taken block covers it
  have units {zone : Zone} (inv : Inv layout held zone taken) (unit : Nat) :
      (∃ block, block ∈ zone.blocks layout ∧ block.Covers unit) ↔
        held unit ∧ ∀ block ∈ taken, ¬ block.Covers unit := by
    have cross := (pairwise_append.mp inv.apart).2.2
    constructor
    · rintro ⟨block, member, inside⟩
      exact ⟨(inv.covered unit).mpr ⟨block, by simp [member], inside⟩,
        fun other out => (cross block member other out).not_covers inside⟩
    rintro ⟨holds, away⟩
    obtain ⟨block, member, inside⟩ := (inv.covered unit).mp holds
    rcases mem_append.mp member with free | out
    · exact ⟨block, free, inside⟩
    exact absurd inside (away block out)
  exact after.decomposition.unique before.decomposition again merged
    (fun unit => (units after unit).trans (units before unit).symm) block

/-- Giving back the outstanding blocks, each at its order, in the order listed. -/
def freeCalls (frees : List (Block × MigrateType)) : List Call :=
  frees.map fun entry => .freeOnePage entry.1.base entry.1.order entry.2

/-- Every order of freeing everything is a run that succeeds. -/
theorem run_freeCalls (layout : Layout) (frees : List (Block × MigrateType)) (state : State)
    (all : (frees.map Prod.fst).Perm state.outstanding) :
    ∃ final, state.run layout (freeCalls frees) = some final ∧ final.outstanding = [] := by
  induction frees generalizing state with
  | nil => exact ⟨state, rfl, nil_perm.mp all⟩
  | cons entry rest ih => ?_
  obtain ⟨⟨pfn, order⟩, type⟩ := entry
  have member : ⟨pfn, order⟩ ∈ state.outstanding := all.mem_iff.mp (by simp)
  have left : (rest.map Prod.fst).Perm (state.outstanding.erase ⟨pfn, order⟩) :=
    (perm_cons _).mp (all.trans (perm_cons_erase member))
  obtain ⟨final, ran, empty⟩ := ih
    ⟨freeOnePage layout state.zone pfn order type, state.outstanding.erase ⟨pfn, order⟩⟩ left
  refine ⟨final, ?_, empty⟩
  simp only [freeCalls, map_cons, State.run, State.step, if_pos member, Option.bind_some]
  exact ran

/-- Every call keeps a fully merged zone fully merged; and when a run that began with
nothing outstanding gives back all it holds, in any order and on any lists, the free
blocks are those of the start. -/
theorem coalescing_canonical {start state : State} (safe : Safe layout start.zone start.outstanding)
    (merged : start.zone.FullyMerged layout) (calls : List Call)
    (ran : start.run layout calls = some state) :
    state.zone.FullyMerged layout ∧
      (start.outstanding = [] →
        ∀ frees : List (Block × MigrateType), (frees.map Prod.fst).Perm state.outstanding →
          ∃ final, state.run layout (freeCalls frees) = some final ∧ final.outstanding = [] ∧
            ∀ block, block ∈ final.zone.blocks layout ↔ block ∈ start.zone.blocks layout) := by
  obtain ⟨kept, after⟩ := State.run_spec calls safe.inv ran
  refine ⟨after merged, fun none frees all => ?_⟩
  obtain ⟨final, freed, empty⟩ := run_freeCalls layout frees state all
  obtain ⟨last, merges⟩ := State.run_spec (freeCalls frees) kept freed
  rw [empty] at last
  have first := safe.inv
  rw [none] at first last
  exact ⟨final, freed, empty, first.blocks_unique last merged (merges (after merged))⟩

theorem twoBlockZone_merged : twoBlockZone.FullyMerged twoBlockLayout := by
  intro block member low
  rcases mem_cons.mp member with rfl | last
  · exact absurd low (by decide)
  obtain rfl := mem_singleton.mp last
  exact absurd low (by decide)

/-- Both blocks outstanding after the calls are given back, the smaller one first. -/
theorem coalescing_canonical_two_blocks :
    ∃ state final, State.run twoBlockLayout ⟨twoBlockZone, []⟩ twoBlockCalls = some state ∧
      state.run twoBlockLayout (freeCalls [(⟨4, 1⟩, .movable), (⟨0, 2⟩, .unmovable)]) = some final ∧
      ∀ block, block ∈ final.zone.blocks twoBlockLayout ↔ block = ⟨0, 2⟩ ∨ block = ⟨4, 2⟩ := by
  have outcome : (State.run twoBlockLayout ⟨twoBlockZone, []⟩ twoBlockCalls).map
      State.outstanding = some [⟨0, 2⟩, ⟨4, 1⟩] := by decide
  obtain ⟨state, ran, holds⟩ := Option.map_eq_some_iff.mp outcome
  obtain ⟨final, freed, _, same⟩ :=
    (coalescing_canonical twoBlockZone_safe twoBlockZone_merged twoBlockCalls ran).2 rfl
      [(⟨4, 1⟩, .movable), (⟨0, 2⟩, .unmovable)] (by rw [holds]; exact Perm.swap _ _ _)
  refine ⟨state, final, ran, freed, fun block => ?_⟩
  rw [same block, twoBlockZone_blocks]
  simp

end TinyKernel.Buddy
