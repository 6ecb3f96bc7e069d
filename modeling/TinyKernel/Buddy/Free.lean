import TinyKernel.Buddy.Invariant

/-! `__free_one_page` returns a taken block to the lists. The merge loop takes the
free buddy and joins it with the block in hand; it stops only at a busy buddy or at
the top order, so a fully merged zone stays fully merged. -/

namespace TinyKernel.Buddy

open Lib

/-- No two free blocks below the top order are buddies. -/
def Zone.FullyMerged (layout : Layout) (zone : Zone) : Prop :=
  Merged layout.maxOrder (· ∈ zone.blocks layout)

variable {zone : Zone}

/-- `page_is_buddy` recognises exactly the free buddies of the block in hand. -/
theorem Inv.pageIsBuddy_iff (inv : Inv layout held zone (block :: taken))
    (bound : block.order + 1 < layout.maxOrder) :
    pageIsBuddy layout zone block.base block.buddy.base block.order = true ↔
      block.buddy ∈ zone.blocks layout := by
  obtain ⟨align, _, usable⟩ := inv.placed block (by simp)
  have inZone : layout.zoneSpansPfn block.base = true := (usable _ block.covers_base).1
  have ids := layout.sameZone block.base block.buddy.base
    (align.div_buddy (show block.order < layout.maxOrder - 1 by omega))
    (of_decide_eq_true inZone)
  simp only [pageIsBuddy, Bool.and_eq_true, beq_iff_eq]
  constructor
  · rintro ⟨⟨valid, flag, order⟩, sameId⟩
    have spans : layout.zoneSpansPfn block.buddy.base = true := decide_eq_true (ids.mp sameId)
    have found := inv.buddies block.buddy.base ⟨spans, valid⟩ flag
    rwa [order] at found
  intro mem
  obtain ⟨flag, order⟩ := inv.marked block.buddy mem
  obtain ⟨spans, valid⟩ := (inv.placed block.buddy (by simp [mem])).2.2 _ block.buddy.covers_base
  exact ⟨⟨valid, flag, order⟩, ids.mpr (of_decide_eq_true spans)⟩

/-- The locals of the merge loop describe one taken block. -/
structure Merging (layout : Layout) (held : Nat → Prop) (taken : List Block) (merge : Merge) :
    Prop where
  inv : Inv layout held merge.zone (⟨merge.page, merge.order⟩ :: taken)
  index : merge.pageIdx = merge.page % 2 ^ layout.maxOrder

theorem Merging.bound (merging : Merging layout held taken merge) : merge.order < layout.maxOrder :=
  (merging.inv.placed ⟨merge.page, merge.order⟩ (by simp)).2.1

/-- The index arithmetic of the loop computes the block's buddy and parent. -/
theorem Merging.window (merging : Merging layout held taken merge) :
    merge.page + findBuddyIndex merge.pageIdx merge.order - merge.pageIdx =
        (Block.mk merge.page merge.order).buddy.base ∧
      merge.page + (findBuddyIndex merge.pageIdx merge.order &&& merge.pageIdx) - merge.pageIdx =
        (Block.mk merge.page merge.order).parent.base ∧
      findBuddyIndex merge.pageIdx merge.order &&& merge.pageIdx =
        (Block.mk merge.page merge.order).parent.base % 2 ^ layout.maxOrder := by
  have align := (merging.inv.placed ⟨merge.page, merge.order⟩ (by simp)).1
  have facts := align.window merging.bound
  rw [merging.index]
  exact facts

theorem mergeWhile_spec (rounds : Nat) (merge : Merge) (merging : Merging layout held taken merge)
    (room : merge.order + rounds < layout.maxOrder) :
    Merging layout held taken (mergeWhile layout rounds merge).1 ∧
      (∀ block ∈ (mergeWhile layout rounds merge).1.zone.blocks layout,
        block ∈ merge.zone.blocks layout) ∧
      ((mergeWhile layout rounds merge).2 = true →
        (Block.mk (mergeWhile layout rounds merge).1.page
            (mergeWhile layout rounds merge).1.order).buddy ∉
          (mergeWhile layout rounds merge).1.zone.blocks layout) ∧
      ((mergeWhile layout rounds merge).2 = false →
        (mergeWhile layout rounds merge).1.order = merge.order + rounds) := by
  induction rounds generalizing merge with
  | zero => exact ⟨merging, fun _ mem => mem, by simp [mergeWhile], by simp [mergeWhile]⟩
  | succ rounds ih => ?_
  obtain ⟨buddyAt, parentAt, parentIdx⟩ := merging.window
  have isBuddy := merging.inv.pageIsBuddy_iff (show merge.order + 1 < layout.maxOrder by omega)
  simp only [mergeWhile]
  rw [buddyAt]
  by_cases free : (Block.mk merge.page merge.order).buddy ∈ merge.zone.blocks layout
  · rw [if_pos (isBuddy.mpr free)]
    have taking := merging.inv.take free
    have joined :=
      (taking.perm (List.Perm.swap _ _ _)).join (show merge.order + 1 < layout.maxOrder by omega)
    have next :=
      ih { zone := ((merge.zone.listDel (Block.mk merge.page merge.order).buddy.base).addNrFree
               merge.order (-1)).rmvPageOrder (Block.mk merge.page merge.order).buddy.base,
           page := merge.page + (findBuddyIndex merge.pageIdx merge.order &&& merge.pageIdx) -
             merge.pageIdx,
           pageIdx := findBuddyIndex merge.pageIdx merge.order &&& merge.pageIdx,
           order := merge.order + 1,
           buddyIdx := findBuddyIndex merge.pageIdx merge.order,
           buddy := (Block.mk merge.page merge.order).buddy.base }
        ⟨by rw [parentAt]; exact joined, by rw [parentAt]; exact parentIdx⟩
        (show merge.order + 1 + rounds < layout.maxOrder by omega)
    obtain ⟨kept, shrinks, stopped, ran⟩ := next
    refine ⟨kept, fun block mem => ?_, stopped, fun flag => ?_⟩
    · have perm := Zone.blocks_listDel merging.inv.freeApart free
      exact perm.mem_iff.mpr (.tail _ (shrinks block mem))
    rw [ran flag]
    show merge.order + 1 + rounds = merge.order + (rounds + 1)
    omega
  rw [if_neg (fun flag => free (isBuddy.mp flag))]
  exact ⟨⟨merging.inv, merging.index⟩, fun _ mem => mem, fun _ => free, fun flag => by cases flag⟩

/-- The raised limit ends at `MAX_ORDER`, so a merge that ran to the end is at the top. -/
theorem continueMerging_spec (raises maxOrder : Nat) (merge : Merge)
    (merging : Merging layout held taken merge) (reach : maxOrder + raises = layout.maxOrder) :
    Merging layout held taken (continueMerging layout raises maxOrder merge) ∧
      (∀ block ∈ (continueMerging layout raises maxOrder merge).zone.blocks layout,
        block ∈ merge.zone.blocks layout) ∧
      ((continueMerging layout raises maxOrder merge).order + 1 < layout.maxOrder →
        (Block.mk (continueMerging layout raises maxOrder merge).page
            (continueMerging layout raises maxOrder merge).order).buddy ∉
          (continueMerging layout raises maxOrder merge).zone.blocks layout) := by
  have bound := merging.bound
  induction raises generalizing maxOrder merge with
  | zero =>
    obtain ⟨kept, shrinks, stopped, ran⟩ :=
      mergeWhile_spec (maxOrder - 1 - merge.order) merge merging (by omega)
    refine ⟨kept, shrinks, fun low => ?_⟩
    cases flag : (mergeWhile layout (maxOrder - 1 - merge.order) merge).2 with
    | true => exact stopped flag
    | false => ?_
    have order := ran flag
    simp only [continueMerging] at low
    omega
  | succ raises ih => ?_
  obtain ⟨kept, shrinks, stopped, ran⟩ :=
    mergeWhile_spec (maxOrder - 1 - merge.order) merge merging (by omega)
  simp only [continueMerging]
  rcases outcome : mergeWhile layout (maxOrder - 1 - merge.order) merge with ⟨next, flag⟩
  rw [outcome] at kept shrinks stopped ran
  cases flag with
  | true => exact ⟨kept, shrinks, fun _ => stopped rfl⟩
  | false => ?_
  obtain ⟨done, fewer, top⟩ := ih (maxOrder + 1) next kept (by omega) kept.bound
  exact ⟨done, fun block mem => shrinks block (fewer block mem), top⟩

theorem doneMerging_spec (merging : Merging layout held taken merge) (type : MigrateType) :
    Inv layout held (doneMerging layout merge type) taken ∧
      ((doneMerging layout merge type).blocks layout).Perm
        (⟨merge.page, merge.order⟩ :: merge.zone.blocks layout) := by
  have linked : ((doneMerging layout merge type).blocks layout).Perm
      (⟨merge.page, merge.order⟩ :: merge.zone.blocks layout) := by
    unfold doneMerging
    dsimp only
    split
    · exact Zone.blocks_listAddTail merging.bound
    exact Zone.blocks_listAdd merging.bound
  refine ⟨merging.inv.put linked ?_ ?_, linked⟩
  all_goals
    unfold doneMerging
    dsimp only
    split <;> rfl

/-- Linking a block whose buddy is busy leaves no two free buddies. -/
theorem Zone.FullyMerged.link {next : Zone} (before : zone.FullyMerged layout)
    (linked : (next.blocks layout).Perm (block :: zone.blocks layout)) (align : block.Aligned)
    (busy : block.order + 1 < layout.maxOrder → block.buddy ∉ zone.blocks layout) :
    next.FullyMerged layout := by
  intro other mem low again
  rcases List.mem_cons.mp (linked.mem_iff.mp again) with same | old
  · -- the other block's buddy is the new one, so the other block is the new one's buddy
    have swapped : block.buddy = other := by rw [← same, Block.buddy_buddy]
    have order : block.order = other.order := by rw [← same]; rfl
    rcases List.mem_cons.mp (linked.mem_iff.mp mem) with rfl | free
    · have apart := align.apart_buddy
      rw [swapped] at apart
      exact Block.not_apart_self _ apart
    exact busy (by omega) (swapped ▸ free)
  rcases List.mem_cons.mp (linked.mem_iff.mp mem) with rfl | free
  · exact busy low old
  exact before other free low old

/-- `__free_one_page` gives a taken block back, and keeps the zone fully merged. -/
theorem freeOnePage_spec (inv : Inv layout held zone (⟨pfn, order⟩ :: taken)) (type : MigrateType) :
    Inv layout held (freeOnePage layout zone pfn order type) taken ∧
      (zone.FullyMerged layout → (freeOnePage layout zone pfn order type).FullyMerged layout) := by
  have merging : Merging layout held taken { zone := zone.modZoneFreepageState (2 ^ order),
                                             page := pfn,
                                             pageIdx := pfn &&& (2 ^ layout.maxOrder - 1),
                                             order,
                                             buddyIdx := 0,
                                             buddy := 0 } :=
    ⟨⟨inv.placed, inv.apart, inv.covered, inv.marked, inv.buddies, inv.counted⟩,
      Nat.and_two_pow_sub_one_eq_mod _ _⟩
  obtain ⟨merged, shrinks, top⟩ := continueMerging_spec
    (layout.maxOrder - min layout.maxOrder (layout.pageblockOrder + 1))
    (min layout.maxOrder (layout.pageblockOrder + 1)) _ merging (by omega)
  obtain ⟨out, linked⟩ := doneMerging_spec merged type
  refine ⟨out, fun before => ?_⟩
  have align := (merged.inv.placed _ (List.mem_append_right _ (.head _))).1
  apply Zone.FullyMerged.link _ linked align top
  intro block mem low again
  exact before block (shrinks block mem) low (shrinks _ again)

end TinyKernel.Buddy
