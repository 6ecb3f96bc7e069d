import TinyKernel.Buddy.Free

/-! `__rmqueue` and what it calls. A block leaves the lists whole, `expand` returns the
upper halves, and stealing a pageblock for another migrate type moves blocks between
lists without changing any of them. -/

namespace TinyKernel.Buddy

open Lib

variable {layout : Layout} {held : Nat → Prop} {zone : Zone} {taken : List Block}

variable {next : Zone}

theorem Zone.FullyMerged.of_perm (before : zone.FullyMerged layout)
    (same : (next.blocks layout).Perm (zone.blocks layout)) : next.FullyMerged layout :=
  fun block mem low again =>
    before block (same.mem_iff.mp mem) low (same.mem_iff.mp again)

theorem Zone.FullyMerged.take (before : zone.FullyMerged layout)
    (apart : (zone.blocks layout).Pairwise Block.Apart) (mem : ⟨pfn, order⟩ ∈ zone.blocks layout) :
    (zone.listDel pfn).FullyMerged layout := by
  have perm := Zone.blocks_listDel apart mem
  intro block old low again
  exact before block (perm.mem_iff.mpr (.tail _ old)) low (perm.mem_iff.mpr (.tail _ again))

/-- Recording the migrate type in `page->index` is not seen by the invariant. -/
theorem Inv.setFreepageMigratetype (inv : Inv layout held zone taken) (pfn : Nat)
    (type : MigrateType) : Inv layout held (zone.setFreepageMigratetype pfn type) taken := by
  have pages (frame : Nat) : ((zone.setFreepageMigratetype pfn type).page frame).buddy =
        (zone.page frame).buddy ∧
      ((zone.setFreepageMigratetype pfn type).page frame).pagePrivate =
        (zone.page frame).pagePrivate := by
    by_cases here : frame = pfn
    · subst frame
      simp [Zone.setFreepageMigratetype, Zone.setPage]
    simp [Zone.setFreepageMigratetype, Zone.setPage, here]
  refine ⟨inv.placed, inv.apart, inv.covered, ?_, ?_, inv.counted⟩
  · intro block found
    rw [(pages block.base).1, (pages block.base).2]
    exact inv.marked block found
  intro frame usable flag
  rw [(pages frame).1] at flag
  rw [(pages frame).2]
  exact inv.buddies frame usable flag

/-- `expand` cuts the taken block down to order `low`. The half it returns cannot merge,
because its buddy is the half it keeps. -/
theorem expand_spec (page low : Nat) (type : MigrateType) (high : Nat) (fits : low ≤ high)
    (inv : Inv layout held zone (⟨page, high⟩ :: taken)) :
    Inv layout held (expand zone page low type high) (⟨page, low⟩ :: taken) ∧
      (zone.FullyMerged layout → (expand zone page low type high).FullyMerged layout) := by
  induction high generalizing zone with
  | zero =>
    obtain rfl : low = 0 := by omega
    exact ⟨inv, id⟩
  | succ high ih => ?_
  by_cases more : low < high + 1
  · rw [expand, if_pos more]
    have halves := inv.split (Nat.succ_pos high)
    have align := (inv.placed ⟨page, high + 1⟩ (by simp)).1
    have bound : high + 1 < layout.maxOrder := (inv.placed ⟨page, high + 1⟩ (by simp)).2.1
    have linked : ((((zone.listAdd (page + 2 ^ high) high type).addNrFree high 1).setPageOrder
            (page + 2 ^ high) high).blocks layout).Perm
        ((Block.mk page (high + 1)).upper :: zone.blocks layout) :=
      Zone.blocks_listAdd (by omega)
    obtain ⟨out, merged⟩ := ih (by omega) (halves.put linked rfl rfl)
    refine ⟨out, fun before => merged (before.link linked align.upper ?_)⟩
    intro _ free
    have swapped : (Block.mk page (high + 1)).upper.buddy = (Block.mk page (high + 1)).lower := by
      rw [← Block.Aligned.buddy_lower (Nat.succ_pos high) align, Block.buddy_buddy]
    have touching :=
      (List.pairwise_append.mp halves.apart).2.2 _ free (Block.mk page (high + 1)).lower (by simp)
    rw [swapped] at touching
    exact Block.not_apart_self _ touching
  obtain rfl : low = high + 1 := by omega
  rw [expand, if_neg (by omega)]
  exact ⟨inv, id⟩

/-- What one successful allocation does: the zone gave up one block of the order asked for. -/
structure Allocated (layout : Layout) (held : Nat → Prop) (taken : List Block) (zone : Zone)
    (order page : Nat) (next : Zone) : Prop where
  inv : Inv layout held next (⟨page, order⟩ :: taken)
  merged : zone.FullyMerged layout → next.FullyMerged layout

section

variable (inv : Inv layout held zone taken)
include inv

/-- The common end of both searches: unlink the block, return its upper halves. -/
theorem Allocated.of_member (fits : order ≤ cur) (mem : ⟨page, cur⟩ ∈ zone.blocks layout)
    (type : MigrateType) :
    Allocated layout held taken zone order page ((expand
        (((zone.listDel page).rmvPageOrder page).addNrFree cur (-1)) page order type
        cur).setFreepageMigratetype page type) := by
  obtain ⟨out, merged⟩ := expand_spec page order type cur fits (inv.take mem)
  exact ⟨out.setFreepageMigratetype page type, fun before => merged (before.take inv.freeApart mem)⟩

theorem rmqueueSmallestFrom_spec (left cur : Nat) (fits : order ≤ cur)
    (limit : cur + left ≤ layout.maxOrder)
    (found : rmqueueSmallestFrom zone order type left cur = some (page, next)) :
    Allocated layout held taken zone order page next := by
  induction left generalizing cur with
  | zero => simp [rmqueueSmallestFrom] at found
  | succ left ih => ?_
  rw [rmqueueSmallestFrom] at found
  split at found
  · exact ih (cur + 1) (by omega) (by omega) found
  rename_i head rest listed
  obtain ⟨rfl, rfl⟩ := found
  apply Allocated.of_member inv fits
  exact Zone.mem_blocks.mpr ⟨show cur < layout.maxOrder by omega, type, by simp [listed]⟩

theorem rmqueueSmallest_spec (found : rmqueueSmallest layout zone order type = some (page, next)) :
    Allocated layout held taken zone order page next := by
  by_cases small : order ≤ layout.maxOrder
  · exact rmqueueSmallestFrom_spec inv _ order le_rfl (by omega) found
  rw [rmqueueSmallest, Nat.sub_eq_zero_of_le (by omega)] at found
  simp [rmqueueSmallestFrom] at found

end

/-- A zone whose free memory is the same, although lists and pageblocks may differ. -/
structure Rearranged (layout : Layout) (held : Nat → Prop) (taken : List Block) (zone next : Zone) :
    Prop where
  inv : Inv layout held next taken
  same : (next.blocks layout).Perm (zone.blocks layout)

theorem Rearranged.refl (inv : Inv layout held zone taken) :
    Rearranged layout held taken zone zone := ⟨inv, .refl _⟩

theorem Rearranged.trans (first : Rearranged layout held taken zone middle)
    (second : Rearranged layout held taken middle next) : Rearranged layout held taken zone next :=
  ⟨second.inv, second.same.trans first.same⟩

theorem moveFreepagesFrom_spec (rounds : Nat) (zone : Zone) (page moved : Nat)
    (inv : Inv layout held zone taken)
    (within : ∀ pfn, page ≤ pfn → pfn ≤ endPage → layout.zoneSpansPfn pfn = true) :
    Rearranged layout held taken zone
      (moveFreepagesFrom layout type endPage rounds zone page moved).1 := by
  induction rounds generalizing zone page moved with
  | zero => exact .refl inv
  | succ rounds ih => ?_
  have later (step : Nat) : ∀ pfn, page + step ≤ pfn → pfn ≤ endPage →
      layout.zoneSpansPfn pfn = true := fun pfn low high => within pfn (by omega) high
  rw [moveFreepagesFrom]
  split
  · rename_i inRange
    split
    · exact ih zone (page + 1) moved inv (later 1)
    rename_i valid
    split
    · exact ih zone (page + 1) moved inv (later 1)
    rename_i flag
    have usable : layout.Usable page := ⟨within page le_rfl inRange, by simpa using valid⟩
    have mem := inv.buddies page usable (by simpa using flag)
    obtain ⟨kept, same⟩ := inv.move mem type type
    exact Rearranged.trans ⟨kept, same⟩ (ih _ _ _ kept (later _))
  exact .refl inv

theorem moveFreepagesBlock_spec (inv : Inv layout held zone taken)
    (inZone : layout.zoneSpansPfn page = true) (type : MigrateType) :
    Rearranged layout held taken zone (moveFreepagesBlock layout zone page type).1 := by
  simp only [moveFreepagesBlock]
  split
  · apply moveFreepagesFrom_spec _ _ _ _ inv
    intro pfn low high
    split at low
    · simp only [Layout.zoneSpansPfn, decide_eq_true_eq] at *
      omega
    simp only [Layout.zoneSpansPfn, decide_eq_true_eq] at *
    omega
  exact .refl inv

theorem setPageblockMigratetype_spec (inv : Inv layout held zone taken) (page : Nat)
    (type : MigrateType) :
    Rearranged layout held taken zone (setPageblockMigratetype layout zone page type) :=
  ⟨⟨inv.placed, inv.apart, inv.covered, inv.marked, inv.buddies, inv.counted⟩, .refl _⟩

theorem changePageblockRange_spec (type : MigrateType) (blocks : Nat) (zone : Zone) (page : Nat)
    (inv : Inv layout held zone taken) :
    Rearranged layout held taken zone (changePageblockRange layout type blocks zone page) := by
  induction blocks generalizing zone page with
  | zero => exact .refl inv
  | succ blocks ih => ?_
  have first := setPageblockMigratetype_spec inv page type
  exact first.trans (ih _ _ first.inv)

theorem tryToStealFreepages_spec (inv : Inv layout held zone taken)
    (inZone : layout.zoneSpansPfn page = true) (startType : MigrateType) :
    Rearranged layout held taken zone (tryToStealFreepages layout zone page startType) := by
  have moved := moveFreepagesBlock_spec inv inZone startType
  simp only [tryToStealFreepages]
  split
  · exact changePageblockRange_spec _ _ _ _ inv
  split
  · split
    · exact moved.trans (setPageblockMigratetype_spec moved.inv page startType)
    exact moved
  exact .refl inv

section

variable (order : Nat) (delta : Int)

theorem moveFreepagesFrom_addNrFree (type : MigrateType) (endPage rounds : Nat) (zone : Zone)
    (page moved : Nat) :
    moveFreepagesFrom layout type endPage rounds (zone.addNrFree order delta) page moved =
      ((moveFreepagesFrom layout type endPage rounds zone page moved).1.addNrFree order delta,
        (moveFreepagesFrom layout type endPage rounds zone page moved).2) := by
  induction rounds generalizing zone page moved with
  | zero => rfl
  | succ rounds ih => ?_
  have pages : (zone.addNrFree order delta).page = zone.page := rfl
  have step (frame block : Nat) : ((zone.addNrFree order delta).listMove frame block
          type).setFreepageMigratetype frame type =
      ((zone.listMove frame block type).setFreepageMigratetype frame type).addNrFree order delta :=
    rfl
  simp only [moveFreepagesFrom, pages, step, ih]
  split_ifs <;> rfl

theorem changePageblockRange_addNrFree (type : MigrateType) (blocks : Nat) (zone : Zone)
    (page : Nat) :
    changePageblockRange layout type blocks (zone.addNrFree order delta) page =
      (changePageblockRange layout type blocks zone page).addNrFree order delta := by
  induction blocks generalizing zone page with
  | zero => rfl
  | succ blocks ih => exact ih (setPageblockMigratetype layout zone page type) _

/-- The counter the fallback search lowers first is not read while it steals. -/
theorem tryToStealFreepages_addNrFree (zone : Zone) (page : Nat) (startType : MigrateType) :
    tryToStealFreepages layout (zone.addNrFree order delta) page startType =
      (tryToStealFreepages layout zone page startType).addNrFree order delta := by
  have block : moveFreepagesBlock layout (zone.addNrFree order delta) page startType =
      ((moveFreepagesBlock layout zone page startType).1.addNrFree order delta,
        (moveFreepagesBlock layout zone page startType).2) := by
    simp only [moveFreepagesBlock, moveFreepages, moveFreepagesFrom_addNrFree]
    split_ifs <;> rfl
  have pages : (zone.addNrFree order delta).page = zone.page := rfl
  simp only [tryToStealFreepages, pages, block, changePageblockRange_addNrFree]
  split_ifs <;> rfl

end

section

variable (inv : Inv layout held zone taken)
include inv

theorem fallbackAt_spec (types : List MigrateType) (fits : order ≤ cur)
    (bound : cur < layout.maxOrder)
    (found : fallbackAt layout zone order cur startType types = some (page, next)) :
    Allocated layout held taken zone order page next := by
  induction types with
  | nil => simp [fallbackAt] at found
  | cons type types ih => ?_
  rw [fallbackAt] at found
  split at found
  · cases found
  split at found
  · exact ih found
  rename_i head rest listed
  have mem : ⟨head, cur⟩ ∈ zone.blocks layout := Zone.mem_blocks.mpr ⟨bound, type, by simp [listed]⟩
  have inZone := ((inv.placed ⟨head, cur⟩ (by simp [mem])).2.2 head (Block.covers_base _)).1
  have stolen := tryToStealFreepages_spec inv inZone startType
  have out := Allocated.of_member stolen.inv fits (stolen.same.mem_iff.mpr mem) startType
  simp only [tryToStealFreepages_addNrFree, Option.some.injEq, Prod.mk.injEq] at found
  obtain ⟨rfl, rfl⟩ := found
  exact ⟨out.inv, fun before => out.merged (before.of_perm stolen.same)⟩

theorem rmqueueFallbackFrom_spec (above : Nat) (limit : above ≤ layout.maxOrder)
    (found : rmqueueFallbackFrom layout zone order startType above = some (page, next)) :
    Allocated layout held taken zone order page next := by
  induction above with
  | zero => simp [rmqueueFallbackFrom] at found
  | succ cur ih => ?_
  rw [rmqueueFallbackFrom] at found
  split at found
  · rename_i fits
    split at found
    · rename_i out here
      rw [found] at here
      exact fallbackAt_spec inv _ fits (by omega) here
    exact ih (by omega) found
  cases found

/-- `__rmqueue` hands out one block of the order asked for and keeps the zone fully merged. -/
theorem rmqueue_spec (found : rmqueue layout zone order type = some (page, next)) :
    Allocated layout held taken zone order page next := by
  rw [rmqueue] at found
  split at found
  · rename_i out here
    rw [found] at here
    exact rmqueueSmallest_spec inv here
  split at found
  · cases found
  split at found
  · rename_i out here
    rw [found] at here
    exact rmqueueFallbackFrom_spec inv _ le_rfl here
  exact rmqueueSmallest_spec inv found

end

end TinyKernel.Buddy
