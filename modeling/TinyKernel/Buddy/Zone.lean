import Mathlib.Algebra.Group.Int.Defs
import Mathlib.Algebra.Group.Nat.Defs
import Mathlib.Tactic.Common

/-! The zoned buddy allocator of `mm/page_alloc.c`: one zone's free lists, the
`struct page` fields they use, `__free_one_page` and `__rmqueue`. A page is named
by its frame number, so pointer arithmetic on `mem_map` is arithmetic on frame
numbers. Guard pages, CMA and memory isolation are compiled out in this tree. -/

namespace TinyKernel.Buddy

open Function

/-- The migrate types of `include/linux/mmzone.h` that this configuration keeps. -/
inductive MigrateType where
  | unmovable
  | reclaimable
  | movable
  | reserve
  deriving DecidableEq, Repr

def MigrateType.all : List MigrateType := [.unmovable, .reclaimable, .movable, .reserve]

theorem MigrateType.mem_all (type : MigrateType) : type ∈ all := by cases type <;> decide

theorem MigrateType.nodup_all : all.Nodup := by decide

/-- What does not change while the allocator runs. `pageZoneId` only promises to
tell zones apart inside one block of the largest order (`include/linux/mm.h`). -/
structure Layout where
  maxOrder : Nat
  pageblockOrder : Nat
  zoneStartPfn : Nat
  spannedPages : Nat
  pfnValidWithin : Nat → Bool
  pageZoneId : Nat → Nat
  pageGroupByMobilityDisabled : Bool
  sameZone : ∀ page other, page / 2 ^ (maxOrder - 1) = other / 2 ^ (maxOrder - 1) →
    zoneStartPfn ≤ page ∧ page < zoneStartPfn + spannedPages →
    (pageZoneId page = pageZoneId other ↔
      zoneStartPfn ≤ other ∧ other < zoneStartPfn + spannedPages)

def Layout.zoneSpansPfn (layout : Layout) (pfn : Nat) : Bool :=
  decide (layout.zoneStartPfn ≤ pfn ∧ pfn < layout.zoneStartPfn + layout.spannedPages)

/-- The part of `struct page` the allocator uses: `PageBuddy`, `page_private` and
`page->index`, which holds the free page's migrate type. -/
structure Page where
  buddy : Bool
  pagePrivate : Nat
  index : MigrateType
  deriving DecidableEq, Repr

/-- `struct zone`: `free_area[order].free_list[type]`, `free_area[order].nr_free`, the
pageblock flags and the `NR_FREE_PAGES` counter, with the pages themselves. -/
structure Zone where
  page : Nat → Page
  freeList : Nat → MigrateType → List Nat
  nrFree : Nat → Int
  pageblock : Nat → MigrateType
  nrFreePages : Int

namespace Zone

def setPage (zone : Zone) (pfn : Nat) (page : Page) : Zone :=
  { zone with page := update zone.page pfn page }

def setFreeList (zone : Zone) (order : Nat) (type : MigrateType) (pages : List Nat) : Zone :=
  { zone with
    freeList := update zone.freeList order (update (zone.freeList order) type pages) }

def addNrFree (zone : Zone) (order : Nat) (delta : Int) : Zone :=
  { zone with nrFree := update zone.nrFree order (zone.nrFree order + delta) }

def setPageOrder (zone : Zone) (pfn order : Nat) : Zone :=
  zone.setPage pfn { zone.page pfn with buddy := true, pagePrivate := order }

def rmvPageOrder (zone : Zone) (pfn : Nat) : Zone :=
  zone.setPage pfn { zone.page pfn with buddy := false, pagePrivate := 0 }

def setFreepageMigratetype (zone : Zone) (pfn : Nat) (type : MigrateType) : Zone :=
  zone.setPage pfn { zone.page pfn with index := type }

/-- `list_del(&page->lru)`: the node leaves whatever list it is on. -/
def listDel (zone : Zone) (pfn : Nat) : Zone :=
  { zone with freeList := fun order type => (zone.freeList order type).erase pfn }

def listAdd (zone : Zone) (pfn order : Nat) (type : MigrateType) : Zone :=
  zone.setFreeList order type (pfn :: zone.freeList order type)

def listAddTail (zone : Zone) (pfn order : Nat) (type : MigrateType) : Zone :=
  zone.setFreeList order type (zone.freeList order type ++ [pfn])

def listMove (zone : Zone) (pfn order : Nat) (type : MigrateType) : Zone :=
  (zone.listDel pfn).listAdd pfn order type

def modZoneFreepageState (zone : Zone) (delta : Int) : Zone :=
  { zone with nrFreePages := zone.nrFreePages + delta }

end Zone

def findBuddyIndex (pageIdx order : Nat) : Nat := pageIdx ^^^ 2 ^ order

def pageIsBuddy (layout : Layout) (zone : Zone) (page buddy order : Nat) : Bool :=
  layout.pfnValidWithin buddy &&
    ((zone.page buddy).buddy && (zone.page buddy).pagePrivate == order) &&
    layout.pageZoneId page == layout.pageZoneId buddy

/-- The locals of `__free_one_page` while it merges. -/
structure Merge where
  zone : Zone
  page : Nat
  pageIdx : Nat
  order : Nat
  buddyIdx : Nat
  buddy : Nat

/-- `while (order < max_order - 1)`, entered with that many rounds left. The flag says
that the loop was left through `goto done_merging`. -/
def mergeWhile (layout : Layout) : Nat → Merge → Merge × Bool
  | 0, merge => (merge, false)
  | rounds + 1, merge =>
    let buddyIdx := findBuddyIndex merge.pageIdx merge.order
    let buddy := merge.page + buddyIdx - merge.pageIdx
    if pageIsBuddy layout merge.zone merge.page buddy merge.order then
      let zone := ((merge.zone.listDel buddy).addNrFree merge.order (-1)).rmvPageOrder buddy
      let combinedIdx := buddyIdx &&& merge.pageIdx
      mergeWhile layout rounds
        { zone, page := merge.page + combinedIdx - merge.pageIdx, pageIdx := combinedIdx,
          order := merge.order + 1, buddyIdx, buddy }
    else ({ merge with buddyIdx, buddy }, true)

/-- `continue_merging`: past `pageblock_order` the limit is raised one order at a time.
With no isolated pageblocks nothing else stops the merge there. -/
def continueMerging (layout : Layout) : Nat → Nat → Merge → Merge
  | 0, maxOrder, merge => (mergeWhile layout (maxOrder - 1 - merge.order) merge).1
  | raises + 1, maxOrder, merge =>
    match mergeWhile layout (maxOrder - 1 - merge.order) merge with
    | (merge, true) => merge
    | (merge, false) => continueMerging layout raises (maxOrder + 1) merge

/-- `done_merging`: mark the block and link it, at the tail when the next-higher buddy is
free so that a further merge is likely. -/
def doneMerging (layout : Layout) (merge : Merge) (type : MigrateType) : Zone :=
  let zone := merge.zone.setPageOrder merge.page merge.order
  let combinedIdx := merge.buddyIdx &&& merge.pageIdx
  let higherPage := merge.page + combinedIdx - merge.pageIdx
  let higherIdx := findBuddyIndex combinedIdx (merge.order + 1)
  let higherBuddy := higherPage + higherIdx - combinedIdx
  let linked :=
    if merge.order + 2 < layout.maxOrder ∧ layout.pfnValidWithin merge.buddy = true ∧
        pageIsBuddy layout zone higherPage higherBuddy (merge.order + 1) = true then
      zone.listAddTail merge.page merge.order type
    else zone.listAdd merge.page merge.order type
  linked.addNrFree merge.order 1

/-- `__free_one_page`. -/
def freeOnePage (layout : Layout) (zone : Zone) (pfn order : Nat) (type : MigrateType) : Zone :=
  let maxOrder := min layout.maxOrder (layout.pageblockOrder + 1)
  let zone := zone.modZoneFreepageState (2 ^ order)
  let pageIdx := pfn &&& (2 ^ layout.maxOrder - 1)
  let start : Merge := { zone, page := pfn, pageIdx, order, buddyIdx := 0, buddy := 0 }
  doneMerging layout (continueMerging layout (layout.maxOrder - maxOrder) maxOrder start) type

/-- `expand`: return the upper half at each order on the way down from `high`. -/
def expand (zone : Zone) (page low : Nat) (type : MigrateType) : Nat → Zone
  | 0 => zone
  | high + 1 =>
    if low < high + 1 then
      let rest := page + 2 ^ high
      let zone := ((zone.listAdd rest high type).addNrFree high 1).setPageOrder rest high
      expand zone page low type high
    else zone

/-- The `for` loop of `__rmqueue_smallest` from `currentOrder`, `left` orders to go. -/
def rmqueueSmallestFrom (zone : Zone) (order : Nat) (type : MigrateType) :
    Nat → Nat → Option (Nat × Zone)
  | 0, _ => none
  | left + 1, currentOrder =>
    match zone.freeList currentOrder type with
    | [] => rmqueueSmallestFrom zone order type left (currentOrder + 1)
    | page :: _ =>
      let zone := ((zone.listDel page).rmvPageOrder page).addNrFree currentOrder (-1)
      let zone := expand zone page order type currentOrder
      some (page, zone.setFreepageMigratetype page type)

def rmqueueSmallest (layout : Layout) (zone : Zone) (order : Nat) (type : MigrateType) :
    Option (Nat × Zone) :=
  rmqueueSmallestFrom zone order type (layout.maxOrder - order) order

/-- The rows of `fallbacks`, up to the `MIGRATE_RESERVE` that ends each of them. -/
def fallbacks : MigrateType → List MigrateType
  | .unmovable => [.reclaimable, .movable, .reserve]
  | .reclaimable => [.unmovable, .movable, .reserve]
  | .movable => [.reclaimable, .unmovable, .reserve]
  | .reserve => [.reserve]

/-- `move_freepages` from `page` to `endPage`, with the pages moved so far. Every round
advances by a page or more, so `endPage + 1 - startPage` rounds are enough. -/
def moveFreepagesFrom (layout : Layout) (type : MigrateType) (endPage : Nat) :
    Nat → Zone → Nat → Nat → Zone × Nat
  | 0, zone, _, moved => (zone, moved)
  | rounds + 1, zone, page, moved =>
    if page ≤ endPage then
      if !layout.pfnValidWithin page then
        moveFreepagesFrom layout type endPage rounds zone (page + 1) moved
      else if !(zone.page page).buddy then
        moveFreepagesFrom layout type endPage rounds zone (page + 1) moved
      else
        let order := (zone.page page).pagePrivate
        let zone := (zone.listMove page order type).setFreepageMigratetype page type
        moveFreepagesFrom layout type endPage rounds zone (page + 2 ^ order) (moved + 2 ^ order)
    else (zone, moved)

def moveFreepages (layout : Layout) (zone : Zone) (startPage endPage : Nat) (type : MigrateType) :
    Zone × Nat :=
  moveFreepagesFrom layout type endPage (endPage + 1 - startPage) zone startPage 0

def moveFreepagesBlock (layout : Layout) (zone : Zone) (page : Nat) (type : MigrateType) :
    Zone × Nat :=
  let pageblockNrPages := 2 ^ layout.pageblockOrder
  let startPfn := page - page % pageblockNrPages
  let endPfn := startPfn + pageblockNrPages - 1
  -- do not cross zone boundaries
  let startPage := if layout.zoneSpansPfn startPfn then startPfn else page
  if layout.zoneSpansPfn endPfn then moveFreepages layout zone startPage endPfn type
  else (zone, 0)

def setPageblockMigratetype (layout : Layout) (zone : Zone) (page : Nat) (type : MigrateType) :
    Zone :=
  let type := if layout.pageGroupByMobilityDisabled && type != .reserve then .unmovable else type
  { zone with pageblock := update zone.pageblock (page / 2 ^ layout.pageblockOrder) type }

/-- `change_pageblock_range`, with `nr_pageblocks` blocks to go. -/
def changePageblockRange (layout : Layout) (type : MigrateType) : Nat → Zone → Nat → Zone
  | 0, zone, _ => zone
  | blocks + 1, zone, page =>
    changePageblockRange layout type blocks (setPageblockMigratetype layout zone page type)
      (page + 2 ^ layout.pageblockOrder)

def tryToStealFreepages (layout : Layout) (zone : Zone) (page : Nat) (startType : MigrateType) :
    Zone :=
  let currentOrder := (zone.page page).pagePrivate
  if layout.pageblockOrder ≤ currentOrder then
    changePageblockRange layout startType (2 ^ (currentOrder - layout.pageblockOrder)) zone page
  else if layout.pageblockOrder / 2 ≤ currentOrder ∨ startType = .reclaimable ∨
      startType = .unmovable ∨ layout.pageGroupByMobilityDisabled = true then
    let (zone, pages) := moveFreepagesBlock layout zone page startType
    if 2 ^ (layout.pageblockOrder - 1) ≤ pages ∨ layout.pageGroupByMobilityDisabled = true then
      setPageblockMigratetype layout zone page startType
    else zone
  else zone

/-- The inner loop of `__rmqueue_fallback` over one row of `fallbacks`. -/
def fallbackAt (layout : Layout) (zone : Zone) (order currentOrder : Nat)
    (startType : MigrateType) : List MigrateType → Option (Nat × Zone)
  | [] => none
  | type :: types =>
    if type = .reserve then none
    else match zone.freeList currentOrder type with
      | [] => fallbackAt layout zone order currentOrder startType types
      | page :: _ =>
        let zone := zone.addNrFree currentOrder (-1)
        let zone := tryToStealFreepages layout zone page startType
        let zone := (zone.listDel page).rmvPageOrder page
        let zone := expand zone page order startType currentOrder
        some (page, zone.setFreepageMigratetype page startType)

/-- The outer loop of `__rmqueue_fallback`, from order `above - 1` downwards. -/
def rmqueueFallbackFrom (layout : Layout) (zone : Zone) (order : Nat) (startType : MigrateType) :
    Nat → Option (Nat × Zone)
  | 0 => none
  | currentOrder + 1 =>
    if order ≤ currentOrder then
      match fallbackAt layout zone order currentOrder startType (fallbacks startType) with
      | some found => some found
      | none => rmqueueFallbackFrom layout zone order startType currentOrder
    else none

def rmqueueFallback (layout : Layout) (zone : Zone) (order : Nat) (startType : MigrateType) :
    Option (Nat × Zone) :=
  rmqueueFallbackFrom layout zone order startType layout.maxOrder

/-- `__rmqueue`: the list asked for, then the fallbacks, then the reserve. -/
def rmqueue (layout : Layout) (zone : Zone) (order : Nat) (type : MigrateType) :
    Option (Nat × Zone) :=
  match rmqueueSmallest layout zone order type with
  | some found => some found
  | none =>
    if type = .reserve then none
    else match rmqueueFallback layout zone order type with
      | some found => some found
      | none => rmqueueSmallest layout zone order .reserve

end TinyKernel.Buddy
