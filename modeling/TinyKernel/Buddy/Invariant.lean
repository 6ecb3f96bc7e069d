import TinyKernel.Lib.Buckets
import TinyKernel.Lib.Dyadic
import TinyKernel.Buddy.Zone

/-! The free-list invariant. Blocks that are neither free nor outside the zone's
initial free memory are `taken`: handed out, or on their way between two lists
inside one call. Each list operation of the allocator moves a block between the
free lists and `taken`, or rearranges `taken`. -/

namespace TinyKernel.Buddy

open Lib List

/-- A frame the zone spans and `pfn_valid_within` accepts. -/
def Layout.Usable (layout : Layout) (pfn : Nat) : Prop :=
  layout.zoneSpansPfn pfn = true ∧ layout.pfnValidWithin pfn = true

def Layout.keys (layout : Layout) : List (Nat × MigrateType) :=
  range layout.maxOrder ×ˢ MigrateType.all

theorem Layout.mem_keys {layout : Layout} :
    (order, type) ∈ layout.keys ↔ order < layout.maxOrder := by
  simp [keys, mem_product, MigrateType.mem_all]

theorem Layout.nodup_keys (layout : Layout) : layout.keys.Nodup :=
  Nodup.product nodup_range MigrateType.nodup_all

namespace Zone

def listed (zone : Zone) (key : Nat × MigrateType) : List Block :=
  (zone.freeList key.1 key.2).map (Block.mk · key.1)

/-- Every block on `free_area[order].free_list[type]`, over all orders and types. -/
def blocks (layout : Layout) (zone : Zone) : List Block := layout.keys.flatMap zone.listed

variable {layout : Layout} {zone : Zone} {order : Nat}

theorem mem_blocks :
    block ∈ zone.blocks layout ↔
      block.order < layout.maxOrder ∧ ∃ type, block.base ∈ zone.freeList block.order type := by
  constructor
  · intro mem
    obtain ⟨⟨order, type⟩, known, here⟩ := mem_flatMap.mp mem
    obtain ⟨base, inList, rfl⟩ := mem_map.mp here
    exact ⟨Layout.mem_keys.mp known, type, inList⟩
  rintro ⟨bound, type, inList⟩
  exact mem_flatMap.mpr
    ⟨(block.order, type), Layout.mem_keys.mpr bound, mem_map.mpr ⟨block.base, inList, rfl⟩⟩

section

variable (bound : order < layout.maxOrder)
include bound

theorem blocks_split (type : MigrateType) (zone : Zone) :
    (zone.blocks layout).Perm ((zone.freeList order type).map (Block.mk · order) ++
      (layout.keys.erase (order, type)).flatMap zone.listed) :=
  flatMap_split (Layout.mem_keys.mpr bound) zone.listed

/-- Replacing one list leaves the rest of the blocks alone. -/
theorem blocks_setFreeList (pages : List Nat) :
    ((zone.setFreeList order type pages).blocks layout).Perm
      (pages.map (Block.mk · order) ++ (layout.keys.erase (order, type)).flatMap zone.listed) := by
  have moved := blocks_split bound type (zone.setFreeList order type pages)
  have here : (zone.setFreeList order type pages).freeList order type = pages := by
    simp [setFreeList]
  have frame : (layout.keys.erase (order, type)).flatMap
        (zone.setFreeList order type pages).listed =
      (layout.keys.erase (order, type)).flatMap zone.listed := by
    apply flatMap_erase_congr layout.nodup_keys
    rintro ⟨other, kind⟩ ne
    have kept : (zone.setFreeList order type pages).freeList other kind =
        zone.freeList other kind := by
      simp only [setFreeList]
      by_cases sameOrder : other = order
      · subst other
        have differs : kind ≠ type := fun same => ne (by rw [same])
        simp [differs]
      simp [sameOrder]
    simp only [listed, kept]
  rwa [here, frame] at moved

theorem blocks_listAdd :
    ((zone.listAdd pfn order type).blocks layout).Perm (⟨pfn, order⟩ :: zone.blocks layout) := by
  have front := (blocks_split bound type zone).symm.cons (Block.mk pfn order)
  exact (blocks_setFreeList bound _).trans front

theorem blocks_listAddTail :
    ((zone.listAddTail pfn order type).blocks layout).Perm
      (⟨pfn, order⟩ :: zone.blocks layout) := by
  refine (blocks_setFreeList bound _).trans ?_
  rw [map_append]
  refine ((perm_append_singleton _ _).append_right _).trans ?_
  exact (blocks_split bound type zone).symm.cons ⟨pfn, order⟩

end

/-- `list_del` takes exactly the block that starts at the page off the lists. -/
theorem blocks_listDel (apart : (zone.blocks layout).Pairwise Block.Apart)
    (mem : ⟨pfn, order⟩ ∈ zone.blocks layout) :
    (zone.blocks layout).Perm (⟨pfn, order⟩ :: (zone.listDel pfn).blocks layout) := by
  obtain ⟨bound, type, inList⟩ := mem_blocks.mp mem
  have split := blocks_split bound type zone
  have cross := (pairwise_append.mp (split.pairwise apart Block.Apart.symm)).2.2
  have front := ((perm_cons_erase inList).map (Block.mk · order)).append_right
    ((layout.keys.erase (order, type)).flatMap zone.listed)
  have frame : (layout.keys.erase (order, type)).flatMap (zone.listDel pfn).listed =
      (layout.keys.erase (order, type)).flatMap zone.listed := by
    rw [flatMap_def, flatMap_def]
    congr 1
    apply map_congr_left
    rintro ⟨other, kind⟩ known
    have absent : pfn ∉ zone.freeList other kind := by
      intro again
      have touching := cross ⟨pfn, order⟩ (mem_map.mpr ⟨pfn, inList, rfl⟩) ⟨pfn, other⟩
        (mem_flatMap.mpr ⟨(other, kind), known, mem_map.mpr ⟨pfn, again, rfl⟩⟩)
      exact touching.not_covers (Block.covers_base _) (Block.covers_base ⟨pfn, other⟩)
    simp only [listed, listDel, erase_of_not_mem absent]
  have after := blocks_split bound type (zone.listDel pfn)
  rw [frame] at after
  have back := after.symm.cons (Block.mk pfn order)
  exact (split.trans front).trans back

end Zone

/-- What holds between any two list operations. `held` is the memory that was free
at the start; it is now partitioned into the free blocks and the taken ones. -/
structure Inv (layout : Layout) (held : Nat → Prop) (zone : Zone) (taken : List Block) : Prop where
  placed : ∀ block ∈ zone.blocks layout ++ taken, block.Aligned ∧
    block.order < layout.maxOrder ∧ ∀ unit, block.Covers unit → layout.Usable unit
  apart : (zone.blocks layout ++ taken).Pairwise Block.Apart
  covered : ∀ unit, held unit ↔ ∃ block ∈ zone.blocks layout ++ taken, block.Covers unit
  marked : ∀ block ∈ zone.blocks layout, (zone.page block.base).buddy = true ∧
    (zone.page block.base).pagePrivate = block.order
  buddies : ∀ pfn, layout.Usable pfn → (zone.page pfn).buddy = true →
    ⟨pfn, (zone.page pfn).pagePrivate⟩ ∈ zone.blocks layout
  counted : ∀ order < layout.maxOrder,
    zone.nrFree order = (zone.blocks layout).countP (·.order = order)

namespace Inv

variable {layout : Layout} {held : Nat → Prop} {zone next : Zone} {taken : List Block}
    {block : Block}

/-- The parts of the invariant that only see the blocks as a whole. -/
private theorem whole (inv : Inv layout held zone taken) (next : Zone) (rest : List Block)
    (same : (zone.blocks layout ++ taken).Perm (next.blocks layout ++ rest)) :
    (∀ block ∈ next.blocks layout ++ rest, block.Aligned ∧ block.order < layout.maxOrder ∧
        ∀ unit, block.Covers unit → layout.Usable unit) ∧
      (next.blocks layout ++ rest).Pairwise Block.Apart ∧
      ∀ unit, held unit ↔ ∃ block ∈ next.blocks layout ++ rest, block.Covers unit := by
  refine ⟨fun block mem => inv.placed block (same.mem_iff.mpr mem),
    same.pairwise inv.apart Block.Apart.symm, fun unit => ?_⟩
  rw [inv.covered unit]
  simp only [same.mem_iff]

theorem perm (inv : Inv layout held zone taken) (same : taken.Perm rest) :
    Inv layout held zone rest := by
  obtain ⟨placed, apart, covered⟩ := inv.whole zone rest (same.append_left _)
  exact ⟨placed, apart, covered, inv.marked, inv.buddies, inv.counted⟩

theorem freeApart (inv : Inv layout held zone taken) : (zone.blocks layout).Pairwise Block.Apart :=
  (pairwise_append.mp inv.apart).1

/-- A free block leaves the lists: `list_del`, `rmv_page_order` and `nr_free--`. -/
theorem take (inv : Inv layout held zone taken) (mem : ⟨pfn, order⟩ ∈ zone.blocks layout) :
    Inv layout held (((zone.listDel pfn).addNrFree order (-1)).rmvPageOrder pfn)
      (⟨pfn, order⟩ :: taken) := by
  have perm := Zone.blocks_listDel inv.freeApart mem
  have apart := perm.pairwise inv.freeApart Block.Apart.symm
  have fresh : ∀ other ∈ (zone.listDel pfn).blocks layout, other.base ≠ pfn := by
    intro other inRest same
    have touching := (pairwise_cons.mp apart).1 other inRest
    exact touching.not_covers (Block.covers_base _) (same ▸ Block.covers_base other)
  obtain ⟨placed, apart, covered⟩ := inv.whole
    (((zone.listDel pfn).addNrFree order (-1)).rmvPageOrder pfn) (⟨pfn, order⟩ :: taken)
    ((perm.append_right taken).trans perm_middle.symm)
  refine ⟨placed, apart, covered, ?_, ?_, ?_⟩
  · intro other inRest
    have old := inv.marked other (perm.mem_iff.mpr (.tail _ inRest))
    simpa [Zone.rmvPageOrder, Zone.setPage, fresh other inRest, Zone.addNrFree, Zone.listDel] using
      old
  · intro frame usable flag
    have ne : frame ≠ pfn := by
      rintro rfl
      simp [Zone.rmvPageOrder, Zone.setPage] at flag
    have unchanged : (((zone.listDel pfn).addNrFree order (-1)).rmvPageOrder pfn).page frame =
        zone.page frame := by
      simp [Zone.rmvPageOrder, Zone.setPage, ne, Zone.addNrFree, Zone.listDel]
    rw [unchanged] at flag ⊢
    rcases mem_cons.mp (perm.mem_iff.mp (inv.buddies frame usable flag)) with same | inRest
    · exact absurd (congrArg Block.base same) ne
    exact inRest
  intro other bound
  have old := inv.counted other bound
  rw [perm.countP_eq, countP_cons] at old
  by_cases same : other = order
  · subst other
    simp only [Zone.rmvPageOrder, Zone.setPage, Zone.addNrFree, Function.update_self]
    simp only [decide_true, ↓reduceIte] at old
    have frame : zone.nrFree = (zone.listDel pfn).nrFree := rfl
    rw [← frame, old]
    push_cast
    exact add_neg_cancel_right _ _
  simp only [Zone.rmvPageOrder, Zone.setPage, Zone.addNrFree, Function.update_of_ne same]
  have skip : decide (order = other) = false := decide_eq_false (fun eq => same eq.symm)
  simp only [skip] at old
  exact old

/-- A taken block goes on a list, at either end: link it, count it and mark it. -/
theorem put (inv : Inv layout held zone (block :: taken))
    (linked : (next.blocks layout).Perm (block :: zone.blocks layout))
    (page : next.page = (zone.setPageOrder block.base block.order).page)
    (count : next.nrFree = (zone.addNrFree block.order 1).nrFree) : Inv layout held next taken := by
  have facts := inv.whole next taken (perm_middle.trans (linked.symm.append_right taken))
  obtain ⟨placed, apart, covered⟩ := facts
  have fresh : ∀ other ∈ zone.blocks layout, other.base ≠ block.base := by
    intro other mem same
    have touching := (pairwise_append.mp inv.apart).2.2 other mem block (by simp)
    exact touching.not_covers (Block.covers_base _) (same ▸ Block.covers_base block)
  refine ⟨placed, apart, covered, ?_, ?_, ?_⟩
  · intro other mem
    rw [page]
    rcases mem_cons.mp (linked.mem_iff.mp mem) with rfl | old
    · simp [Zone.setPageOrder, Zone.setPage]
    simpa [Zone.setPageOrder, Zone.setPage, fresh other old] using inv.marked other old
  · intro frame usable flag
    rw [page] at flag ⊢
    rw [linked.mem_iff]
    by_cases same : frame = block.base
    · subst frame
      simp [Zone.setPageOrder, Zone.setPage]
    have unchanged : (zone.setPageOrder block.base block.order).page frame = zone.page frame := by
      simp [Zone.setPageOrder, Zone.setPage, same]
    rw [unchanged] at flag ⊢
    exact .tail _ (inv.buddies frame usable flag)
  intro order bound
  rw [linked.countP_eq, countP_cons, count]
  have old := inv.counted order bound
  by_cases same : order = block.order
  · subst order
    simp [Zone.addNrFree, old]
  have skip : decide (block.order = order) = false := decide_eq_false (fun eq => same eq.symm)
  simp [Zone.addNrFree, Function.update_of_ne same, skip, old]

/-- Moving a block to the list of another type changes no block. -/
theorem move (inv : Inv layout held zone taken) (mem : ⟨pfn, order⟩ ∈ zone.blocks layout)
    (type kind : MigrateType) :
    Inv layout held ((zone.listMove pfn order type).setFreepageMigratetype pfn kind) taken ∧
      (((zone.listMove pfn order type).setFreepageMigratetype pfn kind).blocks layout).Perm
        (zone.blocks layout) := by
  have perm := Zone.blocks_listDel inv.freeApart mem
  have bound := (Zone.mem_blocks.mp mem).1
  have same : (((zone.listMove pfn order type).setFreepageMigratetype pfn kind).blocks layout).Perm
      (zone.blocks layout) := (Zone.blocks_listAdd bound).trans perm.symm
  obtain ⟨placed, apart, covered⟩ := inv.whole _ taken (same.symm.append_right taken)
  have pages : ∀ frame, ((((zone.listMove pfn order type).setFreepageMigratetype pfn kind).page
      frame).buddy = (zone.page frame).buddy) ∧
      ((((zone.listMove pfn order type).setFreepageMigratetype pfn kind).page frame).pagePrivate =
      (zone.page frame).pagePrivate) := by
    intro frame
    by_cases here : frame = pfn
    · subst frame
      simp [Zone.setFreepageMigratetype, Zone.setPage, Zone.listMove, Zone.listAdd,
        Zone.setFreeList, Zone.listDel]
    simp [Zone.setFreepageMigratetype, Zone.setPage, Zone.listMove, Zone.listAdd, Zone.setFreeList,
      Zone.listDel, here]
  refine ⟨⟨placed, apart, covered, ?_, ?_, ?_⟩, same⟩
  · intro block found
    rw [(pages block.base).1, (pages block.base).2]
    exact inv.marked block (same.mem_iff.mp found)
  · intro frame usable flag
    rw [(pages frame).1] at flag
    rw [(pages frame).2, same.mem_iff]
    exact inv.buddies frame usable flag
  intro order bound
  rw [same.countP_eq]
  exact inv.counted order bound

/-- A taken block is cut into its halves. -/
theorem split (inv : Inv layout held zone (block :: taken)) (cut : 0 < block.order) :
    Inv layout held zone (block.upper :: block.lower :: taken) := by
  have shape : (zone.blocks layout ++ block :: taken).Perm
      (block :: (zone.blocks layout ++ taken)) :=
    perm_middle
  have apart := pairwise_cons.mp (shape.pairwise inv.apart Block.Apart.symm)
  obtain ⟨align, bound, usable⟩ := inv.placed block (by simp)
  have inner (part : Block) (within : ∀ unit, part.Covers unit → block.Covers unit) (unit : Nat)
      (inside : part.Covers unit) : layout.Usable unit := usable unit (within unit inside)
  have halves := fun unit => Block.covers_halves cut unit
  refine ⟨?_, ?_, ?_, inv.marked, inv.buddies, inv.counted⟩
  · intro part mem
    simp only [mem_append, mem_cons] at mem
    rcases mem with old | rfl | rfl | old
    · exact inv.placed part (by simp [old])
    · exact ⟨align.upper, by simp only [Block.upper]; omega,
        inner _ (fun unit inside => (halves unit).mpr (.inr inside))⟩
    · exact ⟨align.lower, by simp only [Block.lower]; omega,
        inner _ (fun unit inside => (halves unit).mpr (.inl inside))⟩
    exact inv.placed part (by simp [old])
  · have front : (zone.blocks layout ++ block.upper :: block.lower :: taken).Perm
        (block.upper :: block.lower :: (zone.blocks layout ++ taken)) :=
      perm_middle.trans (perm_middle.cons _)
    apply front.symm.pairwise _ Block.Apart.symm
    refine pairwise_cons.mpr ⟨?_, pairwise_cons.mpr ⟨?_, apart.2⟩⟩
    · intro other mem
      rcases mem_cons.mp mem with rfl | old
      · exact (Block.apart_halves cut).symm
      exact (Block.Apart.halves cut (apart.1 other old)).2
    intro other old
    exact (Block.Apart.halves cut (apart.1 other old)).1
  intro unit
  rw [inv.covered unit]
  simp only [mem_append, mem_cons, or_and_right, exists_or, exists_eq_left,
    Block.covers_halves cut unit, or_comm (a := block.lower.Covers unit), or_assoc]

/-- Two taken buddies are joined into their parent. -/
theorem join (inv : Inv layout held zone (block :: block.buddy :: taken))
    (bound : block.order + 1 < layout.maxOrder) : Inv layout held zone (block.parent :: taken) := by
  have shape : (zone.blocks layout ++ block :: block.buddy :: taken).Perm
      (block :: block.buddy :: (zone.blocks layout ++ taken)) :=
    perm_middle.trans (perm_middle.cons _)
  have apart := shape.pairwise inv.apart Block.Apart.symm
  obtain ⟨first, others⟩ := pairwise_cons.mp apart
  obtain ⟨second, old⟩ := pairwise_cons.mp others
  have align := (inv.placed block (by simp)).1
  have halves := align.covers_parent
  refine ⟨?_, ?_, ?_, inv.marked, inv.buddies, inv.counted⟩
  · intro part mem
    simp only [mem_append, mem_cons] at mem
    rcases mem with kept | rfl | kept
    · exact inv.placed part (by simp [kept])
    · refine ⟨align.parent, bound, fun unit inside => ?_⟩
      rcases (halves unit).mp inside with low | high
      · exact (inv.placed block (by simp)).2.2 unit low
      exact (inv.placed block.buddy (by simp)).2.2 unit high
    exact inv.placed part (by simp [kept])
  · apply perm_middle.symm.pairwise _ Block.Apart.symm
    refine pairwise_cons.mpr ⟨fun other mem => ?_, old⟩
    exact align.apart_parent (first other (.tail _ mem)) (second other mem)
  intro unit
  rw [inv.covered unit]
  simp only [mem_append, mem_cons, or_and_right, exists_or, exists_eq_left, halves unit, or_assoc]

end Inv

end TinyKernel.Buddy
