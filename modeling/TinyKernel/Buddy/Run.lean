import Mathlib.Data.Nat.SuccPred
import TinyKernel.Buddy.Alloc

/-! Whole runs of the allocator. A caller allocates with `__rmqueue` and gives blocks
back with `__free_one_page`, each at the order it was allocated with, in any order. -/

namespace TinyKernel.Buddy

open Lib List Function

/-- The state of the free lists as the allocator's users see it, with the blocks they
hold. `buddyIsFree` is what `PageBuddy` is documented to mean: such a page heads a block
in the buddy system. -/
structure Safe (layout : Layout) (zone : Zone) (outstanding : List Block) : Prop where
  placed : ∀ order < layout.maxOrder, ∀ type, ∀ pfn ∈ zone.freeList order type,
    2 ^ order ∣ pfn ∧ (∀ page, pfn ≤ page → page < pfn + 2 ^ order → layout.Usable page) ∧
    (zone.page pfn).buddy = true ∧ (zone.page pfn).pagePrivate = order
  oneList : ∀ order < layout.maxOrder, ∀ type, ∀ pfn ∈ zone.freeList order type,
    (zone.freeList order type).count pfn = 1 ∧
    ∀ other < layout.maxOrder, ∀ kind, pfn ∈ zone.freeList other kind →
      other = order ∧ kind = type
  freeApart : ∀ first ∈ zone.blocks layout, ∀ second ∈ zone.blocks layout,
    first ≠ second → first.Apart second
  outstandingApart : ∀ free ∈ zone.blocks layout, ∀ block ∈ outstanding, free.Apart block
  counted : ∀ order < layout.maxOrder, zone.nrFree order =
    ((MigrateType.all.map fun type => (zone.freeList order type).length).sum : Nat)
  outstandingPlaced : ∀ block ∈ outstanding, block.Aligned ∧ block.order < layout.maxOrder ∧
    ∀ page, block.Covers page → layout.Usable page
  outstandingOnce : outstanding.Pairwise Block.Apart
  buddyIsFree : ∀ pfn, layout.Usable pfn → (zone.page pfn).buddy = true →
    (zone.page pfn).pagePrivate < layout.maxOrder ∧
    ∃ type, pfn ∈ zone.freeList (zone.page pfn).pagePrivate type

/-- The pages on the free lists. -/
def Zone.freePages (layout : Layout) (zone : Zone) : Nat :=
  ((zone.blocks layout).map Block.size).sum

variable {layout : Layout} {held : Nat → Prop} {zone : Zone} {outstanding : List Block}

theorem Zone.countP_blocks (zone : Zone) (bound : order < layout.maxOrder) :
    (zone.blocks layout).countP (·.order = order) =
      (MigrateType.all.map fun type => (zone.freeList order type).length).sum := by
  have listed (key : Nat × MigrateType) : (zone.listed key).countP (·.order = order) =
      if key.1 = order then (zone.freeList key.1 key.2).length else 0 := by
    by_cases same : key.1 = order
    · simp [Zone.listed, countP_map, comp_def, same]
    simp [Zone.listed, countP_map, comp_def, same]
  have rows (limit : Nat) : ((range limit ×ˢ MigrateType.all).map fun key : Nat × MigrateType =>
      if key.1 = order then (zone.freeList key.1 key.2).length else 0).sum =
      if order < limit then
        (MigrateType.all.map fun type => (zone.freeList order type).length).sum else 0 := by
    induction limit with
    | zero => simp
    | succ limit ih => ?_
    have row : (range (limit + 1) ×ˢ MigrateType.all) =
        range limit ×ˢ MigrateType.all ++ MigrateType.all.map (Prod.mk limit) := by
      simp [SProd.sprod, product, range_succ]
    rw [row, map_append, sum_append, ih, map_map]
    rcases lt_trichotomy order limit with below | here | above
    · simp [comp_def, below, below.ne', Nat.lt_succ_of_lt below]
    · simp [comp_def, here]
    have miss : ¬ order < limit := by omega
    have skip : ¬ order < limit + 1 := by omega
    simp [comp_def, miss, skip, above.ne]
  rw [Zone.blocks, countP_flatMap]
  have each : (countP (fun block : Block => decide (block.order = order)) ∘ zone.listed) =
      fun key => if key.1 = order then (zone.freeList key.1 key.2).length else 0 := funext listed
  rw [each, Layout.keys, rows, if_pos bound]

theorem Inv.safe (inv : Inv layout held zone outstanding) : Safe layout zone outstanding := by
  have split := pairwise_append.mp inv.apart
  have free {order pfn : Nat} {type : MigrateType} (bound : order < layout.maxOrder)
      (mem : pfn ∈ zone.freeList order type) : ⟨pfn, order⟩ ∈ zone.blocks layout :=
    Zone.mem_blocks.mpr ⟨bound, type, mem⟩
  refine ⟨?_, ?_, ?_, split.2.2, ?_, ?_, split.2.1, ?_⟩
  · intro order bound type pfn mem
    obtain ⟨align, _, usable⟩ := inv.placed ⟨pfn, order⟩ (by simp [free bound mem])
    exact ⟨align, fun page low high => usable page ⟨low, high⟩,
      inv.marked ⟨pfn, order⟩ (free bound mem)⟩
  · intro order bound type pfn mem
    have parts :=
      pairwise_append.mp ((Zone.blocks_split bound type zone).pairwise split.1 Block.Apart.symm)
    have touching (other : Nat) (apart : (Block.mk pfn order).Apart ⟨pfn, other⟩) : False :=
      apart.not_covers (Block.covers_base _) (Block.covers_base ⟨pfn, other⟩)
    refine ⟨count_eq_one_of_mem ?_ mem, ?_⟩
    · -- a page listed twice would head two blocks that overlap
      have rows := parts.1
      rw [pairwise_map] at rows
      refine rows.imp ?_
      rintro pfn _ apart rfl
      exact Block.not_apart_self _ apart
    intro other low kind again
    by_contra ne
    apply touching other
    apply parts.2.2 _ (mem_map.mpr ⟨pfn, mem, rfl⟩)
    apply mem_flatMap.mpr
    refine ⟨(other, kind), ?_, mem_map.mpr ⟨pfn, again, rfl⟩⟩
    apply (layout.nodup_keys.mem_erase_iff).mpr
    exact ⟨fun same => ne (by simpa using same), Layout.mem_keys.mpr low⟩
  · intro first one second two ne
    have symmetric : Std.Symm Block.Apart := ⟨fun _ _ => Block.Apart.symm⟩
    exact split.1.forall one two ne
  · intro order bound
    rw [inv.counted order bound, Zone.countP_blocks zone bound]
  · intro block mem
    exact inv.placed block (by simp [mem])
  intro pfn usable flag
  exact Zone.mem_blocks.mp (inv.buddies pfn usable flag)

theorem Safe.nodup_blocks (safe : Safe layout zone outstanding) : (zone.blocks layout).Nodup := by
  rw [Zone.blocks, nodup_flatMap]
  constructor
  · rintro ⟨order, type⟩ known
    have bound := Layout.mem_keys.mp known
    apply Nodup.map (fun _ _ same => (Block.mk.inj same).1)
    rw [nodup_iff_count_le_one]
    intro pfn
    by_cases mem : pfn ∈ zone.freeList order type
    · exact (safe.oneList order bound type pfn mem).1.le
    simp [count_eq_zero_of_not_mem mem]
  apply Nodup.pairwise_of_forall_ne layout.nodup_keys
  rintro ⟨order, type⟩ known ⟨other, kind⟩ known' ne
  intro block here there
  obtain ⟨pfn, mem, rfl⟩ := mem_map.mp here
  obtain ⟨pfn', member', same⟩ := mem_map.mp there
  obtain ⟨rfl, _⟩ := Block.mk.inj same
  obtain ⟨rfl, rfl⟩ := (safe.oneList order (Layout.mem_keys.mp known) type _ mem).2
    other (Layout.mem_keys.mp known') kind member'
  exact ne rfl

/-- A safe zone satisfies the internal invariant, for the memory it now covers. -/
theorem Safe.inv (safe : Safe layout zone outstanding) :
    Inv layout (fun unit => ∃ block ∈ zone.blocks layout ++ outstanding, block.Covers unit) zone
      outstanding := by
  have listed {block : Block} (mem : block ∈ zone.blocks layout) := Zone.mem_blocks.mp mem
  refine ⟨?_, ?_, fun _ => Iff.rfl, ?_, ?_, ?_⟩
  · intro block mem
    rcases mem_append.mp mem with free | out
    · obtain ⟨bound, type, inList⟩ := listed free
      obtain ⟨align, usable, _⟩ := safe.placed block.order bound type block.base inList
      exact ⟨align, bound, fun unit inside => usable unit inside.1 inside.2⟩
    exact safe.outstandingPlaced block out
  · refine pairwise_append.mpr ⟨?_, safe.outstandingOnce, safe.outstandingApart⟩
    exact safe.nodup_blocks.pairwise_of_forall_ne
      (fun first one second two ne => safe.freeApart first one second two ne)
  · intro block mem
    obtain ⟨bound, type, inList⟩ := listed mem
    exact (safe.placed block.order bound type block.base inList).2.2
  · intro pfn usable flag
    exact Zone.mem_blocks.mpr (safe.buddyIsFree pfn usable flag)
  intro order bound
  rw [safe.counted order bound, Zone.countP_blocks zone bound]

inductive Call where
  | rmqueue (order : Nat) (type : MigrateType)
  | freeOnePage (pfn order : Nat) (type : MigrateType)

/-- The zone with the blocks handed out and not yet given back. -/
structure State where
  zone : Zone
  outstanding : List Block

/-- One call. An allocation may find nothing; only an outstanding block may be freed. -/
def State.step (layout : Layout) (state : State) : Call → Option State
  | .rmqueue order type =>
    match rmqueue layout state.zone order type with
    | some (page, zone) => some ⟨zone, ⟨page, order⟩ :: state.outstanding⟩
    | none => some state
  | .freeOnePage pfn order type =>
    if ⟨pfn, order⟩ ∈ state.outstanding then
      some ⟨freeOnePage layout state.zone pfn order type, state.outstanding.erase ⟨pfn, order⟩⟩
    else none

def State.run (layout : Layout) (state : State) : List Call → Option State
  | [] => some state
  | call :: calls => (state.step layout call).bind (·.run layout calls)

def State.pages (layout : Layout) (state : State) : Nat :=
  state.zone.freePages layout + (state.outstanding.map Block.size).sum

variable {state final : State}

/-- What one call preserves. -/
theorem State.step_spec {next : State} {call : Call}
    (inv : Inv layout held state.zone state.outstanding)
    (stepped : state.step layout call = some next) :
    Inv layout held next.zone next.outstanding ∧
      (state.zone.FullyMerged layout → next.zone.FullyMerged layout) := by
  cases call with
  | rmqueue order type =>
    simp only [State.step] at stepped
    split at stepped
    · rename_i page zone found
      obtain rfl := Option.some.inj stepped
      have res := rmqueue_spec inv found
      exact ⟨res.inv, res.merged⟩
    obtain rfl := Option.some.inj stepped
    exact ⟨inv, id⟩
  | freeOnePage pfn order type => ?_
  simp only [State.step] at stepped
  split at stepped
  · rename_i mem
    obtain rfl := Option.some.inj stepped
    exact freeOnePage_spec (inv.perm (perm_cons_erase mem)) type
  cases stepped

/-- What a whole run preserves. -/
theorem State.run_spec (calls : List Call) (inv : Inv layout held state.zone state.outstanding)
    (ran : state.run layout calls = some final) :
    Inv layout held final.zone final.outstanding ∧
      (state.zone.FullyMerged layout → final.zone.FullyMerged layout) := by
  induction calls generalizing state with
  | nil =>
    obtain rfl := Option.some.inj ran
    exact ⟨inv, id⟩
  | cons call calls ih => ?_
  obtain ⟨next, stepped, rest⟩ := Option.bind_eq_some_iff.mp ran
  obtain ⟨kept, merged⟩ := State.step_spec inv stepped
  obtain ⟨res, after⟩ := ih kept rest
  exact ⟨res, fun before => after (merged before)⟩

/-- The invariant fixes the number of pages: they are the units of `held`, each once. -/
theorem State.pages_eq (before : Inv layout held state.zone state.outstanding)
    (after : Inv layout held final.zone final.outstanding) :
    final.pages layout = state.pages layout := by
  have total {state : State} (inv : Inv layout held state.zone state.outstanding) :
      state.pages layout = (Block.units (state.zone.blocks layout ++ state.outstanding)).card := by
    rw [← Block.sum_size_eq_card inv.apart, map_append, sum_append]
    rfl
  rw [total before, total after]
  congr 1
  ext unit
  rw [Block.mem_units, Block.mem_units, ← before.covered, ← after.covered]

/-- From any safe state, every run of allocations and frees ends in a safe state, and no
page is lost or duplicated on the way. -/
theorem run_safe {start final : State} (safe : Safe layout start.zone start.outstanding)
    (calls : List Call) (ran : start.run layout calls = some final) :
    Safe layout final.zone final.outstanding ∧ final.pages layout = start.pages layout := by
  obtain ⟨kept, _⟩ := State.run_spec calls safe.inv ran
  exact ⟨kept.safe, State.pages_eq safe.inv kept⟩

/-- Eight pages in two free blocks of order two, with pageblocks of two pages. -/
def twoBlockLayout : Layout where
  maxOrder := 3
  pageblockOrder := 1
  zoneStartPfn := 0
  spannedPages := 8
  pfnValidWithin := fun _ => true
  pageZoneId := fun _ => 0
  pageGroupByMobilityDisabled := false
  sameZone := by intro page other same; omega

def twoBlockZone : Zone where
  page := fun pfn => ⟨pfn == 0 || pfn == 4, if pfn == 0 || pfn == 4 then 2 else 0, .movable⟩
  freeList := fun order type => if order = 2 ∧ type = .movable then [0, 4] else []
  nrFree := fun order => if order = 2 then 2 else 0
  pageblock := fun _ => .movable
  nrFreePages := 8

theorem twoBlockZone_blocks : twoBlockZone.blocks twoBlockLayout = [⟨0, 2⟩, ⟨4, 2⟩] := by decide

theorem twoBlockZone_safe : Safe twoBlockLayout twoBlockZone [] := by
  have listed {order pfn : Nat} {type : MigrateType} :
      pfn ∈ twoBlockZone.freeList order type ↔
        order = 2 ∧ type = .movable ∧ (pfn = 0 ∨ pfn = 4) := by
    simp only [twoBlockZone]
    split <;> simp_all
  have usable {page : Nat} (low : page < 8) : twoBlockLayout.Usable page := by
    simp [Layout.Usable, Layout.zoneSpansPfn, twoBlockLayout, low]
  refine ⟨?_, ?_, ?_, by simp, ?_, by simp, by simp, ?_⟩
  · intro order _ type pfn mem
    obtain ⟨rfl, rfl, rfl | rfl⟩ := listed.mp mem <;>
      exact ⟨by decide, fun page _ high => usable (by omega), rfl, rfl⟩
  · intro order _ type pfn mem
    obtain ⟨rfl, rfl, rfl | rfl⟩ := listed.mp mem <;>
      exact ⟨by decide, fun other _ kind again => ⟨(listed.mp again).1, (listed.mp again).2.1⟩⟩
  · decide
  · decide
  intro pfn _ flag
  have heads : pfn = 0 ∨ pfn = 4 := by simpa [twoBlockZone] using flag
  rcases heads with rfl | rfl <;> exact ⟨by decide, .movable, by decide⟩

/-- The first allocation steals from another migrate type; its block is merged back before
the last one asks for the whole. -/
def twoBlockCalls : List Call :=
  [.rmqueue 0 .unmovable, .rmqueue 1 .movable, .freeOnePage 0 0 .unmovable, .rmqueue 2 .movable]

theorem run_safe_two_blocks :
    ∃ final, State.run twoBlockLayout ⟨twoBlockZone, []⟩ twoBlockCalls = some final ∧
      Safe twoBlockLayout final.zone final.outstanding ∧
      final.pages twoBlockLayout = State.pages twoBlockLayout ⟨twoBlockZone, []⟩ := by
  have succeeds : (State.run twoBlockLayout ⟨twoBlockZone, []⟩ twoBlockCalls).isSome = true := by
    decide
  obtain ⟨final, ran⟩ := Option.isSome_iff_exists.mp succeeds
  exact ⟨final, ran, run_safe twoBlockZone_safe twoBlockCalls ran⟩

end TinyKernel.Buddy
