import TinyKernel.Memblock.Reserved

/-! The memory array. Doubling it goes through the reserved array twice: its old memory is
given back, which must not move the reserved array, and its new memory is reserved, which
may. -/

namespace TinyKernel.Memblock

open Lib Span MemblockType

/-- Both arrays are in order and lie in reserved memory, apart from each other. -/
structure Inv (memblock : State) : Prop extends Core memblock where
  memoryArea : Covered memblock memblock.memory.area

variable {env : Env} {state : State}

theorem Core.setMemory (core : Core state) {memory : MemblockType} (keeps : memory.Keeps spans)
    (big : 8 ≤ memory.max) (bound : memory.area.2 ≤ ullongMax)
    (apart : Apart state.reserved.area memory.area) : Core (state.set .memory memory) :=
  ⟨⟨spans, keeps⟩, core.reserved, core.plain, big, core.reservedMax, bound, core.reservedBound,
    core.own, apart⟩

/-- A change of the memory array that does not move it. -/
theorem Inv.changed (inv : Inv state) (changed : Changed state.memory memory map growth) :
    Inv (state.set .memory memory) := by
  obtain ⟨⟨spans, keeps, _⟩, max, home, _⟩ := changed
  have area : memory.area = state.memory.area := area_congr home max
  refine ⟨inv.toCore.setMemory keeps (by rw [max]; exact inv.memoryMax)
    (by rw [area]; exact inv.memoryBound) (by rw [area]; exact inv.apart), ?_⟩
  change Covered _ memory.area
  rw [area]
  exact inv.memoryArea

theorem MemblockType.area_moveTo (type : MemblockType) (addr : Nat) :
    (type.moveTo (.memblock addr)).area =
      (addr, addr + pageAlign (type.max * regionBytes * 2)) := by
  have arithmetic : type.max * 2 * regionBytes = type.max * regionBytes * 2 := by ring
  change (addr, addr + pageAlign (type.max * 2 * regionBytes)) = _
  rw [arithmetic]

theorem not_inArea_empty (address : Nat) : ¬ InArea (0, 0) address := by simp [InArea]

/-- Room in the reserved array for giving back the old memory array. -/
def Spare (env : Env) (memblock : State) (entries : Nat) : Prop :=
  env.slabIsAvailable = false → memblock.reserved.cnt + entries ≤ memblock.reserved.max

/-- How a doubling of the memory array can end. -/
inductive DoubledMemory (env : Env) (old : State) : Except Fault (State × Bool) → Prop where
  | failed : DoubledMemory env old (.ok (old, false))
  | bug : DoubledMemory env old (.error .doubleArray)
  | moved (new : State) (inv : Inv new) (regions : new.memory.regions = old.memory.regions)
      (total : new.memory.totalSize = old.memory.totalSize)
      (max : new.memory.max = old.memory.max * 2)
      (spare : Spare env old 4 → Spare env new 2) : DoubledMemory env old (.ok (new, true))

theorem doubledMemory_slab (inv : Inv state) (slab : env.slabIsAvailable = true) :
    ∃ new, freeArray (doubleArray env 1) state.memory
          (state.set .memory (state.memory.moveTo .slab)) = .ok new ∧
      DoubledMemory env state (.ok (new, true)) := by
  obtain ⟨spans, keeps⟩ := inv.memory
  have big := inv.memoryMax
  have core : Core (state.set .memory (state.memory.moveTo .slab)) :=
    inv.toCore.setMemory (keeps.moveTo .slab) (show 8 ≤ state.memory.max * 2 by omega)
      (Nat.zero_le _) (fun address _ => not_inArea_empty address)
  have noSpare : ∀ state, Spare env state 2 := fun state flag => by rw [slab] at flag; cases flag
  unfold freeArray
  cases home : state.memory.home with
  | memblock addr =>
    have area : state.memory.area = (addr, addr + pageAlign (state.memory.max * regionBytes)) := by
      simp only [area, home]
    have clean : FreeClean env (state.set .memory (state.memory.moveTo .slab)) addr
        (pageAlign (state.memory.max * regionBytes)) := by
      refine ⟨fun address ranged inside => ?_, fun _ => .inr slab,
        fun _ flag => by rw [slab] at flag; cases flag⟩
      apply inv.apart address inside
      rw [area]
      simp only [InArea, capSize] at ranged ⊢
      omega
    obtain ⟨new, status, ran, freed⟩ := free_spec env 0 core clean
    have memory : new.memory = state.memory.moveTo .slab := freed.memory
    refine ⟨new, by simp only [ran, bind, Except.bind],
      .moved new ⟨freed.core, ?_⟩ ?_ ?_ ?_ (fun _ => noSpare new)⟩
    · rw [memory]
      exact fun address inside => absurd inside (not_inArea_empty address)
    all_goals rw [memory]; rfl
  | static =>
    exact ⟨_, rfl, .moved _ ⟨core, fun address inside => absurd inside (not_inArea_empty address)⟩
      rfl rfl rfl (fun _ => noSpare _)⟩
  | slab => ?_
  exact ⟨_, rfl, .moved _ ⟨core, fun address inside => absurd inside (not_inArea_empty address)⟩
    rfl rfl rfl (fun _ => noSpare _)⟩

/-- The new memory array lies in free memory: give the old one back, then reserve it. -/
theorem doubledMemory_memblock (inv : Inv state) (noSlab : env.slabIsAvailable = false)
    (spare : (∃ addr, state.memory.home = .memblock addr) → Spare env state 2) (ne : addr ≠ 0)
    (free :
      Free state.reserved.regions addr (addr + pageAlign (state.memory.max * regionBytes * 2)))
    (top : addr + pageAlign (state.memory.max * regionBytes * 2) ≤ ullongMax) :
    ∃ middle new status, freeArray (doubleArray env 1) state.memory
          (state.set .memory (state.memory.moveTo (.memblock addr))) = .ok middle ∧
      addRange (doubleArray env 1) middle .reserved addr
          (pageAlign (state.memory.max * regionBytes * 2)) 0 = .ok (new, status) ∧
      (status = .ok → DoubledMemory env state (.ok (new, true))) := by
  obtain ⟨spans, keeps⟩ := inv.memory
  obtain ⟨left, kept⟩ := inv.reserved
  have big := inv.memoryMax
  have area := state.memory.area_moveTo addr
  have sized := pageAlign_pos (show 0 < state.memory.max * regionBytes * 2 by
    simp only [regionBytes]; omega)
  generalize pageAlign (state.memory.max * regionBytes * 2) = alloc at *
  have unseen (address : Nat) (inside : InArea (addr, addr + alloc) address) :
      state.map .reserved address = none := free address inside.1 inside.2
  have apart : Apart state.reserved.area (addr, addr + alloc) := by
    intro address own inside
    have covered := inv.own address own
    rw [unseen address inside] at covered
    cases covered
  have core : Core (state.set .memory (state.memory.moveTo (.memblock addr))) :=
    inv.toCore.setMemory (keeps.moveTo _) (show 8 ≤ state.memory.max * 2 by omega)
      (by rw [area]; exact top) (by rw [area]; exact apart)
  obtain ⟨reserved, ran, changed⟩ := freeArray_spec (doubleArray env 1)
    (show (state.set .memory (state.memory.moveTo (.memblock addr))).reserved.Keeps left
      from kept) (fun home => spare home noSlab) inv.memoryBound
  have same (address : Nat) : state.map .reserved address = lookup left address :=
    kept.lookup_regions address
  -- giving the old array back touches neither the reserved array nor the new place
  have middle : Core
      ((state.set .memory (state.memory.moveTo (.memblock addr))).set .reserved reserved) := by
    refine core.changed changed (fun address flags found => ?_) (fun address inside => ?_)
    · simp only [clear] at found
      split at found
      · cases found
      exact inv.plain address flags (by rw [same]; exact found)
    rw [clear, if_neg (show ¬ (_ ≤ address ∧ address < _) from inv.apart address inside), ← same]
    exact inv.own address inside
  have count : reserved.cnt ≤ state.reserved.cnt + 1 := changed.cnt
  have max : reserved.max = state.reserved.max := changed.max
  have reservedArea : reserved.area = state.reserved.area := area_congr changed.home changed.max
  have whole : capSize addr alloc = alloc := by simp only [capSize]; omega
  obtain ⟨rest, holds, cleared⟩ := changed.keeps
  have gap : gaps (addr + capSize addr alloc) addr reserved.regions ≤ 1 := by
    have range : addr < addr + alloc := by omega
    rw [whole, holds.gaps_regions _ _ range, gaps_of_free holds.ordered, if_pos range]
    intro address low high
    have old := unseen address ⟨low, high⟩
    rw [same] at old
    rw [cleared, clear]
    split <;> simp [old]
  obtain ⟨new, status, added, after, covered⟩ :=
    reserve_spec env 0 middle (show addr ≤ ullongMax by omega)
    (show ReserveClean env _ addr alloc from fun _ => ⟨.inl ne, by
      change Apart (addr, addr + capSize addr alloc) reserved.area
      rw [whole, reservedArea]
      exact apart.symm⟩)
    (fun address inside => by
      change InArea (state.memory.moveTo (.memblock addr)).area address at inside
      rw [area] at inside
      rw [whole]
      exact .inr inside)
  refine ⟨_, new, status, ran, added, fun ok => ?_⟩
  have memory : new.memory = state.memory.moveTo (.memblock addr) := after.memory
  refine .moved new ⟨after.core, ?_⟩ (by rw [memory]; rfl) (by rw [memory]; rfl)
    (by rw [memory]; rfl) (fun enough flag => ?_)
  · rw [memory, area]
    have there := covered ok
    rwa [whole] at there
  have room := enough flag
  rcases after.cnt with ⟨max', count'⟩ | ⟨max', count'⟩
  · change new.reserved.max = reserved.max at max'
    change new.reserved.cnt ≤ reserved.cnt + gaps _ _ reserved.regions at count'
    omega
  change 2 * reserved.max ≤ new.reserved.max at max'
  change new.reserved.cnt ≤ reserved.cnt + 4 + gaps _ _ reserved.regions at count'
  omega

theorem doubleArray_memory (inv : Inv state)
    (spare : (∃ addr, state.memory.home = .memblock addr) → Spare env state 2) (start size : Nat) :
    DoubledMemory env state (doubleArray env 2 .memory start size state) := by
  obtain ⟨spans, keeps⟩ := inv.reserved
  have big := inv.memoryMax
  have bytes : 0 < pageAlign (state.memory.max * regionBytes * 2) :=
    pageAlign_pos (by simp only [regionBytes]; omega)
  change DoubledMemory env state
    (doubleOnce env (doubleArray env 1) .memory state.memory start size state)
  unfold doubleOnce
  by_cases resize : env.canResize
  · simp only [resize, Bool.not_true, Bool.false_eq_true, if_false]
    by_cases slab : env.slabIsAvailable
    · simp only [slab, if_true]
      split
      · obtain ⟨new, ran, doubled⟩ := doubledMemory_slab inv slab
        simp only [ran, bind, Except.bind]
        exact doubled
      exact .failed
    have noSlab : env.slabIsAvailable = false := by simpa using slab
    simp only [slab, Bool.false_eq_true, if_false]
    split
    · exact .failed
    rename_i gone
    obtain ⟨free, top, _, _⟩ := findArray_spec keeps.toHolds.sorted bytes gone
    -- both arrays are reserved memory and the place found is not
    rw [areasMeet_free (by omega) bytes free fun address inside =>
        .inl (inv.memoryArea address inside),
      areasMeet_free (by have := inv.reservedMax; omega) bytes free fun address inside =>
        .inl (inv.own address inside)]
    obtain ⟨middle, new, status, ran, added, doubled⟩ :=
      doubledMemory_memblock inv noSlab spare gone free top
    simp only [Bool.or_self, Bool.false_eq_true, if_false, ran, added, bind, Except.bind]
    cases status with
    | noMem => exact .bug
    | ok => exact doubled rfl
  simp only [resize]
  exact .failed

/-- How the growth loop on the memory array can end. -/
inductive MemoryGrowth (old : State) (extra : Nat) : Except Fault (State × Bool) → Prop where
  | bug : MemoryGrowth old extra (.error .doubleArray)
  | grown (new : State) (inv : Inv new) (regions : new.memory.regions = old.memory.regions)
      (total : new.memory.totalSize = old.memory.totalSize)
      (max : old.memory.max ≤ new.memory.max) (enough : Bool)
      (fits : enough = true → new.memory.cnt + extra ≤ new.memory.max) :
      MemoryGrowth old extra (.ok (new, enough))

/-- The condition under which a call that needs `extra` entries of the memory array is safe:
if memblock has to find room for it, the reserved array does not have to move while the
old array is given back. -/
def MemoryClean (env : Env) (memblock : State) (extra : Nat) : Prop :=
  memblock.memory.max < memblock.memory.cnt + extra →
    ((∃ addr, memblock.memory.home = .memblock addr) → Spare env memblock 2) ∧
    (2 * memblock.memory.max < memblock.memory.cnt + extra → Spare env memblock 4)

theorem growWhile_memory (inv : Inv state) (few : extra ≤ state.memory.max + 1)
    (clean : MemoryClean env state extra) (start size : Nat) :
    MemoryGrowth state extra (growWhile (doubleArray env 2) .memory extra start size 3 state) := by
  have big := inv.memoryMax
  have fits : state.memory.cnt ≤ state.memory.max := by
    obtain ⟨spans, keeps⟩ := inv.memory
    exact keeps.fits
  change MemoryGrowth state extra (if state.memory.max < state.memory.cnt + extra then _ else _)
  split
  · rename_i must
    obtain ⟨spare, again⟩ := clean must
    have first := doubleArray_memory inv spare start size
    generalize doubleArray env 2 .memory start size state = outcome at first
    cases first with
    | failed => exact .grown state inv rfl rfl le_rfl false (fun flag => by cases flag)
    | bug => exact .bug
    | moved new inv₁ regions₁ total₁ max₁ spare₁ => ?_
    have count₁ : new.memory.cnt = state.memory.cnt := congrArg List.length regions₁
    simp only [bind, Except.bind, if_true]
    change MemoryGrowth state extra (if new.memory.max < new.memory.cnt + extra then _ else _)
    split
    · have second := doubleArray_memory inv₁ (fun _ => spare₁ (again (by omega))) start size
      generalize doubleArray env 2 .memory start size new = outcome at second
      cases second with
      | failed => exact .grown new inv₁ regions₁ total₁ (by omega) false (fun flag => by cases flag)
      | bug => exact .bug
      | moved last inv₂ regions₂ total₂ max₂ _ => ?_
      have count₂ : last.memory.cnt = new.memory.cnt := congrArg List.length regions₂
      have enough : ¬ (last.type .memory).max < (last.type .memory).cnt + extra := by
        change ¬ last.memory.max < last.memory.cnt + extra
        omega
      simp only [bind, Except.bind, if_true]
      rw [growWhile, if_neg enough]
      exact .grown last inv₂ (regions₂.trans regions₁) (total₂.trans total₁) (by omega) true
        (fun _ => Nat.not_lt.mp enough)
    exact .grown new inv₁ regions₁ total₁ (by omega) true (fun _ => by omega)
  exact .grown state inv rfl rfl le_rfl true (fun _ => by omega)

/-- A call keeps the invariant or stops at the `BUG_ON` of `memblock_double_array`. -/
def Sound (outcome : Except Fault (State × Status)) : Prop :=
  match outcome with
  | .ok (new, _) => Inv new
  | .error fault => fault = .doubleArray

theorem MemblockType.Keeps.grow {old new : MemblockType} (keeps : old.Keeps spans)
    (regions : new.regions = old.regions) (total : new.totalSize = old.totalSize)
    (max : old.max ≤ new.max) : new.Keeps spans :=
  ⟨⟨regions.trans keeps.shape, keeps.ordered, keeps.bounded, total.trans keeps.totalSize⟩,
    keeps.minimal, by rw [cnt, regions]; exact keeps.fits.trans max⟩

/-- A call on the memory array that grows it and then changes it in place. -/
theorem Inv.memory_call (inv : Inv state) (keeps : state.memory.Keeps spans)
    (few : extra ≤ state.memory.max + 1) (clean : MemoryClean env state extra) (start size : Nat)
    (body : State → Except Fault (State × Status))
    (change : ∀ new : State, new.memory.Keeps spans → new.memory.cnt + extra ≤ new.memory.max →
      ∃ type, body new = .ok (new.set .memory type, .ok) ∧ Changed new.memory type map growth) :
    Sound (growWhile (doubleArray env 2) .memory extra start size 3 state >>=
      fun grown => if grown.2 then body grown.1 else .ok (grown.1, .noMem)) := by
  have growth := growWhile_memory inv few clean start size
  generalize growWhile (doubleArray env 2) .memory extra start size 3 state = outcome at growth ⊢
  cases growth with
  | bug => rfl
  | grown new inv regions total max enough fits => ?_
  cases enough with
  | false => exact inv
  | true => ?_
  obtain ⟨type, ran, changed⟩ := change new (keeps.grow regions total max) (fits rfl)
  simp only [bind, Except.bind, if_true, ran]
  exact inv.changed changed

variable {base size : Nat}

theorem add_sound (inv : Inv state) (wide : base ≤ ullongMax)
    (clean : MemoryClean env state (gaps (base + capSize base size) base state.memory.regions)) :
    Sound (addRange (doubleArray env 2) state .memory base size 0) := by
  obtain ⟨spans, keeps⟩ := inv.memory
  have kept : (state.type .memory).Keeps spans := keeps
  by_cases sized : capSize base size = 0
  · simp only [addRange, if_pos sized]
    exact inv
  by_cases empty : spans = []
  · subst empty
    obtain ⟨type, ran, changed⟩ := addRange_empty (doubleArray env 2) 0 kept wide sized
    rw [ran]
    exact inv.changed changed
  have few := gaps_le (base + capSize base size) base spans
  have fits := keeps.fits
  have length : state.memory.cnt = spans.length := by rw [cnt, keeps.regions_eq empty]
  rw [keeps.toHolds.gaps_regions _ _ (by omega)] at clean
  rw [addRange_eq _ 0 kept empty sized]
  exact inv.memory_call keeps (by omega) clean base _ _ fun new kept room =>
    insertInto_spec base 0 (show (new.type .memory).Keeps spans from kept) empty (cap_le wide size)
      room

theorem remove_sound (inv : Inv state) (clean : capSize base size ≠ 0 → MemoryClean env state 2) :
    Sound (removeRange (doubleArray env 2) state .memory base size) := by
  obtain ⟨spans, keeps⟩ := inv.memory
  have big := inv.memoryMax
  by_cases sized : capSize base size = 0
  · simp only [removeRange, isolateRange, if_pos sized, bind, Except.bind, Nat.sub_self,
      removeRegions, State.set_type]
    exact inv
  rw [removeRange_eq _ _ _ sized]
  exact inv.memory_call keeps (by omega) (clean sized) base _ _ fun new kept room =>
    removeIn_spec (show (new.type .memory).Keeps spans from kept) (by omega) room

theorem hotplug_sound (inv : Inv state) (update : Flags → Flags)
    (clean : capSize base size ≠ 0 → MemoryClean env state 2) :
    Sound (changeHotplug update (doubleArray env 2) state base size) := by
  obtain ⟨spans, keeps⟩ := inv.memory
  have big := inv.memoryMax
  by_cases sized : capSize base size = 0
  · simp only [changeHotplug, isolateRange, if_pos sized, bind, Except.bind, updateFlags_none,
      mergeRegions_keeps keeps]
    exact inv
  rw [changeHotplug_eq _ _ _ sized]
  exact inv.memory_call keeps (by omega) (clean sized) base _ _ fun new kept room =>
    hotplugIn_spec update kept (by omega) room

end TinyKernel.Memblock
