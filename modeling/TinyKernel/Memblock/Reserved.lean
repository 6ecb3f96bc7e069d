import TinyKernel.Memblock.Double

/-! The reserved array while it grows. Both arrays lie in reserved memory, so a new array,
which is placed in free memory, never lands on one of them; and as long as the range of a
call stays clear of the array that has to move, the gaps counted before the move are the
gaps filled after it. -/

namespace TinyKernel.Memblock

open Lib Span MemblockType

def Apart (first second : Nat × Nat) : Prop :=
  ∀ address, InArea first address → ¬ InArea second address

theorem Apart.symm (apart : Apart first second) : Apart second first :=
  fun address inside again => apart address again inside

/-- Every address of the area is reserved. -/
def Covered (memblock : State) (area : Nat × Nat) : Prop :=
  ∀ address, InArea area address → memblock.map .reserved address = some 0

/-- What holds of the two arrays, except that the memory array may not be reserved yet. -/
structure Core (memblock : State) : Prop where
  memory : ∃ spans, memblock.memory.Keeps spans
  reserved : ∃ spans, memblock.reserved.Keeps spans
  plain : ∀ address flags, memblock.map .reserved address = some flags → flags = 0
  memoryMax : 8 ≤ memblock.memory.max
  reservedMax : 8 ≤ memblock.reserved.max
  memoryBound : memblock.memory.area.2 ≤ ullongMax
  reservedBound : memblock.reserved.area.2 ≤ ullongMax
  own : Covered memblock memblock.reserved.area
  apart : Apart memblock.reserved.area memblock.memory.area

/-- Reserved memory stays reserved, the old place of the reserved array apart. -/
def Preserved (old new : State) : Prop :=
  ∀ address, ¬ InArea old.reserved.area address → old.map .reserved address = some 0 →
    new.map .reserved address = some 0

variable {env : Env} {old new state : State} {start size growth : Nat}

theorem Grown.preserved (grown : Grown env old new start size growth) : Preserved old new := by
  intro address outside reserved
  rw [grown.map address, relocate, if_neg outside, reserved]
  split <;> rfl

theorem Grown.core (grown : Grown env old new start size growth) (core : Core old) : Core new := by
  have max := grown.max
  have big := core.reservedMax
  refine ⟨grown.memory ▸ core.memory, grown.keeps, fun address flags found => ?_,
    grown.memory ▸ core.memoryMax, by omega, grown.memory ▸ core.memoryBound, grown.bounded,
    fun address inside => ?_, fun address inside => ?_⟩
  · rw [grown.map address, relocate] at found
    split_ifs at found with fresh before
    · exact (Option.some.inj found).symm
    exact core.plain address flags found
  · rw [grown.map address, relocate, if_pos inside]
  rw [grown.memory]
  exact not_inArea_of_apart grown.apart inside

theorem MemblockType.area_of_meets {type : MemblockType} {area : Nat × Nat}
    (meets : areasMeet area type.area = true) (sized : 0 < type.max) :
    type.area.1 < type.area.2 := by
  cases home : type.home with
  | memblock addr =>
    have bytes := pageAlign_pos (show 0 < type.max * regionBytes by simp only [regionBytes]; omega)
    simp only [MemblockType.area, home]
    omega
  | static =>
    rw [show type.area = (0, 0) by simp only [MemblockType.area, home]] at meets
    simp [areasMeet] at meets
  | slab => ?_
  rw [show type.area = (0, 0) by simp only [MemblockType.area, home]] at meets
  simp [areasMeet] at meets

/-- An area of free memory does not meet an array that lies in reserved memory or elsewhere. -/
theorem areasMeet_free {type : MemblockType} (large : 0 < type.max) (sized : 0 < bytes)
    (free : Free state.reserved.regions addr (addr + bytes))
    (known : ∀ address, InArea type.area address →
      state.map .reserved address = some 0 ∨ ¬ InArea (addr, addr + bytes) address) :
    areasMeet (addr, addr + bytes) type.area = false := by
  by_contra meets
  rw [Bool.not_eq_false] at meets
  have nonempty := area_of_meets meets large
  simp only [areasMeet, decide_eq_true_eq] at meets
  have here : InArea (addr, addr + bytes) (max addr type.area.1) := by simp only [InArea]; omega
  rcases known (max addr type.area.1) (by simp only [InArea]; omega) with covered | outside
  · have unseen : state.map .reserved (max addr type.area.1) = none :=
      free _ here.1 here.2
    rw [unseen] at covered
    cases covered
  exact outside here

/-- A new array never lands on one of the arrays, when these lie in reserved memory or in
the range it has to stay clear of. -/
theorem Doubled.no_overlap (core : Core state) (nonzero : start ≠ 0 ∨ env.slabIsAvailable = true)
    (known : ∀ address, InArea state.memory.area address →
      state.map .reserved address = some 0 ∨ (start ≤ address ∧ address < start + size)) :
    ¬ Doubled env state start size (.error .overlap) := by
  intro doubled
  cases doubled with
  | overlap addr bytes noSlab sized free clear meets =>
    have clear := clear (nonzero.resolve_right (by simp [noSlab]))
    have memoryMax := core.memoryMax
    have reservedMax := core.reservedMax
    rcases meets with memory | reserved
    · rw [areasMeet_free (by omega) sized free fun address inside => ?_] at memory
      · cases memory
      rcases known address inside with covered | ranged
      · exact .inl covered
      right
      simp only [InArea]
      omega
    rw [areasMeet_free (by omega) sized free fun address inside =>
      .inl (core.own address inside)] at reserved
    cases reserved

variable {spans : List Region}

/-- Minimal spans with equal flags cannot tile an area in more than one piece. -/
theorem length_le_one (order : Ordered low spans) (minimal : Minimal spans)
    (plain : ∀ address flags, lookup spans address = some flags → flags = 0) {area : Nat × Nat}
    (tiled : ∀ address, (lookup spans address).isSome = true ↔ InArea area address) :
    spans.length ≤ 1 := by
  match spans, order, minimal with
  | [], _, _ => exact Nat.zero_le _
  | [_], _, _ => exact le_rfl
  | first :: second :: rest, order, minimal =>
    exfalso
    have later := order.2.2
    have covered {span : Region} (mem : span ∈ first :: second :: rest) {address : Nat}
      (inside : span.Covers address) :
        lookup (first :: second :: rest) address = some span.flags ∧ InArea area address := by
      have found := order.lookup_eq mem inside
      exact ⟨found, (tiled address).mp (by rw [found]; rfl)⟩
    obtain ⟨flag₁, in₁⟩ := covered (.head _)
      (show first.Covers first.base from ⟨le_rfl, Nat.lt_add_of_pos_right order.2.1⟩)
    obtain ⟨flag₂, in₂⟩ := covered (.tail _ (.head _))
      (show second.Covers second.base from ⟨le_rfl, Nat.lt_add_of_pos_right later.2.1⟩)
    have step : first.limit = first.base + first.size := rfl
    have above := later.1
    -- the address just past the first span is inside the area, so the second starts there
    have gap := (tiled first.limit).mpr (by simp only [InArea] at *; omega)
    have touch : first.limit = second.base := by
      by_contra apart
      rw [lookup_cons, if_neg (by simp only [Span.Covers]; omega),
        lookup_below (show Ordered second.base (second :: rest) from ⟨le_rfl, later.2⟩)
          (by omega)] at gap
      cases gap
    have same : first.flags = second.flags := (plain _ _ flag₁).trans (plain _ _ flag₂).symm
    exact (List.isChain_cons_cons.mp minimal).1 touch same

/-- An array that had to grow still holds something after it moved. -/
theorem Grown.nonempty (grown : Grown env old new start size growth) (core : Core old)
    (must : old.reserved.max < old.reserved.cnt + extra) (few : extra ≤ old.reserved.cnt + 1)
    (keeps : new.reserved.Keeps spans) : spans ≠ [] := by
  rintro rfl
  have none (address : Nat) : new.map .reserved address = none := by
    change lookup new.reserved.regions address = none
    rw [keeps.lookup_regions, lookup_nil]
  obtain ⟨before, kept⟩ := core.reserved
  have same (address : Nat) : old.map .reserved address = lookup before address :=
    kept.lookup_regions address
  have tiled (address : Nat) : (lookup before address).isSome = true ↔
      InArea old.reserved.area address := by
    rw [← same]
    constructor
    · intro found
      have gone := none address
      rw [grown.map address, relocate] at gone
      split_ifs at gone with fresh inside
      · exact inside
      rw [gone] at found
      cases found
    intro inside
    rw [core.own address inside]
    rfl
  have short := length_le_one kept.ordered kept.minimal
    (fun address flags found => core.plain address flags (by rw [same]; exact found)) tiled
  have count : old.reserved.cnt ≤ 1 := by
    rw [MemblockType.cnt, kept.shape]
    split
    · exact le_rfl
    exact short
  have big := core.reservedMax
  omega

/-- The reserved array after a call, with the memory array as it was. -/
structure After (old new : State) (growth : Nat) : Prop where
  core : Core new
  memory : new.memory = old.memory
  preserved : ∀ address, ¬ InArea old.reserved.area address →
    old.map .reserved address = some 0 → new.map .reserved address = some 0
  cnt : (new.reserved.max = old.reserved.max ∧ new.reserved.cnt ≤ old.reserved.cnt + growth) ∨
    (2 * old.reserved.max ≤ new.reserved.max ∧ new.reserved.cnt ≤ old.reserved.cnt + 4 + growth)

theorem After.refl (core : Core state) (growth : Nat) : After state state growth :=
  ⟨core, rfl, fun _ _ same => same, .inl ⟨rfl, Nat.le_add_right _ _⟩⟩

theorem Grown.after (grown : Grown env old new start size 4) (core : Core old) (growth : Nat) :
    After old new growth :=
  ⟨grown.core core, grown.memory, grown.preserved,
    .inr ⟨grown.max, grown.cnt.trans (Nat.le_add_right _ _)⟩⟩

variable {map : Nat → Option Flags}

/-- A change of the reserved array that keeps reserved memory reserved. -/
theorem Core.changed (core : Core state) {reserved : MemblockType}
    (changed : Changed state.reserved reserved map growth)
    (plain : ∀ address flags, map address = some flags → flags = 0)
    (own : ∀ address, InArea state.reserved.area address → map address = some 0) :
    Core (state.set .reserved reserved) := by
  obtain ⟨⟨spans, keeps, same⟩, max, home, _⟩ := changed
  have area : reserved.area = state.reserved.area := area_congr home max
  have maps (address : Nat) : (state.set .reserved reserved).map .reserved address =
      map address := by
    change lookup reserved.regions address = _
    rw [keeps.lookup_regions, same]
  refine ⟨core.memory, ⟨spans, keeps⟩, fun address flags found => ?_, core.memoryMax, ?_,
    core.memoryBound, ?_, fun address inside => ?_, ?_⟩
  · exact plain address flags (by rw [← maps]; exact found)
  · change 8 ≤ reserved.max
    rw [max]
    exact core.reservedMax
  · change reserved.area.2 ≤ _
    rw [area]
    exact core.reservedBound
  · change InArea reserved.area address at inside
    rw [area] at inside
    rw [maps]
    exact own address inside
  change Apart reserved.area _
  rw [area]
  exact core.apart

theorem overlay_plain (plain : ∀ address flags, map address = some flags → flags = 0)
    (base stop : Nat) :
    ∀ address flags, overlay map base stop 0 address = some flags → flags = 0 := by
  intro address flags found
  simp only [overlay, Option.or_eq_some_iff] at found
  rcases found with old | ⟨_, fresh⟩
  · exact plain address flags old
  split at fresh
  · exact (Option.some.inj fresh).symm
  cases fresh

variable {base stop : Nat}

/-- Inserting a range into a reserved array with room for its gaps. -/
theorem insertInto_reserved (core : Core state) (keeps : state.reserved.Keeps spans)
    (some_ : spans ≠ []) (top : stop ≤ ullongMax)
    (room : state.reserved.cnt + gaps stop base spans ≤ state.reserved.max) :
    ∃ new, insertInto state .reserved base stop 0 = .ok (new, .ok) ∧ Core new ∧
      new.memory = state.memory ∧
      (∀ address, state.map .reserved address = some 0 → new.map .reserved address = some 0) ∧
      new.reserved.max = state.reserved.max ∧
      new.reserved.cnt ≤ state.reserved.cnt + gaps stop base spans ∧ Covered new (base, stop) := by
  obtain ⟨type, ran, changed⟩ := insertInto_spec base 0
    (show (state.type .reserved).Keeps spans from keeps) some_ top room
  have same (address : Nat) : state.map .reserved address = lookup spans address :=
    keeps.lookup_regions address
  have plain : ∀ address flags, lookup spans address = some flags → flags = 0 :=
    fun address flags found => core.plain address flags (by rw [same]; exact found)
  have kept (address : Nat) (old : lookup spans address = some 0) :
      overlay (lookup spans) base stop 0 address = some 0 := by simp [overlay, old]
  have maps (address : Nat) : (state.set .reserved type).map .reserved address =
      overlay (lookup spans) base stop 0 address := by
    obtain ⟨after, holds, out⟩ := changed.keeps
    change lookup type.regions address = _
    rw [holds.lookup_regions, out]
  have out : Core (state.set .reserved type) := core.changed changed (overlay_plain plain base stop)
    (fun address inside => kept address (by rw [← same]; exact core.own address inside))
  refine ⟨_, ran, out, rfl, fun address old => ?_, changed.max, changed.cnt,
    fun address inside => ?_⟩
  · rw [maps]
    exact kept address (by rw [← same]; exact old)
  rw [maps, overlay]
  cases found : lookup spans address with
  | none => rw [if_pos (show base ≤ address ∧ address < stop from inside)]; rfl
  | some flags => rw [plain address flags found]; rfl

/-- The condition under which `memblock_reserve` is safe: if the array has to move, it does
not lie in the range, and the range does not start at zero with memblock looking for room. -/
def ReserveClean (env : Env) (memblock : State) (base size : Nat) : Prop :=
  memblock.reserved.max <
      memblock.reserved.cnt + gaps (base + capSize base size) base memblock.reserved.regions →
    (base ≠ 0 ∨ env.slabIsAvailable = true) ∧
      Apart (base, base + capSize base size) memblock.reserved.area

theorem reserve_spec (env : Env) (depth : Nat) (core : Core state) (wide : base ≤ ullongMax)
    (clean : ReserveClean env state base size)
    (known : ∀ address, InArea state.memory.area address →
      state.map .reserved address = some 0 ∨ InArea (base, base + capSize base size) address) :
    ∃ new status,
      addRange (doubleArray env (depth + 1)) state .reserved base size 0 = .ok (new, status) ∧
        After state new (gaps (base + capSize base size) base state.reserved.regions) ∧
        (status = .ok → Covered new (base, base + capSize base size)) := by
  obtain ⟨spans, keeps⟩ := core.reserved
  have top := cap_le wide size
  have big := core.reservedMax
  by_cases sized : capSize base size = 0
  · refine ⟨state, .ok, by simp only [addRange, if_pos sized], After.refl core _,
      fun _ address inside => ?_⟩
    simp only [InArea] at inside
    omega
  have counted := keeps.toHolds.gaps_regions (base + capSize base size) base (by omega)
  by_cases empty : spans = []
  · -- the dummy entry is replaced; no doubling is ever needed
    subst empty
    obtain ⟨type, ran, changed⟩ := addRange_empty (doubleArray env (depth + 1)) 0
      (show (state.type .reserved).Keeps [] from keeps) wide sized
    have unseen (address : Nat) : state.map .reserved address = none :=
      (keeps.lookup_regions address).trans (lookup_nil address)
    have own (address : Nat) (inside : InArea state.reserved.area address) :
        overlay (lookup []) base (base + capSize base size) 0 address = some 0 := by
      have covered := core.own address inside
      rw [unseen] at covered
      cases covered
    refine ⟨_, _, ran, ⟨core.changed changed
      (overlay_plain (fun _ _ found => by cases found) _ _) own, rfl, fun address _ old => ?_,
      .inl ⟨changed.max, changed.cnt.trans (Nat.le_add_right _ _)⟩⟩, fun _ address inside => ?_⟩
    · rw [unseen] at old
      cases old
    obtain ⟨after, holds, out⟩ := changed.keeps
    change lookup type.regions address = _
    rw [holds.lookup_regions, out, overlay, if_pos (show base ≤ address ∧ _ from inside)]
    rfl
  have length : state.reserved.cnt = spans.length := by rw [cnt, keeps.regions_eq empty]
  have few := gaps_le (base + capSize base size) base spans
  have fits := keeps.fits
  rw [addRange_eq _ 0 (show (state.type .reserved).Keeps spans from keeps) empty sized]
  have growth := growWhile_reserved env depth base (capSize base size) keeps big core.reservedBound
    (show gaps (base + capSize base size) base spans ≤ state.reserved.max + 1 by omega)
  rw [ReserveClean, counted] at clean
  rw [counted]
  generalize growWhile (doubleArray env (depth + 1)) .reserved
    (gaps (base + capSize base size) base spans) base (capSize base size) 3 state = outcome
    at growth ⊢
  cases growth with
  | kept enough fits must =>
    cases enough with
    | false => exact ⟨state, .noMem, rfl, After.refl core _, fun flag => by cases flag⟩
    | true => ?_
    obtain ⟨new, ran, out, memory, preserved, max, count, covered⟩ :=
      insertInto_reserved core keeps empty top (fits rfl)
    exact ⟨new, .ok, ran, ⟨out, memory, fun address _ => preserved address, .inl ⟨max, count⟩⟩,
      fun _ => covered⟩
  | grown middle must moved enough fits =>
    cases enough with
    | false => exact ⟨middle, .noMem, rfl, moved.after core _, fun flag => by cases flag⟩
    | true => ?_
    obtain ⟨nonzero, outside⟩ := clean must
    obtain ⟨left, kept⟩ := moved.keeps
    have some_ := moved.nonempty core must (by omega) kept
    -- neither the old nor the new place of the array lies in the range
    have same : gaps (base + capSize base size) base left =
        gaps (base + capSize base size) base spans := by
      apply gaps_congr kept.ordered keeps.ordered
      intro address low high
      have inside : InArea (base, base + capSize base size) address := ⟨low, high⟩
      rw [← kept.lookup_regions, ← keeps.lookup_regions]
      change (middle.map .reserved address).isSome = (state.map .reserved address).isSome
      rw [moved.map address, relocate, if_neg (outside address inside),
        if_neg (fun new => moved.clear nonzero address new inside)]
    obtain ⟨new, ran, out, memory, preserved, max, count, covered⟩ :=
      insertInto_reserved (moved.core core) kept some_ top
        (show middle.reserved.cnt + gaps (base + capSize base size) base left ≤
          middle.reserved.max by rw [same]; exact fits rfl)
    have max' := moved.max
    have count' := moved.cnt
    exact ⟨new, .ok, ran, ⟨out, memory.trans moved.memory,
      fun address apart old => preserved address (moved.preserved address apart old),
      .inr ⟨by omega, by omega⟩⟩, fun _ => covered⟩
  | overlap last must moved doubled => ?_
  exfalso
  obtain ⟨nonzero, outside⟩ := clean must
  rcases moved with rfl | moved
  · exact Doubled.no_overlap core nonzero known doubled
  refine Doubled.no_overlap (moved.core core) nonzero (fun address inside => ?_) doubled
  rw [moved.memory] at inside
  rcases known address inside with covered | ranged
  · exact .inl (moved.preserved address (fun own => core.apart address own inside) covered)
  exact .inr ranged

/-- The condition under which giving back a range is safe: it holds no part of the array, and
if the array has to move, the range does not start at zero with memblock looking for room,
which then must not find it on the memory array. -/
structure FreeClean (env : Env) (memblock : State) (base size : Nat) : Prop where
  outside : Apart (base, base + capSize base size) memblock.reserved.area
  nonzero : memblock.reserved.max < memblock.reserved.cnt + 2 →
    base ≠ 0 ∨ env.slabIsAvailable = true
  known : memblock.reserved.max < memblock.reserved.cnt + 2 → env.slabIsAvailable = false →
    Covered memblock memblock.memory.area

/-- Reserved memory outside the range is still reserved after the range is given back. -/
structure Freed (old new : State) (base stop : Nat) : Prop where
  core : Core new
  memory : new.memory = old.memory
  preserved : ∀ address, ¬ InArea old.reserved.area address → ¬ InArea (base, stop) address →
    old.map .reserved address = some 0 → new.map .reserved address = some 0

theorem removeIn_reserved (core : Core state) (range : base < stop)
    (outside : Apart (base, stop) state.reserved.area)
    (room : state.reserved.cnt + 2 ≤ state.reserved.max) :
    ∃ new, removeIn state .reserved base stop = .ok (new, .ok) ∧ Core new ∧
      new.memory = state.memory ∧
      ∀ address, ¬ InArea (base, stop) address → state.map .reserved address = some 0 →
        new.map .reserved address = some 0 := by
  obtain ⟨spans, keeps⟩ := core.reserved
  obtain ⟨type, ran, changed⟩ :=
    removeIn_spec (show (state.type .reserved).Keeps spans from keeps) range room
  have same (address : Nat) : state.map .reserved address = lookup spans address :=
    keeps.lookup_regions address
  have kept (address : Nat) (apart : ¬ InArea (base, stop) address)
      (old : lookup spans address = some 0) : clear (lookup spans) base stop address = some 0 := by
    rw [clear, if_neg (show ¬ (base ≤ address ∧ address < stop) from apart)]
    exact old
  refine ⟨_, ran, core.changed changed (fun address flags found => ?_) (fun address inside => ?_),
    rfl, fun address apart old => ?_⟩
  · simp only [clear] at found
    split at found
    · cases found
    exact core.plain address flags (by rw [same]; exact found)
  · exact kept address (fun ranged => outside address ranged inside)
      (by rw [← same]; exact core.own address inside)
  obtain ⟨after, holds, out⟩ := changed.keeps
  change lookup type.regions address = _
  rw [holds.lookup_regions, out]
  exact kept address apart (by rw [← same]; exact old)

theorem free_spec (env : Env) (depth : Nat) (core : Core state)
    (clean : FreeClean env state base size) :
    ∃ new status, removeRange (doubleArray env (depth + 1)) state .reserved base size =
        .ok (new, status) ∧ Freed state new base (base + capSize base size) := by
  obtain ⟨spans, keeps⟩ := core.reserved
  have big := core.reservedMax
  have same : Freed state state base (base + capSize base size) := ⟨core, rfl, fun _ _ _ old => old⟩
  by_cases sized : capSize base size = 0
  · exact ⟨state, .ok, by simp only [removeRange, isolateRange, if_pos sized, bind, Except.bind,
      Nat.sub_self, removeRegions, State.set_type], same⟩
  have range : base < base + capSize base size := by omega
  rw [removeRange_eq _ _ _ sized]
  have growth := growWhile_reserved env depth base (capSize base size) keeps big core.reservedBound
    (show 2 ≤ state.reserved.max + 1 by omega)
  generalize growWhile (doubleArray env (depth + 1)) .reserved 2 base (capSize base size) 3 state =
    outcome at growth ⊢
  cases growth with
  | kept enough fits must =>
    cases enough with
    | false => exact ⟨state, .noMem, rfl, same⟩
    | true => ?_
    obtain ⟨new, ran, out, memory, preserved⟩ :=
      removeIn_reserved core range clean.outside (fits rfl)
    exact ⟨new, .ok, ran, out, memory, fun address _ => preserved address⟩
  | grown middle must moved enough fits =>
    have relocated : Freed state middle base (base + capSize base size) :=
      ⟨moved.core core, moved.memory, fun address apart _ => moved.preserved address apart⟩
    cases enough with
    | false => exact ⟨middle, .noMem, rfl, relocated⟩
    | true => ?_
    obtain ⟨new, ran, out, memory, preserved⟩ := removeIn_reserved (moved.core core) range
      (fun address ranged inside => moved.clear (clean.nonzero must) address inside ranged)
      (fits rfl)
    exact ⟨new, .ok, ran, out, memory.trans moved.memory, fun address apart ranged old =>
      preserved address ranged (moved.preserved address apart old)⟩
  | overlap last must moved doubled => ?_
  exfalso
  have noSlab : env.slabIsAvailable = false := by
    cases doubled with
    | overlap _ _ noSlab => exact noSlab
  rcases moved with rfl | moved
  · exact Doubled.no_overlap core (clean.nonzero must)
      (fun address inside => .inl (clean.known must noSlab address inside)) doubled
  refine Doubled.no_overlap (moved.core core) (clean.nonzero must) (fun address inside => .inl ?_)
    doubled
  rw [moved.memory] at inside
  exact moved.preserved address (fun own => core.apart address own inside)
    (clean.known must noSlab address inside)

end TinyKernel.Memblock
