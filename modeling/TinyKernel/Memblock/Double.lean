import Mathlib.Tactic.Ring
import TinyKernel.Memblock.Calls

/-! `memblock_double_array` on the reserved array. The array is moved, its old memory is
given back and its new memory reserved, so the map it holds changes in exactly these
two areas. -/

namespace TinyKernel.Memblock

open Lib Span MemblockType

def InArea (area : Nat × Nat) (address : Nat) : Prop := area.1 ≤ address ∧ address < area.2

instance (area : Nat × Nat) (address : Nat) : Decidable (InArea area address) :=
  inferInstanceAs (Decidable (_ ∧ _))

/-- The flags by address that one of the arrays stands for. -/
def State.map (memblock : State) (kind : Kind) : Nat → Option Flags :=
  lookup (memblock.type kind).regions

/-- The reserved map after its array moved from one area to another. -/
def relocate (old new : Nat × Nat) (map : Nat → Option Flags) (address : Nat) : Option Flags :=
  if InArea new address then some 0
  else if InArea old address then none
  else map address

theorem not_inArea_of_apart (apart : areasMeet first second = false)
    (inside : InArea first address) : ¬ InArea second address := by
  simp only [areasMeet, decide_eq_false_iff_not, InArea] at *
  omega

/-- The reserved array after one or more doublings, all asked to stay clear of the `size`
bytes from `start`. They do so unless memblock has to find room and `start` is zero. -/
structure Grown (env : Env) (old new : State) (start size growth : Nat) : Prop where
  memory : new.memory = old.memory
  keeps : ∃ spans, new.reserved.Keeps spans
  max : 2 * old.reserved.max ≤ new.reserved.max
  cnt : new.reserved.cnt ≤ old.reserved.cnt + growth
  map : ∀ address, new.map .reserved address =
    relocate old.reserved.area new.reserved.area (old.map .reserved) address
  fresh : ∀ address, InArea new.reserved.area address →
    old.map .reserved address = none ∨ InArea old.reserved.area address
  apart : areasMeet new.reserved.area old.memory.area = false
  clear : start ≠ 0 ∨ env.slabIsAvailable = true → ∀ address,
    InArea new.reserved.area address → ¬ (start ≤ address ∧ address < start + size)
  bounded : new.reserved.area.2 ≤ ullongMax

/-- How a doubling of the reserved array can end. -/
inductive Doubled (env : Env) (old : State) (start size : Nat) :
    Except Fault (State × Bool) → Prop where
  | failed : Doubled env old start size (.ok (old, false))
  | overlap (addr bytes : Nat) (noSlab : env.slabIsAvailable = false) (sized : 0 < bytes)
      (free : Free old.reserved.regions addr (addr + bytes))
      (clear : start ≠ 0 → addr + bytes ≤ start ∨ start + size ≤ addr)
      (meets : areasMeet (addr, addr + bytes) old.memory.area = true ∨
        areasMeet (addr, addr + bytes) old.reserved.area = true) :
      Doubled env old start size (.error .overlap)
  | moved (new : State) (grown : Grown env old new start size 2) :
      Doubled env old start size (.ok (new, true))

theorem MemblockType.area_congr {first second : MemblockType} (home : first.home = second.home)
    (max : first.max = second.max) : first.area = second.area := by
  simp only [area, home, max]

variable {spans : List Region}

/-- Giving back the memory of an old array, through a reserved array with room. -/
theorem freeArray_spec (double : Double) (keeps : state.reserved.Keeps spans)
    (room : (∃ addr, type.home = .memblock addr) → state.reserved.cnt + 2 ≤ state.reserved.max)
    (bounded : type.area.2 ≤ ullongMax) :
    ∃ reserved, freeArray double type state = .ok (state.set .reserved reserved) ∧
      Changed state.reserved reserved (clear (lookup spans) type.area.1 type.area.2) 1 := by
  have kept : (state.type .reserved).Keeps spans := keeps
  have unchanged : state.set .reserved state.reserved = state := rfl
  have nothing : clear (lookup spans) 0 0 = lookup spans := clear_nothing (lookup spans) 0
  unfold freeArray
  cases home : type.home with
  | memblock addr =>
    have area : type.area = (addr, addr + pageAlign (type.max * regionBytes)) := by
      simp only [area, home]
    rw [area] at bounded ⊢
    have whole : capSize addr (pageAlign (type.max * regionBytes)) =
        pageAlign (type.max * regionBytes) := by
      simp only [capSize] at bounded ⊢
      omega
    obtain ⟨reserved, ran, changed⟩ := removeRange_fits double kept (room ⟨addr, home⟩)
    rw [whole] at changed
    exact ⟨reserved, by simp only [ran, bind, Except.bind], changed⟩
  | static =>
    have area : type.area = (0, 0) := by simp only [area, home]
    rw [area, nothing]
    exact ⟨state.reserved, by rw [unchanged], Changed.refl keeps (fun _ => rfl) _⟩
  | slab => ?_
  have area : type.area = (0, 0) := by simp only [area, home]
  rw [area, nothing]
  exact ⟨state.reserved, by rw [unchanged], Changed.refl keeps (fun _ => rfl) _⟩

variable {size start few more : Nat}

theorem pageAlign_pos (sized : 0 < size) : 0 < pageAlign size := by
  simp only [pageAlign, pageSize]
  omega

theorem MemblockType.Keeps.moveTo {type : MemblockType} (keeps : type.Keeps spans) (home : Home) :
    (type.moveTo home).Keeps spans :=
  ⟨⟨keeps.shape, keeps.ordered, keeps.bounded, keeps.totalSize⟩, keeps.minimal,
    keeps.fits.trans (Nat.le_mul_of_pos_right _ Nat.two_pos)⟩

variable {env : Env}

section

variable {state : State} {spans : List Region} (keeps : state.reserved.Keeps spans)
variable (big : 4 ≤ state.reserved.max) (bounded : state.reserved.area.2 ≤ ullongMax)
include keeps big bounded

/-- The reserved array moves to the slab. -/
theorem grown_slab (env : Env) (double : Double) (start size : Nat) :
    ∃ new, freeArray double state.reserved (state.set .reserved (state.reserved.moveTo .slab)) =
        .ok new ∧ Grown env state new start size 2 := by
  have fits := keeps.fits
  obtain ⟨reserved, ran, ⟨left, kept, same⟩, max, home, count⟩ := freeArray_spec double
    (show (state.set .reserved (state.reserved.moveTo .slab)).reserved.Keeps spans from
      keeps.moveTo .slab)
    (fun _ => show state.reserved.cnt + 2 ≤ state.reserved.max * 2 by omega) bounded
  have area : reserved.area = (0, 0) := by simp only [area, home]; rfl
  have out (address : Nat) : ¬ InArea reserved.area address := by
    rw [area]
    simp [InArea]
  refine ⟨_, ran, rfl, ⟨left, kept⟩, ?_, Nat.le_succ_of_le count, fun address => ?_,
    fun address inside => absurd inside (out address), ?_,
    fun _ address inside => absurd inside (out address), ?_⟩
  · rw [Nat.mul_comm]
    exact max.ge
  · change lookup reserved.regions address = relocate _ reserved.area _ address
    rw [kept.lookup_regions, same, relocate, if_neg (out address)]
    simp only [clear, InArea, State.map, State.type, keeps.lookup_regions]
  · change areasMeet reserved.area _ = false
    rw [area]
    simp [areasMeet]
  change reserved.area.2 ≤ _
  rw [area]
  exact Nat.zero_le _

/-- The reserved array moves to free memory, which it then reserves. -/
theorem grown_memblock (noSlab : env.slabIsAvailable = false) (double : Double)
    (free :
      Free state.reserved.regions addr (addr + pageAlign (state.reserved.max * regionBytes * 2)))
    (top : addr + pageAlign (state.reserved.max * regionBytes * 2) ≤ ullongMax)
    (avoids : start ≠ 0 →
      addr + pageAlign (state.reserved.max * regionBytes * 2) ≤ start ∨ start + size ≤ addr)
    (apart : areasMeet (addr, addr + pageAlign (state.reserved.max * regionBytes * 2))
        state.memory.area = false) :
    ∃ middle new, freeArray double state.reserved
          (state.set .reserved (state.reserved.moveTo (.memblock addr))) = .ok middle ∧
      addRange double middle .reserved addr (pageAlign (state.reserved.max * regionBytes * 2)) 0 =
        .ok (new, .ok) ∧ Grown env state new start size 2 := by
  have fits := keeps.fits
  have bytes := pageAlign_pos (show 0 < state.reserved.max * regionBytes * 2 by
    simp only [regionBytes]; omega)
  generalize newAllocSize : pageAlign (state.reserved.max * regionBytes * 2) = alloc at *
  obtain ⟨reserved, ran, ⟨left, kept, same⟩, max, home, count⟩ := freeArray_spec double
    (show (state.set .reserved (state.reserved.moveTo (.memblock addr))).reserved.Keeps spans
      from keeps.moveTo (.memblock addr))
    (fun _ => show state.reserved.cnt + 2 ≤ state.reserved.max * 2 by omega) bounded
  have max' : reserved.max = state.reserved.max * 2 := max
  have count' : reserved.cnt ≤ state.reserved.cnt + 1 := count
  -- the new area is still free, so reserving it inserts one entry
  have unseen (address : Nat) (inside : addr ≤ address ∧ address < addr + alloc) :
      lookup left address = none := by
    have old := free address inside.1 inside.2
    rw [keeps.lookup_regions] at old
    rw [same, clear]
    split <;> simp [old]
  have whole : capSize addr alloc = alloc := by simp only [capSize]; omega
  have gap : gaps (addr + capSize addr alloc) addr left = 1 := by
    rw [gaps_of_free kept.ordered (fun address low high =>
      unseen address ⟨low, by rwa [whole] at high⟩), whole, if_pos (by omega)]
  obtain ⟨final, added, ⟨last, holds, res⟩, max₂, home₂, count₂⟩ := addRange_fits double 0
    (show ((state.set .reserved (state.reserved.moveTo (.memblock addr))).set .reserved
      reserved |>.type .reserved).Keeps left from kept) (show addr ≤ ullongMax by omega)
    (by
      rw [gap]
      change reserved.cnt + 1 ≤ reserved.max
      omega)
  have finalMax : final.max = state.reserved.max * 2 := max₂.trans max'
  have area : final.area = (addr, addr + alloc) := by
    have home' : final.home = .memblock addr := home₂.trans home
    have arithmetic : state.reserved.max * 2 * regionBytes =
        state.reserved.max * regionBytes * 2 := by
      ring
    simp only [area, home', finalMax, arithmetic, newAllocSize]
  rw [gap] at count₂
  have count₃ : final.cnt ≤ reserved.cnt + 1 := count₂
  refine ⟨_, _, ran, added, rfl, ⟨last, holds⟩, ?_, ?_, fun address => ?_, fun address inside => ?_,
    ?_, fun ne address inside => ?_, ?_⟩
  · change 2 * state.reserved.max ≤ final.max
    omega
  · change final.cnt ≤ state.reserved.cnt + 2
    omega
  · change lookup final.regions address = relocate _ final.area _ address
    rw [holds.lookup_regions, res, overlay, relocate, area, whole]
    by_cases inside : addr ≤ address ∧ address < addr + alloc
    · rw [unseen address inside, if_pos inside,
        if_pos (show InArea (addr, addr + alloc) address from inside)]
      rfl
    rw [if_neg inside, if_neg (show ¬ InArea (addr, addr + alloc) address from inside),
      Option.or_none, same]
    simp only [clear, InArea, State.map, State.type, keeps.lookup_regions]
  · change InArea final.area address at inside
    rw [area] at inside
    exact .inl (free address inside.1 inside.2)
  · change areasMeet final.area _ = false
    rw [area]
    exact apart
  · change InArea final.area address at inside
    rw [area] at inside
    simp only [InArea] at inside
    have := avoids (ne.resolve_right (by simp [noSlab]))
    omega
  change final.area.2 ≤ _
  rw [area]
  exact top

/-- Doubling the reserved array never nests another doubling: a call on an array just
doubled always has room. -/
theorem doubleArray_reserved (env : Env) (depth start size : Nat) :
    Doubled env state start size (doubleArray env (depth + 1) .reserved start size state) := by
  have bytes := pageAlign_pos (show 0 < state.reserved.max * regionBytes * 2 by
    simp only [regionBytes]; omega)
  change Doubled env state start size
    (doubleOnce env (doubleArray env depth) .reserved state.reserved start size state)
  unfold doubleOnce
  by_cases resize : env.canResize
  · simp only [resize, Bool.not_true, Bool.false_eq_true, if_false]
    by_cases slab : env.slabIsAvailable
    · simp only [slab, if_true]
      by_cases found : env.kmalloc .reserved (state.reserved.max * regionBytes * 2)
      · obtain ⟨new, ran, grown⟩ :=
          grown_slab keeps big bounded env (doubleArray env depth) start size
        simp only [found, if_true, ran, bind, Except.bind]
        exact .moved new grown
      simp only [found, Bool.false_eq_true, if_false]
      exact .failed
    have noSlab : env.slabIsAvailable = false := by simpa using slab
    simp only [slab, Bool.false_eq_true, if_false]
    split
    · exact .failed
    rename_i gone
    obtain ⟨free, top, _, avoids⟩ := findArray_spec keeps.toHolds.sorted bytes gone
    split
    · rename_i meets
      exact .overlap _ _ noSlab bytes free (avoids rfl) (Bool.or_eq_true_iff.mp meets)
    rename_i apart
    simp only [Bool.or_eq_true, not_or, Bool.not_eq_true] at apart
    obtain ⟨middle, new, ran, added, grown⟩ := grown_memblock keeps big bounded
      noSlab (doubleArray env depth) free top (avoids rfl) apart.1
    simp only [ran, added, bind, Except.bind]
    exact .moved new grown
  simp only [resize]
  exact .failed

end

/-- Two doublings in a row: the area in between is as it was. -/
theorem Grown.trans (one : Grown env first second start size few)
    (two : Grown env second third start size more) :
    Grown env first third start size (few + more) := by
  have max₁ := one.max
  have max₂ := two.max
  have count₁ := one.cnt
  have count₂ := two.cnt
  refine ⟨two.memory.trans one.memory, two.keeps, by omega, by omega, fun address => ?_,
    fun address inside => ?_, one.memory ▸ two.apart, two.clear, two.bounded⟩
  · rw [two.map address, relocate, relocate]
    by_cases last : InArea third.reserved.area address
    · rw [if_pos last, if_pos last]
    rw [if_neg last, if_neg last]
    by_cases between : InArea second.reserved.area address
    · rw [if_pos between]
      rcases one.fresh address between with free | old
      · split
        · rfl
        exact free.symm
      rw [if_pos old]
    rw [if_neg between, one.map address, relocate, if_neg between]
  rcases two.fresh address inside with free | between
  · rw [one.map address, relocate] at free
    split_ifs at free with new old
    · exact .inr old
    exact .inl free
  exact one.fresh address between

/-- How the growth loop on the reserved array can end. -/
inductive Growth (env : Env) (old : State) (extra start size : Nat) :
    Except Fault (State × Bool) → Prop where
  | kept (enough : Bool) (fits : enough = true → old.reserved.cnt + extra ≤ old.reserved.max)
      (must : enough = false → old.reserved.max < old.reserved.cnt + extra) :
      Growth env old extra start size (.ok (old, enough))
  | grown (new : State) (must : old.reserved.max < old.reserved.cnt + extra)
      (moved : Grown env old new start size 4) (enough : Bool)
      (fits : enough = true → new.reserved.cnt + extra ≤ new.reserved.max) :
      Growth env old extra start size (.ok (new, enough))
  | overlap (last : State) (must : old.reserved.max < old.reserved.cnt + extra)
      (moved : last = old ∨ Grown env old last start size 2)
      (doubled : Doubled env last start size (.error .overlap)) :
      Growth env old extra start size (.error .overlap)

theorem Grown.weaken (grown : Grown env old new start size few) (less : few ≤ more) :
    Grown env old new start size more :=
  ⟨grown.memory, grown.keeps, grown.max, grown.cnt.trans (by omega), grown.map, grown.fresh,
    grown.apart, grown.clear, grown.bounded⟩

theorem growWhile_reserved (env : Env) (depth start size : Nat) (keeps : state.reserved.Keeps spans)
    (big : 8 ≤ state.reserved.max) (bounded : state.reserved.area.2 ≤ ullongMax)
    (few : extra ≤ state.reserved.max + 1) :
    Growth env state extra start size
      (growWhile (doubleArray env (depth + 1)) .reserved extra start size 3 state) := by
  have fits := keeps.fits
  change Growth env state extra start size
    (if state.reserved.max < state.reserved.cnt + extra then _ else _)
  split
  · rename_i must
    have first := doubleArray_reserved keeps (by omega) bounded env depth start size
    generalize doubleArray env (depth + 1) .reserved start size state = outcome at first
    cases first with
    | failed => exact .kept false (fun flag => by cases flag) (fun _ => must)
    | overlap addr bytes noSlab sized free clear meets =>
      exact .overlap state must (.inl rfl) (.overlap addr bytes noSlab sized free clear meets)
    | moved new grown => ?_
    obtain ⟨spans₁, keeps₁⟩ := grown.keeps
    have max₁ := grown.max
    have count₁ := grown.cnt
    simp only [bind, Except.bind, if_true]
    change Growth env state extra start size
      (if new.reserved.max < new.reserved.cnt + extra then _ else _)
    split
    · have second := doubleArray_reserved keeps₁ (by omega) grown.bounded env depth start size
      generalize doubleArray env (depth + 1) .reserved start size new = outcome at second
      cases second with
      | failed => exact .grown new must (grown.weaken (by omega)) false (fun flag => by cases flag)
      | overlap addr bytes noSlab sized free clear meets =>
        exact .overlap new must (.inr grown) (.overlap addr bytes noSlab sized free clear meets)
      | moved last again => ?_
      -- the array is now four times as large, which is always enough
      have max₂ := again.max
      have count₂ := again.cnt
      have enough : ¬ (last.type .reserved).max < (last.type .reserved).cnt + extra := by
        change ¬ last.reserved.max < last.reserved.cnt + extra
        omega
      simp only [bind, Except.bind, if_true]
      rw [growWhile, if_neg enough]
      exact .grown last must (grown.trans again) true
        (fun _ => show last.reserved.cnt + extra ≤ last.reserved.max by omega)
    exact .grown new must (grown.weaken (by omega)) true (fun _ => by omega)
  exact .kept true (fun _ => by omega) (fun flag => by cases flag)

end TinyKernel.Memblock
