import Mathlib.Order.Lattice.Nat
import TinyKernel.Memblock.Find

/-! `memblock_add_range` and `memblock_remove_range` once the array is large enough. Both
are described by what they do to the map from addresses to flags. -/

namespace TinyKernel.Memblock

open Lib Span Nat MemblockType
open List hiding after lookup lookup_nil

/-- The array is in order: it holds these spans, they are minimal, and they fit. -/
structure MemblockType.Keeps (type : MemblockType) (spans : List Region) :
    Prop extends type.Holds spans where
  minimal : Minimal spans
  fits : type.cnt ≤ type.max

@[simp] theorem State.type_set (state : State) (kind : Kind) (type : MemblockType) :
    (state.set kind type).type kind = type := by
  cases kind <;> rfl

theorem State.set_type (state : State) (kind : Kind) :
    state.set kind (state.type kind) = state := by
  cases kind <;> rfl

section

variable (state : State) (type : MemblockType)
include state type

@[simp] theorem State.reserved_set_reserved : (state.set .reserved type).reserved = type := rfl

end

/-- The map with a range added where nothing was. -/
def overlay (old : Nat → Option Flags) (base stop : Nat) (flags : Flags) (address : Nat) :
    Option Flags :=
  (old address).or (if base ≤ address ∧ address < stop then some flags else none)

/-- The map with a range taken out. -/
def clear (old : Nat → Option Flags) (base stop : Nat) (address : Nat) : Option Flags :=
  if base ≤ address ∧ address < stop then none else old address

theorem toNat_le_ullongMax (value : UInt64) : value.toNat ≤ ullongMax :=
  le_of_lt_succ value.toNat_lt

variable {base stop size : Nat}

theorem cap_le (wide : base ≤ ullongMax) (size : Nat) : base + capSize base size ≤ ullongMax := by
  simp only [capSize]
  omega

variable {type : MemblockType} {spans : List Region}

theorem MemblockType.Holds.gaps_regions (holds : type.Holds spans) (stop base : Nat)
    (range : base < stop) : gaps stop base type.regions = gaps stop base spans := by
  rw [holds.shape]
  split
  · rename_i empty
    rw [empty]
    have low : ¬ stop ≤ dummy.base := by simp only [dummy]; omega
    have past : dummy.limit ≤ base := zero_le _
    simp [gaps, if_pos past]
  rfl

theorem bounded_fill {flags : Flags} (top : stop ≤ ullongMax)
    (bounded : ∀ span ∈ spans, span.limit ≤ ullongMax) :
    ∀ span ∈ fill flags stop base spans, span.limit ≤ ullongMax := by
  have small {base point : Nat} (top : point ≤ ullongMax) :
      ∀ span ∈ piece flags base point, span.limit ≤ ullongMax := by
    intro span mem
    unfold piece at mem
    split at mem
    · obtain rfl := mem_singleton.mp mem
      simp only [limit]
      omega
    simp at mem
  induction spans generalizing base with
  | nil => exact small top
  | cons head rest ih => ?_
  have first := bounded head (by simp)
  have later (base : Nat) (span : Region) (mem : span ∈ fill flags stop base rest) :
      span.limit ≤ ullongMax :=
    ih (fun span mem => bounded span (by simp [mem])) span mem
  intro span mem
  simp only [fill] at mem
  split_ifs at mem
  · rcases mem_append.mp mem with new | old
    · exact small top span new
    exact bounded span old
  · rcases mem_cons.mp mem with rfl | inRest
    · exact first
    exact later base span inRest
  rcases mem_append.mp mem with new | old
  · exact small (by omega) span new
  rcases mem_cons.mp old with rfl | inRest
  · exact first
  exact later _ span inRest

/-- Spans that cover no new address stay below the end of the address space. -/
theorem bounded_of_covered (order : Ordered low new)
    (bounded : ∀ span ∈ spans, span.limit ≤ ullongMax)
    (within : ∀ address, (lookup new address).isSome = true →
      (lookup spans address).isSome = true) : ∀ span ∈ new, span.limit ≤ ullongMax := by
  intro span mem
  -- the last address of the span is covered by one of the old ones
  have sized := (order.base_le mem).2
  have inside : span.Covers (span.limit - 1) := by simp only [Span.Covers, limit]; omega
  obtain ⟨old, inOld, covers⟩ :=
    lookup_isSome.mp (within (span.limit - 1) (by rw [order.lookup_eq mem inside]; rfl))
  have top := bounded old inOld
  simp only [Span.Covers, limit] at *
  omega

/-- The inserting round and the merge, on an array that holds something. -/
theorem insert_spec (base stop : Nat) (flags : Flags) (keeps : type.Keeps spans)
    (some : spans ≠ []) (room : type.cnt + gaps stop base spans ≤ type.max) :
    (addRound true type base stop flags >>= fun pair => mergeRegions pair.1) = .ok { type with
        regions := coalesce (fill flags stop base spans)
        totalSize := type.totalSize + added stop base spans } := by
  have shape := keeps.regions_eq some
  rw [addRound_insert stop flags type base keeps.fits, shape, if_pos room]
  exact mergeRegions_eq (ordered_fill (zero_le _) keeps.ordered)

/-- What the array holds after the insertion. -/
theorem keeps_fill (base : Nat) (flags : Flags) (keeps : type.Keeps spans) (some : spans ≠ [])
    (top : stop ≤ ullongMax) (room : type.cnt + gaps stop base spans ≤ type.max) :
    let next : MemblockType := { type with
      regions := coalesce (fill flags stop base spans)
      totalSize := type.totalSize + added stop base spans }
    next.Keeps (coalesce (fill flags stop base spans)) ∧
      next.cnt ≤ type.cnt + gaps stop base spans ∧
      ∀ address, lookup (coalesce (fill flags stop base spans)) address =
        overlay (lookup spans) base stop flags address := by
  have order : Ordered 0 (fill flags stop base spans) := ordered_fill (zero_le _) keeps.ordered
  obtain ⟨kept, same, minimal, sum, shorter⟩ := coalesce_spec order
  have length : (coalesce (fill flags stop base spans)).length ≤
      type.cnt + gaps stop base spans := by
    rw [length_fill] at shorter
    rwa [cnt, keeps.regions_eq some]
  have nonempty : coalesce (fill flags stop base spans) ≠ [] := by
    intro empty
    cases spans with
    | nil => exact some rfl
    | cons span rest => ?_
    have covered := same span.base
    rw [empty, lookup_nil, lookup_fill stop base span.base keeps.ordered,
      keeps.ordered.lookup_eq (.head _)
        ⟨le_rfl, Nat.lt_add_of_pos_right keeps.ordered.2.1⟩] at covered
    cases covered
  refine ⟨⟨⟨?_, kept, bounded_of_covered kept (bounded_fill top keeps.bounded)
      (fun address => by rw [same]; exact id), ?_⟩, minimal, ?_⟩,
    length, fun address => ?_⟩
  · rw [if_neg nonempty]
  · rw [sum, total_fill, keeps.totalSize]
  · exact length.trans room
  rw [same, lookup_fill stop base address keeps.ordered]
  rfl

/-- An array after a call that did not move it: it holds the given map, in at most `growth`
more entries. -/
structure Changed (old new : MemblockType) (map : Nat → Option Flags) (growth : Nat) : Prop where
  keeps : ∃ spans, new.Keeps spans ∧ ∀ address, lookup spans address = map address
  max : new.max = old.max
  home : new.home = old.home
  cnt : new.cnt ≤ old.cnt + growth

theorem Changed.refl (keeps : type.Keeps spans) {map : Nat → Option Flags}
    (same : ∀ address, lookup spans address = map address) (growth : Nat) :
    Changed type type map growth :=
  ⟨⟨spans, keeps, same⟩, rfl, rfl, le_add_right _ _⟩

/-- The part of `memblock_add_range` after the array was grown. -/
def insertInto (memblock : State) (kind : Kind) (base stop : Nat) (flags : Flags) :
    Except Fault (State × Status) := do
  let (type, _) ← addRound true (memblock.type kind) base stop flags
  let type ← mergeRegions type
  .ok (memblock.set kind type, .ok)

variable {state : State} {kind : Kind}

theorem insertInto_of {flags : Flags}
    (inserted : (addRound true (state.type kind) base stop flags >>=
        fun pair => mergeRegions pair.1) = .ok type) :
    insertInto state kind base stop flags = .ok (state.set kind type, .ok) := by
  have unfolded : insertInto state kind base stop flags =
      ((addRound true (state.type kind) base stop flags >>= fun pair => mergeRegions pair.1) >>=
        fun type => .ok (state.set kind type, .ok)) := by
    simp only [insertInto, bind, Except.bind]
    cases addRound true (state.type kind) base stop flags <;> rfl
  rw [unfolded, inserted]
  rfl

theorem insertInto_spec (base : Nat) (flags : Flags) (keeps : (state.type kind).Keeps spans)
    (some : spans ≠ []) (top : stop ≤ ullongMax)
    (room : (state.type kind).cnt + gaps stop base spans ≤ (state.type kind).max) :
    ∃ type, insertInto state kind base stop flags = .ok (state.set kind type, .ok) ∧
      Changed (state.type kind) type (overlay (lookup spans) base stop flags)
        (gaps stop base spans) := by
  obtain ⟨kept, count, same⟩ := keeps_fill base flags keeps some top room
  exact ⟨_, insertInto_of (insert_spec base stop flags keeps some room), ⟨_, kept, same⟩, rfl, rfl,
    count⟩

/-- `memblock_add_range` counts the gaps, grows the array for them, and inserts. -/
theorem addRange_eq (double : Double) (flags : Flags) (keeps : (state.type kind).Keeps spans)
    (some : spans ≠ []) (sized : capSize base size ≠ 0) :
    addRange double state kind base size flags =
      (growWhile double kind (gaps (base + capSize base size) base spans) base (capSize base size) 3
          state >>=
        fun grown => if grown.2 then insertInto grown.1 kind base (base + capSize base size) flags
        else .ok (grown.1, .noMem)) := by
  have filled : ¬ (state.type kind).regions[0]?.map Span.size = Option.some 0 :=
    fun empty => some (keeps.empty_iff.mp empty)
  simp only [addRange, if_neg sized, if_neg filled, addRound_count, bind, Except.bind]
  rw [keeps.regions_eq some]
  rfl

/-- The empty array takes the range as its only entry. -/
theorem addRange_empty (double : Double) (flags : Flags) (keeps : (state.type kind).Keeps [])
    (wide : base ≤ ullongMax) (sized : capSize base size ≠ 0) :
    ∃ type, addRange double state kind base size flags = .ok (state.set kind type, .ok) ∧
      Changed (state.type kind) type (overlay (lookup []) base (base + capSize base size) flags)
        0 := by
  have empty := keeps.empty_iff.mpr rfl
  have shape : (state.type kind).regions = [dummy] := keeps.shape
  have top := cap_le wide size
  have fits := keeps.fits
  refine ⟨{ state.type kind with
      regions := [⟨base, capSize base size, flags⟩], totalSize := capSize base size }, ?_,
    ⟨[⟨base, capSize base size, flags⟩],
      ⟨⟨by simp, ⟨zero_le _, pos_of_ne_zero sized, trivial⟩, ?_, by simp⟩,
        .singleton _, ?_⟩, fun address => ?_⟩, rfl, rfl, ?_⟩
  · simp only [addRange, if_neg sized, if_pos empty]
    rw [shape]
    rfl
  · intro span mem
    obtain rfl := mem_singleton.mp mem
    exact top
  · simp only [cnt, shape, length_singleton] at *
    omega
  · rfl
  simp [cnt, shape]

theorem overlay_nothing (old : Nat → Option Flags) (base : Nat) (flags : Flags) :
    overlay old base (base + 0) flags = old := by
  funext address
  have none : ¬ (base ≤ address ∧ address < base) := by omega
  simp [overlay, if_neg none]

/-- Adding a range to an array that has room for it. -/
theorem addRange_fits (double : Double) (flags : Flags) (keeps : (state.type kind).Keeps spans)
    (wide : base ≤ ullongMax)
    (room :
      (state.type kind).cnt + gaps (base + capSize base size) base spans ≤ (state.type kind).max) :
    ∃ type, addRange double state kind base size flags = .ok (state.set kind type, .ok) ∧
      Changed (state.type kind) type (overlay (lookup spans) base (base + capSize base size) flags)
        (gaps (base + capSize base size) base spans) := by
  by_cases sized : capSize base size = 0
  · refine ⟨state.type kind, ?_, Changed.refl keeps (fun address => ?_) _⟩
    · simp only [addRange, if_pos sized, State.set_type]
    rw [sized, overlay_nothing]
  cases spans with
  | nil =>
    obtain ⟨type, ran, kept, max, home, count⟩ := addRange_empty double flags keeps wide sized
    exact ⟨type, ran, kept, max, home, by omega⟩
  | cons span rest => ?_
  obtain ⟨type, ran, changed⟩ :=
    insertInto_spec base flags keeps (cons_ne_nil _ _) (cap_le wide size) room
  refine ⟨type, ?_, changed⟩
  rw [addRange_eq double flags keeps (cons_ne_nil _ _) sized, growWhile, if_neg (not_lt.mpr room)]
  exact ran

/-- A range above every entry and apart from the last becomes a new last entry. -/
theorem addRange_append (double : Double) (flags : Flags) (keeps : (state.type kind).Keeps spans)
    (some : spans ≠ []) (wide : base ≤ ullongMax) (sized : capSize base size ≠ 0)
    (below : ∀ span ∈ spans, span.limit < base)
    (room : (state.type kind).cnt < (state.type kind).max) :
    ∃ type, addRange double state kind base size flags = .ok (state.set kind type, .ok) ∧
      type.Keeps (spans ++ [⟨base, capSize base size, flags⟩]) ∧ type.max = (state.type kind).max ∧
      type.home = (state.type kind).home := by
  have range : base < base + capSize base size := by omega
  have upTo : ∀ span ∈ spans, span.limit ≤ base := fun span mem => (below span mem).le
  have one := gaps_above range upTo
  have fits : (state.type kind).cnt + gaps (base + capSize base size) base spans ≤
      (state.type kind).max := by
    omega
  have inserted := insertInto_of (insert_spec base (base + capSize base size) flags keeps some fits)
  obtain ⟨kept, _⟩ := keeps_fill base flags keeps some (cap_le wide size) fits
  have minimal : Minimal (spans ++ [(⟨base, capSize base size, flags⟩ : Region)]) := by
    refine Minimal.append keeps.minimal (.singleton _) (fun span mem => ?_)
      (show Ordered base _ from ⟨le_rfl, pos_of_ne_zero sized, trivial⟩)
      (show base - 1 < base from ?_)
    · have := below span mem
      omega
    obtain ⟨span, mem⟩ := exists_mem_of_ne_nil _ some
    have := below span mem
    omega
  have whole : coalesce (fill flags (base + capSize base size) base spans) =
      spans ++ [⟨base, capSize base size, flags⟩] := by
    rw [fill_above range upTo, Nat.add_sub_cancel_left, coalesce_of_minimal minimal]
  have ran : addRange double state kind base size flags =
      insertInto state kind base (base + capSize base size) flags := by
    rw [addRange_eq double flags keeps some sized, growWhile, if_neg (not_lt.mpr fits)]
    rfl
  refine ⟨_, ran.trans inserted, ?_, rfl, rfl⟩
  rw [← whole]
  exact kept

section

/-- The part of `memblock_isolate_range` after the array was grown. -/
def isolateIn (memblock : State) (kind : Kind) (base stop : Nat) :
    Except Fault (State × Option (Nat × Nat)) := do
  let type := memblock.type kind
  let (type, found) ← isolateWalk base stop (type.cnt + 2) type 0 (0, 0)
  .ok (memblock.set kind type, some found)

variable {base size stop : Nat}

theorem isolateRange_eq (double : Double) (state : State) (kind : Kind)
    (sized : capSize base size ≠ 0) :
    isolateRange double state kind base size =
      (growWhile double kind 2 base (capSize base size) 3 state >>=
        fun grown => if grown.2 then isolateIn grown.1 kind base (base + capSize base size)
        else .ok (grown.1, none)) := by
  simp only [isolateRange, if_neg sized]
  rfl

variable {state : State} {kind : Kind}

/-- Isolation cuts the spans into those below, inside and above the range. -/
theorem isolateIn_eq (holds : (state.type kind).Holds spans) (some : spans ≠ [])
    (range : base < stop) (room : (state.type kind).cnt + 2 ≤ (state.type kind).max) :
    isolateIn state kind base stop =
      .ok (state.set kind { state.type kind with
          regions := before base spans ++
            (before stop (after base spans) ++ after stop (after base spans)) },
        Option.some (if before stop (after base spans) = [] then (0, 0)
        else ((before base spans).length, (before base spans).length +
          (before stop (after base spans)).length))) := by
  have shape := holds.regions_eq some
  have walked := isolateWalk_eq base stop spans [] (state.type kind)
    ((state.type kind).cnt + 2) shape holds.ordered range (by rw [shape, holds.totalSize])
    (by omega) (by rw [cnt, shape]; omega)
  simp only [length_nil, nil_append, zero_add] at walked
  simp only [isolateIn, walked, bind, Except.bind]

theorem isolateIn_empty (holds : (state.type kind).Holds []) (range : base < stop) :
    isolateIn state kind base stop = .ok (state, Option.some (0, 0)) := by
  have shape : (state.type kind).regions = [dummy] := holds.shape
  have count : (state.type kind).cnt + 2 = 3 := by simp [cnt, shape]
  have low : ¬ stop ≤ dummy.base := by simp only [dummy]; omega
  have past : dummy.limit ≤ base := zero_le _
  have walked : isolateWalk base stop 3 (state.type kind) 0 (0, 0) =
      .ok (state.type kind, 0, 0) := by
    simp [isolateWalk, shape, low, past]
  simp only [isolateIn, count, walked, bind, Except.bind, State.set_type]

/-- What the three parts are, as one list and as a map. -/
theorem parts_spec (holds : type.Holds spans) (minimal : Minimal spans) (range : base < stop) :
    Ordered 0 (before base spans ++ after stop (after base spans)) ∧
      Minimal (before base spans ++ after stop (after base spans)) ∧
      (∀ address, lookup (before base spans ++ after stop (after base spans)) address =
        clear (lookup spans) base stop address) ∧
      (before base spans ++ after stop (after base spans)).length ≤ spans.length + 1 ∧
      total (before base spans) +
          (total (before stop (after base spans)) + total (after stop (after base spans))) =
        total spans := by
  have low : Ordered 0 (before base spans) := ordered_before holds.ordered
  have high : Ordered base (after base spans) := ordered_after holds.ordered
  have last : Ordered stop (after stop (after base spans)) := ordered_after high
  refine ⟨low.append (fun span mem => limit_before mem) (zero_le _)
    (last.weaken range.le), ?_, fun address => ?_, ?_, ?_⟩
  · exact Minimal.append (minimal.before base) ((minimal.after base holds.ordered).after stop high)
      (fun span mem => limit_before mem) last range
  · rw [lookup_append, lookup_before base address holds.ordered, lookup_after stop address high,
      lookup_after base address holds.ordered, clear]
    by_cases below : address < base
    · rw [if_pos below, if_neg (by omega), if_neg (by omega), Option.or_none]
    rw [if_neg below, Option.none_or, if_pos (show base ≤ address by omega)]
    by_cases above : stop ≤ address
    · rw [if_pos above, if_neg (by omega)]
    rw [if_neg above, if_pos (by omega)]
  · have cut := length_cut base spans
    have shorter := length_after_le stop (after base spans)
    rw [length_append]
    omega
  have inner := total_cut stop (after base spans) high
  have outer := total_cut base spans holds.ordered
  omega

theorem clear_nothing (old : Nat → Option Flags) (base : Nat) :
    clear old base (base + 0) = old := by
  funext address
  have none : ¬ (base ≤ address ∧ address < base) := by omega
  simp [clear]

/-- The removal loop after an isolation. -/
theorem removeRegions_spec (keeps : type.Keeps spans) (some : spans ≠ [])
    (range : base < stop) (room : type.cnt + 2 ≤ type.max) :
    let found := if before stop (after base spans) = [] then (0, 0)
      else ((before base spans).length, (before base spans).length +
        (before stop (after base spans)).length)
    Changed type (removeRegions { type with
        regions := before base spans ++
          (before stop (after base spans) ++ after stop (after base spans)) }
        found.1 (found.2 - found.1))
      (clear (lookup spans) base stop) 1 := by
  obtain ⟨order, minimal, same, shorter, sum⟩ := parts_spec keeps.toHolds keeps.minimal range
  have bounded := bounded_of_covered order keeps.bounded (fun address found => by
    rw [same, clear] at found
    split at found
    · cases found
    exact found)
  have count : type.cnt = spans.length := by rw [cnt, keeps.regions_eq some]
  have whole := keeps.totalSize
  intro found
  by_cases none : before stop (after base spans) = []
  · have nonempty : before base spans ++ after stop (after base spans) ≠ [] := by
      intro empty
      rw [append_eq_nil_iff] at empty
      rw [none, empty.1, empty.2] at sum
      exact some (keeps.ordered.eq_nil_of_total sum.symm)
    simp only [found, if_pos none, Nat.sub_self, removeRegions]
    refine ⟨⟨_, ⟨⟨?_, order, bounded, ?_⟩, minimal, ?_⟩, same⟩, rfl, rfl, ?_⟩
    · rw [if_neg nonempty, none, nil_append]
    · rw [none, total_nil] at sum
      rw [total_append]
      show type.totalSize = _
      omega
    · simp only [cnt, none, nil_append] at *
      omega
    simp only [cnt, none, nil_append] at *
    omega
  simp only [found, if_neg none, Nat.add_sub_cancel_left]
  rw [removeRegions_eq (before stop (after base spans)) (before base spans)
    (after stop (after base spans)) _ rfl]
  have length : (if before stop (after base spans) ≠ [] ∧
      before base spans ++ after stop (after base spans) = [] then [dummy]
      else before base spans ++ after stop (after base spans)).length ≤ type.cnt + 1 := by
    split
    · simp
    omega
  refine ⟨⟨_, ⟨⟨?_, order, bounded, ?_⟩, minimal, ?_⟩, same⟩, rfl, rfl, length⟩
  · simp [none]
  · rw [total_append]
    show type.totalSize - total (before stop (after base spans)) = _
    omega
  exact length.trans (by simp only; omega)

/-- The part of `memblock_remove_range` after the array was grown. -/
def removeIn (memblock : State) (kind : Kind) (base stop : Nat) : Except Fault (State × Status) :=
  do
  let (memblock, found) ← isolateIn memblock kind base stop
  match found with
  | none => .ok (memblock, .noMem)
  | some (startRgn, endRgn) =>
    .ok (memblock.set kind (removeRegions (memblock.type kind) startRgn (endRgn - startRgn)), .ok)

theorem removeRange_eq (double : Double) (state : State) (kind : Kind)
    (sized : capSize base size ≠ 0) :
    removeRange double state kind base size =
      (growWhile double kind 2 base (capSize base size) 3 state >>=
        fun grown => if grown.2 then removeIn grown.1 kind base (base + capSize base size)
        else .ok (grown.1, .noMem)) := by
  simp only [removeRange, isolateRange_eq double state kind sized, removeIn, bind, Except.bind]
  cases growWhile double kind 2 base (capSize base size) 3 state with
  | error fault => rfl
  | ok grown => ?_
  obtain ⟨grown, enough⟩ := grown
  cases enough <;> rfl

theorem removeIn_spec (keeps : (state.type kind).Keeps spans) (range : base < stop)
    (room : (state.type kind).cnt + 2 ≤ (state.type kind).max) :
    ∃ type, removeIn state kind base stop = .ok (state.set kind type, .ok) ∧
      Changed (state.type kind) type (clear (lookup spans) base stop) 1 := by
  by_cases empty : spans = []
  · subst empty
    refine ⟨state.type kind, ?_, Changed.refl keeps (fun address => ?_) _⟩
    · simp only [removeIn, isolateIn_empty keeps.toHolds range, bind, Except.bind, Nat.sub_self,
        removeRegions]
    simp [clear]
  refine ⟨_, ?_, removeRegions_spec keeps empty range room⟩
  simp only
    [removeIn, isolateIn_eq keeps.toHolds empty range room, bind, Except.bind, State.type_set]
  cases kind <;> rfl

/-- Removing a range from an array that has room for the two cuts. -/
theorem removeRange_fits (double : Double) (keeps : (state.type kind).Keeps spans)
    (room : (state.type kind).cnt + 2 ≤ (state.type kind).max) :
    ∃ type, removeRange double state kind base size = .ok (state.set kind type, .ok) ∧
      Changed (state.type kind) type (clear (lookup spans) base (base + capSize base size)) 1 := by
  by_cases sized : capSize base size = 0
  · refine ⟨state.type kind, ?_, Changed.refl keeps (fun address => ?_) _⟩
    · simp only
        [removeRange, isolateRange, if_pos sized, bind, Except.bind, Nat.sub_self, removeRegions]
    rw [sized, clear_nothing]
  obtain ⟨type, ran, changed⟩ :=
    removeIn_spec keeps (show base < base + capSize base size by omega) room
  refine ⟨type, ?_, changed⟩
  rw [removeRange_eq double state kind sized, growWhile, if_neg (not_lt.mpr room)]
  exact ran

end

section

variable (update : Flags → Flags)

/-- The map with the flags in a range updated. -/
def reflagged (old : Nat → Option Flags) (base stop : Nat) (address : Nat) : Option Flags :=
  if base ≤ address ∧ address < stop then (old address).map update else old address

theorem mergeRegions_keeps (keeps : type.Keeps spans) : mergeRegions type = .ok type := by
  by_cases empty : spans = []
  · subst empty
    have shape : type.regions = [dummy] := keeps.shape
    simp [mergeRegions, mergeRegionsFrom, cnt, shape]
  have shape := keeps.regions_eq empty
  rw [mergeRegions_eq (by rw [shape]; exact keeps.ordered), shape,
    coalesce_of_minimal keeps.minimal, ← shape]

/-- The part of the hotplug calls after the array was grown. -/
def hotplugIn (memblock : State) (base stop : Nat) : Except Fault (State × Status) := do
  let (memblock, found) ← isolateIn memblock .memory base stop
  match found with
  | none => .ok (memblock, .noMem)
  | some (startRgn, endRgn) => do
    let type ← mergeRegions (updateFlags update memblock.memory startRgn endRgn)
    .ok (memblock.set .memory type, .ok)

theorem changeHotplug_eq (double : Double) (state : State) (sized : capSize base size ≠ 0) :
    changeHotplug update double state base size =
      (growWhile double .memory 2 base (capSize base size) 3 state >>=
        fun grown => if grown.2 then hotplugIn update grown.1 base (base + capSize base size)
        else .ok (grown.1, .noMem)) := by
  simp only
    [changeHotplug, isolateRange_eq double state .memory sized, hotplugIn, bind, Except.bind]
  cases growWhile double .memory 2 base (capSize base size) 3 state with
  | error fault => rfl
  | ok grown => ?_
  obtain ⟨grown, enough⟩ := grown
  cases enough <;> rfl

/-- The flag loop over the indices found by the isolation, which are `(0, 0)` when the range
holds nothing. -/
theorem updateFlags_isolated (type : MemblockType) (pre mid post : List Region) :
    updateFlags update { type with regions := pre ++ (mid ++ post) }
        (if mid = [] then (0, 0) else (pre.length, pre.length + mid.length)).1
        (if mid = [] then (0, 0) else (pre.length, pre.length + mid.length)).2 =
      { type with regions := pre ++ (mid.map (reflag update) ++ post) } := by
  by_cases none : mid = []
  · rw [if_pos none, updateFlags_none, none]
    rfl
  rw [if_neg none]
  exact updateFlags_at update rfl

/-- The cut spans with the middle ones updated. -/
theorem reflag_parts (holds : type.Holds spans) (range : base < stop) :
    let parts := before base spans ++
      ((before stop (after base spans)).map (reflag update) ++ after stop (after base spans))
    Ordered 0 parts ∧
    (∀ address, lookup parts address = reflagged update (lookup spans) base stop address) ∧
    parts.length ≤ spans.length + 2 ∧ total parts = total spans := by
  have low : Ordered 0 (before base spans) := ordered_before holds.ordered
  have high : Ordered base (after base spans) := ordered_after holds.ordered
  have mid : Ordered base (before stop (after base spans)) := ordered_before high
  have last : Ordered stop (after stop (after base spans)) := ordered_after high
  refine ⟨low.append (fun span mem => limit_before mem) (zero_le _)
    ((ordered_reflag update mid).append (fun span mem => ?_) range.le last), fun address => ?_, ?_,
    ?_⟩
  · obtain ⟨old, inside, rfl⟩ := mem_map.mp mem
    exact (show old.limit ≤ stop from limit_before inside)
  · rw [lookup_append, lookup_append, lookup_reflag, lookup_before base address holds.ordered,
      lookup_before stop address high, lookup_after stop address high,
      lookup_after base address holds.ordered, reflagged]
    by_cases below : address < base
    · have out : ¬ base ≤ address := by omega
      have short : ¬ stop ≤ address := by omega
      simp [below, out, short]
    rw [if_neg below, Option.none_or, if_pos (show base ≤ address by omega)]
    by_cases above : address < stop
    · rw [if_pos above, if_neg (by omega), if_pos (by omega), Option.or_none]
    rw [if_neg above, if_pos (by omega), if_neg (by omega)]
    rfl
  · have outer := length_cut base spans
    have inner := length_cut stop (after base spans)
    simp only [length_append, length_map]
    omega
  have inner := total_cut stop (after base spans) high
  have outer := total_cut base spans holds.ordered
  rw [total_append, total_append, total_reflag]
  omega

theorem hotplugIn_spec {base : Nat} (keeps : state.memory.Keeps spans) (range : base < stop)
    (room : state.memory.cnt + 2 ≤ state.memory.max) :
    ∃ type, hotplugIn update state base stop = .ok (state.set .memory type, .ok) ∧
      Changed state.memory type (reflagged update (lookup spans) base stop) 2 := by
  have kept : (state.type .memory).Keeps spans := keeps
  by_cases empty : spans = []
  · subst empty
    refine ⟨state.memory, ?_, Changed.refl keeps (fun address => ?_) _⟩
    · simp only [hotplugIn, isolateIn_empty kept.toHolds range, updateFlags_none, bind, Except.bind,
        mergeRegions_keeps keeps]
    simp [reflagged]
  obtain ⟨order, same, shorter, sum⟩ := reflag_parts update keeps.toHolds range
  have isolated := isolateIn_eq kept.toHolds empty range room
  have updated := updateFlags_isolated update state.memory (before base spans)
    (before stop (after base spans)) (after stop (after base spans))
  generalize before base spans ++
    ((before stop (after base spans)).map (reflag update) ++ after stop (after base spans)) = parts
    at order same shorter sum updated
  obtain ⟨joined, maps, minimal, whole, less⟩ := coalesce_spec order
  have merged :=
    mergeRegions_eq (show Ordered 0 { state.memory with regions := parts }.regions from order)
  have count : state.memory.cnt = spans.length := by rw [cnt, keeps.regions_eq empty]
  have nonempty : coalesce parts ≠ [] := by
    intro nothing
    rw [nothing, sum] at whole
    exact empty (keeps.ordered.eq_nil_of_total whole.symm)
  refine ⟨{ state.memory with regions := coalesce parts }, ?_,
    ⟨coalesce parts, ⟨⟨?_, joined, ?_, ?_⟩, minimal, ?_⟩, fun address => ?_⟩, rfl, rfl, ?_⟩
  · simp only [hotplugIn, isolated]
    exact congrArg (· >>= fun type => Except.ok (state.set .memory type, Status.ok))
      ((congrArg mergeRegions updated).trans merged)
  · rw [if_neg nonempty]
  · refine bounded_of_covered joined keeps.bounded fun address found => ?_
    rw [maps, same, reflagged] at found
    split at found
    · simpa using found
    exact found
  · exact keeps.totalSize.trans (by rw [whole, sum])
  · exact less.trans (by simp only; omega)
  · rw [maps, same]
  exact less.trans (by omega)

end

end TinyKernel.Memblock
