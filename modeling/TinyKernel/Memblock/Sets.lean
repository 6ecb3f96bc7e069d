import TinyKernel.Lib.Results
import TinyKernel.Memblock.Run

/-! What a call does to the set of covered addresses and their flags, for any well-formed
array. The one change outside the range is made by the reserved array itself, which keeps
its own memory reserved wherever it moves. Nothing is said of a call that puts a new array over
another one; clean calls do not. -/

namespace TinyKernel.Memblock

open Lib Span MemblockType

/-- An array as the calls leave it. It starts with 128 entries and only grows; the memory it
lies in does not wrap. -/
structure MemblockType.WellFormed (type : MemblockType) : Prop where
  keeps : ∃ spans, type.Keeps spans
  large : 8 ≤ type.max
  bounded : type.area.2 ≤ ullongMax

variable {enough : Bool} {flags : Flags} {status : Status} {kind : Kind}

section

/-- A doubling of the reserved array that does not touch the memory array. -/
def Frames (double : Double) : Prop :=
  ∀ start size memblock new doubled, double .reserved start size memblock = .ok (new, doubled) →
    new.memory = memblock.memory

variable {double : Double} {memblock new : State}

section

variable (frames : Frames double)
include frames

theorem Frames.growWhile {size : Nat}
    (ran : growWhile double .reserved extra start size rounds memblock = .ok (new, enough)) :
    new.memory = memblock.memory := by
  induction rounds generalizing memblock with
  | zero => cases ran
  | succ rounds ih => ?_
  rw [Memblock.growWhile] at ran
  split at ran
  · obtain ⟨⟨next, doubled⟩, once, rest⟩ := bind_eq_ok.mp ran
    have first := frames start size memblock next doubled once
    cases doubled with
    | true => exact (ih rest).trans first
    | false => ?_
    cases rest
    exact first
  cases ran
  rfl

theorem Frames.addRange {base size : Nat}
    (ran : addRange double memblock .reserved base size flags = .ok (new, status)) :
    new.memory = memblock.memory := by
  simp only [Memblock.addRange] at ran
  split at ran
  · cases ran
    rfl
  split at ran
  · cases ran
    rfl
  obtain ⟨⟨_, nrNew⟩, _, ran⟩ := bind_eq_ok.mp ran
  obtain ⟨⟨grown, enough⟩, growth, ran⟩ := bind_eq_ok.mp ran
  have kept := frames.growWhile growth
  cases enough with
  | false =>
    cases ran
    exact kept
  | true => ?_
  obtain ⟨_, _, ran⟩ := bind_eq_ok.mp ran
  obtain ⟨_, _, ran⟩ := bind_eq_ok.mp ran
  cases ran
  exact kept

theorem Frames.removeRange {base size : Nat}
    (ran : removeRange double memblock .reserved base size = .ok (new, status)) :
    new.memory = memblock.memory := by
  rw [Memblock.removeRange] at ran
  obtain ⟨⟨isolated, found⟩, ran, rest⟩ := bind_eq_ok.mp ran
  have kept : isolated.memory = memblock.memory := by
    simp only [isolateRange] at ran
    split at ran
    · cases ran
      rfl
    obtain ⟨⟨grown, enough⟩, growth, ran⟩ := bind_eq_ok.mp ran
    have kept := frames.growWhile growth
    cases enough with
    | false =>
      cases ran
      exact kept
    | true => ?_
    obtain ⟨_, _, ran⟩ := bind_eq_ok.mp ran
    cases ran
    exact kept
  cases found with
  | none =>
    cases rest
    exact kept
  | some indices => ?_
  cases rest
  exact kept

theorem Frames.freeArray {type : MemblockType} (ran : freeArray double type memblock = .ok new) :
    new.memory = memblock.memory := by
  unfold Memblock.freeArray at ran
  split at ran
  · obtain ⟨⟨freed, _⟩, removed, rest⟩ := bind_eq_ok.mp ran
    cases rest
    exact frames.removeRange removed
  cases ran
  rfl

/-- A doubling moves the array of its own kind and gives memory back and takes memory
through the reserved array. -/
theorem Frames.doubleOnce {start size : Nat}
    (ran :
      doubleOnce env double kind (memblock.type kind) start size memblock = .ok (new, doubled)) :
    new.memory = memblock.memory ∨
      ∃ home, new.memory = (memblock.set kind ((memblock.type kind).moveTo home)).memory := by
  unfold Memblock.doubleOnce at ran
  simp only at ran
  split at ran
  · cases ran
    exact .inl rfl
  split at ran
  · split at ran
    · obtain ⟨freed, free, rest⟩ := bind_eq_ok.mp ran
      cases rest
      exact .inr ⟨_, frames.freeArray free⟩
    cases ran
    exact .inl rfl
  split at ran
  · cases ran
    exact .inl rfl
  split at ran
  · cases ran
  obtain ⟨freed, free, rest⟩ := bind_eq_ok.mp ran
  obtain ⟨⟨last, status⟩, added, rest⟩ := bind_eq_ok.mp rest
  split at rest
  · cases rest
  cases rest
  exact .inr ⟨_, (frames.addRange added).trans (frames.freeArray free)⟩

end

theorem doubleArray_frames (env : Env) (depth : Nat) : Frames (doubleArray env depth) := by
  induction depth with
  | zero =>
    intro start size memblock new doubled ran
    cases ran
  | succ depth ih => ?_
  intro start size memblock new doubled ran
  rcases ih.doubleOnce ran with same | ⟨home, same⟩
  · exact same
  exact same

/-- Growing the memory array leaves what it holds. -/
theorem growWhile_memory_holds (env : Env) (depth : Nat) {size : Nat}
    (keeps : memblock.memory.Keeps spans)
    (ran : growWhile (doubleArray env (depth + 1)) .memory extra start size rounds memblock =
      .ok (new, enough)) :
    new.memory.Keeps spans ∧ (enough = true → new.memory.cnt + extra ≤ new.memory.max) := by
  induction rounds generalizing memblock with
  | zero => cases ran
  | succ rounds ih => ?_
  change (if memblock.memory.max < memblock.memory.cnt + extra then _ else _) = _ at ran
  split at ran
  · obtain ⟨⟨next, doubled⟩, once, rest⟩ := bind_eq_ok.mp ran
    have moved : next.memory.Keeps spans := by
      rcases (doubleArray_frames env depth).doubleOnce once with same | ⟨home, same⟩
      · rw [same]
        exact keeps
      rw [same]
      exact keeps.moveTo home
    cases doubled with
    | true => exact ih moved rest
    | false => ?_
    cases rest
    exact ⟨moved, fun flag => by cases flag⟩
  rename_i fits
  cases ran
  exact ⟨keeps, fun _ => Nat.not_lt.mp fits⟩

end

/-- An array changed in place: the map it holds, and that it can be searched. -/
structure Remapped (old new : MemblockType) (map : Nat → Option Flags) : Prop where
  max : new.max = old.max
  home : new.home = old.home
  searchable : new.Searchable
  map : ∀ address, lookup new.regions address = map address

variable {map : Nat → Option Flags}

theorem Changed.remapped (changed : Changed old new map growth) : Remapped old new map := by
  obtain ⟨spans, keeps, same⟩ := changed.keeps
  exact ⟨changed.max, changed.home, keeps.toHolds.searchable,
    fun address => (keeps.lookup_regions address).trans (same address)⟩

/-- The insertion into an array left with its dummy entry only, as a growth may leave it. -/
theorem mergeRegions_dummy (type : MemblockType) (region : Region) :
    ∃ regions, mergeRegions { type with regions := [dummy, region] } = .ok { type with regions } ∧
      (∀ address, lookup regions address = lookup [region] address) ∧
      Searchable { type with regions } := by
  obtain ⟨base, size, flags⟩ := region
  by_cases joins : base = 0 ∧ flags = 0
  · obtain ⟨rfl, rfl⟩ := joins
    refine ⟨[⟨0, size, 0⟩], ?_, fun address => rfl, Nat.zero_lt_one, List.pairwise_singleton _ _⟩
    simp [mergeRegions, mergeRegionsFrom, cnt, dummy, limit]
  have differ : 0 = base → ¬ 0#64 = flags := fun low plain => joins ⟨low.symm, plain.symm⟩
  refine ⟨[dummy, ⟨base, size, flags⟩], ?_, fun address => ?_, Nat.zero_lt_two, ?_⟩
  · simpa [mergeRegions, mergeRegionsFrom, cnt, dummy, limit] using differ
  · rw [lookup_cons, if_neg (by simp [Span.Covers, dummy, limit])]
  exact List.pairwise_pair.mpr (Nat.zero_le base)

/-- An insertion that succeeds adds the range, whether or not the gaps were counted right. -/
theorem insertInto_ok {base : Nat} (keeps : (memblock.type kind).Keeps spans) (range : base < stop)
    (top : stop ≤ ullongMax) (ran : insertInto memblock kind base stop flags = .ok (new, status)) :
    ∃ type, new = memblock.set kind type ∧ status = .ok ∧
      Remapped (memblock.type kind) type (overlay (memblock.map kind) base stop flags) := by
  rw [show memblock.map kind = lookup spans from funext keeps.lookup_regions]
  have round := addRound_insert stop flags (memblock.type kind) base keeps.fits
  by_cases empty : spans = []
  · subst empty
    have shape : (memblock.type kind).regions = [dummy] := keeps.shape
    have filled : fill flags stop base [dummy] = [dummy, ⟨base, stop - base, flags⟩] := by
      have above : ¬ stop ≤ dummy.base := by simp only [dummy]; omega
      have past : dummy.limit ≤ base := Nat.zero_le _
      simp [fill, piece, above, past, range]
    rw [shape, filled] at round
    split at round
    · obtain ⟨regions, merged, same, searchable⟩ := mergeRegions_dummy { memblock.type kind with
        totalSize := (memblock.type kind).totalSize + added stop base [dummy] }
        ⟨base, stop - base, flags⟩
      have done := insertInto_of (show (addRound true (memblock.type kind) base stop flags >>=
        fun pair => mergeRegions pair.1) = _ by rw [round]; exact merged)
      rw [done] at ran
      cases ran
      refine ⟨_, rfl, rfl, rfl, rfl, searchable, fun address => ?_⟩
      have step : (⟨base, stop - base, flags⟩ : Region).limit = stop := by simp only [limit]; omega
      simp only [same, lookup_cons, Span.Covers, step, overlay, lookup_nil, Option.none_or]
    rw [insertInto, round] at ran
    cases ran
  rw [keeps.regions_eq empty] at round
  split at round
  · rename_i room
    obtain ⟨type, done, changed⟩ := insertInto_spec base flags keeps empty top room
    rw [done] at ran
    cases ran
    exact ⟨type, rfl, rfl, changed.remapped⟩
  rw [insertInto, round] at ran
  cases ran

/-- The map a call starts from: as it was, or with the reserved array in its new place. -/
def resized (old new : State) : Kind → Nat → Option Flags
  | .memory => old.map .memory
  | .reserved =>
    if new.reserved.max = old.reserved.max then old.map .reserved
    else relocate old.reserved.area new.reserved.area (old.map .reserved)

theorem resized_self (memblock : State) (kind : Kind) :
    resized memblock memblock kind = memblock.map kind := by
  cases kind with
  | memory => rfl
  | reserved => exact if_pos rfl

section

variable {middle : State} {kind : Kind} {type : MemblockType}
    (remapped : Remapped (middle.type kind) type map)
include remapped

/-- A change in place starts from the same map. -/
theorem Remapped.resized : resized old (middle.set kind type) kind = resized old middle kind := by
  cases kind with
  | memory => rfl
  | reserved => ?_
  have max : type.max = middle.reserved.max := remapped.max
  have area : type.area = middle.reserved.area := area_congr remapped.home max
  simp only [Memblock.resized, State.reserved_set_reserved, max, area]

theorem Remapped.map_set : (middle.set kind type).map kind = map := by
  funext address
  rw [State.map, State.type_set]
  exact remapped.map address

end

/-- What growing an array does to the map it holds. -/
theorem growWhile_resized {size : Nat} (wf : (memblock.type kind).WellFormed)
    (few : extra ≤ (memblock.type kind).max + 1)
    (ran : growWhile (callDouble env) kind extra start size 3 memblock = .ok (new, enough)) :
    (∃ spans, (new.type kind).Keeps spans) ∧ new.map kind = resized memblock new kind ∧
      (enough = true → (new.type kind).cnt + extra ≤ (new.type kind).max) := by
  obtain ⟨⟨spans, keeps⟩, large, bounded⟩ := wf
  cases kind with
  | memory =>
    obtain ⟨kept, fits⟩ :=
      growWhile_memory_holds env 1 (show memblock.memory.Keeps spans from keeps) ran
    refine ⟨⟨spans, kept⟩, funext fun address => ?_, fits⟩
    change lookup new.memory.regions address = lookup memblock.memory.regions address
    rw [kept.lookup_regions]
    exact (keeps.lookup_regions address).symm
  | reserved => ?_
  have growth :=
    growWhile_reserved env 1 start size (show memblock.reserved.Keeps spans from keeps) large
      bounded few
  change growWhile (doubleArray env 2) _ _ _ _ _ _ = _ at ran
  rw [ran] at growth
  cases growth with
  | kept _ fits _ => exact ⟨⟨spans, keeps⟩, (resized_self memblock .reserved).symm, fits⟩
  | grown _ must moved _ fits => ?_
  refine ⟨moved.keeps, funext fun address => ?_, fits⟩
  have max := moved.max
  have larger : ¬ new.reserved.max = memblock.reserved.max := by
    change 8 ≤ memblock.reserved.max at large
    omega
  rw [moved.map, resized, if_neg larger]

variable {env : Env} {memblock new : State} {kind : Kind} {base size : Nat} {status : Status}

theorem addRange_map (wf : (memblock.type kind).WellFormed) (wide : base ≤ ullongMax)
    (ran : addRange (callDouble env) memblock kind base size flags = .ok (new, status)) :
    (new.map kind =
        if status = .ok then
          overlay (resized memblock new kind) base (base + capSize base size) flags
        else resized memblock new kind) ∧ (new.type kind).Searchable := by
  obtain ⟨spans, keeps⟩ := wf.keeps
  by_cases sized : capSize base size = 0
  · simp only [addRange, if_pos sized] at ran
    cases ran
    rw [sized, overlay_nothing, resized_self, if_pos rfl]
    exact ⟨rfl, keeps.toHolds.searchable⟩
  by_cases empty : spans = []
  · subst empty
    obtain ⟨type, done, changed⟩ := addRange_empty (callDouble env) flags keeps wide sized
    rw [done] at ran
    cases ran
    have remapped := changed.remapped
    refine ⟨?_, by rw [State.type_set]; exact remapped.searchable⟩
    rw [if_pos rfl, remapped.map_set, remapped.resized, resized_self,
      show memblock.map kind = lookup [] from funext keeps.lookup_regions]
  have few := gaps_le (base + capSize base size) base spans
  have length : (memblock.type kind).cnt = spans.length := by rw [cnt, keeps.regions_eq empty]
  have fits := keeps.fits
  rw [addRange_eq _ flags keeps empty sized] at ran
  obtain ⟨⟨middle, enough⟩, growth, rest⟩ := bind_eq_ok.mp ran
  obtain ⟨⟨left, kept⟩, map, _⟩ := growWhile_resized wf (by omega) growth
  cases enough with
  | false =>
    cases rest
    exact ⟨map, kept.toHolds.searchable⟩
  | true => ?_
  obtain ⟨type, rfl, rfl, remapped⟩ := insertInto_ok kept
    (show base < base + capSize base size by omega) (cap_le wide size) rest
  refine ⟨?_, by rw [State.type_set]; exact remapped.searchable⟩
  rw [if_pos rfl, remapped.map_set, remapped.resized, map]

theorem removeRange_map (wf : (memblock.type kind).WellFormed)
    (ran : removeRange (callDouble env) memblock kind base size = .ok (new, status)) :
    (new.map kind =
        if status = .ok then clear (resized memblock new kind) base (base + capSize base size)
        else resized memblock new kind) ∧ (new.type kind).Searchable := by
  obtain ⟨spans, keeps⟩ := wf.keeps
  have large := wf.large
  by_cases sized : capSize base size = 0
  · simp only [removeRange, isolateRange, if_pos sized, bind, Except.bind, Nat.sub_self,
      removeRegions, State.set_type] at ran
    cases ran
    rw [sized, clear_nothing, resized_self, if_pos rfl]
    exact ⟨rfl, keeps.toHolds.searchable⟩
  rw [removeRange_eq _ _ _ sized] at ran
  obtain ⟨⟨middle, enough⟩, growth, rest⟩ := bind_eq_ok.mp ran
  obtain ⟨⟨left, kept⟩, map, fits⟩ := growWhile_resized wf (by omega) growth
  cases enough with
  | false =>
    cases rest
    exact ⟨map, kept.toHolds.searchable⟩
  | true => ?_
  obtain ⟨type, done, changed⟩ :=
    removeIn_spec kept (show base < base + capSize base size by omega) (fits rfl)
  rw [done] at rest
  cases rest
  have remapped := changed.remapped
  refine ⟨?_, by rw [State.type_set]; exact remapped.searchable⟩
  rw [if_pos rfl, remapped.map_set, remapped.resized, ← map,
    show middle.map kind = lookup left from funext kept.lookup_regions]

/-- For a well-formed array, what `memblock_add_range` and `memblock_remove_range` do to the
covered addresses and their flags, and that `memblock_search` answers exactly, before and
after. The starting map counts a reserved array that had to move at its new place. A clean call
in a state of a run puts no array over another one: all it can fail at is a reservation. -/
theorem set_semantics (env : Env) (memblock : State) (kind : Kind)
    (wellFormed : (memblock.type kind).WellFormed) (base size : UInt64) (flags : Flags) :
    (∀ address, (search (memblock.type kind) address).isSome = (memblock.map kind address).isSome) ∧
      (∀ new status,
        addRange (callDouble env) memblock kind base.toNat size.toNat flags = .ok (new, status) →
          (new.map kind =
              if status = .ok then
                overlay (resized memblock new kind) base.toNat
                  (base.toNat + capSize base.toNat size.toNat) flags
              else resized memblock new kind) ∧
            ∀ address, (search (new.type kind) address).isSome = (new.map kind address).isSome) ∧
      (∀ new status,
        removeRange (callDouble env) memblock kind base.toNat size.toNat = .ok (new, status) →
          (new.map kind =
              if status = .ok then
                clear (resized memblock new kind) base.toNat
                  (base.toNat + capSize base.toNat size.toNat)
              else resized memblock new kind) ∧
            ∀ address, (search (new.type kind) address).isSome = (new.map kind address).isSome) ∧
      (Inv memblock →
        ∀ call, Clean env memblock call →
          ∀ fault, step env memblock call = .error fault → fault = .doubleArray) := by
  refine ⟨fun address => ?_, fun new status ran => ?_, fun new status ran => ?_,
    fun inv call clean fault ran => ?_⟩
  · obtain ⟨spans, keeps⟩ := wellFormed.keeps
    exact search_isSome address keeps.toHolds.searchable
  · obtain ⟨map, searchable⟩ := addRange_map wellFormed (toNat_le_ullongMax base) ran
    exact ⟨map, fun address => search_isSome address searchable⟩
  · obtain ⟨map, searchable⟩ := removeRange_map wellFormed ran
    exact ⟨map, fun address => search_isSome address searchable⟩
  have sound := step_sound inv clean
  rwa [ran] at sound

/-- A reserved region in every entry of the static array. -/
def crowded : State :=
  ⟨⟨[⟨0, 0x40000, 0⟩], 128, 0x40000, .static⟩,
    ⟨spreadRegions 128, 128, total (spreadRegions 128), .static⟩⟩

theorem crowded_reserved : (crowded.type .reserved).WellFormed := by
  obtain ⟨type, -, -, keeps, max, home⟩ := run_spread crowded.memory (show 0 < 128 by decide) le_rfl
  obtain rfl := eq_spread (by decide) keeps max home
  exact ⟨⟨_, keeps⟩, by decide, by decide⟩

theorem set_semantics_crowded :
    (crowded.type .reserved).WellFormed ∧
      ∃ new, addRange (callDouble earlyEnv) crowded .reserved 0x8000 0x80 0 = .ok (new, .ok) ∧
        new.reserved.max = 256 ∧
        new.map .reserved = overlay (resized crowded new .reserved) 0x8000 0x8080 0 ∧
        ∀ address,
          (search (new.type .reserved) address).isSome = (new.map .reserved address).isSome := by
  have moved : addRange (callDouble earlyEnv) crowded .reserved 0x8000 0x80 0 =
      .ok (⟨crowded.memory,
          ⟨spreadRegions 129 ++ [⟨0x3e000, 0x2000, 0⟩], 256, 0x6080, .memblock 0x3e000⟩⟩, .ok) := by
    decide +kernel
  refine ⟨crowded_reserved, _, moved, rfl, ?_⟩
  exact (set_semantics earlyEnv crowded .reserved crowded_reserved 0x8000 0x80 0).2.1 _ _ moved

/-- One region more: the array moves to the top of memory, far from the range, and reserves
its new place there. -/
theorem reserve_changes_outside :
    (crowded.type .reserved).WellFormed ∧
      ∃ new, addRange (callDouble earlyEnv) crowded .reserved 0x8000 0x80 0 = .ok (new, .ok) ∧
        crowded.map .reserved 0x3e000 = none ∧ new.map .reserved 0x3e000 = some 0 := by
  refine ⟨crowded_reserved, ⟨crowded.memory, ⟨spreadRegions 129 ++ [⟨0x3e000, 0x2000, 0⟩], 256,
    0x6080, .memblock 0x3e000⟩⟩, ?_, ?_, ?_⟩ <;> decide +kernel

end TinyKernel.Memblock
