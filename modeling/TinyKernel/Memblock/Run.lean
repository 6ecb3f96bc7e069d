import TinyKernel.Memblock.MemoryArray

/-! Runs of memblock calls from the empty state. Growing an array goes through the arrays
themselves, and a call can meet an array in the middle of that; `Clean` says when it does
not. In a run of clean calls both arrays stay valid. -/

namespace TinyKernel.Memblock

open Lib Span List

/-- What every region array is meant to satisfy. -/
structure MemblockType.Valid (type : MemblockType) : Prop where
  sorted : type.regions.Pairwise fun first second => first.base < second.base
  disjoint : type.regions.Pairwise fun first second => ∀ address,
    first.Covers address → ¬ second.Covers address
  sized : type.regions = [dummy] ∨ ∀ region ∈ type.regions, region.size ≠ 0
  totalSize : type.totalSize = (type.regions.map Span.size).sum
  fits : type.cnt ≤ type.max
  minimal : type.regions.IsChain fun first second =>
    first.limit = second.base → first.flags ≠ second.flags

theorem MemblockType.Keeps.valid {type : MemblockType} (keeps : type.Keeps spans) : type.Valid := by
  by_cases empty : spans = []
  · subst empty
    have shape : type.regions = [dummy] := keeps.shape
    have total := keeps.totalSize
    refine ⟨?_, ?_, .inl shape, ?_, keeps.fits, ?_⟩
    · rw [shape]; exact pairwise_singleton _ _
    · rw [shape]; exact pairwise_singleton _ _
    · rw [shape, total]; rfl
    rw [shape]; exact .singleton _
  have shape := keeps.regions_eq empty
  have pairwise := keeps.ordered.pairwise
  refine ⟨?_, ?_, .inr ?_, ?_, keeps.fits, ?_⟩
  · rw [shape]
    refine pairwise.imp_of_mem fun {first second} mem _ above => ?_
    have sized := (keeps.ordered.base_le mem).2
    have step : first.limit = first.base + first.size := rfl
    omega
  · rw [shape]
    refine pairwise.imp fun {first second} above address inside again => ?_
    simp only [Span.Covers] at inside again
    omega
  · rw [shape]
    intro region mem
    exact (keeps.ordered.base_le mem).2.ne'
  · rw [shape]
    exact keeps.totalSize
  rw [shape]
  exact keeps.minimal

/-- Two areas are apart when one is empty or ends before the other begins. -/
theorem apart_iff (first second : Nat × Nat) :
    Apart first second ↔
      first.2 ≤ first.1 ∨ second.2 ≤ second.1 ∨ first.2 ≤ second.1 ∨ second.2 ≤ first.1 := by
  constructor
  · intro apart
    by_contra meet
    have both := apart (max first.1 second.1)
    simp only [InArea] at both
    omega
  intro separate address inside again
  simp only [InArea] at inside again
  omega

instance (first second : Nat × Nat) : Decidable (Apart first second) :=
  decidable_of_iff _ (apart_iff first second).symm

instance (home : Home) : Decidable (∃ addr, home = .memblock addr) :=
  match home with
  | .memblock addr => .isTrue ⟨addr, rfl⟩
  | .static => .isFalse fun found => by obtain ⟨_, same⟩ := found; cases same
  | .slab => .isFalse fun found => by obtain ⟨_, same⟩ := found; cases same

instance (env : Env) (memblock : State) (entries : Nat) : Decidable (Spare env memblock entries) :=
  inferInstanceAs (Decidable (_ → _))

instance (env : Env) (memblock : State) (extra : Nat) :
    Decidable (MemoryClean env memblock extra) :=
  inferInstanceAs (Decidable (_ → _))

instance (env : Env) (memblock : State) (base size : Nat) :
    Decidable (ReserveClean env memblock base size) :=
  inferInstanceAs (Decidable (_ → _))

/-- The condition under which a call is safe. Giving memory back must not touch an array. -/
def Clean (env : Env) (memblock : State) : Call → Prop
  | .add base size => MemoryClean env memblock
      (gaps (base.toNat + capSize base.toNat size.toNat) base.toNat memblock.memory.regions)
  | .reserve base size => ReserveClean env memblock base.toNat size.toNat
  | .free base size =>
    Apart (base.toNat, base.toNat + capSize base.toNat size.toNat) memblock.memory.area ∧
    Apart (base.toNat, base.toNat + capSize base.toNat size.toNat) memblock.reserved.area ∧
    (capSize base.toNat size.toNat ≠ 0 → memblock.reserved.max < memblock.reserved.cnt + 2 →
      base.toNat ≠ 0 ∨ env.slabIsAvailable = true)
  | .remove base size | .markHotplug base size | .clearHotplug base size =>
    capSize base.toNat size.toNat ≠ 0 → MemoryClean env memblock 2

instance (env : Env) (memblock : State) (call : Call) : Decidable (Clean env memblock call) :=
  match call with
  | .add .. => inferInstanceAs (Decidable (MemoryClean _ _ _))
  | .reserve .. => inferInstanceAs (Decidable (ReserveClean _ _ _ _))
  | .free .. => inferInstanceAs (Decidable (_ ∧ _ ∧ (_ → _ → _)))
  | .remove .. | .markHotplug .. | .clearHotplug .. => inferInstanceAs (Decidable (_ → _))

/-- Calls one after another, each in its own surroundings. -/
def run (memblock : State) : List (Env × Call) → Except Fault State
  | [] => .ok memblock
  | (env, call) :: rest => do
    let (memblock, _) ← step env memblock call
    run memblock rest

/-- Every call of the run is clean in the state it is made in. -/
def CleanRun (memblock : State) : List (Env × Call) → Prop
  | [] => True
  | (env, call) :: rest => Clean env memblock call ∧
    match step env memblock call with
    | .ok (next, _) => CleanRun next rest
    | .error _ => True

def CleanRun.decide (memblock : State) :
    (calls : List (Env × Call)) → Decidable (CleanRun memblock calls)
  | [] => .isTrue trivial
  | (env, call) :: rest =>
    @instDecidableAnd _ _ inferInstance <|
      match step env memblock call with
      | .ok (next, _) => CleanRun.decide next rest
      | .error _ => .isTrue trivial

instance (memblock : State) (calls : List (Env × Call)) : Decidable (CleanRun memblock calls) :=
  CleanRun.decide memblock calls

theorem reserve_sound {base size : Nat} (inv : Inv memblock) (wide : base ≤ ullongMax)
    (clean : ReserveClean env memblock base size) :
    Sound (addRange (doubleArray env 2) memblock .reserved base size 0) := by
  obtain ⟨new, status, ran, after, _⟩ := reserve_spec env 1 inv.toCore wide clean
    (fun address inside => .inl (inv.memoryArea address inside))
  rw [ran]
  refine ⟨after.core, fun address inside => ?_⟩
  rw [after.memory] at inside
  exact after.preserved address (fun own => inv.apart address own inside)
    (inv.memoryArea address inside)

theorem free_sound {base size : Nat} (inv : Inv memblock)
    (out : Apart (base, base + capSize base size) memblock.memory.area)
    (clean : FreeClean env memblock base size) :
    Sound (removeRange (doubleArray env 2) memblock .reserved base size) := by
  obtain ⟨new, status, ran, freed⟩ := free_spec env 1 inv.toCore clean
  rw [ran]
  refine ⟨freed.core, fun address inside => ?_⟩
  rw [freed.memory] at inside
  exact freed.preserved address (fun own => inv.apart address own inside)
    (out.symm address inside) (inv.memoryArea address inside)

/-- A clean call keeps the invariant. -/
theorem step_sound (inv : Inv memblock) (clean : Clean env memblock call) :
    Sound (step env memblock call) := by
  cases call with
  | add base size => exact add_sound inv (toNat_le_ullongMax base) clean
  | reserve base size => exact reserve_sound inv (toNat_le_ullongMax base) clean
  | remove base size => exact remove_sound inv clean
  | free base size =>
    obtain ⟨memory, reserved, ne⟩ := clean
    by_cases sized : capSize base.toNat size.toNat = 0
    · simp only [step, removeRange, isolateRange, if_pos sized, bind, Except.bind, Nat.sub_self,
        removeRegions, State.set_type]
      exact inv
    exact free_sound inv memory ⟨reserved, ne sized, fun _ _ => inv.memoryArea⟩
  | markHotplug base size => exact hotplug_sound inv _ clean
  | clearHotplug base size => exact hotplug_sound inv _ clean

theorem emptyType_keeps : emptyType.Keeps [] :=
  ⟨⟨rfl, trivial, (fun _ mem => by cases mem), rfl⟩, .nil, by decide⟩

theorem init_inv : Inv init := by
  have nothing (address : Nat) : init.map .reserved address = none :=
    emptyType_keeps.lookup_regions address
  refine ⟨⟨⟨[], emptyType_keeps⟩, ⟨[], emptyType_keeps⟩, fun address flags found => ?_, by decide,
    by decide, Nat.zero_le _, Nat.zero_le _, ?_, ?_⟩, ?_⟩
  · cases found
  all_goals exact fun address inside => absurd inside (not_inArea_empty address)

/-- The invariant along a clean run. -/
theorem run_inv (inv : Inv memblock) (clean : CleanRun memblock calls) :
    (∀ new, run memblock calls = .ok new → Inv new) ∧
      (∀ fault, run memblock calls = .error fault → fault = .doubleArray) := by
  induction calls generalizing memblock with
  | nil =>
    constructor
    · intro new ran
      cases ran
      exact inv
    intro fault ran
    cases ran
  | cons head rest ih => ?_
  obtain ⟨env, call⟩ := head
  obtain ⟨first, later⟩ := clean
  have sound := step_sound inv first
  unfold run
  cases stepped : step env memblock call with
  | error fault =>
    rw [stepped] at sound
    constructor
    · intro new ran
      cases ran
    intro other ran
    cases ran
    exact sound
  | ok res => ?_
  rw [stepped] at sound later
  exact ih sound later

/-- Reservations of `0x80` bytes every `0x100`, from address zero up. -/
def spread (count : Nat) : List Call :=
  (range count).map fun k => .reserve (UInt64.ofNat (k * 0x100)) 0x80

def spreadRegions (count : Nat) : List Region := (range count).map fun k => ⟨k * 0x100, 0x80, 0⟩

theorem spread_succ (count : Nat) :
    spread (count + 1) = spread count ++ [.reserve (UInt64.ofNat (count * 0x100)) 0x80] := by
  rw [spread, range_succ, map_append]
  rfl

theorem run_cons {next : State} (stepped : step env memblock call = .ok (next, status))
    (rest : List (Env × Call)) : run memblock ((env, call) :: rest) = run next rest := by
  rw [run, stepped]
  rfl

theorem run_append {middle : State} (ran : run memblock first = .ok middle)
    (second : List (Env × Call)) : run memblock (first ++ second) = run middle second := by
  induction first generalizing memblock with
  | nil =>
    cases ran
    rfl
  | cons head rest ih => ?_
  obtain ⟨env, call⟩ := head
  rw [cons_append]
  cases stepped : step env memblock call with
  | error fault =>
    rw [run, stepped] at ran
    cases ran
  | ok res => ?_
  rw [run_cons stepped] at ran ⊢
  exact ih ran

theorem CleanRun.append {middle : State} (clean : CleanRun memblock first)
    (ran : run memblock first = .ok middle) (later : CleanRun middle second) :
    CleanRun memblock (first ++ second) := by
  induction first generalizing memblock with
  | nil =>
    cases ran
    exact later
  | cons head rest ih => ?_
  obtain ⟨env, call⟩ := head
  obtain ⟨now, clean⟩ := clean
  refine ⟨now, ?_⟩
  cases stepped : step env memblock call with
  | error fault => trivial
  | ok res => ?_
  rw [stepped] at clean
  rw [run_cons stepped] at ran
  exact ih clean ran

theorem run_spread (memory : MemblockType) {count : Nat} (pos : 0 < count) (fits : count ≤ 128) :
    ∃ type, run ⟨memory, emptyType⟩ ((spread count).map (earlyEnv, ·)) = .ok ⟨memory, type⟩ ∧
      CleanRun ⟨memory, emptyType⟩ ((spread count).map (earlyEnv, ·)) ∧
      type.Keeps (spreadRegions count) ∧ type.max = 128 ∧ type.home = .static := by
  induction count with
  | zero => omega
  | succ count ih => ?_
  by_cases first : count = 0
  · subst first
    refine ⟨⟨[⟨0, 0x80, 0⟩], 128, 0x80, .static⟩, rfl, ⟨?_, trivial⟩,
      ⟨⟨rfl, ?_, ?_, rfl⟩, .singleton _, ?_⟩, rfl, rfl⟩
    · exact fun (full : 128 < 1 + 1) => absurd full (by decide)
    · exact ⟨le_rfl, Nat.zero_lt_succ _, trivial⟩
    all_goals decide
  obtain ⟨type, ran, clean, keeps, max, home⟩ := ih (by omega) (by omega)
  have base : (UInt64.ofNat (count * 0x100)).toNat = count * 0x100 :=
    UInt64.toNat_ofNat_of_lt (by simp only [UInt64.size]; omega)
  have size : capSize (count * 0x100) 0x80 = 0x80 := by simp only [capSize, ullongMax]; omega
  have length : type.cnt = count := by
    rw [MemblockType.cnt, keeps.regions_eq (by simp [spreadRegions, first])]
    simp [spreadRegions]
  obtain ⟨next, added, kept, max', home'⟩ := addRange_append (callDouble earlyEnv) 0
    (show ((⟨memory, type⟩ : State).type .reserved).Keeps _ from keeps)
    (by simp [spreadRegions, first])
      (show count * 0x100 ≤ ullongMax by simp only [ullongMax]; omega)
    (show capSize (count * 0x100) 0x80 ≠ 0 by omega) (fun span mem => by
      obtain ⟨k, below, rfl⟩ := mem_map.mp mem
      have := mem_range.mp below
      simp only [limit]
      omega) (show type.cnt < type.max by omega)
  have stepped : step earlyEnv ⟨memory, type⟩ (.reserve (UInt64.ofNat (count * 0x100)) 0x80) =
      .ok (⟨memory, next⟩, .ok) := by
    rw [step, base]
    exact added
  have first_clean : Clean earlyEnv ⟨memory, type⟩
      (.reserve (UInt64.ofNat (count * 0x100)) 0x80) := by
    have static : type.area = (0, 0) := by rw [MemblockType.area, home]
    refine fun _ => ⟨.inl (by omega), ?_⟩
    rw [static]
    exact fun address _ => not_inArea_empty address
  rw [spread_succ, map_append]
  refine ⟨next, ?_, clean.append ran ⟨first_clean, ?_⟩, ?_, max'.trans max, home'.trans home⟩
  · rw [run_append ran]
    exact run_cons stepped []
  · rw [stepped]
    trivial
  rw [size] at kept
  rw [spreadRegions, range_succ, map_append]
  exact kept

theorem eq_spread {type : MemblockType} {count : Nat} (pos : 0 < count)
    (keeps : type.Keeps (spreadRegions count)) (max : type.max = 128) (home : type.home = .static) :
    type = ⟨spreadRegions count, 128, total (spreadRegions count), .static⟩ := by
  have ne : spreadRegions count ≠ [] := by simp [spreadRegions, pos.ne']
  rw [← max, ← home, ← keeps.totalSize, ← keeps.regions_eq ne]

/-- A memory region from address zero, with reservations in all entries of the static array. -/
theorem run_full {count : Nat} (pos : 0 < count) (fits : count ≤ 128) (size : UInt64)
    (added : step earlyEnv init (.add 0 size) =
      .ok (⟨⟨[⟨0, size.toNat, 0⟩], 128, size.toNat, .static⟩, emptyType⟩, .ok)) (rest : List Call) :
    let full : State := ⟨⟨[⟨0, size.toNat, 0⟩], 128, size.toNat, .static⟩,
      ⟨spreadRegions count, 128, total (spreadRegions count), .static⟩⟩
    run init ((Call.add 0 size :: (spread count ++ rest)).map (earlyEnv, ·)) =
        run full (rest.map (earlyEnv, ·)) ∧
      (CleanRun full (rest.map (earlyEnv, ·)) → Clean earlyEnv init (.add 0 size) →
        CleanRun init ((Call.add 0 size :: (spread count ++ rest)).map (earlyEnv, ·))) := by
  obtain ⟨type, ran, clean, keeps, max, home⟩ :=
    run_spread ⟨[⟨0, size.toNat, 0⟩], 128, size.toNat, .static⟩ pos fits
  obtain rfl := eq_spread pos keeps max home
  rw [map_cons, map_append]
  refine ⟨?_, fun later first => ⟨first, ?_⟩⟩
  · rw [run_cons added, run_append ran]
  rw [added]
  exact clean.append ran later

/-- In a run of clean calls both arrays are valid after every call, and the run stops for nothing
but a reservation that fails in `memblock_double_array`. -/
theorem clean_run_valid (calls : List (Env × Call)) (clean : CleanRun init calls) :
    (∀ new, run init calls = .ok new → new.memory.Valid ∧ new.reserved.Valid) ∧
      ∀ fault, run init calls = .error fault → fault = .doubleArray := by
  obtain ⟨reached, stopped⟩ := run_inv init_inv clean
  refine ⟨fun new ran => ?_, stopped⟩
  obtain ⟨memory, keepsMemory⟩ := (reached new ran).memory
  obtain ⟨reserved, keepsReserved⟩ := (reached new ran).reserved
  exact ⟨keepsMemory.valid, keepsReserved.valid⟩

/-- The static array is full, the next reservation moves it, and then come a reservation taken back
in part, a hotpluggable range and a hole. -/
def doublingRun : List (Env × Call) :=
  (Call.add 0 0x40000 :: (spread 128 ++ [.reserve 0x8000 0x80, .free 0x8040 0x80,
    .markHotplug 0x1000 0x1000, .remove 0x3000 0x800])).map (earlyEnv, ·)

theorem clean_run_valid_doubling :
    CleanRun init doublingRun ∧
      ∃ new, run init doublingRun = .ok new ∧ new.reserved.max = 256 ∧ new.reserved.cnt = 130 ∧
        new.memory.Valid ∧ new.reserved.Valid := by
  obtain ⟨same, clean⟩ := run_full (show 0 < 128 by decide) le_rfl 0x40000 rfl
    [.reserve 0x8000 0x80, .free 0x8040 0x80, .markHotplug 0x1000 0x1000, .remove 0x3000 0x800]
  have all : CleanRun init doublingRun := clean (by decide +kernel) (by decide +kernel)
  have sizes : ((run init doublingRun).toOption.map fun new =>
        (new.reserved.max, new.reserved.cnt)) = some (256, 130) := by
    rw [doublingRun, same]
    decide +kernel
  cases ran : run init doublingRun with
  | error fault =>
    rw [ran] at sizes
    cases sizes
  | ok new => ?_
  rw [ran] at sizes
  obtain ⟨max, cnt⟩ := Prod.mk.inj (Option.some.inj sizes)
  exact ⟨all, new, rfl, max, cnt, (clean_run_valid doublingRun all).1 new ran⟩

/-- Reserving from address zero over a full array: the array's new place is looked for below
address zero, which means anywhere, and is found inside the range. One gap more than was
counted has to be filled. -/
theorem reserve_from_zero_hits_bug :
    run init ((Call.add 0 0x17840 ::
          (spread 127 ++ [.reserve 0x17800 0x40, .reserve 0 0x17840])).map (earlyEnv, ·)) =
      .error .insertRegion := by
  have last : run ⟨⟨[⟨0, 0x17840, 0⟩], 128, 0x17840, .static⟩,
        ⟨spreadRegions 127, 128, total (spreadRegions 127), .static⟩⟩
        ([Call.reserve 0x17800 0x40, .reserve 0 0x17840].map (earlyEnv, ·)) =
      .error .insertRegion := by
    decide +kernel
  exact (run_full (show 0 < 127 by decide) (by decide) 0x17840 rfl _).1.trans last

end TinyKernel.Memblock
