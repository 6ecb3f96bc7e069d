import Mathlib.Data.Fintype.EquivFin
import TinyKernel.Genalloc.Pool

/-! A call of `gen_pool_alloc` while no other call runs, with its searches on a bitmap that does not
change. -/

namespace TinyKernel.Genalloc

theorem findNextBit_clear (low : offset ≤ bit) (high : bit < findNextBit view size offset) :
    view bit = false := by
  have top := high.trans_le (findNextBit_le view size offset)
  rw [findNextBit] at high
  cases found : (List.range' offset (size - offset)).find? view with
  | none => simpa using List.find?_range'_eq_none.mp found bit low (by omega)
  | some first => ?_
  rw [found] at high
  simpa using (List.find?_range'_eq_some.mp found).2.2 bit low high

theorem findNextBit_set (inside : findNextBit view size offset < size) :
    view (findNextBit view size offset) = true := by
  rw [findNextBit] at inside ⊢
  cases found : (List.range' offset (size - offset)).find? view with
  | none =>
    rw [found] at inside
    exact absurd inside (Nat.lt_irrefl size)
  | some first => exact List.find?_some found

/-- At `place` there are `nr` zero bits below `size`. -/
structure ZeroArea (view : Nat → Bool) (size nr place : Nat) : Prop where
  inside : place + nr ≤ size
  clear : ∀ bit, place ≤ bit → bit < place + nr → view bit = false

theorem index_le (some : 0 < nr) (low : start ≤ place) (align : mask + 1 ∣ place)
    (area : ZeroArea view size nr place) :
    alignMask (findNextZeroBit view size start) mask ≤ place := by
  have inside := area.inside
  have zero : findNextZeroBit view size start ≤ place := by
    by_contra behind
    have set := findNextBit_clear low (not_le.mp behind)
    rw [area.clear place le_rfl (by omega)] at set
    cases set
  obtain ⟨count, rfl⟩ := align
  rw [alignMask, Nat.mul_comm]
  refine Nat.mul_le_mul_left _ (Nat.lt_succ_iff.mp (Nat.div_lt_of_lt_mul ?_))
  rw [Nat.mul_succ]
  omega

/-- A search on a bitmap that does not change ends at the first aligned area from its start on, or
behind the bitmap if there is none. -/
theorem area_exact (view : Nat → Bool) (size start mask : Nat) (some : 0 < nr) :
    (size < bitmapFindNextZeroArea (fun _ => view) size start nr mask ∧
        ∀ place, start ≤ place → mask + 1 ∣ place → ¬ZeroArea view size nr place) ∨
      IsLeast {place | start ≤ place ∧ mask + 1 ∣ place ∧ ZeroArea view size nr place}
        (bitmapFindNextZeroArea (fun _ => view) size start nr mask) := by
  generalize same : (fun _ : Nat => view) = views
  fun_induction bitmapFindNextZeroArea views size start nr mask with
  | case1 views start index last out =>
    subst same
    refine .inl ⟨out, fun place low align area => ?_⟩
    have first : index ≤ place := index_le some low align area
    have inside := area.inside
    omega
  | case2 views start index last inside i again ih =>
    subst same
    -- the set bit lies in every area from here to it
    have skip (place : Nat) (low : start ≤ place) (align : mask + 1 ∣ place)
        (area : ZeroArea view size nr place) : i + 1 ≤ place := by
      have first : index ≤ place := index_le some low align area
      by_contra behind
      have set : view i = true := findNextBit_set again
      rw [area.clear i (by omega) (by omega)] at set
      cases set
    have later : start ≤ i := start_le_of_set view view size start mask (not_lt.mp inside) again
    rcases ih rfl with ⟨out, none⟩ | ⟨⟨low, found⟩, least⟩
    · exact .inl
        ⟨out, fun place low align area => none place (skip place low align area) align area⟩
    refine .inr ⟨⟨by omega, found⟩, ?_⟩
    rintro place ⟨low, align, area⟩
    exact least ⟨skip place low align area, align, area⟩
  | case3 views start index last inside i found => ?_
  subst same
  have first : min start size ≤ index :=
    (findNextBit_ge (fun bit => !view bit) size start).trans (le_alignMask _ mask)
  refine .inr ⟨⟨by omega, Nat.dvd_mul_left _ _, not_lt.mp inside, fun bit low high => ?_⟩, ?_⟩
  · exact findNextBit_clear low (high.trans_le (not_lt.mp found))
  rintro place ⟨low, align, area⟩
  exact index_le some low align area

/-- The bits of a chunk while nobody changes them. -/
def Memory.view {n : Nat} (memory : Memory n) (c : Fin n) (bit : Nat) : Bool :=
  (memory.bits c (bit / 64)).getLsbD (bit % 64)

variable {pool : Pool} {memory after : Memory pool.count} {call next : Call pool.count}

/-- What a step of a call that runs alone sees. -/
def Call.view (memory : Memory pool.count) : Call pool.count → Nat → Nat → Nat → Bool
  | .search _ c => fun _ _ => memory.view c
  | _ => fun _ _ _ => false

/-- A call alone, for a number of steps: what it returns, and the memory afterwards. -/
def runAlone (pool : Pool) :
    Nat → Memory pool.count → Call pool.count → Option (Option Allocation × Memory pool.count)
  | 0, _, _ => none
  | steps + 1, memory, call => do
    let (next, after, returned) ← advance pool (call.view memory) memory call
    if next = .idle then some (returned, after) else runAlone pool steps after next

/-- A call alone ends with an allocation. -/
def Gets (memory : Memory pool.count) (call : Call pool.count) (a : Allocation) : Prop :=
  ∃ steps after, runAlone pool steps memory call = some (some a, after)

variable {c : Fin pool.count}

theorem runAlone_step (busy : next ≠ .idle)
    (moved : advance pool (call.view memory) memory call = some (next, after, none)) :
    runAlone pool (steps + 1) memory call = runAlone pool steps after next := by
  rw [runAlone, moved]
  exact if_neg busy

theorem Gets.step (gets : Gets after next a) (busy : next ≠ .idle)
    (moved : advance pool (call.view memory) memory call = some (next, after, none)) :
    Gets memory call a := by
  obtain ⟨steps, last, ran⟩ := gets
  exact ⟨steps + 1, last, (runAlone_step busy moved).trans ran⟩

theorem Gets.sub (addr : addrOf pool r c ≠ 0) :
    Gets memory (.sub r c) ⟨addrOf pool r c, r.size⟩ := by
  refine ⟨1, memory.addAvail c (-toInt (r.nbits * 2 ^ pool.order)), ?_⟩
  rw [runAlone, advance, if_neg addr]
  rfl

/-- A walk over bits that are not set sets them all: at each word it reads the word and exchanges
it. -/
theorem Gets.set (addr : addrOf pool r c ≠ 0) (sound : walk.Sound .set) (unread : walk.val = none)
    (free : Disjoint (span c walk.lo walk.size) memory.taken) :
    Gets memory (.set r c walk) ⟨addrOf pool r c, r.size⟩ := by
  induction left : walk.size - walk.lo using Nat.strong_induction_on generalizing walk memory with
  | _ left ih =>
    have here : span c walk.lo walk.hi ⊆ span c walk.lo walk.size := span_subset c sound.hi_le
    have idle : Mode.set.busy (memory.bits c walk.p) walk.wordMask = false := by
      refine busy_set.mpr fun i covered => ?_
      obtain ⟨cell, inside, taken⟩ := sound.exists_cell covered
      exact Bool.eq_false_iff.mpr fun set => Set.disjoint_left.mp free (here inside) (taken.mpr set)
    let read : Walk := { walk with val := some (memory.bits c walk.p) }
    have first : memory.access c walk .set = (.more read, memory) := by
      simp [Memory.access, Walk.access, unread, Walk.test, idle, read]
    have second : memory.access c read .set = (walk.advance,
        memory.write c walk.p (Mode.set.apply (memory.bits c walk.p) walk.wordMask)) := by
      simp only [Memory.access, Walk.access, read, if_pos]
      rfl
    have lower := sound.lo_lt
    have rest : Gets memory (.set r c read) ⟨addrOf pool r c, r.size⟩ := by
      rcases sound.advance_cases with ⟨done, -⟩ | ⟨walk', more, sound', unread', size, lo⟩
      · rw [done] at second
        exact .step (.sub addr) (by rintro ⟨⟩) (by rw [advance, second]; rfl)
      rw [more] at second
      refine .step (ih _ ?_ sound' unread' ?_ rfl) (by rintro ⟨⟩) (by rw [advance, second]; rfl)
      · have upper := sound.hi_le
        omega
      rw [(sound.does idle).2, size, lo]
      refine Set.disjoint_union_right.mpr ⟨free.mono_left ?_, Set.disjoint_left.mpr ?_⟩
      · rintro cell ⟨chunk, low, high⟩
        exact ⟨chunk, lower.le.trans low, high⟩
      rintro cell ⟨-, low, -⟩ ⟨-, -, high⟩
      exact absurd low (not_le.mpr high)
    exact .step rest (by rintro ⟨⟩) (by rw [advance, first]; rfl)

variable {size : Nat}

/-- Chunks above address zero whose granules an `int` can count. -/
structure Pool.Countable (pool : Pool) : Prop where
  start : ∀ c, 0 < (pool.chunk c).startAddr
  ordered : ∀ c, (pool.chunk c).startAddr ≤ (pool.chunk c).endAddr
  last : ∀ c, (pool.chunk c).endAddr < 2 ^ 64
  few : ∀ c, pool.room c < 2 ^ 31

/-- A request whose granules an `int` can count. -/
structure Pool.Counts (pool : Pool) (size : Nat) : Prop where
  bytes : size + 2 ^ pool.order ≤ 2 ^ 64
  granules : pool.granules size < 2 ^ 31

theorem Pool.Counts.nbits_eq (counts : pool.Counts size) :
    pool.nbits size = pool.granules size := by
  have pos := Nat.two_pow_pos pool.order
  have bytes := counts.bytes
  have small := counts.granules
  rw [Pool.nbits, Nat.mod_eq_of_lt (by omega)]
  exact toInt_of_lt (Int.natCast_nonneg _) (by exact_mod_cast small)

theorem Pool.Countable.endBit_eq (countable : pool.Countable) (c : Fin pool.count) :
    pool.endBit c = pool.room c :=
  toInt_of_lt (Int.natCast_nonneg _) (by exact_mod_cast countable.few c)

/-- The address of a place inside a chunk. -/
theorem Pool.Countable.addr (countable : pool.Countable) (positive : 0 < size)
    (area : ZeroArea view (pool.room c) (pool.granules size) place) :
    addrOf pool ⟨size, pool.granules size, place⟩ c =
      (pool.chunk c).startAddr + place * 2 ^ pool.order := by
  have start := countable.start c
  have ordered := countable.ordered c
  have last := countable.last c
  have few := countable.few c
  have inside := area.inside
  have covered : (place + pool.granules size) * 2 ^ pool.order ≤ chunkSize (pool.chunk c) :=
    (Nat.mul_le_mul_right _ inside).trans (Nat.div_mul_le_self _ _)
  have some : 0 < pool.granules size * 2 ^ pool.order :=
    Nat.mul_pos (Pool.granules_pos positive) (Nat.two_pow_pos _)
  rw [Nat.add_mul, chunkSize] at covered
  rw [addrOf, toUlong_natCast (by omega)]
  apply Nat.mod_eq_of_lt
  omega

/-- A chunk has a run of free granules for a request. -/
def Pool.HasRun (pool : Pool) (memory : Memory pool.count) (size : Nat) (c : Fin pool.count) :
    Prop :=
  ∃ place, ZeroArea (memory.view c) (pool.room c) (pool.granules size) place

/-- What a call may return: an address in a run of free granules. -/
def Allocation.InRun (pool : Pool) (memory : Memory pool.count) (a : Allocation)
    (c : Fin pool.count) : Prop :=
  ∃ place, ZeroArea (memory.view c) (pool.room c) (pool.granules a.size) place ∧
    a.addr = (pool.chunk c).startAddr + place * 2 ^ pool.order

/-- Where the search in a chunk starts, if those in the chunks before it have failed: `start_bit` is
not set back between them. -/
def carried (pool : Pool) (memory : Memory pool.count) (size : Nat) : Nat → Nat
  | 0 => 0
  | n + 1 =>
    if inside : n < pool.count then
      if toUlong (memory.avail ⟨n, inside⟩) < size then carried pool memory size n
      else bitmapFindNextZeroArea (fun _ => memory.view ⟨n, inside⟩) (pool.room ⟨n, inside⟩)
        (carried pool memory size n) (pool.granules size) 0
    else carried pool memory size n

/-- A chunk with enough free bytes has a run of free granules where it is searched. -/
def Finds (pool : Pool) (memory : Memory pool.count) (size : Nat) (c : Fin pool.count) : Prop :=
  size ≤ toUlong (memory.avail c) ∧ ∃ place, carried pool memory size c ≤ place ∧
    ZeroArea (memory.view c) (pool.room c) (pool.granules size) place

/-- The searches that fail before a chunk end at places that an `int` can count. -/
def Counted (pool : Pool) (memory : Memory pool.count) (size : Nat) (c : Fin pool.count) : Prop :=
  ∀ d < c, size ≤ toUlong (memory.avail d) → carried pool memory size (d + 1) < 2 ^ 31

theorem carried_succ (c : Fin pool.count) :
    carried pool memory size (c + 1) =
      if toUlong (memory.avail c) < size then carried pool memory size c
      else bitmapFindNextZeroArea (fun _ => memory.view c) (pool.room c)
        (carried pool memory size c) (pool.granules size) 0 := by
  rw [carried, dif_pos c.isLt]

theorem Counted.lt (counted : Counted pool memory size c) {n : Nat} (before : n ≤ c) :
    carried pool memory size n < 2 ^ 31 := by
  induction n with
  | zero => exact Nat.two_pow_pos 31
  | succ n ih => ?_
  have inside : n < pool.count := (Nat.lt_of_succ_le before).trans c.isLt
  by_cases small : toUlong (memory.avail ⟨n, inside⟩) < size
  · rw [carried, dif_pos inside, if_pos small]
    exact ih (by omega)
  exact counted ⟨n, inside⟩ (Nat.lt_of_succ_le before) (not_lt.mp small)

/-- A search that fails ends less than a run behind the bitmap. -/
theorem area_le (views : Nat → Nat → Bool) (size start nr : Nat) :
    bitmapFindNextZeroArea views size start nr 0 ≤ size + nr := by
  have plain (index : Nat) : alignMask index 0 = index := by simp [alignMask]
  fun_induction bitmapFindNextZeroArea views size start nr 0 with
  | case1 views start index last out =>
    have low : index ≤ size := (plain _).trans_le (findNextBit_le ..)
    omega
  | case2 views start index last inside i again ih => exact ih
  | case3 views start index last inside i found => omega

section

variable (countable : pool.Countable) (algo : pool.algo = .firstFit) (counts : pool.Counts size)
include countable algo counts

theorem advance_search_alone (memory : Memory pool.count) (c : Fin pool.count) {start : Nat}
    (small : start < 2 ^ 31) :
    let call : Call pool.count := .search ⟨size, pool.granules size, start⟩ c
    advance pool (call.view memory) memory call = some (tryPlace pool ⟨size, pool.granules size,
      toInt (bitmapFindNextZeroArea (fun _ => memory.view c) (pool.room c) start
        (pool.granules size) 0)⟩ c,
      memory, none) := by
  have few := countable.few c
  have granules := counts.granules
  intro call
  rw [advance, algo, countable.endBit_eq, toUlong_natCast (by omega), toUlong_natCast (by omega),
    toUint_natCast (by omega)]
  rfl

/-- A search that finds a run ends with it. -/
theorem Gets.search {start : Nat} (positive : 0 < size) (small : start < 2 ^ 31)
    (from' : start ≤ other)
    (free : ZeroArea (memory.view c) (pool.room c) (pool.granules size) other) :
    ∃ addr, Gets memory (.search ⟨size, pool.granules size, start⟩ c) ⟨addr, size⟩ ∧
      Allocation.InRun pool memory ⟨addr, size⟩ c := by
  have granules : 0 < pool.granules size := Pool.granules_pos positive
  have few := countable.few c
  have start' := countable.start c
  have moved := advance_search_alone countable algo counts memory c small
  generalize found : bitmapFindNextZeroArea (fun _ => memory.view c) (pool.room c) start
    (pool.granules size) 0 = place at moved
  have area : ZeroArea (memory.view c) (pool.room c) (pool.granules size) place := by
    rcases area_exact (memory.view c) (pool.room c) start 0 granules with ⟨-, none⟩ | ⟨⟨-, -,
      area⟩, -⟩
    · exact absurd free (none other from' (one_dvd _))
    rwa [found] at area
  have high := area.inside
  have placed : toInt place = place := toInt_of_lt (by omega) (by omega)
  have addr := countable.addr positive area
  refine ⟨_, ?_, place, area, addr⟩
  have tried : tryPlace pool ⟨size, pool.granules size, (place : Int)⟩ c =
      afterSet pool ⟨size, pool.granules size, place⟩ c
        (Walk.start place (pool.granules size)) := by
    rw [tryPlace, countable.endBit_eq, if_neg (by simp only; omega), if_neg (by simp only; omega)]
    rfl
  rcases Walk.start_sound .set place (pool.granules size) with
    ⟨none, -⟩ | ⟨walk, begun, walks, lo, top⟩
  · omega
  have unread : walk.val = none := by
    rw [Walk.start, Walk.next, if_neg granules.ne'] at begun
    cases begun
    rfl
  rw [placed, tried, begun] at moved
  refine .step (.set (by omega) walks unread (Set.disjoint_left.mpr ?_)) (by rintro ⟨⟩) moved
  rintro ⟨d, bit⟩ ⟨rfl, low, last⟩ taken
  rw [lo, top] at *
  have clear := area.clear bit low last
  rw [Memory.view, show (memory.bits d (bit / 64)).getLsbD (bit % 64) = true from taken] at clear
  cases clear

/-- A search that finds nothing goes on to the next chunk from where it ended, or leaves the bitmap
if an `int` is too small for that place. -/
theorem search_fails (positive : 0 < size) (small : carried pool memory size c < 2 ^ 31)
    (enough : size ≤ toUlong (memory.avail c)) (none : ¬ Finds pool memory size c)
    (search : call = .search ⟨size, pool.granules size, carried pool memory size c⟩ c) :
    advance pool (call.view memory) memory call =
      some (if carried pool memory size (c + 1) < 2 ^ 31 then
        .scan ⟨size, pool.granules size, carried pool memory size (c + 1)⟩ (c + 1)
      else .wild, memory, Option.none) := by
  subst search
  set value := carried pool memory size (c + 1)
  have few := countable.few c
  have granules := counts.granules
  have value_eq : value = bitmapFindNextZeroArea (fun _ => memory.view c) (pool.room c)
      (carried pool memory size c) (pool.granules size) 0 :=
    (carried_succ c).trans (if_neg (not_lt.mpr enough))
  have bounded : value ≤ pool.room c + pool.granules size := value_eq ▸ area_le ..
  have behind : pool.room c < value := by
    rw [value_eq]
    rcases area_exact (memory.view c) (pool.room c) (carried pool memory size c) 0
      (Pool.granules_pos positive) with ⟨out, -⟩ | ⟨⟨low, -, area⟩, -⟩
    · exact out
    exact absurd ⟨enough, _, low, area⟩ none
  rw [advance_search_alone countable algo counts memory c small, ← value_eq]
  refine congrArg (fun next => some (next, memory, Option.none)) ?_
  split
  next fits =>
    rw [toInt_of_lt (by omega) (by omega), tryPlace, countable.endBit_eq,
      if_pos (by simp only; omega)]
  next large =>
    have negative : toInt value = value - 2 ^ 32 := by
      rw [toInt, Int.bmod_def]
      split <;> omega
    rw [negative, tryPlace, countable.endBit_eq, if_neg (by simp only; omega),
      if_pos (by simp only; omega)]

omit countable algo counts in
theorem advance_scan_less (inside : n < pool.count)
    (less : toUlong (memory.avail ⟨n, inside⟩) < r.size) :
    advance pool views memory (.scan r n) = some (.scan r (n + 1), memory, none) := by
  rw [advance, dif_pos inside, if_pos less]

omit countable algo counts in
theorem advance_scan_enough (inside : n < pool.count)
    (enough : ¬ toUlong (memory.avail ⟨n, inside⟩) < r.size) :
    advance pool views memory (.scan r n) = some (.search r ⟨n, inside⟩, memory, none) := by
  rw [advance, dif_pos inside, if_neg enough]

/-- The scan from a chunk on gets a run, if the first chunk that has one where it is searched comes
after it. -/
theorem Gets.scan (positive : 0 < size) (counted : Counted pool memory size c)
    (finds : Finds pool memory size c) (first : ∀ d < c, ¬ Finds pool memory size d) {next : Nat}
    (before : next ≤ c) :
    ∃ addr, Gets memory (.scan ⟨size, pool.granules size, carried pool memory size next⟩ next)
        ⟨addr, size⟩ ∧ Allocation.InRun pool memory ⟨addr, size⟩ c := by
  induction before using Nat.decreasingInduction with
  | self =>
    obtain ⟨enough, place, low, area⟩ := finds
    obtain ⟨addr, gets, run⟩ :=
      Gets.search countable algo counts positive (counted.lt le_rfl) low area
    exact ⟨addr, .step gets (by rintro ⟨⟩) (advance_scan_enough c.isLt (not_lt.mpr enough)), run⟩
  | of_succ next before ih => ?_
  have inside : next < pool.count := before.trans c.isLt
  obtain ⟨addr, gets, run⟩ := ih
  refine ⟨addr, ?_, run⟩
  by_cases small : toUlong (memory.avail ⟨next, inside⟩) < size
  · rw [carried, dif_pos inside, if_pos small] at gets
    exact .step gets (by rintro ⟨⟩) (advance_scan_less inside small)
  have fails := search_fails countable algo counts positive (counted.lt before.le) (not_lt.mp small)
    (first ⟨next, inside⟩ before) rfl
  rw [if_pos (counted.lt before)] at fails
  exact .step (.step gets (by rintro ⟨⟩) fails) (by rintro ⟨⟩) (advance_scan_enough inside small)

/-- A scan that gets anything comes to a chunk that has a run where it is searched. -/
theorem finds_of_runAlone (positive : 0 < size) {n : Nat}
    (small : carried pool memory size n < 2 ^ 31)
    (ran : runAlone pool steps memory
        (.scan ⟨size, pool.granules size, carried pool memory size n⟩ n) = some (some a, after)) :
    ∃ c : Fin pool.count, Finds pool memory size c ∧
      ∀ d < c, n ≤ d → size ≤ toUlong (memory.avail d) →
        carried pool memory size (d + 1) < 2 ^ 31 := by
  induction left : pool.count - n generalizing n steps with
  | zero =>
    obtain _ | steps := steps
    · cases ran
    rw [runAlone, advance, dif_neg (by omega)] at ran
    cases ran
  | succ left ih => ?_
  have inside : n < pool.count := by omega
  obtain _ | steps := steps
  · cases ran
  by_cases less : toUlong (memory.avail ⟨n, inside⟩) < size
  · have same : carried pool memory size (n + 1) = carried pool memory size n := by
      rw [carried, dif_pos inside, if_pos less]
    rw [runAlone_step (by rintro ⟨⟩) (advance_scan_less inside less), ← same] at ran
    obtain ⟨c, finds, counted⟩ := ih (same ▸ small) ran (by omega)
    refine ⟨c, finds, fun d before above enough => ?_⟩
    rcases above.lt_or_eq with above | rfl
    · exact counted d before above enough
    exact absurd less (not_lt.mpr enough)
  rw [runAlone_step (by rintro ⟨⟩) (advance_scan_enough inside less)] at ran
  by_cases finds : Finds pool memory size ⟨n, inside⟩
  · exact ⟨_, finds, fun d before above => absurd before (not_lt.mpr above)⟩
  have fails := search_fails countable algo counts positive small (not_lt.mp less) finds rfl
  obtain _ | steps := steps
  · cases ran
  by_cases next : carried pool memory size (n + 1) < 2 ^ 31
  · rw [if_pos next] at fails
    rw [runAlone_step (by rintro ⟨⟩) fails] at ran
    obtain ⟨c, finds, counted⟩ := ih next ran (by omega)
    refine ⟨c, finds, fun d before above enough => ?_⟩
    rcases above.lt_or_eq with above | rfl
    · exact counted d before above enough
    exact next
  rw [if_neg next] at fails
  rw [runAlone_step (by rintro ⟨⟩) fails] at ran
  obtain _ | steps := steps <;> cases ran

end

/-- A call that runs alone gets an address in a run of free granules exactly if it asks for
something and comes to a chunk with enough free bytes that has such a run from the carried
`start_bit` on. -/
theorem gen_pool_alloc_complete_iff (countable : pool.Countable) (algo : pool.algo = .firstFit)
    (counts : pool.Counts size) (memory : Memory pool.count) :
    (∃ steps addr after d,
        runAlone pool steps memory (genPoolAlloc pool size) = some (some ⟨addr, size⟩, after) ∧
          addr ≠ 0 ∧ Allocation.InRun pool memory ⟨addr, size⟩ d) ↔
      0 < size ∧ ∃ c, Finds pool memory size c ∧ Counted pool memory size c := by
  have call (positive : 0 < size) : genPoolAlloc pool size =
      .scan ⟨size, pool.granules size, carried pool memory size 0⟩ 0 := by
    rw [genPoolAlloc, if_neg positive.ne', counts.nbits_eq]
    rfl
  constructor
  · rintro ⟨steps, addr, after, d, ran, -, -⟩
    have positive : 0 < size := by
      refine Nat.pos_of_ne_zero fun zero => ?_
      rw [genPoolAlloc, if_pos zero] at ran
      cases steps <;> cases ran
    rw [call positive] at ran
    obtain ⟨c, finds, counted⟩ :=
      finds_of_runAlone countable algo counts positive (n := 0) (Nat.two_pow_pos 31) ran
    exact ⟨positive, c, finds, fun d before => counted d before (Nat.zero_le d)⟩
  rintro ⟨positive, c, finds, counted⟩
  -- the first such chunk
  obtain ⟨d, ⟨finds, before⟩, first⟩ : ∃ d, (Finds pool memory size d ∧ d ≤ c) ∧
      ∀ e < d, ¬ Finds pool memory size e := by
    classical
    obtain ⟨d, found, least⟩ := WellFounded.has_min (Finite.wellFounded_of_trans_of_irrefl (· < ·))
      {d | Finds pool memory size d} ⟨c, finds⟩
    exact ⟨d, ⟨found, not_lt.mp (least c finds)⟩, fun e earlier found => least e found earlier⟩
  obtain ⟨addr, ⟨steps, after, ran⟩, place, area, same⟩ := Gets.scan countable algo counts positive
    (fun e earlier => counted e (earlier.trans_le before)) finds first (Nat.zero_le d)
  have start := countable.start d
  refine ⟨steps, addr, after, d, (call positive).symm ▸ ran, ?_, place, area, same⟩
  simp only at same
  omega

/-- A chunk of three granules before one of `bytes` bytes. -/
def twoChunks (bytes : Nat) : Pool :=
  genPoolAddVirt (genPoolAddVirt ⟨4, .firstFit, []⟩ 8192 bytes) 4096 48

/-- The middle granule of the first chunk is taken. The search there ends behind the chunk, and the
search in the second chunk starts where it ended. -/
def fragmented (bytes : Nat) : Memory (twoChunks bytes).count where
  bits := fun c _ => if c.val = 0 then 2 else 0
  avail := fun c => if c.val = 0 then 32 else bytes

/-- A second chunk of a hundred granules has a run behind that place. -/
theorem gen_pool_alloc_complete_iff_fragmented :
    ∃ steps addr after d, runAlone (twoChunks 1600) steps (fragmented 1600)
          (genPoolAlloc (twoChunks 1600) 32) = some (some ⟨addr, 32⟩, after) ∧ addr ≠ 0 ∧
      Allocation.InRun (twoChunks 1600) (fragmented 1600) ⟨addr, 32⟩ d := by
  refine (gen_pool_alloc_complete_iff (by constructor <;> decide) rfl (by constructor <;> decide)
    (fragmented 1600)).mpr
    ⟨by decide, ⟨1, by decide⟩, ⟨by decide, 4, by decide +kernel, by decide, fun _ _ _ => ?_⟩, ?_⟩
  · simp [Memory.view, fragmented]
  unfold Counted
  decide +kernel

/-- A second chunk of three granules is free, but has no run behind that place. -/
theorem gen_pool_alloc_skips_chunk :
    (twoChunks 48).HasRun (fragmented 48) 32 ⟨1, by decide⟩ ∧
      32 ≤ toUlong ((fragmented 48).avail ⟨1, by decide⟩) ∧
      (runAlone (twoChunks 48) 5 (fragmented 48) (genPoolAlloc (twoChunks 48) 32)).map Prod.fst =
        some none := by
  refine ⟨⟨0, by decide, fun _ _ _ => ?_⟩, by decide, by decide +kernel⟩
  simp [Memory.view, fragmented]

end TinyKernel.Genalloc
