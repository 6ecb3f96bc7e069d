import TinyKernel.Vmalloc.Code

/-! The search for a hole between the areas. -/

namespace TinyKernel.Vmalloc

open Lib Rbtree Bin List Option Nat

section

variable {bits a x : Nat}

theorem isPowerOf2_iff (power : isPowerOf2 n = true) : ∃ k, n = 2 ^ k := by
  obtain ⟨positive, common⟩ : n ≠ 0 ∧ n &&& (n - 1) = 0 := by simpa [isPowerOf2] using power
  have low := log2_self_le positive
  have high := lt_log2_self (n := n)
  refine ⟨n.log2, ?_⟩
  by_contra ne
  -- otherwise the highest bit is in `n - 1` too
  have bit : (n &&& (n - 1)).testBit n.log2 = true := by
    rw [testBit_and, testBit_of_two_pow_le_and_two_pow_add_one_gt low high,
      testBit_of_two_pow_le_and_two_pow_add_one_gt (by omega) (by omega)]
    rfl
  rw [common, zero_testBit] at bit
  cases bit

section

variable (power : isPowerOf2 a = true) (fits : x + a ≤ 2 ^ bits)
include power fits

/-- Rounding up works as long as the sum does not wrap. -/
theorem align_eq : align bits x a = (x + (a - 1)) / a * a := by
  obtain ⟨k, rfl⟩ := isPowerOf2_iff power
  have sum_lt : x + (2 ^ k - 1) < 2 ^ bits := by
    have := Nat.two_pow_pos k
    omega
  rw [align, plus, Nat.mod_eq_of_lt sum_lt, Nat.and_two_pow_sub_one_eq_mod]
  have split_sum := Nat.div_add_mod' (x + (2 ^ k - 1)) (2 ^ k)
  omega

theorem le_align : x ≤ align bits x a := by
  obtain ⟨k, rfl⟩ := isPowerOf2_iff power
  rw [align_eq power fits]
  have positive := Nat.two_pow_pos k
  have split_sum := Nat.div_add_mod' (x + (2 ^ k - 1)) (2 ^ k)
  omega

theorem dvd_align : a ∣ align bits x a := by
  rw [align_eq power fits]
  exact Nat.dvd_mul_left a _

theorem align_lt : align bits x a < 2 ^ bits := by
  obtain ⟨k, rfl⟩ := isPowerOf2_iff power
  rw [align_eq power fits]
  have positive := Nat.two_pow_pos k
  have le := Nat.div_mul_le_self (x + (2 ^ k - 1)) (2 ^ k)
  omega

end

theorem align_mono (power : isPowerOf2 a = true) (fits : y + a ≤ 2 ^ bits) (le : x ≤ y) :
    align bits x a ≤ align bits y a := by
  rw [align_eq power fits, align_eq power (by omega)]
  exact Nat.mul_le_mul_right a (Nat.div_le_div_right (by omega))

theorem align_le (power : isPowerOf2 a = true) (fits : x + a ≤ 2 ^ bits) (le : x ≤ y)
    (aligned : a ∣ y) : align bits x a ≤ y := by
  obtain ⟨k, rfl⟩ := aligned
  have positive : 0 < a := by
    obtain ⟨j, rfl⟩ := isPowerOf2_iff power
    exact Nat.two_pow_pos j
  rw [align_eq power fits, Nat.mul_comm a k]
  refine mul_le_mul_right a (le_of_lt_succ ((div_lt_iff_lt_mul positive).mpr ?_))
  rw [succ_mul, mul_comm k a]
  omega

theorem le_of_wraps {size : Nat} (wraps : plus bits x size < x) : 2 ^ bits ≤ x + size := by
  by_contra fits
  rw [plus, mod_eq_of_lt (by omega)] at wraps
  omega

theorem plus_eq {size : Nat} (address : x < 2 ^ bits) (small : size < 2 ^ bits)
    (stays : ¬plus bits x size < x) : plus bits x size = x + size ∧ x + size < 2 ^ bits := by
  rw [plus] at stays ⊢
  have fits : x + size < 2 ^ bits := by
    by_contra large
    rw [mod_eq_sub_mod (by omega), mod_eq_of_lt (by omega)] at stays
    omega
  exact ⟨mod_eq_of_lt fits, fits⟩

end

/-- Areas one above the other. -/
structure Ascending (area : Id → VmapArea) (ids : List Id) : Prop where
  apart : ids.Pairwise fun a b => (area a).vaEnd ≤ (area b).vaStart
  positive : ∀ id ∈ ids, (area id).vaStart < (area id).vaEnd

namespace Ascending

variable {area : Id → VmapArea} {ids before after : List Id} {id : Id}

theorem sublist (sorted : Ascending area ids) (sub : fewer.Sublist ids) : Ascending area fewer :=
  ⟨sorted.apart.sublist sub, fun id mem => sorted.positive id (sub.subset mem)⟩

theorem left (sorted : Ascending area (before ++ id :: after)) :
    ∀ a ∈ before, (area a).vaEnd ≤ (area id).vaStart :=
  fun a mem => (pairwise_append.mp sorted.apart).2.2 a mem id (.head _)

theorem right (sorted : Ascending area (before ++ id :: after)) :
    ∀ a ∈ after, (area id).vaEnd ≤ (area a).vaStart :=
  (pairwise_cons.mp (pairwise_append.mp sorted.apart).2.1).1

theorem here (sorted : Ascending area (before ++ id :: after)) :
    (area id).vaStart < (area id).vaEnd :=
  sorted.positive id (by simp)

end Ascending

/-- A request that `alloc_vmap_area` may be called with. -/
structure Request.Valid (bits pageShift : Nat) (request : Request) : Prop where
  positive : request.size ≠ 0
  pages : request.size % 2 ^ pageShift = 0
  power : isPowerOf2 request.align = true
  ordered : request.vstart < request.vend
  size_lt : request.size < 2 ^ bits
  vend_lt : request.vend < 2 ^ bits

/-- Rounding up neither the lower bound nor the end of an area wraps. -/
structure Request.Rounds (bits : Nat) (request : Request) (area : Id → VmapArea) (ids : List Id) :
    Prop where
  vstart : request.vstart + request.align ≤ 2 ^ bits
  areas : ∀ id ∈ ids, (area id).vaEnd + request.align ≤ 2 ^ bits

section

variable {tree : Mem VmapArea Unit} {t : RbTree VmapArea Unit}

/-- An area that all lower ones are below `addr`. -/
def FirstAt (area : Id → VmapArea) (addr : Nat) (ids : List Id) : Option Id → Prop
  | none => ∀ a ∈ ids, (area a).vaEnd ≤ addr
  | some first => ∃ before after, ids = before ++ first :: after ∧
    (∀ a ∈ before, (area a).vaEnd ≤ addr) ∧ addr ≤ (area first).vaEnd

theorem findFirst_spec (addr : Nat) (rep : Rep tree top t) (below above : List Id)
    (sorted : Ascending (dataOf tree) (below ++ (t.ids ++ above)))
    (under : ∀ a ∈ below, (dataOf tree a).vaEnd ≤ addr) (next : first = above.head?)
    (reaches : ∀ a ∈ first, addr ≤ (dataOf tree a).vaEnd) (enough : t.ids.length < rounds) :
    ∃ found, findFirst tree addr rounds t.root first = .ok found ∧
      FirstAt (dataOf tree) addr (below ++ (t.ids ++ above)) found := by
  induction t generalizing top first below above rounds with
  | nil =>
    obtain _ | rounds := rounds
    · omega
    refine ⟨first, by rw [root_nil, findFirst], ?_⟩
    subst next
    cases above with
    | nil => simpa [FirstAt, Bin.ids] using under
    | cons a above => exact ⟨below, above, rfl, under, reaches a rfl⟩
  | node left id info right ihLeft ihRight => ?_
  obtain _ | rounds := rounds
  · omega
  obtain ⟨_, _, onLeft, onRight, repLeft, repRight⟩ := rep
  simp only [Bin.ids, length_append, length_cons] at enough
  have shape : below ++ ((node left id info right).ids ++ above) =
      (below ++ left.ids) ++ id :: (right.ids ++ above) := by simp [Bin.ids]
  rw [shape] at sorted
  have lower := sorted.left
  have here := sorted.here
  rw [root, findFirst, onLeft, onRight]
  split
  · next reach =>
    split
    · next start =>
      refine ⟨some id, rfl, below ++ left.ids, right.ids ++ above, shape, fun a mem => ?_, reach⟩
      exact le_trans (lower a mem) start
    have again : below ++ ((node left id info right).ids ++ above) =
        below ++ (left.ids ++ id :: (right.ids ++ above)) := by simp [Bin.ids]
    rw [again]
    refine ihLeft repLeft below (id :: (right.ids ++ above)) (by simpa using sorted) under rfl ?_
      (by omega)
    intro a same
    obtain rfl := mem_some_iff.mp same
    exact reach
  rename_i short
  have again : below ++ ((node left id info right).ids ++ above) =
      ((below ++ left.ids) ++ [id]) ++ (right.ids ++ above) := by simp [Bin.ids]
  rw [again]
  refine ihRight repRight ((below ++ left.ids) ++ [id]) above (by simpa using sorted) ?_ next
    reaches (by omega)
  intro a mem
  rcases mem_append.mp mem with old | same
  · have := lower a old
    omega
  obtain rfl := mem_singleton.mp same
  omega

end

/-- A hole for a request. -/
structure Hole (bits : Nat) (request : Request) (area : Id → VmapArea) (ids : List Id)
    (addr : Nat) : Prop where
  above : request.vstart ≤ addr
  aligned : request.align ∣ addr
  fits : addr + request.size < 2 ^ bits
  free : plus bits addr request.size ≤ request.vend → ∀ id ∈ ids,
    (area id).vaEnd ≤ addr ∨ addr + request.size ≤ (area id).vaStart

/-- A place that no area meets. -/
def Vacant (area : Id → VmapArea) (ids : List Id) (addr size : Nat) : Prop :=
  ∀ id ∈ ids, (area id).vaEnd ≤ addr ∨ addr + size ≤ (area id).vaStart

/-- The search has not gone beyond a place, unless there is no room for the request from there
on. -/
def Misses (bits : Nat) (request : Request) (found : Option Nat) (place : Nat) : Prop :=
  found.elim (2 ^ bits ≤ place + request.size) (· ≤ place)

/-- The walk from an address did not pass a place for the request, nor one larger than the hole it
noticed. -/
def Skips (bits : Nat) (request : Request) (area : Id → VmapArea) (ids : List Id) (addr hole : Nat)
    (found : Option Nat) : Prop :=
  ∀ place size, request.align ∣ place → addr ≤ place → request.size ≤ size ∨ hole < size →
    Vacant area ids place size → Misses bits request found place

/-- The hole below an area in the way is noticed. -/
theorem noticed_hole {bits size start : Nat} (small : hole ≤ size) (fits : addr + size < 2 ^ bits)
    (meets : start < addr + size) :
    ∃ hole', (if plus bits addr hole < start then minus bits start addr else hole) = hole' ∧
      hole ≤ hole' ∧ hole' ≤ size ∧ start ≤ addr + hole' := by
  refine ⟨_, rfl, ?_⟩
  rw [plus, mod_eq_of_lt (by omega)]
  split
  · have rest : minus bits start addr = start - addr := by
      rw [minus, Nat.sub_add_comm (by omega), Nat.add_mod_right, Nat.mod_eq_of_lt (by omega)]
    omega
  omega

/-- Where the walk over the areas may start: those before the first one are below the address. -/
structure StartsAt (bits : Nat) (request : Request) (area : Id → VmapArea) (ids : List Id)
    (addr : Nat) (first : Option Id) : Prop where
  above : request.vstart ≤ addr
  aligned : request.align ∣ addr
  fits : addr + request.size < 2 ^ bits
  under : first = none → ∀ a ∈ ids, (area a).vaEnd ≤ addr
  order : ∀ id ∈ first, addr ≤ align bits (area id).vaEnd request.align ∧
    ∃ before after, ids = before ++ id :: after ∧ ∀ a ∈ before, (area a).vaEnd ≤ addr

/-- Below the cached area no place, for the parameters of the cache, is larger than the hole
noticed. -/
structure Covered (areas : Areas) (ids : List Id) : Prop where
  power : areas.freeVmapCache ≠ none → isPowerOf2 areas.cachedAlign = true
  noticed : ∀ id ∈ areas.freeVmapCache, ∀ place size, areas.cachedVstart ≤ place →
    areas.cachedAlign ∣ place → areas.cachedHoleSize < size →
    Vacant (dataOf areas.tree) ids place size → (dataOf areas.tree id).vaEnd ≤ place

section

variable {bits pageShift : Nat} {request : Request} {tree : Mem VmapArea Unit}
    {t : RbTree VmapArea Unit}

variable {rounds addr : Nat} {areas areas' : Areas} {ids : List Id}

/-- A hole that the new area fits into. -/
structure Room (request : Request) (area : Id → VmapArea) (ids : List Id) (addr : Nat) : Prop where
  above : request.vstart ≤ addr
  below : addr + request.size ≤ request.vend
  aligned : request.align ∣ addr
  free : ∀ id ∈ ids, (area id).vaEnd ≤ addr ∨ addr + request.size ≤ (area id).vaStart

theorem Hole.room (hole : Hole bits request area ids addr)
    (inside : plus bits addr request.size ≤ request.vend) : Room request area ids addr := by
  have sum : plus bits addr request.size = addr + request.size := mod_eq_of_lt hole.fits
  exact ⟨hole.above, sum ▸ inside, hole.aligned, hole.free inside⟩

/-- The cache is kept only for a request that it is good for. -/
theorem Covered.checkCache (power : isPowerOf2 request.align = true) (covered : Covered areas ids) :
    Covered (checkCache request areas) ids := by
  refine ⟨fun _ => power, fun id cache place size above aligned larger vacant => ?_⟩
  rw [Vmalloc.checkCache] at cache above aligned larger vacant ⊢
  split at cache
  · simp [nocache] at cache
  rename_i kept
  rw [if_neg kept] at larger vacant ⊢
  obtain ⟨i, align_pow⟩ := isPowerOf2_iff (covered.power fun gone => kept (.inl gone))
  obtain ⟨j, request_pow⟩ := isPowerOf2_iff power
  have divides : areas.cachedAlign ∣ request.align := by
    have le : ¬request.align < areas.cachedAlign := fun less => kept (.inr (.inr (.inr less)))
    rw [align_pow, request_pow] at le ⊢
    exact Nat.pow_dvd_pow 2 ((Nat.pow_le_pow_iff_right (by omega)).mp (Nat.le_of_not_lt le))
  have low : ¬request.vstart < areas.cachedVstart := fun less => kept (.inr (.inr (.inl less)))
  exact covered.noticed id cache place size (by simp only at above; omega) (divides.trans aligned)
    larger vacant

/-- A larger hole noticed, or a dropped cache, says less. -/
theorem Covered.weaken (covered : Covered areas ids)
    (which : areas' = areas ∨ areas' = nocache areas) (grows : areas'.cachedHoleSize ≤ hole) :
    Covered { areas' with cachedHoleSize := hole } ids := by
  rcases which with rfl | rfl
  · exact ⟨covered.power, fun id cache place size above aligned larger =>
      covered.noticed id cache place size above aligned (lt_of_le_of_lt grows larger)⟩
  exact ⟨fun cache => (cache rfl).elim, by simp [nocache]⟩

/-- A request as large as the hole noticed does not use the cache. -/
def Request.Differs (request : Request) (areas : Areas) : Prop :=
  request.size = areas.cachedHoleSize → (checkCache request areas).freeVmapCache = none

/-- What a search says about the places for its request. -/
structure Searched (request : Request) (areas areas' : Areas) (ids : List Id) (found : Option Nat) :
    Prop where
  covered : Covered areas' ids
  lowest : ∀ addr ∈ found, ∀ place size, request.vstart ≤ place → request.align ∣ place →
    areas'.cachedHoleSize < size → Vacant (dataOf areas.tree) ids place size → addr ≤ place
  complete : found = none → request.Differs areas →
    ∀ addr, ¬Room request (dataOf areas.tree) ids addr

/-- A search that misses no place before it checks the upper bound. -/
theorem Searched.of_found (valid : request.Valid bits pageShift) (covered : Covered areas' ids)
    (fits : ∀ addr ∈ f, addr + request.size < 2 ^ bits) (low : hole ≤ areas'.cachedHoleSize)
    (strict : request.Differs areas → hole < request.size)
    (misses : ∀ place size, request.vstart ≤ place → request.align ∣ place → hole < size →
      request.size ≤ size ∨ areas'.cachedHoleSize < size →
      Vacant (dataOf areas.tree) ids place size → Misses bits request f place) :
    Searched request areas areas' ids
      (f.filter fun addr => plus bits addr request.size ≤ request.vend) := by
  refine ⟨covered, fun addr mem place size above aligned larger vacant => ?_,
    fun gone differs addr room => ?_⟩
  · have bound := misses place size above aligned (lt_of_le_of_lt low larger) (.inr larger) vacant
    rwa [Misses, (mem_filter_iff.mp mem).1] at bound
  have bound :=
    misses addr request.size room.above room.aligned (strict differs) (.inl (le_rfl)) room.free
  have below := room.below
  have vend_lt := valid.vend_lt
  cases f with
  | none =>
    simp only [Misses, elim_none] at bound
    omega
  | some lowest => ?_
  have sum : plus bits lowest request.size = lowest + request.size := mod_eq_of_lt (fits lowest rfl)
  have late : ¬lowest + request.size ≤ request.vend := by simpa [filter, sum] using gone
  simp only [Misses, elim_some] at bound
  omega

section

variable (valid : request.Valid bits pageShift) (rounding : request.Rounds bits (dataOf tree) t.ids)
variable (holds : Holds tree t) (sorted : Ascending (dataOf tree) t.ids)
    (enough : t.ids.length < rounds)
include valid rounding holds sorted enough

theorem scan_spec {before after : List Id} {first : Id} (order : t.ids = before ++ first :: after)
    (small : hole ≤ request.size) (under : ∀ a ∈ before, (dataOf tree a).vaEnd ≤ addr)
    (above : request.vstart ≤ addr) (aligned : request.align ∣ addr)
    (fits : addr + request.size < 2 ^ bits)
    (next : addr ≤ align bits (dataOf tree first).vaEnd request.align) {fuel : Nat}
    (long : after.length < fuel) :
    ∃ hole' found, scan bits request tree rounds fuel hole addr first = .ok (hole', found) ∧
      (∀ addr' ∈ found, Hole bits request (dataOf tree) t.ids addr') ∧ hole ≤ hole' ∧
      Skips bits request (dataOf tree) t.ids addr hole' found := by
  induction fuel generalizing before after first addr hole with
  | zero => cases long
  | succ fuel ih => ?_
  have fits_area : (dataOf tree first).vaEnd + request.align ≤ 2 ^ bits :=
    rounding.areas first (by simp [order])
  rw [order] at sorted
  have lower := sorted.left
  have higher := sorted.right
  have here := sorted.here
  have sum : plus bits addr request.size = addr + request.size := mod_eq_of_lt fits
  rw [scan]
  split
  · -- the area is in the way
    next meets =>
    have addr_lt := align_lt valid.power fits_area
    have addr_ge := le_align valid.power fits_area
    have past : ∀ a ∈ before ++ [first],
        (dataOf tree a).vaEnd ≤ align bits (dataOf tree first).vaEnd request.align := by
      intro a mem
      rcases mem_append.mp mem with old | same
      · have := lower a old
        omega
      obtain rfl := mem_singleton.mp same
      exact addr_ge
    obtain ⟨hole', hole_eq, grows, small', reaches⟩ := noticed_hole small fits (sum ▸ meets.1)
    have beyond {last : Nat} (more : hole' ≤ last) {place size : Nat}
      (aligned : request.align ∣ place) (from_addr : addr ≤ place)
      (large : request.size ≤ size ∨ last < size) (vacant : Vacant (dataOf tree) t.ids place size) :
        align bits (dataOf tree first).vaEnd request.align ≤ place := by
      rcases vacant first (by simp [order]) with behind | ahead
      · exact align_le valid.power fits_area behind aligned
      omega
    simp only [hole_eq]
    split
    · next wraps =>
      refine ⟨hole', none, rfl, by simp, grows, fun place size aligned from_addr large vacant => ?_⟩
      have passes := beyond (le_rfl) aligned from_addr large vacant
      exact Nat.le_trans (le_of_wraps wraps) (Nat.add_le_add_right passes _)
    rename_i stays
    obtain ⟨-, fits'⟩ := plus_eq addr_lt valid.size_lt stays
    rw [(neighbours holds order enough).1]
    cases after with
    | nil =>
      refine ⟨hole', _, rfl, fun addr' found => ?_, grows,
        fun place size aligned from_addr large vacant =>
        beyond (le_rfl) aligned from_addr large vacant⟩
      obtain rfl := mem_some_iff.mp found
      refine ⟨le_trans above next, dvd_align valid.power fits_area, fits', fun _ id mem => ?_⟩
      rw [order] at mem
      exact .inl (past id mem)
    | cons second after => ?_
    have order' : t.ids = (before ++ [first]) ++ second :: after := by simp [order]
    have second_fits : (dataOf tree second).vaEnd + request.align ≤ 2 ^ bits :=
      rounding.areas second (by simp [order])
    have second_positive := sorted.positive second (by simp)
    have second_above := higher second (by simp)
    obtain ⟨last, found, seen, holes, more, skips⟩ := ih order' small' past (le_trans above next)
      (dvd_align valid.power fits_area) fits' (align_mono valid.power second_fits (by omega))
      (lt_of_succ_lt_succ long)
    exact ⟨last, found, seen, holes, grows.trans more,
      fun place size aligned from_addr large vacant =>
      skips place size aligned (beyond more aligned from_addr large vacant) large vacant⟩
  rename_i away
  refine ⟨hole, some addr, rfl, fun addr' found => ?_, le_rfl, fun _ _ _ from_addr _ _ => from_addr⟩
  obtain rfl := mem_some_iff.mp found
  refine ⟨above, aligned, fits, fun inside id mem => ?_⟩
  have gap : addr + request.size ≤ (dataOf tree first).vaStart := by
    by_contra short
    exact away ⟨by omega, inside⟩
  rw [order] at mem
  rcases mem_append.mp mem with old | rest
  · exact .inl (under id old)
  rcases mem_cons.mp rest with rfl | later
  · exact .inr gap
  have := higher id later
  exact .inr (by omega)

theorem startBelow_spec :
    ∃ point, startBelow bits rounds request tree = .ok point ∧
      (∀ addr first, point = some (addr, first) →
        StartsAt bits request (dataOf tree) t.ids addr first) ∧
      ∀ place, request.vstart ≤ place → request.align ∣ place →
        Misses bits request (point.map Prod.fst) place := by
  have addr_lt := align_lt valid.power rounding.vstart
  have low {place : Nat} (above : request.vstart ≤ place) (aligned : request.align ∣ place) :=
    align_le valid.power rounding.vstart above aligned
  rw [startBelow]
  split
  · next wraps =>
    refine ⟨none, rfl, (fun _ _ found => by cases found), fun place above aligned => ?_⟩
    exact Nat.le_trans (le_of_wraps wraps) (Nat.add_le_add_right (low above aligned) _)
  rename_i stays
  obtain ⟨-, fits⟩ := plus_eq addr_lt valid.size_lt stays
  have whole : Ascending (dataOf tree) ([] ++ (t.ids ++ [])) := by simpa using sorted
  obtain ⟨found, ran, firstAt⟩ := findFirst_spec (align bits request.vstart request.align)
    holds.here [] [] whole (by simp) (rfl : none = ([] : List Id).head?) (by simp) enough
  have root_eq : tree.root = t.root := holds.around
  rw [root_eq, ran]
  rw [nil_append, append_nil] at firstAt
  refine ⟨_, rfl, fun addr first same => ?_, fun place above aligned => low above aligned⟩
  obtain ⟨rfl, rfl⟩ := Prod.mk.inj (some.inj same)
  refine ⟨le_align valid.power rounding.vstart, dvd_align valid.power rounding.vstart, fits, ?_, ?_⟩
  · rintro rfl
    exact firstAt
  rintro id rfl
  obtain ⟨before, after, order, under, reaches⟩ := firstAt
  have id_fits := rounding.areas id (by simp [order])
  exact ⟨le_trans reaches (le_align valid.power id_fits), before, after, order, under⟩

section

variable (tree_eq : areas.tree = tree) (cached : ∀ id ∈ areas.freeVmapCache, id ∈ t.ids)
include tree_eq cached

/-- The starting point, from the cache or not. -/
theorem startingPoint_spec (vstart_eq : areas.cachedVstart = request.vstart)
    (align_eq : areas.cachedAlign = request.align) :
    ∃ areas' point, startingPoint bits rounds request areas = .ok (areas', point) ∧
      (areas' = areas ∨ areas' = nocache areas) ∧
      (∀ addr first, point = some (addr, first) →
        StartsAt bits request (dataOf tree) t.ids addr first) ∧
      (Covered areas t.ids →
        ∀ place size, request.vstart ≤ place → request.align ∣ place →
          areas'.cachedHoleSize < size → Vacant (dataOf tree) t.ids place size →
          Misses bits request (point.map Prod.fst) place) := by
  subst tree_eq
  obtain ⟨point, ran, starts, below⟩ := startBelow_spec valid rounding holds sorted enough
  rw [startingPoint]
  cases cache : areas.freeVmapCache with
  | none =>
    simp only [ran]
    exact ⟨areas, point, rfl, .inl rfl, starts,
      fun _ place _ above aligned _ _ => below place above aligned⟩
  | some first => ?_
  have mem := cached first cache
  have fits_area := rounding.areas first mem
  have low (covered : Covered areas t.ids) {place size : Nat} (above : request.vstart ≤ place)
      (aligned : request.align ∣ place) (larger : areas.cachedHoleSize < size)
      (vacant : Vacant (dataOf areas.tree) t.ids place size) :
      align bits (dataOf areas.tree first).vaEnd request.align ≤ place :=
    align_le valid.power fits_area (covered.noticed first cache place size (vstart_eq ▸ above)
      (align_eq ▸ aligned) larger vacant) aligned
  simp only
  split
  · rw [ran]
    exact ⟨nocache areas, point, rfl, .inr rfl, starts, fun _ place _ above aligned _ _ =>
      below place above aligned⟩
  rename_i above
  split
  · next wraps =>
    refine ⟨areas, none, rfl, .inl rfl, (fun _ _ found => by cases found),
      fun covered place size above aligned larger vacant => ?_⟩
    exact Nat.le_trans (le_of_wraps wraps)
      (Nat.add_le_add_right (low covered above aligned larger vacant) _)
  rename_i stays
  obtain ⟨-, fits⟩ := plus_eq (align_lt valid.power fits_area) valid.size_lt stays
  refine ⟨areas, _, rfl, .inl rfl, fun addr found same => ?_,
    fun covered place size above aligned larger vacant => low covered above aligned larger vacant⟩
  obtain ⟨rfl, rfl⟩ := Prod.mk.inj (some.inj same)
  refine ⟨Nat.le_of_not_lt above, dvd_align valid.power fits_area, fits, by simp, ?_⟩
  rintro id same
  obtain rfl := mem_some_iff.mp same
  obtain ⟨before, after, order⟩ := append_of_mem mem
  refine ⟨le_rfl, before, after, order, fun a inside => ?_⟩
  rw [order] at sorted
  have lower := sorted.left a inside
  have here := sorted.here
  have rounded := le_align valid.power fits_area
  omega

/-- What the search finds is free, and it changes nothing but the cache. -/
theorem search_spec :
    ∃ areas' found, search bits rounds request areas = .ok (areas', found) ∧
      areas'.tree = areas.tree ∧ areas'.list = areas.list ∧
      (∀ id ∈ areas'.freeVmapCache, id ∈ t.ids) ∧
      (∀ addr ∈ found, Room request (dataOf areas.tree) t.ids addr) ∧
      areas'.cachedVstart = request.vstart ∧ areas'.cachedAlign = request.align ∧
      (Covered areas t.ids → Searched request areas areas' t.ids found) := by
  have checked : (checkCache request areas).tree = tree ∧
      (checkCache request areas).list = areas.list ∧
      (∀ id ∈ (checkCache request areas).freeVmapCache, id ∈ t.ids) ∧
      (checkCache request areas).cachedHoleSize ≤ request.size ∧
      (request.Differs areas → (checkCache request areas).cachedHoleSize < request.size) := by
    have positive := valid.positive
    rw [Request.Differs, checkCache]
    split
    · exact ⟨tree_eq, rfl, by simp [nocache], zero_le _, fun _ => pos_of_ne_zero positive⟩
    rename_i kept
    have small : ¬request.size < areas.cachedHoleSize := fun less => kept (.inr (.inl less))
    refine ⟨tree_eq, rfl, cached, Nat.le_of_not_lt small, fun differs => ?_⟩
    exact Nat.lt_of_le_of_ne (Nat.le_of_not_lt small) fun same => kept (.inl (differs same.symm))
  obtain ⟨checked_tree, list_eq, cached', small, strict⟩ := checked
  obtain ⟨areas', point, ran, which, starts, misses⟩ :=
    startingPoint_spec valid rounding holds sorted enough checked_tree cached' rfl rfl
  have kept : areas'.tree = tree ∧ areas'.list = areas.list ∧
      (∀ id ∈ areas'.freeVmapCache, id ∈ t.ids) ∧
      areas'.cachedHoleSize ≤ (checkCache request areas).cachedHoleSize ∧
      areas'.cachedVstart = request.vstart ∧ areas'.cachedAlign = request.align := by
    rcases which with rfl | rfl
    · exact ⟨checked_tree, list_eq, cached', le_rfl, rfl, rfl⟩
    exact ⟨checked_tree, list_eq, by simp [nocache], zero_le _, rfl, rfl⟩
  obtain ⟨same_tree, same_list, cached'', low, vstart_eq, align_eq⟩ := kept
  have strict' differs := lt_of_le_of_lt low (strict differs)
  have covers (covered : Covered areas t.ids) {hole : Nat} (grows : areas'.cachedHoleSize ≤ hole) :
      Covered { areas' with cachedHoleSize := hole } t.ids :=
    (covered.checkCache valid.power).weaken which grows
  have misses' (covered : Covered areas t.ids) := misses (covered.checkCache valid.power)
  subst tree_eq
  rw [search, ran]
  cases point with
  | none =>
    refine ⟨areas', none, rfl, same_tree, same_list, cached'', by simp, vstart_eq, align_eq,
      fun covered => ?_⟩
    exact Searched.of_found (f := none) valid (covers covered (le_rfl)) (by simp) (le_rfl) strict'
      fun place size above aligned larger _ vacant => misses' covered place size above aligned
      larger vacant
  | some point => ?_
  obtain ⟨addr, first⟩ := point
  obtain ⟨above, aligned, fits, under, order⟩ := starts addr first rfl
  cases first with
  | none =>
    refine ⟨areas', _, rfl, same_tree, same_list, cached'', fun addr' found => ?_, vstart_eq,
      align_eq, fun covered => ?_⟩
    · obtain ⟨same, inside⟩ := mem_filter_iff.mp found
      obtain rfl := mem_some_iff.mp same
      have hole : Hole bits request (dataOf areas.tree) t.ids addr :=
        ⟨above, aligned, fits, fun _ id mem => .inl (under rfl id mem)⟩
      exact hole.room (by simpa using inside)
    exact Searched.of_found valid (covers covered (le_rfl)) (by simpa using fits) (le_rfl) strict'
      fun place size above aligned larger _ vacant => misses' covered place size above aligned
      larger vacant
  | some first => ?_
  obtain ⟨near, before, after, order, under⟩ := order first rfl
  have short : after.length < rounds := by
    rw [order, length_append, length_cons] at enough
    omega
  obtain ⟨hole, found, seen, holes, grows, skips⟩ :=
    scan_spec valid rounding holds sorted enough order (le_trans low small) under above aligned fits
      near short
  simp only [Except.bind, bind, same_tree, seen]
  refine ⟨_, _, rfl, rfl, same_list, cached'', fun addr' out => ?_, vstart_eq, align_eq,
    fun covered => ?_⟩
  · obtain ⟨same, inside⟩ := mem_filter_iff.mp out
    exact (holes addr' same).room (by simpa using inside)
  refine Searched.of_found valid (same_tree ▸ covers covered grows)
    (fun addr' found => (holes addr' found).fits) grows strict' fun place size above aligned larger
    large vacant => ?_
  exact skips place size aligned (misses' covered place size above aligned larger vacant) large
    vacant

end

end

end

end TinyKernel.Vmalloc
