import Mathlib.Algebra.Order.Ring.Int
import Mathlib.Order.ConditionallyCompleteLattice.Defs
import Mathlib.Order.ConditionallyCompletePartialOrder.Defs
import TinyKernel.Vmalloc.Live

/-! Requests and frees in any order, as long as no rounding wraps. -/

namespace TinyKernel.Vmalloc

open Lib Rbtree Bin RingLinks Function List

variable {bits pageShift rounds : Nat} {areas areas' : Areas} {ids before after : List Id} {va : Id}
variable {request : Request}

theorem dataOf_setData (tree : Mem VmapArea Unit) (va : Id) (data : VmapArea) :
    dataOf (setData tree va data) = update (dataOf tree) va data := by
  funext id
  by_cases same : id = va
  · subst same
    simp [dataOf, setData, Links.setInfo_info]
  simp [dataOf, setData, Links.setInfo_info, same]

theorem Ascending.congr (sorted : Ascending area ids) (same : ∀ id ∈ ids, area' id = area id) :
    Ascending area' ids := by
  refine ⟨sorted.apart.imp_of_mem fun {a b} left right apart => ?_, fun id mem => ?_⟩
  · rwa [same a left, same b right]
  rw [same id mem]
  exact sorted.positive id mem

/-- The bounds of a new area are written before it is linked. -/
theorem Sound.setData (sound : Sound areas ids) (fresh : va ∉ ids) (data : VmapArea) :
    Sound { areas with tree := setData areas.tree va data } ids := by
  have other (id : Id) (mem : id ∈ ids) : id ≠ va := by
    rintro rfl
    exact fresh mem
  obtain ⟨t, holds, redBlack, rfl⟩ := sound.tree
  refine ⟨⟨t, ?_, redBlack, rfl⟩, sound.list, ?_, sound.cached⟩
  · refine holds_congr holds rfl fun id mem => ⟨?_, rfl, fun _ => rfl⟩
    exact if_neg (other id mem)
  refine sound.ascending.congr fun id mem => ?_
  simp only [dataOf_setData]
  rw [update_of_ne (other id mem)]

/-- The new area is the cached one, and no place below it is larger than the hole noticed. -/
theorem Searched.insert (searched : Searched request areas areas' ids (some addr))
    (order : ids = before ++ after) (fresh : va ∉ ids)
    (data : dataOf new.tree = update (dataOf areas.tree) va ⟨addr, addr + request.size⟩)
    (cache : new.freeVmapCache = some va) (hole : new.cachedHoleSize = areas'.cachedHoleSize)
    (vstart : new.cachedVstart = request.vstart) (align : new.cachedAlign = request.align)
    (power : isPowerOf2 request.align = true) : Covered new (before ++ va :: after) := by
  refine ⟨fun _ => align ▸ power, fun id mem place size above aligned larger vacant => ?_⟩
  obtain rfl : va = id := Option.some.inj (cache.symm.trans mem)
  rw [data] at vacant ⊢
  have here := vacant va (by simp)
  rw [update_self] at here ⊢
  have others : Vacant (dataOf areas.tree) ids place size := by
    intro other inside
    have ne : other ≠ va := by
      rintro rfl
      exact fresh inside
    rw [order] at inside
    have old := vacant other (by simpa [ne] using inside)
    rwa [update_of_ne ne] at old
  have low :=
    searched.lowest addr rfl place size (vstart ▸ above) (align ▸ aligned) (hole ▸ larger) others
  simp only at here ⊢
  omega

/-- One attempt finds no room, or adds an area in a hole. -/
theorem attempt_spec (sound : Sound areas ids) (fresh : va ∉ ids)
    (valid : request.Valid bits pageShift) (rounding : request.Rounds bits (dataOf areas.tree) ids)
    (enough : ids.length + 1 < rounds) :
    ∃ areas' room, attempt bits rounds request va areas = .ok (areas', room) ∧
      (room = false ∧ Sound areas' ids ∧ dataOf areas'.tree = dataOf areas.tree ∧
          (Covered areas ids →
            Covered areas' ids ∧
              (request.Differs areas → ∀ addr, ¬Room request (dataOf areas.tree) ids addr)) ∨
        room = true ∧
          ∃ addr before after, ids = before ++ after ∧ Sound areas' (before ++ va :: after) ∧
            Room request (dataOf areas.tree) ids addr ∧
            dataOf areas'.tree = update (dataOf areas.tree) va ⟨addr, addr + request.size⟩ ∧
            (Covered areas ids → Covered areas' (before ++ va :: after))) := by
  obtain ⟨t, holds, redBlack, rfl⟩ := sound.tree
  obtain ⟨searched, found, ran, tree_eq, list_eq, cached, rooms, vstart_eq, align_eq, exhausts⟩ :=
    search_spec valid rounding holds sound.ascending (Nat.lt_of_succ_lt enough) rfl sound.cached
  have sound' : Sound searched t.ids :=
    ⟨⟨t, tree_eq ▸ holds, redBlack, rfl⟩, list_eq.trans sound.list, tree_eq ▸
      sound.ascending, cached⟩
  rw [attempt, ran]
  cases found with
  | none =>
    refine ⟨searched, false, rfl, .inl ⟨rfl, sound', by rw [tree_eq], fun covered => ?_⟩⟩
    exact ⟨(exhausts covered).covered, (exhausts covered).complete rfl⟩
  | some addr => ?_
  have room := rooms addr rfl
  have below := room.below
  have pos := valid.positive
  have sum : plus bits addr request.size = addr + request.size :=
    Nat.mod_eq_of_lt (Nat.lt_of_le_of_lt below valid.vend_lt)
  have written := sound'.setData fresh ⟨addr, addr + request.size⟩
  have data_eq : dataOf (setData searched.tree va ⟨addr, addr + request.size⟩) =
      update (dataOf areas.tree) va ⟨addr, addr + request.size⟩ := by
    rw [dataOf_setData, tree_eq]
  have here : dataOf (setData searched.tree va ⟨addr, addr + request.size⟩) va =
      ⟨addr, addr + request.size⟩ := by rw [data_eq, update_self]
  obtain ⟨inserted, before, after, added, order, sound'', same, only⟩ := written.insert fresh
    (by simp only [here]; omega)
    (fun id mem => by
      have other : id ≠ va := by
        rintro rfl
        exact fresh mem
      simp only [here]
      rw [data_eq, update_of_ne other]
      exact room.free id mem) enough
  have aligned : addr &&& (request.align - 1) = 0 := by
    obtain ⟨k, power⟩ := isPowerOf2_iff valid.power
    rw [power, Nat.and_two_pow_sub_one_eq_mod, ← power]
    exact Nat.mod_eq_zero_of_dvd room.aligned
  have passes : ¬(addr &&& (request.align - 1) ≠ 0 ∨ addr < request.vstart ∨
      request.vend < plus bits addr request.size) := by
    have := room.above
    omega
  simp only [bind, Except.bind, sum, added]
  rw [sum] at passes
  rw [if_neg passes]
  refine ⟨_, true, rfl,
    .inr ⟨rfl, addr, before, after, order, ?_, room, same.trans data_eq, fun covered => ?_⟩⟩
  · exact { sound'' with cached := by simp }
  rw [only]
  exact (exhausts covered).insert order fresh (same.trans data_eq) rfl rfl vstart_eq align_eq
    valid.power

/-- The areas that are given out, for which requests, after some attempts and frees. At most `count`
areas are there, and each loop has more rounds than that. -/
inductive Reached (bits pageShift : Nat) : Areas → (Id → Option Request) → Nat → Prop
  | init : Reached bits pageShift Areas.init (fun _ => none) 0
  | attempt {areas areas' : Areas} {given : Id → Option Request} {count : Nat} (rounds : Nat)
    (va : Id)
      (request : Request) (room : Bool) (there : Reached bits pageShift areas given count)
      (enough : count + 1 < rounds) (fresh : given va = none) (valid : request.Valid bits pageShift)
      (lower : request.vstart + request.align ≤ 2 ^ bits)
      (upper : ∀ id, given id ≠ none → (dataOf areas.tree id).vaEnd + request.align ≤ 2 ^ bits)
      (ran : attempt bits rounds request va areas = .ok (areas', room)) :
      Reached bits pageShift areas' (if room then update given va (some request) else given)
        (if room then count + 1 else count)
  | free {areas areas' : Areas} {given : Id → Option Request} {count : Nat} (rounds : Nat) (va : Id)
      (there : Reached bits pageShift areas given count) (enough : count + 1 < rounds)
      (live : given va ≠ none) (ran : freeVmapArea rounds areas va = .ok areas') :
      Reached bits pageShift areas' (update given va none) count

/-- An area as it was requested. -/
structure Inside (area : VmapArea) (request : Request) : Prop where
  above : request.vstart ≤ area.vaStart
  below : area.vaEnd ≤ request.vend
  aligned : request.align ∣ area.vaStart
  size : area.vaEnd = area.vaStart + request.size

structure Tracked (areas : Areas) (given : Id → Option Request) (count : Nat) (ids : List Id) :
    Prop where
  sound : Sound areas ids
  live : ∀ id, id ∈ ids ↔ given id ≠ none
  inside : ∀ id request, given id = some request → Inside (dataOf areas.tree id) request
  short : ids.length ≤ count

namespace Tracked

variable {given : Id → Option Request} {count : Nat}

theorem attempt (tracked : Tracked areas given count ids) (enough : count + 1 < rounds)
    (fresh : given va = none) (valid : request.Valid bits pageShift)
    (lower : request.vstart + request.align ≤ 2 ^ bits)
    (upper : ∀ id, given id ≠ none → (dataOf areas.tree id).vaEnd + request.align ≤ 2 ^ bits) :
    ∃ areas' room ids', Vmalloc.attempt bits rounds request va areas = .ok (areas', room) ∧
      Tracked areas' (if room then update given va (some request) else given)
        (if room then count + 1 else count) ids' ∧
      (room = false →
        ids' = ids ∧ dataOf areas'.tree = dataOf areas.tree ∧
          (Covered areas ids → request.Differs areas →
            ∀ addr, ¬Room request (dataOf areas.tree) ids addr)) ∧
      (Covered areas ids → Covered areas' ids') := by
  have missing : va ∉ ids := by
    rw [tracked.live]
    simpa using fresh
  have rounding : request.Rounds bits (dataOf areas.tree) ids :=
    ⟨lower, fun id mem => upper id ((tracked.live id).mp mem)⟩
  have short := tracked.short
  obtain ⟨areas', room, ran, outcome⟩ :=
    attempt_spec tracked.sound missing valid rounding (by omega : ids.length + 1 < rounds)
  rcases outcome with ⟨rfl, sound, same, covers⟩ | ⟨rfl, addr, before, after, order, sound, hole,
    data, covers⟩
  · refine ⟨areas', false, ids, ran, ⟨sound, tracked.live, ?_, short⟩,
      fun _ => ⟨rfl, same, fun covered => (covers covered).2⟩, fun covered => (covers covered).1⟩
    rw [same]
    exact tracked.inside
  refine ⟨areas', true, before ++ va ::
    after, ran, ⟨sound, fun id => ?_, fun id request' found => ?_, ?_⟩, (fun no => by cases no),
      covers⟩
  · by_cases same : id = va
    · subst same
      simp
    have old := tracked.live id
    rw [order] at old
    simpa [same] using old
  · simp only [if_true] at found
    rw [data]
    by_cases same : id = va
    · subst same
      rw [update_self] at found ⊢
      obtain rfl := Option.some.inj found
      exact ⟨hole.above, hole.below, hole.aligned, rfl⟩
    rw [update_of_ne same] at found ⊢
    exact tracked.inside id request' found
  have longer := congrArg length order
  simp only [length_append, length_cons, if_true] at longer ⊢
  omega

theorem free (tracked : Tracked areas given count ids) (enough : count + 1 < rounds)
    (live : given va ≠ none) :
    ∃ areas' ids', freeVmapArea rounds areas va = .ok areas' ∧
      Tracked areas' (update given va none) count ids' ∧ dataOf areas'.tree = dataOf areas.tree ∧
      (Covered areas ids → Covered areas' ids') := by
  obtain ⟨before, after, rfl⟩ := append_of_mem ((tracked.live va).mpr live)
  have short := tracked.short
  obtain ⟨areas', ran, sound, same, covers⟩ :=
    tracked.sound.free (by omega : (before ++ va :: after).length < rounds)
  have fresh : va ∉ before ++ after :=
    (nodup_cons.mp ((perm_middle.nodup_iff).mp tracked.sound.nodup)).1
  refine ⟨areas', before ++
    after, ran, ⟨sound, fun id => ?_, fun id request found => ?_, ?_⟩, same, covers⟩
  · by_cases eq : id = va
    · subst eq
      simpa using fresh
    have old := tracked.live id
    rw [update_of_ne eq, ← old]
    simp [eq]
  · by_cases eq : id = va
    · subst eq
      simp at found
    rw [update_of_ne eq] at found
    rw [same]
    exact tracked.inside id request found
  simp only [length_append, length_cons] at short ⊢
  omega

end Tracked

theorem Reached.tracked {count : Nat} (there : Reached bits pageShift areas given count) :
    ∃ ids, Tracked areas given count ids ∧ Covered areas ids := by
  induction there with
  | init =>
    exact ⟨[], ⟨Sound.init, by simp, by simp, Nat.le_refl 0⟩, fun gone => (gone rfl).elim,
      by simp [Areas.init]⟩
  | attempt rounds va request room there enough fresh valid lower upper ran ih =>
    obtain ⟨ids, tracked, covered⟩ := ih
    obtain ⟨areas', room', ids', ran', tracked', -, covers⟩ :=
      tracked.attempt enough fresh valid lower upper
    obtain ⟨rfl, rfl⟩ := Prod.mk.inj (Except.ok.inj (ran'.symm.trans ran))
    exact ⟨ids', tracked', covers covered⟩
  | free rounds va there enough live ran ih => ?_
  obtain ⟨ids, tracked, covered⟩ := ih
  obtain ⟨areas', ids', ran', tracked', -, covers⟩ := tracked.free enough live
  obtain rfl := Except.ok.inj (ran'.symm.trans ran)
  exact ⟨ids', tracked', covers covered⟩

/-- A purge frees some areas. -/
theorem Reached.purge {given : Id → Option Request} {count : Nat}
    (there : Reached bits pageShift areas given count) (enough : count + 1 < rounds)
    {purge : List Id} (nodup : purge.Nodup) (live : ∀ id ∈ purge, given id ≠ none) :
    ∃ areas' given', purge.foldlM (freeVmapArea rounds) areas = .ok areas' ∧
      Reached bits pageShift areas' given' count ∧ dataOf areas'.tree = dataOf areas.tree ∧
      ∀ id, given' id ≠ none → given id ≠ none := by
  induction purge generalizing areas given with
  | nil => exact ⟨areas, given, rfl, there, rfl, fun _ alive => alive⟩
  | cons va purge ih => ?_
  obtain ⟨missing, nodup⟩ := nodup_cons.mp nodup
  obtain ⟨ids, tracked, -⟩ := there.tracked
  have alive := live va (.head _)
  obtain ⟨areas', ids', ran, -, same, -⟩ := tracked.free enough alive
  obtain ⟨last, given', rest, reached', same', fewer⟩ := ih (there.free rounds va enough alive ran)
    nodup (fun id mem => by
      have other : id ≠ va := by
        rintro rfl
        exact missing mem
      rw [update_of_ne other]
      exact live id (.tail _ mem))
  refine ⟨last, given', ?_, reached', same'.trans same, fun id alive' => ?_⟩
  · rw [foldlM_cons, ran]
    exact rest
  have before := fewer id alive'
  by_cases eq : id = va
  · subst eq
    exact alive
  rwa [update_of_ne eq] at before

theorem Request.Valid.accepted (valid : request.Valid bits pageShift) :
    ¬(request.size = 0 ∨ request.size % 2 ^ pageShift ≠ 0 ∨ ¬isPowerOf2 request.align) := by
  simp [valid.positive, valid.pages, valid.power]

/-- A whole call of `alloc_vmap_area` returns. -/
theorem Reached.alloc {given : Id → Option Request} {count : Nat}
    (there : Reached bits pageShift areas given count) (enough : count + 1 < rounds)
    {va : Option Id} {purge : List Id} (fresh : ∀ id ∈ va, given id = none) (nodup : purge.Nodup)
    (live : ∀ id ∈ purge, given id ≠ none) (valid : request.Valid bits pageShift)
    (lower : request.vstart + request.align ≤ 2 ^ bits)
    (upper : ∀ id, given id ≠ none → (dataOf areas.tree id).vaEnd + request.align ≤ 2 ^ bits) :
    ∃ areas' out given' count', allocVmapArea bits pageShift rounds request va purge areas =
        .ok (areas', out) ∧ Reached bits pageShift areas' given' count' := by
  cases va with
  | none =>
    rw [allocVmapArea, if_neg valid.accepted]
    exact ⟨areas, .enomem, given, count, rfl, there⟩
  | some va => ?_
  rw [allocVmapArea, if_neg valid.accepted]
  have unused := fresh va rfl
  obtain ⟨ids, tracked, -⟩ := there.tracked
  obtain ⟨first, room, ids', ran, -, kept, -⟩ := tracked.attempt enough unused valid lower upper
  have reached_first := there.attempt rounds va request room enough unused valid lower upper ran
  simp only [bind, Except.bind, ran]
  cases room with
  | true => exact ⟨first, .area va, _, _, rfl, reached_first⟩
  | false => ?_
  obtain ⟨-, same, -⟩ := kept rfl
  obtain ⟨purged, given', freed, reached_purged, same', fewer⟩ :=
    reached_first.purge enough nodup live
  have unused' : given' va = none := by
    by_contra alive
    exact fewer va alive unused
  have upper' : ∀ id, given' id ≠ none →
      (dataOf purged.tree id).vaEnd + request.align ≤ 2 ^ bits := by
    intro id alive
    rw [same', same]
    exact upper id (fewer id alive)
  obtain ⟨ids'', tracked', -⟩ := reached_purged.tracked
  obtain ⟨last, room, _, ran', -, -⟩ := tracked'.attempt enough unused' valid lower upper'
  have reached_last :=
    reached_purged.attempt rounds va request room enough unused' valid lower upper' ran'
  simp only [if_neg Bool.false_ne_true, freed, ran']
  cases room with
  | true => exact ⟨last, .area va, _, _, rfl, reached_last⟩
  | false => exact ⟨last, .ebusy, _, _, rfl, reached_last⟩

/-- A page, with the given alignment, anywhere in the address space. -/
def pageAnywhere (align : Nat) : Request := ⟨4096, align, 0, 2 ^ 64 - 1⟩

theorem pageAnywhere_valid : (pageAnywhere 8192).Valid 64 12 := by
  refine ⟨?_, ?_, ?_, ?_, ?_, ?_⟩ <;> decide +kernel

/-- Three areas, and the one in the middle freed. -/
theorem reached_three :
    ∃ (areas : Areas) (given : Id → Option Request), Reached 64 12 areas given 3 ∧
      (∀ id, given id ≠ none ↔ id ∈ [7, 9]) ∧
      (dataOf areas.tree 7 = ⟨0, 4096⟩ ∧ dataOf areas.tree 9 = ⟨16384, 20480⟩) := by
  have first := Reached.attempt 9 7 (pageAnywhere 8192) true Reached.init (by decide) rfl
    pageAnywhere_valid (by decide) (by simp) rfl
  have second := Reached.attempt 9 8 (pageAnywhere 8192) true first (by decide) rfl
    pageAnywhere_valid (by decide) (fun id live => by
      rcases eq_or_ne id 7 with rfl | other
      · decide +kernel
      simp [update, other] at live) rfl
  have third := Reached.attempt 9 9 (pageAnywhere 8192) true second (by decide) rfl
    pageAnywhere_valid (by decide) (fun id live => by
      rcases eq_or_ne id 7 with rfl | other
      · decide +kernel
      rcases eq_or_ne id 8 with rfl | other'
      · decide +kernel
      simp [update, other, other'] at live) rfl
  have last := Reached.free 9 8 third (by decide) (by simp [update]) rfl
  refine ⟨_, _, last, fun id => ?_, rfl, rfl⟩
  by_cases first : id = 7
  · simp [update, first]
  by_cases third : id = 9
  · simp [update, third]
  simp [update, first, third]

/-- After any run the areas are disjoint, as requested, and in order both in the tree and in the
list; the cache is one of them. Nothing that may be called then fails. -/
theorem vmap_areas_apart {given : Id → Option Request} {count : Nat}
    (reached : Reached bits pageShift areas given count) :
    ∃ ids : List Id, (∀ id, id ∈ ids ↔ given id ≠ none) ∧
      ids.Pairwise (fun a b => (dataOf areas.tree a).vaEnd ≤ (dataOf areas.tree b).vaStart) ∧
      (∀ id request, given id = some request →
        request.vstart ≤ (dataOf areas.tree id).vaStart ∧
          (dataOf areas.tree id).vaEnd ≤ request.vend ∧
          request.align ∣ (dataOf areas.tree id).vaStart ∧
          (dataOf areas.tree id).vaEnd = (dataOf areas.tree id).vaStart + request.size) ∧
      (∃ t, Holds areas.tree t ∧ RedBlack t ∧ t.ids = ids) ∧
      areas.list = ring (none :: ids.map some) ∧ (∀ id ∈ areas.freeVmapCache, given id ≠ none) ∧
      ∀ rounds, count + 1 < rounds →
        (∀ va, given va ≠ none →
            ∃ areas', freeVmapArea rounds areas va = .ok areas' ∧
              Reached bits pageShift areas' (update given va none) count) ∧
          ∀ (request : Request) (va : Option Id) (purge : List Id), request.Valid bits pageShift →
            request.vstart + request.align ≤ 2 ^ bits →
            (∀ id, given id ≠ none → (dataOf areas.tree id).vaEnd + request.align ≤ 2 ^ bits) →
            (∀ id ∈ va, given id = none) → purge.Nodup → (∀ id ∈ purge, given id ≠ none) →
            ∃ areas' result given' count', allocVmapArea bits pageShift rounds request va purge
                  areas = .ok (areas', result) ∧ Reached bits pageShift areas' given' count' := by
  obtain ⟨ids, tracked, -⟩ := reached.tracked
  refine ⟨ids, tracked.live, tracked.sound.ascending.apart, fun id request found => ?_,
    tracked.sound.tree, tracked.sound.list, fun id cached => ?_, fun rounds enough => ⟨?_, ?_⟩⟩
  · obtain ⟨above, below, aligned, size⟩ := tracked.inside id request found
    exact ⟨above, below, aligned, size⟩
  · exact (tracked.live id).mp (tracked.sound.cached id cached)
  · intro va live
    obtain ⟨areas', -, ran, -⟩ := tracked.free enough live
    exact ⟨areas', ran, reached.free rounds va enough live ran⟩
  intro request va purge valid lower upper fresh distinct live
  exact reached.alloc enough fresh distinct live valid lower upper

/-- Between the two areas left there is the place of the freed one. -/
theorem vmap_areas_apart_three :
    ∃ (areas : Areas) (given : Id → Option Request), Reached 64 12 areas given 3 ∧
      (∀ id, given id ≠ none ↔ id ∈ [7, 9]) ∧
      (dataOf areas.tree 7 = ⟨0, 4096⟩ ∧ dataOf areas.tree 9 = ⟨16384, 20480⟩) ∧
      ∃ ids : List Id, (∀ id, id ∈ ids ↔ given id ≠ none) ∧
        ids.Pairwise (fun a b => (dataOf areas.tree a).vaEnd ≤ (dataOf areas.tree b).vaStart) ∧
        areas.list = ring (none :: ids.map some) := by
  obtain ⟨areas, given, reached, alive, placed⟩ := reached_three
  obtain ⟨ids, live, apart, -, -, links, -⟩ := vmap_areas_apart reached
  exact ⟨areas, given, reached, alive, placed, ids, live, apart, links⟩

/-- The end of the cached area is rounded up to 0, and the page there is given out a second time. -/
theorem wrapped_rounding_overlaps :
    (pageAnywhere 4096).Valid 64 12 ∧ (pageAnywhere (2 ^ 63)).Valid 64 12 ∧
      ((do
        let (areas, first) ← allocVmapArea 64 12 9 (pageAnywhere 4096) (some 0) [] Areas.init
        let (areas, second) ← allocVmapArea 64 12 9 (pageAnywhere (2 ^ 63)) (some 1) [] areas
        let (areas, third) ← allocVmapArea 64 12 9 (pageAnywhere (2 ^ 63)) (some 2) [] areas
        return ([first, second, third], dataOf areas.tree 0, dataOf areas.tree 2)) :
          Except Stop (List Result × VmapArea × VmapArea)) =
        .ok ([.area 0, .area 1, .area 2], ⟨0, 4096⟩, ⟨0, 4096⟩) := by
  refine ⟨⟨?_, ?_, ?_, ?_, ?_, ?_⟩, ⟨?_, ?_, ?_, ?_, ?_, ?_⟩, ?_⟩ <;> decide +kernel

/-- `alloc_vmap_area` fails only without room in the whole range, unless the request is exactly as
large as the hole that the cache was kept for. -/
theorem alloc_vmap_area_complete {given : Id → Option Request} {count : Nat}
    (reached : Reached bits pageShift areas given count) (enough : count + 1 < rounds)
    (fresh : given va = none) (valid : request.Valid bits pageShift)
    (lower : request.vstart + request.align ≤ 2 ^ bits)
    (upper : ∀ id, given id ≠ none → (dataOf areas.tree id).vaEnd + request.align ≤ 2 ^ bits)
    (differs : request.Differs areas)
    (busy : allocVmapArea bits pageShift rounds request (some va) [] areas = .ok (areas', .ebusy)) :
    ¬∃ addr, request.vstart ≤ addr ∧ addr + request.size ≤ request.vend ∧ request.align ∣ addr ∧
      ∀ id, given id ≠ none →
        (dataOf areas.tree id).vaEnd ≤ addr ∨
          addr + request.size ≤ (dataOf areas.tree id).vaStart := by
  rintro ⟨addr, above, below, aligned, free⟩
  obtain ⟨ids, tracked, covered⟩ := reached.tracked
  obtain ⟨first, room, ids', ran, -, failed, -⟩ := tracked.attempt enough fresh valid lower upper
  rw [allocVmapArea, if_neg valid.accepted] at busy
  simp only [bind, Except.bind, ran] at busy
  cases room with
  | true => cases busy
  | false => ?_
  obtain ⟨-, -, complete⟩ := failed rfl
  exact complete covered differs addr ⟨above, below, aligned, fun id member =>
    free id ((tracked.live id).mp member)⟩

/-- Some pages below the fifth one. -/
def pagesBelow (count : Nat) : Request := ⟨count * 4096, 4096, 0, 5 * 4096⟩

/-- With one page given out, there is no room for five. -/
theorem alloc_vmap_area_complete_five :
    ∃ (areas areas' : Areas) (given : Id → Option Request), Reached 64 12 areas given 1 ∧
      allocVmapArea 64 12 9 (pagesBelow 5) (some 1) [] areas = .ok (areas', .ebusy) ∧
      ¬∃ addr, 0 ≤ addr ∧ addr + 5 * 4096 ≤ 5 * 4096 ∧ 4096 ∣ addr ∧
      ∀ id, given id ≠ none →
        (dataOf areas.tree id).vaEnd ≤ addr ∨ addr + 5 * 4096 ≤ (dataOf areas.tree id).vaStart := by
  have valid : (pagesBelow 1).Valid 64 12 ∧ (pagesBelow 5).Valid 64 12 := by
    refine ⟨⟨?_, ?_, ?_, ?_, ?_, ?_⟩, ⟨?_, ?_, ?_, ?_, ?_, ?_⟩⟩ <;> decide +kernel
  have reached := Reached.attempt 9 0 (pagesBelow 1) true (Reached.init) (by decide) rfl valid.1
    (by decide) (by simp) rfl
  have unused : update (fun _ => none) 0 (some (pagesBelow 1)) 1 = none := rfl
  refine ⟨_, _, _, reached, rfl,
    alloc_vmap_area_complete reached (by decide : 1 + 1 < 9) unused valid.2 (by decide)
      (fun id live => ?_) (fun same => absurd same (by decide)) rfl⟩
  obtain rfl : id = 0 := by
    by_contra other
    exact live (by simp [other])
  decide

/-- The second page is free again, but a request for one page starts behind the cached area. -/
theorem kept_cache_misses_hole :
    (pagesBelow 1).Valid 64 12 ∧ (pagesBelow 2).Valid 64 12 ∧
      ((do
        let (areas, _) ← allocVmapArea 64 12 9 (pagesBelow 1) (some 0) [] Areas.init
        let (areas, _) ← allocVmapArea 64 12 9 (pagesBelow 1) (some 1) [] areas
        let (areas, _) ← allocVmapArea 64 12 9 (pagesBelow 1) (some 2) [] areas
        let areas ← freeVmapArea 9 areas 1
        let (areas, fourth) ← allocVmapArea 64 12 9 (pagesBelow 2) (some 3) [] areas
        let (areas, fifth) ← allocVmapArea 64 12 9 (pagesBelow 1) (some 4) [] areas
        return ([fourth, fifth], dataOf areas.tree 0, dataOf areas.tree 2, dataOf areas.tree 3)) :
          Except Stop (List Result × VmapArea × VmapArea × VmapArea)) =
        .ok ([.area 3, .ebusy], ⟨0, 4096⟩, ⟨8192, 12288⟩, ⟨12288, 20480⟩) := by
  refine ⟨⟨?_, ?_, ?_, ?_, ?_, ?_⟩, ⟨?_, ?_, ?_, ?_, ?_, ?_⟩, ?_⟩ <;> decide +kernel

/-- The area that an address lies in is on the side the loop goes to. -/
theorem findVmapArea_spec (addr : Nat) (rep : Rep tree top t)
    (sorted : Ascending (dataOf tree) t.ids) (enough : t.ids.length < rounds) :
    ∃ found, findVmapArea tree addr rounds t.root = .ok found ∧
      ∀ va, found = some va ↔
        va ∈ t.ids ∧ (dataOf tree va).vaStart ≤ addr ∧ addr < (dataOf tree va).vaEnd := by
  induction t generalizing top rounds with
  | nil =>
    obtain _ | rounds := rounds
    · omega
    exact ⟨none, rfl, by simp [Bin.ids]⟩
  | node left id info right ihLeft ihRight => ?_
  obtain _ | rounds := rounds
  · omega
  obtain ⟨_, _, onLeft, onRight, repLeft, repRight⟩ := rep
  simp only [Bin.ids, length_append, length_cons] at enough sorted ⊢
  have lower := sorted.left
  have upper := sorted.right
  have here := sorted.here
  rw [root, findVmapArea, onLeft, onRight]
  split
  · obtain ⟨found, ran, only⟩ :=
      ihLeft repLeft (sorted.sublist (sublist_append_left _ _)) (by omega : _ < rounds)
    exact ⟨found, ran, by grind⟩
  split
  · have behind : right.ids.Sublist (left.ids ++ id :: right.ids) := by simp
    obtain ⟨found, ran, only⟩ := ihRight repRight (sorted.sublist behind) (by omega : _ < rounds)
    exact ⟨found, ran, by grind⟩
  exact ⟨some id, rfl, by grind⟩

/-- `find_vmap_area` ends within one round more than there are areas, and finds the one that the
address is in. -/
theorem find_vmap_area_exact {given : Id → Option Request} {count : Nat}
    (reached : Reached bits pageShift areas given count) :
    ∃ ids : List Id, ids.Nodup ∧ (∀ id, id ∈ ids ↔ given id ≠ none) ∧
      ∀ rounds, ids.length < rounds →
        ∀ addr, ∃ found, findVmapArea areas.tree addr rounds areas.tree.root = .ok found ∧
          ∀ va, found = some va ↔
            given va ≠ none ∧ (dataOf areas.tree va).vaStart ≤ addr ∧
              addr < (dataOf areas.tree va).vaEnd := by
  obtain ⟨ids, tracked, -⟩ := reached.tracked
  obtain ⟨t, ⟨top, rep, distinct⟩, -, rfl⟩ := tracked.sound.tree
  refine ⟨t.ids, distinct, tracked.live, fun rounds enough addr => ?_⟩
  simp only [← tracked.live]
  rw [top]
  exact findVmapArea_spec addr rep tracked.sound.ascending enough

/-- The address is in the second of the two areas left of three. -/
theorem find_vmap_area_exact_three :
    ∃ (areas : Areas) (given : Id → Option Request), Reached 64 12 areas given 3 ∧
      (∀ id, given id ≠ none ↔ id ∈ [7, 9]) ∧
      findVmapArea areas.tree 16484 3 areas.tree.root = .ok (some 9) := by
  obtain ⟨areas, given, reached, alive, lower, upper⟩ := reached_three
  obtain ⟨ids, distinct, live, finds⟩ := find_vmap_area_exact reached
  have both : ids ⊆ [7, 9] := fun id member => (alive id).mp ((live id).mp member)
  have short : ids.length ≤ 2 := (subperm_of_subset distinct both).length_le
  obtain ⟨found, ran, only⟩ := finds 3 (by omega) 16484
  have there : found = some 9 := (only 9).mpr ⟨(alive 9).mpr (by simp), by simp [upper]⟩
  exact ⟨areas, given, reached, alive, there ▸ ran⟩

end TinyKernel.Vmalloc
