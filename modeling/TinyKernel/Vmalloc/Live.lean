import TinyKernel.Vmalloc.Search

/-! The live areas over whole runs: one above the other, in the tree and in the list. -/

namespace TinyKernel.Vmalloc

open Lib Rbtree Bin RingLinks List

section

variable {Data : Type}

/-- Trees without an augmented field have nothing to keep up to date. -/
theorem augmented_dummy (t : RbTree Data Unit) : Augmented dummyCompute t := by
  induction t with
  | nil => trivial
  | node left id info right ihLeft ihRight => exact ⟨rfl, ihLeft, ihRight⟩

theorem augmentedPath_dummy (hole : Option Unit) (path : RbPath Data Unit) :
    AugmentedPath dummyCompute hole path := by
  induction path generalizing hole with
  | nil => trivial
  | cons frame path ih => exact ⟨rfl, augmented_dummy _, ih _⟩

theorem holds_congr (holds : Holds m t) (root : m'.root = m.root)
    (same : ∀ id ∈ t.ids, Links.Same m m' id) : Holds m' t :=
  ⟨root.trans holds.around, holds.here.congr same, holds.nodup⟩

theorem nodup_of_holds (holds : Holds m t) : t.ids.Nodup := by simpa using holds.nodup

end

theorem linked_of_holds {id : Id} (holds : Holds m t) (mem : id ∈ t.ids) :
    rbEmptyNode m id = false := by
  obtain ⟨path, left, info, right, rfl⟩ := exists_path mem
  have focus := focus_iff_holds.mpr holds
  obtain ⟨_, up, _⟩ := focus.here
  rw [rbEmptyNode, up, decide_eq_false_iff_not]
  intro same
  cases path with
  | nil => cases same
  | cons frame path => ?_
  obtain rfl : frame.id = id := Option.some.inj same
  exact (nodup_append.mp focus.nodup).2.2 frame.id (by simp) frame.id (root_mem rfl) rfl

/-- The areas in memory are those of the list, in order. -/
structure Sound (areas : Areas) (ids : List Id) : Prop where
  tree : ∃ t, Holds areas.tree t ∧ RedBlack t ∧ t.ids = ids
  list : areas.list = ring (none :: ids.map some)
  ascending : Ascending (dataOf areas.tree) ids
  cached : ∀ id ∈ areas.freeVmapCache, id ∈ ids

namespace Sound

variable {areas : Areas} {ids before after : List Id} {va : Id} {rounds : Nat}

theorem nodup (sound : Sound areas ids) : ids.Nodup := by
  obtain ⟨t, holds, -, rfl⟩ := sound.tree
  exact nodup_of_holds holds

theorem nodup_list {ids : List Id} (unique : ids.Nodup) : (none :: ids.map some).Nodup :=
  nodup_cons.mpr ⟨by simp, unique.map (Option.some_injective _)⟩

theorem init : Sound Areas.init [] where
  tree := ⟨.nil, ⟨rfl, trivial, nodup_nil⟩, ⟨rfl, 0, rfl⟩, rfl⟩
  list := by simp only [Areas.init, ring, map_nil, formPerm_singleton]; rfl
  ascending := ⟨Pairwise.nil, by simp⟩
  cached := by simp [Areas.init]

section

variable {tree : Mem VmapArea Unit}

/-- The way down to the place of a new area. -/
theorem insertSlot_spec (pos : area.vaStart < area.vaEnd) (focus : Focus tree path t)
    (ascending : Ascending (dataOf tree) t.ids)
    (free : ∀ id ∈ t.ids, (dataOf tree id).vaEnd ≤ area.vaStart ∨
      area.vaEnd ≤ (dataOf tree id).vaStart)
    (lower : ∀ id ∈ path.before, (dataOf tree id).vaEnd ≤ area.vaStart)
    (higher : ∀ id ∈ path.after, area.vaEnd ≤ (dataOf tree id).vaStart)
    (enough : t.ids.length < rounds) :
    ∃ path' : RbPath VmapArea Unit, insertSlot tree area rounds (slot path) t.root =
        .ok (slot path') ∧ path'.fill .nil = path.fill t ∧
      (∀ id ∈ path'.before, (dataOf tree id).vaEnd ≤ area.vaStart) ∧
      ∀ id ∈ path'.after, area.vaEnd ≤ (dataOf tree id).vaStart := by
  induction t generalizing path rounds with
  | nil =>
    obtain _ | rounds := rounds
    · omega
    exact ⟨path, by rw [root_nil, insertSlot], rfl, lower, higher⟩
  | node left id info right ihLeft ihRight => ?_
  obtain _ | rounds := rounds
  · omega
  obtain ⟨_, _, onLeft, onRight, _, _⟩ := focus.here
  simp only [Bin.ids, length_append, length_cons] at enough
  have here := ascending.here
  have below := ascending.left
  have above := ascending.right
  have free_here := free id (by simp [Bin.ids])
  rw [root, insertSlot, onLeft, onRight]
  split
  · next left_of =>
    have down : Focus tree (⟨.left, id, info, right⟩ :: path) left := focus_fill.mp focus
    refine ihLeft down (ascending.sublist (sublist_append_left ..))
      (fun x mem => free x (by simp [Bin.ids, mem])) lower ?_ (by omega)
    intro x mem
    have cases_member : x = id ∨ x ∈ right.ids ∨ x ∈ path.after := by simpa [Path.after] using mem
    rcases cases_member with rfl | inside | out
    · omega
    · have := above x inside
      omega
    exact higher x out
  rename_i right_of
  rw [if_pos (by omega)]
  have down : Focus tree (⟨.right, id, info, left⟩ :: path) right := focus_fill.mp focus
  refine ihRight down (ascending.sublist ?_) (fun x mem => free x (by simp [Bin.ids, mem])) ?_
    higher (by omega)
  · exact (sublist_cons_self ..).trans (sublist_append_right ..)
  intro x mem
  have cases_member : x ∈ path.before ∨ x ∈ left.ids ∨ x = id := by simpa [Path.before] using mem
  rcases cases_member with out | inside | rfl
  · exact lower x out
  · have := below x inside
    omega
  omega

theorem ascending_insert (ascending : Ascending area (before ++ after))
    (pos : (area va).vaStart < (area va).vaEnd)
    (lower : ∀ id ∈ before, (area id).vaEnd ≤ (area va).vaStart)
    (higher : ∀ id ∈ after, (area va).vaEnd ≤ (area id).vaStart) :
    Ascending area (before ++ va :: after) := by
  obtain ⟨first, second, across⟩ := pairwise_append.mp ascending.apart
  refine ⟨pairwise_append.mpr ⟨first, pairwise_cons.mpr ⟨higher, second⟩, ?_⟩, ?_⟩
  · intro a left b right
    rcases mem_cons.mp right with rfl | right
    · exact lower a left
    exact across a left b right
  intro id mem
  have old : id = va ∨ id ∈ before ++ after := by simpa [or_left_comm] using mem
  rcases old with rfl | old
  · exact pos
  exact ascending.positive id old

/-- `__insert_vmap_area` puts an area between those below and those above it. -/
theorem insert (sound : Sound areas ids) (fresh : va ∉ ids)
    (pos : (dataOf areas.tree va).vaStart < (dataOf areas.tree va).vaEnd)
    (free : ∀ id ∈ ids, (dataOf areas.tree id).vaEnd ≤ (dataOf areas.tree va).vaStart ∨
      (dataOf areas.tree va).vaEnd ≤ (dataOf areas.tree id).vaStart)
    (enough : ids.length + 1 < rounds) :
    ∃ areas' before after, insertVmapArea rounds va areas = .ok areas' ∧ ids = before ++ after ∧
      Sound areas' (before ++ va :: after) ∧ dataOf areas'.tree = dataOf areas.tree ∧
      areas' = { areas with tree := areas'.tree, list := areas'.list } := by
  obtain ⟨t, holds, redBlack, rfl⟩ := sound.tree
  have focus : Focus areas.tree ([] : RbPath VmapArea Unit) t := holds
  obtain ⟨path, found, shape, lower, higher⟩ := insertSlot_spec pos focus sound.ascending free
    (by simp [Path.before]) (by simp [Path.after]) (Nat.lt_of_succ_lt enough)
  have shape : path.fill .nil = t := shape
  have root_eq : areas.tree.root = t.root := holds.around
  have updated : Updated dummyCompute areas.tree path va :=
    ⟨shape ▸ holds, shape ▸ redBlack, shape ▸ fresh, rfl, augmentedPath_dummy _ path⟩
  have ids_eq : t.ids = path.before ++ path.after := by
    rw [← shape, Path.ids_fill]
    simp [Bin.ids]
  have inv : RotationInvariant (dummyCompute : Compute VmapArea Unit) := fun _ _ _ _ _ => rfl
  obtain ⟨tree', inserted, ⟨t', holds', redBlack', -, order⟩, data⟩ :=
    rbInsert_proper inv areas.tree path va rounds updated (by rw [shape]; omega)
  have longer : t'.ids.length < rounds := by
    rw [order, length_append, length_cons]
    rw [ids_eq, length_append] at enough
    omega
  have prev := (neighbours holds' order longer).2
  have slot_nil : slot ([] : RbPath VmapArea Unit) = none := rfl
  rw [slot_nil, ← root_eq] at found
  rw [insertVmapArea, found]
  simp only [bind, Except.bind, rbInsertColor, inserted, walk, prev]
  refine ⟨_, path.before, path.after, rfl, ids_eq, ⟨⟨t', holds', redBlack', order⟩, ?_, ?_, ?_⟩,
    data, rfl⟩
  · have unique := nodup_list sound.nodup
    have fresh' : some va ∉ none :: t.ids.map some := by simpa using fresh
    rw [sound.list]
    rw [ids_eq] at unique fresh' ⊢
    rcases eq_nil_or_concat path.before with none_before | ⟨front, last, split⟩
    · rw [none_before] at unique fresh' ⊢
      have added : (ring ([] ++ none :: path.after.map some)).add (some va) none =
          ring ([] ++ none :: some va :: path.after.map some) := add_ring unique fresh'
      exact added
    rw [concat_eq_append] at split
    rw [split] at unique fresh' ⊢
    have cut : none :: ((front ++ [last]) ++ path.after).map some =
        (none :: front.map some) ++ some last :: path.after.map some := by simp
    rw [cut] at unique fresh' ⊢
    rw [getLast?_concat, add_ring unique fresh']
    simp
  · rw [data]
    refine ascending_insert (ids_eq ▸ sound.ascending) pos lower higher
  intro id mem
  have old := sound.cached id mem
  rw [ids_eq] at old
  rcases mem_append.mp old with left | right
  · simp [left]
  simp [right]

end

/-- Which area is cached after `va` is freed: the one before it, or the same as before if that is
lower. -/
def Moves (area : Id → VmapArea) (before : List Id) (va old new : Id) : Prop :=
  new = old ∧ (area old).vaStart < (area va).vaStart ∨
    new ∈ before ∧ (area va).vaStart ≤ (area old).vaStart

/-- A place that the freed area leaves vacant is above the cached area. -/
theorem vaEnd_le_of_freed (ascending : Ascending area (before ++ va :: after))
    (alive : old ∈ before ++ va :: after) (kept : new ∈ before ++ after)
    (moves : Moves area before va old new)
    (noticed : Vacant area (before ++ va :: after) place size → (area old).vaEnd ≤ place)
    (vacant : Vacant area (before ++ after) place size) : (area new).vaEnd ≤ place := by
  have pos := ascending.positive old alive
  have here := vacant new kept
  by_cases apart : (area va).vaEnd ≤ place ∨ place + size ≤ (area va).vaStart
  · have whole : Vacant area (before ++ va :: after) place size := by
      simp only [Vacant, forall_mem_append, forall_mem_cons] at vacant ⊢
      exact ⟨vacant.1, apart, vacant.2⟩
    have low := noticed whole
    rcases moves with ⟨rfl, -⟩ | ⟨inside, le⟩
    · exact low
    have := ascending.left new inside
    omega
  rcases moves with ⟨rfl, less⟩ | ⟨inside, le⟩
  · omega
  have := ascending.left new inside
  have := ascending.positive new (by simp [inside])
  omega

/-- `__free_vmap_area` takes an area out, and leaves the cache with a live one. -/
theorem free (sound : Sound areas (before ++ va :: after))
    (enough : (before ++ va :: after).length < rounds) :
    ∃ areas', freeVmapArea rounds areas va = .ok areas' ∧ Sound areas' (before ++ after) ∧
      dataOf areas'.tree = dataOf areas.tree ∧
      (Covered areas (before ++ va :: after) → Covered areas' (before ++ after)) := by
  have unique := sound.nodup
  have fresh : va ∉ before ++ after := (nodup_cons.mp ((perm_middle.nodup_iff).mp unique)).1
  obtain ⟨t, holds, redBlack, order⟩ := sound.tree
  rw [← order] at enough
  have mem : va ∈ t.ids := by simp [order]
  have prev := (neighbours holds order enough).2
  have linked : rbEmptyNode areas.tree va = false := linked_of_holds holds mem
  have inv : RotationInvariant (dummyCompute : Compute VmapArea Unit) := fun _ _ _ _ _ => rfl
  obtain ⟨tree', erased, ⟨t', holds', redBlack', -, order'⟩, data⟩ :=
    rbEraseAugmented_proper inv areas.tree t va rounds holds redBlack (augmented_dummy t) mem enough
  rw [order, erase_append_right _ fun left => fresh (mem_append_left _ left),
    erase_cons_head] at order'
  have cleared : Holds (rbClearNode tree' va) t' := by
    refine holds_congr holds' rfl fun id inside => ?_
    have other : id ≠ va := by
      rintro rfl
      exact fresh (order' ▸ inside)
    exact ⟨rfl, if_neg other, fun _ => rfl⟩
  have sub : (before ++ after).Sublist (before ++ va :: after) :=
    Sublist.append_left (sublist_cons_self va after) before
  have list_eq : areas.list.delInit (some va) = ring (none :: (before ++ after).map some) := by
    have whole := nodup_list unique
    have cut : none :: (before ++ va :: after).map some =
        (none :: before.map some) ++ some va :: after.map some := by simp
    rw [sound.list]
    rw [cut] at whole ⊢
    rw [delInit_ring whole]
    simp
  have cache : ∃ freeVmapCache, moveCache rounds areas va = .ok freeVmapCache ∧
      ∀ id ∈ freeVmapCache, id ∈ before ++ after ∧
        ∃ old ∈ areas.freeVmapCache, Moves (dataOf areas.tree) before va old id := by
    rw [moveCache]
    cases old : areas.freeVmapCache with
    | none => exact ⟨none, rfl, by simp⟩
    | some cache => ?_
    simp only
    split
    · exact ⟨none, rfl, by simp⟩
    split
    · next lower =>
      rw [prev]
      refine ⟨before.getLast?, rfl, fun id last => ?_⟩
      have inside := mem_of_getLast? last
      exact ⟨mem_append_left _ inside, cache, rfl, .inr ⟨inside, lower⟩⟩
    rename_i higher
    refine ⟨some cache, rfl, fun id same => ?_⟩
    obtain rfl := Option.mem_some_iff.mp same
    have alive := sound.cached cache old
    have other : cache ≠ va := by
      rintro rfl
      exact higher (le_rfl)
    exact ⟨by simpa [other] using alive, cache, rfl, .inl ⟨rfl, Nat.lt_of_not_le higher⟩⟩
  obtain ⟨freeVmapCache, updated, cached⟩ := cache
  rw [freeVmapArea, linked, if_neg Bool.false_ne_true]
  simp only [updated, bind, Except.bind, rbErase, erased, walk]
  refine ⟨_, rfl, ⟨⟨t', cleared, redBlack', order'⟩, list_eq, (data ▸ sound.ascending).sublist sub,
    fun id mem => (cached id mem).1⟩, data, fun covered => ⟨fun gone => covered.power ?_, ?_⟩⟩
  · rintro unset
    obtain ⟨id, mem⟩ := Option.ne_none_iff_exists'.mp gone
    obtain ⟨-, old, was, -⟩ := cached id mem
    rw [unset] at was
    cases was
  intro id mem place size above align larger vacant
  obtain ⟨kept, old, was, moves⟩ := cached id mem
  have same : dataOf (rbClearNode tree' va) = dataOf areas.tree := data
  simp only [same] at vacant ⊢
  exact vaEnd_le_of_freed sound.ascending (sound.cached old was) kept moves
    (covered.noticed old was place size above align larger) vacant

end Sound

end TinyKernel.Vmalloc
