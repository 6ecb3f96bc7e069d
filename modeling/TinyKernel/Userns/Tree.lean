import TinyKernel.Userns.Maps

/-! Every map that `map_write` installs is an injection into the kernel ids of the parent, whatever
the text. -/

namespace TinyKernel.Userns

open Lib List

section

variable {newMap : UidGidMap} {extent : Extent}

theorem extentAccepted_sound (accepted : extentAccepted newMap extent = true) : extent.Sound := by
  simp only [extentAccepted] at accepted
  split at accepted
  · cases accepted
  split at accepted
  · cases accepted
  split at accepted
  · cases accepted
  constructor <;> bv_omega

theorem extentAccepted_apart (sound : newMap.Sound) (accepted : extentAccepted newMap extent = true)
    {prev : Extent} (mem : prev ∈ newMap.extents) :
    prev.piece.SourceApart extent.piece ∧ prev.piece.flip.SourceApart extent.piece.flip := by
  obtain ⟨nonempty, upper, lower⟩ := extentAccepted_sound accepted
  obtain ⟨nonempty', upper', lower'⟩ := sound.extents prev mem
  have clear : mappingsOverlap newMap extent = false := by
    simp only [extentAccepted] at accepted
    grind
  have apart := any_eq_false.mp clear prev mem
  simp only [Piece.SourceApart, Piece.flip, Extent.piece]
  simp only [Bool.or_eq_true, Bool.and_eq_true, decide_eq_true_eq] at apart
  bv_omega

theorem UidGidMap.Sound.append (sound : newMap.Sound)
    (accepted : extentAccepted newMap extent = true)
    (fits : (newMap.extents ++ [extent]).length ≤ maxExtents) :
    UidGidMap.Sound ⟨newMap.extents ++ [extent], fits⟩ where
  extents := by
    intro other mem
    rcases mem_append.mp mem with earlier | last
    · exact sound.extents other earlier
    rw [mem_singleton.mp last]
    exact extentAccepted_sound accepted
  sources := by
    rw [UidGidMap.pieces, map_append]
    refine pairwise_append.mpr ⟨sound.sources, pairwise_singleton _ _, ?_⟩
    simpa using fun prev mem => (extentAccepted_apart sound accepted mem).1
  targets := by
    rw [TargetsApart, UidGidMap.pieces, map_append, map_append]
    refine pairwise_append.mpr ⟨sound.targets, pairwise_singleton _ _, ?_⟩
    simpa using fun prev mem => (extentAccepted_apart sound accepted mem).2

variable {rest : List (List Byte)}

theorem parseLines_sound (sound : newMap.Sound) (parsed : parseLines newMap rest = .ok new) :
    new.Sound := by
  fun_induction parseLines newMap rest with
  | case1 newMap =>
    cases parsed
    exact sound
  | case2 | case3 | case4 | case6 => cases parsed
  | case5 newMap line nextLines room extent read accepted appended more ih =>
    exact ih (sound.append (by simpa using accepted) _) parsed

/-- The number of extents is compared with the size of the array before the next line is read. -/
theorem parseLines_not_overrun (room : newMap.extents.length < maxExtents ∨ rest = []) :
    parseLines newMap rest ≠ .error .overrun := by
  fun_induction parseLines newMap rest with
  | case1 | case2 | case3 | case4 => simp
  | case5 newMap line nextLines _ extent read accepted appended more ih =>
    apply ih
    grind
  | case6 newMap line nextLines full => ?_
  rcases room with some | none
  · exact absurd some full
  cases none

end

section

variable {parentMap map new : UidGidMap}

theorem mapLower_eq (done : mapLower parentMap extents = some mapped) :
    (∀ extent ∈ extents, mapIdRangeDown parentMap extent.lowerFirst extent.count ≠ invalidId) ∧
      mapped =
        extents.map fun extent => { extent with
          lowerFirst := mapIdRangeDown parentMap extent.lowerFirst extent.count } := by
  induction extents generalizing mapped with
  | nil =>
    cases done
    simp
  | cons extent rest ih => ?_
  simp only [mapLower] at done
  split at done
  · cases done
  next valid =>
    obtain ⟨later, found, rfl⟩ := Option.map_eq_some_iff.mp done
    obtain ⟨all, rfl⟩ := ih found
    exact ⟨forall_mem_cons.mpr ⟨valid, all⟩, rfl⟩

/-- The kernel ids of one map are among those of another. -/
def Within (map parentMap : UidGidMap) : Prop :=
  ∀ a kernel, Sends map.pieces a kernel → ∃ b, Sends parentMap.pieces b kernel

theorem Within.of_nil (none : map.extents = []) : Within map parentMap := by
  rintro a kernel ⟨piece, mem, -⟩
  simp [UidGidMap.pieces, none] at mem

theorem Within.change (within : Within map parentMap) (none : parentMap.extents = []) :
    Within map changed := by
  intro a kernel sent
  obtain ⟨b, piece, mem, -⟩ := within a kernel sent
  simp [UidGidMap.pieces, none] at mem

theorem Extent.Sound.through {extent changed : Extent} (good : extent.Sound)
    (sound : parentMap.Sound) (through : extent.piece.Through parentMap.pieces changed.piece) :
    changed.Sound := by
  obtain ⟨source, length, p, mem, low, high, target⟩ := through
  obtain ⟨parent, found, rfl⟩ := mem_map.mp mem
  obtain ⟨nonempty, upper, lower⟩ := sound.extents parent found
  obtain ⟨nonempty', upper', lower'⟩ := good
  simp only [Extent.piece] at source length low high target
  constructor <;> omega

theorem mapLower_sound (parent : parentMap.Sound) (sound : new.Sound)
    (done : mapLower parentMap new.extents = some mapped) (fits : mapped.length ≤ maxExtents) :
    UidGidMap.Sound ⟨mapped, fits⟩ ∧ Within ⟨mapped, fits⟩ parentMap := by
  obtain ⟨valid, rfl⟩ := mapLower_eq done
  have through := fun extent mem =>
    mapIdRangeDown_through parent (sound.extents extent mem) (valid extent mem)
  have sources := sound.sources.through through
  have targets := TargetsApart.through through
    (fun extent mem => (sound.extents extent mem).nonempty) parent.targets sound.targets
  refine ⟨⟨?_, ?_, ?_⟩, ?_⟩
  · intro extent mem
    obtain ⟨old, found, rfl⟩ := mem_map.mp mem
    exact (sound.extents old found).through parent (through old found)
  · rw [UidGidMap.pieces, map_map]
    exact sources
  · rw [UidGidMap.pieces, map_map]
    exact targets
  intro a kernel sent
  rw [UidGidMap.pieces, map_map] at sent
  obtain ⟨b, -, second⟩ := Sends.of_through through sent
  exact ⟨b, second⟩

theorem sound_nil : UidGidMap.Sound ⟨[], Nat.zero_le _⟩ where
  extents := by simp
  sources := Pairwise.nil
  targets := Pairwise.nil

theorem newMap_sound (parent : parentMap.Sound) (made : newMap call map parentMap = .ok new) :
    map.extents = [] ∧ new.Sound ∧ Within new parentMap := by
  unfold newMap at made
  split at made
  · cases made
  next none =>
  iterate 4
    split at made
    · cases made
  split at made
  · cases made
  next parsed =>
  iterate 2
    split at made
    · cases made
  split at made
  · cases made
  next done =>
    cases made
    have sound := parseLines_sound sound_nil parsed
    exact ⟨length_eq_zero_iff.mp (not_not.mp none), mapLower_sound parent sound done _⟩

theorem newMap_not_overrun (call : Call) (map parentMap : UidGidMap) :
    newMap call map parentMap ≠ .error .overrun := by
  unfold newMap
  iterate 5
    split
    · simp
  split
  next fail =>
    intro same
    cases same
    exact parseLines_not_overrun (.inl (by decide)) fail
  next =>
    iterate 2
      split
      · simp
    split <;> simp

end

section

/-- The invariant of the tree: sound maps, whose kernel ids are among those of the parent. -/
structure TreeSound (spaces : List UserNamespace) : Prop where
  maps : ∀ ns ∈ spaces, ns.uidMap.Sound
  parents : ∀ ns ∈ spaces, ∀ parent, ns.parent = some parent →
    ∃ parentNs, spaces[parent]? = some parentNs ∧ Within ns.uidMap parentNs.uidMap

theorem treeSound_init : TreeSound [initUserNs] where
  maps := by
    intro ns mem
    rw [mem_singleton.mp mem]
    refine ⟨?_, pairwise_singleton _ _, pairwise_singleton _ _⟩
    intro extent mem
    rw [mem_singleton.mp mem]
    constructor <;> decide
  parents := by
    intro ns mem parent found
    rw [mem_singleton.mp mem] at found
    cases found

variable {spaces : List UserNamespace}

theorem TreeSound.create (sound : TreeSound spaces) (parent : Nat) (owner : U32) (granted : Bool) :
    TreeSound (createUserNs spaces parent owner granted) := by
  unfold createUserNs
  split
  · exact sound
  next parentNs found =>
  split
  · exact sound
  split
  · exact sound
  constructor
  · intro ns mem
    rcases mem_append.mp mem with old | last
    · exact sound.maps ns old
    rw [mem_singleton.mp last]
    exact sound_nil
  intro ns mem upper above
  have kept {place : Nat} {other : UserNamespace} (found : spaces[place]? = some other) :
      (spaces ++ [⟨some parent, parentNs.level + 1, ⟨[], Nat.zero_le _⟩⟩])[place]? = some other :=
    (List.getElem?_append_left (List.getElem?_eq_some_iff.mp found).1).trans found
  rcases List.mem_append.mp mem with old | last
  · obtain ⟨upperNs, found, within⟩ := sound.parents ns old upper above
    exact ⟨upperNs, kept found, within⟩
  rw [mem_singleton.mp last] at above ⊢
  cases above
  exact ⟨parentNs, kept found, Within.of_nil rfl⟩

/-- A map that was empty can be replaced: no kernel id below it came from it. -/
theorem TreeSound.set (sound : TreeSound spaces) (found : spaces[place]? = some ns)
    (none : ns.uidMap.extents = []) (good : new.Sound)
    (within : ∀ parent parentNs, ns.parent = some parent → spaces[parent]? = some parentNs →
      Within new parentNs.uidMap) : TreeSound (spaces.set place { ns with uidMap := new }) := by
  obtain ⟨bound, -⟩ := List.getElem?_eq_some_iff.mp found
  constructor
  · intro other mem
    rcases mem_or_eq_of_mem_set mem with old | rfl
    · exact sound.maps other old
    exact good
  have reach {map : UidGidMap} {parent : Nat} {parentNs : UserNamespace}
      (upper : spaces[parent]? = some parentNs) (inside : Within map parentNs.uidMap) :
      ∃ upperNs, (spaces.set place { ns with uidMap := new })[parent]? = some upperNs ∧
        Within map upperNs.uidMap := by
    by_cases same : place = parent
    · subst same
      obtain rfl := Option.some.inj (found.symm.trans upper)
      exact ⟨{ ns with uidMap := new }, by simp [bound], inside.change none⟩
    exact ⟨parentNs, by rw [getElem?_set_ne same, upper], inside⟩
  intro other mem parent above
  rcases mem_or_eq_of_mem_set mem with old | rfl
  · obtain ⟨parentNs, upper, inside⟩ := sound.parents other old parent above
    exact reach upper inside
  obtain ⟨parentNs, upper, -⟩ := sound.parents ns (mem_of_getElem? found) parent above
  exact reach upper (within parent parentNs above upper)

theorem set_same (found : spaces[place]? = some ns) : spaces.set place ns = spaces := by
  obtain ⟨bound, rfl⟩ := List.getElem?_eq_some_iff.mp found
  exact List.set_getElem_self bound

/-- What a write can do: fail, or give an empty map its contents. -/
theorem procUidMapWrite_cases (spaces : List UserNamespace) (place seqNs : Nat) (call : Call) :
    (∃ error, procUidMapWrite spaces place seqNs call = (.error error, spaces) ∧ error ≠ .overrun) ∨
      ∃ ns parent parentNs new, spaces[place]? = some ns ∧ ns.parent = some parent ∧
        spaces[parent]? = some parentNs ∧ newMap call ns.uidMap parentNs.uidMap = .ok new ∧
        procUidMapWrite spaces place seqNs call =
          (.ok call.text.length, spaces.set place { ns with uidMap := new }) := by
  unfold procUidMapWrite
  split
  · exact .inl ⟨.fault, rfl, by decide⟩
  next ns found =>
  split
  · exact .inl ⟨.perm, rfl, by decide⟩
  next parent above =>
  split
  · exact .inl ⟨.perm, rfl, by decide⟩
  split
  · exact .inl ⟨.fault, rfl, by decide⟩
  next parentNs upper =>
    cases made : newMap call ns.uidMap parentNs.uidMap with
    | error error =>
      refine .inl ⟨error, ?_, ?_⟩
      · simp [mapWrite, made, set_same found]
      rintro rfl
      exact newMap_not_overrun call ns.uidMap parentNs.uidMap made
    | ok new => exact .inr ⟨ns, parent, parentNs, new, found, above, upper, made, by
        simp [mapWrite, made]⟩

theorem TreeSound.step (sound : TreeSound spaces) (event : Event) :
    TreeSound (step spaces event) := by
  cases event with
  | create parent owner granted => exact sound.create parent owner granted
  | write place seqNs call => ?_
  rcases procUidMapWrite_cases spaces place seqNs call with
    ⟨error, fail, -⟩ | ⟨ns, parent, parentNs, new, found, above, upper, made, done⟩
  · simp only [Userns.step, fail]
    exact sound
  simp only [Userns.step, done]
  obtain ⟨none, good, within⟩ := newMap_sound (sound.maps parentNs (mem_of_getElem? upper)) made
  apply sound.set found none good
  intro other otherNs above' upper'
  obtain rfl := Option.some.inj (above.symm.trans above')
  obtain rfl := Option.some.inj (upper.symm.trans upper')
  exact within

theorem treeSound_run (events : List Event) : TreeSound (run events) := by
  suffices all : ∀ spaces, TreeSound spaces → TreeSound (events.foldl step spaces) from
    all _ treeSound_init
  induction events with
  | nil => exact fun _ sound => sound
  | cons event rest ih => exact fun spaces sound => ih _ (sound.step event)

end

section

variable {ns : UserNamespace} (sound : ns.uidMap.Sound)
include sound

theorem fromKuid_makeKuid (valid : makeKuid ns uid ≠ invalidId) :
    fromKuid ns (makeKuid ns uid) = uid :=
  mapIdUp_eq sound (mapIdDown_sends sound valid)

theorem makeKuid_fromKuid (valid : fromKuid ns kuid ≠ invalidId) :
    makeKuid ns (fromKuid ns kuid) = kuid :=
  mapIdDown_eq sound (mapIdUp_sends sound valid)

theorem makeKuid_invalid : makeKuid ns invalidId = invalidId := by
  by_contra valid
  have below := (sound.lt (mapIdDown_sends sound valid)).1
  exact toNat_ne_invalid.mpr below rfl

theorem fromKuid_invalid : fromKuid ns invalidId = invalidId := by
  by_contra valid
  have below := (sound.lt (mapIdUp_sends sound valid)).2
  exact toNat_ne_invalid.mpr below rfl

end

theorem kuidHasMapping_parent (sound : ns.uidMap.Sound) (parent : parentNs.uidMap.Sound)
    (within : Within ns.uidMap parentNs.uidMap) (mapped : kuidHasMapping ns kuid = true) :
    kuidHasMapping parentNs kuid = true := by
  simp only [kuidHasMapping, decide_eq_true_eq] at mapped ⊢
  obtain ⟨b, sent⟩ := within _ _ (mapIdUp_sends sound mapped)
  have below := (parent.lt sent).1
  have exact : (BitVec.ofNat 32 b).toNat = b := by
    rw [BitVec.toNat_ofNat]
    omega
  rw [← exact] at sent
  rw [fromKuid, mapIdUp_eq parent sent]
  exact toNat_ne_invalid.mpr (by omega)

/-- Whatever namespaces are made and whatever text is written to their maps: each map is injective
and agrees with its inverse, no side of it has `(u32) -1`, and its kernel ids are mapped in the
parent. A write that fails changes nothing, and none leaves the array. -/
theorem user_namespace_maps (events : List Event) :
    (∀ ns ∈ run events, (∀ u v, makeKuid ns u ≠ invalidId → makeKuid ns v ≠ invalidId →
          makeKuid ns u = makeKuid ns v → u = v) ∧
        (∀ u, makeKuid ns u ≠ invalidId → fromKuid ns (makeKuid ns u) = u) ∧
        (∀ k, kuidHasMapping ns k = true → makeKuid ns (fromKuid ns k) = k) ∧
        makeKuid ns invalidId = invalidId ∧ fromKuid ns invalidId = invalidId ∧
        ∀ parent, ns.parent = some parent →
          ∃ parentNs, (run events)[parent]? = some parentNs ∧
            ∀ k, kuidHasMapping ns k = true → kuidHasMapping parentNs k = true) ∧
      ∀ place seqNs call error, (procUidMapWrite (run events) place seqNs call).1 = .error error →
        (procUidMapWrite (run events) place seqNs call).2 = run events ∧ error ≠ .overrun := by
  have tree := treeSound_run events
  constructor
  · intro ns member
    have sound := tree.maps ns member
    refine ⟨?_, fun u => fromKuid_makeKuid sound, ?_, makeKuid_invalid sound,
      fromKuid_invalid sound, ?_⟩
    · intro u v validU validV same
      rw [← fromKuid_makeKuid sound validU, same, fromKuid_makeKuid sound validV]
    · intro k mapped
      exact makeKuid_fromKuid sound (by simpa [kuidHasMapping] using mapped)
    intro parent above
    obtain ⟨parentNs, upper, within⟩ := tree.parents ns member parent above
    exact ⟨parentNs, upper,
      fun k => kuidHasMapping_parent sound (tree.maps parentNs (mem_of_getElem? upper)) within⟩
  intro place seqNs call error failed
  rcases procUidMapWrite_cases (run events) place seqNs call with
    ⟨other, same, fits⟩ | ⟨ns, parent, parentNs, new, -, -, -, -, done⟩
  · rw [same] at failed ⊢
    cases failed
    exact ⟨rfl, fits⟩
  rw [done] at failed
  cases failed

/-- The ids from 0 to 9 of a child are those from 1000 on of the first namespace. -/
def tenIds : List Event :=
  [.create 0 0 true,
    .write 1 0 ⟨[48, 32, 49, 48, 48, 48, 32, 49, 48, 10], 0, true, true, true, fun _ => true⟩]

theorem user_namespace_maps_ten :
    ∃ ns ∈ run tenIds, makeKuid ns 3 = 1003 ∧ makeKuid ns 10 = invalidId ∧
      fromKuid ns (makeKuid ns 3) = 3 := by
  have mapped : ∀ ns, (run tenIds)[1]? = some ns → makeKuid ns 3 = 1003 ∧
      makeKuid ns 10 = invalidId := by
    rintro ns ⟨⟩
    decide
  obtain ⟨ns, found⟩ : ∃ ns, (run tenIds)[1]? = some ns := ⟨_, rfl⟩
  have member := mem_of_getElem? found
  have valid : makeKuid ns 3 ≠ invalidId := by
    rw [(mapped ns found).1]
    decide
  exact ⟨ns, member, (mapped ns found).1, (mapped ns found).2,
    ((user_namespace_maps tenIds).1 ns member).2.1 3 valid⟩

end TinyKernel.Userns
