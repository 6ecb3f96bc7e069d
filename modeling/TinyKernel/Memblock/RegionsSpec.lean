import TinyKernel.Memblock.Regions

/-! The index walks of one array compute the list operations of the span library. An array
is split at the current index into the entries already passed and those still ahead. -/

namespace TinyKernel.Memblock

open Lib Span Nat MemblockType
open List hiding after isEmpty_iff

/-- The array holds these spans, or the dummy entry when there are none. -/
structure MemblockType.Holds (type : MemblockType) (spans : List Region) : Prop where
  shape : type.regions = if spans = [] then [dummy] else spans
  ordered : Ordered 0 spans
  bounded : ∀ span ∈ spans, span.limit ≤ ullongMax
  totalSize : type.totalSize = total spans

theorem lookup_dummy (address : Nat) : lookup [dummy] address = none := by
  have out : ¬ dummy.Covers address := by
    simp only [Span.Covers, Span.limit, dummy]
    omega
  rw [lookup_cons, if_neg out, lookup_nil]

section

variable {type : MemblockType}

theorem MemblockType.Holds.lookup_regions (holds : type.Holds spans) (address : Nat) :
    lookup type.regions address = lookup spans address := by
  rw [holds.shape]
  split
  · rename_i empty
    rw [lookup_dummy, empty, lookup_nil]
  rfl

theorem MemblockType.Holds.regions_eq (holds : type.Holds spans) (some : spans ≠ []) :
    type.regions = spans := by
  rw [holds.shape, if_neg some]

/-- The test for the dummy entry is right. -/
theorem MemblockType.Holds.empty_iff (holds : type.Holds spans) :
    type.regions[0]?.map Span.size = some 0 ↔ spans = [] := by
  cases spans with
  | nil => simp [holds.shape, dummy]
  | cons span rest => ?_
  have sized := holds.ordered.2.1
  simp [holds.shape]
  omega

end

variable {pre rest : List Region} {type : MemblockType}

theorem insertRegion_at (region : Region) (shape : type.regions = pre ++ suf) :
    insertRegion type pre.length region =
      if type.max ≤ type.cnt then .error .insertRegion
      else .ok { type with
        regions := pre ++ region :: suf,
        totalSize := type.totalSize + region.size } := by
  simp [insertRegion, shape]

variable {span : Region}

theorem getElem?_at : (pre ++ span :: rest)[pre.length]? = some span := by simp

section

variable (stop : Nat) (flags : Flags)

/-- The counting round finds the number of gaps. -/
theorem addWalk_count (suf pre : List Region) (walk : Walk) (shape : walk.type.regions = pre ++ suf)
    (index : walk.i = pre.length) :
    ∃ last, addWalk false stop flags suf.length walk = .ok last ∧ last.type = walk.type ∧
      last.nrNew + (if last.base < stop then 1 else 0) = walk.nrNew + gaps stop walk.base suf := by
  induction suf generalizing pre walk with
  | nil => exact ⟨walk, rfl, rfl, rfl⟩
  | cons span rest ih => ?_
  have here : walk.type.regions[walk.i]? = some span := by rw [shape, index, getElem?_at]
  have shifted : walk.type.regions = (pre ++ [span]) ++ rest := by simp [shape]
  have next : walk.i + 1 = (pre ++ [span]).length := by simp [index]
  simp only [length_cons, addWalk, here]
  by_cases beyond : stop ≤ span.base
  · exact ⟨walk, by rw [if_pos beyond], rfl, by simp [gaps, beyond]⟩
  rw [if_neg beyond]
  by_cases passed : span.limit ≤ walk.base
  · obtain ⟨last, ran, same, count⟩ :=
      ih (pre ++ [span]) { walk with i := walk.i + 1 } shifted next
    exact ⟨last, by rw [if_pos passed]; exact ran, same, by rw [count]; simp [gaps, beyond, passed]⟩
  rw [if_neg passed]
  by_cases lower : walk.base < span.base
  · obtain ⟨last, ran, same, count⟩ := ih (pre ++ [span])
      { walk with i := walk.i + 1, base := min span.limit stop, nrNew := walk.nrNew + 1 }
      shifted next
    refine ⟨last, by rw [if_pos lower]; exact ran, same, ?_⟩
    rw [count]
    simp only [gaps, if_neg beyond, if_neg passed, if_pos lower]
    omega
  obtain ⟨last, ran, same, count⟩ := ih (pre ++ [span])
    { walk with i := walk.i + 1, base := min span.limit stop } shifted next
  refine ⟨last, by rw [if_neg lower]; exact ran, same, ?_⟩
  rw [count]
  simp only [gaps, if_neg beyond, if_neg passed, if_neg lower]
  omega

theorem addRound_count (type : MemblockType) (base : Nat) :
    addRound false type base stop flags = .ok (type, gaps stop base type.regions) := by
  obtain ⟨last, ran, same, count⟩ :=
    addWalk_count stop flags type.regions [] { type, i := 0, base, nrNew := 0 } rfl rfl
  simp only [addRound, cnt, ran, bind, Except.bind]
  simp only [zero_add] at count
  split
  · rename_i more
    rw [if_pos more] at count
    simp [same, count]
  rename_i done
  rw [if_neg done] at count
  simp [same, ← count]

/-- The remaining portion, after the inserting walk. -/
def finishWalk (stop : Nat) (flags : Flags) (walk : Walk) : Except Fault (MemblockType × Nat) :=
  if walk.base < stop then do
    let type ← insertRegion walk.type walk.i ⟨walk.base, stop - walk.base, flags⟩
    .ok (type, walk.nrNew + 1)
  else .ok (walk.type, walk.nrNew)

theorem finishWalk_eq (shape : walk.type.regions = pre ++ suf) (index : walk.i = pre.length)
    (fits : walk.type.cnt ≤ walk.type.max) :
    finishWalk stop flags walk =
      if walk.type.cnt + (if walk.base < stop then 1 else 0) ≤ walk.type.max then
        .ok ({ walk.type with
          regions := pre ++ (piece flags walk.base stop ++ suf)
          totalSize := walk.type.totalSize + (stop - walk.base) },
          walk.nrNew + if walk.base < stop then 1 else 0)
      else .error .insertRegion := by
  by_cases more : walk.base < stop
  · simp only [finishWalk, if_pos more, index, insertRegion_at _ shape]
    by_cases full : walk.type.max ≤ walk.type.cnt
    · rw [if_pos full, if_neg (by omega)]
      rfl
    rw [if_neg full, if_pos (by omega)]
    simp [piece, more, bind, Except.bind]
  have none : stop - walk.base = 0 := by omega
  rw [if_pos (by rw [if_neg more]; exact fits)]
  simp only [finishWalk, if_neg more, piece, none, nil_append, ← shape, add_zero]

/-- The inserting round fills the gaps, or runs into the `BUG_ON` when they do not fit. -/
theorem addWalk_insert (suf pre : List Region) (walk : Walk)
    (shape : walk.type.regions = pre ++ suf) (index : walk.i = pre.length)
    (fits : walk.type.cnt ≤ walk.type.max) :
    (addWalk true stop flags suf.length walk >>= finishWalk stop flags) =
      if walk.type.cnt + gaps stop walk.base suf ≤ walk.type.max then
        .ok ({ walk.type with
          regions := pre ++ fill flags stop walk.base suf
          totalSize := walk.type.totalSize + added stop walk.base suf },
          walk.nrNew + gaps stop walk.base suf)
      else .error .insertRegion := by
  induction suf generalizing pre walk with
  | nil =>
    simp only [length_nil, addWalk, bind, Except.bind]
    rw [finishWalk_eq stop flags shape index fits, append_nil]
    rfl
  | cons span rest ih => ?_
  have here : walk.type.regions[walk.i]? = some span := by rw [shape, index, getElem?_at]
  have shifted : walk.type.regions = (pre ++ [span]) ++ rest := by simp [shape]
  have next : walk.i + 1 = (pre ++ [span]).length := by simp [index]
  simp only [length_cons, addWalk, here, gaps, fill, added]
  by_cases beyond : stop ≤ span.base
  · simp only [if_pos beyond]
    exact finishWalk_eq stop flags shape index fits
  by_cases passed : span.limit ≤ walk.base
  · simp only [if_neg beyond, if_pos passed]
    rw [ih (pre ++ [span]) { walk with i := walk.i + 1 } shifted next fits]
    simp
  by_cases lower : walk.base < span.base
  · simp only [if_neg beyond, if_neg passed, if_pos lower, if_true, index, insertRegion_at _ shape]
    by_cases full : walk.type.max ≤ walk.type.cnt
    · rw [if_pos full, if_neg (by omega)]
      rfl
    simp only [if_neg full, bind, Except.bind]
    have later := ih (pre ++ [⟨walk.base, span.base - walk.base, flags⟩, span])
      { type := { walk.type with
          regions := pre ++ ⟨walk.base, span.base - walk.base, flags⟩ :: span :: rest
          totalSize := walk.type.totalSize + (span.base - walk.base) }
        i := pre.length + 2, base := min span.limit stop, nrNew := walk.nrNew + 1 }
      (by simp) (by simp)
      (by
        simp only [cnt, shape, length_append, length_cons] at *
        omega)
    have count : (pre ++ ⟨walk.base, span.base - walk.base, flags⟩ :: span :: rest).length =
        walk.type.cnt + 1 := by
      simp only [cnt, shape, length_append, length_cons]
      omega
    simp only [bind, Except.bind, cnt, count] at later
    rw [later]
    simp only [piece, if_pos lower, append_assoc, cons_append, nil_append, add_assoc]
    rfl
  have none : span.base - walk.base = 0 := by omega
  simp only [if_neg beyond, if_neg passed, if_neg lower, none, piece]
  rw [ih (pre ++ [span]) { walk with i := walk.i + 1, base := min span.limit stop } shifted next
    fits]
  simp

theorem addRound_insert (type : MemblockType) (base : Nat) (fits : type.cnt ≤ type.max) :
    addRound true type base stop flags =
      if type.cnt + gaps stop base type.regions ≤ type.max then
        .ok ({ type with
          regions := fill flags stop base type.regions
          totalSize := type.totalSize + added stop base type.regions },
          gaps stop base type.regions)
      else .error .insertRegion := by
  have whole := addWalk_insert stop flags type.regions []
    { type, i := 0, base, nrNew := 0 } rfl rfl fits
  simp only [nil_append, Nat.zero_add] at whole
  rw [← whole]
  rfl

end

/-- The merge loop joins the entries from the current index on. -/
theorem mergeRegionsFrom_eq (rest pre : List Region) (span : Region) (type : MemblockType)
    (rounds : Nat) (shape : type.regions = pre ++ span :: rest)
    (ordered : Ordered low (span :: rest)) (enough : rest.length ≤ rounds) :
    mergeRegionsFrom rounds type pre.length =
      .ok { type with regions := pre ++ joinFrom span rest } := by
  induction rest generalizing pre span type rounds low with
  | nil =>
    have past : type.regions[pre.length + 1]? = none := by simp [shape]
    cases rounds with
    | zero => simp [mergeRegionsFrom, joinFrom, ← shape]
    | succ rounds => ?_
    simp only [mergeRegionsFrom, past, joinFrom, ← shape]
    split <;> first | rfl | (rename_i known; cases known)
  | cons next rest ih => ?_
  obtain ⟨rounds, rfl⟩ : ∃ fewer, rounds = fewer + 1 := ⟨rounds - 1, by simp at enough; omega⟩
  have enough' : rest.length ≤ rounds := by simpa using enough
  obtain ⟨first, sized, above, filled, later⟩ := ordered
  have this : type.regions[pre.length]? = some span := by simp [shape]
  have after : type.regions[pre.length + 1]? = some next := by simp [shape]
  simp only [mergeRegionsFrom, this, after, joinFrom]
  by_cases joins : span.limit = next.base ∧ span.flags = next.flags
  · have same : ¬ (span.limit ≠ next.base ∨ span.flags ≠ next.flags) := by
      rw [joins.1, joins.2]; simp
    rw [if_neg same, if_pos joins]
    have gone : type.regions.take pre.length ++
          (⟨span.base, span.size + next.size, span.flags⟩ : Region) ::
          type.regions.drop (pre.length + 2) =
        pre ++ (⟨span.base, span.size + next.size, span.flags⟩ : Region) :: rest := by
      simp [shape, drop_append]
    rw [gone]
    have wide : (⟨span.base, span.size + next.size, span.flags⟩ : Region).limit = next.limit := by
      simp only [limit] at *
      omega
    exact ih pre _ { type with regions := _ } rounds rfl
      (show Ordered low _ from ⟨first, by simp only; omega, wide ▸ later⟩) enough'
  have differ : span.limit ≠ next.base ∨ span.flags ≠ next.flags := by
    by_contra both
    simp only [not_or, not_not] at both
    exact joins both
  rw [if_pos differ, if_neg (by omega), if_neg joins]
  have moved := ih (pre ++ [span]) next type rounds (by simp [shape])
    (show Ordered span.limit _ from ⟨above, filled, later⟩) enough'
  simp only [length_append, length_singleton] at moved
  rw [moved]
  simp

theorem mergeRegions_eq (ordered : Ordered low type.regions) :
    mergeRegions type = .ok { type with regions := coalesce type.regions } := by
  unfold mergeRegions cnt
  cases shape : type.regions with
  | nil =>
    change Except.ok type = _
    rw [coalesce, ← shape]
  | cons span rest => ?_
  rw [shape] at ordered
  exact mergeRegionsFrom_eq rest [] span type _ shape ordered (by simp)

section

variable (base stop : Nat)

/-- Cutting a region in place: the upper half stays at the index, the lower one goes in
before it, and the total is the same. -/
theorem cut_at {point : Nat} (shape : type.regions = pre ++ span :: rest)
    (above : span.base ≤ point) (below : point ≤ span.limit)
    (counted : type.totalSize = total type.regions) (room : type.cnt < type.max) :
    insertRegion { type with
        regions := type.regions.set pre.length ⟨point, span.size - (point - span.base), span.flags⟩
        totalSize := type.totalSize - (point - span.base) }
      pre.length ⟨span.base, point - span.base, span.flags⟩ =
    .ok { type with
      regions := pre ++ (⟨span.base, point - span.base, span.flags⟩ : Region) ::
        ⟨point, span.limit - point, span.flags⟩ :: rest } := by
  have size : span.size - (point - span.base) = span.limit - point := by
    simp only [limit] at *
    omega
  have sum : point - span.base ≤ type.totalSize := by
    rw [counted, shape, total_append, total_cons]
    simp only [limit] at *
    omega
  have form : type.regions.set pre.length ⟨point, span.size - (point - span.base), span.flags⟩ =
      pre ++ ⟨point, span.size - (point - span.base), span.flags⟩ :: rest := by simp [shape]
  rw [insertRegion_at _ form]
  have free : ¬ type.max ≤
      (type.regions.set pre.length
        ⟨point, span.size - (point - span.base), span.flags⟩).length := by
    rw [length_set]
    exact not_le.mpr room
  rw [cnt, if_neg free, size]
  simp only [Nat.sub_add_cancel sum]

/-- The walk once it is inside the range: whole regions are recorded, the one that crosses
the end is cut. -/
theorem isolateWalk_inside (suf pre : List Region) (type : MemblockType) (rounds : Nat)
    (found : Nat × Nat) (shape : type.regions = pre ++ suf) (ordered : Ordered base suf)
    (counted : type.totalSize = total type.regions) (room : type.cnt < type.max)
    (enough : suf.length < rounds) :
    isolateWalk base stop rounds type pre.length found =
      .ok ({ type with regions := pre ++ (before stop suf ++ after stop suf) },
        if before stop suf = [] then found
        else (if found.2 = 0 then pre.length
        else found.1, pre.length + (before stop suf).length)) := by
  induction suf generalizing pre type rounds found with
  | nil =>
    obtain _ | rounds := rounds
    · omega
    have past : type.regions[pre.length]? = none := by simp [shape]
    simp only [isolateWalk, past, before, after, append_nil] at *
    rw [← shape]
    rfl
  | cons span rest ih => ?_
  obtain ⟨rounds, rfl⟩ : ∃ fewer, rounds = fewer + 2 :=
    ⟨rounds - 2, by simp only [length_cons] at enough; omega⟩
  obtain ⟨start, last⟩ := found
  have here : type.regions[pre.length]? = some span := by simp [shape]
  obtain ⟨first, sized, later⟩ := ordered
  have step : span.limit = span.base + span.size := rfl
  rw [isolateWalk]
  simp only [here]
  by_cases beyond : stop ≤ span.base
  · have out : ¬ span.limit ≤ stop := by omega
    simp only [if_pos beyond, before, after, if_neg out, if_neg (Nat.not_lt.mpr beyond), nil_append,
      if_true]
    rw [← shape]
  rw [if_neg beyond, if_neg (by omega), if_neg (by omega)]
  by_cases crosses : stop < span.limit
  · rw [if_pos crosses, cut_at shape (by omega) (by omega) counted room]
    -- the bottom half is looked at again, recorded, and the top half ends the walk
    have redone : ∀ next : MemblockType, next.regions =
          pre ++ (⟨span.base, stop - span.base, span.flags⟩ : Region) ::
            ⟨stop, span.limit - stop, span.flags⟩ :: rest →
        isolateWalk base stop (rounds + 1) next pre.length (start, last) =
          .ok (next, if last = 0 then pre.length else start, pre.length + 1) := by
      intro next form
      have bottom : next.regions[pre.length]? = some ⟨span.base, stop - span.base, span.flags⟩ := by
        simp [form]
      have top : next.regions[pre.length + 1]? = some ⟨stop, span.limit - stop, span.flags⟩ := by
        simp [form]
      have cut : (⟨span.base, stop - span.base, span.flags⟩ : Region).limit = stop := by
        simp only [limit]; omega
      rw [isolateWalk]
      simp only [bottom, cut, if_neg beyond]
      rw [if_neg (by omega), if_neg (by omega), if_neg (by omega)]
      cases rounds with
      | zero => rfl
      | succ rounds => ?_
      rw [isolateWalk]
      simp [top]
    simp only [bind, Except.bind]
    rw [redone _ rfl]
    have out : ¬ span.limit ≤ stop := by omega
    simp [before, after, out, Nat.lt_of_not_le beyond]
  have inside : span.limit ≤ stop := by omega
  rw [if_neg crosses]
  have moved := ih (pre ++ [span]) type (rounds + 1)
    (if last = 0 then pre.length else start, pre.length + 1) (by simp [shape])
    (later.weaken (by omega)) counted room (by simp only [length_cons] at enough; omega)
  simp only [length_append, length_singleton] at moved
  rw [moved]
  have shift (more : Nat) : pre.length + 1 + more = pre.length + (more + 1) := by omega
  simp only [before, after, if_pos inside, append_assoc, cons_append,
    nil_append, reduceCtorEq, if_false, length_cons, shift]
  by_cases none : before stop rest = []
  · simp [none]
  simp

/-- The whole walk: entries below the range are passed, and the one that crosses its start
is cut before the walk goes on inside. -/
theorem isolateWalk_eq (suf pre : List Region) (type : MemblockType) (rounds : Nat)
    (shape : type.regions = pre ++ suf) (ordered : Ordered low suf) (range : base < stop)
    (counted : type.totalSize = total type.regions) (room : type.cnt + 1 < type.max)
    (enough : suf.length + 1 < rounds) :
    isolateWalk base stop rounds type pre.length (0, 0) =
      .ok ({ type with
          regions := pre ++ before base suf ++
            (before stop (after base suf) ++ after stop (after base suf)) },
        if before stop (after base suf) = [] then (0, 0)
        else (pre.length + (before base suf).length, pre.length + (before base suf).length +
          (before stop (after base suf)).length)) := by
  induction suf generalizing pre type rounds low with
  | nil =>
    have inside := isolateWalk_inside base stop [] pre type rounds (0, 0) shape
      trivial counted (by omega) (by simp at enough ⊢; omega)
    simpa [before, after] using inside
  | cons span rest ih => ?_
  obtain ⟨first, sized, later⟩ := ordered
  have step : span.limit = span.base + span.size := rfl
  by_cases passed : span.limit ≤ base
  · obtain _ | rounds := rounds
    · omega
    have here : type.regions[pre.length]? = some span := by simp [shape]
    rw [isolateWalk]
    simp only [here]
    rw [if_neg (by omega), if_pos passed]
    have moved := ih (pre ++ [span]) type rounds (by simp [shape]) later counted room
      (by simp only [length_cons] at enough; omega)
    simp only [length_append, length_singleton] at moved
    rw [moved]
    have shift (more : Nat) : pre.length + 1 + more = pre.length + (more + 1) := by omega
    simp only
      [before, after, if_pos passed, append_assoc, cons_append, nil_append, length_cons, shift]
  by_cases crosses : span.base < base
  · obtain _ | rounds := rounds
    · omega
    have here : type.regions[pre.length]? = some span := by simp [shape]
    rw [isolateWalk]
    simp only [here]
    rw [if_neg (by omega), if_neg passed, if_pos crosses,
      cut_at shape (by omega) (by omega) counted (by omega)]
    simp only [bind, Except.bind]
    have upper : Ordered base ((⟨base, span.limit - base, span.flags⟩ : Region) :: rest) :=
      ⟨le_rfl, by simp only; omega, later.weaken (by simp only [limit]; omega)⟩
    have same : total (pre ++ (⟨span.base, base - span.base, span.flags⟩ : Region) ::
        ⟨base, span.limit - base, span.flags⟩ :: rest) = total type.regions := by
      rw [shape]
      simp only [total_append, total_cons]
      omega
    have count : type.cnt = pre.length + (rest.length + 1) := by simp [cnt, shape]
    have inside := isolateWalk_inside base stop (⟨base, span.limit - base, span.flags⟩ :: rest)
      (pre ++ [⟨span.base, base - span.base, span.flags⟩])
      { type with
        regions := pre ++ (⟨span.base, base - span.base, span.flags⟩ : Region) ::
          ⟨base, span.limit - base, span.flags⟩ :: rest }
      rounds (0, 0) (by simp) upper (by rw [same]; exact counted)
      (by simp only [cnt, length_append, length_cons] at *; omega)
      (by simp only [length_cons] at *; omega)
    simp only [length_append, length_singleton] at inside
    rw [inside]
    simp [before, after, passed, crosses]
  have inside := isolateWalk_inside base stop (span :: rest) pre type
    rounds (0, 0) shape ⟨by omega, sized, later⟩ counted (by omega) (by omega)
  rw [inside]
  simp [before, after, passed, crosses]

end

theorem removeRegion_at (shape : type.regions = pre ++ span :: rest) :
    removeRegion type pre.length =
      { type with
        regions := if pre ++ rest = [] then [dummy] else pre ++ rest
        totalSize := type.totalSize - span.size } := by
  have tail : type.regions.drop (pre.length + 1) = rest := by simp [shape]
  have head : type.regions.take pre.length = pre := by simp [shape]
  have here : type.regions[pre.length]? = some span := by simp [shape]
  simp only [removeRegion, tail, head, here, Option.map_some, Option.getD_some, List.isEmpty_iff]

/-- The removal loop takes out a block of entries, and leaves the dummy if it took all. -/
theorem removeRegions_eq (mid pre post : List Region) (type : MemblockType)
    (shape : type.regions = pre ++ (mid ++ post)) :
    removeRegions type pre.length mid.length =
      { type with
        regions := if mid ≠ [] ∧ pre ++ post = [] then [dummy] else pre ++ post
        totalSize := type.totalSize - total mid } := by
  induction mid using reverseRecOn generalizing type post with
  | nil =>
    rw [nil_append] at shape
    simp [removeRegions, ← shape]
  | append_singleton front last ih => ?_
  have split : type.regions = (pre ++ front) ++ last :: post := by simp [shape]
  have index : pre.length + front.length = (pre ++ front).length := by simp
  rw [length_append, length_singleton, removeRegions, index, removeRegion_at split]
  by_cases only : pre ++ front ++ post = []
  · -- this was the last entry of the array, so the loop is over
    simp only [append_eq_nil_iff] at only
    obtain ⟨⟨rfl, rfl⟩, rfl⟩ := only
    simp [removeRegions]
  rw [if_neg only]
  rw [ih post { type with
    regions := pre ++ front ++ post, totalSize := type.totalSize - last.size }
    (by simp)]
  have sum : type.totalSize - last.size - total front =
      type.totalSize - total (front ++ [last]) := by
    simp only [total_append, total_cons, total_nil]
    omega
  have some : ¬ (front ≠ [] ∧ pre ++ post = []) ↔ ¬ pre ++ post = [] := by
    constructor
    · intro notBoth empty
      apply only
      simp only [append_eq_nil_iff] at empty
      obtain ⟨rfl, rfl⟩ := empty
      by_contra nonempty
      exact notBoth ⟨by simpa using nonempty, rfl⟩
    exact fun notEmpty both => notEmpty both.2
  simp only [sum, ne_eq, append_eq_nil_iff, cons_ne_self, and_false, not_false_eq_true, true_and]
  by_cases empty : pre ++ post = []
  · have both : front ≠ [] ∧ pre ++ post = [] := by
      by_contra notBoth
      exact some.mp notBoth empty
    simp [both.1, append_eq_nil_iff.mp empty]
  have neither : ¬ (pre = [] ∧ post = []) := by simpa using empty
  simp [neither]

theorem updateFlags_at (update : Flags → Flags) (shape : type.regions = pre ++ (mid ++ post)) :
    updateFlags update type pre.length (pre.length + mid.length) =
      { type with
        regions :=
          pre ++ (mid.map (fun span => { span with flags := update span.flags }) ++ post) } := by
  unfold updateFlags
  congr 1
  rw [shape]
  apply ext_getElem?
  intro i
  rw [getElem?_mapIdx]
  rcases lt_or_ge i pre.length with low | high
  · rw [getElem?_append_left low, getElem?_append_left low]
    cases pre[i]? with
    | none => rfl
    | some span => simp [not_le.mpr low]
  rw [getElem?_append_right high, getElem?_append_right high]
  rcases lt_or_ge (i - pre.length) mid.length with inside | beyond
  · rw [getElem?_append_left inside, getElem?_append_left (by simpa using inside), getElem?_map]
    cases mid[i - pre.length]? with
    | none => rfl
    | some span => simp [high, show i < pre.length + mid.length by omega]
  rw [getElem?_append_right beyond, getElem?_append_right (by simpa using beyond), length_map]
  cases post[i - pre.length - mid.length]? with
  | none => rfl
  | some span => simp [show ¬ i < pre.length + mid.length by omega]

theorem updateFlags_none (update : Flags → Flags) (type : MemblockType) :
    updateFlags update type 0 0 = type :=
  updateFlags_at update (show type.regions = [] ++ ([] ++ type.regions) from rfl)

section

variable {type : MemblockType} (addr : Nat)

private theorem uncovered_of_split (point : Nat)
    (below : ∀ i span, i < point → type.regions[i]? = some span → span.limit ≤ addr)
    (above : ∀ i span, point ≤ i → type.regions[i]? = some span → addr < span.base) :
    ∀ span ∈ type.regions, ¬ span.Covers addr := by
  intro span mem inside
  obtain ⟨i, found⟩ := mem_iff_getElem?.mp mem
  simp only [Span.Covers] at inside
  rcases lt_or_ge i point with low | high
  · have := below i span low found
    omega
  have := above i span high found
  omega

/-- The search keeps every entry before `left` below the address and every entry from
`right` on above it. -/
theorem searchFrom_spec
    (ordered : type.regions.Pairwise fun first second => first.limit ≤ second.base)
    (rounds left right : Nat) (nonempty : left < right) (within : right ≤ type.cnt)
    (enough : right - left ≤ rounds)
    (below : ∀ i span, i < left → type.regions[i]? = some span → span.limit ≤ addr)
    (above : ∀ i span, right ≤ i → type.regions[i]? = some span → addr < span.base) :
    match searchFrom type addr rounds left right with
    | some i => ∃ span, type.regions[i]? = some span ∧ span.Covers addr
    | none => ∀ span ∈ type.regions, ¬ span.Covers addr := by
  induction rounds generalizing left right with
  | zero => omega
  | succ rounds ih => ?_
  have middle : (right + left) / 2 < type.regions.length :=
    lt_of_lt_of_le (show (right + left) / 2 < right by omega) within
  obtain ⟨region, here⟩ : ∃ region, type.regions[(right + left) / 2]? = some region :=
    ⟨_, getElem?_eq_getElem middle⟩
  have base_le : region.base ≤ region.limit := le_add_right _ _
  have prev (i : Nat) (span : Region) (less : i < (right + left) / 2)
      (found : type.regions[i]? = some span) : span.limit ≤ region.base := by
    obtain ⟨bound, rfl⟩ := List.getElem?_eq_some_iff.mp found
    obtain ⟨_, rfl⟩ := List.getElem?_eq_some_iff.mp here
    exact pairwise_iff_getElem.mp ordered i _ bound middle less
  have later (i : Nat) (span : Region) (more : (right + left) / 2 < i)
      (found : type.regions[i]? = some span) : region.limit ≤ span.base := by
    obtain ⟨bound, rfl⟩ := List.getElem?_eq_some_iff.mp found
    obtain ⟨_, rfl⟩ := List.getElem?_eq_some_iff.mp here
    exact pairwise_iff_getElem.mp ordered _ i middle bound more
  simp only [searchFrom, here]
  by_cases low : addr < region.base
  · have fromMid (i : Nat) (span : Region) (atLeast : (right + left) / 2 ≤ i)
        (found : type.regions[i]? = some span) : addr < span.base := by
      rcases lt_or_eq_of_le atLeast with more | rfl
      · have := later i span more found
        omega
      rw [here] at found
      obtain rfl := Option.some.inj found
      exact low
    rw [if_pos low]
    by_cases more : left < (right + left) / 2
    · rw [if_pos more]
      exact ih left _ more (by omega) (by omega) below fromMid
    rw [if_neg more]
    have same : (right + left) / 2 = left := by omega
    exact uncovered_of_split addr left below (same ▸ fromMid)
  by_cases high : region.limit ≤ addr
  · have upToMid (i : Nat) (span : Region) (atMost : i < (right + left) / 2 + 1)
        (found : type.regions[i]? = some span) : span.limit ≤ addr := by
      rcases lt_or_eq_of_le (le_of_lt_succ atMost) with less | rfl
      · have := prev i span less found
        omega
      rw [here] at found
      obtain rfl := Option.some.inj found
      exact high
    rw [if_neg low, if_pos high]
    by_cases more : (right + left) / 2 + 1 < right
    · rw [if_pos more]
      exact ih _ right more within (by omega) upToMid above
    rw [if_neg more]
    have same : (right + left) / 2 + 1 = right := by omega
    exact uncovered_of_split addr right (same ▸ upToMid) above
  rw [if_neg low, if_neg high]
  exact ⟨region, here, by simp only [Span.Covers]; omega⟩

/-- What the binary search needs of an array. -/
structure MemblockType.Searchable (type : MemblockType) : Prop where
  nonempty : 0 < type.cnt
  sorted : type.regions.Pairwise fun first second => first.limit ≤ second.base

theorem MemblockType.Holds.searchable (holds : type.Holds spans) : type.Searchable := by
  constructor
  · rw [cnt, holds.shape]
    split
    · exact zero_lt_one
    rename_i nonempty
    exact length_pos_iff.mpr nonempty
  rw [holds.shape]
  split
  · exact pairwise_singleton _ _
  exact holds.ordered.pairwise

/-- `memblock_search` finds an entry exactly when the address is covered, and the entry it
finds covers it. -/
theorem search_spec (searchable : type.Searchable) :
    match search type addr with
    | some i => ∃ span, type.regions[i]? = some span ∧ span.Covers addr
    | none => lookup type.regions addr = none := by
  have res := searchFrom_spec addr searchable.sorted type.cnt 0 type.cnt searchable.nonempty le_rfl
    (by omega) (fun i span less => absurd less (not_lt_zero i))
    (fun i span more found => by
      rw [getElem?_eq_none more] at found
      cases found)
  unfold search
  split
  · rename_i i found
    rw [found] at res
    exact res
  rename_i missed
  rw [missed] at res
  by_contra found
  obtain ⟨span, mem, inside⟩ := lookup_isSome.mp (Option.isSome_iff_ne_none.mpr found)
  exact res span mem inside

theorem search_isSome (searchable : type.Searchable) :
    (search type addr).isSome = (lookup type.regions addr).isSome := by
  have res := search_spec addr searchable
  cases found : search type addr with
  | none =>
    rw [found] at res
    rw [show lookup type.regions addr = none from res]
    rfl
  | some i => ?_
  rw [found] at res
  obtain ⟨span, here, inside⟩ := res
  rw [lookup_isSome.mpr ⟨span, mem_of_getElem? here, inside⟩]
  rfl

end

end TinyKernel.Memblock
