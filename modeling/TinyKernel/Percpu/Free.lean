import Mathlib.Algebra.Order.Ring.Nat
import Mathlib.Algebra.Order.Sub.Basic
import Mathlib.Data.List.Chain
import Mathlib.Data.List.GetD
import Mathlib.Data.Nat.SuccPred
import TinyKernel.Percpu.Areas

/-! `pcpu_free_area`: the search for the entry, and merging with free neighbours. -/

namespace TinyKernel.Percpu

open List

section

variable {map : List Int} {x freeme : Int}

/-- Entries increase with their offsets. -/
theorem lt_of_clear_lt (less : clear x < clear y) : x < y := by
  simp only [clear] at less
  omega

theorem Increasing.strict (increasing : Increasing map) : map.Pairwise (· < ·) :=
  increasing.imp lt_of_clear_lt

/-- The search ends at the entry, if it is in the map. -/
theorem search_finds (sorted : map.Pairwise (· < ·)) (inside : t < map.length)
    (isEntry : map.getD t 0 = freeme) (low : i ≤ t) (high : t < j) (bound : j ≤ map.length)
    (enough : j ≤ rounds + i) : search map freeme rounds i j off = (t, freeme) := by
  have before (a b : Nat) (less : a < b) (valid : b < map.length) : map.getD a 0 <
      map.getD b 0 := by
    rw [getD_eq_getElem _ _ (less.trans valid), getD_eq_getElem _ _ valid]
    exact pairwise_iff_getElem.mp sorted a b _ _ less
  induction rounds generalizing i j off with
  | zero => omega
  | succ rounds ih => ?_
  rw [search, if_neg (by omega)]
  by_cases smaller : map.getD ((i + j) / 2) 0 < freeme
  · rw [if_pos smaller]
    refine ih ?_ high bound (by omega)
    by_contra notYet
    have : t ≤ (i + j) / 2 := by omega
    rcases Nat.lt_or_eq_of_le this with less | same
    · have := before t _ less (by omega)
      omega
    rw [← same] at smaller
    omega
  rw [if_neg smaller]
  by_cases larger : map.getD ((i + j) / 2) 0 > freeme
  · rw [if_pos larger]
    refine ih low ?_ (by omega) (by omega)
    by_contra notYet
    have : (i + j) / 2 ≤ t := by omega
    rcases Nat.lt_or_eq_of_le this with less | same
    · have := before _ t less inside
      omega
    rw [same] at larger
    omega
  rw [if_neg larger]
  have isFound : map.getD ((i + j) / 2) 0 = freeme := by omega
  have same : (i + j) / 2 = t := by
    rcases Nat.lt_trichotomy ((i + j) / 2) t with less | same | less
    · have := before _ t less inside
      omega
    · exact same
    have := before t _ less (by omega)
    omega
  rw [isFound, same]

end

section

/-- A free area before the one released begins the merged area. -/
inductive Before (front : List Int) (place : Int) : List Int → Int → Prop where
  | alone (isUsed : ∀ z ∈ front.getLast?, used z = true) : Before front place front place
  | joined {before : List Int} {z : Int} (isFront : front = before ++ [z])
      (isFree : used z = false) :
      Before front place before z

/-- A free area behind it is the end of the merged area. -/
inductive Behind (next : Int) (rest : List Int) : Int → List Int → Prop where
  | alone (isUsed : used next = true) : Behind next rest next rest
  | joined {after : Int} {others : List Int} (isFree : used next = false)
      (isRest : rest = after :: others) : Behind next rest after others

variable {c : Chunk} {front before rest others : List Int} {place next start after : Int}

theorem Before.areas (isBefore : Before front place before start) (placeFree : used place = false) :
    used start = false ∧
      freeSum (areas (front ++ [place])) = freeSum (areas (before ++ [start])) + (place - start) ∧
      (∀ a ∈ areas (front ++ [place]), a.inUse = true → a ∈ areas (before ++ [start])) ∧
      areas (before ++ [start]) ⊆ areas (front ++ [place]) := by
  cases isBefore with
  | alone => exact ⟨placeFree, by omega, fun a mem _ => mem, fun _ mem => mem⟩
  | joined isFront isFree => ?_
  subst isFront
  have split : areas (before ++ [start] ++ [place]) =
      areas (before ++ [start]) ++ [⟨start, place, false⟩] := by
    rw [append_assoc]
    refine areas_snoc.trans ?_
    rw [clear_of_free isFree, clear_of_free placeFree, isFree]
  rw [split]
  refine ⟨isFree, by simp [Area.size], fun a mem isUsed => ?_, subset_append_left ..⟩
  rcases mem_append.mp mem with old | isHead
  · exact old
  rw [mem_singleton.mp isHead] at isUsed
  cases isUsed

theorem Behind.areas (isBehind : Behind next rest after others) :
    freeSum (areas (next :: rest)) =
        freeSum (areas (after :: others)) + (clear after - clear next) ∧
      (∀ a ∈ areas (next :: rest), a.inUse = true → a ∈ areas (after :: others)) ∧
      areas (after :: others) ⊆ areas (next :: rest) := by
  cases isBehind with
  | alone => exact ⟨by omega, fun a mem _ => mem, fun _ mem => mem⟩
  | joined isFree isRest => ?_
  subst isRest
  rw [areas_cons_cons, isFree]
  refine ⟨by simp [Area.size]; omega, fun a mem isUsed => ?_, subset_cons_self ..⟩
  rcases mem_cons.mp mem with rfl | old
  · cases isUsed
  exact old

variable {behind : List Int}

theorem Before.sublist (isBefore : Before front place before start) :
    (before ++ start :: behind).Sublist (front ++ place :: behind) := by
  cases isBefore with
  | alone => exact .refl _
  | joined isFront => ?_
  subst isFront
  rw [append_assoc]
  exact .append_left (.cons_cons _ (sublist_cons_self ..)) _

theorem Behind.sublist (isBehind : Behind next rest after others) :
    (after :: others).Sublist (next :: rest) := by
  cases isBehind with
  | alone => exact .refl _
  | joined _ isRest => ?_
  subst isRest
  exact sublist_cons_self ..

theorem Before.lastUsed (isBefore : Before front place before start) (coalesced : Coalesced front) :
    Coalesced before ∧ ∀ z ∈ before.getLast?, used z = true := by
  cases isBefore with
  | alone isUsed => exact ⟨coalesced, isUsed⟩
  | joined isFront isFree => ?_
  subst isFront
  obtain ⟨chain, _, joint⟩ := isChain_append.mp coalesced
  refine ⟨chain, fun z mem => ?_⟩
  simpa [isFree] using joint z mem start (by simp)

theorem Behind.firstUsed (isBehind : Behind next rest after others)
    (coalesced : Coalesced (next :: rest)) : Coalesced (after :: others) ∧ used after = true := by
  cases isBehind with
  | alone isUsed => exact ⟨coalesced, isUsed⟩
  | joined isFree isRest => ?_
  subst isRest
  obtain ⟨joint, chain⟩ := isChain_cons_cons.mp coalesced
  exact ⟨chain, by simpa [isFree] using joint⟩

theorem behind_cases (isLast : used next = false → rest ≠ []) :
    ∃ after others, Behind next rest after others ∧
      (next :: rest).drop (if (!used next) = true then 1 else 0) = after :: others := by
  cases isUsed : used next with
  | true => exact ⟨next, rest, .alone isUsed, by simp⟩
  | false => ?_
  obtain ⟨after, others, rfl⟩ := exists_cons_of_ne_nil (isLast isUsed)
  exact ⟨after, others, .joined isUsed rfl, by simp⟩

/-- The map with the entries of the merged areas removed. -/
theorem releaseArea_parts (place : Int) (isMap : c.map = front ++ x :: next :: rest)
    (isLast : used next = false → rest ≠ []) :
    ∃ before start after others, Before front place before start ∧
      Behind next rest after others ∧
      (releaseArea c front.length place).1 =
        { c with
          map := before ++ start :: after :: others
          freeSize := c.freeSize + (clear next - place)
          firstFree := if front.length < c.firstFree then front.length else c.firstFree
          contigHint := max (after - start - 1) c.contigHint } := by
  obtain ⟨after, others, isBehind, gone⟩ := behind_cases isLast
  have isSet : c.map.set front.length place = front ++ place :: next :: rest := by
    rw [isMap]
    simp
  have isNext : (front ++ place :: next :: rest).getD (front.length + 1) 0 = next := by
    simp [getD_eq_getElem?_getD]
  -- the entry at the merged area, and the one behind it
  have contig (before : List Int) (start : Int) :
      (before ++ start :: after :: others).getD (before.length + 1) 0 -
        (before ++ start :: after :: others).getD before.length 0 - 1 = after - start - 1 := by
    simp [getD_eq_getElem?_getD]
  simp only [releaseArea, isSet, isNext]
  generalize isPrev : (decide (front.length > 0 ∧
    ¬ used ((front ++ place :: next :: rest).getD (front.length - 1) 0) = true)) = withPrev
  have atLast (f : List Int) (z : Int) :
      (f ++ [z] ++ place :: next :: rest).getD ((f ++ [z]).length - 1) 0 = z := by
    simp [getD_eq_getElem?_getD]
  have dropFrom (d : Nat) : (front ++ place :: next :: rest).drop (front.length + 1 + d) =
      (next :: rest).drop d := by
    rw [← drop_drop, show front ++ place :: next :: rest = (front ++ [place]) ++ next :: rest by
      simp, drop_left' (by simp)]
  cases withPrev with
  | false =>
    refine ⟨front, place, after, others, .alone fun z mem => ?_, isBehind, ?_⟩
    · obtain ⟨f, rfl⟩ := getLast?_eq_some_iff.mp mem
      have here := of_decide_eq_false isPrev
      simpa using here
    have merged : (front ++ place :: next :: rest).take (front.length + 1) ++
          (front ++ place :: next :: rest).drop
            (front.length + 1 + ((if (!used next) = true then 1 else 0) + 0)) =
        front ++ place :: after :: others := by
      simp only [Nat.add_zero]
      rw [dropFrom, gone,
        show front ++ place :: next :: rest = (front ++ [place]) ++ next :: rest by simp,
        take_left' (by simp)]
      simp
    simp only [Bool.false_eq_true, if_false, merged, contig]
  | true => ?_
  obtain ⟨nonempty, isFree⟩ := of_decide_eq_true isPrev
  obtain ⟨f, z, rfl⟩ := (eq_nil_or_concat' front).resolve_left (length_pos_iff.mp nonempty)
  refine ⟨f, z, after, others, .joined rfl (by simpa using isFree), isBehind, ?_⟩
  have merged : (f ++ [z] ++ place :: next :: rest).take ((f ++ [z]).length - 1 + 1) ++
      (f ++ [z] ++ place :: next :: rest).drop
        ((f ++ [z]).length - 1 + 1 + ((if (!used next) = true then 1 else 0) + 1)) =
      f ++ z :: after :: others := by
    have same : (f ++ [z]).length - 1 + 1 = (f ++ [z]).length := by simp
    rw [same, ← Nat.add_assoc, Nat.add_right_comm, dropFrom, gone, take_left' rfl]
    simp
  have isLength : (f ++ [z]).length - 1 = f.length := by simp
  simp only [if_true, merged]
  simp

theorem Before.first {first : Int} {tail : List Int} (isBefore : Before front place before start)
    (same : clear place = clear x) (isMap : front ++ x :: behind = first :: more)
    (atZero : clear first = 0) :
    ∃ first' more', before ++ start :: tail = first' :: more' ∧ clear first' = 0 := by
  cases isBefore with
  | alone =>
    cases front with
    | nil => exact ⟨place, tail, rfl, by rw [same, (cons.inj isMap).1, atZero]⟩
    | cons z front => exact ⟨z, _, rfl, (cons.inj isMap).1 ▸ atZero⟩
  | joined isFront => ?_
  subst isFront
  cases before with
  | nil => exact ⟨start, tail, rfl, (cons.inj isMap).1 ▸ atZero⟩
  | cons z before => exact ⟨z, _, rfl, (cons.inj isMap).1 ▸ atZero⟩

theorem Behind.getLast (isBehind : Behind next rest after others) :
    (after :: others).getLast? = (next :: rest).getLast? := by
  cases isBehind with
  | alone => rfl
  | joined _ isRest => ?_
  subst isRest
  rw [getLast?_cons_cons]

/-- The entries before the merged area, when all of them were in use. -/
theorem Before.firstFree (isBefore : Before front place before start)
    (allUsed : ∀ x ∈ (front ++ behind).take n, used x = true) :
    ∀ x ∈ (before ++ start :: after :: others).take (if front.length < n then front.length else n),
      used x = true := by
  have usedFront : ∀ x ∈ front.take n, used x = true := fun x mem =>
    allUsed x (by rw [take_append]; exact mem_append_left _ mem)
  cases isBefore with
  | alone isUsed =>
    intro x mem
    refine usedFront x ?_
    split at mem
    · rename_i more
      rw [take_left' rfl] at mem
      rwa [take_of_length_le more.le]
    rwa [take_append_of_le_length (by omega)] at mem
  | joined isFront isFree => ?_
  subst isFront
  -- a free entry among them says that the first free one is not behind it
  have notAll : n ≤ before.length := by
    by_contra more
    have := usedFront start (by
      rw [take_of_length_le (by simp; omega)]
      simp)
    rw [isFree] at this
    cases this
  intro x mem
  rw [if_neg (by simp; omega), take_append_of_le_length notAll] at mem
  exact usedFront x (by
    rw [take_append_of_le_length notAll]
    exact mem)

end

theorem exists_of_mem_areas {map : List Int} (mem : a ∈ areas map) :
    ∃ front x next rest, map = front ++ x :: next :: rest ∧ a = ⟨clear x, clear next, used x⟩ := by
  induction map with
  | nil => simp [areas] at mem
  | cons x map ih => ?_
  cases map with
  | nil => simp at mem
  | cons y map => ?_
  rcases mem_cons.mp mem with rfl | later
  · exact ⟨[], x, y, map, rfl, rfl⟩
  obtain ⟨front, z, next, rest, isMap, isArea⟩ := ih later
  exact ⟨x :: front, z, next, rest, by rw [isMap]; rfl, isArea⟩

/-- What giving back an area does. -/
structure Freed (unitSize : Int) (c : Chunk) (place : Int) (c' : Chunk) : Prop where
  tiled : Tiled unitSize c'
  others : ∀ a ∈ areas c.map, a.inUse = true → a.start ≠ place → a ∈ areas c'.map

theorem pcpuFreeArea_freed {unitSize : Int} {a : Area} (tiled : Tiled unitSize c)
    (mem : a ∈ areas c.map) (isUsed : a.inUse = true) (isPlace : a.start = place) :
    ∃ c' pages, pcpuFreeArea c place = some (c', pages) ∧ Freed unitSize c place c' := by
  obtain ⟨front, x, next, rest, isMap, rfl⟩ := exists_of_mem_areas mem
  simp only at isUsed isPlace
  have isEntry : mark place = x := by rw [← isPlace, mark_clear_of_used isUsed]
  have placeClear : clear place = place := by
    rw [← isPlace]
    simp only [clear]
    omega
  have placeFree : used place = false := by
    rw [used, decide_eq_false_iff_not]
    simp only [clear] at placeClear
    omega
  have found : search c.map (mark place) c.map.length 0 c.mapUsed 0 =
      (front.length, mark place) := by
    refine search_finds tiled.increasing.strict ?_ ?_ (Nat.zero_le _) ?_ ?_ ?_
    · simp [isMap]
    · simp [isMap, isEntry, getD_eq_getElem?_getD]
    · simp [isMap, Chunk.mapUsed]
    · simp [Chunk.mapUsed]
    simp [Chunk.mapUsed]
  have isLast : used next = false → rest ≠ [] := by
    rintro nextFree rfl
    have last := tiled.sentry
    rw [isMap] at last
    simp at last
    rw [last] at nextFree
    simp at nextFree
  obtain ⟨before, start, after, others, isBefore, isBehind, isResult⟩ :=
    releaseArea_parts place isMap isLast
  refine ⟨(releaseArea c front.length place).1, (releaseArea c front.length place).2, ?_, ?_⟩
  · rw [pcpuFreeArea, found]
    simp [placeClear]
  obtain ⟨startFree, sumBefore, usedBefore, subBefore⟩ := isBefore.areas placeFree
  obtain ⟨sumBehind, usedBehind, subBehind⟩ := isBehind.areas
  have coalesced := tiled.coalesced
  rw [isMap] at coalesced
  obtain ⟨chainFront, chainRest, _⟩ := isChain_append.mp coalesced
  obtain ⟨chainBefore, lastUsed⟩ := isBefore.lastUsed chainFront
  obtain ⟨chainBehind, afterUsed⟩ := isBehind.firstUsed (isChain_cons_cons.mp chainRest).2
  have oldAreas : areas c.map =
      areas (front ++ [place]) ++ ⟨place, clear next, true⟩ :: areas (next :: rest) := by
    rw [isMap, areas_append, areas_cons_cons, isUsed, isPlace,
      areas_last (isPlace.trans placeClear.symm)]
  have newAreas : areas (before ++ start :: after :: others) = areas (before ++ [start]) ++
      ⟨start, clear after, false⟩ :: areas (after :: others) := by
    rw [areas_append, areas_cons_cons, startFree, clear_of_free startFree]
  have merged : after - start - 1 = clear after - start := by
    rw [used, decide_eq_true_eq] at afterUsed
    simp only [clear]
    omega
  rw [isResult]
  refine ⟨⟨?_, ?_, ?_, ?_, ?_, ?_, ?_⟩, ?_⟩
  · obtain ⟨first, more, shape, atZero⟩ := tiled.start
    rw [isMap] at shape
    exact isBefore.first (placeClear.trans isPlace.symm) shape atZero
  · rw [← tiled.sentry, isMap]
    have last := isBehind.getLast
    simp only [getLast?_append, getLast?_cons_cons, last]
    simp [getLast?_cons]
  · have increasing := tiled.increasing
    rw [isMap] at increasing
    have cleared : Increasing (front ++ place :: next :: rest) := by
      obtain ⟨inFront, inRest, cross⟩ := pairwise_append.mp increasing
      obtain ⟨fromX, others⟩ := pairwise_cons.mp inRest
      refine pairwise_append.mpr ⟨inFront, pairwise_cons.mpr ⟨?_, others⟩, ?_⟩
      · intro y mem
        rw [placeClear, ← isPlace]
        exact fromX y mem
      intro y inFront z mem
      rcases mem_cons.mp mem with rfl | later
      · rw [placeClear, ← isPlace]
        exact cross y inFront x (.head _)
      exact cross y inFront z (.tail _ later)
    refine cleared.sublist (isBefore.sublist.trans (.append_left (.cons_cons _ isBehind.sublist) _))
  · refine isChain_append.mpr ⟨chainBefore, isChain_cons_cons.mpr ⟨.inr afterUsed,
      chainBehind⟩, fun z mem y _ => .inl (lastUsed z mem)⟩
  · simp only [tiled.freeSize, oldAreas, newAreas, freeSum_append, freeSum_cons, sumBefore,
      sumBehind, Area.size]
    simp
    omega
  · have before := tiled.firstFree
    rw [isMap] at before
    exact isBefore.firstFree before
  · intro b inNew free
    simp only [newAreas] at inNew
    rcases mem_append.mp inNew with old | inNew
    · refine (tiled.contigHint b ?_ free).trans (Int.le_max_right ..)
      rw [oldAreas]
      exact mem_append_left _ (subBefore old)
    rcases mem_cons.mp inNew with rfl | old
    · simp only [Area.size, merged]
      exact Int.le_max_left ..
    refine (tiled.contigHint b ?_ free).trans (Int.le_max_right ..)
    rw [oldAreas]
    exact mem_append_right _ (.tail _ (subBehind old))
  intro b inOld bUsed away
  rw [oldAreas] at inOld
  simp only [newAreas]
  rcases mem_append.mp inOld with old | inOld
  · exact mem_append_left _ (usedBefore b old bUsed)
  rcases mem_cons.mp inOld with rfl | old
  · exact absurd rfl away
  exact mem_append_right _ (.tail _ (usedBehind b old bUsed))

end TinyKernel.Percpu
