import Mathlib.Data.Nat.SuccPred
import Mathlib.Order.Lattice.Nat
import TinyKernel.Percpu.Fit

/-! `pcpu_alloc_area`: the scan for a free area, and what taking one does to the map. -/

namespace TinyKernel.Percpu

open List Int

variable {c : Chunk} {size align unitSize : Int} {popOnly : Bool}

/-- The scan up to an entry: the free areas passed are too small and their sizes are known. -/
structure Scanned (c : Chunk) (size align : Int) (popOnly : Bool) (passed rest : List Int)
    (s : Scan) : Prop where
  whole : c.map = passed ++ rest
  unseen : s.seenFree = false → (∀ x ∈ passed, used x = true)
  before : ∀ x ∈ c.map.take s.firstFree, used x = true
  within : s.seenFree = true → s.firstFree ≤ passed.length
  contig : ∀ a ∈ areas (passed ++ rest.take 1), a.inUse = false → a.size ≤ s.maxContig
  failed : ∀ a ∈ areas (passed ++ rest.take 1), a.inUse = false →
    pcpuFitInArea c.populated a.start a.size size align popOnly = none

section

variable {rest : List Int} {off next : Int}

theorem areas_all_used {map : List Int} (all : ∀ y ∈ map, used y = true) :
    ∀ a ∈ areas (map ++ [x]), a.inUse = true := by
  induction map with
  | nil => simp
  | cons y map ih => ?_
  intro a mem
  have here := all y (.head _)
  have later := ih fun z inside => all z (.tail _ inside)
  cases map with
  | nil =>
    simp at mem
    rw [mem]
    exact here
  | cons z map => ?_
  rcases mem_cons.mp mem with rfl | mem
  · exact here
  exact later a mem

theorem scanned_start (tiled : Tiled unitSize c) :
    Scanned c size align popOnly (c.map.take c.firstFree) (c.map.drop c.firstFree)
      ⟨c.firstFree, false, 0⟩ := by
  have none (a : Area)
      (mem : a ∈ areas (c.map.take c.firstFree ++ (c.map.drop c.firstFree).take 1)) :
      a.inUse = true := by
    cases behind : c.map.drop c.firstFree with
    | nil =>
      rw [behind] at mem
      rcases eq_nil_or_concat' (c.map.take c.firstFree) with empty | ⟨front, last, isFront⟩
      · simp [empty, areas] at mem
      rw [isFront] at mem
      refine areas_all_used (fun x inside => tiled.firstFree x ?_) a (by simpa using mem)
      simp [isFront, inside]
    | cons x _ => ?_
    rw [behind] at mem
    exact areas_all_used tiled.firstFree a mem
  refine ⟨(take_append_drop ..).symm, fun _ => tiled.firstFree, tiled.firstFree, by simp, ?_, ?_⟩
  · intro a mem free
    rw [none a mem] at free
    cases free
  intro a mem free
  rw [none a mem] at free
  cases free

/-- The free areas up to one more entry: there is the area of that entry, if it is free. -/
theorem free_areas_snoc {P : Area → Prop} :
    (∀ a ∈ areas (past ++ [off] ++ (next :: rest).take 1), a.inUse = false → P a) ↔
      (∀ a ∈ areas (past ++ [off]), a.inUse = false → P a) ∧
        (used off = false → P ⟨clear off, clear next, false⟩) := by
  have split : areas (past ++ [off] ++ (next :: rest).take 1) =
      areas (past ++ [off]) ++ [⟨clear off, clear next, used off⟩] := by
    rw [append_assoc]
    exact areas_snoc
  rw [split, forall_mem_append, forall_mem_singleton]
  exact and_congr_right fun _ => imp_congr_right fun isFree : used off = false => by rw [isFree]

/-- An entry is passed: it is in use, or its area is too small. -/
theorem Scanned.pass (scanned : Scanned c size align popOnly past (off :: next :: rest) s) :
    (used off = true → Scanned c size align popOnly (past ++ [off]) (next :: rest) s) ∧
      (used off = false →
        pcpuFitInArea c.populated off (clear next - off) size align popOnly = none →
        Scanned c size align popOnly (past ++ [off]) (next :: rest)
          ((s.see past.length).contig (clear next - off))) := by
  obtain ⟨whole, unseen, before, within, contig, failed⟩ := scanned
  have assoc : past ++ off :: next :: rest = (past ++ [off]) ++ next :: rest := by simp
  constructor
  · intro isUsed
    have notFree : ¬ used off = false := by simp [isUsed]
    refine ⟨whole.trans assoc, fun none x mem => ?_, before, fun seen => ?_,
      free_areas_snoc.mpr ⟨contig, fun isFree => absurd isFree notFree⟩,
      free_areas_snoc.mpr ⟨failed, fun isFree => absurd isFree notFree⟩⟩
    · rcases mem_append.mp mem with old | isOff
      · exact unseen none x old
      exact mem_singleton.mp isOff ▸ isUsed
    have := within seen
    simp only [length_append, length_singleton]
    omega
  intro isFree tooSmall
  have isClear := clear_of_free isFree
  refine ⟨whole.trans assoc, fun none => ?_, ?_, fun _ => ?_, ?_,
    free_areas_snoc.mpr ⟨failed, fun _ => ?_⟩⟩
  · cases seen : s.seenFree with
    | true => simp [Scan.contig, Scan.see, seen] at none
    | false => simp [Scan.contig, Scan.see, seen] at none
  · cases seen : s.seenFree with
    | true => simpa [Scan.contig, Scan.see, seen] using before
    | false => ?_
    simp only [Scan.contig, Scan.see, seen, Bool.false_eq_true, if_false]
    rw [whole, take_left']
    · exact unseen seen
    rfl
  · cases seen : s.seenFree with
    | true =>
      have := within seen
      simp only [Scan.contig, Scan.see, seen, if_true, length_append]
      omega
    | false => simp [Scan.contig, Scan.see, seen]
  · have largest : (Scan.contig (s.see past.length) (clear next - off)).maxContig =
        max (clear next - off) s.maxContig := by
      cases seen : s.seenFree <;> simp [Scan.contig, Scan.see, seen]
    rw [largest]
    refine free_areas_snoc.mpr ⟨fun a mem free => ?_, fun _ => ?_⟩
    · exact (contig a mem free).trans (le_max_right ..)
    simp only [Area.size, isClear]
    exact le_max_left ..
  simpa [Area.size, isClear] using tooSmall

/-- The scan ends without an area: it has seen all of them. -/
theorem Scanned.ends (scanned : Scanned c size align popOnly past rest s) (last : rest.length < 2)
    (a : Area) (mem : a ∈ areas c.map) (free : a.inUse = false) :
    a.size ≤ s.maxContig ∧ pcpuFitInArea c.populated a.start a.size size align popOnly = none := by
  have all : past ++ rest.take 1 = c.map := by rw [scanned.whole, take_of_length_le (by omega)]
  rw [← all] at mem
  exact ⟨scanned.contig a mem free, scanned.failed a mem free⟩

/-- The scan finds an area that fits, or all of the free areas are too small. -/
theorem allocLoop_cases (scanned : Scanned c size align popOnly past rest s) :
    (∃ front off next behind head s',
        Scanned c size align popOnly front (off :: next :: behind) s' ∧ used off = false ∧
          pcpuFitInArea c.populated off (clear next - off) size align popOnly = some head ∧
          allocLoop c size align popOnly past rest s =
            takeArea c front off next behind head size s') ∨
      ∃ s' : Scan, (∀ x ∈ c.map.take s'.firstFree, used x = true) ∧
        (∀ a ∈ areas c.map, a.inUse = false →
          a.size ≤ s'.maxContig ∧
            pcpuFitInArea c.populated a.start a.size size align popOnly = none) ∧
        allocLoop c size align popOnly past rest s =
          ({ c with firstFree := s'.firstFree, contigHint := s'.maxContig }, none) := by
  induction rest generalizing past s with
  | nil => exact .inr ⟨s, scanned.before, scanned.ends (by simp), rfl⟩
  | cons off rest ih => ?_
  cases rest with
  | nil => exact .inr ⟨s, scanned.before, scanned.ends (by simp), rfl⟩
  | cons next rest => ?_
  rw [allocLoop]
  by_cases isUsed : used off = true
  · rw [if_pos isUsed]
    exact ih (scanned.pass.1 isUsed)
  have isFree : used off = false := by simpa using isUsed
  rw [if_neg isUsed]
  dsimp only
  cases fits : pcpuFitInArea c.populated off (clear next - off) size align popOnly with
  | none => exact ih (scanned.pass.2 isFree fits)
  | some head => exact .inl ⟨past, off, next, rest, head, s, scanned, isFree, fits, rfl⟩

end

/-- Every area in use is still there, perhaps with more bytes behind it. -/
def Covers (old new : List Area) : Prop :=
  ∀ a ∈ old, a.inUse = true → ∃ b ∈ new, b.inUse = true ∧ b.start = a.start ∧ a.stop ≤ b.stop

section

variable {x y : List Area}

theorem covers_refl : Covers x x := fun a mem isUsed => ⟨a, mem, isUsed, rfl, le_refl _⟩

theorem Covers.append (first : Covers x y) (second : Covers z w) : Covers (x ++ z) (y ++ w) := by
  intro a mem isUsed
  rcases mem_append.mp mem with inFirst | inSecond
  · obtain ⟨b, inY, rest⟩ := first a inFirst isUsed
    exact ⟨b, mem_append_left _ inY, rest⟩
  obtain ⟨b, inW, rest⟩ := second a inSecond isUsed
  exact ⟨b, mem_append_right _ inW, rest⟩

end

section

variable {rest : List Int} {off next place : Int}

theorem coalesced_mark (before : Coalesced front) (behind : Coalesced back) :
    Coalesced (front ++ mark place :: back) := by
  refine isChain_append.mpr ⟨before, ?_, fun x _ y mem => ?_⟩
  · refine isChain_cons.mpr ⟨fun y _ => .inl used_mark, behind⟩
  simp only [head?_cons, Option.mem_def, Option.some.injEq] at mem
  exact .inr (mem ▸ used_mark)

/-- What stands before the new area: its own head is given to the area before, or stays free. -/
inductive Head (passed : List Int) (off place : Int) : List Int → Int → Prop where
  | same (isOff : place = off) : Head passed off place passed 0
  | absorbed {front : List Int} {z : Int} (isPassed : passed = front ++ [z])
    (isUsed : used z = true)
      (later : off < place) : Head passed off place passed (place - off)
  | split (later : off < place) (isUsed : ∀ z ∈ passed.getLast?, used z = true) :
      Head passed off place (passed ++ [off]) 0

/-- What stands behind it: the rest of the old area, if it is not too small. -/
inductive Tail (stop next : Int) (rest : List Int) : List Int → Int → Prop where
  | none (isNext : stop = clear next) : Tail stop next rest (next :: rest) 0
  | split (earlier : stop < clear next) (even : stop % 2 = 0) :
      Tail stop next rest (stop :: next :: rest) (clear next - stop)

section

variable {back : List Int} {lost stop tail : Int}

theorem Head.areas (head : Head past off place front lost) (isFree : used off = false)
    (even : place % 2 = 0) :
    freeSum (areas (front ++ [mark place])) =
        freeSum (areas (past ++ [off])) + (place - off) - lost ∧
      Covers (areas (past ++ [off])) (areas (front ++ [mark place])) ∧
      ∀ a ∈ areas (front ++ [mark place]), a.inUse = false →
        a ∈ areas (past ++ [off]) ∨ (a.size = place - off ∧ front = past ++ [off]) := by
  have offClear := clear_of_free isFree
  have placeClear := clear_mark_of_even even
  cases head with
  | same isOff =>
    have same : areas (past ++ [mark place]) = areas (past ++ [off]) :=
      areas_last (by rw [placeClear, offClear, isOff])
    rw [same]
    exact ⟨by omega, covers_refl, fun a mem _ => .inl mem⟩
  | @absorbed before z isPassed isUsed later =>
    subst isPassed
    have newAreas : areas (before ++ [z] ++ [mark place]) =
        areas (before ++ [z]) ++ [⟨clear z, place, true⟩] := by
      rw [append_assoc]
      refine areas_snoc.trans ?_
      rw [placeClear, isUsed]
    have oldAreas : areas (before ++ [z] ++ [off]) =
        areas (before ++ [z]) ++ [⟨clear z, off, true⟩] := by
      rw [append_assoc]
      refine areas_snoc.trans ?_
      rw [offClear, isUsed]
    rw [newAreas, oldAreas]
    refine ⟨by simp, covers_refl.append ?_, ?_⟩
    · intro a mem _
      refine ⟨_, mem_singleton.mpr rfl, rfl, ?_, ?_⟩
      · rw [mem_singleton.mp mem]
      rw [mem_singleton.mp mem]
      exact later.le
    intro a mem free
    rcases mem_append.mp mem with old | isNew
    · exact .inl (mem_append_left _ old)
    rw [mem_singleton.mp isNew] at free
    cases free
  | split later isUsed => ?_
  have newAreas : areas (past ++ [off] ++ [mark place]) =
      areas (past ++ [off]) ++ [⟨off, place, false⟩] := by
    rw [append_assoc]
    refine areas_snoc.trans ?_
    rw [placeClear, offClear, isFree]
  rw [newAreas]
  refine ⟨by simp [Area.size], ?_, ?_⟩
  · intro a mem isUsed
    exact ⟨a, mem_append_left _ mem, isUsed, rfl, le_refl _⟩
  intro a mem _
  rcases mem_append.mp mem with old | isNew
  · exact .inl old
  rw [mem_singleton.mp isNew]
  exact .inr ⟨rfl, rfl⟩

theorem Tail.areas (isTail : Tail stop next rest back tail) (even : place % 2 = 0) :
    ∃ left, areas (mark place :: back) = ⟨place, stop, true⟩ :: left ++ areas (next :: rest) ∧
      freeSum left = clear next - stop ∧ ∀ a ∈ left, a.size = tail ∧ tail ≠ 0 := by
  cases isTail with
  | none isNext => exact ⟨[], by simp [clear_mark_of_even even, isNext], by simp [isNext], by simp⟩
  | split prev stopEven => ?_
  refine ⟨[⟨stop, clear next, false⟩], ?_, by simp [Area.size], ?_⟩
  · simp [clear_mark_of_even even, clear_of_even stopEven, used_of_even stopEven]
  simp only [mem_singleton, forall_eq, Area.size]
  exact ⟨trivial, by omega⟩

theorem Head.increasing (head : Head past off place front lost) (isFree : used off = false)
    (even : place % 2 = 0) (later : off ≤ place) (increasing : Increasing (past ++ [off])) :
    Increasing (front ++ [mark place]) := by
  have offClear := clear_of_free isFree
  have placeClear := clear_mark_of_even even
  obtain ⟨before, _, below⟩ := pairwise_append.mp increasing
  have belowPlace : ∀ x ∈ past, clear x < place := fun x mem => by
    have := below x mem off (by simp)
    omega
  have direct : Increasing (past ++ [mark place]) := by
    refine pairwise_append.mpr ⟨before, by simp, fun x mem y isPlace => ?_⟩
    rw [mem_singleton.mp isPlace, placeClear]
    exact belowPlace x mem
  cases head with
  | same isOff => exact direct
  | absorbed isPassed isUsed later => exact direct
  | split later isUsed => ?_
  refine pairwise_append.mpr ⟨increasing, by simp, fun x mem y isPlace => ?_⟩
  rw [mem_singleton.mp isPlace, placeClear]
  rcases mem_append.mp mem with old | isOff
  · exact belowPlace x old
  rw [mem_singleton.mp isOff, offClear]
  exact later

theorem Head.coalesced (head : Head past off place front lost) (coalesced : Coalesced past) :
    Coalesced front := by
  cases head with
  | same => exact coalesced
  | absorbed => exact coalesced
  | split _ isUsed =>
    refine isChain_append.mpr ⟨coalesced, by simp, fun x mem y _ => .inl (isUsed x mem)⟩

theorem Tail.increasing (isTail : Tail stop next rest back tail)
    (increasing : Increasing (next :: rest)) : Increasing back ∧ ∀ y ∈ back, stop ≤ clear y := by
  have above : ∀ y ∈ next :: rest, clear next ≤ clear y := by
    intro y mem
    rcases mem_cons.mp mem with rfl | later
    · exact le_refl _
    exact ((pairwise_cons.mp increasing).1 y later).le
  cases isTail with
  | none isNext => exact ⟨increasing, fun y mem => isNext ▸ above y mem⟩
  | split prev even => ?_
  have stopClear := clear_of_even even
  refine ⟨pairwise_cons.mpr ⟨fun y mem => ?_, increasing⟩, fun y mem => ?_⟩
  · have := above y mem
    omega
  rcases mem_cons.mp mem with rfl | later
  · exact stopClear.symm.le
  have := above y later
  omega

theorem Tail.coalesced (isTail : Tail stop next rest back tail) (nextUsed : used next = true)
    (coalesced : Coalesced (next :: rest)) : Coalesced back := by
  cases isTail with
  | none => exact coalesced
  | split => exact isChain_cons_cons.mpr ⟨.inr nextUsed, coalesced⟩

end

/-- The map after an area has been put to use. -/
theorem take_map {tail : Int} (isFree : used off = false) (even : place % 2 = 0)
    (later : off ≤ place) (nonempty : place < stop) (head : Head past off place front lost)
    (isTail : Tail stop next rest back tail) (increasing : Increasing (past ++ off :: next :: rest))
    (coalesced : Coalesced (past ++ off :: next :: rest)) :
    Increasing (front ++ mark place :: back) ∧ Coalesced (front ++ mark place :: back) ∧
      freeSum (areas (front ++ mark place :: back)) =
        freeSum (areas (past ++ off :: next :: rest)) - lost - (stop - place) ∧
      Covers (areas (past ++ off :: next :: rest)) (areas (front ++ mark place :: back)) ∧
      (⟨place, stop, true⟩ ∈ areas (front ++ mark place :: back)) ∧
      ∀ a ∈ areas (front ++ mark place :: back), a.inUse = false →
        a ∈ areas (past ++ [off]) ∨ a ∈ areas (next :: rest) ∨
          (a.size = place - off ∧ front = past ++ [off]) ∨ (a.size = tail ∧ tail ≠ 0) := by
  have offClear := clear_of_free isFree
  have placeClear := clear_mark_of_even even
  obtain ⟨chainPassed, chainOff, _⟩ := isChain_append.mp coalesced
  obtain ⟨nextUsed, chainNext⟩ := isChain_cons_cons.mp chainOff
  have nextIsUsed : used next = true := by simpa [isFree] using nextUsed
  have assoc : past ++ off :: next :: rest = (past ++ [off]) ++ next :: rest := by simp
  have increasing' := increasing
  rw [assoc] at increasing'
  obtain ⟨incFront, incBack, _⟩ := pairwise_append.mp increasing'
  obtain ⟨sum, covers, frees⟩ := head.areas isFree even
  obtain ⟨tailInc, tailAbove⟩ := isTail.increasing incBack
  have headInc := head.increasing isFree even later incFront
  obtain ⟨left, tailAreas, leftSum, leftFree⟩ := isTail.areas even
  have oldAreas : areas (past ++ off :: next :: rest) =
      areas (past ++ [off]) ++ ⟨off, clear next, false⟩ :: areas (next :: rest) := by
    rw [areas_append, areas_cons_cons, offClear, isFree]
  have newAreas : areas (front ++ mark place :: back) =
      areas (front ++ [mark place]) ++ areas (mark place :: back) := areas_append
  rw [tailAreas] at newAreas
  refine ⟨?_, coalesced_mark (head.coalesced chainPassed) (isTail.coalesced nextIsUsed chainNext),
    ?_, ?_, ?_, ?_⟩
  · have assoc' : front ++ mark place :: back = (front ++ [mark place]) ++ back := by simp
    rw [assoc']
    refine pairwise_append.mpr ⟨headInc, tailInc, fun x mem y behind => ?_⟩
    have above := tailAbove y behind
    rcases mem_append.mp mem with inFront | isPlace
    · have := (pairwise_append.mp headInc).2.2 x inFront (mark place) (by simp)
      omega
    rw [mem_singleton.mp isPlace]
    omega
  · rw [newAreas, oldAreas]
    simp [Area.size]
    omega
  · rw [newAreas, oldAreas]
    refine covers.append fun a mem isUsed => ?_
    rcases mem_cons.mp mem with rfl | inRest
    · cases isUsed
    exact ⟨a, mem_append_right _ inRest, isUsed, rfl, le_refl _⟩
  · rw [newAreas]
    simp
  intro a mem free
  rw [newAreas] at mem
  rcases mem_append.mp mem with inFront | mem
  · rcases frees a inFront free with old | isHead
    · exact .inl old
    exact .inr (.inr (.inl isHead))
  rcases mem_append.mp mem with isNew | inRest
  · rcases mem_cons.mp isNew with rfl | isLeft
    · cases free
    exact .inr (.inr (.inr (leftFree a isLeft)))
  exact .inr (.inl inRest)

/-- The word in front of the map is taken for the entry of an area before the first. -/
def ReadsBelow (c : Chunk) (size align : Int) (popOnly : Bool) : Prop :=
  used c.below = false ∧ ∃ next rest, c.map = 0 :: next :: rest ∧
    ∃ head, pcpuFitInArea c.populated 0 (clear next) size align popOnly = some head ∧ head ≠ 0

/-- The parts of the map and the hints after `takeArea`. -/
structure Taken (c : Chunk) (passed : List Int) (off next : Int) (rest : List Int)
    (place size : Int) (s : Scan) (c' : Chunk) (front : List Int) (lost stop : Int)
    (back : List Int) (tail : Int) : Prop where
  head : Head passed off place front lost
  isTail : Tail stop next rest back tail
  enough : place + size ≤ stop
  map : c'.map = front ++ mark place :: back
  freeSize : c'.freeSize = c.freeSize - lost - (stop - place)
  firstFree : ∀ x ∈ c'.map.take c'.firstFree, used x = true
  scanned : s.maxContig ≤ c'.contigHint
  hasHead : front = passed ++ [off] → place - off ≤ c'.contigHint
  hasTail : tail ≠ 0 → tail ≤ c'.contigHint
  others : rest ≠ [] → c.contigHint ≤ c'.contigHint

section

variable {back : List Int} {lost stop tail head freeSize : Int}

theorem Head.start (isHead : Head past off place front lost)
    (isMap : past ++ off :: behind = first :: others) (atZero : clear first = 0) :
    ∃ first' others', front ++ mark place :: back = first' :: others' ∧ clear first' = 0 := by
  cases past with
  | cons z past =>
    have same : z = first := (cons.inj isMap).1
    cases isHead with
    | same => exact ⟨z, _, rfl, same ▸ atZero⟩
    | absorbed => exact ⟨z, _, rfl, same ▸ atZero⟩
    | split => exact ⟨z, _, rfl, same ▸ atZero⟩
  | nil => ?_
  have same : off = first := (cons.inj isMap).1
  cases isHead with
  | same isOff =>
    refine ⟨mark place, back, rfl, ?_⟩
    rw [clear_mark, isOff, same, atZero]
  | absorbed isPassed => simp at isPassed
  | split => exact ⟨off, _, rfl, same ▸ atZero⟩

theorem Tail.getLast (isTail : Tail stop next rest back tail) :
    (front ++ mark place :: back).getLast? = (before ++ off :: next :: rest).getLast? := by
  cases isTail with
  | none => simp [getLast?_append, getLast?_cons]
  | split => simp [getLast?_append, getLast?_cons]

theorem Tail.length (isTail : Tail stop next rest back tail) : rest.length + 1 ≤ back.length := by
  cases isTail with
  | none => simp
  | split => simp

theorem placeArea_taken (head : Head past off place front lost)
    (isTail : Tail stop next rest back tail) (enough : place + size ≤ stop)
    (isFreeSize : freeSize = c.freeSize - lost)
    (seen : s'.seenFree = true →
      s'.firstFree ≤ front.length ∧ ∀ x ∈ front.take s'.firstFree, used x = true)
    (unseen : s'.seenFree = false → ∀ x ∈ front, used x = true)
    (scanned : s.maxContig ≤ s'.maxContig)
    (hasHead : front = past ++ [off] → place - off ≤ s'.maxContig)
    (hasTail : tail ≠ 0 → tail ≤ s'.maxContig) :
    Taken c past off next rest place size s
      (placeArea c freeSize front place back (stop - place) s').1 front lost stop back tail := by
  have atLeast : s'.maxContig ≤
      (placeArea c freeSize front place back (stop - place) s').1.contigHint := by
    simp only [placeArea]
    split
    · exact le_refl _
    exact le_max_right ..
  refine ⟨head, isTail, enough, rfl, by rw [← isFreeSize]; rfl, ?_, scanned.trans atLeast,
    fun isSplit => (hasHead isSplit).trans atLeast, fun some => (hasTail some).trans atLeast, ?_⟩
  · simp only [placeArea]
    cases isSeen : s'.seenFree with
    | true =>
      obtain ⟨within, before⟩ := seen isSeen
      rw [if_pos rfl, take_append_of_le_length within]
      exact before
    | false => ?_
    have firsts : (front ++ mark place :: back).take (front.length + 1) =
        front ++ [mark place] := by
      rw [take_append]
      simp
    simp only [Bool.false_eq_true, if_false]
    rw [firsts]
    intro x mem
    rcases mem_append.mp mem with inFront | isPlace
    · exact unseen isSeen x inFront
    rw [mem_singleton.mp isPlace]
    exact used_mark
  intro more
  have := isTail.length
  have := length_pos_iff.mpr more
  simp only [placeArea]
  rw [if_neg]
  · exact le_max_left ..
  simp only [length_append, length_cons]
  omega

/-- The scan, when it comes to an area that fits, with or without a head that stays free. -/
theorem Scanned.sees (scanned : Scanned c size align popOnly past rest s) :
    (s.seenFree = true → s.firstFree ≤ past.length ∧ ∀ x ∈ past.take s.firstFree, used x = true) ∧
      (s.see past.length).seenFree = true ∧ (s.see past.length).firstFree ≤ past.length ∧
      (∀ x ∈ past.take (s.see past.length).firstFree, used x = true) ∧
      (s.see past.length).maxContig = s.maxContig := by
  have before (within : s.firstFree ≤ past.length) :
      ∀ x ∈ past.take s.firstFree, used x = true := by
    have old := scanned.before
    rw [scanned.whole, take_append_of_le_length within] at old
    exact old
  refine ⟨fun seen => ⟨scanned.within seen, before (scanned.within seen)⟩, ?_⟩
  cases seen : s.seenFree with
  | true =>
    have within := scanned.within seen
    simp only [Scan.see, seen, if_true]
    exact ⟨trivial, within, before within, trivial⟩
  | false => ?_
  simp only [Scan.see, seen, Bool.false_eq_true, if_false]
  refine ⟨trivial, le_rfl, ?_, trivial⟩
  rw [take_length]
  exact scanned.unseen seen

theorem splitArea_taken (scanned : Scanned c size align popOnly past (off :: next :: rest) s)
    (isHead : Head past off (o + h) (if h ≠ 0 then past ++ [o] else past) lost)
    (headSize : h ≠ 0 → o = off) (inside : o + h + size ≤ clear next) (even : (o + h) % 2 = 0)
    (sizeEven : size % 2 = 0) (isFreeSize : freeSize = c.freeSize - lost) :
    ∃ front stop back tail, Taken c past off next rest (o + h) size s
        (splitArea c freeSize past o next rest h size s).1 front lost stop back tail ∧
      ∃ pages, (splitArea c freeSize past o next rest h size s).2 = some (o + h, pages) := by
  obtain ⟨seen, headSeen, headWithin, headBefore, headContig⟩ := scanned.sees
  -- what the scan knows after the head
  generalize isScan : (if h ≠ 0 then (s.see past.length).contig h else s) = s'
  generalize isFront : (if h ≠ 0 then past ++ [o] else past) = front at isHead
  have known : (s'.seenFree = true → s'.firstFree ≤ front.length ∧
        ∀ x ∈ front.take s'.firstFree, used x = true) ∧
      (s'.seenFree = false → ∀ x ∈ front, used x = true) ∧ s.maxContig ≤ s'.maxContig ∧
      (front = past ++ [off] → o + h - off ≤ s'.maxContig) := by
    by_cases isZero : h = 0
    · simp only [isZero, ne_eq, not_true, if_false] at isScan isFront
      subst isScan isFront
      refine ⟨seen, scanned.unseen, le_refl _, fun same => ?_⟩
      have := congrArg length same
      simp at this
    simp only [isZero, ne_eq, not_false_eq_true, if_true] at isScan isFront
    subst isScan isFront
    refine ⟨fun _ => ⟨?_, ?_⟩, fun notSeen => ?_, ?_, fun _ => ?_⟩
    · simp only [Scan.contig, length_append]
      omega
    · simp only [Scan.contig, take_append_of_le_length headWithin]
      exact headBefore
    · simp [Scan.contig, headSeen] at notSeen
    · simp only [Scan.contig, headContig]
      exact le_max_right ..
    simp only [Scan.contig]
    omega
  obtain ⟨seen', unseen', atLeast, hasHead⟩ := known
  simp only [splitArea, isScan, isFront]
  by_cases small : clear next - o - h - size < sizeofInt
  · rw [if_pos small, show clear next - o - h = clear next - (o + h) by omega]
    exact ⟨front, clear next, next :: rest, 0, placeArea_taken isHead (.none rfl) (by omega)
      isFreeSize seen' unseen' atLeast hasHead (fun no => absurd rfl no), _, rfl⟩
  have large : 4 ≤ clear next - o - h - size := by
    simp only [sizeofInt] at small
    omega
  have isTail : Tail (o + h + size) next rest ((o + h + size) :: next :: rest)
      (clear next - (o + h + size)) := .split (by omega) (by omega)
  rw [if_neg small]
  have taken : Taken c past off next rest (o + h) size s (placeArea c freeSize front (o + h)
      ((o + h + size) :: next :: rest) (o + h + size - (o + h))
      (s'.contig (clear next - o - h - size))).1 front lost (o + h + size) _ _ :=
    placeArea_taken isHead isTail (by omega) isFreeSize seen' unseen'
      (atLeast.trans (le_max_right ..)) (fun split => (hasHead split).trans (le_max_right ..))
      (fun _ => by simp only [Scan.contig]; omega)
  rw [show o + h + size - (o + h) = size by omega] at taken
  exact ⟨front, _, _, _, taken, _, rfl⟩

end

/-- The area that was found is taken, its head is left free or given to the area before. -/
theorem takeArea_taken {head : Int}
    (scanned : Scanned c size align popOnly past (off :: next :: rest) s)
    (isFree : used off = false) (nonneg : 0 ≤ head) (inside : head + size ≤ clear next - off)
    (headEven : head % 2 = 0) (sizeEven : size % 2 = 0)
    (prevUsed : head ≠ 0 → used (past.getLastD c.below) = true)
    (notFirst : head ≠ 0 → head < sizeofInt → past ≠ []) :
    ∃ front lost stop back tail, Taken c past off next rest (off + head) size s
        (takeArea c past off next rest head size s).1 front lost stop back tail ∧
      ∃ pages, (takeArea c past off next rest head size s).2 = some (off + head, pages) := by
  have offEven : off % 2 = 0 := by
    simp [used] at isFree
    omega
  rw [takeArea]
  by_cases isZero : head = 0
  · rw [if_neg (by simp [isZero])]
    have same : Head past off (off + head) (if head ≠ 0 then past ++ [off] else past) 0 := by
      rw [if_neg (by simp [isZero])]
      exact .same (by omega)
    obtain ⟨front, stop, back, tail, taken⟩ :=
      splitArea_taken scanned same (fun _ => rfl) (by omega) (by omega) sizeEven
        (sub_zero c.freeSize).symm
    exact ⟨front, 0, stop, back, tail, taken⟩
  have isUsed := prevUsed isZero
  by_cases small : head < sizeofInt
  · rw [if_pos ⟨isZero, .inl small⟩, if_pos isUsed]
    have absorbed : Head past off (off + head + 0)
        (if (0 : Int) ≠ 0 then past ++ [off + head] else past) head := by
      obtain ⟨before, z, rfl⟩ := (eq_nil_or_concat' past).resolve_left (notFirst isZero small)
      have isAbsorbed : Head (before ++ [z]) off (off + head) (before ++ [z]) (off + head - off) :=
        .absorbed rfl (by simpa using isUsed) (by omega)
      simpa using isAbsorbed
    obtain ⟨front, stop, back, tail, taken⟩ := splitArea_taken scanned absorbed
      (fun no => absurd rfl no) (by omega) (by omega) sizeEven rfl
    rw [add_zero] at taken
    exact ⟨front, head, stop, back, tail, taken⟩
  rw [if_neg fun both => both.2.elim small fun notUsed => notUsed isUsed]
  have split : Head past off (off + head) (if head ≠ 0 then past ++ [off] else past) 0 := by
    rw [if_pos isZero]
    refine .split (by omega) fun z mem => ?_
    rw [getLastD_eq_getLast?, Option.mem_def.mp mem] at isUsed
    exact isUsed
  obtain ⟨front, stop, back, tail, taken⟩ := splitArea_taken scanned split (fun _ => rfl) (by omega)
    (by omega) sizeEven (sub_zero c.freeSize).symm
  exact ⟨front, 0, stop, back, tail, taken⟩

/-- What an allocation gives. -/
structure Allocated (unitSize : Int) (c : Chunk) (size align : Int) (c' : Chunk) (place : Int) :
    Prop where
  tiled : Tiled unitSize c'
  aligned : place % align = 0
  area : ∃ a ∈ areas c'.map, a.inUse = true ∧ a.start = place ∧ size ≤ a.size
  wasFree : ∃ a ∈ areas c.map, a.inUse = false ∧ a.start ≤ place ∧ place < a.stop
  covers : Covers (areas c.map) (areas c'.map)

theorem Taken.allocated {tail : Int} (tiled : Tiled unitSize c)
    (scanned : Scanned c size align popOnly past (off :: next :: rest) s)
    (isFree : used off = false) (later : off ≤ place) (even : place % 2 = 0)
    (aligned : place % align = 0) (sized : 0 < size) (inside : place < clear next)
    (taken : Taken c past off next rest place size s c' front lost stop back tail) :
    Allocated unitSize c size align c' place := by
  have enough := taken.enough
  have offClear := clear_of_free isFree
  have increasing := tiled.increasing
  have coalesced := tiled.coalesced
  rw [scanned.whole] at increasing coalesced
  obtain ⟨newInc, newCoalesced, sum, covers, isArea, frees⟩ :=
    take_map isFree even later (by omega) taken.head taken.isTail increasing coalesced
  rw [← taken.map, ← scanned.whole] at covers sum
  rw [← taken.map] at newInc newCoalesced isArea frees
  have oldArea : (⟨off, clear next, false⟩ : Area) ∈ areas c.map := by
    rw [scanned.whole, areas_append, areas_cons_cons, offClear, isFree]
    simp
  refine ⟨⟨?_, ?_, newInc, newCoalesced, ?_, taken.firstFree, ?_⟩, aligned,
    ⟨_, isArea, rfl, rfl, ?_⟩, ⟨_, oldArea, rfl, later, inside⟩, covers⟩
  · obtain ⟨first, others, isMap, atZero⟩ := tiled.start
    rw [scanned.whole] at isMap
    rw [taken.map]
    exact taken.head.start isMap atZero
  · have last := tiled.sentry
    rw [scanned.whole] at last
    rw [taken.map, ← last]
    exact taken.isTail.getLast
  · rw [taken.freeSize, tiled.freeSize, sum]
  · intro a mem free
    rcases frees a mem free with before | behind | ⟨isHead, isSplit⟩ | ⟨isTail, some⟩
    · exact (scanned.contig a (by simpa using before) free).trans taken.scanned
    · have more : rest ≠ [] := by
        rintro rfl
        simp at behind
      refine (tiled.contigHint a ?_ free).trans (taken.others more)
      rw [scanned.whole, areas_append, areas_cons_cons]
      simp [behind]
    · exact isHead ▸ taken.hasHead isSplit
    exact isTail ▸ taken.hasTail some
  simp only [Area.size]
  omega

section

variable (tiled : Tiled unitSize c)
include tiled

/-- The first entry, if it is free, is the offset 0. -/
theorem Scanned.atStart (scanned : Scanned c size align popOnly [] (off :: next :: rest) s)
    (isFree : used off = false) : off = 0 := by
  obtain ⟨first, others, isMap, atZero⟩ := tiled.start
  have whole := scanned.whole
  rw [isMap] at whole
  rw [← clear_of_free isFree, ← (cons.inj whole).1, atZero]

/-- Only in front of the map can the entry before a free one be free. -/
theorem Scanned.prevUsed {head : Int}
    (scanned : Scanned c size align popOnly past (off :: next :: rest) s)
    (isFree : used off = false)
    (fits : pcpuFitInArea c.populated off (clear next - off) size align popOnly = some head)
    (notBelow : ¬ ReadsBelow c size align popOnly) (some : head ≠ 0) :
    used (past.getLastD c.below) = true := by
  rcases eq_nil_or_concat' past with rfl | ⟨front, z, rfl⟩
  · obtain rfl := scanned.atStart tiled isFree
    by_contra notUsed
    refine notBelow ⟨by simpa using notUsed, next, rest, scanned.whole, head, ?_, some⟩
    simpa using fits
  have coalesced := tiled.coalesced
  rw [scanned.whole] at coalesced
  have joint := (isChain_append.mp coalesced).2.2 z (by simp) off (by simp)
  simpa [isFree] using joint

theorem pcpuAllocArea_cases (pos : 0 < align) (alignEven : align % 2 = 0) (sized : 0 < size)
    (sizeEven : size % 2 = 0) (notBelow : ¬ ReadsBelow c size align popOnly) :
    (∃ place pages, (pcpuAllocArea c size align popOnly).2 = some (place, pages) ∧
        Allocated unitSize c size align (pcpuAllocArea c size align popOnly).1 place) ∨
      ((pcpuAllocArea c size align popOnly).2 = none ∧
        (pcpuAllocArea c size align popOnly).1.map = c.map ∧
        Tiled unitSize (pcpuAllocArea c size align popOnly).1 ∧
        ∀ a ∈ areas c.map, a.inUse = false →
          pcpuFitInArea c.populated a.start a.size size align popOnly = none) := by
  have started : Scanned c size align popOnly (c.map.take c.firstFree) (c.map.drop c.firstFree)
      ⟨c.firstFree, false, 0⟩ := scanned_start tiled
  rw [pcpuAllocArea]
  rcases allocLoop_cases started with
    ⟨past, off, next, rest, head, s, scanned, isFree, fits, isResult⟩ | ⟨s, before, all, isResult⟩
  · left
    have offEven : off % 2 = 0 := by
      simp [used] at isFree
      omega
    obtain ⟨nonneg, inside, aligned⟩ := fit_some pos fits
    have headEven := fit_even pos alignEven offEven fits
    have notFirst : head ≠ 0 → head < sizeofInt → past ≠ [] := by
      rintro some small rfl
      obtain rfl := scanned.atStart tiled isFree
      rcases fit_at_zero pos fits with isZero | page
      · exact some isZero
      simp only [sizeofInt, pageSize] at small page
      omega
    obtain ⟨front, lost, stop, back, tail, taken, pages, isPlace⟩ := takeArea_taken scanned isFree
      nonneg inside headEven sizeEven (scanned.prevUsed tiled isFree fits notBelow) notFirst
    rw [isResult]
    exact ⟨off + head, pages, isPlace, taken.allocated tiled scanned isFree (by omega) (by omega)
      aligned sized (by omega)⟩
  right
  rw [isResult]
  exact ⟨rfl, rfl, ⟨tiled.start, tiled.sentry, tiled.increasing, tiled.coalesced, tiled.freeSize,
    before, fun a mem free => (all a mem free).1⟩, fun a mem free => (all a mem free).2⟩

/-- With a free word in front of the map, the head of the first area is lost. -/
theorem ReadsBelow.loses (pos : 0 < align) (alignEven : align % 2 = 0) (sizeEven : size % 2 = 0)
    (below : ReadsBelow c size align popOnly) :
    (pcpuAllocArea c size align popOnly).1.freeSize ≠
      freeSum (areas (pcpuAllocArea c size align popOnly).1.map) := by
  obtain ⟨belowFree, next, rest, isMap, head, fits, some⟩ := below
  have headEven := fit_even pos alignEven (zero_emod 2) fits
  have atStart : c.firstFree = 0 := by
    by_contra later
    obtain ⟨k, isSucc⟩ := Nat.exists_eq_succ_of_ne_zero later
    have := tiled.firstFree 0 (by simp [isMap, isSucc])
    simp [used] at this
  have total := tiled.freeSize
  rw [isMap, areas_cons_cons, freeSum_cons] at total
  simp only [used, clear, zero_emod, Area.size] at total
  have isResult : pcpuAllocArea c size align popOnly =
      splitArea c c.freeSize [] head next rest 0 size
        ((⟨0, false, 0⟩ : Scan).contig (head - c.below)) := by
    have fits' : pcpuFitInArea c.populated 0 (clear next - 0) size align popOnly = .some head := by
      simpa using fits
    rw [pcpuAllocArea, atStart, take_zero, drop_zero, isMap, allocLoop, if_neg (by simp [used])]
    simp only [fits', takeArea, getLastD_nil, belowFree, zero_add]
    simp [some]
  rw [isResult, splitArea]
  simp only [ne_eq, not_true, if_false, add_zero, sub_zero]
  split
  · simp only [placeArea, nil_append, areas_cons_cons, freeSum_cons, used_mark, if_true]
    simp only [clear] at total ⊢
    simp at total
    omega
  have stopEven : (head + size) % 2 = 0 := by omega
  simp only [placeArea, nil_append, areas_cons_cons, freeSum_cons, used_mark, if_true,
    used_of_even stopEven, clear_of_even stopEven, Area.size]
  simp only [clear] at total ⊢
  simp at total ⊢
  omega

end

end

end TinyKernel.Percpu
