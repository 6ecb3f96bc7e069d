import Mathlib.Tactic.Positivity
import TinyKernel.Percpu.Alloc

/-! The accesses of `pcpu_alloc_area` to the area map, by their indices. -/

namespace TinyKernel.Percpu

open List Nat

/-- `chunk->map[k]`. The entries have the indices 0 to `map_used`; another index is the error. -/
def load (map : List Int) (k : Int) : Except Int Int :=
  if k < 0 then .error k
  else match map[k.toNat]? with
    | some entry => .ok entry
    | none => .error k

/-- `chunk->map[k] = entry` -/
def store (map : List Int) (k : Int) (entry : Int) : Except Int (List Int) :=
  if k < 0 ∨ map.length ≤ k.toNat then .error k else .ok (map.set k.toNat entry)

/-- The first `if` of `pcpu_count_occupied_pages`. -/
def countStart (map : List Int) (i : Nat) (off : Int) : Except Int Int :=
  if off % pageSize ≠ 0 ∧ i > 0 then do
    let prev ← load map (i - 1)
    return if ¬ used prev ∧ prev ≤ roundDown off pageSize then roundDown off pageSize else off
  else return off

/-- The second one. -/
def countStop (map : List Int) (i : Nat) (stop : Int) : Except Int Int :=
  if stop % pageSize ≠ 0 ∧ i + 1 < map.length - 1 then do
    let next ← load map (i + 1)
    let nend ← load map (i + 2)
    return if ¬ used next ∧ clear nend ≥ alignUp stop pageSize then alignUp stop pageSize else stop
  else return stop

/-- `pcpu_count_occupied_pages` -/
def countPages (map : List Int) (i : Nat) : Except Int Int := do
  let off ← load map i
  let stop ← load map (i + 1)
  let off ← countStart map i (clear off)
  let stop ← countStop map i (clear stop)
  return max ((pfnDown stop : Int) - pfnUp off) 0

/-- The variables of `pcpu_alloc_area` at the area that it takes. -/
structure Cut where
  map : List Int
  off : Int
  thisSize : Int
  head : Int
  freeSize : Int
  scan : Scan

/-- `head < sizeof(int) || !(p[-1] & 1)` -/
def mustMerge (c : Chunk) (i : Nat) (head : Int) : Except Int Bool :=
  if head < sizeofInt then return true
  else do
    let prev ← load c.map (i - 1)
    return !used prev

/-- The merge of the head with the area before. -/
def mergeHead (c : Chunk) (i : Nat) (off thisSize head : Int) (s : Scan) : Except Int Cut :=
  if head ≠ 0 then do
    if ← mustMerge c i head then
      let map ← store c.map i (off + head)
      let prev ← load map (i - 1)
      if used prev then return ⟨map, off + head, thisSize - head, 0, c.freeSize - head, s⟩
      else
        let here ← load map i
        let prev ← load map (i - 1)
        return ⟨map, off + head, thisSize - head, 0, c.freeSize, s.contig (here - prev)⟩
    else return ⟨c.map, off, thisSize, head, c.freeSize, s⟩
  else return ⟨c.map, off, thisSize, head, c.freeSize, s⟩

/-- The `memmove` that makes room behind the entry of index `i`; the new slots hold what they held
before. -/
def makeRoom (map : List Int) (i extra : Nat) : List Int :=
  map.take (i + 1) ++ (map.drop (i + 1) ++ replicate extra 0).take extra ++ map.drop (i + 1)

/-- The area behind a head: the map, the index and the offset of the area, and the hints. -/
def insertHead (cut : Cut) (map : List Int) (i : Nat) : Except Int (List Int × Nat × Int × Scan) :=
  if cut.head ≠ 0 then do
    let map ← store map (i + 1) (cut.off + cut.head)
    return (map, i + 1, cut.off + cut.head, (cut.scan.see i).contig cut.head)
  else return (map, i, cut.off, cut.scan)

/-- The new subblocks. -/
def insertBlocks (cut : Cut) (i : Nat) (size tail : Int) :
    Except Int (List Int × Nat × Int × Scan) :=
  if cut.head ≠ 0 ∨ tail ≠ 0 then do
    let extra := (if cut.head ≠ 0 then 1 else 0) + (if tail ≠ 0 then 1 else 0)
    let (map, i, off, s) ← insertHead cut (makeRoom cut.map i extra) i
    if tail ≠ 0 then
      let map ← store map (i + 1) (off + size)
      return (map, i, off, s.contig tail)
    else return (map, i, off, s)
  else return (cut.map, i, cut.off, cut.scan)

/-- The area at an index is marked as allocated. -/
def markArea (c : Chunk) (freeSize : Int) (map : List Int) (i : Nat) (off size : Int) (s : Scan) :
    Except Int (Chunk × Option (Int × Int)) := do
  let here ← load map i
  let marked ← store map i (mark here)
  let pages ← countPages marked i
  return ({ c with
      map := marked
      freeSize := freeSize - size
      firstFree := if s.seenFree then s.firstFree else i + 1
      contigHint := if i + 1 = marked.length - 1 then s.maxContig
        else max c.contigHint s.maxContig },
    some (off, pages))

/-- From the tail of the area to the return; a small tail is kept. -/
def finishArea (c : Chunk) (cut : Cut) (i : Nat) (size : Int) :
    Except Int (Chunk × Option (Int × Int)) :=
  let tail := cut.thisSize - cut.head - size
  if tail < sizeofInt then do
    let (map, i, off, s) ← insertBlocks cut i (cut.thisSize - cut.head) 0
    markArea c cut.freeSize map i off (cut.thisSize - cut.head) s
  else do
    let (map, i, off, s) ← insertBlocks cut i size tail
    markArea c cut.freeSize map i off size s

/-- The loop of `pcpu_alloc_area` from index `i` on, with `left` entries before the sentry. -/
def allocFrom (c : Chunk) (size align : Int) (popOnly : Bool) :
    (left : Nat) → (i : Nat) → Scan → Except Int (Chunk × Option (Int × Int))
  | 0, _, s => .ok ({ c with firstFree := s.firstFree, contigHint := s.maxContig }, none)
  | left + 1, i, s => do
    let off ← load c.map i
    if used off then allocFrom c size align popOnly left (i + 1) s
    else
      let next ← load c.map (i + 1)
      let thisSize := clear next - off
      match pcpuFitInArea c.populated off thisSize size align popOnly with
      | none => allocFrom c size align popOnly left (i + 1) ((s.see i).contig thisSize)
      | some head =>
        let cut ← mergeHead c i off thisSize head s
        finishArea c cut i size

/-- `pcpu_alloc_area` with every access to the map checked. -/
def allocChecked (c : Chunk) (size align : Int) (popOnly : Bool) :
    Except Int (Chunk × Option (Int × Int)) :=
  allocFrom c size align popOnly (c.mapUsed - c.firstFree) c.firstFree ⟨c.firstFree, false, 0⟩

/-- One round of `pcpu_fit_in_area`: what it returns, or where it tries next. -/
def fitRound (populated : Nat → Bool) (off thisSize size align : Int) (popOnly : Bool)
    (candOff : Int) : Option Int ⊕ Int :=
  let head := alignUp candOff align - off
  if thisSize < head + size then .inl none
  else if !popOnly then .inl (some head)
  else
    let (rs, re) := nextUnpop populated (pfnDown (head + off)) (pfnUp (off + thisSize))
    if rs ≥ pfnUp (head + off + size) then .inl (some head) else .inr (re * pageSize)

/-- The loop of `pcpu_fit_in_area`, none if it has not returned after so many rounds. -/
def fitRounds (populated : Nat → Bool) (off thisSize size align : Int) (popOnly : Bool) :
    Nat → Int → Option (Option Int)
  | 0, _ => none
  | rounds + 1, candOff =>
    match fitRound populated off thisSize size align popOnly candOff with
    | .inl result => some result
    | .inr candOff => fitRounds populated off thisSize size align popOnly rounds candOff

section

variable {past back : List Int}

theorem load_at : load (past ++ x :: back) past.length = .ok x := by
  have bound : ¬((past.length : Int) < 0) := by omega
  rw [load, if_neg bound, Int.toNat_natCast]
  simp

theorem load_next : load (past ++ x :: y :: back) (past.length + 1) = .ok y := by
  have moved : load (past ++ [x] ++ y :: back) (past ++ [x]).length = .ok y := load_at
  simpa using moved

theorem load_prev : load (past ++ [z] ++ back) ((past ++ [z]).length - 1) = .ok z := by
  have moved : load (past ++ z :: back) past.length = .ok z := load_at
  simpa using moved

theorem store_at : store (past ++ x :: back) past.length entry = .ok (past ++ entry :: back) := by
  have bound : ¬((past.length : Int) < 0 ∨
      (past ++ x :: back).length ≤ (past.length : Int).toNat) := by
    simp
  rw [store, if_neg bound, Int.toNat_natCast]
  simp

theorem store_next :
    store (past ++ x :: y :: back) (past.length + 1) entry = .ok (past ++ x :: entry :: back) := by
  have moved : store (past ++ [x] ++ y :: back) (past ++ [x]).length entry =
      .ok (past ++ [x] ++ entry :: back) :=
    store_at
  simpa using moved

end

section

variable {c : Chunk} {past rest : List Int} {off next head size : Int} {s : Scan}

theorem load_eq {map : List Int} (bound : k < map.length) : load map k = .ok (map.getD k 0) := by
  have nonneg : ¬((k : Int) < 0) := by omega
  rw [load, if_neg nonneg, Int.toNat_natCast, getElem?_eq_getElem bound]
  simp [bound]

/-- The count of pages reads the entries of an area before the sentry and their neighbours only. -/
theorem countPages_eq {map : List Int} (bound : i + 1 < map.length) :
    countPages map i = .ok (pcpuCountOccupiedPages map i) := by
  have first : load map i = .ok (map.getD i 0) := load_eq (by omega)
  have second : load map ((i : Int) + 1) = .ok (map.getD (i + 1) 0) := load_eq (k := i + 1) bound
  have start (off : Int) : countStart map i off = .ok
        (if off % pageSize ≠ 0 ∧ i > 0 ∧ ¬ used (map.getD (i - 1) 0) ∧
          map.getD (i - 1) 0 ≤ roundDown off pageSize then
          roundDown off pageSize
        else off) := by
    rw [countStart]
    split
    · next both =>
      have place : ((i : Int) - 1) = ((i - 1 : Nat) : Int) := by omega
      rw [place, load_eq (by omega)]
      simp only [both.1, both.2, ne_eq, not_false_eq_true, true_and]
      rfl
    rename_i other
    rw [if_neg fun all => other ⟨all.1, all.2.1⟩]
    rfl
  have stop (stop : Int) : countStop map i stop = .ok
        (if stop % pageSize ≠ 0 ∧ i + 1 < map.length - 1 ∧ ¬ used (map.getD (i + 1) 0) ∧
          clear (map.getD (i + 2) 0) ≥ alignUp stop pageSize then
          alignUp stop pageSize
        else stop) := by
    rw [countStop]
    split
    · next both =>
      have third : load map ((i : Int) + 2) = .ok (map.getD (i + 2) 0) :=
        load_eq (k := i + 2) (by omega)
      rw [second, third]
      simp only [both.1, both.2, ne_eq, not_false_eq_true, true_and]
      rfl
    rename_i other
    rw [if_neg fun all => other ⟨all.1, all.2.1⟩]
    rfl
  simp only [countPages, first, second, start, stop, bind, Except.bind]
  rfl

theorem markArea_eq {front : List Int} (behind : back ≠ []) :
    markArea c freeSize (front ++ place :: back) front.length place size s =
      .ok (placeArea c freeSize front place back size s) := by
  have inside : front.length + 1 < (front ++ mark place :: back).length := by
    have := length_pos_iff.mpr behind
    simp only [length_append, length_cons]
    omega
  simp only [markArea, load_at, store_at, countPages_eq inside, bind, Except.bind, placeArea, pure,
    Except.pure]

theorem makeRoom_eq (extra : Nat) :
    makeRoom (past ++ off :: back) past.length extra =
      past ++ off :: ((back ++ replicate extra 0).take extra ++ back) := by
  simp only [makeRoom, take_length_add_append, drop_length_add_append, take_succ_cons, take_zero,
    drop_succ_cons, drop_zero, append_assoc, cons_append, nil_append]

theorem insertHead_eq (some : cut.head ≠ 0) :
    insertHead cut (past ++ off :: stale :: back) past.length =
      .ok (past ++ off :: (cut.off + cut.head) ::
        back, past.length + 1, cut.off + cut.head, (cut.scan.see past.length).contig cut.head) := by
  simp only [insertHead, some, ne_eq, not_false_eq_true, if_true, store_next, bind, Except.bind,
    pure, Except.pure]

/-- The rest of the call, on an area between two others. -/
theorem finishArea_eq :
    finishArea c ⟨past ++ off :: next :: rest, off, clear next - off, head, freeSize, s⟩ past.length
        size = .ok (splitArea c freeSize past off next rest head size s) := by
  have front : (past ++ [off]).length = past.length + 1 := by simp
  simp only [finishArea, splitArea]
  by_cases small : clear next - off - head - size < sizeofInt
  · simp only [if_pos small]
    by_cases none : head = 0
    · simp only [insertBlocks, none, ne_eq, not_true_eq_false, or_self, if_false, pure, Except.pure,
        bind, Except.bind, Int.add_zero]
      exact markArea_eq (by simp)
    have marked (s : Scan) : markArea c freeSize (past ++ [off] ++ (off + head) :: next :: rest)
          (past ++ [off]).length (off + head) (clear next - off - head) s =
        .ok (placeArea c freeSize (past ++ [off]) (off + head) (next :: rest)
          (clear next - off - head) s) :=
      markArea_eq (by simp)
    simp only [insertBlocks, ne_eq, none, not_false_eq_true, not_true_eq_false, or_false, if_true,
      if_false, add_zero, makeRoom_eq, replicate_one, cons_append, take_succ_cons, take_zero,
      nil_append, insertHead_eq, bind, Except.bind, pure, Except.pure]
    simpa only [front, append_assoc, singleton_append] using marked _
  have large : clear next - off - head - size ≠ 0 := by
    simp only [sizeofInt] at small
    omega
  simp only [if_neg small]
  by_cases none : head = 0
  · subst none
    simp only [insertBlocks, ne_eq, not_true_eq_false, large, not_false_eq_true, or_true, if_true,
      if_false, zero_add, makeRoom_eq, replicate_one, cons_append, take_succ_cons, take_zero,
      nil_append, insertHead, store_next, bind, Except.bind, pure, Except.pure, Int.add_zero]
    exact markArea_eq (by simp)
  have marked (s : Scan) : markArea c freeSize
        (past ++ [off] ++ (off + head) :: (off + head + size) :: next :: rest)
        (past ++ [off]).length (off + head) size s =
      .ok (placeArea c freeSize (past ++ [off]) (off + head) ((off + head + size) :: next :: rest)
        size s) :=
    markArea_eq (by simp)
  obtain ⟨stale, room⟩ : ∃ stale, (rest ++ [0, 0]).take 1 = [stale] := by
    cases rest with
    | nil => exact ⟨0, rfl⟩
    | cons x others => exact ⟨x, rfl⟩
  have stored : store (past ++ [off] ++ (off + head) :: stale :: next :: rest)
        ((past ++ [off]).length + 1) (off + head + size) =
      .ok (past ++ [off] ++ (off + head) :: (off + head + size) :: next :: rest) :=
    store_next
  simp only [append_assoc, singleton_append, front] at stored
  push_cast at stored
  simp only [insertBlocks, ne_eq, none, large, not_false_eq_true, or_self, if_true, makeRoom_eq,
    reduceAdd, replicate_succ, replicate_zero, cons_append, take_succ_cons, room, nil_append,
    insertHead_eq, bind, Except.bind, pure, Except.pure, cast_add, cast_one, stored]
  simpa only [front, append_assoc, singleton_append] using marked _

/-- Only in front of the first area does the merge of a head leave the map. -/
theorem mergeHead_eq (head size : Int) (s : Scan) (isMap : c.map = past ++ off :: next :: rest) :
    (do
      let cut ← mergeHead c past.length off (clear next - off) head s
      finishArea c cut past.length size) =
      if past = [] ∧ head ≠ 0 then .error (-1)
        else .ok (takeArea c past off next rest head size s) := by
  have sizes : clear next - off - head = clear next - (off + head) := by omega
  by_cases none : head = 0
  · subst none
    simp only [mergeHead, ne_eq, not_true_eq_false, and_false, if_false, takeArea, false_and, isMap,
      finishArea_eq, bind, Except.bind, pure, Except.pure]
  rcases eq_nil_or_concat' past with rfl | ⟨front, z, rfl⟩
  · rw [if_pos ⟨rfl, none⟩]
    have below (map : List Int) : load map (([] : List Int).length - 1) = .error (-1) := rfl
    have stored : store c.map ([] : List Int).length (off + head) =
        .ok ((off + head) :: next :: rest) := by
      rw [isMap]
      exact store_at
    simp only [mergeHead, mustMerge, ne_eq, none, not_false_eq_true, if_true]
    by_cases small : head < sizeofInt
    · simp only [if_pos small, stored, below, bind, Except.bind, pure, Except.pure, if_true]
    simp only [if_neg small, below, bind, Except.bind]
  rw [if_neg fun both => by simp at both]
  have prev (back : List Int) : load (front ++ [z] ++ back) ((front ++ [z]).length - 1) = .ok z :=
    load_prev
  have last : (front ++ [z]).getLastD c.below = z := by simp
  have here (back : List Int) : load (front ++ [z] ++ (off + head) :: back) (front ++ [z]).length =
      .ok (off + head) :=
    load_at
  have stored (back : List Int) : store (front ++ [z] ++ off :: back) (front ++ [z]).length
        (off + head) = .ok (front ++ [z] ++ (off + head) :: back) :=
    store_at
  simp only
    [mergeHead, mustMerge, ne_eq, none, not_false_eq_true, if_true, isMap, takeArea, last, true_and]
  cases isUsed : used z with
  | true =>
    by_cases small : head < sizeofInt
    · simp only [small, if_true, stored, prev, isUsed, bind, Except.bind, pure, Except.pure,
        true_or, sizes, finishArea_eq]
    simp only [small, if_false, prev, isUsed, bind, Except.bind, pure, Except.pure, Bool.not_true,
      Bool.false_eq_true, not_true_eq_false, or_self, finishArea_eq]
  | false => ?_
  by_cases small : head < sizeofInt
  · simp only [small, if_true, stored, prev, here, isUsed, bind, Except.bind, pure, Except.pure,
      true_or, sizes, finishArea_eq, Bool.false_eq_true, if_false]
  simp only [small, if_false, stored, prev, here, isUsed, bind, Except.bind, pure, Except.pure,
    Bool.not_false, if_true, Bool.false_eq_true, not_false_eq_true, or_true, sizes, finishArea_eq]

variable {align : Int} {popOnly : Bool}

/-- Behind an area, the scan stays in the map. -/
theorem allocFrom_behind (isMap : c.map = past ++ rest) (behind : past ≠ []) :
    allocFrom c size align popOnly (rest.length - 1) past.length s =
      .ok (allocLoop c size align popOnly past rest s) := by
  induction rest generalizing past s with
  | nil => rfl
  | cons off rest ih => ?_
  cases rest with
  | nil => rfl
  | cons next rest => ?_
  have first : load c.map past.length = .ok off := isMap ▸ load_at
  have second : load c.map (past.length + 1) = .ok next := isMap ▸ load_next
  have further : c.map = past ++ [off] ++ (next :: rest) := by simpa using isMap
  have later (s : Scan) := ih (s := s) further (by simp)
  simp only [length_append, length_cons, Nat.add_sub_cancel] at later
  simp only [length_cons, Nat.add_sub_cancel, allocFrom, allocLoop, first, bind, Except.bind]
  split
  · exact later s
  simp only [second]
  cases fits : pcpuFitInArea c.populated off (clear next - off) size align popOnly with
  | none => exact later _
  | some head => ?_
  have taken := mergeHead_eq head size s isMap
  rw [if_neg fun both => behind both.1] at taken
  exact taken

/-- The first area is free, and what is to be allocated does not go to its start but to a later
place. -/
def HeadOfFirst (c : Chunk) (size align : Int) (popOnly : Bool) : Prop :=
  c.firstFree = 0 ∧
    ∃ off next rest, c.map = off :: next :: rest ∧ used off = false ∧
      ∃ head, pcpuFitInArea c.populated off (clear next - off) size align popOnly = some head ∧
        head ≠ 0

/-- The accesses are inside the map, and then the call is the one without checks; or `p[-1]` is read
in front of it. -/
theorem allocChecked_cases (c : Chunk) (size align : Int) (popOnly : Bool) :
    (HeadOfFirst c size align popOnly → allocChecked c size align popOnly = .error (-1)) ∧
      (¬HeadOfFirst c size align popOnly →
        allocChecked c size align popOnly = .ok (pcpuAllocArea c size align popOnly)) := by
  rw [allocChecked, pcpuAllocArea]
  by_cases start : c.firstFree = 0
  · rw [start, take_zero, drop_zero, Nat.sub_zero, Chunk.mapUsed]
    by_cases long : ∃ off next rest, c.map = off :: next :: rest
    · obtain ⟨off, next, rest, isMap⟩ := long
      have first : load c.map (0 : Nat) = .ok off := by rw [isMap]; rfl
      have second : load c.map ((0 : Nat) + 1) = .ok next := by rw [isMap]; rfl
      have left : c.map.length - 1 = rest.length + 1 := by rw [isMap]; rfl
      have later (s : Scan) : allocFrom c size align popOnly rest.length (0 + 1) s =
          .ok (allocLoop c size align popOnly [off] (next :: rest) s) :=
        allocFrom_behind isMap (cons_ne_nil off [])
      have whole (s : Scan) : allocLoop c size align popOnly [] c.map s =
          allocLoop c size align popOnly [] (off :: next :: rest) s := by rw [isMap]
      rw [left, whole, allocFrom, allocLoop]
      simp only [first, nil_append, length_nil, bind, Except.bind]
      split
      · next isUsed =>
        refine ⟨?_, fun _ => later _⟩
        rintro ⟨-, off', next', rest', isMap', isFree, -⟩
        rw [isMap] at isMap'
        cases isMap'
        rw [isUsed] at isFree
        cases isFree
      rename_i isFree
      simp only [second]
      cases fits : pcpuFitInArea c.populated off (clear next - off) size align popOnly with
      | none =>
        refine ⟨?_, fun _ => later _⟩
        rintro ⟨-, off', next', rest', isMap', -, head, found, -⟩
        rw [isMap] at isMap'
        cases isMap'
        rw [fits] at found
        cases found
      | some head => ?_
      have taken :=
        mergeHead_eq head size ⟨0, false, 0⟩
          (by simpa using isMap : c.map = [] ++ off :: next :: rest)
      simp only [length_nil, true_and] at taken
      constructor
      · rintro ⟨-, off', next', rest', isMap', -, head', found, some⟩
        rw [isMap] at isMap'
        cases isMap'
        rw [fits] at found
        cases found
        rw [if_pos some] at taken
        exact taken
      intro other
      have none : ¬head ≠ 0 := fun some =>
        other ⟨start, off, next, rest, isMap, by simpa using isFree, head, fits, some⟩
      rw [if_neg none] at taken
      exact taken
    have ends (map : List Int) (short : ¬∃ off next rest, map = off :: next :: rest) (s : Scan) :
        map.length - 1 = 0 ∧ allocLoop c size align popOnly [] map s =
          ({ c with firstFree := s.firstFree, contigHint := s.maxContig }, none) := by
      rcases map with _ | ⟨x, _ | ⟨y, rest⟩⟩
      · exact ⟨rfl, rfl⟩
      · exact ⟨rfl, rfl⟩
      exact absurd ⟨x, y, rest, rfl⟩ short
    refine ⟨?_, fun _ => ?_⟩
    · rintro ⟨-, off, next, rest, isMap, -⟩
      exact absurd ⟨off, next, rest, isMap⟩ long
    obtain ⟨none, result⟩ := ends c.map long ⟨0, false, 0⟩
    rw [none, allocFrom, result]
  refine ⟨fun first => absurd first.1 start, fun _ => ?_⟩
  by_cases beyond : c.map.length ≤ c.firstFree
  · have none : c.mapUsed - c.firstFree = 0 := by
      rw [Chunk.mapUsed]
      omega
    rw [none, drop_eq_nil_of_le beyond]
    rfl
  have length : (c.map.take c.firstFree).length = c.firstFree := length_take_of_le (by omega)
  have left : c.mapUsed - c.firstFree = (c.map.drop c.firstFree).length - 1 := by
    rw [Chunk.mapUsed, length_drop]
    omega
  have behind : c.map.take c.firstFree ≠ [] := by
    intro empty
    rw [empty] at length
    exact start length.symm
  have seen (s : Scan) : allocFrom c size align popOnly ((c.map.drop c.firstFree).length - 1)
      (c.map.take c.firstFree).length s =
      .ok (allocLoop c size align popOnly (c.map.take c.firstFree) (c.map.drop c.firstFree) s) :=
    allocFrom_behind (take_append_drop c.firstFree c.map).symm behind
  rw [length, ← left] at seen
  exact seen _

end

section

variable {populated : Nat → Bool} {off thisSize size align candOff : Int} {popOnly : Bool}

theorem findNext_spec (want : Nat → Bool) (size start : Nat) :
    (findNext want size start < size → want (findNext want size start) = true) ∧
      ∀ i, start ≤ i → i < findNext want size start → want i = false := by
  rw [findNext]
  cases result : (range size).find? fun i => start ≤ i && want i with
  | none =>
    refine ⟨fun less => absurd less (lt_irrefl _), fun i low high => ?_⟩
    have no := find?_eq_none.mp result i (mem_range.mpr high)
    simpa [low] using no
  | some found => ?_
  obtain ⟨here, -, before⟩ := find?_range_eq_some.mp result
  simp only [Bool.and_eq_true, decide_eq_true_eq] at here
  refine ⟨fun _ => here.2, fun i low high => ?_⟩
  simpa [low] using before i high

/-- All pages of a block are populated. -/
def Populated (populated : Nat → Bool) (place size : Int) : Prop :=
  ∀ page, pfnDown place ≤ page → page < pfnUp (place + size) → populated page = true

/-- Between a place that was tried and the next candidate, there is no populated block. -/
theorem not_populated_of_retry (sized : 0 < size) (nonneg : 0 ≤ place)
    (inside : place + size ≤ off + thisSize)
    (unpopulated :
      (nextUnpop populated (pfnDown place) (pfnUp (off + thisSize))).1 < pfnUp (place + size))
    (low : place ≤ place')
    (high : place' < (nextUnpop populated (pfnDown place) (pfnUp (off + thisSize))).2 * pageSize) :
    ¬Populated populated place' size := by
  intro all
  have bound := lt_of_lt_of_le unpopulated (pfnUp_mono inside)
  have first : populated (nextUnpop populated (pfnDown place) (pfnUp (off + thisSize))).1 =
      false := by
    have found :=
      (findNext_spec (fun i => !populated i) (pfnUp (off + thisSize)) (pfnDown place)).1 bound
    simpa [nextUnpop] using found
  have run (page : Nat)
    (low : (nextUnpop populated (pfnDown place) (pfnUp (off + thisSize))).1 + 1 ≤ page)
    (high : page < (nextUnpop populated (pfnDown place) (pfnUp (off + thisSize))).2) :
      populated page = false :=
    (findNext_spec populated _ _).2 page low high
  generalize nextUnpop populated (pfnDown place) (pfnUp (off + thisSize)) = range at *
  obtain ⟨rs, re⟩ := range
  have before : rs < pfnUp (place' + size) := lt_of_lt_of_le unpopulated (pfnUp_mono (by omega))
  by_cases page : pfnDown place' ≤ rs
  · rw [all rs page before] at first
    cases first
  -- the block starts in the unpopulated run
  have inRun : pfnDown place' < re := by
    simp only [pfnDown, pageSize] at high ⊢
    omega
  have own : pfnDown place' < pfnUp (place' + size) := by
    simp only [pfnDown, pfnUp, pageSize]
    omega
  have gone := run (pfnDown place') (by simp only; omega) inRun
  rw [all _ (le_rfl) own] at gone
  cases gone

/-- With `pop_only`, the first place whose pages are populated is found. -/
theorem fitLoop_populated (pos : 0 < align) (sized : 0 < size) (nonneg : 0 ≤ off)
    (above : off ≤ candOff) (enough : pfnUp (off + thisSize) + 1 < rounds + pfnDown candOff)
    (skip : ∀ place, off ≤ place → place % align = 0 → place < candOff →
      ¬Populated populated place size) :
    match fitLoop populated off thisSize size align true rounds candOff with
    | some head => Populated populated (off + head) size ∧
        ∀ place, off ≤ place → place % align = 0 → place < off + head →
          ¬Populated populated place size
    | none => ∀ place, off ≤ place → place % align = 0 → place + size ≤ off + thisSize →
        ¬Populated populated place size := by
  induction rounds generalizing candOff with
  | zero =>
    have far := lt_of_pfnUp_lt enough
    intro place low aligned inside
    exact skip place low aligned (by omega)
  | succ rounds ih => ?_
  have low := le_alignUp (x := candOff) pos
  have between (place : Int) (start : off ≤ place) (aligned : place % align = 0)
    (less : place < alignUp candOff align) :
      ¬Populated populated place size := by
    refine skip place start aligned ?_
    by_contra beyond
    have := alignUp_le pos (Int.not_lt.mp beyond) aligned
    omega
  have same : alignUp candOff align - off + off = alignUp candOff align := by omega
  have same' : off + (alignUp candOff align - off) = alignUp candOff align := by omega
  simp only [fitLoop, same, Bool.not_true, Bool.false_eq_true, if_false]
  by_cases short : thisSize < alignUp candOff align - off + size
  · simp only [if_pos short]
    intro place start aligned inside
    exact between place start aligned (by omega)
  simp only [if_neg short]
  have inside : alignUp candOff align + size ≤ off + thisSize := by omega
  by_cases found : pfnUp (alignUp candOff align + size) ≤
      (nextUnpop populated (pfnDown (alignUp candOff align)) (pfnUp (off + thisSize))).1
  · simp only [ge_iff_le, found, if_true, same']
    refine ⟨fun page first last => ?_, between⟩
    have clear :=
      (findNext_spec (fun i => !populated i) (pfnUp (off + thisSize))
          (pfnDown (alignUp candOff align))).2 page first (lt_of_lt_of_le last found)
    simpa using clear
  simp only [ge_iff_le, found, if_false]
  have less := Nat.lt_of_not_le found
  have later := retry_later inside less
  have next := nextUnpop_lt (lt_of_lt_of_le less (pfnUp_mono inside))
  refine ih (by omega) ?_ fun place start aligned before => ?_
  · have := pfnDown_mono low
    rw [pfnDown_mul]
    omega
  by_cases tried : place < alignUp candOff align
  · exact between place start aligned tried
  exact not_populated_of_retry sized (by omega) inside less (by omega) before

theorem fit_populated (populated : Nat → Bool) (thisSize : Int) (pos : 0 < align) (sized : 0 < size)
    (nonneg : 0 ≤ off) :
    match pcpuFitInArea populated off thisSize size align true with
    | some head => Populated populated (off + head) size ∧
        ∀ place, off ≤ place → place % align = 0 → place < off + head →
          ¬Populated populated place size
    | none => ∀ place, off ≤ place → place % align = 0 → place + size ≤ off + thisSize →
        ¬Populated populated place size :=
  fitLoop_populated pos sized nonneg (Int.le_refl off) (by omega) fun _ low _ high => absurd high
    (Int.not_lt.mpr low)

/-- `pcpu_fit_in_area` returns. -/
theorem fitRounds_returns (rounds : Nat) (pos : 0 < align) (sized : 0 < size)
    (enough : pfnUp (off + thisSize) + 1 < rounds + pfnDown candOff) :
    ∃ result,
      fitRounds populated off thisSize size align popOnly (rounds + 1) candOff = some result := by
  induction rounds generalizing candOff with
  | zero =>
    have far := lt_of_pfnUp_lt enough
    have low := le_alignUp (x := candOff) pos
    refine ⟨none, ?_⟩
    rw [fitRounds, fitRound, if_pos (by omega)]
  | succ rounds ih => ?_
  have low := le_alignUp (x := candOff) pos
  rw [fitRounds, fitRound]
  dsimp only
  split
  · next result same => exact ⟨result, rfl⟩
  rename_i candOff' same
  split at same
  · cases same
  rename_i short
  split at same
  · cases same
  split at same
  · cases same
  rename_i unpopulated
  cases same
  refine ih ?_
  have inArea : alignUp candOff align - off + off + size ≤ off + thisSize := by omega
  have later := nextUnpop_lt (Nat.lt_of_lt_of_le (Nat.lt_of_not_le unpopulated) (pfnUp_mono inArea))
  have := pfnDown_mono (x := candOff) (y := alignUp candOff align - off + off) (by omega)
  rw [pfnDown_mul]
  omega

end

section

variable {c : Chunk} {size align unitSize : Int} {popOnly : Bool}

/-- The first area is free; its start is not populated for the allocation, but a later place of it
is. -/
def PadsFirst (c : Chunk) (size align : Int) (popOnly : Bool) : Prop :=
  popOnly = true ∧
    ∃ next rest, c.map = 0 :: next :: rest ∧ ¬Populated c.populated 0 size ∧
      ∃ place, 0 ≤ place ∧ place % align = 0 ∧ place + size ≤ clear next ∧
        Populated c.populated place size

theorem headOfFirst_iff (tiled : Tiled unitSize c) (pos : 0 < align) (sized : 0 < size) :
    HeadOfFirst c size align popOnly ↔ PadsFirst c size align popOnly := by
  have atZero (off next : Int) (rest : List Int) (isMap : c.map = off :: next :: rest)
    (isFree : used off = false) :
      off = 0 := by
    obtain ⟨first, others, isMap', zero⟩ := tiled.start
    rw [isMap] at isMap'
    rw [← clear_of_free isFree, (cons.inj isMap').1, zero]
  constructor
  · rintro ⟨-, off, next, rest, isMap, isFree, head, fits, some⟩
    obtain rfl := atZero off next rest isMap isFree
    rw [Int.sub_zero] at fits
    obtain ⟨nonneg, inside, aligned⟩ := fit_some pos fits
    cases popOnly with
    | false =>
      -- nothing is to be skipped at the start of the chunk
      rw [fit_all, alignUp_zero pos] at fits
      split at fits
      · cases fits
      cases fits
      exact absurd rfl some
    | true => ?_
    have spec := fit_populated c.populated (clear next) pos sized (Int.le_refl 0)
    rw [fits] at spec
    obtain ⟨here, before⟩ := spec
    rw [Int.zero_add] at here aligned
    exact ⟨rfl, next, rest, isMap, before 0 (Int.le_refl 0) (Int.zero_emod _) (by omega), head,
      nonneg, aligned, inside, here⟩
  rintro ⟨rfl, next, rest, isMap, gone, place, nonneg, aligned, inside, here⟩
  have isFree : used 0 = false := rfl
  have start : c.firstFree = 0 := by
    by_contra later
    obtain ⟨k, isSucc⟩ := exists_eq_succ_of_ne_zero later
    have inUse := tiled.firstFree 0 (by simp [isMap, isSucc])
    rw [isFree] at inUse
    cases inUse
  refine ⟨start, 0, next, rest, isMap, isFree, ?_⟩
  rw [Int.sub_zero]
  have spec := fit_populated c.populated (clear next) pos sized (Int.le_refl 0)
  cases fits : pcpuFitInArea c.populated 0 (clear next) size align true with
  | none =>
    rw [fits] at spec
    exact absurd here (spec place nonneg aligned (by omega))
  | some head => ?_
  rw [fits] at spec
  refine ⟨head, rfl, fun zero => gone ?_⟩
  have first := spec.1
  rwa [zero] at first

/-- The accesses to the map of a request of any size and alignment have indices from 0 to
`map_used`, unless the start of the first area is padded; and `pcpu_fit_in_area` returns. -/
theorem alloc_stays_in_map (unitSize : Int) (c : Chunk) (tiled : Tiled unitSize c) (size : Int)
    (some : 0 < size) (order : Nat) (popOnly : Bool) :
    ((∃ result, allocChecked c size (2 ^ order) popOnly = .ok result) ↔
        ¬PadsFirst c size (2 ^ order) popOnly) ∧
      ∀ off thisSize, ∃ rounds result,
        fitRounds c.populated off thisSize size (2 ^ order) popOnly rounds off = .some result := by
  have positive : (0 : Int) < 2 ^ order := by positivity
  rw [← headOfFirst_iff tiled positive some]
  obtain ⟨outside, inside⟩ := allocChecked_cases c size (2 ^ order) popOnly
  refine ⟨⟨?_, fun safe => ⟨_, inside safe⟩⟩, fun off thisSize => ⟨_,
    fitRounds_returns (pfnUp (off + thisSize) + 2) positive some (by omega)⟩⟩
  · rintro ⟨result, ok⟩ pads
    rw [outside pads] at ok
    cases ok

/-- The first of four pages is in use, and the second one is not populated. -/
def secondPageMissing : Chunk :=
  (pcpuAllocArea (allocChunk 16384 (fun page => page ≠ 1) 1) 4096 (2 ^ 3) true).1

/-- The allocation goes to the third page, and the head of the second area is no head of the
first. -/
theorem alloc_stays_in_map_unpopulated :
    secondPageMissing.map = [1, 4096, 16385] ∧ secondPageMissing.populated 1 = false ∧
      ∃ result, allocChecked secondPageMissing 8 (2 ^ 3) true = .ok result := by
  have tiled : Tiled 16384 secondPageMissing := by
    have fresh : Tiled 16384 (allocChunk 16384 (fun page => page ≠ 1) 1) :=
      allocChunk_tiled (by decide) (by decide)
    have above : ¬ ReadsBelow (allocChunk 16384 (fun page => page ≠ 1) 1) 4096 (2 ^ 3) true := by
      rintro ⟨free, -⟩
      cases free
    rcases pcpuAllocArea_cases fresh (by decide) (by decide) (by decide) (by decide) above with
      ⟨_, _, _, allocated⟩ | ⟨_, _, kept, _⟩
    · exact allocated.tiled
    · exact kept
  have map_eq : secondPageMissing.map = [1, 4096, 16385] := by decide +kernel
  refine ⟨map_eq, rfl, (alloc_stays_in_map 16384 _ tiled 8 (by decide) 3 true).1.mpr ?_⟩
  rintro ⟨-, next, rest, isMap, -⟩
  rw [map_eq] at isMap
  cases isMap

/-- With the second page of a new chunk populated and the first not, `p[-1]` is read in front of the
map. -/
theorem first_page_reads_below :
    allocChecked (allocChunk 8192 (fun page => page = 1) 0) 8 (2 ^ 3) true = .error (-1) := by
  have fits : pcpuFitInArea (fun page => page = 1) 0 (clear 8193 - 0) 8 (2 ^ 3) true =
      some 4096 := by
    decide +kernel
  exact (allocChecked_cases _ 8 (2 ^ 3) true).1 ⟨rfl, 0, 8193, [], rfl, rfl, 4096, fits, by decide⟩

end

end TinyKernel.Percpu
