import TinyKernel.Mmap.Gaps

/-! Both searches leave out no gap that fits: they return an address in the first such gap on their
way, or none if there is no such gap. -/

namespace TinyKernel.Mmap

open Lib TinyKernel.Lib.Words TinyKernel.Rbtree Bin List Nat

variable {bits : Nat} {mm : Mm} {tree t : Bin (Rbtree.Info Area Nat)}

theorem le_largerGap (mm : Mm) (max : Nat) (child : Option Id) : max ≤ largerGap mm max child := by
  unfold largerGap
  cases child with
  | none => exact le_rfl
  | some child => ?_
  simp only
  split <;> omega

theorem subtreeGap_le_largerGap (mm : Mm) (max : Nat) (child : Id) :
    mm.subtreeGap child ≤ largerGap mm max (some child) := by
  simp only [largerGap]
  split <;> omega

theorem ownGap_eq (order : mm.prevEnd vma ≤ (mm.area vma).vmStart)
    (small : (mm.area vma).vmStart < 2 ^ bits) :
    ownGap bits mm vma = (mm.area vma).vmStart - mm.prevEnd vma := by
  unfold ownGap
  unfold Mm.prevEnd at order ⊢
  cases back : mm.vmPrev vma with
  | none => simp
  | some prev => ?_
  rw [back] at order
  exact minus_eq order small

/-- The gap kept with a node is at least each gap below it. -/
theorem gap_le_subtreeGap (holds : Holds mm.mmRb tree)
    (bounds : ∀ vma ∈ tree.ids, mm.prevEnd vma ≤ (mm.area vma).vmStart ∧
      (mm.area vma).vmStart < 2 ^ bits)
    (gaps : ∀ vma ∈ tree.ids, mm.subtreeGap vma = vmaComputeSubtreeGap bits mm vma)
    (path : Path (Rbtree.Info Area Nat)) {id : Id} (whole : tree = path.fill t)
    (root : t.root = some id) :
    ∀ x ∈ t.ids, (mm.area x).vmStart - mm.prevEnd x ≤ mm.subtreeGap id := by
  induction t generalizing path id with
  | nil => cases root
  | node left here info right ihLeft ihRight => ?_
  obtain rfl : here = id := Option.some.inj root
  have focus : Focus mm.mmRb path (node left here info right) := by
    rw [focus_iff_holds, ← whole]
    exact holds
  obtain ⟨_, _, onLeft, onRight, _, _⟩ := focus.here
  have inside : here ∈ tree.ids := by
    rw [whole, Path.ids_fill]
    simp [Bin.ids]
  obtain ⟨order, small⟩ := bounds here inside
  have own := ownGap_eq order small
  have kept := gaps here inside
  rw [vmaComputeSubtreeGap, onLeft, onRight] at kept
  have step := le_largerGap mm (ownGap bits mm here) left.root
  have step' := le_largerGap mm (largerGap mm (ownGap bits mm here) left.root) right.root
  intro x mem
  simp only [Bin.ids, mem_append, mem_cons] at mem
  rcases mem with inLeft | rfl | inRight
  · obtain ⟨child, rootLeft⟩ : ∃ child, left.root = some child := by
      cases left with
      | nil => cases inLeft
      | node _ child _ _ => exact ⟨child, rfl⟩
    have below := ihLeft (⟨.left, here, info, right⟩ :: path) whole rootLeft x inLeft
    have bound := subtreeGap_le_largerGap mm (ownGap bits mm here) child
    rw [rootLeft] at step' kept
    omega
  · omega
  obtain ⟨child, rootRight⟩ : ∃ child, right.root = some child := by
    cases right with
    | nil => cases inRight
    | node _ child _ _ => exact ⟨child, rfl⟩
  have below := ihRight (⟨.right, here, info, left⟩ :: path) whole rootRight x inRight
  have bound := subtreeGap_le_largerGap mm (largerGap mm (ownGap bits mm here) left.root) child
  rw [rootRight] at kept
  omega

/-- What the searches use of the index, by the tree. -/
structure Spaced (bits : Nat) (mm : Mm) (tree : Bin (Rbtree.Info Area Nat)) : Prop where
  holds : Holds mm.mmRb tree
  bounds : ∀ vma ∈ tree.ids, mm.prevEnd vma ≤ (mm.area vma).vmStart ∧
    (mm.area vma).vmStart < (mm.area vma).vmEnd ∧ (mm.area vma).vmEnd < 2 ^ bits
  ahead : tree.ids.Pairwise fun x y => mm.prevEnd x ≤ mm.prevEnd y ∧ (mm.area x).vmStart ≤
    (mm.area y).vmStart
  back : ∀ before vma after, tree.ids = before ++ vma :: after → before ≠ [] → mm.vmPrev vma ≠ none
  gaps : ∀ vma ∈ tree.ids, mm.subtreeGap vma = vmaComputeSubtreeGap bits mm vma

theorem Indexed.spaced (indexed : Indexed bits mm vmas) :
    ∃ tree, tree.ids = vmas ∧ Spaced bits mm tree := by
  obtain ⟨⟨tree, holds, rfl⟩, linked, ascending, gaps, _⟩ := indexed
  have bounds := gap_bounds linked ascending
  refine ⟨tree, rfl, holds, bounds, ?_, ?_, gaps⟩
  · refine (pairwise_ends linked ascending).imp_of_mem fun {x y} inX inY ends => ?_
    have ofX := bounds x inX
    have ofY := bounds y inY
    omega
  intro before vma after split some
  obtain ⟨first, rest, rfl⟩ := exists_cons_of_ne_nil some
  rw [split] at linked
  exact prev_of_mem_tail linked vma (by simp)

section

variable {R : Id → Id → Prop} {path : Path (Rbtree.Info Area Nat)} {id : Id}
    {info : Rbtree.Info Area Nat}
variable {near far : Bin (Rbtree.Info Area Nat)}

theorem pairwise_left (pairwise : tree.ids.Pairwise R)
    (whole : tree = path.fill (on .left id info near far)) : ∀ x ∈ near.ids, R x id := by
  rw [whole, Path.ids_fill, ids_on] at pairwise
  intro x mem
  have inner := (pairwise_append.mp (pairwise_append.mp pairwise).1).2.1
  exact (pairwise_append.mp inner).2.2 x mem id (by simp)

theorem pairwise_right (pairwise : tree.ids.Pairwise R)
    (whole : tree = path.fill (on .right id info near far)) : ∀ x ∈ near.ids, R id x := by
  rw [whole, Path.ids_fill, ids_on] at pairwise
  intro x mem
  have inner := (pairwise_append.mp (pairwise_append.mp pairwise).1).2.1
  exact (pairwise_cons.mp (pairwise_append.mp inner).2.1).1 x mem

end

variable {gap : Nat × Nat}

section

variable {length lowLimit highLimit gapStart gapEnd : Nat}

theorem found_iff {stops fits : Prop} [Decidable stops] [Decidable fits] :
    (if stops then Verdict.stop else if fits then .found here else .pass) = .found gap ↔
      gap = here ∧ ¬stops ∧ fits := by
  split_ifs <;> simp [*, eq_comm]

theorem currentUp_found (order : gapStart ≤ gapEnd) (small : gapEnd < 2 ^ bits) :
    currentUp bits length lowLimit highLimit gapStart gapEnd = .found gap ↔
      gap = (gapStart, gapEnd) ∧ Suits length lowLimit highLimit gap := by
  rw [currentUp, minus_eq order small, found_iff, not_lt]
  constructor <;> (rintro ⟨rfl, suits⟩; exact ⟨rfl, suits⟩)

theorem currentDown_found (order : gapStart ≤ gapEnd) (small : gapEnd < 2 ^ bits) :
    currentDown bits length lowLimit highLimit gapStart gapEnd = .found gap ↔
      gap = (gapStart, gapEnd) ∧ Suits length lowLimit highLimit gap := by
  rw [currentDown, minus_eq order small, found_iff, not_lt, and_left_comm (a := lowLimit ≤ gapEnd)]
  constructor <;> (rintro ⟨rfl, suits⟩; exact ⟨rfl, suits⟩)

end

section

variable (bits : Nat) (mm : Mm) (length lowLimit highLimit : Nat)

def verdictUp (vma : Id) : Verdict (Nat × Nat) :=
  currentUp bits length lowLimit highLimit (mm.prevEnd vma) (mm.area vma).vmStart

def verdictDown (vma : Id) : Verdict (Nat × Nat) :=
  currentDown bits length lowLimit highLimit (mm.prevEnd vma) (mm.area vma).vmStart

variable {bits mm length lowLimit highLimit}

section

variable (spaced : Spaced bits mm tree) {vma : Id} (mem : vma ∈ tree.ids)
include spaced mem

theorem Spaced.verdictUp_found :
    verdictUp bits mm length lowLimit highLimit vma = .found gap ↔
      gap = gapOf mm vma ∧ Suits length lowLimit highLimit gap := by
  obtain ⟨order, proper, small⟩ := spaced.bounds vma mem
  exact currentUp_found order (by omega)

theorem Spaced.verdictDown_found :
    verdictDown bits mm length lowLimit highLimit vma = .found gap ↔
      gap = gapOf mm vma ∧ Suits length lowLimit highLimit gap := by
  obtain ⟨order, proper, small⟩ := spaced.bounds vma mem
  exact currentDown_found order (by omega)

theorem Spaced.verdictUp_empty :
    (verdictUp bits mm length lowLimit highLimit vma).Empty ↔
      ¬Suits length lowLimit highLimit (gapOf mm vma) :=
  Verdict.empty_iff fun _ => spaced.verdictUp_found mem

theorem Spaced.verdictDown_empty :
    (verdictDown bits mm length lowLimit highLimit vma).Empty ↔
      ¬Suits length lowLimit highLimit (gapOf mm vma) :=
  Verdict.empty_iff fun _ => spaced.verdictDown_found mem

end

section

variable (spaced : Spaced bits mm tree)
include spaced

/-- No gap in a subtree that does not look promising is long enough. -/
theorem Spaced.unpromising {path : Path (Rbtree.Info Area Nat)} {id : Id}
    (whole : tree = path.fill t) (root : t.root = some id) (short : mm.subtreeGap id < length) :
    ∀ x ∈ t.ids, ¬Suits length lowLimit highLimit (gapOf mm x) := by
  intro x mem suits
  have bound := gap_le_subtreeGap spaced.holds
    (fun vma inside => ⟨(spaced.bounds vma inside).1, by have := spaced.bounds vma inside; omega⟩)
    spaced.gaps path whole root x mem
  have long : length ≤ (mm.area x).vmStart - mm.prevEnd x := suits.2.2
  omega

omit spaced in
theorem mem_of_whole {path : Path (Rbtree.Info Area Nat)} (whole : tree = path.fill t) {x : Id}
    (mem : x ∈ t.ids) : x ∈ tree.ids := by
  rw [whole, Path.ids_fill]
  simp [mem]

theorem Spaced.soundUp (length lowLimit highLimit : Nat) :
    (guideUp bits mm length lowLimit highLimit).Sound (verdictUp bits mm length lowLimit highLimit)
      tree where
  check path id info near far whole := by
    refine ⟨rfl, fun left => ?_⟩
    have here : mm.vmPrev id ≠ none := by
      refine spaced.back (path.before ++ near.ids) id (far.ids ++ path.after) ?_ ?_
      · rw [whole, Path.ids_fill]
        change _ ++ (on .left id info near far).ids ++ _ = _
        rw [ids_on]
        simp
      intro empty
      cases near with
      | nil => exact left rfl
      | node l x i r => simp [Bin.ids] at empty
    obtain ⟨prev, back⟩ := Option.ne_none_iff_exists'.mp here
    change checkUp bits mm length lowLimit highLimit true id = _
    simp only [checkUp, if_true, Mm.derefPrevEnd, back, verdictUp, Mm.prevEnd]
    rfl
  enter path id info near far whole unlikely := by
    intro x mem
    have inside : x ∈ tree.ids := mem_of_whole whole (by simp [mem])
    rw [spaced.verdictUp_empty inside]
    rintro ⟨_, stop, _⟩
    have earlier := pairwise_left spaced.ahead whole x mem
    have low : ¬lowLimit ≤ (mm.area id).vmStart := of_decide_eq_false unlikely
    have stop' : lowLimit ≤ (mm.area x).vmStart := stop
    omega
  promising path t id whole root unlikely := by
    intro x mem
    rw [spaced.verdictUp_empty (mem_of_whole whole mem)]
    have short : ¬length ≤ mm.subtreeGap id := of_decide_eq_false unlikely
    exact spaced.unpromising whole root (not_le.mp short) x mem
  stop before id after split stopped := by
    have split' : tree.ids = before ++ id :: after := split
    have pairwise := spaced.ahead
    rw [split'] at pairwise
    have later := (pairwise_cons.mp (pairwise_append.mp pairwise).2.1).1
    have high : highLimit < mm.prevEnd id := by
      unfold verdictUp currentUp at stopped
      split at stopped
      · assumption
      split at stopped <;> cases stopped
    intro x mem
    rw [spaced.verdictUp_empty (by rw [split']; exact mem_append_right _ mem)]
    rintro ⟨start, _, _⟩
    have start' : mm.prevEnd x ≤ highLimit := start
    rcases mem_cons.mp mem with rfl | mem
    · omega
    have := later x mem
    omega

theorem Spaced.soundDown (length lowLimit highLimit : Nat) :
    (guideDown bits mm length lowLimit highLimit).Sound
      (verdictDown bits mm length lowLimit highLimit) tree where
  check path id info near far whole := ⟨rfl, fun _ => rfl⟩
  enter path id info near far whole unlikely := by
    intro x mem
    have inside : x ∈ tree.ids := mem_of_whole whole (by simp [mem])
    rw [spaced.verdictDown_empty inside]
    rintro ⟨start, _, _⟩
    have later := pairwise_right spaced.ahead whole x mem
    have high : ¬mm.prevEnd id ≤ highLimit := of_decide_eq_false unlikely
    have start' : mm.prevEnd x ≤ highLimit := start
    omega
  promising path t id whole root unlikely := by
    intro x mem
    rw [spaced.verdictDown_empty (mem_of_whole whole mem)]
    have short : ¬length ≤ mm.subtreeGap id := of_decide_eq_false unlikely
    exact spaced.unpromising whole root (not_le.mp short) x mem
  stop before id after split stopped := by
    have split' : tree.ids.reverse = before ++ id :: after := split
    have pairwise := pairwise_reverse.mpr spaced.ahead
    rw [split'] at pairwise
    have earlier := (pairwise_cons.mp (pairwise_append.mp pairwise).2.1).1
    have low : (mm.area id).vmStart < lowLimit := by
      unfold verdictDown currentDown at stopped
      split at stopped
      · assumption
      split at stopped <;> cases stopped
    intro x mem
    have inside : x ∈ tree.ids := by
      rw [← mem_reverse, split']
      exact mem_append_right _ mem
    rw [spaced.verdictDown_empty inside]
    rintro ⟨_, stop, _⟩
    have stop' : lowLimit ≤ (mm.area x).vmStart := stop
    rcases mem_cons.mp mem with rfl | mem
    · omega
    have := earlier x mem
    omega

theorem searchTree_spec (sound : guide.Sound verdict tree) (enough : 2 * tree.ids.length < rounds) :
    ∃ ending, searchTree mm guide rounds = .ok ending ∧
      Finds verdict (tree.order guide.side) ending := by
  have around : mm.mmRb.root = tree.root := spaced.holds.around
  unfold searchTree
  rw [around]
  cases root : tree.root with
  | none =>
    rw [eq_nil_of_root root, order_nil]
    exact ⟨.ended, rfl, forall_mem_nil _⟩
  | some vma => ?_
  simp only
  split
  · have walks : ∃ ending, guide.walk mm.mmRb Fault.endless rounds rounds .above vma = .ok ending ∧
        Finds verdict (tree.order guide.side ++ Path.rest guide.side []) ending :=
      (walk_spec sound (by omega) rounds).1 [] tree vma rfl spaced.holds root
        (by simpa [Path.weight] using enough)
    simpa [Path.rest] using walks
  rename_i unlikely
  refine ⟨.ended, rfl, fun x mem => ?_⟩
  exact sound.promising [] tree vma rfl root (by simpa using unlikely) x (mem_order.mp mem)

end

end

section

variable {vmas : List Id} {info : UnmappedAreaInfo} {rounds : Nat}

/-- What lies within a gap is not mapped. -/
theorem Within.serves (ascending : Ascending bits 0 areas) (isGap : gap ∈ gaps bits 0 areas)
    (within : Within info gap a) : Serves info areas a := by
  refine ⟨within.aligned, within.low, within.high, fun area mem => ?_⟩
  have start := within.start
  have stop := within.stop
  rcases gap_unmapped ascending gap isGap area mem with below | above
  · exact .inl (by omega)
  exact .inr (by omega)

/-- The answer of a search: an address in a gap that fits, none of some others fitting. -/
def Answers (bits : Nat) (info : UnmappedAreaInfo) (areas : List Area)
    (skip : List (Nat × Nat) → List (Nat × Nat) → List (Nat × Nat)) : Option Nat → Prop
  | none => ∀ gap ∈ gaps bits 0 areas, ¬Fits info gap
  | some a => Serves info areas a ∧ ∃ below gap above, gaps bits 0 areas = below ++ gap :: above ∧
      Fits info gap ∧ (∀ other ∈ skip below above, ¬Fits info other) ∧
      gap.1 ≤ a ∧ a + info.length ≤ gap.2

theorem Within.answers (ascending : Ascending bits 0 areas)
    (split : gaps bits 0 areas = below ++ gap :: above) (fits : Fits info gap)
    (others : ∀ other ∈ skip below above, ¬Fits info other) (within : Within info gap a) :
    Answers bits info areas skip (some a) :=
  ⟨within.serves ascending (by rw [split]; simp), below, gap, above, split, fits, others,
    within.start, within.stop⟩

/-- What the end of the last VMA is for the index. -/
theorem gaps_of_indexed (indexed : Indexed bits mm vmas) :
    gaps bits 0 (vmas.map mm.area) = vmas.map (gapOf mm) ++ [(mm.highestVmEnd, 2 ^ bits)] := by
  rw [indexed.highest]
  exact gaps_eq indexed.linked

theorem prevEnd_le_highest (indexed : Indexed bits mm vmas) (mem : vma ∈ vmas) :
    mm.prevEnd vma ≤ mm.highestVmEnd := by
  have bounds := gap_bounds indexed.linked indexed.ascending vma mem
  have last := (le_lastEnd indexed.ascending).2 vma mem
  rw [indexed.highest]
  omega

section

variable (room : info.lowLimit + (info.length + info.alignMask) ≤ info.highLimit)
    (pos : 0 < info.length)
include room pos

theorem none_fits {nodes : List Id}
    (unsuited : ∀ x ∈ nodes, ¬Suits (info.length + info.alignMask)
      (info.lowLimit + (info.length + info.alignMask))
      (info.highLimit - (info.length + info.alignMask)) (gapOf mm x)) :
    ∀ gap ∈ nodes.map (gapOf mm), ¬Fits info gap := by
  intro gap mem
  obtain ⟨x, inside, rfl⟩ := mem_map.mp mem
  rw [← suits_iff_fits room pos]
  exact unsuited x inside

omit pos in
theorem last_unfit {last top : Nat}
    (full : info.highLimit - (info.length + info.alignMask) < last) : ¬Fits info (last, top) := by
  rintro ⟨a, start, _, _, high⟩
  omega

theorem fits_last (free : last ≤ info.highLimit - (info.length + info.alignMask))
    (high : info.highLimit ≤ top) : Fits info (last, top) :=
  (suits_iff_fits room pos _).mp ⟨free, by change _ ≤ top; omega, by change _ ≤ top - last; omega⟩

/-- Without a gap between VMAs the one after the last decides. -/
theorem none_fits_at_all (indexed : Indexed bits mm vmas)
    (unsuited : ∀ x ∈ vmas, ¬Suits (info.length + info.alignMask)
      (info.lowLimit + (info.length + info.alignMask))
      (info.highLimit - (info.length + info.alignMask)) (gapOf mm x))
    (full : info.highLimit - (info.length + info.alignMask) < mm.highestVmEnd) :
    ∀ gap ∈ gaps bits 0 (vmas.map mm.area), ¬Fits info gap := by
  intro gap mem
  rw [gaps_of_indexed indexed] at mem
  rcases mem_append.mp mem with between | last
  · exact none_fits room pos unsuited gap between
  rw [mem_singleton.mp last]
  exact last_unfit room full

end

section

variable (indexed : Indexed bits mm vmas) (valid : info.Valid bits)
    (enough : 2 * vmas.length < rounds)
include indexed valid enough

theorem unmappedArea_answers :
    ∃ result, unmappedArea bits rounds mm info = .ok result ∧
      Answers bits info (vmas.map mm.area) (fun below _ => below) result := by
  obtain ⟨tree, rfl, spaced⟩ := indexed.spaced
  have ascending := indexed.ascending
  have small := valid.highLimit
  unfold unmappedArea
  rcases adjust_cases valid with ⟨adjusted, nothing⟩ | ⟨adjusted, room⟩
  · rw [adjusted]
    exact ⟨none, rfl, fun gap _ => nothing gap⟩
  obtain ⟨ending, ran, finds⟩ := searchTree_spec spaced (spaced.soundUp _ _ _) enough
  simp only [adjusted, bind, Except.bind]
  rw [ran]
  cases ending with
  | stopped =>
    obtain ⟨empty, x, mem, stop⟩ := finds
    have high : info.highLimit - (info.length + info.alignMask) < mm.prevEnd x := by
      unfold verdictUp currentUp at stop
      split at stop
      · assumption
      split at stop <;> cases stop
    refine ⟨none, rfl, none_fits_at_all room valid.positive indexed (fun y inside => ?_)
      (lt_of_lt_of_le high (prevEnd_le_highest indexed mem))⟩
    exact (spaced.verdictUp_empty inside).mp (empty y inside)
  | ended =>
    have unsuited := fun y inside => (spaced.verdictUp_empty inside).mp (finds y inside)
    by_cases full : info.highLimit - (info.length + info.alignMask) < mm.highestVmEnd
    · simp only [if_pos full]
      exact ⟨none, rfl, none_fits_at_all room valid.positive indexed unsuited full⟩
    simp only [if_neg full]
    have fits (top : Nat) (high : info.highLimit ≤ top) : Fits info (mm.highestVmEnd, top) :=
      fits_last room valid.positive (not_lt.mp full) high
    obtain ⟨a, result, within⟩ := lowestIn_spec valid (fits (2 ^ bits - 1) (by omega))
    have wider : Within info (mm.highestVmEnd, 2 ^ bits) a :=
      ⟨within.aligned, within.low, within.high, within.start,
        Nat.le_trans within.stop (Nat.sub_le ..)⟩
    exact ⟨some a, result, wider.answers ascending (gaps_of_indexed indexed) (fits _ (by omega))
      (none_fits room valid.positive unsuited)⟩
  | found gap => ?_
  obtain ⟨before, x, after, split, empty, found⟩ := finds
  have split' : tree.ids = before ++ x :: after := split
  have inside (y : Id) (mem : y ∈ before) : y ∈ tree.ids := by simp [split', mem]
  obtain ⟨rfl, suits⟩ := (spaced.verdictUp_found (by simp [split'])).mp found
  have fits := (suits_iff_fits room valid.positive _).mp suits
  obtain ⟨a, result, within⟩ := lowestIn_spec valid fits
  have around : gaps bits 0 (tree.ids.map mm.area) = before.map (gapOf mm) ++ gapOf mm x ::
      (after.map (gapOf mm) ++ [(mm.highestVmEnd, 2 ^ bits)]) := by
    rw [gaps_of_indexed indexed, split']
    simp
  refine ⟨some a, result,
    within.answers ascending around fits (none_fits room valid.positive fun y mem => ?_)⟩
  exact (spaced.verdictUp_empty (inside y mem)).mp (empty y mem)

theorem unmappedAreaTopdown_answers :
    ∃ result, unmappedAreaTopdown bits rounds mm info = .ok result ∧
      Answers bits info (vmas.map mm.area) (fun _ above => above) result := by
  obtain ⟨tree, rfl, spaced⟩ := indexed.spaced
  have ascending := indexed.ascending
  have small := valid.highLimit
  unfold unmappedAreaTopdown
  rcases adjust_cases valid with ⟨adjusted, nothing⟩ | ⟨adjusted, room⟩
  · rw [adjusted]
    exact ⟨none, rfl, fun gap _ => nothing gap⟩
  simp only [adjusted]
  by_cases free : mm.highestVmEnd ≤ info.highLimit - (info.length + info.alignMask)
  · simp only [if_pos free]
    have fits (top : Nat) (high : info.highLimit ≤ top) : Fits info (mm.highestVmEnd, top) :=
      fits_last room valid.positive free high
    obtain ⟨a, result, within⟩ := highestIn_spec valid (le_rfl) (fits _ (le_rfl))
    have wider : Within info (mm.highestVmEnd, 2 ^ bits) a :=
      ⟨within.aligned, within.low, within.high, within.start, le_trans within.stop (le_of_lt small)⟩
    exact ⟨some a, result,
      wider.answers ascending (gaps_of_indexed indexed) (fits _ (by omega)) (forall_mem_nil _)⟩
  have full := Nat.lt_of_not_le free
  obtain ⟨ending, ran, finds⟩ := searchTree_spec spaced (spaced.soundDown _ _ _) enough
  simp only [if_neg free, bind, Except.bind]
  rw [ran]
  have nowhere (empty : ∀ x ∈ tree.order .right, (verdictDown bits mm _ _ _ x).Empty) :
      Answers bits info (tree.ids.map mm.area) (fun _ above => above) none :=
    none_fits_at_all room valid.positive indexed
      (fun y inside => (spaced.verdictDown_empty inside).mp (empty y (mem_order.mpr inside))) full
  cases ending with
  | stopped => exact ⟨none, rfl, nowhere finds.1⟩
  | ended => exact ⟨none, rfl, nowhere finds⟩
  | found gap => ?_
  obtain ⟨before, x, after, split, empty, found⟩ := finds
  have split' : tree.ids = after.reverse ++ x :: before.reverse := by
    have reversed : tree.ids.reverse = before ++ x :: after := split
    rw [← reverse_reverse tree.ids, reversed]
    simp
  obtain ⟨rfl, suits⟩ := (spaced.verdictDown_found (by simp [split'])).mp found
  have fits := (suits_iff_fits room valid.positive _).mp suits
  obtain ⟨b, start, stop, low, high⟩ := fits
  have clipped : ∃ top,
      (if info.highLimit < (gapOf mm x).2 then info.highLimit else (gapOf mm x).2) = top ∧
        top ≤ info.highLimit ∧ top ≤ (gapOf mm x).2 ∧ b + (info.length + info.alignMask) ≤ top := by
    split
    · exact ⟨_, rfl, le_rfl, by omega, high⟩
    exact ⟨_, rfl, by omega, le_rfl, stop⟩
  obtain ⟨top, clip, belowHigh, belowEnd, above⟩ := clipped
  obtain ⟨a, result, within⟩ := highestIn_spec valid belowHigh ⟨b, start, above, low, high⟩
  have wider : Within info (gapOf mm x) a :=
    ⟨within.aligned, within.low, within.high, within.start, le_trans within.stop belowEnd⟩
  have around : gaps bits 0 (tree.ids.map mm.area) = after.reverse.map (gapOf mm) ++ gapOf mm x ::
      (before.reverse.map (gapOf mm) ++ [(mm.highestVmEnd, 2 ^ bits)]) := by
    rw [gaps_of_indexed indexed, split']
    simp
  refine ⟨some a, by rw [← clip] at result; exact result,
    wider.answers ascending around ⟨b, start, stop, low, high⟩ fun other mem => ?_⟩
  rcases mem_append.mp mem with later | last
  · refine none_fits room valid.positive (fun y inside => ?_) other later
    have inside' : y ∈ before := mem_reverse.mp inside
    exact (spaced.verdictDown_empty (by simp [split', inside'])).mp (empty y inside')
  rw [mem_singleton.mp last]
  exact last_unfit room full

end

/-- Whether an address is returned, and where it lies. -/
theorem Answers.iff (answers : Answers bits info areas skip result) :
    result = none ↔ ∀ gap ∈ gaps bits 0 areas, ¬Fits info gap := by
  cases result with
  | none => exact ⟨fun _ => answers, fun _ => rfl⟩
  | some a => ?_
  obtain ⟨_, below, gap, above, split, fits, _⟩ := answers
  refine ⟨fun none => (by cases none), fun nothing => absurd fits (nothing gap ?_)⟩
  rw [split]
  simp

/-- Both searches return an aligned, unmapped address within the limits, in the lowest and in the
highest gap with room for the length and its alignment, and `-ENOMEM` exactly if there is no such
gap. -/
theorem unmapped_area_searches_agree (bits : Nat) (mm : Mm) (vmas : List Id)
    (indexed : Indexed bits mm vmas) (info : UnmappedAreaInfo) (valid : info.Valid bits)
    (rounds : Nat) (enough : 2 * vmas.length < rounds) :
    ∃ low high, unmappedArea bits rounds mm info = .ok low ∧
      unmappedAreaTopdown bits rounds mm info = .ok high ∧
      (low = none ↔ ∀ gap ∈ gaps bits 0 (vmas.map mm.area), ¬Fits info gap) ∧
      (∀ a, low = some a →
        Serves info (vmas.map mm.area) a ∧
          ∃ below gap above, gaps bits 0 (vmas.map mm.area) = below ++ gap :: above ∧
            Fits info gap ∧ (∀ other ∈ below, ¬Fits info other) ∧ gap.1 ≤ a ∧
            a + info.length ≤ gap.2) ∧
      (∀ a, high = some a →
        Serves info (vmas.map mm.area) a ∧
          ∃ below gap above, gaps bits 0 (vmas.map mm.area) = below ++ gap :: above ∧
            Fits info gap ∧ (∀ other ∈ above, ¬Fits info other) ∧ gap.1 ≤ a ∧
            a + info.length ≤ gap.2) ∧ (low = none ↔ high = none) := by
  obtain ⟨low, ran, answers⟩ := unmappedArea_answers indexed valid enough
  obtain ⟨high, ran', answers'⟩ := unmappedAreaTopdown_answers indexed valid enough
  refine ⟨low, high, ran, ran', answers.iff, ?_, ?_, answers.iff.trans answers'.iff.symm⟩
  · rintro a rfl
    exact answers
  rintro a rfl
  exact answers'

/-- Two VMAs with a gap of two pages between them. -/
def twoVmas : Mm where
  mmRb := {
    root := some 2
    info := fun id => if id = 1 then ⟨.red, ⟨4096, 8192⟩, 4096⟩ else ⟨.black, ⟨16384, 20480⟩, 8192⟩
    parent := fun id => if id = 1 then some 2 else none
    child := fun side id => if side = .left ∧ id = 2 then some 1 else none }
  mmap := some 1
  vmNext id := if id = 1 then some 2 else none
  vmPrev id := if id = 2 then some 1 else none
  highestVmEnd := 20480

theorem twoVmas_indexed : Indexed 64 twoVmas [1, 2] where
  tree := by
    refine ⟨node (node .nil 1 ⟨.red, ⟨4096, 8192⟩, 4096⟩ .nil) 2 ⟨.black, ⟨16384, 20480⟩, 8192⟩
        .nil, ?_, rfl⟩
    refine ⟨rfl, ?_, by decide⟩
    simp [Bin.Rep, twoVmas, Bin.root, Path.above]
  linked := by simp [Linked, twoVmas]
  ascending := by simp [Ascending, twoVmas, Mm.area]
  gaps := by decide +kernel
  highest := rfl

theorem unmapped_area_searches_agree_two :
    ∃ low high, unmappedArea 64 5 twoVmas ⟨4096, 4096, 32768, 4095, 0⟩ = .ok low ∧
      unmappedAreaTopdown 64 5 twoVmas ⟨4096, 4096, 32768, 4095, 0⟩ = .ok high ∧
      (low = none ↔ high = none) := by
  obtain ⟨low, high, ran, ran', _, _, _, agree⟩ :=
    unmapped_area_searches_agree 64 twoVmas [1, 2] twoVmas_indexed ⟨4096, 4096, 32768, 4095, 0⟩
      ⟨by decide, by decide, by decide, by decide, by decide, by decide, 12, rfl⟩ 5 (by decide)
  exact ⟨low, high, ran, ran', agree⟩

end

end TinyKernel.Mmap
