import Mathlib.Algebra.Order.Ring.Nat
import Mathlib.Data.Nat.Bitwise
import Mathlib.Tactic.Ring

/-! The iterator of `include/linux/radix-tree.h` and `radix_tree_next_chunk`, for 64-bit longs and
64 slots a node. A pointer is an address, and 0 is `NULL`. From an index on, `radix_tree_next_chunk`
finds the first slot there is, and a retry is right where it gets that far. -/

namespace TinyKernel.RadixTree

structure Iter where
  index : Nat
  nextIndex : Nat
  tags : Nat
  deriving DecidableEq

/-- The `RADIX_TREE_ITER_` flags and the tag index. -/
structure Flags where
  tagged : Bool
  contig : Bool
  tag : Nat

/-- The address of `rnode`, and what the nodes hold; a node is named by the address of its slots. -/
structure Tree where
  root : Nat
  rootTag : Nat → Bool
  load : Nat → Nat
  height : Nat → Nat
  tags : Nat → Nat → Nat

def iterRetry (iter : Iter) : Nat × Iter := (0, { iter with nextIndex := iter.index })

def chunkSize (iter : Iter) : Int := (iter.nextIndex - iter.index : Int).bmod (2 ^ 64)

def ffs (tags : Nat) : Nat := ((List.range 64).find? tags.testBit).getD 0

def Iter.advance (iter : Iter) (count : Nat) : Iter :=
  { iter with index := (iter.index + count) % 2 ^ 64 }

variable (tree : Tree) (flags : Flags)

/-- The `while` loop of `radix_tree_next_slot`. -/
def nextSlotFrom : Nat → Nat → Iter → Nat × Iter
  | 0, _, iter => (0, iter)
  | size + 1, slot, iter =>
    if tree.load (slot + 8) ≠ 0 then (slot + 8, iter.advance 1)
    else if flags.contig then (0, { iter.advance 1 with nextIndex := 0 })
    else nextSlotFrom size (slot + 8) (iter.advance 1)

def nextSlot (slot : Nat) (iter : Iter) : Nat × Iter :=
  if flags.tagged then
    let tags := iter.tags >>> 1
    if tags.testBit 0 then (slot + 8, { iter.advance 1 with tags })
    else if !flags.contig ∧ tags ≠ 0 then
      (slot + 8 * (ffs tags + 1), { iter.advance (ffs tags + 1) with tags := tags >>> ffs tags })
    else (0, { iter with tags })
  else nextSlotFrom tree flags (chunkSize iter - 1).toNat slot iter

def hole (node offset : Nat) : Bool :=
  if flags.tagged then !(tree.tags node flags.tag).testBit offset
  else tree.load (node + 8 * offset) == 0

/-- The next offset that is not a hole, or `RADIX_TREE_MAP_SIZE`. -/
def skip (node offset : Nat) : Nat :=
  ((List.range' (offset + 1) (63 - offset)).find? (!hole tree flags node ·)).getD 64

/-- The descent at a node, or at `restart`. -/
def descend (rnode : Nat) (iter : Iter) : Nat → Nat → Option (Nat × Nat) → Option (Nat × Iter)
  | 0, _, _ => none
  | fuel + 1, index, none =>
    let shift := (tree.height rnode - 1) * 6
    if 64 ≤ index >>> shift then some (0, iter)
    else descend rnode iter fuel index (some (rnode, shift))
  | fuel + 1, index, some (node, shift) =>
    let start := (index >>> shift) % 64
    let empty := hole tree flags node start
    let offset := if empty then skip tree flags node start else start
    let index := if empty then
      ((index >>> (shift + 6)) <<< (shift + 6) + offset <<< shift) % 2 ^ 64 else index
    let slot := node + 8 * offset
    if empty ∧ (flags.contig ∨ index = 0) then some (0, iter)
    else if offset = 64 then descend rnode iter fuel index none
    else if shift = 0 then
      some (slot, ⟨index, ((index ||| 63) + 1) % 2 ^ 64,
        if flags.tagged then tree.tags node flags.tag >>> offset else iter.tags⟩)
    else if tree.load slot = 0 then descend rnode iter fuel index none
    else descend rnode iter fuel index (some (tree.load slot, shift - 6))

/-- What `radix_tree_next_chunk` does once it has its `index`. -/
def lookup (fuel : Nat) (iter : Iter) (index : Nat) : Option (Nat × Iter) :=
  let rnode := tree.load tree.root
  if rnode % 2 = 1 then descend tree flags (rnode - 1) iter fuel index none
  else if rnode ≠ 0 ∧ index = 0 then some (tree.root, ⟨0, 1, 1⟩)
  else some (0, iter)

def nextChunk (fuel : Nat) (iter : Iter) : Option (Nat × Iter) :=
  if flags.tagged ∧ !tree.rootTag flags.tag then some (0, iter)
  else if iter.nextIndex = 0 ∧ iter.index ≠ 0 then some (0, iter)
  else lookup tree flags fuel iter iter.nextIndex

/-- What the body gets after `continue`. -/
def next (fuel : Nat) (current : Nat × Iter) : Option (Nat × Iter) :=
  let (slot, iter) := nextSlot tree flags current.1 current.2
  if slot ≠ 0 then some (slot, iter) else nextChunk tree flags fuel iter

/-- The slot of an index below a node, if there is no hole on the way to it. -/
def slotBelow : Nat → Nat → Nat → Option Nat
  | 0, node, index =>
    if hole tree flags node (index % 64) then none else some (node + 8 * (index % 64))
  | level + 1, node, index =>
    let offset := index / 64 ^ (level + 1) % 64
    if hole tree flags node offset then none
    else slotBelow level (tree.load (node + 8 * offset)) index

/-- What the tree has at an index, or has with the tag. -/
def slotOf (index : Nat) : Option Nat :=
  let rnode := tree.load tree.root
  if flags.tagged ∧ !tree.rootTag flags.tag then none
  else if rnode % 2 = 1 then
    if index < 64 ^ tree.height (rnode - 1) then
      slotBelow tree flags (tree.height (rnode - 1) - 1) (rnode - 1) index
    else none
  else if rnode ≠ 0 ∧ index = 0 then some tree.root
  else none

/-- A search from an index has found the slot of the first index that has one, or `NULL` if none
has. -/
def First (index : Nat) (found : Nat × Iter) : Prop :=
  if found.1 = 0 then ∀ j, index ≤ j → slotOf tree flags j = none
  else slotOf tree flags found.2.index = some found.1 ∧ index ≤ found.2.index ∧
    ∀ j, index ≤ j → j < found.2.index → slotOf tree flags j = none

/-- Below what is no hole there is a node, and no leaf is near address 0. -/
def Linked : Nat → Nat → Prop
  | 0, node => 512 < node
  | level + 1, node => ∀ offset < 64, hole tree flags node offset = false →
    tree.load (node + 8 * offset) ≠ 0 ∧ Linked level (tree.load (node + 8 * offset))

/-- The root of a tree of the greatest height has slots for the indices of a `long` only. -/
structure WellFormed : Prop where
  root : 512 < tree.root
  height : tree.load tree.root % 2 = 1 →
    0 < tree.height (tree.load tree.root - 1) ∧ tree.height (tree.load tree.root - 1) ≤ 11
  linked : tree.load tree.root % 2 = 1 →
    Linked tree flags (tree.height (tree.load tree.root - 1) - 1) (tree.load tree.root - 1)
  top : tree.load tree.root % 2 = 1 → tree.height (tree.load tree.root - 1) = 11 → ∀ offset < 64,
    hole tree flags (tree.load tree.root - 1) offset = false → offset < 16

variable {tree flags} {iter : Iter}

theorem slotBelow_hole (empty : hole tree flags node (index / 64 ^ level % 64) = true) :
    slotBelow tree flags level node index = none := by
  cases level with
  | zero => simpa [slotBelow] using empty
  | succ level => simp [slotBelow, empty]

theorem skip_spec (tree : Tree) (flags : Flags) (node : Nat) (start : offset < 64) :
    (∀ k, offset < k → k < skip tree flags node offset → hole tree flags node k = true) ∧
      (skip tree flags node offset = 64 ∨
        offset < skip tree flags node offset ∧ skip tree flags node offset < 64 ∧
          hole tree flags node (skip tree flags node offset) = false) := by
  rw [skip]
  cases found : (List.range' (offset + 1) (63 - offset)).find? (!hole tree flags node ·) with
  | none =>
    rw [List.find?_eq_none] at found
    refine ⟨fun k above below => ?_, .inl rfl⟩
    simpa using found k (by simp only [Option.getD_none] at below; simp; omega)
  | some next => ?_
  obtain ⟨present, member, before⟩ := List.find?_range'_eq_some.mp found
  rw [List.mem_range'_1] at member
  refine ⟨fun k above below => by simpa using before k above below, .inr ⟨?_, ?_, ?_⟩⟩
  · exact member.1
  · simp only [Option.getD_some]
    omega
  simpa using present

section

variable {rnode : Nat}

/-- How a descent from a node at a level ends, whatever fuel is left: with the first slot from the
index on, or behind indices that have none, where it starts over from the root or has passed the
last index. -/
def Descends (tree : Tree) (flags : Flags) (rnode : Nat) (iter : Iter) (level node index : Nat) :
    Prop :=
  (∃ slot iter', slot ≠ 0 ∧ index ≤ iter'.index ∧
      iter'.index / 64 ^ (level + 1) = index / 64 ^ (level + 1) ∧
      slotBelow tree flags level node iter'.index = some slot ∧
      (∀ j, index ≤ j → j < iter'.index → slotBelow tree flags level node j = none) ∧
      ∀ fuel, descend tree flags rnode iter (fuel + level + 1) index (some (node, 6 * level)) =
        some (slot, iter')) ∨
    ∃ last, index < last ∧ last ≤ (index / 64 ^ (level + 1) + 1) * 64 ^ (level + 1) ∧
      (∀ j, index ≤ j → j < last → slotBelow tree flags level node j = none) ∧
      ((2 ^ 64 ≤ last ∧ ∀ fuel, descend tree flags rnode iter (fuel + level + 1) index
          (some (node, 6 * level)) = some (0, iter)) ∨
        (last < 2 ^ 64 ∧ ∃ rest, ∀ fuel, descend tree flags rnode iter (fuel + level + 1) index
          (some (node, 6 * level)) = descend tree flags rnode iter (fuel + rest) last none))

variable {level node index e : Nat}

theorem slotBelow_succ (present : hole tree flags node (index / 64 ^ (level + 1) % 64) = false)
    (same : j / 64 ^ (level + 1) = index / 64 ^ (level + 1)) :
    slotBelow tree flags (level + 1) node j =
      slotBelow tree flags level (tree.load (node + 8 * (index / 64 ^ (level + 1) % 64))) j := by
  simp [slotBelow, same, present]

theorem div_eq_of_between {w : Nat} (low : index ≤ j) (high : j < (index / w + 1) * w) :
    j / w = index / w :=
  Nat.div_eq_of_lt_le ((Nat.div_mul_le_self index w).trans low) high

theorem block_mono (level : Nat) :
    (index / 64 ^ (level + 1) + 1) * 64 ^ (level + 1) ≤
      (index / 64 ^ (level + 2) + 1) * 64 ^ (level + 2) := by
  rw
    [pow_succ 64 (level + 1), ← Nat.div_div_eq_div_mul, mul_comm (64 ^ (level + 1)) 64, ← mul_assoc]
  exact Nat.mul_le_mul_right _ (by omega)

/-- The blocks below the root of the highest tree divide the indices evenly. -/
theorem block_le (low : level ≤ 9) (word : index < 2 ^ 64) :
    (index / 64 ^ (level + 1) + 1) * 64 ^ (level + 1) ≤ 2 ^ 64 := by
  obtain ⟨m, whole⟩ : 64 ^ (level + 1) ∣ 2 ^ 64 := by
    rw [show 64 = 2 ^ 6 from rfl, ← pow_mul]
    exact Nat.pow_dvd_pow 2 (by omega)
  rw [whole] at word ⊢
  rw [mul_comm]
  exact Nat.mul_le_mul_left _ (Nat.div_lt_of_lt_mul word)

/-- Going on at a later index of the same node passes nothing. -/
theorem Descends.of_later (le : index ≤ e) (same : e / 64 ^ (level + 1) = index / 64 ^ (level + 1))
    (gap : ∀ j, index ≤ j → j < e → slotBelow tree flags level node j = none)
    (goes : ∀ fuel, descend tree flags rnode iter (fuel + level + 1) index
        (some (node, 6 * level)) =
      descend tree flags rnode iter (fuel + level + 1) e (some (node, 6 * level)))
    (later : Descends tree flags rnode iter level node e) :
    Descends tree flags rnode iter level node index := by
  have joined {last : Nat} (rest : ∀ j, e ≤ j → j < last → slotBelow tree flags level node j = none)
      (j : Nat) (low : index ≤ j) (high : j < last) : slotBelow tree flags level node j = none := by
    rcases Nat.lt_or_ge j e with before | behind
    · exact gap j low before
    exact rest j behind high
  rcases later with ⟨slot, iter', nonzero, above, block, found, none, ran⟩ |
    ⟨last, above, block, none, ends⟩
  · refine .inl ⟨slot, iter', nonzero, le.trans above, block.trans same, found, joined none, ?_⟩
    simpa only [goes] using ran
  refine .inr ⟨last, le.trans_lt above, same ▸ block, joined none, ?_⟩
  simpa only [goes] using ends

theorem shiftRight_level (index level : Nat) : index >>> (6 * level) = index / 64 ^ level := by
  rw [Nat.shiftRight_eq_div_pow, pow_mul]
  rfl

theorem shiftLeft_level (index level : Nat) : index <<< (6 * level) = index * 64 ^ level := by
  rw [Nat.shiftLeft_eq, pow_mul]
  rfl

/-- The step at a node with something at the index. -/
theorem descends_present (linked : Linked tree flags level node)
    (present : hole tree flags node (index / 64 ^ level % 64) = false)
    (below : ∀ lower child, level = lower + 1 → Linked tree flags lower child →
      Descends tree flags rnode iter lower child index) :
    Descends tree flags rnode iter level node index := by
  have below64 (x : Nat) : x % 64 ≠ 64 := (Nat.mod_lt x (by decide)).ne
  have shifted := shiftRight_level index level
  cases level with
  | zero =>
    rw [pow_zero, Nat.div_one] at present
    refine .inl ⟨node + 8 * (index % 64), ⟨index, ((index ||| 63) + 1) % 2 ^ 64,
      if flags.tagged then tree.tags node flags.tag >>> (index % 64) else iter.tags⟩, ?_, le_rfl,
        rfl, ?_,
      fun j low high => absurd (low.trans_lt high) (Nat.lt_irrefl _), fun fuel => ?_⟩
    · have high : 512 < node := linked
      omega
    · simp [slotBelow, present]
    simp only [descend, Nat.mul_zero, Nat.shiftRight_zero, present, Bool.false_eq_true, if_false,
      false_and, below64, if_true]
  | succ level => ?_
  have inner := linked _ (Nat.mod_lt _ (by decide)) present
  have goes (fuel : Nat) : descend tree flags rnode iter (fuel + (level + 1) + 1) index
      (some (node, 6 * (level + 1))) = descend tree flags rnode iter (fuel + level + 1) index
        (some (tree.load (node + 8 * (index / 64 ^ (level + 1) % 64)), 6 * level)) := by
    have deeper : 6 * (level + 1) ≠ 0 := by omega
    have down : 6 * (level + 1) - 6 = 6 * level := by omega
    rw [← Nat.add_assoc fuel level 1]
    simp only [descend, shifted, present, Bool.false_eq_true, if_false, false_and, below64, deeper,
      inner.1, down]
  have same {j : Nat} (low : index ≤ j)
      (high : j < (index / 64 ^ (level + 1) + 1) * 64 ^ (level + 1)) :=
    slotBelow_succ present (div_eq_of_between low high)
  have within (j : Nat) : j < (j / 64 ^ (level + 1) + 1) * 64 ^ (level + 1) := by
    rw [Nat.add_one_mul]
    exact Nat.lt_div_mul_add (Nat.pow_pos (by decide))
  rcases below level _ rfl inner.2 with ⟨slot, iter', nonzero, above, block, found, none, ran⟩ |
    ⟨last, above, block, none, ends⟩
  · have inside := within iter'.index
    rw [block] at inside
    refine .inl ⟨slot, iter', nonzero, above, ?_, ?_, fun j low high => ?_, fun fuel => ?_⟩
    · rw [pow_succ 64 (level + 1), ← Nat.div_div_eq_div_mul, block, Nat.div_div_eq_div_mul]
    · rw [same above inside, found]
    · rw [same low (high.trans inside), none j low high]
    rw [goes, ran]
  refine .inr ⟨last, above, block.trans (block_mono level), fun j low high => ?_, ?_⟩
  · rw [same low (high.trans_le block), none j low high]
  simpa only [goes] using ends

/-- The step at a node with a hole at the index. -/
theorem descends_hole (each : flags.contig = false) (low : level ≤ 10)
    (fit : level = 10 → ∀ offset < 64, hole tree flags node offset = false → offset < 16)
    (word : index < 2 ^ 64) (empty : hole tree flags node (index / 64 ^ level % 64) = true)
    (later : ∀ e < 2 ^ 64, hole tree flags node (e / 64 ^ level % 64) = false →
      Descends tree flags rnode iter level node e) :
    Descends tree flags rnode iter level node index := by
  have start : index / 64 ^ level % 64 < 64 := Nat.mod_lt _ (by decide)
  obtain ⟨between, stops⟩ := skip_spec tree flags node start
  have positive : 0 < 64 ^ level := Nat.pow_pos (by decide)
  have up : 6 * level + 6 = 6 * (level + 1) := by ring
  have block : 64 ^ (level + 1) = 64 * 64 ^ level := by rw [pow_succ, mul_comm]
  have digits : index / 64 ^ level = index / 64 ^ (level + 1) * 64 + index / 64 ^ level % 64 := by
    rw [block, mul_comm 64, ← Nat.div_div_eq_div_mul, Nat.div_add_mod']
  have place (o : Nat) : index / 64 ^ (level + 1) * 64 ^ (level + 1) + o * 64 ^ level =
      (index / 64 ^ (level + 1) * 64 + o) * 64 ^ level := by
    rw [block]
    ring
  have step (fuel : Nat) := descend.eq_3 tree flags rnode iter index fuel node (6 * level)
  simp only [up, shiftRight_level, shiftLeft_level, empty, if_true, each, Bool.false_eq_true,
    false_or, true_and, place] at step
  generalize skip tree flags node (index / 64 ^ level % 64) = o at between stops step
  have whole : (index / 64 ^ (level + 1) * 64 + 64) * 64 ^ level =
      (index / 64 ^ (level + 1) + 1) * 64 ^ (level + 1) := by
    rw [block]
    ring
  have ending : level = 10 → index / 64 ^ (level + 1) = 0 := by
    rintro rfl
    exact Nat.div_eq_of_lt (word.trans (by decide))
  have bounded : level ≤ 9 → (index / 64 ^ (level + 1) * 64 + 64) * 64 ^ level ≤ 2 ^ 64 :=
    fun low => whole ▸ block_le low word
  have same : ∀ e, index ≤ e → e < (index / 64 ^ (level + 1) * 64 + 64) * 64 ^ level →
      e / 64 ^ (level + 1) = index / 64 ^ (level + 1) := by
    intro e above below
    exact div_eq_of_between above (whole ▸ below)
  have gap (few : o ≤ 64) (j : Nat) (above : index ≤ j)
      (below : j < (index / 64 ^ (level + 1) * 64 + o) * 64 ^ level) :
      slotBelow tree flags level node j = none := by
    apply slotBelow_hole
    have least := Nat.div_le_div_right (c := 64 ^ level) above
    have most := Nat.div_lt_of_lt_mul (Nat.mul_comm _ _ ▸ below)
    rcases Nat.lt_or_ge (index / 64 ^ level % 64) (j / 64 ^ level % 64) with later | first
    · exact between _ later (by omega)
    rw [show j / 64 ^ level % 64 = index / 64 ^ level % 64 by omega]
    exact empty
  rcases stops with rfl | ⟨after, few, present⟩
  · have behind : index < (index / 64 ^ (level + 1) * 64 + 64) * 64 ^ level := by
      rw [whole, Nat.add_one_mul]
      exact Nat.lt_div_mul_add (Nat.pow_pos (by decide))
    have wraps : 2 ^ 64 ≤ (index / 64 ^ (level + 1) * 64 + 64) * 64 ^ level →
        (index / 64 ^ (level + 1) * 64 + 64) * 64 ^ level % 2 ^ 64 = 0 := by
      intro past
      rcases Nat.lt_or_eq_of_le low with below | rfl
      · rw [Nat.le_antisymm (bounded (by omega)) past, Nat.mod_self]
      rw [ending rfl]
      decide
    refine .inr ⟨_, behind, whole.le, gap le_rfl, ?_⟩
    generalize (index / 64 ^ (level + 1) * 64 + 64) * 64 ^ level = last at step behind wraps ⊢
    rcases Nat.lt_or_ge last (2 ^ 64) with inside | past
    · refine .inr ⟨inside, level, fun fuel => ?_⟩
      rw [step, Nat.mod_eq_of_lt inside, if_neg (by omega), if_pos rfl]
    refine .inl ⟨past, fun fuel => ?_⟩
    rw [step, if_pos (wraps past)]
  have here : (index / 64 ^ (level + 1) * 64 + o) * 64 ^ level / 64 ^ level =
      index / 64 ^ (level + 1) * 64 + o := Nat.mul_div_cancel _ positive
  have within := Nat.mul_lt_mul_of_pos_right (show index / 64 ^ (level + 1) * 64 + o <
    index / 64 ^ (level + 1) * 64 + 64 by omega) positive
  have inside : (index / 64 ^ (level + 1) * 64 + o) * 64 ^ level < 2 ^ 64 := by
    rcases Nat.lt_or_eq_of_le low with below | rfl
    · exact within.trans_le (bounded (by omega))
    have small := fit rfl o few present
    rw [ending rfl]
    exact (Nat.mul_le_mul_right _ (show 0 * 64 + o ≤ 15 by omega)).trans_lt (by decide)
  have above : index ≤ (index / 64 ^ (level + 1) * 64 + o) * 64 ^ level := by
    refine Nat.le_of_lt ((Nat.div_lt_iff_lt_mul positive).mp ?_)
    omega
  have nonzero : (index / 64 ^ (level + 1) * 64 + o) * 64 ^ level ≠ 0 := by
    refine Nat.mul_ne_zero ?_ positive.ne'
    omega
  have offset : (index / 64 ^ (level + 1) * 64 + o) % 64 = o := by omega
  refine .of_later above (same _ above within) (gap few.le) (fun fuel => ?_)
    (later _ inside (by rwa [here, offset]))
  have again :=
    descend.eq_3 tree flags rnode iter ((index / 64 ^ (level + 1) * 64 + o) * 64 ^ level)
      (fuel + level) node (6 * level)
  simp only
    [shiftRight_level, here, offset, present, Bool.false_eq_true, if_false, false_and] at again
  rw [step, Nat.mod_eq_of_lt inside, if_neg nonzero]
  exact again.symm

/-- A descent finds the first slot, or goes on behind indices without one. -/
theorem descend_spec (each : flags.contig = false) (low : level ≤ 10)
    (linked : Linked tree flags level node)
    (fit : level = 10 → ∀ offset < 64, hole tree flags node offset = false → offset < 16)
    (word : index < 2 ^ 64) : Descends tree flags rnode iter level node index := by
  induction level generalizing node index with
  | zero =>
    have present {e : Nat} (_ : e < 2 ^ 64)
        (there : hole tree flags node (e / 64 ^ 0 % 64) = false) :
        Descends tree flags rnode iter 0 node e :=
      descends_present linked there nofun
    cases here : hole tree flags node (index / 64 ^ 0 % 64) with
    | true => exact descends_hole each low fit word here fun e => present
    | false => exact present word here
  | succ level ih => ?_
  have present {e : Nat} (inside : e < 2 ^ 64)
      (there : hole tree flags node (e / 64 ^ (level + 1) % 64) = false) :
      Descends tree flags rnode iter (level + 1) node e := by
    refine descends_present linked there ?_
    rintro _ child ⟨⟩ lower
    exact ih (by omega) lower (by omega) inside
  cases here : hole tree flags node (index / 64 ^ (level + 1) % 64) with
  | true => exact descends_hole each low fit word here fun e => present
  | false => exact present word here

theorem First.of_later (le : index ≤ e) (gap : ∀ j, index ≤ j → j < e → slotOf tree flags j = none)
    (first : First tree flags e found) : First tree flags index found := by
  have joined (j : Nat) (above : index ≤ j) (rest : e ≤ j → slotOf tree flags j = none) :
      slotOf tree flags j = none := by
    rcases Nat.lt_or_ge j e with before | behind
    · exact gap j above before
    exact rest behind
  rw [First] at first ⊢
  split at first
  next null =>
    rw [if_pos null]
    exact fun j above => joined j above (first j)
  next found =>
  rw [if_neg found]
  obtain ⟨slot, behind, none⟩ := first
  exact ⟨slot, le.trans behind, fun j above below => joined j above fun later => none j later below⟩

/-- From the root on, enough fuel gives the first slot. -/
theorem search_spec (each : flags.contig = false) (wellFormed : WellFormed tree flags)
    (indirect : tree.load tree.root % 2 = 1) (tagged : ¬ (flags.tagged ∧ !tree.rootTag flags.tag))
    (iter : Iter) (word : index < 2 ^ 64) :
    ∃ found enough, First tree flags index found ∧
      ∀ fuel, descend tree flags (tree.load tree.root - 1) iter (fuel + enough) index none =
        some found := by
  obtain ⟨low, high⟩ := wellFormed.height indirect
  have linked := wellFormed.linked indirect
  have top := wellFormed.top indirect
  have slots (j : Nat) : slotOf tree flags j =
      if j < 64 ^ tree.height (tree.load tree.root - 1) then
        slotBelow tree flags (tree.height (tree.load tree.root - 1) - 1) (tree.load tree.root - 1) j
      else none := by
    rw [slotOf, if_neg tagged, if_pos indirect]
  have step (fuel index : Nat) := descend.eq_2 tree flags (tree.load tree.root - 1) iter index fuel
  generalize tree.load tree.root - 1 = rnode at low high linked top slots step ⊢
  obtain ⟨level, height⟩ := Nat.exists_eq_succ_of_ne_zero low.ne'
  simp only [height, Nat.succ_eq_add_one, Nat.add_sub_cancel, Nat.mul_comm level, shiftRight_level]
    at linked slots step
  -- each restart is at a greater index
  induction left : 2 ^ 64 - index using Nat.strong_induction_on generalizing index with
  | _ left ih => ?_
  by_cases outside : 64 ≤ index / 64 ^ level
  · refine ⟨(0, iter), 1, ?_, fun fuel => by rw [step, if_pos outside]⟩
    rw [First, if_pos rfl]
    intro j above
    have beyond : 64 ^ (level + 1) ≤ j := by
      rw [pow_succ, mul_comm]
      exact ((Nat.le_div_iff_mul_le (Nat.pow_pos (by decide))).mp outside).trans above
    rw [slots, if_neg (by omega)]
  have first (fuel : Nat) := step (fuel + level + 1) index
  simp only [if_neg outside] at first
  have inside : index < 64 ^ (level + 1) := by
    rw [pow_succ, mul_comm]
    exact (Nat.div_lt_iff_lt_mul (Nat.pow_pos (by decide))).mp (Nat.lt_of_not_le outside)
  have spec : Descends tree flags rnode iter level rnode index :=
    descend_spec each (by omega) linked (fun same => top (by omega)) word
  rcases spec with ⟨slot, iter', nonzero, above, block, found, none, ran⟩ | ⟨last, above, block,
    none, ends⟩
  · refine ⟨(slot, iter'), level + 2, ?_, fun fuel => ?_⟩
    · rw [First, if_neg nonzero]
      rw [Nat.div_eq_of_lt inside, Nat.div_eq_zero_iff] at block
      have small : iter'.index < 64 ^ (level + 1) :=
        block.resolve_left (Nat.pow_pos (by decide)).ne'
      refine ⟨by rw [slots, if_pos small, found], above, fun j low high => ?_⟩
      rw [slots, if_pos (high.trans small), none j low high]
    exact (first fuel).trans (ran fuel)
  have gap (j : Nat) (low : index ≤ j) (high : j < last) : slotOf tree flags j = Option.none := by
    rw [slots, none j low high, ite_self]
  rcases ends with ⟨past, ran⟩ | ⟨inside', rest, goes⟩
  · refine ⟨(0, iter), level + 2, ?_, fun fuel => (first fuel).trans (ran fuel)⟩
    rw [First, if_pos rfl]
    intro j low
    rcases Nat.lt_or_ge j last with before | behind
    · exact gap j low before
    rw [slots]
    split
    next within =>
      -- only the highest tree has slots for such indices, and they are holes
      have highest : level = 10 := by
        by_contra lower
        have small : 64 ^ (level + 1) ≤ 64 ^ 10 := Nat.pow_le_pow_right (by decide) (by omega)
        omega
      subst highest
      apply slotBelow_hole
      by_contra present
      have few := top height _ (Nat.mod_lt _ (by decide)) (by simpa using present)
      omega
    rfl
  obtain ⟨found, enough, later, ran⟩ := ih (2 ^ 64 - last) (by omega) inside' rfl
  refine ⟨found, enough + level + 2, later.of_later above.le gap, fun fuel => ?_⟩
  have again := ran (fuel + rest)
  rw [Nat.add_right_comm] at again
  rw [show fuel + (enough + level + 2) = fuel + enough + level + 1 + 1 by omega]
  exact (first (fuel + enough)).trans ((goes (fuel + enough)).trans again)

end

section

variable (each : flags.contig = false) (wellFormed : WellFormed tree flags)
include each wellFormed

theorem nextChunk_first (word : index < 2 ^ 64) (tags : Nat) :
    ∃ found enough, First tree flags index found ∧
      ∀ fuel, nextChunk tree flags (fuel + enough) ⟨index, index, tags⟩ = some found := by
  have fresh : ¬ (index = 0 ∧ index ≠ 0) := fun both => both.2 both.1
  simp only [nextChunk, if_neg fresh, lookup]
  by_cases tagged : flags.tagged ∧ !tree.rootTag flags.tag
  · refine ⟨(0, ⟨index, index, tags⟩), 0, ?_, fun fuel => if_pos tagged⟩
    rw [First, if_pos rfl]
    intro j _
    rw [slotOf, if_pos tagged]
  simp only [if_neg tagged]
  by_cases indirect : tree.load tree.root % 2 = 1
  · simp only [if_pos indirect]
    exact search_spec each wellFormed indirect tagged _ word
  have slots (j : Nat) : slotOf tree flags j =
      if tree.load tree.root ≠ 0 ∧ j = 0 then some tree.root else none := by
    rw [slotOf, if_neg tagged, if_neg indirect]
  simp only [if_neg indirect]
  by_cases single : tree.load tree.root ≠ 0 ∧ index = 0
  · refine ⟨(tree.root, ⟨0, 1, 1⟩), 0, ?_, fun fuel => if_pos single⟩
    have high := wellFormed.root
    rw [First, if_neg (by simp only; omega)]
    refine ⟨by rw [slots, if_pos ⟨single.1, rfl⟩], single.2.le, fun j _ below => ?_⟩
    exact absurd below (Nat.not_lt_zero j)
  refine ⟨(0, ⟨index, index, tags⟩), 0, ?_, fun fuel => if_neg single⟩
  rw [First, if_pos rfl]
  intro j above
  rw [slots, if_neg]
  rintro ⟨some, rfl⟩
  exact single ⟨some, Nat.le_zero.mp above⟩

end

theorem ffs_lt (tags : Nat) : ffs tags < 64 := by
  rw [ffs]
  cases found : (List.range 64).find? tags.testBit with
  | none => decide
  | some bit => exact List.mem_range.mp (List.mem_of_find?_eq_some found)

theorem slotBelow_high (linked : Linked tree flags level node)
    (found : slotBelow tree flags level node index = some slot) : 512 < slot := by
  induction level generalizing node with
  | zero =>
    have high : 512 < node := linked
    simp only [slotBelow] at found
    split at found
    · cases found
    obtain rfl := Option.some.inj found
    omega
  | succ level ih => ?_
  simp only [slotBelow] at found
  split at found
  · cases found
  next present => exact ih (linked _ (Nat.mod_lt _ (by decide)) (by simpa using present)).2 found

/-- No slot of a tree is near address 0. -/
theorem slotOf_high (wellFormed : WellFormed tree flags)
    (found : slotOf tree flags index = some slot) : 512 < slot := by
  rw [slotOf] at found
  split at found
  · cases found
  split at found
  · next indirect =>
    split at found
    · exact slotBelow_high (wellFormed.linked indirect) found
    cases found
  split at found
  · obtain rfl := Option.some.inj found
    exact wellFormed.root
  cases found

/-- With no tag left in the chunk, a retry reaches `radix_tree_next_chunk`. -/
theorem next_retry (tree : Tree) (left : flags.tagged → iter.tags >>> 1 = 0) :
    ∃ tags, ∀ fuel, next tree flags fuel (iterRetry iter) =
      nextChunk tree flags fuel ⟨iter.index, iter.index, tags⟩ := by
  cases tagged : flags.tagged with
  | true => exact ⟨0, by simp [next, nextSlot, tagged, iterRetry, left tagged]⟩
  | false => exact ⟨iter.tags, by simp [next, nextSlot, tagged, iterRetry, chunkSize, nextSlotFrom]⟩

/-- With a tag left, the body gets `NULL` and the distance to its slot. -/
theorem next_retry_tagged (tree : Tree) (each : flags.contig = false) (tagged : flags.tagged = true)
    (left : iter.tags >>> 1 ≠ 0) :
    ∃ k < 64, ∃ iter', ∀ fuel,
      next tree flags fuel (iterRetry iter) = some (8 * (k + 1), iter') := by
  by_cases first : (iter.tags >>> 1).testBit 0 = true
  · refine ⟨0, by decide, { (iterRetry iter).2.advance 1 with tags := iter.tags >>> 1 },
      fun fuel => ?_⟩
    simp [next, nextSlot, tagged, iterRetry, first]
  refine ⟨ffs (iter.tags >>> 1), ffs_lt _,
    { (iterRetry iter).2.advance (ffs (iter.tags >>> 1) + 1) with
      tags := iter.tags >>> 1 >>> ffs (iter.tags >>> 1) }, fun fuel => ?_⟩
  simp [next, nextSlot, tagged, iterRetry, first, left, each]

/-- A retry goes to `radix_tree_next_chunk` with the current index, and the body gets the slot of
the first index from there on that has one, exactly if the loop is not over a tag or no tag is left
in the chunk. Otherwise it gets `NULL` and the distance to the next tagged slot. -/
theorem radix_tree_iter_retry_iff (each : flags.contig = false) (wellFormed : WellFormed tree flags)
    (word : iter.index < 2 ^ 64) :
    ((∃ tags, ∀ fuel, next tree flags fuel (iterRetry iter) =
          nextChunk tree flags fuel ⟨iter.index, iter.index, tags⟩) ∧
        ∃ found enough, First tree flags iter.index found ∧
          ∀ fuel, next tree flags (fuel + enough) (iterRetry iter) = some found) ↔
      (flags.tagged → iter.tags >>> 1 = 0) := by
  constructor
  · rintro ⟨-, found, enough, first, ran⟩ tagged
    by_contra left
    obtain ⟨k, few, iter', goes⟩ := next_retry_tagged tree each tagged left
    obtain rfl := Option.some.inj ((goes _).symm.trans (ran 0))
    rw [First, if_neg (by simp)] at first
    have high := slotOf_high wellFormed first.1
    omega
  intro left
  obtain ⟨tags, again⟩ := next_retry tree left
  obtain ⟨found, enough, first, ran⟩ := nextChunk_first each wellFormed word tags
  exact ⟨⟨tags, again⟩, found, enough, first, fun fuel => (again _).trans (ran fuel)⟩

/-- Two leaves below a node, with tagged items at 1 and at 130. -/
def twoLeaves : Tree where
  root := 1024
  rootTag _ := true
  load slot :=
    ([(1024, 2049), (2048, 4096), (2064, 8192), (4104, 600), (8208, 700)].lookup slot).getD 0
  height _ := 2
  tags node _ := ([(2048, 5), (4096, 2), (8192, 4)].lookup node).getD 0

theorem radix_tree_iter_retry_iff_two_leaves :
    nextChunk twoLeaves ⟨true, false, 0⟩ 9 ⟨0, 0, 0⟩ = some (4104, ⟨1, 64, 1⟩) ∧
      ∃ found enough, First twoLeaves ⟨true, false, 0⟩ 1 found ∧
        ∀ fuel,
          next twoLeaves ⟨true, false, 0⟩ (fuel + enough) (iterRetry ⟨1, 64, 1⟩) = some found := by
  have wellFormed : WellFormed twoLeaves ⟨true, false, 0⟩ := by
    refine ⟨by decide, fun _ => by decide, fun _ => ?_, fun _ highest => absurd highest (by decide)⟩
    change ∀ offset < 64, _ → _ ∧ 512 < _
    decide +kernel
  have word : (⟨1, 64, 1⟩ : Iter).index < 2 ^ 64 := by decide
  exact ⟨by decide +kernel, ((radix_tree_iter_retry_iff rfl wellFormed word).mpr (by decide)).2⟩

/-- One leaf, whose items at 0 and 1 are tagged. -/
def twoTagged : Tree where
  root := 1024
  rootTag _ := true
  load slot := ([(1024, 2049), (2048, 600), (2056, 700)].lookup slot).getD 0
  height _ := 1
  tags _ _ := 3

/-- A retry at the first of two tagged items hands `NULL + 1` to the body. -/
theorem radix_tree_iter_retry_leaves_tree :
    nextChunk twoTagged ⟨true, false, 0⟩ 4 ⟨0, 0, 0⟩ = some (2048, ⟨0, 64, 3⟩) ∧
      next twoTagged ⟨true, false, 0⟩ 4 (iterRetry ⟨0, 64, 3⟩) = some (8, ⟨1, 0, 1⟩) := by
  decide +kernel

end TinyKernel.RadixTree
