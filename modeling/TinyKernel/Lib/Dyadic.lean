import Mathlib.Algebra.Ring.Divisibility.Basic
import Mathlib.Data.LawfulXor.Basic
import Mathlib.Data.Nat.Bitwise
import Mathlib.Order.Interval.Finset.Nat
import Mathlib.Tactic.Ring

/-! Power-of-two blocks of consecutive units. Two aligned blocks are nested or
apart, and a set of units has at most one decomposition into aligned blocks in
which no two buddies are left unmerged. -/

namespace TinyKernel.Lib

open Finset Nat

/-- The `2 ^ order` consecutive units that start at `base`. -/
structure Block where
  base : Nat
  order : Nat
  deriving DecidableEq, Repr

namespace Block

def size (block : Block) : Nat := 2 ^ block.order

/-- One past the last unit. -/
def limit (block : Block) : Nat := block.base + block.size

def Covers (block : Block) (unit : Nat) : Prop := block.base ≤ unit ∧ unit < block.limit

def Aligned (block : Block) : Prop := 2 ^ block.order ∣ block.base

def Apart (first second : Block) : Prop :=
  first.limit ≤ second.base ∨ second.limit ≤ first.base

instance (block : Block) : Decidable block.Aligned :=
  inferInstanceAs (Decidable (_ ∣ _))

instance (first second : Block) : Decidable (first.Apart second) :=
  inferInstanceAs (Decidable (_ ∨ _))

theorem size_pos (block : Block) : 0 < block.size := Nat.two_pow_pos _

variable {first : Block}

theorem Apart.symm (apart : first.Apart second) : second.Apart first := Or.symm apart

theorem covers_base (block : Block) : block.Covers block.base :=
  ⟨le_rfl, Nat.lt_add_of_pos_right block.size_pos⟩

theorem not_apart_self (block : Block) : ¬ block.Apart block := by
  have pos := block.size_pos
  simp only [Apart, limit]
  omega

variable {bits : Nat}

theorem Apart.not_covers (apart : first.Apart second) (inside : first.Covers unit) :
    ¬ second.Covers unit := by
  simp only [Apart, Covers] at *
  omega

/-- The lower half of a block. -/
def lower (block : Block) : Block := ⟨block.base, block.order - 1⟩

/-- The upper half of a block. -/
def upper (block : Block) : Block := ⟨block.base + 2 ^ (block.order - 1), block.order - 1⟩

/-- The block of the same order whose index differs in exactly bit `order`. -/
def buddy (block : Block) : Block := ⟨block.base ^^^ 2 ^ block.order, block.order⟩

/-- The block of the next order that holds a block and its buddy. -/
def parent (block : Block) : Block :=
  ⟨(block.base ^^^ 2 ^ block.order) &&& block.base, block.order + 1⟩

private theorem xor_pow (index order : Nat) :
    2 ^ order * index ^^^ 2 ^ order = 2 ^ order * (index ^^^ 1) := by
  have shifted := @Nat.shiftLeft_xor_distrib order index 1
  simp only [shiftLeft_eq, one_mul] at shifted
  rw [mul_comm _ (index ^^^ 1), shifted, mul_comm]

private theorem and_pow (first second order : Nat) :
    2 ^ order * first &&& 2 ^ order * second = 2 ^ order * (first &&& second) := by
  have shifted := @Nat.shiftLeft_and_distrib order first second
  simp only [shiftLeft_eq] at shifted
  rw [mul_comm _ (first &&& second), shifted, mul_comm, mul_comm second]

private theorem xor_one_and (index : Nat) : (index ^^^ 1) &&& index = 2 * (index / 2) := by
  apply eq_of_testBit_eq
  intro bit
  cases bit with
  | zero => simp; omega
  | succ bit => ?_
  have high : testBit 1 (bit + 1) = false := by simp [testBit_succ]
  have same : (2 * (index / 2)).testBit (bit + 1) = index.testBit (bit + 1) := by
    simp [testBit_succ]
  simp [high, same]

/-- An aligned block is either the lower or the upper half of its parent. -/
theorem Aligned.half {block : Block} (aligned : block.Aligned) :
    (2 ^ (block.order + 1) ∣ block.base ∧ block.buddy.base = block.base + block.size ∧
        block.parent.base = block.base) ∨
      (2 ^ (block.order + 1) ∣ block.base - block.size ∧ block.size ≤ block.base ∧
        block.buddy.base = block.base - block.size ∧
        block.parent.base = block.base - block.size) := by
  obtain ⟨index, same⟩ := aligned
  rcases even_or_odd' index with ⟨half, even | odd⟩
  · left
    have swapped : index ^^^ 1 = index + 1 := xor_one_of_even ⟨half, by omega⟩
    have cleared : 2 * (index / 2) = index := by omega
    refine ⟨⟨half, ?_⟩, ?_, ?_⟩
    · rw [same, even, pow_succ]; ring
    · simp only [buddy, size, same, xor_pow, swapped]; ring
    simp only [parent, same, xor_pow, and_pow, xor_one_and, cleared]
  right
  have swapped : index ^^^ 1 = 2 * half := by rw [xor_one_of_odd ⟨half, odd⟩]; omega
  have cleared : 2 * (index / 2) = 2 * half := by omega
  have shape : block.base = 2 ^ block.order * (2 * half) + block.size := by
    rw [same, odd, size]; ring
  refine ⟨⟨half, ?_⟩, by omega, ?_, ?_⟩
  · rw [shape, Nat.add_sub_cancel, pow_succ]; ring
  · simp only [buddy, same, xor_pow, swapped]
    rw [← same, shape, Nat.add_sub_cancel]
  simp only [parent, same, xor_pow, and_pow, xor_one_and, cleared]
  rw [← same, shape, Nat.add_sub_cancel]

variable {block : Block}

/-- Only the low `bits` of the base matter to the buddy and the parent. -/
theorem Aligned.window (aligned : block.Aligned) (bound : block.order < bits) :
    block.base + ((block.base % 2 ^ bits) ^^^ 2 ^ block.order) - block.base % 2 ^ bits =
        block.buddy.base ∧
      block.base + (((block.base % 2 ^ bits) ^^^ 2 ^ block.order) &&& block.base % 2 ^ bits) -
          block.base % 2 ^ bits = block.parent.base ∧
      ((block.base % 2 ^ bits) ^^^ 2 ^ block.order) &&& block.base % 2 ^ bits =
        block.parent.base % 2 ^ bits := by
  have wide : 2 ^ (block.order + 1) ∣ 2 ^ bits := pow_dvd_pow 2 bound
  have narrow : 2 ^ block.order ∣ 2 ^ bits := pow_dvd_pow 2 bound.le
  set index := block.base % 2 ^ bits with indexed
  have image : (Block.mk index block.order).Aligned := (dvd_mod_iff narrow).mpr aligned
  have whole := div_add_mod block.base (2 ^ bits)
  have sized : (Block.mk index block.order).size = block.size := rfl
  have swap : (Block.mk index block.order).buddy.base = index ^^^ 2 ^ block.order := rfl
  have join : (Block.mk index block.order).parent.base = (index ^^^ 2 ^ block.order) &&& index :=
    rfl
  have parity : 2 ^ (block.order + 1) ∣ index ↔ 2 ^ (block.order + 1) ∣ block.base :=
    dvd_mod_iff wide
  have double : 2 ^ (block.order + 1) = 2 * block.size := by rw [pow_succ, size]; ring
  have odd {base : Nat} (fits : block.size ≤ base)
      (step : 2 ^ (block.order + 1) ∣ base - block.size) : ¬ 2 ^ (block.order + 1) ∣ base := by
    intro even
    have gap := dvd_sub even step
    have small := le_of_dvd (by have := block.size_pos; omega) gap
    omega
  rw [← join, ← swap]
  rcases aligned.half with ⟨even, swapped, kept⟩ | ⟨step, fits, swapped, kept⟩
  · rcases image.half with ⟨_, swapped', kept'⟩ | ⟨step', fits', _, _⟩
    · rw [swapped, kept, swapped', kept', sized]
      exact ⟨by simp only; omega, by simp only; omega, rfl⟩
    exact absurd (parity.mpr even) (odd fits' step')
  rcases image.half with ⟨even', _, _⟩ | ⟨_, fits', swapped', kept'⟩
  · exact absurd (parity.mp even') (odd fits step)
  rw [swapped, kept, swapped', kept', sized]
  simp only at fits' ⊢
  have image : block.base - block.size =
      2 ^ bits * (block.base / 2 ^ bits) + (index - block.size) := by
    omega
  refine ⟨by omega, by omega, ?_⟩
  rw [image, Nat.mul_add_mod, Nat.mod_eq_of_lt (by omega)]

theorem size_parent (block : Block) : block.parent.size = 2 * block.size := by
  simp only [size, parent, pow_succ]; ring

@[simp] theorem buddy_buddy (block : Block) : block.buddy.buddy = block := by simp [Block.buddy]

/-- A block and its buddy lie in the same aligned block of every higher order. -/
theorem Aligned.div_buddy (aligned : block.Aligned) (bound : block.order < bits) :
    block.base / 2 ^ bits = block.buddy.base / 2 ^ bits := by
  obtain ⟨extra, same⟩ := Nat.exists_eq_add_of_lt bound
  have power : 2 ^ bits = 2 ^ (block.order + 1) * 2 ^ extra := by
    rw [same, ← pow_add]; congr 1; omega
  have double : 2 ^ (block.order + 1) = 2 * block.size := by rw [pow_succ, size]; ring
  rw [power, ← Nat.div_div_eq_div_mul, ← Nat.div_div_eq_div_mul]
  congr 1
  have pos := block.size_pos
  rcases aligned.half with ⟨⟨index, shape⟩, swapped, _⟩ | ⟨⟨index, shape⟩, fits, swapped, _⟩
  · rw [swapped, shape, double, Nat.mul_div_cancel_left _ (by omega), Nat.mul_add_div (by omega),
      Nat.div_eq_of_lt (by omega), add_zero]
  have base : block.base = 2 ^ (block.order + 1) * index + block.size := by omega
  rw [swapped, shape, base, double, Nat.mul_div_cancel_left _ (by omega),
    Nat.mul_add_div (by omega), Nat.div_eq_of_lt (by omega), add_zero]

theorem Aligned.parent {block : Block} (aligned : block.Aligned) : block.parent.Aligned := by
  change 2 ^ (block.order + 1) ∣ block.parent.base
  rcases aligned.half with ⟨wide, _, same⟩ | ⟨wide, _, _, same⟩ <;> rwa [same]

/-- A block and its buddy are the two halves of the parent. -/
theorem Aligned.covers_parent (aligned : block.Aligned) (unit : Nat) :
    block.parent.Covers unit ↔ block.Covers unit ∨ block.buddy.Covers unit := by
  have twice := block.size_parent
  have same : block.buddy.size = block.size := rfl
  rcases aligned.half with ⟨_, swapped, kept⟩ | ⟨_, _, swapped, kept⟩ <;>
    simp only [Covers, limit] <;> omega

theorem Aligned.apart_buddy (aligned : block.Aligned) : block.Apart block.buddy := by
  have same : block.buddy.size = block.size := rfl
  rcases aligned.half with ⟨_, swapped, _⟩ | ⟨_, _, swapped, _⟩ <;>
    simp only [Apart, limit] <;> omega

/-- Apartness from both halves is apartness from the parent. -/
theorem Aligned.apart_parent (aligned : block.Aligned) (first : block.Apart other)
    (second : block.buddy.Apart other) : block.parent.Apart other := by
  have twice := block.size_parent
  have same : block.buddy.size = block.size := rfl
  have pos := other.size_pos
  rcases aligned.half with ⟨_, swapped, kept⟩ | ⟨_, _, swapped, kept⟩ <;>
    simp only [Apart, limit] at * <;> omega

theorem Aligned.lower {block : Block} (aligned : block.Aligned) : block.lower.Aligned :=
  (pow_dvd_pow 2 (sub_le _ _)).trans aligned

theorem Aligned.upper {block : Block} (aligned : block.Aligned) : block.upper.Aligned :=
  dvd_add ((pow_dvd_pow 2 (sub_le _ _)).trans aligned) (dvd_refl _)

section

variable {block : Block} (split : 0 < block.order)
include split

theorem size_halves :
    block.lower.size + block.upper.size = block.size ∧ block.lower.size = block.upper.size := by
  obtain ⟨order, same⟩ : ∃ order, block.order = order + 1 := ⟨block.order - 1, by omega⟩
  have double : block.size = 2 ^ order * 2 := by rw [size, same, pow_succ]
  have first : block.lower.size = 2 ^ order := by rw [size, lower, same, Nat.add_sub_cancel]
  have second : block.upper.size = 2 ^ order := by rw [size, upper, same, Nat.add_sub_cancel]
  omega

theorem covers_halves (unit : Nat) :
    block.Covers unit ↔ block.lower.Covers unit ∨ block.upper.Covers unit := by
  obtain ⟨total, same⟩ := size_halves split
  have start : block.upper.base = block.base + block.upper.size := rfl
  have kept : block.lower.base = block.base := rfl
  simp only [Covers, limit]
  omega

theorem apart_halves : block.lower.Apart block.upper := by
  obtain ⟨_, same⟩ := size_halves split
  have start : block.upper.base = block.base + block.upper.size := rfl
  have kept : block.lower.base = block.base := rfl
  simp only [Apart, limit]
  omega

theorem Apart.halves (apart : block.Apart other) :
    block.lower.Apart other ∧ block.upper.Apart other := by
  obtain ⟨_, same⟩ := size_halves split
  have start : block.upper.base = block.base + block.upper.size := rfl
  have kept : block.lower.base = block.base := rfl
  simp only [Apart, limit] at *
  omega

/-- The lower half's buddy is the upper half. -/
theorem Aligned.buddy_lower (aligned : block.Aligned) : block.lower.buddy = block.upper := by
  have start : block.upper.base = block.base + block.lower.size := rfl
  have wide : 2 ^ (block.lower.order + 1) ∣ block.base := by
    rw [show block.lower.order + 1 = block.order from Nat.sub_add_cancel split]
    exact aligned
  rcases aligned.lower.half with ⟨_, swapped, _⟩ | ⟨odd, _, _, _⟩
  · exact congrArg (fun base => Block.mk base block.lower.order) swapped
  -- the lower half starts on a boundary of the whole, so it is not an odd half
  exfalso
  have pos := block.lower.size_pos
  have kept : block.lower.base = block.base := rfl
  have step : 2 ^ (block.lower.order + 1) ∣ block.base - (block.base - block.lower.size) :=
    dvd_sub wide (kept ▸ odd)
  have bound := le_of_dvd (by omega) step
  have wider : 2 ^ (block.lower.order + 1) = 2 * block.lower.size := by rw [pow_succ, size]; ring
  omega

end

/-- Aligned blocks are nested or apart. -/
theorem Aligned.nested {small : Block} (first : small.Aligned) (second : large.Aligned)
    (order : small.order ≤ large.order) (touch : ¬ small.Apart large) :
    large.base ≤ small.base ∧ small.limit ≤ large.limit := by
  obtain ⟨low, smallBase⟩ := first
  obtain ⟨high, largeBase⟩ := second
  obtain ⟨extra, orders⟩ := Nat.exists_eq_add_of_le order
  have scaled : 2 ^ large.order = 2 ^ small.order * 2 ^ extra := by rw [orders, pow_add]
  rw [Apart, not_or] at touch
  simp only [limit, size, smallBase, largeBase, scaled, mul_assoc] at touch ⊢
  have above : 2 ^ extra * high < low + 1 := by
    apply lt_of_mul_lt_mul_left (a := 2 ^ small.order) _ (zero_le _)
    rw [mul_add, mul_one]; omega
  have below : low < 2 ^ extra * high + 2 ^ extra := by
    apply lt_of_mul_lt_mul_left (a := 2 ^ small.order) _ (zero_le _)
    rw [mul_add]; omega
  have start : 2 ^ small.order * (2 ^ extra * high) ≤ 2 ^ small.order * low :=
    mul_le_mul_left _ (by omega)
  have finish : 2 ^ small.order * (low + 1) ≤
      2 ^ small.order * (2 ^ extra * high + 2 ^ extra) := mul_le_mul_left _ (by omega)
  rw [mul_add, mul_add, mul_one] at finish
  omega

theorem Aligned.eq_of_touch (left : first.Aligned) (right : second.Aligned)
    (order : first.order = second.order) (touch : ¬ first.Apart second) : first = second := by
  have inner := left.nested right order.le touch
  have outer := right.nested left order.ge (fun apart => touch apart.symm)
  have same : first.base = second.base := by omega
  cases first
  cases second
  simp_all

/-- The units of a list of blocks. -/
def units (blocks : List Block) : Finset Nat :=
  blocks.foldr (fun block rest => Ico block.base block.limit ∪ rest) ∅

theorem mem_units : unit ∈ units blocks ↔ ∃ block ∈ blocks, block.Covers unit := by
  induction blocks with
  | nil => simp [units]
  | cons block rest ih => ?_
  have step : units (block :: rest) = Ico block.base block.limit ∪ units rest := rfl
  simp [step, ih, Covers]

/-- Blocks that are pairwise apart count every unit once. -/
theorem sum_size_eq_card (apart : blocks.Pairwise Apart) :
    (blocks.map size).sum = (units blocks).card := by
  induction blocks with
  | nil => rfl
  | cons block rest ih => ?_
  obtain ⟨first, others⟩ := List.pairwise_cons.mp apart
  have step : units (block :: rest) = Ico block.base block.limit ∪ units rest := rfl
  have fresh : Disjoint (Ico block.base block.limit) (units rest) := by
    rw [disjoint_left]
    intro unit inside again
    obtain ⟨other, member, covers⟩ := mem_units.mp again
    exact (first other member).not_covers (mem_Ico.mp inside) covers
  rw [List.map_cons, List.sum_cons, ih others, step, card_union_of_disjoint fresh,
    Nat.card_Ico, limit, Nat.add_sub_cancel_left]

end Block

/-- A family of aligned, pairwise apart blocks of order below `top`. -/
structure Decomposition (top : Nat) (held : Block → Prop) : Prop where
  aligned : ∀ block, held block → block.Aligned
  bounded : ∀ block, held block → block.order < top
  apart : ∀ first second, held first → held second → first ≠ second → first.Apart second

/-- No block below the top order is held together with its buddy. -/
def Merged (top : Nat) (held : Block → Prop) : Prop :=
  ∀ block, held block → block.order + 1 < top → ¬ held block.buddy

namespace Decomposition

/-- In a merged family a fully covered aligned block lies inside one member.
The halves of a block that is not a member itself cannot both be members. -/
theorem absorbs (family : Decomposition top held) (merged : Merged top held) :
    ∀ (order : Nat) (block : Block), block.order = order → order < top → block.Aligned →
      (∀ unit, block.Covers unit → ∃ member, held member ∧ member.Covers unit) →
      ∃ member, held member ∧ block.order ≤ member.order ∧ ¬ block.Apart member := by
  intro order
  induction order with
  | zero =>
    intro block same _ _ covered
    obtain ⟨member, holds, inside⟩ := covered block.base block.covers_base
    exact ⟨member, holds, by omega, fun apart => apart.not_covers block.covers_base inside⟩
  | succ order ih => ?_
  intro block same bound aligned covered
  have split : 0 < block.order := by omega
  have half (part : Block) (small : part.order = order) (straight : part.Aligned)
      (within : ∀ unit, part.Covers unit → block.Covers unit) :
      held part ∨ ∃ member, held member ∧ block.order ≤ member.order ∧
        ¬ block.Apart member := by
    obtain ⟨member, holds, fits, touch⟩ := ih part small (by omega) straight
      (fun unit inside => covered unit (within unit inside))
    by_cases eq : part.order = member.order
    · left
      rwa [straight.eq_of_touch (family.aligned member holds) eq touch]
    right
    refine ⟨member, holds, by omega, fun apart => ?_⟩
    have inner := straight.nested (family.aligned member holds) fits touch
    have out := apart.not_covers (within part.base part.covers_base)
    have start := part.covers_base
    simp only [Block.Covers] at out start
    omega
  rcases half block.lower (by simp only [Block.lower]; omega) aligned.lower
      (fun unit inside => (Block.covers_halves split unit).mpr (.inl inside)) with low | found
  · rcases half block.upper (by simp only [Block.upper]; omega) aligned.upper
        (fun unit inside => (Block.covers_halves split unit).mpr (.inr inside)) with high | found
    · exfalso
      apply merged block.lower low (by simp only [Block.lower]; omega)
      rwa [Block.Aligned.buddy_lower split aligned]
    exact found
  exact found

/-- The merged decomposition of a set of units is unique. -/
theorem unique (first : Decomposition top held) (second : Decomposition top other)
    (left : Merged top held) (right : Merged top other)
    (units : ∀ unit, (∃ block, held block ∧ block.Covers unit) ↔
      ∃ block, other block ∧ block.Covers unit) (block : Block) : held block ↔ other block := by
  have forward {held other : Block → Prop} (first : Decomposition top held)
      (second : Decomposition top other) (left : Merged top held) (right : Merged top other)
      (units : ∀ unit, (∃ block, held block ∧ block.Covers unit) ↔
        ∃ block, other block ∧ block.Covers unit) (holds : held block) : other block := by
    -- grow the block inside the other family, then grow that member back inside the first
    obtain ⟨outer, found, fits, touch⟩ := second.absorbs right block.order block rfl
      (first.bounded block holds) (first.aligned block holds)
      (fun unit inside => (units unit).mp ⟨block, holds, inside⟩)
    obtain ⟨again, kept, larger, meet⟩ := first.absorbs left outer.order outer rfl
      (second.bounded outer found) (second.aligned outer found)
      (fun unit inside => (units unit).mpr ⟨outer, found, inside⟩)
    have same : block = again := by
      by_contra nodup
      have apart := first.apart block again holds kept nodup
      have inner := (first.aligned block holds).nested (second.aligned outer found) fits touch
      have wide := (second.aligned outer found).nested (first.aligned again kept) larger meet
      have start := block.covers_base
      apply apart.not_covers start
      simp only [Block.Covers] at start ⊢
      omega
    subst again
    rwa [(first.aligned block holds).eq_of_touch (second.aligned outer found) (by omega) touch]
  exact ⟨forward first second left right units,
    forward second first right left (fun unit => (units unit).symm)⟩

end Decomposition

end TinyKernel.Lib
