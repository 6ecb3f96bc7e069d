import TinyKernel.Selinux.EbitmapSets

/-! Comparing and enumerating extensible bitmaps, and what holds of every bitmap that the interface
makes. -/

namespace TinyKernel.Selinux

open Nat

open List hiding Vector

variable {width units : Nat} {n n1 n2 : Node width units}
  {nodes nodes1 nodes2 next1 next2 : List (Node width units)}

theorem Node.Good.has (good : n.Good) : ∃ b, n.Has b := by
  obtain ⟨k, set⟩ := good.nonzero
  exact ⟨n.startbit + k, Nat.le_add_right _ _, by simpa using set⟩

/-- Nodes at different places are apart, because both places are multiples of the size. -/
theorem Node.Good.end_le (good1 : n1.Good) (good2 : n2.Good) (lt : n1.startbit < n2.startbit) :
    n1.startbit + n1.size ≤ n2.startbit := by
  obtain ⟨p, first⟩ := good1.aligned
  obtain ⟨q, second⟩ := good2.aligned
  rw [first, second] at lt ⊢
  have before := Nat.lt_of_mul_lt_mul_left lt
  calc units * width * p + units * width = units * width * (p + 1) := by ring
    _ ≤ units * width * q := Nat.mul_le_mul_left _ before

theorem Sorted.start_le (sorted : Sorted (n :: nodes)) (has : Has (n :: nodes) b) :
    n.startbit ≤ b := by
  rcases has_cons.mp has with here | later
  · exact here.1
  have := sorted.behind later
  omega

theorem not_has_of_lt [NeZero width] (good1 : n1.Good) (good2 : n2.Good)
    (sorted2 : Sorted (n2 :: next2)) (lt : n1.startbit < n2.startbit) (has : n1.Has b) :
    ¬Has (n2 :: next2) b := by
  intro found
  have apart := good1.end_le good2 lt
  have low := sorted2.start_le found
  have high := has.lt
  omega

/-- The first nodes of equal sets stand at the same place. -/
theorem start_le_of_subset [NeZero width] (good1 : n1.Good) (good2 : n2.Good)
    (sorted2 : Sorted (n2 :: next2)) (sub : ∀ b, n1.Has b → Has (n2 :: next2) b) :
    n2.startbit ≤ n1.startbit := by
  by_contra before
  obtain ⟨b, has⟩ := good1.has
  exact not_has_of_lt good1 good2 sorted2 (not_le.mp before) has (sub b has)

theorem has_tail_iff [NeZero width] (sorted : Sorted (n :: nodes)) (b : Nat) :
    Has nodes b ↔ Has (n :: nodes) b ∧ n.startbit + n.size ≤ b := by
  rw [has_cons]
  constructor
  · intro later
    exact ⟨.inr later, sorted.behind later⟩
  rintro ⟨here | later, past⟩
  · exact absurd here.lt (not_lt.mpr past)
  exact later

theorem Node.ext_of_maps (start : n1.startbit = n2.startbit) (maps : n1.maps = n2.maps) :
    n1 = n2 := by
  cases n1
  cases n2
  simp_all

theorem bit_iff_has [NeZero width] (sorted : Sorted (n :: nodes)) (k : Nat) :
    Has (n :: nodes) (n.startbit + k) ∧ k < units * width ↔ n.bit k = true := by
  constructor
  · rintro ⟨has, bound⟩
    have low := Nat.le_add_right n.startbit k
    have high : n.startbit + k < n.startbit + n.size := Nat.add_lt_add_left bound _
    simpa using (has_iff_of_mem sorted (.head _) low high).mp has
  intro set
  refine ⟨has_cons.mpr (.inl ⟨le_add_right _ _, by simpa using set⟩), Node.bit_lt set⟩

/-- The nodes are determined by the set. -/
theorem nodes_eq [NeZero width] (good1 : ∀ n ∈ nodes1, n.Good) (good2 : ∀ n ∈ nodes2, n.Good)
    (sorted1 : Sorted nodes1) (sorted2 : Sorted nodes2) (same : ∀ b, Has nodes1 b ↔ Has nodes2 b) :
    nodes1 = nodes2 := by
  induction nodes1 generalizing nodes2 with
  | nil =>
    cases nodes2 with
    | nil => rfl
    | cons n2 next2 => ?_
    obtain ⟨b, has⟩ := (good2 n2 (.head _)).has
    obtain ⟨n, mem, -⟩ := (same b).mpr (has_cons.mpr (.inl has))
    cases mem
  | cons n1 next1 ih => ?_
  cases nodes2 with
  | nil =>
    obtain ⟨b, has⟩ := (good1 n1 (.head _)).has
    obtain ⟨n, mem, -⟩ := (same b).mp (has_cons.mpr (.inl has))
    cases mem
  | cons n2 next2 => ?_
  obtain ⟨isGood1, rest1⟩ := forall_mem_cons.mp good1
  obtain ⟨isGood2, rest2⟩ := forall_mem_cons.mp good2
  have start : n1.startbit = n2.startbit := by
    apply le_antisymm
    · exact start_le_of_subset isGood2 isGood1 sorted1 fun b has =>
        (same b).mpr (has_cons.mpr (.inl has))
    exact start_le_of_subset isGood1 isGood2 sorted2 fun b has =>
      (same b).mp (has_cons.mpr (.inl has))
  have maps : n1.maps = n2.maps := by
    apply maps_eq
    intro k
    apply Bool.eq_iff_iff.mpr
    rw [← bit_iff_has sorted1, ← bit_iff_has sorted2, start, same]
  obtain rfl := Node.ext_of_maps start maps
  congr 1
  apply ih rest1 rest2 (pairwise_cons.mp sorted1).2 (pairwise_cons.mp sorted2).2
  intro b
  rw [has_tail_iff sorted1, has_tail_iff sorted2, same]

theorem cmpLoop_iff : cmpLoop nodes1 nodes2 = true ↔ nodes1 = nodes2 := by
  fun_induction cmpLoop nodes1 nodes2 with
  | case1 n1 next1 n2 next2 same ih =>
    rw [ih, Node.ext_of_maps same.1 same.2]
    simp
  | case2 n1 next1 n2 next2 other =>
    simp only [Bool.false_eq_true, cons.injEq, false_iff, not_and]
    rintro rfl
    exact absurd ⟨rfl, rfl⟩ other
  | case3 => simp
  | case4 nodes1 nodes2 notCons notNil => ?_
  cases nodes1 with
  | nil =>
    cases nodes2 with
    | nil => exact absurd rfl (notNil rfl)
    | cons n2 next2 => simp
  | cons n1 next1 => ?_
  cases nodes2 with
  | nil => simp
  | cons n2 next2 => exact absurd rfl (notCons n1 next1 n2 next2 rfl)

theorem cmp_iff [NeZero width] {e2 : Ebitmap width units} (formed1 : WellFormed e1)
    (formed2 : WellFormed e2) : cmp e1 e2 = true ↔ ∀ b, Has e1.node b ↔ Has e2.node b := by
  rw [cmp]
  constructor
  · intro equal
    split at equal
    · cases equal
    rw [cmpLoop_iff.mp equal]
    exact fun _ => Iff.rfl
  intro same
  have nodes := nodes_eq formed1.good formed2.good formed1.sorted formed2.sorted same
  rw [if_neg (by rw [formed1.highbit, formed2.highbit, nodes]; simp)]
  exact cmpLoop_iff.mpr nodes

section

theorem lastUnit_cases (maps : Vector (BitVec width) units) (bound : i ≤ units) :
    (∃ last : Fin units, lastUnit maps i bound = some last ∧ last < i ∧ maps[last] ≠ 0 ∧
        ∀ j, (small : j < units) → last < j → j < i → maps[j] = 0) ∨
      lastUnit maps i bound = none ∧ ∀ j, (small : j < units) → j < i → maps[j] = 0 := by
  induction i with
  | zero => exact .inr ⟨rfl, nofun⟩
  | succ i ih => ?_
  rw [lastUnit]
  split
  next some =>
    refine .inl ⟨⟨i, bound⟩, rfl, lt_succ_self i, some, ?_⟩
    intro j _ after before
    simp only at after
    omega
  next zero =>
    have zero : maps[i] = 0 := not_not.mp zero
    rcases ih (le_of_succ_le bound) with ⟨last, found, below, ne, above⟩ | ⟨none, all⟩
    · refine .inl ⟨last, found, by omega, ne, ?_⟩
      intro j small after before
      by_cases same : j = i
      · subst same
        exact zero
      exact above j small after (by omega)
    refine .inr ⟨none, ?_⟩
    intro j small before
    by_cases same : j = i
    · subst same
      exact zero
    exact all j small (by omega)

theorem unitsWithin_iff (maps1 maps2 : Vector (BitVec width) units) (bound : i ≤ units) :
    unitsWithin maps1 maps2 i bound = true ↔
      ∀ j, (small : j < units) → j < i → maps1[j] &&& maps2[j] = maps2[j] := by
  induction i with
  | zero => simp [unitsWithin]
  | succ i ih => ?_
  rw [unitsWithin]
  split
  next out =>
    simp only [Bool.false_eq_true, false_iff, not_forall]
    exact ⟨i, bound, lt_succ_self i, out⟩
  next inside =>
    rw [ih]
    constructor
    · intro all j small before
      by_cases same : j = i
      · subst same
        exact not_not.mp inside
      exact all j small (by omega)
    intro all j small before
    exact all j small (by omega)

theorem and_eq_right_iff (x y : BitVec width) :
    x &&& y = y ↔ ∀ k, y.getLsbD k = true → x.getLsbD k = true := by
  constructor
  · intro same k set
    rw [← same, BitVec.getLsbD_and] at set
    exact (Bool.and_eq_true_iff.mp set).1
  intro sub
  apply BitVec.eq_of_getLsbD_eq
  intro k _
  rw [BitVec.getLsbD_and]
  cases set : y.getLsbD k with
  | false => simp
  | true => simp [sub k set]

theorem Node.bit_iff (n : Node width units) (k : Nat) :
    n.bit k = true ↔
      ∃ bound : k / width < units, (n.maps[k / width]).getLsbD (k % width) = true := by
  rw [Node.bit]
  split
  next bound => simp [bound]
  next out => simp [out]

/-- The highest bit of the last word that is not zero is the last bit. -/
theorem last_bit [NeZero width] (inside : i < units) (ne : n.maps[i] ≠ 0)
    (above : ∀ j, (small : j < units) → i < j → n.maps[j] = 0) :
    n.bit (i * width + log2 (n.maps[i]).toNat) = true ∧
      ∀ k, n.bit k = true → k ≤ i * width + log2 (n.maps[i]).toNat := by
  have value : (n.maps[i]).toNat ≠ 0 := by
    intro zero
    exact ne (BitVec.eq_of_toNat_eq zero)
  have small : log2 (n.maps[i]).toNat < width := (log2_lt value).mpr (n.maps[i]).isLt
  constructor
  · rw [bit_mk inside small]
    exact testBit_log2 value
  intro k set
  obtain ⟨bound, here⟩ := n.bit_iff k |>.mp set
  have parts := div_add_mod k width
  have rest := mod_lt k (NeZero.pos width)
  rcases lt_trichotomy (k / width) i with before | same | after
  · have scaled := mul_le_mul_left width (succ_le_of_lt before)
    rw [mul_succ, mul_comm width i] at scaled
    omega
  · have bits : (n.maps[i]).getLsbD (k % width) = true := by
      simpa only [same] using here
    have high : k % width ≤ log2 (n.maps[i]).toNat :=
      (le_log2 value).mpr (ge_two_pow_of_testBit bits)
    rw [same, mul_comm] at parts
    omega
  simp [above _ bound after] at here

theorem has_subset_iff (same : n1.startbit = n2.startbit) :
    (∀ b, n2.Has b → n1.Has b) ↔ ∀ k, n2.bit k = true → n1.bit k = true := by
  constructor
  · intro sub k set
    have has := (sub (n2.startbit + k) ⟨le_add_right _ _, by simpa using set⟩).2
    simpa [same] using has
  rintro sub b ⟨low, set⟩
  exact ⟨same ▸ low, sub _ (same ▸ set)⟩

theorem unitsWithin_iff_bits [NeZero width] {last : Fin units}
    (above : ∀ j, (small : j < units) → last < j → n2.maps[j] = 0) :
    unitsWithin n1.maps n2.maps (last + 1) last.isLt = true ↔
      ∀ k, n2.bit k = true → n1.bit k = true := by
  rw [unitsWithin_iff]
  constructor
  · intro all k set
    obtain ⟨bound, here⟩ := (n2.bit_iff k).mp set
    by_cases behind : last < k / width
    · simp [above _ bound behind] at here
    have sub := (and_eq_right_iff _ _).mp (all _ bound (by omega))
    exact (n1.bit_iff k).mpr ⟨bound, sub _ here⟩
  intro sub j small _
  apply (and_eq_right_iff _ _).mpr
  intro k set
  by_cases inside : k < width
  · have bits := sub (j * width + k)
    rw [bit_mk small inside, bit_mk small inside] at bits
    exact bits set
  rw [BitVec.getLsbD_of_ge _ _ (not_lt.mp inside)] at set
  cases set

theorem nodeWithin_iff [NeZero width] (good : n2.Good) (same : n1.startbit = n2.startbit)
    (m : Nat) :
    nodeWithin n1 n2 m = true ↔ (∀ b, n2.Has b → n1.Has b) ∧ (m = 0 ∨ ∀ b, n2.Has b → b ≤ m) := by
  rcases lastUnit_cases n2.maps le_rfl with ⟨last, found, -, ne, above⟩ | ⟨-, zero⟩
  · have above := fun j small after => above j small after small
    obtain ⟨set, high⟩ : n2.bit (last * width + log2 (n2.maps[last]).toNat) = true ∧
        ∀ k, n2.bit k = true → k ≤ last * width + log2 (n2.maps[last]).toNat :=
      last_bit last.isLt ne above
    have bound := Node.bit_lt set
    have small := good.small
    have exact : u32 (n2.startbit + last * width + log2 (n2.maps[last]).toNat) =
        n2.startbit + (last * width + log2 (n2.maps[last]).toNat) := by
      rw [add_assoc]
      exact u32_eq (by omega)
    have within : unitsWithin n1.maps n2.maps (last + 1) last.isLt = true ↔
        ∀ k, n2.bit k = true → n1.bit k = true := unitsWithin_iff_bits above
    have limit : (m = 0 ∨ ∀ b, n2.Has b → b ≤ m) ↔ ¬(m ≠ 0 ∧
        n2.startbit + (last * width + log2 (n2.maps[last]).toNat) > m) := by
      rw [not_and_or, not_not, not_lt]
      apply or_congr_right
      constructor
      · intro all
        exact all _ ⟨le_add_right _ _, by simpa using set⟩
      rintro le b ⟨low, here⟩
      have := high _ here
      omega
    simp only [nodeWithin, found, exact]
    rw [has_subset_iff same, limit, ← within]
    split
    next out => exact iff_of_false (by simp) fun both => both.2 out
    next inside => exact ⟨fun units => ⟨units, inside⟩, fun both => both.1⟩
  obtain ⟨k, set⟩ := good.nonzero
  obtain ⟨bound, here⟩ := (n2.bit_iff k).mp set
  simp [zero _ bound bound] at here

theorem has_cons_subset_iff [NeZero width] (sorted1 : Sorted (n1 :: next1))
    (sorted2 : Sorted (n2 :: next2)) (same : n1.startbit = n2.startbit) :
    (∀ b, Has (n2 :: next2) b → Has (n1 :: next1) b) ↔
      (∀ b, n2.Has b → n1.Has b) ∧ ∀ b, Has next2 b → Has next1 b := by
  have size : n1.size = n2.size := rfl
  constructor
  · intro sub
    constructor
    · intro b here
      rcases has_cons.mp (sub b (has_cons.mpr (.inl here))) with found | later
      · exact found
      have past := sorted1.behind later
      have bound := here.lt
      omega
    intro b later
    have past := sorted2.behind later
    rcases has_cons.mp (sub b (has_cons.mpr (.inr later))) with here | found
    · have bound := here.lt
      omega
    exact found
  rintro ⟨first, rest⟩ b has
  exact has_cons.mpr ((has_cons.mp has).imp (first b) (rest b))

theorem containsLoop_iff [NeZero width] (m : Nat) (good1 : ∀ n ∈ nodes1, n.Good)
    (good2 : ∀ n ∈ nodes2, n.Good) (sorted1 : Sorted nodes1) (sorted2 : Sorted nodes2) :
    containsLoop m nodes1 nodes2 = true ↔
      (∀ b, Has nodes2 b → Has nodes1 b) ∧ (m = 0 ∨ ∀ b, Has nodes2 b → b ≤ m) := by
  fun_induction containsLoop m nodes1 nodes2 with
  | case1 nodes1 => simp [Has]
  | case2 n2 next2 =>
    obtain ⟨b, has⟩ := (good2 n2 (.head _)).has
    simp only [Bool.false_eq_true, false_iff, not_and]
    intro sub
    obtain ⟨n, mem, -⟩ := sub b (has_cons.mpr (.inl has))
    cases mem
  | case3 n1 next1 n2 next2 le lt ih =>
    obtain ⟨isGood1, rest1⟩ := forall_mem_cons.mp good1
    rw [ih rest1 good2 (pairwise_cons.mp sorted1).2 sorted2]
    apply and_congr_left
    intro _
    apply forall_congr'
    intro b
    apply imp_congr_right
    intro has
    rw [has_cons]
    refine (or_iff_right ?_).symm
    intro here
    exact not_has_of_lt isGood1 (good2 n2 (.head _)) sorted2 lt here has
  | case4 n1 next1 n2 next2 le eq out =>
    have isGood2 := good2 n2 mem_cons_self
    have same : n1.startbit = n2.startbit := le_antisymm le (not_lt.mp eq)
    have notWithin : ¬nodeWithin n1 n2 m = true := by simpa using out
    rw [nodeWithin_iff isGood2 same] at notWithin
    simp only [Bool.false_eq_true, false_iff]
    rintro ⟨sub, limit⟩
    rw [has_cons_subset_iff sorted1 sorted2 same] at sub
    exact notWithin ⟨sub.1, limit.imp_right fun all b here => all b (has_cons.mpr (.inl here))⟩
  | case5 n1 next1 n2 next2 le eq inside ih =>
    obtain ⟨-, rest1⟩ := forall_mem_cons.mp good1
    obtain ⟨isGood2, rest2⟩ := forall_mem_cons.mp good2
    have same : n1.startbit = n2.startbit := le_antisymm le (not_lt.mp eq)
    have within : nodeWithin n1 n2 m = true := by simpa using inside
    obtain ⟨sub, limit⟩ := (nodeWithin_iff isGood2 same m).mp within
    rw [ih rest1 rest2 (pairwise_cons.mp sorted1).2 (pairwise_cons.mp sorted2).2,
      has_cons_subset_iff sorted1 sorted2 same]
    simp only [has_cons]
    constructor
    · rintro ⟨rest, other⟩
      refine ⟨⟨sub, rest⟩, ?_⟩
      rcases limit with zero | first
      · exact .inl zero
      exact other.imp_right fun later b has => has.elim (first b) (later b)
    rintro ⟨⟨-, rest⟩, other⟩
    exact ⟨rest, other.imp_right fun all b later => all b (.inr later)⟩
  | case6 n1 next1 n2 next2 before => ?_
  have isGood2 := good2 n2 mem_cons_self
  obtain ⟨b, has⟩ := isGood2.has
  simp only [Bool.false_eq_true, false_iff, not_and]
  intro sub
  exact absurd (sub b (has_cons.mpr (.inl has)))
    (not_has_of_lt isGood2 (good1 n1 (.head _)) sorted1 (not_le.mp before) has)

theorem lastEnd_cases (prev : Option (Node width units)) (nodes : List (Node width units)) :
    nodes = [] ∨ ∃ n ∈ nodes, lastEnd prev nodes = n.startbit + n.size := by
  induction nodes generalizing prev with
  | nil => exact .inl rfl
  | cons n next ih => ?_
  right
  rcases ih (some n) with rfl | ⟨m, mem, last⟩
  · exact ⟨n, mem_cons_self, rfl⟩
  exact ⟨m, .tail _ mem, last⟩

variable {e : Ebitmap width units}

theorem WellFormed.dvd_highbit (formed : WellFormed e) : units * width ∣ e.highbit := by
  rw [formed.highbit]
  rcases lastEnd_cases none e.node with none | ⟨n, mem, last⟩
  · simp [none, lastEnd]
  rw [last]
  exact dvd_add (formed.good n mem).aligned (dvd_refl _)

/-- A multiple of the size that bounds the bits bounds the nodes. -/
theorem WellFormed.highbit_le (formed : WellFormed e) (align : units * width ∣ limit)
    (bounded : ∀ b, Has e.node b → b < limit) : e.highbit ≤ limit := by
  rw [formed.highbit]
  rcases lastEnd_cases none e.node with none | ⟨n, mem, last⟩
  · simp [none, lastEnd]
  rw [last]
  have good := formed.good n mem
  obtain ⟨b, has⟩ := good.has
  have before : n.startbit < limit := has.1.trans_lt (bounded b ⟨n, mem, has⟩)
  obtain ⟨p, first⟩ := good.aligned
  obtain ⟨q, rfl⟩ := align
  rw [first] at before ⊢
  exact Nat.mul_succ (units * width) p ▸ Nat.mul_le_mul_left _ (Nat.lt_of_mul_lt_mul_left before)

theorem contains_iff [NeZero width] {e2 : Ebitmap width units} (formed1 : WellFormed e1)
    (formed2 : WellFormed e2) (m : Nat) :
    contains e1 e2 m = true ↔
      (∀ b, Has e2.node b → Has e1.node b) ∧ (m = 0 ∨ ∀ b, Has e2.node b → b ≤ m) := by
  have loop := containsLoop_iff m formed1.good formed2.good formed1.sorted formed2.sorted
  rw [contains]
  split
  next short =>
    simp only [Bool.false_eq_true, false_iff]
    rintro ⟨sub, -⟩
    have fits := formed2.highbit_le formed1.dvd_highbit fun b has =>
      formed1.lt_highbit (sub b has)
    omega
  next => exact loop

end

section

/-- The set bits of a node from an offset on. -/
def Node.positives (n : Node width units) (offset : Nat) : List Nat :=
  ((range' offset (n.size - offset)).filter n.bit).map (n.startbit + ·)

def positives (nodes : List (Node width units)) : List Nat :=
  nodes.flatMap fun n => n.positives 0

variable {b : Nat}

theorem positives_of_found (inside : n.findNextBit offset < n.size) :
    n.positives offset =
      (n.startbit + n.findNextBit offset) :: n.positives (n.findNextBit offset + 1) := by
  rcases findNextBit_cases n offset with ⟨-, low, set, first⟩ | ⟨gone, -⟩
  · generalize n.findNextBit offset = ofs at *
    have parts : range' offset (n.size - offset) =
        range' offset (ofs - offset) ++ ofs :: range' (ofs + 1) (n.size - (ofs + 1)) := by
      have cons : range' offset (ofs - offset) ++ range' (offset + (ofs - offset)) (n.size - ofs) =
            range' offset (ofs - offset + (n.size - ofs)) := range'_append_1
      have rest : n.size - ofs = n.size - (ofs + 1) + 1 := by omega
      have whole : ofs - offset + (n.size - ofs) = n.size - offset := by omega
      rw [whole, Nat.add_sub_cancel' low, rest, range'_succ] at cons
      exact cons.symm
    have clear : (range' offset (ofs - offset)).filter n.bit = [] := by
      apply filter_eq_nil_iff.mpr
      intro k mem set
      have := first k (mem_range'_1.mp mem).1 set
      have := (mem_range'_1.mp mem).2
      omega
    simp [Node.positives, parts, clear, set]
  omega

theorem positives_of_missing (gone : ¬n.findNextBit offset < n.size) : n.positives offset = [] := by
  rcases findNextBit_cases n offset with ⟨inside, -⟩ | ⟨-, clear⟩
  · exact absurd inside gone
  rw [Node.positives, map_eq_nil_iff, filter_eq_nil_iff]
  intro k mem set
  obtain ⟨low, high⟩ := mem_range'_1.mp mem
  rw [clear k (by omega) low] at set
  cases set

/-- The bits that are left to visit after the one that was found first. -/
theorem firstPositive_spec (nodes : List (Node width units)) :
    (firstPositive nodes = none ∧ positives nodes = []) ∨
      ∃ n next bit, firstPositive nodes = some (n :: next, bit) ∧ n.startbit ≤ bit ∧
        positives nodes = bit :: (n.positives (bit - n.startbit + 1) ++ positives next) := by
  induction nodes with
  | nil => exact .inl ⟨rfl, rfl⟩
  | cons n next ih => ?_
  simp only [firstPositive, positives, flatMap_cons]
  split
  next inside =>
    refine .inr ⟨n, next, _, rfl, Nat.le_add_right _ _, ?_⟩
    rw [positives_of_found inside, Nat.add_sub_cancel_left]
    rfl
  next gone =>
    rw [positives_of_missing gone]
    simpa [positives] using ih

/-- The bits that the loop visits from a state on. -/
def Remains (e : Ebitmap width units) (s : List (Node width units) × Nat) (bits : List Nat) :
    Prop :=
  (∀ b ∈ bits, b < e.highbit) ∧ (s = ([], e.highbit) ∧ bits = [] ∨
    ∃ n next, s.1 = n :: next ∧ n.startbit ≤ s.2 ∧
      bits = s.2 :: (n.positives (s.2 - n.startbit + 1) ++ positives next))

theorem remains_first (e : Ebitmap width units) (nodes : List (Node width units))
    (bounded : ∀ b ∈ positives nodes, b < e.highbit) :
    Remains e ((firstPositive nodes).getD ([], e.highbit)) (positives nodes) := by
  refine ⟨bounded, ?_⟩
  rcases firstPositive_spec nodes with ⟨none, empty⟩ | ⟨n, next, bit, found, low, bits⟩
  · rw [none, empty]
    exact .inl ⟨rfl, rfl⟩
  rw [found]
  exact .inr ⟨n, next, rfl, low, bits⟩

variable {e : Ebitmap width units} {s : List (Node width units) × Nat}

theorem remains_next {bit : Nat} {bits : List Nat} (remains : Remains e s (bit :: bits)) :
    s.2 = bit ∧ Remains e (nextPositive e s.1 s.2) bits := by
  obtain ⟨bounded, ⟨-, empty⟩ | ⟨n, next, isNext, low, same⟩⟩ := remains
  · cases empty
  obtain ⟨rfl, rfl⟩ := cons.inj same
  have bounded := (forall_mem_cons.mp bounded).2
  refine ⟨rfl, ?_⟩
  rw [isNext]
  simp only [nextPositive]
  split
  next inside =>
    refine ⟨bounded, .inr ⟨n, next, rfl, le_add_left _ _, ?_⟩⟩
    rw [positives_of_found inside]
    simp [add_comm]
  next gone =>
    rw [positives_of_missing gone, nil_append] at bounded ⊢
    exact remains_first e next bounded

theorem forEachPositiveBit_eq {bits : List Nat} (remains : Remains e s bits)
    (enough : bits.length < fuel) : forEachPositiveBit e fuel s = (bits, true) := by
  induction bits generalizing s fuel with
  | nil =>
    obtain ⟨-, ⟨rfl, -⟩ | ⟨n, next, -, -, same⟩⟩ := remains
    · obtain ⟨fuel, rfl⟩ := exists_eq_succ_of_ne_zero (ne_of_gt enough)
      simp [forEachPositiveBit]
    cases same
  | cons bit bits ih => ?_
  obtain ⟨fuel, rfl⟩ := exists_eq_succ_of_ne_zero (ne_zero_of_lt enough)
  obtain ⟨rfl, next⟩ := remains_next remains
  have inside : s.2 < e.highbit := remains.1 _ mem_cons_self
  simp only [forEachPositiveBit, inside, if_true]
  rw [ih next (by simpa using enough)]

theorem mem_node_positives [NeZero width] : b ∈ n.positives 0 ↔ n.Has b := by
  simp only [Node.positives, mem_map, mem_filter, mem_range'_1, Node.Has]
  constructor
  · rintro ⟨k, ⟨-, set⟩, rfl⟩
    exact ⟨le_add_right _ _, by simpa using set⟩
  rintro ⟨low, set⟩
  have bound := Node.bit_lt set
  exact ⟨b - n.startbit, ⟨⟨by omega, by omega⟩, set⟩, by omega⟩

theorem mem_positives [NeZero width] : b ∈ positives nodes ↔ Has nodes b := by
  simp [positives, Has, mem_node_positives]

theorem positives_sorted [NeZero width] (sorted : Sorted nodes) :
    (positives nodes).Pairwise (· < ·) := by
  induction nodes with
  | nil => exact Pairwise.nil
  | cons n next ih => ?_
  obtain ⟨-, rest⟩ := pairwise_cons.mp sorted
  refine pairwise_append.mpr ⟨?_, ih rest, ?_⟩
  · apply pairwise_map.mpr
    apply (Pairwise.filter _ (pairwise_lt_range' 1)).imp
    intro a b lt
    omega
  intro a first b later
  have high := (mem_node_positives.mp first).lt
  have low := sorted.behind (mem_positives.mp later)
  omega

end

section

/-- The bitmaps that the interface makes, each with the last value that was set for each bit. -/
inductive Made : Ebitmap width units → (Nat → Bool) → Prop
  | init : Made init fun _ => false
  | set {e e' : Ebitmap width units} {bits : Nat → Bool} {bit : Nat} {value alloc : Bool}
      {status : Status} : Made e bits → bit < 2 ^ 32 - units * width →
      setBit e bit value alloc = some (status, e') →
      Made e' (if status = .ok then Function.update bits bit value else bits)
  | cpy {e : Ebitmap width units} {bits : Nat → Bool} (allocs : List Bool) : Made e bits →
      Made (cpy e allocs).2 (if (cpy e allocs).1 = .ok then bits else fun _ => false)

/-- A bitmap and the set that it stands for. -/
structure Stands (e : Ebitmap width units) (bits : Nat → Bool) : Prop where
  formed : WellFormed e
  has : ∀ b, Has e.node b ↔ bits b = true

theorem stands_init : Stands (init : Ebitmap width units) fun _ => false where
  formed := ⟨nofun, Pairwise.nil, rfl⟩
  has := by simp [Has, init]

variable {e : Ebitmap width units} {bits : Nat → Bool}

theorem Stands.setBit [NeZero width] [NeZero units] (stands : Stands e bits) {bit : Nat}
    (small : bit < 2 ^ 32 - units * width) (value alloc : Bool) :
    ∃ status e', setBit e bit value alloc = some (status, e') ∧ (alloc = true → status = .ok) ∧
      Stands e' (if status = .ok then Function.update bits bit value else bits) := by
  obtain ⟨formed, has⟩ := stands
  obtain ⟨status, nodes', highbit', looped, done, enough⟩ :=
    setLoop_spec value alloc small formed.good formed.sorted formed.highbit nofun
  refine ⟨status, ⟨nodes', highbit'⟩, by simp [Selinux.setBit, looped], enough,
    ⟨done.good, done.sorted, done.highbit⟩, ?_⟩
  intro b
  rw [done.has]
  by_cases here : b = bit
  · by_cases ok : status = .ok
    · simp [here, ok]
    simp [ok, has]
  by_cases ok : status = .ok
  · simp [here, ok, has, Function.update_of_ne]
  simp [ok, has]

theorem cpyLoop_eq (nodes : List (Node width units)) (allocs : List Bool) :
    cpyLoop nodes allocs = none ∨ cpyLoop nodes allocs = some nodes := by
  induction nodes generalizing allocs with
  | nil => exact .inr rfl
  | cons n next ih => ?_
  rw [cpyLoop]
  split
  · exact .inl rfl
  rcases ih allocs.tail with none | some
  · simp [none]
  simp [some]

theorem Stands.cpy (stands : Stands e bits) (allocs : List Bool) :
    Stands (cpy e allocs).2 (if (cpy e allocs).1 = .ok then bits else fun _ => false) := by
  rw [Selinux.cpy]
  rcases cpyLoop_eq e.node allocs with none | some
  · rw [none]
    exact stands_init
  rw [some]
  exact stands

theorem Made.stands [NeZero width] [NeZero units] (made : Made e bits) : Stands e bits := by
  induction made with
  | init => exact stands_init
  | set _ small done ih =>
    obtain ⟨status, e', same, -, stands⟩ := ih.setBit small _ _
    rw [done] at same
    cases same
    exact stands
  | cpy allocs _ ih => exact ih.cpy allocs

end

/-- Every bitmap that the interface makes is the set of its bits: lookups, the order and form of the
nodes, the enumeration, and the comparison with any other such bitmap. No `BUG_ON` fires. -/
theorem ebitmap_is_set [NeZero width] [NeZero units] (e : Ebitmap width units) (bits : Nat → Bool)
    (made : Made e bits) :
    (∀ b, getBit e b = some (bits b)) ∧ WellFormed e ∧
      (∃ positive : List Nat, positive.Pairwise (· < ·) ∧ (∀ b, b ∈ positive ↔ bits b = true) ∧
        ∀ fuel > positive.length, forEachPositiveBit e fuel (startPositive e) = (positive, true)) ∧
      (∀ bit < 2 ^ 32 - units * width, ∀ value alloc, ∃ status e',
        setBit e bit value alloc = some (status, e') ∧ (alloc = true → status = .ok)) ∧
      ∀ e2 bits2, Made e2 bits2 →
        (cmp e e2 = true ↔ bits = bits2) ∧
          ∀ m, contains e e2 m = true ↔
            (∀ b, bits2 b = true → bits b = true) ∧ (m = 0 ∨ ∀ b, bits2 b = true → b ≤ m) := by
  obtain ⟨formed, has⟩ := made.stands
  refine ⟨?_, formed, ⟨positives e.node, positives_sorted formed.sorted, ?_, ?_⟩, ?_, ?_⟩
  · intro b
    obtain ⟨found, got, same⟩ := getBit_eq formed b
    rw [got, Option.some.injEq]
    exact Bool.eq_iff_iff.mpr (same.trans (has b))
  · intro b
    exact mem_positives.trans (has b)
  · intro fuel enough
    apply forEachPositiveBit_eq _ enough
    apply remains_first
    intro b member
    exact formed.lt_highbit (mem_positives.mp member)
  · intro bit small value alloc
    obtain ⟨status, e', done, ok, -⟩ := made.stands.setBit small value alloc
    exact ⟨status, e', done, ok⟩
  intro e2 bits2 made2
  obtain ⟨formed2, has2⟩ := made2.stands
  constructor
  · rw [cmp_iff formed formed2]
    simp only [has, has2]
    exact ⟨fun same => funext fun b => Bool.eq_iff_iff.mpr (same b), fun same b => by rw [same]⟩
  intro m
  rw [contains_iff formed formed2]
  simp only [has, has2]

/-- A sequence of changes of bits, with memory for each of them. -/
def setBits : List (Nat × Bool) → Ebitmap 64 6 → Option (Ebitmap 64 6)
  | [], e => some e
  | (bit, value) :: changes, e => (setBit e bit value true).bind fun r => setBits changes r.2

theorem Made.setBits {e : Ebitmap 64 6} {bits : Nat → Bool} (made : Made e bits)
    (changes : List (Nat × Bool)) (small : ∀ change ∈ changes, change.1 < 2 ^ 32 - 6 * 64) :
    ∃ e', Selinux.setBits changes e = some e' ∧
      Made e' (changes.foldl (fun bits change => Function.update bits change.1 change.2) bits) := by
  induction changes generalizing e bits with
  | nil => exact ⟨e, rfl, made⟩
  | cons change changes ih => ?_
  obtain ⟨here, later⟩ := List.forall_mem_cons.mp small
  obtain ⟨status, e1, done, ok, -⟩ := made.stands.setBit here change.2 true
  obtain rfl := ok rfl
  obtain ⟨e', ran, made'⟩ := ih (made.set here done) later
  exact ⟨e', by rw [Selinux.setBits, done]; exact ran, made'⟩

/-- Three nodes of six words, of which the one in the middle is emptied again, and the same set made
in another order. -/
theorem ebitmap_is_set_two_nodes :
    ∃ e e2 : Ebitmap 64 6, setBits [(5, true), (400, true), (800, true), (400, false)] init =
        some e ∧ setBits [(800, true), (5, true)] init = some e2 ∧ e.node.length = 2 ∧
      getBit e 400 = some false ∧ getBit e 800 = some true ∧ cmp e e2 = true ∧
      contains e e2 799 = false := by
  obtain ⟨e, ran, made⟩ :=
    Made.init.setBits [(5, true), (400, true), (800, true), (400, false)] (by decide)
  obtain ⟨e2, ran2, made2⟩ := Made.init.setBits [(800, true), (5, true)] (by decide)
  obtain ⟨get, -, -, -, compare⟩ := ebitmap_is_set e _ made
  obtain ⟨same, contained⟩ := compare e2 _ made2
  have nodes : (setBits [(5, true), (400, true), (800, true), (400, false)] init).map
      (fun e => e.node.length) = some 2 := by decide +kernel
  rw [ran] at nodes
  refine ⟨e, e2, ran, ran2, Option.some.inj nodes, (get 400).trans (by simp),
    (get 800).trans (by simp), same.mpr ?_, ?_⟩
  · funext b
    simp only [List.foldl, Function.update_apply]
    grind
  apply Bool.eq_false_iff.mpr
  intro within
  rcases ((contained 799).mp within).2 with zero | low
  · cases zero
  exact absurd (low 800 (by simp)) (by decide)

/-- However a bitmap came about, nothing of that is left in it but its set. -/
theorem ebitmap_history_free [NeZero width] [NeZero units] {e e2 : Ebitmap width units}
    {bits : Nat → Bool} (made : Made e bits) (made2 : Made e2 bits) : e = e2 := by
  obtain ⟨formed, has⟩ := made.stands
  obtain ⟨formed2, has2⟩ := made2.stands
  have nodes :=
    nodes_eq formed.good formed2.good formed.sorted formed2.sorted fun b => (has b).trans
      (has2 b).symm
  have high := formed.highbit.trans (nodes ▸ formed2.highbit.symm)
  cases e
  simp_all

theorem ebitmap_history_free_cleared :
    ∃ e e' : Ebitmap 64 6, setBit init 5 true true = some (.ok, e) ∧
      setBit e 5 false true = some (.ok, e') ∧ e' = init := by
  have small : 5 < 2 ^ 32 - 6 * 64 := by decide
  have made := Made.set (.set .init small (rfl : setBit init 5 true true = some (.ok, _))) small
    (rfl : setBit _ 5 false true = some (.ok, _))
  refine ⟨_, _, rfl, rfl, ebitmap_history_free made ?_⟩
  simpa using Made.init

end TinyKernel.Selinux
