import TinyKernel.Selinux.EbitmapNodes

/-! An extensible bitmap as a set: its nodes are a canonical form of the set. -/

namespace TinyKernel.Selinux

open List Nat

variable {width units : Nat}

/-- The bit at a place of the whole bitmap. -/
def Node.Has (n : Node width units) (b : Nat) : Prop :=
  n.startbit ≤ b ∧ n.bit (b - n.startbit) = true

def Has (nodes : List (Node width units)) (b : Nat) : Prop := ∃ n ∈ nodes, n.Has b

/-- A node at a multiple of its size that is not empty. -/
structure Node.Good (n : Node width units) : Prop where
  aligned : n.size ∣ n.startbit
  small : n.startbit + n.size < 2 ^ 32
  nonzero : ∃ k, n.bit k = true

/-- The nodes stand in order and do not overlap. -/
def Sorted (nodes : List (Node width units)) : Prop :=
  nodes.Pairwise fun n m => n.startbit + n.size ≤ m.startbit

/-- Where the last node ends, if there is one from the node before on. -/
def lastEnd (prev : Option (Node width units)) : List (Node width units) → Nat
  | [] => (prev.map fun n => n.startbit + n.size).getD 0
  | n :: next => lastEnd (some n) next

structure WellFormed (e : Ebitmap width units) : Prop where
  good : ∀ n ∈ e.node, n.Good
  sorted : Sorted e.node
  highbit : e.highbit = lastEnd none e.node

section

variable [NeZero width] {n m : Node width units} {nodes : List (Node width units)} {b : Nat}

theorem Node.Has.lt (has : n.Has b) : b < n.startbit + n.size := by
  have bound := Node.bit_lt has.2
  omega

omit [NeZero width] in
theorem has_cons : Has (n :: nodes) b ↔ n.Has b ∨ Has nodes b := by simp [Has]

omit [NeZero width] in
theorem Has.start_le (has : Has nodes b) {lower : Nat} (above : ∀ n ∈ nodes, lower ≤ n.startbit) :
    lower ≤ b := by
  obtain ⟨n, mem, low, -⟩ := has
  exact (above n mem).trans low

omit [NeZero width] in
/-- What the later nodes hold is behind the first one. -/
theorem Sorted.behind (sorted : Sorted (n :: nodes)) (has : Has nodes b) :
    n.startbit + n.size ≤ b :=
  has.start_le (pairwise_cons.mp sorted).1

theorem has_iff_of_mem (sorted : Sorted nodes) (mem : n ∈ nodes) (low : n.startbit ≤ b)
    (high : b < n.startbit + n.size) : Has nodes b ↔ n.bit (b - n.startbit) = true := by
  constructor
  · rintro ⟨m, other, here⟩
    have bound := here.lt
    have low' := here.1
    by_cases same : n = m
    · subst same
      exact here.2
    have apart : Std.Symm fun n m : Node width units =>
        n.startbit + n.size ≤ m.startbit ∨ m.startbit + m.size ≤ n.startbit := ⟨fun _ _ => Or.symm⟩
    have either := (sorted.imp fun le => .inl le : nodes.Pairwise fun n m =>
      n.startbit + n.size ≤ m.startbit ∨ m.startbit + m.size ≤ n.startbit)
    rcases either.forall mem other same with before | after <;> omega
  intro set
  exact ⟨n, mem, low, set⟩

end

section

variable [NeZero width] {nodes : List (Node width units)}

theorem getLoop_eq (sorted : Sorted nodes) (bit : Nat) :
    ∃ found, getLoop bit nodes = some found ∧ (found = true ↔ Has nodes bit) := by
  induction nodes with
  | nil => exact ⟨false, rfl, by simp [Has]⟩
  | cons n next ih => ?_
  rw [getLoop]
  split
  next low =>
    split
    next high =>
      rw [node_getBit low high]
      exact ⟨_, rfl, (has_iff_of_mem sorted (.head _) low high).symm⟩
    next past =>
      obtain ⟨found, looked, same⟩ := ih (pairwise_cons.mp sorted).2
      refine ⟨found, looked, same.trans ?_⟩
      rw [has_cons]
      refine (or_iff_right ?_).symm
      intro has
      exact past has.lt
  next before =>
    refine ⟨false, rfl, ?_⟩
    simp only [Bool.false_eq_true, false_iff]
    intro has
    rcases has_cons.mp has with here | later
    · exact before here.1
    have := sorted.behind later
    omega

omit [NeZero width] in
theorem le_lastEnd_some {n : Node width units} (sorted : Sorted (n :: nodes)) :
    n.startbit + n.size ≤ lastEnd (some n) nodes := by
  induction nodes generalizing n with
  | nil => exact le_rfl
  | cons m next ih => ?_
  obtain ⟨first, rest⟩ := pairwise_cons.mp sorted
  have before := first m mem_cons_self
  have after := ih rest
  rw [lastEnd]
  omega

omit [NeZero width] in
theorem le_lastEnd {prev : Option (Node width units)} (sorted : Sorted nodes) {n : Node width units}
    (mem : n ∈ nodes) : n.startbit + n.size ≤ lastEnd prev nodes := by
  induction nodes generalizing prev with
  | nil => cases mem
  | cons m next ih => ?_
  rcases mem_cons.mp mem with rfl | later
  · exact le_lastEnd_some sorted
  exact ih (pairwise_cons.mp sorted).2 later

variable {e : Ebitmap width units}

theorem WellFormed.lt_highbit (formed : WellFormed e) (has : Has e.node b) : b < e.highbit := by
  obtain ⟨n, mem, here⟩ := has
  rw [formed.highbit]
  exact here.lt.trans_le (le_lastEnd formed.sorted mem)

theorem getBit_eq (formed : WellFormed e) (bit : Nat) :
    ∃ found, getBit e bit = some found ∧ (found = true ↔ Has e.node bit) := by
  rw [getBit]
  split
  next past =>
    refine ⟨false, rfl, ?_⟩
    simp only [Bool.false_eq_true, false_iff]
    intro has
    have := formed.lt_highbit has
    omega
  next => exact getLoop_eq formed.sorted bit

end

section

/-- What `ebitmap_set_bit` leaves of the nodes behind `prev`. -/
structure SetDone (bit : Nat) (value : Bool) (prev : Option (Node width units))
    (nodes : List (Node width units)) (status : Status) (nodes' : List (Node width units))
    (highbit' : Nat) : Prop where
  good : ∀ n ∈ nodes', n.Good
  sorted : Sorted nodes'
  highbit : highbit' = lastEnd prev nodes'
  above : ∀ lower, units * width ∣ lower → lower ≤ bit → (∀ n ∈ nodes, lower ≤ n.startbit) →
    ∀ n ∈ nodes', lower ≤ n.startbit
  has : ∀ b, Has nodes' b ↔ if b = bit ∧ status = .ok then value = true else Has nodes b

variable {bit : Nat} {value alloc : Bool}
  {prev : Option (Node width units)} {nodes : List (Node width units)} {highbit : Nat}

theorem u32_eq {value : Nat} (small : value < 2 ^ 32) : u32 value = value := mod_eq_of_lt small

/-- Nothing has to be done: the bit has its value or there is no memory. -/
theorem SetDone.unchanged (good : ∀ n ∈ nodes, n.Good) (sorted : Sorted nodes)
    (isHigh : highbit = lastEnd prev nodes) (has : status = .ok → (Has nodes bit ↔ value = true)) :
    SetDone bit value prev nodes status nodes highbit where
  good := good
  sorted := sorted
  highbit := isHigh
  above := fun _ _ _ above => above
  has := by
    intro b
    split
    next here => rw [here.1, has here.2]
    next => rfl

theorem le_start_of_dvd {size : Nat} (pos : 0 < size) (aligned : size ∣ lower) (le : lower ≤ bit) :
    lower ≤ bit - bit % size := by
  obtain ⟨q, rfl⟩ := aligned
  have parts := div_add_mod bit size
  have before : q ≤ bit / size := (le_div_iff_mul_le pos).mpr (mul_comm size q ▸ le)
  have scaled := mul_le_mul_left size before
  omega

theorem start_add_le_of_dvd {size : Nat} (aligned : size ∣ upper) (lt : bit < upper) :
    bit - bit % size + size ≤ upper := by
  obtain ⟨q, rfl⟩ := aligned
  have parts := Nat.div_add_mod bit size
  have before : bit / size < q := Nat.div_lt_of_lt_mul lt
  have scaled := Nat.mul_le_mul_left size (Nat.succ_le_of_lt before)
  rw [mul_succ] at scaled
  omega

theorem bit_zero :
    (⟨startbit, Vector.replicate units 0⟩ : Node width units).bit offset = false := by
  simp [Node.bit]

/-- A node that is new or stands for an old one, in front of the others. -/
theorem Node.good_of_set {n : Node width units} (aligned : units * width ∣ n.startbit)
    (small : n.startbit ≤ bit ∧ bit < 2 ^ 32 - units * width) (has : n.Has bit) : n.Good where
  aligned := aligned
  small := by
    rw [Node.size]
    omega
  nonzero := ⟨_, has.2⟩

theorem insert_spec [NeZero width] [NeZero units] (small : bit < 2 ^ 32 - units * width)
    (good : ∀ n ∈ nodes, n.Good) (sorted : Sorted nodes) (isHigh : highbit = lastEnd prev nodes)
    (behind : ∀ n ∈ nodes, bit < n.startbit) :
    ∃ status nodes' highbit',
      insert bit value alloc nodes highbit = some (status, nodes', highbit') ∧
        SetDone bit value prev nodes status nodes' highbit' ∧ (alloc = true → status = .ok) := by
  have absent : ¬Has nodes bit := by
    rintro ⟨n, mem, low, -⟩
    have := behind n mem
    omega
  rw [insert]
  split
  next clear =>
    refine ⟨.ok, nodes, highbit, rfl, SetDone.unchanged good sorted isHigh fun _ => ?_,
      fun _ => rfl⟩
    simpa [absent] using clear
  next set =>
  split
  next full => exact ⟨.nomem, nodes, highbit, rfl, .unchanged good sorted isHigh nofun, by simp_all⟩
  next =>
    have pos : 0 < units * width := mul_pos (NeZero.pos units) (NeZero.pos width)
    have under := mod_lt bit pos
    have exact : u32 (bit - bit % (units * width)) = bit - bit % (units * width) :=
      u32_eq (by omega)
    let empty : Node width units := ⟨u32 (bit - bit % (units * width)), Vector.replicate units 0⟩
    have low : empty.startbit ≤ bit := by
      simp only [empty, exact]
      omega
    have high : bit < empty.startbit + empty.size := by
      simp only [empty, exact, Node.size]
      omega
    obtain ⟨new, made, start, bits⟩ := node_setBit low high
    have place : new.startbit = bit - bit % (units * width) := start.trans exact
    have has : ∀ b, new.Has b ↔ b = bit := by
      intro b
      simp only [Node.Has, bits, empty, bit_zero, start, exact]
      constructor
      · rintro ⟨le, set⟩
        by_contra other
        rw [if_neg (by omega)] at set
        cases set
      rintro rfl
      exact ⟨low.trans' (by simp [empty, exact]), by simp⟩
    have newGood : new.Good :=
      Node.good_of_set (place ▸ dvd_sub_mod bit) ⟨by omega, small⟩ ((has bit).mpr rfl)
    have newEnd : u32 (new.startbit + new.size) = new.startbit + new.size := u32_eq newGood.small
    refine ⟨.ok, new ::
      nodes, if nodes = [] then u32 (new.startbit + new.size) else highbit, ?_, ?_, fun _ => rfl⟩
    · exact Option.bind_eq_some_iff.mpr ⟨new, made, rfl⟩
    refine ⟨?_, ?_, ?_, ?_, ?_⟩
    · exact forall_mem_cons.mpr ⟨newGood, good⟩
    · refine pairwise_cons.mpr ⟨?_, sorted⟩
      intro n mem
      rw [place]
      exact start_add_le_of_dvd (good n mem).aligned (behind n mem)
    · cases nodes with
      | nil => simpa [lastEnd] using newEnd
      | cons n next => simpa [lastEnd] using isHigh
    · intro lower aligned le above
      refine forall_mem_cons.mpr ⟨?_, above⟩
      rw [place]
      exact le_start_of_dvd pos aligned le
    intro b
    rw [has_cons, has]
    have isSet : value = true := by simpa using set
    by_cases here : b = bit
    · simp [here, isSet]
    simp [here]

/-- The node of the bit stays, with other contents. -/
theorem SetDone.change (sorted : Sorted (n :: nodes)) (good : ∀ m ∈ nodes, m.Good)
    (isGood : n'.Good) (same : n'.startbit = n.startbit)
    (isHigh : highbit = lastEnd prev (n :: nodes))
    (has : ∀ b, n'.Has b ↔ if b = bit then value = true else n.Has b)
    (high : bit < n.startbit + n.size) :
    SetDone bit value prev (n :: nodes) .ok (n' :: nodes) highbit where
  good := forall_mem_cons.mpr ⟨isGood, good⟩
  sorted := by
    obtain ⟨first, rest⟩ := pairwise_cons.mp sorted
    refine pairwise_cons.mpr ⟨?_, rest⟩
    rw [same]
    exact first
  highbit := by
    rw [isHigh]
    cases nodes with
    | nil => simp [lastEnd, same, Node.size]
    | cons m next => rfl
  above := by
    intro lower _ _ above
    rw [forall_mem_cons] at above ⊢
    rw [same]
    exact above
  has := by
    intro b
    rw [has_cons, has_cons, has]
    by_cases here : b = bit
    · have absent : ¬Has nodes b := fun later => by
        have := sorted.behind later
        omega
      simp [absent]
    simp [here]

/-- The node of the bit becomes empty and is dropped. -/
theorem SetDone.drop (sorted : Sorted (n :: nodes)) (good : ∀ m ∈ nodes, m.Good)
    (has : ∀ b, n.Has b → b = bit) (high : bit < n.startbit + n.size)
    (isHigh : highbit = lastEnd prev nodes) :
    SetDone bit false prev (n :: nodes) .ok nodes highbit where
  good := good
  sorted := (pairwise_cons.mp sorted).2
  highbit := isHigh
  above := fun _ _ _ above => (forall_mem_cons.mp above).2
  has := by
    intro b
    rw [has_cons]
    by_cases here : b = bit
    · subst here
      have absent : ¬Has nodes b := fun later => by
        have := sorted.behind later
        omega
      simp [absent]
    have other : ¬n.Has b := fun found => here (has b found)
    simp [here, other]

theorem SetDone.cons [NeZero width] (done : SetDone bit value (some n) nodes status nodes' highbit')
    (sorted : Sorted (n :: nodes)) (isGood : n.Good) (past : n.startbit + n.size ≤ bit) :
    SetDone bit value prev (n :: nodes) status (n :: nodes') highbit' where
  good := forall_mem_cons.mpr ⟨isGood, done.good⟩
  sorted := by
    refine pairwise_cons.mpr ⟨?_, done.sorted⟩
    apply done.above _ _ past (pairwise_cons.mp sorted).1
    exact dvd_add isGood.aligned (dvd_refl _)
  highbit := done.highbit
  above := by
    intro lower aligned le above
    rw [forall_mem_cons] at above ⊢
    exact ⟨above.1, done.above lower aligned le above.2⟩
  has := by
    intro b
    rw [has_cons, has_cons, done.has]
    by_cases here : b = bit ∧ status = .ok
    · have other : ¬n.Has b := fun found => by
        have := found.lt
        omega
      rw [if_pos here, if_pos here]
      exact or_iff_right other
    rw [if_neg here, if_neg here]

theorem has_of_bits {n n' : Node width units} (low : n.startbit ≤ bit)
    (same : n'.startbit = n.startbit)
    (bits : ∀ offset, n'.bit offset = if offset = bit - n.startbit then value else n.bit offset)
    (b : Nat) : n'.Has b ↔ if b = bit then value = true else n.Has b := by
  rw [Node.Has, same, bits]
  by_cases here : b = bit
  · simp [here, low]
  rw [if_neg here, Node.Has]
  apply and_congr_right
  intro le
  rw [if_neg (by omega)]

theorem setLoop_spec [NeZero width] [NeZero units] (value alloc : Bool)
    (small : bit < 2 ^ 32 - units * width) (good : ∀ n ∈ nodes, n.Good) (sorted : Sorted nodes)
    (isHigh : highbit = lastEnd prev nodes) (before : ∀ n ∈ prev, n.Good) :
    ∃ status nodes' highbit',
      setLoop bit value alloc prev highbit nodes = some (status, nodes', highbit') ∧
        SetDone bit value prev nodes status nodes' highbit' ∧ (alloc = true → status = .ok) := by
  induction nodes generalizing prev with
  | nil => exact insert_spec small good sorted isHigh nofun
  | cons n next ih => ?_
  obtain ⟨isGood, rest⟩ := forall_mem_cons.mp good
  obtain ⟨first, sortedNext⟩ := pairwise_cons.mp sorted
  unfold setLoop
  split
  next low =>
    split
    next high =>
      split
      next set =>
        obtain ⟨n', made, same, bits⟩ := node_setBit low high
        have has := has_of_bits low same bits
        have newGood : n'.Good :=
          Node.good_of_set (same ▸ isGood.aligned) ⟨same ▸ low, small⟩ (by simp [has])
        rw [made]
        exact ⟨.ok, n' :: next, highbit, rfl,
          .change sorted rest newGood same isHigh (by simpa [set] using has) high, fun _ => rfl⟩
      next clear =>
        obtain ⟨n', made, same, bits⟩ := node_clrBit low high
        obtain rfl : value = false := by simpa using clear
        have has := has_of_bits low same bits
        rw [made, Option.map_some]
        rcases findNextBit_cases n' 0 with ⟨found, -, set, -⟩ | ⟨none, empty⟩
        · rw [if_pos (show n'.findFirstBit < n'.size from found)]
          have newGood : n'.Good := ⟨same ▸ isGood.aligned, same ▸ isGood.small, ⟨_, set⟩⟩
          exact ⟨.ok, n' ::
            next, highbit, rfl, .change sorted rest newGood same isHigh has high, fun _ => rfl⟩
        rw [if_neg (show ¬n'.findFirstBit < n'.size from none.not_lt)]
        have only : ∀ b, n.Has b → b = bit := by
          intro b found
          by_contra other
          have kept : n'.Has b := by simpa [has, other] using found
          have clear := empty _ (Node.bit_lt kept.2) (zero_le _)
          rw [kept.2] at clear
          cases clear
        refine ⟨.ok, next, _, rfl, .drop sorted rest only high ?_, fun _ => rfl⟩
        cases next with
        | nil =>
          cases prev with
          | none => rfl
          | some m => ?_
          have isGood := before m rfl
          simpa [lastEnd] using u32_eq isGood.small
        | cons m next => simpa [lastEnd] using isHigh
    next past =>
      obtain ⟨status, nodes', highbit', looped, done, enough⟩ :=
        ih rest sortedNext isHigh (by simpa using isGood)
      refine ⟨status, n :: nodes', highbit', ?_, done.cons sorted isGood (not_lt.mp past), enough⟩
      rw [looped]
      rfl
  next behind =>
    apply insert_spec small good sorted isHigh
    refine forall_mem_cons.mpr ⟨not_le.mp behind, ?_⟩
    intro m mem
    have := first m mem
    omega

end

end TinyKernel.Selinux
