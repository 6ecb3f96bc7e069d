import TinyKernel.Lib.Bytes
import TinyKernel.Selinux.EbitmapCompare

/-! `ebitmap_read`: a bitmap from the bytes of a policy. -/

namespace TinyKernel.Selinux

open Lib Nat

variable {width units : Nat}

/-- Why a bitmap is not read; `outside` is a write behind the end of `maps`. -/
inductive ReadFault where
  | einval
  | nomem
  | outside
  deriving DecidableEq

/-- `next_entry`, on the bytes that are left of the policy. -/
def nextEntry (bytes : Nat) (fp : List UInt8) : Option (List UInt8 × List UInt8) :=
  if bytes > fp.length then none else some (fp.take bytes, fp.drop bytes)

/-- `le32_to_cpu` and `le64_to_cpu`. -/
def leToCpu (bytes : List UInt8) : Nat := decode false bytes

/-- The state of the loop. The last node, `n`, comes first; `live` counts the nodes taken from the
cache and not given back, and `allocs` says of each allocation to come whether there is memory. -/
structure Reading (width units : Nat) where
  nodes : List (Node width units)
  fp : List UInt8
  live : Nat
  allocs : List Bool

/-- The node for an entry: a new one, or the last one. -/
def nodeFor (startbit : Nat) (s : Reading width units) : Except ReadFault (Reading width units) :=
  let fresh : Except ReadFault (Reading width units) :=
    if s.allocs.headD true then
      .ok ⟨⟨startbit - startbit % (units * width), Vector.replicate units 0⟩ ::
        s.nodes, s.fp, s.live + 1, s.allocs.tail⟩
    else .error .nomem
  match s.nodes with
  | [] => fresh
  | n :: _ =>
    if startbit ≥ n.startbit + n.size then fresh
    else if startbit ≤ n.startbit then .error .einval
    else .ok s

/-- The loop that stores the words of a map; none is a write outside of `maps`. -/
def storeMap (n : Node width units) (index map : Nat) : Option (Node width units) :=
  if map = 0 then some n
  else if bound : index < units then
    storeMap { n with maps := n.maps.set index (BitVec.ofNat width map) } (index + 1)
      (map / 2 ^ width)
  else none
termination_by units - index

/-- The second half of the body of the loop: the map of an entry goes to the last node. -/
def readMap (startbit : Nat) (s : Reading width units) : Reading width units × Option ReadFault :=
  match nextEntry 8 s.fp with
  | none => (s, some .einval)
  | some (map, fp) =>
    match s.nodes with
    | [] => ({ s with fp := fp }, some .outside)
    | n :: rest =>
      match storeMap n ((startbit - n.startbit) / width) (leToCpu map) with
      | none => ({ s with fp := fp }, some .outside)
      | some n => ({ s with fp := fp, nodes := n :: rest }, none)

/-- The body of the loop. `mapunit` is 64 here. -/
def readEntry (highbit : Nat) (s : Reading width units) : Reading width units × Option ReadFault :=
  match nextEntry 4 s.fp with
  | none => (s, some .einval)
  | some (buf, fp) =>
    let s := { s with fp := fp }
    let startbit := leToCpu buf
    if startbit % 64 ≠ 0 then (s, some .einval)
    else if startbit > u32 (highbit + 2 ^ 32 - 64) then (s, some .einval)
    else match nodeFor startbit s with
      | .error fault => (s, some fault)
      | .ok s => readMap startbit s

def readEntries (highbit : Nat) : Nat → Reading width units → Reading width units × Option ReadFault
  | 0, s => (s, none)
  | count + 1, s =>
    match readEntry highbit s with
    | (s, some fault) => (s, some fault)
    | (s, none) => readEntries highbit count s

/-- The bitmap that is left by `ebitmap_destroy`, and the nodes that are. -/
def destroy (e : Ebitmap width units) (live : Nat) : Ebitmap width units × Nat :=
  (init, live - e.node.length)

/-- What `ebitmap_read` returns and leaves. -/
structure ReadResult (width units : Nat) where
  rc : Option ReadFault
  e : Ebitmap width units
  fp : List UInt8
  live : Nat

/-- The path from `bad` on. -/
def readBad (fault : ReadFault) (e : Ebitmap width units) (fp : List UInt8) (live : Nat) :
    ReadResult width units :=
  ⟨some fault, (destroy e live).1, fp, (destroy e live).2⟩

/-- The rounding of `highbit` to a multiple of `EBITMAP_SIZE`. -/
def roundHighbit (size highbit : Nat) : Nat :=
  let highbit := u32 (highbit + (size - 1))
  highbit - highbit % size

/-- `ebitmap_read` -/
def ebitmapRead (fp : List UInt8) (allocs : List Bool) (live : Nat) : ReadResult width units :=
  match nextEntry 12 fp with
  | none => ⟨some .einval, init, fp, live⟩
  | some (buf, fp) =>
    let mapunit := leToCpu (buf.take 4)
    let highbit := leToCpu ((buf.drop 4).take 4)
    let count := leToCpu ((buf.drop 8).take 4)
    if mapunit ≠ 64 then readBad .einval ⟨[], highbit⟩ fp live
    else
      let highbit := roundHighbit (units * width) highbit
      if highbit = 0 then ⟨none, ⟨[], highbit⟩, fp, live⟩
      else if count = 0 then readBad .einval ⟨[], highbit⟩ fp live
      else match readEntries highbit count ⟨[], fp, live, allocs⟩ with
        | (s, none) => ⟨none, ⟨s.nodes.reverse, highbit⟩, s.fp, s.live⟩
        | (s, some fault) => readBad fault ⟨s.nodes.reverse, highbit⟩ s.fp s.live

section

variable [NeZero width]

theorem bit_of_word {n : Node width units} (bound : i < units) (ne : n.maps[i] ≠ 0) :
    ∃ k, n.bit k = true := by
  have value : (n.maps[i]).toNat ≠ 0 := fun zero => ne (BitVec.eq_of_toNat_eq zero)
  have small : log2 (n.maps[i]).toNat < width := (log2_lt value).mpr (n.maps[i]).isLt
  refine ⟨i * width + log2 (n.maps[i]).toNat, ?_⟩
  rw [bit_mk bound small]
  exact testBit_log2 value

/-- With room for the words of a map, they are stored, and a map that is not empty leaves a bit. -/
theorem storeMap_spec {n : Node width units} (room : index + words ≤ units)
    (fits : map < 2 ^ (width * words)) :
    ∃ n', storeMap n index map = some n' ∧ n'.startbit = n.startbit ∧ (map = 0 → n' = n) ∧
      (map ≠ 0 → ∃ k, n'.bit k = true) := by
  have words_of {words index map : Nat} {n : Node width units} (room : index + words ≤ units)
    (fits : map < 2 ^ (width * words)) :
      ∃ n', storeMap n index map = some n' ∧ n'.startbit = n.startbit ∧ (map = 0 → n' = n) ∧
        (map ≠ 0 → ∃ i, ∃ bound : i < units, index ≤ i ∧ n'.maps[i] ≠ 0) := by
    induction words generalizing index map n with
    | zero =>
      obtain rfl : map = 0 := by simpa using fits
      exact ⟨n, by rw [storeMap, if_pos rfl], rfl, fun _ => rfl, fun absurd => (absurd rfl).elim⟩
    | succ words ih => ?_
    by_cases zero : map = 0
    · exact ⟨n, by rw [storeMap, if_pos zero], rfl, fun _ => rfl, fun ne => absurd zero ne⟩
    have bound : index < units := by omega
    have fits' : map / 2 ^ width < 2 ^ (width * words) := by
      apply Nat.div_lt_of_lt_mul
      rwa [← Nat.pow_add, Nat.add_comm, ← Nat.mul_succ]
    obtain ⟨n', stored, start, empty, full⟩ :=
      ih (n := { n with maps := n.maps.set index (BitVec.ofNat width map) })
        (by omega : index + 1 + words ≤ units) fits'
    refine ⟨n', by rw [storeMap, if_neg zero, dif_pos bound, stored], start,
      fun same => absurd same zero, fun _ => ?_⟩
    by_cases last : map / 2 ^ width = 0
    · -- the last word is the rest of the map
      obtain rfl := empty last
      refine ⟨index, bound, le_rfl, ?_⟩
      simp only [Vector.getElem_set_self]
      intro word
      have value := congrArg BitVec.toNat word
      rw [BitVec.toNat_ofNat,
        Nat.mod_eq_of_lt ((Nat.div_eq_zero_iff_lt (Nat.two_pow_pos width)).mp last)] at value
      exact zero value
    obtain ⟨i, bound', later, ne⟩ := full last
    exact ⟨i, bound', by omega, ne⟩
  obtain ⟨n', stored, start, empty, full⟩ := words_of (n := n) room fits
  refine ⟨n', stored, start, empty, fun ne => ?_⟩
  obtain ⟨i, bound, -, word⟩ := full ne
  exact bit_of_word bound word

end

section

/-- The start bits and the maps of the entries that follow the header. -/
def entries : Nat → List UInt8 → List (Nat × Nat)
  | 0, _ => []
  | count + 1, fp =>
    (leToCpu (fp.take 4), leToCpu ((fp.drop 4).take 8)) :: entries count (fp.drop 12)

theorem entries_succ (count : Nat) (fp : List UInt8) :
    entries (count + 1) fp = entries 1 fp ++ entries count (fp.drop 12) := rfl

theorem nextEntry_cases (bytes : Nat) (fp : List UInt8) :
    (nextEntry bytes fp = none) ∨
      (bytes ≤ fp.length ∧ nextEntry bytes fp = some (fp.take bytes, fp.drop bytes)) := by
  rw [nextEntry]
  split
  · exact .inl rfl
  · next enough => exact .inr ⟨by omega, rfl⟩

/-- The sizes that the words of a map and the nodes have. -/
structure Layout (width units : Nat) : Prop where
  words : width ∣ 64
  whole : 64 ∣ units * width
  positive : 0 < units * width

/-- The nodes, the last one first, that stand for the entries read so far. -/
structure Built (highbit : Nat) (done : List (Nat × Nat)) (nodes : List (Node width units)) :
    Prop where
  sorted : nodes.Pairwise fun n m => m.startbit + m.size ≤ n.startbit
  aligned : ∀ n ∈ nodes, units * width ∣ n.startbit
  inside : ∀ n ∈ nodes, n.startbit + n.size ≤ highbit
  origin : ∀ n ∈ nodes, ∃ entry ∈ done, entry.1 - entry.1 % (units * width) = n.startbit
  covered : ∀ entry ∈ done, ∃ n ∈ nodes, n.startbit = entry.1 - entry.1 % (units * width)
  filled : ∀ n ∈ nodes, (∃ k, n.bit k = true) ↔
    ∃ entry ∈ done, entry.1 - entry.1 % (units * width) = n.startbit ∧ entry.2 ≠ 0
  last : nodes.head?.map Node.startbit =
    done.getLast?.map fun entry => entry.1 - entry.1 % (units * width)

variable {highbit startbit map : Nat} {done : List (Nat × Nat)} {n : Node width units}
    {rest : List (Node width units)}

theorem built_nil : Built highbit [] ([] : List (Node width units)) :=
  ⟨.nil, by simp, by simp, by simp, by simp, by simp, rfl⟩

/-- An entry for the last node, before its map is stored. -/
theorem Built.old (built : Built highbit done (n :: rest))
    (same : startbit - startbit % (units * width) = n.startbit) :
    Built highbit (done ++ [(startbit, 0)]) (n :: rest) where
  sorted := built.sorted
  aligned := built.aligned
  inside := built.inside
  origin := by
    intro m mem
    obtain ⟨entry, present, eq⟩ := built.origin m mem
    exact ⟨entry, List.mem_append_left _ present, eq⟩
  covered := by
    intro entry mem
    rcases List.mem_append.mp mem with before | new
    · exact built.covered entry before
    obtain rfl := List.mem_singleton.mp new
    exact ⟨n, .head _, same.symm⟩
  filled := by
    intro m mem
    rw [built.filled m mem]
    simp
  last := by simp [same]

/-- A new node behind the others. -/
theorem Built.fresh (built : Built highbit done rest) (positive : 0 < units * width)
    (behind : ∀ m ∈ rest, m.startbit + m.size ≤ startbit - startbit % (units * width))
    (inside : startbit - startbit % (units * width) + units * width ≤ highbit) :
    Built highbit (done ++ [(startbit, 0)]) (⟨startbit -
        startbit % (units * width), Vector.replicate units 0⟩ :: rest :
      List (Node width units)) where
  sorted := List.pairwise_cons.mpr ⟨behind, built.sorted⟩
  aligned := List.forall_mem_cons.mpr ⟨dvd_sub_mod startbit, built.aligned⟩
  inside := List.forall_mem_cons.mpr ⟨inside, built.inside⟩
  origin := by
    refine List.forall_mem_cons.mpr
      ⟨⟨_, List.mem_append_right _ (List.mem_singleton_self _), rfl⟩, fun m mem => ?_⟩
    obtain ⟨entry, present, eq⟩ := built.origin m mem
    exact ⟨entry, List.mem_append_left _ present, eq⟩
  covered := by
    intro entry mem
    rcases List.mem_append.mp mem with before | new
    · obtain ⟨m, present, eq⟩ := built.covered entry before
      exact ⟨m, .tail _ present, eq⟩
    obtain rfl := List.mem_singleton.mp new
    exact ⟨_, .head _, rfl⟩
  filled := by
    refine List.forall_mem_cons.mpr ⟨?_, fun m mem => ?_⟩
    · refine iff_of_false (fun ⟨k, set⟩ => by simp only [bit_zero, Bool.false_eq_true] at set) ?_
      rintro ⟨entry, mem, eq, ne⟩
      rcases List.mem_append.mp mem with before | new
      · obtain ⟨m, present, start⟩ := built.covered entry before
        have apart := behind m present
        rw [Node.size] at apart
        simp only at eq
        omega
      obtain rfl := List.mem_singleton.mp new
      exact ne rfl
    rw [built.filled m mem]
    simp
  last := by simp

/-- The map of the last entry goes to the last node. -/
theorem Built.store (positive : 0 < units * width)
    (built : Built highbit (done ++ [(startbit, 0)]) (n :: rest)) (start : n'.startbit = n.startbit)
    (empty : map = 0 → n' = n) (full : map ≠ 0 → ∃ k, n'.bit k = true) :
    Built highbit (done ++ [(startbit, map)]) (n' :: rest) := by
  have last : startbit - startbit % (units * width) = n.startbit := by
    have := built.last
    simpa using this.symm
  have apart := (List.pairwise_cons.mp built.sorted).1
  have size : n'.size = n.size := rfl
  refine ⟨List.pairwise_cons.mpr ⟨fun m mem =>
      start ▸ apart m mem, (List.pairwise_cons.mp built.sorted).2⟩, ?_, ?_, ?_, ?_, ?_,
    by simp [start, last]⟩
  · have := List.forall_mem_cons.mp built.aligned
    exact List.forall_mem_cons.mpr ⟨start ▸ this.1, this.2⟩
  · have := List.forall_mem_cons.mp built.inside
    exact List.forall_mem_cons.mpr ⟨by rw [start, size]; exact this.1, this.2⟩
  · refine List.forall_mem_cons.mpr ⟨⟨_, List.mem_append_right _ (List.mem_singleton_self _),
        last.trans start.symm⟩, fun m mem => ?_⟩
    obtain ⟨entry, present, eq⟩ := built.origin m (.tail _ mem)
    rcases List.mem_append.mp present with before | new
    · exact ⟨entry, List.mem_append_left _ before, eq⟩
    obtain rfl := List.mem_singleton.mp new
    exact ⟨_, List.mem_append_right _ (List.mem_singleton_self _), eq⟩
  · intro entry mem
    have same (m : Node width units) (present : m ∈ n :: rest) : ∃ m' ∈ n' :: rest,
        m'.startbit = m.startbit := by
      rcases List.mem_cons.mp present with rfl | later
      · exact ⟨n', .head _, start⟩
      exact ⟨m, .tail _ later, rfl⟩
    rcases List.mem_append.mp mem with before | new
    · obtain ⟨m, present, eq⟩ := built.covered entry (List.mem_append_left _ before)
      obtain ⟨m', present', equal'⟩ := same m present
      exact ⟨m', present', equal'.trans eq⟩
    obtain rfl := List.mem_singleton.mp new
    exact ⟨n', .head _, start.trans last.symm⟩
  have filled := List.forall_mem_cons.mp built.filled
  refine List.forall_mem_cons.mpr ⟨?_, fun m mem => ?_⟩
  · by_cases zero : map = 0
    · obtain rfl := empty zero
      rw [filled.1, zero]
    exact iff_of_true (full zero)
      ⟨_, List.mem_append_right _ (List.mem_singleton_self _), last.trans start.symm, zero⟩
  rw [filled.2 m mem]
  -- the entry is not one of an earlier node
  have other : startbit - startbit % (units * width) ≠ m.startbit := by
    have := apart m mem
    rw [Node.size] at this
    omega
  simp [List.mem_append, or_and_right, exists_or, other]

end

section

variable [NeZero width] (layout : Layout width units) {highbit : Nat} {done : List (Nat × Nat)}
include layout

variable {s : Reading width units}

omit [NeZero width] in
/-- The node for an entry, with the entry still without its map. -/
theorem nodeFor_spec {startbit : Nat} {s' : Reading width units}
    (built : Built highbit done s.nodes) (whole : units * width ∣ highbit)
    (inside : startbit < highbit) (found : nodeFor startbit s = .ok s') :
    Built highbit (done ++ [(startbit, 0)]) s'.nodes ∧ s'.nodes ≠ [] ∧ s'.fp = s.fp ∧
      s'.live + s.nodes.length = s.live + s'.nodes.length := by
  have upper := start_add_le_of_dvd whole inside
  have fresh (behind : ∀ m ∈ s.nodes, m.startbit + m.size ≤ startbit - startbit % (units * width)) :
      ∀ s', (if s.allocs.headD true then
            Except.ok (⟨⟨startbit - startbit % (units * width), Vector.replicate units 0⟩ ::
                s.nodes, s.fp, s.live + 1, s.allocs.tail⟩ :
              Reading width units)
          else .error ReadFault.nomem) = .ok s' →
        Built highbit (done ++ [(startbit, 0)]) s'.nodes ∧ s'.nodes ≠ [] ∧ s'.fp = s.fp ∧
          s'.live + s.nodes.length = s.live + s'.nodes.length := by
    intro s' taken
    split at taken
    · cases taken
      refine ⟨built.fresh layout.positive behind upper, by simp, rfl, ?_⟩
      simp only [List.length_cons]
      omega
    cases taken
  cases nodes : s.nodes with
  | nil =>
    simp only [nodeFor, nodes] at found
    rw [nodes] at fresh
    exact fresh (by simp) s' found
  | cons n rest => ?_
  simp only [nodeFor, nodes] at found
  rw [nodes] at fresh built
  have head := built.aligned n (.head _)
  split at found
  · next beyond =>
    refine fresh ?_ s' found
    have first : n.startbit + n.size ≤ startbit - startbit % (units * width) := by
      apply le_start_of_dvd layout.positive _ beyond
      exact (Nat.dvd_add_iff_right head).mp (dvd_refl _)
    refine List.forall_mem_cons.mpr ⟨first, fun m mem => ?_⟩
    have := (List.pairwise_cons.mp built.sorted).1 m mem
    omega
  rename_i near
  split at found
  · cases found
  cases found
  rw [nodes]
  refine ⟨built.old ?_, by simp, rfl, rfl⟩
  have lower := le_start_of_dvd layout.positive head (by omega : n.startbit ≤ startbit)
  have bound : startbit < n.startbit + units * width := by
    rw [Node.size] at near
    omega
  have upper := start_add_le_of_dvd ((Nat.dvd_add_iff_right head).mp (dvd_refl _)) bound
  omega

omit [NeZero width] in
/-- A map has a place in its node. -/
theorem room_for_map {startbit : Nat} (multiple : startbit % 64 = 0) :
    startbit % (units * width) / width + 64 / width ≤ units := by
  have offset : 64 ∣ startbit % (units * width) :=
    (dvd_mod_iff layout.whole).mpr (dvd_of_mod_eq_zero multiple)
  have below := mod_lt startbit layout.positive
  obtain ⟨room, room_eq⟩ := layout.whole
  have fits : startbit % (units * width) + 64 ≤ units * width := by omega
  rw [← Nat.add_div_of_dvd_left layout.words]
  exact Nat.div_le_of_le_mul (fits.trans_eq (Nat.mul_comm ..))

theorem readMap_spec (multiple : startbit % 64 = 0)
    (built : Built highbit (done ++ [(startbit, 0)]) s.nodes) (some_node : s.nodes ≠ []) :
    (readMap startbit s).2 ≠ some .outside ∧ (readMap startbit s).1.live = s.live ∧
      (readMap startbit s).1.nodes.length = s.nodes.length ∧
      ((readMap startbit s).2 = none →
        (readMap startbit s).1.fp = s.fp.drop 8 ∧ 8 ≤ s.fp.length ∧
          Built highbit (done ++ [(startbit, leToCpu (s.fp.take 8))])
            (readMap startbit s).1.nodes) := by
  rw [readMap]
  rcases nextEntry_cases 8 s.fp with short | ⟨enough, taken⟩
  · rw [short]
    exact ⟨by simp, rfl, rfl, by simp⟩
  rw [taken]
  cases nodes : s.nodes with
  | nil => exact absurd nodes some_node
  | cons n rest => ?_
  rw [nodes] at built
  have last : startbit - startbit % (units * width) = n.startbit := by simpa using built.last.symm
  have below : leToCpu (s.fp.take 8) < 2 ^ (width * (64 / width)) := by
    have bound := decode_lt false (s.fp.take 8)
    rw [List.length_take_of_le enough] at bound
    rw [Nat.mul_div_cancel' layout.words]
    exact bound
  have place : startbit - n.startbit = startbit % (units * width) := by
    have := mod_le startbit (units * width)
    omega
  obtain ⟨n', stored, start, empty, full⟩ :=
    storeMap_spec (n := n) (room_for_map layout multiple) below
  simp only [place, stored, ne_eq, reduceCtorEq, not_false_eq_true, List.length_cons, true_and,
    forall_const]
  exact ⟨enough, built.store layout.positive start empty full⟩

theorem readEntry_spec (built : Built highbit done s.nodes) (whole : units * width ∣ highbit)
    (some_bit : 64 ≤ highbit) (small : highbit < 2 ^ 32) :
    (readEntry highbit s).2 ≠ some .outside ∧
      (readEntry highbit s).1.live + s.nodes.length =
        s.live + (readEntry highbit s).1.nodes.length ∧
      ((readEntry highbit s).2 = none →
        (readEntry highbit s).1.fp = s.fp.drop 12 ∧ 12 ≤ s.fp.length ∧
          Built highbit (done ++ entries 1 s.fp) (readEntry highbit s).1.nodes) := by
  rw [readEntry]
  rcases nextEntry_cases 4 s.fp with short | ⟨enough, taken⟩
  · rw [short]
    exact ⟨by simp, rfl, by simp⟩
  rw [taken]
  dsimp only
  split
  · exact ⟨by simp, rfl, by simp⟩
  have limit : u32 (highbit + 2 ^ 32 - 64) = highbit - 64 := by
    rw [u32]
    omega
  split
  · exact ⟨by simp, rfl, by simp⟩
  rename_i inside
  cases found : nodeFor (leToCpu (s.fp.take 4)) { s with fp := s.fp.drop 4 } with
  | error fault =>
    refine ⟨?_, rfl, by simp⟩
    rintro ⟨⟩
    -- no branch of the choice of a node writes
    rw [nodeFor] at found
    revert found
    split <;> split <;> (try split) <;> simp
  | ok s' => ?_
  obtain ⟨built', some_node, fp, live⟩ :=
    nodeFor_spec layout (s := { s with fp := s.fp.drop 4 }) built whole (by omega) found
  obtain ⟨never, live', length, next⟩ := readMap_spec layout (by omega) built' some_node
  refine ⟨never, ?_, fun done => ?_⟩
  · rw [live', length]
    exact live
  obtain ⟨rest, length, stored⟩ := next done
  rw [fp] at rest length stored
  simp only [List.length_drop] at length
  refine ⟨?_, by omega, stored⟩
  rw [rest, List.drop_drop]

/-- The whole loop: what one entry keeps, all entries keep. -/
theorem readEntries_spec (whole : units * width ∣ highbit) (some_bit : 64 ≤ highbit)
    (small : highbit < 2 ^ 32) (count : Nat) (built : Built highbit done s.nodes) :
    (readEntries highbit count s).2 ≠ some .outside ∧
      (readEntries highbit count s).1.live + s.nodes.length =
        s.live + (readEntries highbit count s).1.nodes.length ∧
      ((readEntries highbit count s).2 = none →
        (readEntries highbit count s).1.fp = s.fp.drop (12 * count) ∧ 12 * count ≤ s.fp.length ∧
          Built highbit (done ++ entries count s.fp) (readEntries highbit count s).1.nodes) := by
  induction count generalizing s done with
  | zero =>
    exact ⟨by simp [readEntries], rfl,
      fun _ => ⟨rfl, zero_le _, by simpa [readEntries, entries] using built⟩⟩
  | succ count ih => ?_
  have first := readEntry_spec layout built whole some_bit small
  rw [readEntries]
  generalize readEntry highbit s = res at first ⊢
  obtain ⟨s', fault⟩ := res
  cases fault with
  | some fault => exact ⟨first.1, first.2.1, nofun⟩
  | none => ?_
  obtain ⟨-, live, next⟩ := first
  obtain ⟨fp, enough, built'⟩ := next rfl
  obtain ⟨never, live', later⟩ := ih (s := s') built'
  refine ⟨never, ?_, fun done => ?_⟩
  · simp only at live live' ⊢
    omega
  obtain ⟨fp', enough', built''⟩ := later done
  rw [fp] at fp' enough' built''
  rw [List.length_drop] at enough'
  refine ⟨?_, by omega, ?_⟩
  · rw [fp', List.drop_drop]
    congr 1
    omega
  rwa [entries_succ, ← List.append_assoc]

end

/-- The second and the third word of the header. -/
def announcedHighbit (fp : List UInt8) : Nat := leToCpu ((fp.drop 4).take 4)

def announcedCount (fp : List UInt8) : Nat := leToCpu ((fp.drop 8).take 4)

/-- The entries make a canonical bitmap of the size that the header announces: each node gets a map
that is not empty, and the last entry is in the last node. Without a size there are no entries. -/
def Tidy (size : Nat) (fp : List UInt8) : Prop :=
  let highbit := roundHighbit size (announcedHighbit fp)
  let found := entries (announcedCount fp) (fp.drop 12)
  if highbit = 0 then announcedCount fp = 0
  else
    (∀ entry ∈ found, ∃ other ∈ found, other.1 - other.1 % size = entry.1 - entry.1 % size ∧
        other.2 ≠ 0) ∧ ∀ last ∈ found.getLast?, last.1 - last.1 % size + size = highbit

theorem lastEnd_append (prev : Option (Node width units)) (nodes : List (Node width units))
    (n : Node width units) : lastEnd prev (nodes ++ [n]) = n.startbit + n.size := by
  induction nodes generalizing prev with
  | nil => rfl
  | cons m rest ih => exact ih (some m)

/-- The nodes that the entries make are canonical when the entries are tidy. -/
theorem Built.wellFormed_iff {nodes : List (Node width units)} (built : Built highbit found nodes)
    (small : highbit < 2 ^ 32) (some_entry : found ≠ []) :
    WellFormed ⟨nodes.reverse, highbit⟩ ↔
      (∀ entry ∈ found, ∃ other ∈ found,
          other.1 - other.1 % (units * width) = entry.1 - entry.1 % (units * width) ∧ other.2 ≠ 0) ∧
        ∀ last ∈ found.getLast?, last.1 - last.1 % (units * width) + units * width = highbit := by
  have ends : highbit = lastEnd none nodes.reverse ↔
      ∀ last ∈ found.getLast?, last.1 - last.1 % (units * width) + units * width = highbit := by
    have same := built.last
    rw [List.getLast?_eq_getLast_of_ne_nil some_entry] at same ⊢
    cases nodes with
    | nil => cases same
    | cons n rest => ?_
    simp only [List.head?_cons, Option.map_some, Option.some.injEq] at same
    rw [List.reverse_cons, lastEnd_append, same, Node.size]
    simp only [Option.mem_some_iff, forall_eq']
    exact eq_comm
  constructor
  · intro formed
    refine ⟨fun entry mem => ?_, ends.mp formed.highbit⟩
    obtain ⟨n, present, start⟩ := built.covered entry mem
    obtain ⟨other, member', same, ne⟩ :=
      (built.filled n present).mp (formed.good n (List.mem_reverse.mpr present)).nonzero
    exact ⟨other, member', same.trans start, ne⟩
  rintro ⟨full, last⟩
  refine ⟨fun n mem => ?_, List.pairwise_reverse.mpr built.sorted, ends.mpr last⟩
  have present := List.mem_reverse.mp mem
  refine ⟨built.aligned n present, (built.inside n present).trans_lt small,
    (built.filled n present).mpr ?_⟩
  obtain ⟨entry, member', start⟩ := built.origin n present
  obtain ⟨other, member'', same, ne⟩ := full entry member'
  exact ⟨other, member'', same.trans start, ne⟩

theorem layout_of_word (word : width = 32 ∨ width = 64) : Layout width 6 := by
  rcases word with rfl | rfl
  · exact ⟨by decide, by decide, by decide⟩
  exact ⟨by decide, by decide, by decide⟩

theorem roundHighbit_dvd (size highbit : Nat) : size ∣ roundHighbit size highbit := dvd_sub_mod _

theorem roundHighbit_lt (size highbit : Nat) : roundHighbit size highbit < 2 ^ 32 :=
  (sub_le _ _).trans_lt (mod_lt _ (by decide))

/-- `ebitmap_read` never writes outside of a node. If it fails, the bitmap is empty and all nodes
are freed; if not, the bitmap is canonical and the entries are consumed, exactly when the entries
are tidy. -/
theorem ebitmapRead_canonical (word : width = 32 ∨ width = 64) (fp : List UInt8)
    (allocs : List Bool) (live : Nat) (r : ReadResult width 6)
    (read : r = ebitmapRead fp allocs live) :
    r.rc ≠ some .outside ∧ (r.rc ≠ none → r.e = init ∧ r.live = live) ∧
      (r.rc = none →
        r.live = live + r.e.node.length ∧
          ((WellFormed r.e ∧ 12 + 12 * announcedCount fp ≤ fp.length ∧
              r.fp = fp.drop (12 + 12 * announcedCount fp)) ↔ Tidy (6 * width) fp)) := by
  have layout := layout_of_word word
  have : NeZero width := ⟨by rcases word with rfl | rfl <;> decide⟩
  subst read
  rw [ebitmapRead]
  rcases nextEntry_cases 12 fp with short | ⟨enough, taken⟩
  · rw [short]
    exact ⟨by simp, fun _ => ⟨rfl, rfl⟩, by simp⟩
  rw [taken]
  have highbit_eq : leToCpu (((fp.take 12).drop 4).take 4) = announcedHighbit fp := by
    simp [announcedHighbit, List.drop_take, List.take_take]
  have count_eq : leToCpu (((fp.take 12).drop 8).take 4) = announcedCount fp := by
    simp [announcedCount, List.drop_take, List.take_take]
  simp only [highbit_eq, count_eq]
  split
  · exact ⟨by simp [readBad], fun _ => ⟨rfl, rfl⟩, by simp [readBad]⟩
  split
  · next empty =>
    refine ⟨by simp, by simp, fun _ => ⟨rfl, ?_⟩⟩
    simp only [Tidy, empty, if_true]
    constructor
    · rintro ⟨-, bound, rest⟩
      have lengths := congrArg List.length rest
      simp only [List.length_drop] at lengths
      omega
    intro none
    exact ⟨⟨by simp, List.Pairwise.nil, rfl⟩, by omega, by rw [none]⟩
  rename_i some_bit
  split
  · exact ⟨by simp [readBad], fun _ => ⟨rfl, rfl⟩, by simp [readBad]⟩
  rename_i some_entry
  have whole := roundHighbit_dvd (6 * width) (announcedHighbit fp)
  have small := roundHighbit_lt (6 * width) (announcedHighbit fp)
  generalize size : roundHighbit (6 * width) (announcedHighbit fp) = highbit at *
  have large : 64 ≤ highbit := (le_of_dvd layout.positive layout.whole).trans
    (le_of_dvd (pos_of_ne_zero some_bit) whole)
  have loop := readEntries_spec layout whole large small (announcedCount fp)
    (s := ⟨[], fp.drop 12, live, allocs⟩) built_nil
  generalize readEntries highbit (announcedCount fp)
      (⟨[], fp.drop 12, live, allocs⟩ : Reading width 6) = result at *
  obtain ⟨s, fault⟩ := result
  obtain ⟨never, balance, ends⟩ := loop
  simp only [List.length_nil, add_zero, List.nil_append] at balance ends
  cases fault with
  | some fault =>
    refine ⟨never, fun _ => ⟨rfl, ?_⟩, by simp [readBad]⟩
    simp [readBad, destroy, balance]
  | none => ?_
  obtain ⟨rest, bound, built⟩ := ends rfl
  rw [List.length_drop] at bound
  refine ⟨by simp, by simp, fun _ => ⟨?_, ?_⟩⟩
  · simp [balance]
  have consumed : 12 + 12 * announcedCount fp ≤ fp.length ∧
      s.fp = fp.drop (12 + 12 * announcedCount fp) :=
    ⟨by omega, by rw [rest, List.drop_drop]⟩
  have some_found : entries (announcedCount fp) (fp.drop 12) ≠ [] := by
    cases count : announcedCount fp with
    | zero => exact absurd count some_entry
    | succ count => simp [entries]
  simp only [consumed, and_true, Tidy, size, if_neg some_bit]
  exact built.wellFormed_iff small some_found

/-- Two words of the first node and one of the second. -/
def twoNodesPolicy : List UInt8 :=
  [64, 0, 0, 0, 0, 3, 0, 0, 3, 0, 0, 0, 0, 0, 0, 0, 0, 0, 0, 0, 0, 0, 0, 0, 64, 0, 0, 0, 1, 0, 0, 0,
    0, 0, 0, 0, 192, 1, 0, 0, 2, 0, 0, 0, 0, 0, 0, 0]

theorem ebitmapRead_canonical_two_nodes :
    (ebitmapRead twoNodesPolicy [] 0 : ReadResult 64 6).rc = none ∧
      (ebitmapRead twoNodesPolicy [] 0 : ReadResult 64 6).e.node.map Node.startbit = [0, 384] ∧
      WellFormed (ebitmapRead twoNodesPolicy [] 0 : ReadResult 64 6).e := by
  have ok : (ebitmapRead twoNodesPolicy [] 0 : ReadResult 64 6).rc = none := by decide +kernel
  have result := (ebitmapRead_canonical (.inr rfl) twoNodesPolicy [] 0 _ rfl).2.2 ok
  refine ⟨ok, by decide +kernel, (result.2.mpr ?_).1⟩
  have size : roundHighbit (6 * 64) (announcedHighbit twoNodesPolicy) = 768 := by decide +kernel
  have found : entries (announcedCount twoNodesPolicy) (twoNodesPolicy.drop 12) =
      [(0, 0), (64, 1), (448, 2)] := by decide +kernel
  simp only [Tidy, size, found]
  decide

/-- An entry with an empty map is accepted, and so is a size that no entry reaches. -/
theorem empty_map_accepted :
    (∃ r : ReadResult 64 6, r =
          ebitmapRead [64, 0, 0, 0, 128, 1, 0, 0, 1, 0, 0, 0, 0, 0, 0, 0, 0, 0, 0, 0, 0, 0, 0, 0] []
            0 ∧ r.rc = none ∧ ∃ n ∈ r.e.node, ∀ k, n.bit k = false) ∧
      ∃ r : ReadResult 64 6, r =
          ebitmapRead [64, 0, 0, 0, 0, 3, 0, 0, 1, 0, 0, 0, 0, 0, 0, 0, 1, 0, 0, 0, 0, 0, 0, 0] []
            0 ∧ r.rc = none ∧ r.e.highbit ≠ lastEnd none r.e.node := by
  refine ⟨⟨_, rfl, by decide +kernel, ⟨0, Vector.replicate 6 0⟩, by decide +kernel,
      fun k => bit_zero⟩, _, rfl, ?_⟩
  decide +kernel

end TinyKernel.Selinux
