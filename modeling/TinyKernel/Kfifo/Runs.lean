import TinyKernel.Kfifo.Code

/-! A queue with one producer and one consumer: what comes out is what went in, in order. -/

namespace TinyKernel.Fifo

open Lib List Option Nat

variable {esize : Nat}

section

variable (items more : List (Element esize)) (n : Nat)

@[simp]
theorem bytes_nil : bytes ([] : List (Element esize)) = [] := rfl

@[simp]
theorem bytes_append : bytes (items ++ more) = bytes items ++ bytes more := flatMap_append

@[simp]
theorem length_bytes : (bytes items).length = items.length * esize := by
  induction items with
  | nil => simp
  | cons first rest ih => ?_
  have step : bytes (first :: rest) = first.toList ++ bytes rest := flatMap_cons
  rw [step, length_append, ih, Vector.length_toList, length_cons, succ_mul, add_comm]

theorem bytes_split (short : n ≤ items.length) :
    bytes (items.take n) = (bytes items).take (n * esize) ∧
      bytes (items.drop n) = (bytes items).drop (n * esize) := by
  have length : (bytes (items.take n)).length = n * esize := by
    rw [length_bytes, length_take, min_eq_left short]
  have whole : bytes items = bytes (items.take n) ++ bytes (items.drop n) := by
    rw [← bytes_append, take_append_drop]
  rw [whole, ← length]
  exact ⟨take_left.symm, drop_left.symm⟩

end

/-- A power of two of elements, whose bytes an `unsigned int` counts. -/
structure Geometry (fifo : Kfifo) (esize : Nat) : Prop where
  size : ∃ order ≤ 31, fifo.mask + 1 = 2 ^ order
  element : fifo.esize = esize
  small : (fifo.mask + 1) * esize < 2 ^ 32
  length : fifo.data.length = (fifo.mask + 1) * esize

section

variable {mask len : Nat}

theorem unsignedSub_counts (le : first ≤ last) (near : last < first + 2 ^ 32) :
    unsignedSub (last % 2 ^ 32) (first % 2 ^ 32) = last - first := by
  rw [unsignedSub]
  omega

/-- Two copies, split at the end of the buffer, go around it once at most. -/
theorem address_split {bytes size : Nat} (inside : i < bytes) (fits : bytes ≤ size)
    (off_le : off ≤ size) :
    (⟨off, min bytes (size - off), bytes⟩ : CopyRange).address i = (off + i) % size := by
  simp only [CopyRange.address]
  split
  · next before =>
    have room : off + i < size := by omega
    exact (mod_eq_of_lt room).symm
  rename_i behind
  have split_at : min bytes (size - off) = size - off := by omega
  rw [mod_eq_sub_mod (by omega), mod_eq_of_lt (by omega)]
  omega

/-- The position in the buffer of the byte at some distance from the index. -/
theorem copyRange_address (size : ∃ order ≤ 31, mask + 1 = 2 ^ order)
    (small : (mask + 1) * esize < 2 ^ 32) (short : len ≤ mask + 1) (index : Nat) :
    (copyRange mask esize len (index % 2 ^ 32)).len = len * esize ∧
      ∀ i < len * esize, (copyRange mask esize len (index % 2 ^ 32)).address i =
        (index * esize + i) % ((mask + 1) * esize) := by
  obtain ⟨order, low, size⟩ := size
  have masked : (index % 2 ^ 32) &&& mask = index % (mask + 1) := by
    have mask_eq : mask = 2 ^ order - 1 := by omega
    rw [mask_eq, and_two_pow_sub_one_eq_mod, ← mask_eq, size,
      mod_mod_of_dvd _ (pow_dvd_pow 2 (by omega))]
  have size_small : mask + 1 < 2 ^ 32 := by
    rw [size]
    exact Nat.pow_lt_pow_right (by omega) (by omega)
  have off_lt : index % (mask + 1) < mask + 1 := Nat.mod_lt _ (Nat.succ_pos _)
  have off_le : index % (mask + 1) * esize ≤ (mask + 1) * esize := mul_le_mul_right _ off_lt.le
  have len_le : len * esize ≤ (mask + 1) * esize := mul_le_mul_right _ short
  have range_eq : copyRange mask esize len (index % 2 ^ 32) = ⟨index % (mask + 1) * esize,
        min (len * esize) ((mask + 1) * esize - index % (mask + 1) * esize), len * esize⟩ := by
    have plain (a b : Nat) (le : b ≤ a) (fits : a < 2 ^ 32) : unsignedSub a b = a - b := by
      rw [unsignedSub]
      omega
    rw [copyRange, masked]
    simp only [unsignedInt, mod_eq_of_lt size_small]
    split
    · rw [mod_eq_of_lt small, mod_eq_of_lt (lt_of_le_of_lt off_le small),
        mod_eq_of_lt (lt_of_le_of_lt len_le small), plain _ _ off_le small]
    rename_i one
    obtain rfl : esize = 1 := not_not.mp one
    rw [plain _ _ off_lt.le size_small]
    simp
  rw [range_eq]
  refine ⟨rfl, fun i inside => ?_⟩
  have around : (index * esize + i) % ((mask + 1) * esize) =
      (index % (mask + 1) * esize + i) % ((mask + 1) * esize) := by
    rw [add_mod, mul_mod_mul_right, add_mod_mod]
  rw [around]
  exact address_split inside len_le off_le

end

/-- The same of a range that starts at a counter of the queue. -/
theorem Geometry.copies {count : Nat} {range : CopyRange} (geometry : Geometry fifo esize)
    (short : len ≤ fifo.mask + 1) (counts : index = count % 2 ^ 32)
    (range_eq : range = copyRange fifo.mask esize len index) :
    range.len = len * esize ∧
      ∀ i < len * esize, range.address i = (count * esize + i) % fifo.data.length := by
  rw [range_eq, counts, geometry.length]
  exact copyRange_address geometry.size geometry.small short count

theorem unused_counts (geometry : Geometry fifo esize) (le : first ≤ last)
    (room : last ≤ first + (fifo.mask + 1)) (inIndex : fifo.inIndex = last % 2 ^ 32)
    (outIndex : fifo.outIndex = first % 2 ^ 32) :
    unsignedSub fifo.inIndex fifo.outIndex = last - first ∧
      kfifoUnused fifo = fifo.mask + 1 - (last - first) := by
  obtain ⟨order, low, size⟩ := geometry.size
  have size_le : fifo.mask + 1 ≤ 2 ^ 31 := by
    rw [size]
    exact Nat.pow_le_pow_right (by omega) low
  have used : unsignedSub fifo.inIndex fifo.outIndex = last - first := by
    rw [inIndex, outIndex, unsignedSub_counts le (by omega)]
  refine ⟨used, ?_⟩
  rw [kfifoUnused, used, unsignedInt, unsignedSub]
  omega

/-- What the producer has copied already. -/
def State.written (state : State esize) : List UInt8 :=
  state.producer.elim [] fun putting => (bytes putting.buf).take putting.copied

/-- The queue holds the elements that were not taken yet, then what is being copied into it. -/
structure Queued (mask : Nat) (state : State esize) (first : Nat) : Prop where
  mask_eq : state.fifo.mask = mask
  geometry : Geometry state.fifo esize
  inIndex : state.fifo.inIndex = state.put.length % 2 ^ 32
  outIndex : state.fifo.outIndex = first % 2 ^ 32
  le : first ≤ state.put.length
  room : state.put.length ≤ first + (state.fifo.mask + 1)
  taken : state.taken = bytes (state.put.take first)
  stored :
    HoldsAround state.fifo.data (first * esize) (bytes (state.put.drop first) ++ state.written)
  producer : ∀ putting ∈ state.producer,
    putting.range = copyRange state.fifo.mask esize putting.len state.fifo.inIndex ∧
    putting.len ≤ putting.buf.length ∧ putting.copied ≤ putting.len * esize ∧
    state.put.length + putting.len ≤ first + (state.fifo.mask + 1)
  consumer : ∀ taking ∈ state.consumer,
    taking.range = copyRange state.fifo.mask esize taking.len state.fifo.outIndex ∧
      taking.dst.length ≤ taking.len * esize ∧ first + taking.len ≤ state.put.length ∧
      taking.dst = (bytes (state.put.drop first)).take taking.dst.length

/-- A step or run ends, and the queue is kept. -/
abbrev Kept (mask : Nat) (next : Option (State esize)) : Prop :=
  ∃ state first, next = some state ∧ Queued mask state first

namespace Queued

variable {mask : Nat} {state : State esize} {first : Nat}

theorem start (geometry : Geometry fifo esize) (inIndex : fifo.inIndex = 0)
    (outIndex : fifo.outIndex = 0) : Queued fifo.mask (start fifo : State esize) 0 where
  mask_eq := rfl
  geometry := geometry
  inIndex := inIndex
  outIndex := outIndex
  le := le_refl 0
  room := zero_le _
  taken := rfl
  stored := HoldsAround.nil
  producer := by simp [Fifo.start]
  consumer := by simp [Fifo.start]

section

variable (queued : Queued mask state first)
include queued

theorem kfifoIn (buf : List (Element esize)) : Kept mask (step state (.kfifoIn buf)) := by
  rw [step]
  cases idle : state.producer with
  | some _ => exact ⟨state, first, rfl, queued⟩
  | none => ?_
  have unused :=
    (unused_counts queued.geometry queued.le queued.room queued.inIndex queued.outIndex).2
  have room := queued.room
  have short : unsignedInt buf.length ≤ buf.length := mod_le _ _
  refine ⟨_, first, rfl, { queued with stored := ?_, producer := ?_ }⟩
  · have stored := queued.stored
    simp only [State.written, idle, elim_none] at stored
    simpa [State.written] using stored
  rintro putting started
  obtain rfl := mem_some_iff.mp started
  simp only [queued.geometry.element]
  refine ⟨trivial, ?_, Nat.zero_le _, ?_⟩
  · omega
  omega

/-- The bytes in the queue, and where they end. -/
theorem length_queued :
    first * esize + (bytes (state.put.drop first)).length = state.put.length * esize := by
  rw [length_bytes, length_drop, ← Nat.add_mul, Nat.add_sub_cancel' queued.le]

theorem copyIn : Kept mask (step state .copyIn) := by
  rw [step]
  cases active : state.producer with
  | none => exact ⟨state, first, rfl, queued⟩
  | some putting => ?_
  obtain ⟨range_eq, len_le, copied_le, room⟩ := queued.producer putting active
  have geometry := queued.geometry
  have le := queued.le
  obtain ⟨range_len, address⟩ := geometry.copies (by omega) queued.inIndex range_eq
  rw [elim_some, Fifo.copyIn, range_len]
  split
  · next more =>
    have source : putting.copied < (bytes putting.buf).length := by
      rw [length_bytes]
      exact lt_of_lt_of_le more (mul_le_mul_right _ len_le)
    have stored := queued.stored
    have ends := queued.length_queued
    simp only [State.written, active, elim_some] at stored
    have length : (bytes (state.put.drop first) ++ (bytes putting.buf).take putting.copied).length =
        (bytes (state.put.drop first)).length + putting.copied := by
      rw [length_append, length_take, min_eq_left source.le]
    have free : (bytes (state.put.drop first)).length + putting.copied <
        state.fifo.data.length := by
      have total := mul_le_mul_right esize room
      rw [add_mul, add_mul, ← geometry.length] at total
      omega
    have place : (state.put.length * esize + putting.copied) % state.fifo.data.length <
        state.fifo.data.length :=
      mod_lt _ (by omega)
    have pushed := stored.push (bytes putting.buf)[putting.copied] (by rwa [length])
    rw [length, ← add_assoc, ends, append_assoc] at pushed
    rw [getElem?_eq_getElem source, address _ more]
    simp only [store, bind_eq_bind, bind_some, if_pos place]
    refine ⟨_, first, rfl, { queued with geometry := ?_, stored := ?_, producer := ?_ }⟩
    · exact ⟨geometry.size, geometry.element, geometry.small, by rw [length_set, geometry.length]⟩
    · simp only [State.written, elim_some]
      rwa [take_succ_eq_append_getElem source]
    rintro other same
    obtain rfl := mem_some_iff.mp same
    exact ⟨range_eq, len_le, more, room⟩
  exact ⟨state, first, rfl, queued⟩

theorem addIn : Kept mask (step state .addIn) := by
  rw [step]
  cases active : state.producer with
  | none => exact ⟨state, first, rfl, queued⟩
  | some putting => ?_
  obtain ⟨range_eq, len_le, copied_le, room⟩ := queued.producer putting active
  have geometry := queued.geometry
  have le := queued.le
  obtain ⟨range_len, -⟩ := geometry.copies (by omega) queued.inIndex range_eq
  rw [elim_some, Fifo.addIn, range_len]
  split
  · exact ⟨state, first, rfl, queued⟩
  have all : putting.copied = putting.len * esize := by omega
  have taken_len : (putting.buf.take putting.len).length = putting.len := by
    rw [length_take, min_eq_left len_le]
  have stored := queued.stored
  simp only [State.written, active, elim_some, all] at stored
  rw [← (bytes_split putting.buf putting.len len_le).1, ← bytes_append,
    ← drop_append_of_le_length le] at stored
  refine ⟨_, first, rfl, ?_⟩
  constructor
  · exact queued.mask_eq
  · exact ⟨geometry.size, geometry.element, geometry.small, geometry.length⟩
  · simp [taken_len, queued.inIndex, unsignedInt]
  · exact queued.outIndex
  · simp only [length_append]
    omega
  · simp only [length_append, taken_len]
    exact room
  · simp only [take_append_of_le_length le]
    exact queued.taken
  · simpa [State.written] using stored
  · simp
  intro taking active
  obtain ⟨range_eq, dst_le, taking_le, dst_eq⟩ := queued.consumer taking active
  refine ⟨range_eq, dst_le, ?_, ?_⟩
  · simp only [length_append]
    omega
  rw [drop_append_of_le_length le, bytes_append, take_append_of_le_length]
  · exact dst_eq
  rw [dst_eq]
  exact length_take_le' _ _

theorem kfifoOut (len : Nat) : Kept mask (step state (.kfifoOut len)) := by
  rw [step]
  cases idle : state.consumer with
  | some _ => exact ⟨state, first, rfl, queued⟩
  | none => ?_
  have used :=
    (unused_counts queued.geometry queued.le queued.room queued.inIndex queued.outIndex).1
  have le := queued.le
  refine ⟨_, first, rfl, { queued with consumer := ?_ }⟩
  rintro taking started
  obtain rfl := mem_some_iff.mp started
  simp only [queued.geometry.element]
  refine ⟨trivial, zero_le _, ?_, rfl⟩
  omega

theorem copyOut : Kept mask (step state .copyOut) := by
  rw [step]
  cases active : state.consumer with
  | none => exact ⟨state, first, rfl, queued⟩
  | some taking => ?_
  obtain ⟨range_eq, dst_le, taking_le, dst_eq⟩ := queued.consumer taking active
  have geometry := queued.geometry
  have room := queued.room
  obtain ⟨range_len, address⟩ := geometry.copies (by omega) queued.outIndex range_eq
  rw [elim_some, Fifo.copyOut, range_len]
  split
  · next more =>
    have inside : taking.dst.length < (bytes (state.put.drop first)).length := by
      have total := mul_le_mul_right esize taking_le
      have ends := queued.length_queued
      rw [add_mul] at total
      omega
    have found := queued.stored taking.dst.length (by
      rw [length_append]
      omega)
    rw [getElem?_append_left inside, getElem?_eq_getElem inside] at found
    rw [address _ more, found]
    refine ⟨_, first, rfl, { queued with consumer := ?_ }⟩
    rintro other same
    obtain rfl := mem_some_iff.mp same
    refine ⟨range_eq, ?_, taking_le, ?_⟩
    · simp only [length_append, length_singleton]
      exact more
    simp only [length_append, length_singleton]
    rw [take_succ_eq_append_getElem inside, ← dst_eq]
  exact ⟨state, first, rfl, queued⟩

theorem addOut : Kept mask (step state .addOut) := by
  rw [step]
  cases active : state.consumer with
  | none => exact ⟨state, first, rfl, queued⟩
  | some taking => ?_
  obtain ⟨range_eq, dst_le, taking_le, dst_eq⟩ := queued.consumer taking active
  have geometry := queued.geometry
  have room := queued.room
  obtain ⟨range_len, -⟩ := geometry.copies (by omega) queued.outIndex range_eq
  rw [elim_some, Fifo.addOut, range_len]
  split
  · exact ⟨state, first, rfl, queued⟩
  have all : taking.dst.length = taking.len * esize := by omega
  have fits : taking.len ≤ (state.put.drop first).length := by
    rw [length_drop]
    omega
  have split_at := bytes_split (state.put.drop first) taking.len fits
  refine ⟨_, first + taking.len, rfl, ?_⟩
  constructor
  · exact queued.mask_eq
  · exact ⟨geometry.size, geometry.element, geometry.small, geometry.length⟩
  · exact queued.inIndex
  · simp [queued.outIndex, unsignedInt]
  · exact taking_le
  · simp only
    omega
  · rw [queued.taken, dst_eq, all, ← split_at.1, ← bytes_append, take_add]
  · have later := queued.stored.drop (taking.len * esize)
    rw [drop_append_of_le_length, ← split_at.2, drop_drop, ← add_mul] at later
    · exact later
    rw [length_bytes]
    exact mul_le_mul_right _ fits
  · intro putting active
    obtain ⟨range_eq, len_le, copied_le, room⟩ := queued.producer putting active
    refine ⟨range_eq, len_le, copied_le, ?_⟩
    simp only
    omega
  simp

/-- Every step of either caller stays inside the buffers and keeps the queue. -/
theorem step (event : Event esize) : Kept mask (Fifo.step state event) := by
  cases event with
  | kfifoIn buf => exact queued.kfifoIn buf
  | copyIn => exact queued.copyIn
  | addIn => exact queued.addIn
  | kfifoOut len => exact queued.kfifoOut len
  | copyOut => exact queued.copyOut
  | addOut => exact queued.addOut

theorem run (events : List (Event esize)) : Kept mask (Fifo.run state events) := by
  induction events generalizing state first with
  | nil => exact ⟨state, first, rfl, queued⟩
  | cons event events ih => ?_
  obtain ⟨next, first', stepped, queued'⟩ := queued.step event
  obtain ⟨last, first'', ran, final⟩ := ih queued'
  refine ⟨last, first'', ?_, final⟩
  rw [Fifo.run, foldlM_cons, stepped]
  exact ran

end

end Queued

/-- The rounded size is a power of two, unless it does not fit. -/
theorem roundup_power {bits : Nat} (long : bits = 32 ∨ bits = 64) (size : Nat)
    (two : ¬unsignedInt (roundupPowOfTwo bits size) < 2) :
    ∃ order ≤ 31, unsignedInt (roundupPowOfTwo bits size) = 2 ^ order := by
  rw [roundupPowOfTwo] at two ⊢
  generalize ((size + 2 ^ bits - 1) % 2 ^ bits).size = order at two ⊢
  have truncated : unsignedInt (2 ^ order % 2 ^ bits) = 2 ^ order % 2 ^ 32 := by
    rw [unsignedInt, mod_mod_of_dvd _ (pow_dvd_pow 2 (by omega))]
  rw [truncated] at two ⊢
  have low : order ≤ 31 := by
    by_contra high
    have none : 2 ^ order % 2 ^ 32 = 0 := mod_eq_zero_of_dvd (pow_dvd_pow 2 (by omega))
    omega
  exact ⟨order, low, Nat.mod_eq_of_lt (Nat.pow_lt_pow_right (by omega) (by omega))⟩

/-- What `__kfifo_alloc` makes. -/
theorem kfifoAlloc_geometry {bits size : Nat} (long : bits = 32 ∨ bits = 64)
    (made : kfifoAlloc bits memory size esize = .ok fifo)
    (small : (fifo.mask + 1) * esize < 2 ^ 32) :
    Geometry fifo esize ∧ fifo.inIndex = 0 ∧ fifo.outIndex = 0 := by
  simp only [kfifoAlloc] at made
  split at made
  · cases made
  rename_i two
  cases memory with
  | none => cases made
  | some memory => ?_
  obtain rfl := Except.ok.inj made
  obtain ⟨order, low, size_eq⟩ := roundup_power long size two
  rw [Nat.sub_add_cancel (by omega)] at small
  have element : esize < 2 ^ 32 := by
    refine Nat.lt_of_le_of_lt (Nat.le_mul_of_pos_left esize ?_) small
    omega
  have word : unsignedInt (roundupPowOfTwo bits size) * esize < 2 ^ bits := by
    refine Nat.lt_of_lt_of_le small (Nat.pow_le_pow_right (by omega) ?_)
    omega
  refine ⟨⟨⟨order, low, ?_⟩, Nat.mod_eq_of_lt element, ?_, ?_⟩, rfl, rfl⟩
  · rw [Nat.sub_add_cancel (by omega), size_eq]
  · rwa [Nat.sub_add_cancel (by omega)]
  rw [length_map, length_range, Nat.mod_eq_of_lt word, Nat.sub_add_cancel (by omega)]

/-- A queue of one producer and one consumer. Whatever the order of their steps, none of them goes
outside the buffers, what was taken out is a start of what was put in, and the rest fits the
queue. -/
theorem kfifo_in_order {bits size : Nat} {memory : Option (Nat → UInt8)} {fifo : Kfifo}
    (long : bits = 32 ∨ bits = 64) (made : kfifoAlloc bits memory size esize = .ok fifo)
    (small : (fifo.mask + 1) * esize < 2 ^ 32) (events : List (Event esize)) :
    ∃ state : State esize, run (start fifo) events = some state ∧
      ∃ count ≤ state.put.length, state.taken = bytes (state.put.take count) ∧
        (∀ taking ∈ state.consumer, state.taken ++ taking.dst <+: bytes state.put) ∧
        unsignedSub state.fifo.inIndex state.fifo.outIndex = state.put.length - count ∧
        state.put.length - count ≤ fifo.mask + 1 := by
  obtain ⟨geometry, inIndex, outIndex⟩ := kfifoAlloc_geometry long made small
  obtain ⟨state, first, ran, queued⟩ := (Queued.start geometry inIndex outIndex).run events
  refine ⟨state, ran, first, queued.le, queued.taken, fun taking active => ?_, ?_, ?_⟩
  · obtain ⟨-, -, -, dst_eq⟩ := queued.consumer taking active
    rw [queued.taken, dst_eq]
    have whole : bytes state.put =
        bytes (state.put.take first) ++ bytes (state.put.drop first) := by
      rw [← bytes_append, take_append_drop]
    rw [whole]
    exact prefix_append_right_inj _ |>.mpr (List.take_prefix _ _)
  · exact (unused_counts queued.geometry queued.le queued.room queued.inIndex queued.outIndex).1
  have room := queued.room
  rw [queued.mask_eq] at room
  omega

/-- A queue for three elements of two bytes has room for four. -/
theorem kfifo_in_order_four :
    ∃ fifo, kfifoAlloc 64 (some fun _ => 0) 3 2 = .ok fifo ∧
      ∀ events : List (Event 2), ∃ state : State 2, run (start fifo) events = some state ∧
        ∃ count ≤ state.put.length, state.taken = bytes (state.put.take count) ∧
          state.put.length - count ≤ 4 := by
  have made : kfifoAlloc 64 (some fun _ => 0) 3 2 = .ok ⟨0, 0, 3, 2, replicate 8 0⟩ := by
    decide +kernel
  refine ⟨_, made, fun events => ?_⟩
  obtain ⟨state, ran, count, le, taken, -, -, room⟩ :=
    kfifo_in_order (.inr rfl) made (by decide) events
  exact ⟨state, ran, count, le, taken, room⟩

/-- The rounded size of `0x40000001` elements of two bytes wraps to nothing on a 32-bit machine, and
so the first byte put in is already outside; of `2049` elements of `2 ^ 20 + 1` bytes it leaves 4096
bytes for `2 ^ 32 + 4096`. -/
theorem kfifo_alloc_wraps :
    0x40000001 * 2 < 2 ^ 32 ∧
      kfifoAlloc 32 (some fun _ => 0) 0x40000001 2 = .ok ⟨0, 0, 2 ^ 31 - 1, 2, []⟩ ∧
      run (start ⟨0, 0, 2 ^ 31 - 1, 2, []⟩ : State 2) [.kfifoIn [Vector.replicate 2 1], .copyIn] =
        none ∧ 2049 * (2 ^ 20 + 1) < 2 ^ 32 ∧
      ∃ fifo, kfifoAlloc 32 (some fun _ => 0) 2049 (2 ^ 20 + 1) = .ok fifo ∧ fifo.mask + 1 = 4096 ∧
        fifo.data.length = 4096 := by
  refine ⟨by decide, by decide +kernel, by decide +kernel, by decide, _, rfl, ?_, ?_⟩ <;>
    decide +kernel

end TinyKernel.Fifo
