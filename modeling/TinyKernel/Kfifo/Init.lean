import Mathlib.Data.Nat.Size
import TinyKernel.Kfifo.Runs

/-! Queues in a buffer of the caller. -/

namespace TinyKernel.Fifo

open Option

variable {esize : Nat}

/-- The same state with more room behind the buffer. -/
def State.extend (state : State esize) (rest : List UInt8) : State esize :=
  { state with fifo := { state.fifo with data := state.fifo.data ++ rest } }

section

variable (rest : List UInt8)

theorem copyIn_extend (copied : copyIn state putting = some next) :
    copyIn (state.extend rest) putting = some (next.extend rest) := by
  rw [copyIn] at copied ⊢
  split at copied
  · next more =>
    obtain ⟨byte, read, copied⟩ := bind_eq_some_iff.mp copied
    obtain ⟨data, written, copied⟩ := bind_eq_some_iff.mp copied
    obtain rfl := some.inj copied
    rw [store] at written
    split at written
    · next inside =>
      obtain rfl := some.inj written
      have longer : putting.range.address putting.copied < (state.fifo.data ++ rest).length := by
        rw [List.length_append]
        omega
      simp only
        [if_pos more, read, store, State.extend, if_pos longer, List.set_append_left _ _ inside]
      rfl
    cases written
  rename_i done
  obtain rfl := some.inj copied
  rw [if_neg done]

theorem copyOut_extend (copied : copyOut state taking = some next) :
    copyOut (state.extend rest) taking = some (next.extend rest) := by
  rw [copyOut] at copied ⊢
  split at copied
  · next more =>
    obtain ⟨byte, read, copied⟩ := bind_eq_some_iff.mp copied
    obtain rfl := some.inj copied
    have inside := (List.getElem?_eq_some_iff.mp read).1
    have same : (state.extend rest).fifo.data[taking.range.address taking.dst.length]? =
        some byte := by
      rw [← read]
      exact List.getElem?_append_left inside
    rw [if_pos more, same]
    rfl
  rename_i done
  obtain rfl := some.inj copied
  rw [if_neg done]

/-- A step that stays inside the buffer does the same to a longer one. -/
theorem step_extend (stepped : step state event = some next) :
    step (state.extend rest) event = some (next.extend rest) := by
  obtain ⟨fifo, producer, consumer, put, taken⟩ := state
  cases event with
  | kfifoIn buf =>
    cases producer <;> obtain rfl := some.inj stepped <;> rfl
  | copyIn =>
    cases producer with
    | none =>
      obtain rfl := some.inj stepped
      rfl
    | some putting => exact copyIn_extend rest stepped
  | addIn =>
    obtain rfl := some.inj stepped
    cases producer with
    | none => rfl
    | some putting => ?_
    simp only [step, State.extend, elim_some, addIn]
    split <;> rfl
  | kfifoOut len =>
    cases consumer <;> obtain rfl := some.inj stepped <;> rfl
  | copyOut =>
    cases consumer with
    | none =>
      obtain rfl := some.inj stepped
      rfl
    | some taking => exact copyOut_extend rest stepped
  | addOut => ?_
  obtain rfl := some.inj stepped
  cases consumer with
  | none => rfl
  | some taking => ?_
  simp only [step, State.extend, elim_some, addOut]
  split <;> rfl

theorem run_extend (ran : run state events = some next) :
    run (state.extend rest) events = some (next.extend rest) := by
  induction events generalizing state with
  | nil =>
    obtain rfl := some.inj ran
    rfl
  | cons event events ih => ?_
  obtain ⟨middle, stepped, ran⟩ := bind_eq_some_iff.mp ran
  rw [run, List.foldlM_cons, step_extend rest stepped]
  exact ih ran

end

/-- The rounded number of elements; nothing is left of it above `2 ^ 31`. -/
theorem rounded_eq (long : bits = 32 ∨ bits = 64) (pos : 1 ≤ n) (word : n < 2 ^ 32) :
    unsignedInt (roundupPowOfTwo bits n) = 2 ^ (n - 1).size % 2 ^ 32 := by
  have wide : 2 ^ 32 ≤ 2 ^ bits := Nat.pow_le_pow_right (by decide) (by omega)
  have small : (n - 1) % 2 ^ bits = n - 1 := Nat.mod_eq_of_lt (by omega)
  rw [roundupPowOfTwo, Nat.sub_add_comm pos, Nat.add_mod_right, small, unsignedInt,
    Nat.mod_mod_of_dvd _ (Nat.pow_dvd_pow 2 (by omega))]

/-- A queue that uses only a part of the caller's buffer stays inside that buffer. -/
theorem run_of_capacity (low : order ≤ 31) (buffer : List UInt8)
    (used : 2 ^ order * esize ≤ buffer.length) (unsigned : buffer.length < 2 ^ 32)
    (events : List (Event esize)) :
    ∃ state, run (start ⟨0, 0, 2 ^ order - 1, esize, buffer⟩) events = some state := by
  let inner : Kfifo := ⟨0, 0, 2 ^ order - 1, esize, buffer.take (2 ^ order * esize)⟩
  have capacity : 2 ^ order - 1 + 1 = 2 ^ order := Nat.sub_add_cancel (Nat.two_pow_pos order)
  have geometry : Geometry inner esize := by
    refine ⟨⟨order, low, capacity⟩, rfl, ?_, ?_⟩
    · exact capacity.symm ▸ Nat.lt_of_le_of_lt used unsigned
    simp [inner, capacity, Nat.min_eq_left used]
  have start_eq : (start inner : State esize).extend (buffer.drop (2 ^ order * esize)) =
      start ⟨0, 0, 2 ^ order - 1, esize, buffer⟩ := by
    simp [State.extend, start, inner]
  obtain ⟨state, -, ran, -⟩ := (Queued.start geometry rfl rfl).run events
  exact ⟨_, start_eq ▸ run_extend _ ran⟩

/-- Copies that stay inside the buffer only move the producer on. -/
theorem run_copyIn {state next : State esize} (k : Nat) (active : state.producer = some putting)
    (more : putting.copied + k ≤ putting.range.len)
      (ran : run state (.replicate k .copyIn) = some next) :
    ∃ data : List UInt8, data.length = state.fifo.data.length ∧ next = { state with
      fifo := { state.fifo with data }
      producer := some { putting with copied := putting.copied + k } } := by
  induction k generalizing state putting with
  | zero =>
    obtain rfl := some.inj ran
    exact ⟨state.fifo.data, rfl, by simp [← active]⟩
  | succ k ih => ?_
  obtain ⟨middle, stepped, ran⟩ := bind_eq_some_iff.mp ran
  rw [step, active, elim_some, copyIn, if_pos (by omega)] at stepped
  obtain ⟨byte, -, stepped⟩ := bind_eq_some_iff.mp stepped
  obtain ⟨data, written, stepped⟩ := bind_eq_some_iff.mp stepped
  obtain rfl := some.inj stepped
  obtain ⟨data', same, rfl⟩ := ih rfl (by simp only; omega) ran
  rw [store] at written
  split at written
  · obtain rfl := some.inj written
    exact ⟨data', by simpa using same, by simp [Nat.add_assoc, Nat.add_comm k]⟩
  cases written

theorem copyRange_len (word : len * esize < 2 ^ 32) :
    (copyRange mask esize len off).len = len * esize := by
  simp only [copyRange]
  split
  · exact Nat.mod_eq_of_lt word
  simp_all

theorem unsignedSub_of_le (le : b ≤ a) (word : a < 2 ^ 32) : unsignedSub a b = a - b := by
  rw [unsignedSub]
  omega

/-- Behind the elements that fit, the next one is copied to the end of the buffer and beyond. -/
theorem copyRange_behind (low : k ≤ 31) (fits : n < 2 ^ k) (near : (2 ^ k - n) * esize < 2 ^ 32)
    (word : n * esize < 2 ^ 32) (element : esize < 2 ^ 32) :
    copyRange (2 ^ k - 1) esize 1 n = ⟨n * esize, esize, esize⟩ := by
  have power : 2 ^ k ≤ 2 ^ 31 := Nat.pow_le_pow_right (by decide) low
  have off : n &&& (2 ^ k - 1) = n := Nat.and_two_pow_sub_one_of_lt_two_pow fits
  have one : esize ≤ (2 ^ k - n) * esize := Nat.le_mul_of_pos_left _ (by omega)
  have total : 2 ^ k * esize = n * esize + (2 ^ k - n) * esize := by
    rw [← Nat.add_mul, Nat.add_sub_cancel' fits.le]
  have size : unsignedInt (2 ^ k - 1 + 1) = 2 ^ k := by
    rw [Nat.sub_add_cancel (Nat.two_pow_pos k)]
    exact Nat.mod_eq_of_lt (by omega)
  simp only [copyRange, off, size, Nat.one_mul]
  split
  · have rest : unsignedSub (unsignedInt (2 ^ k * esize)) (n * esize) = (2 ^ k - n) * esize := by
      rw [unsignedSub, unsignedInt, total]
      omega
    simp only [unsignedInt, Nat.mod_eq_of_lt word, Nat.mod_eq_of_lt element]
    rw [← unsignedInt, rest, Nat.min_eq_left one]
  next single =>
  obtain rfl : esize = 1 := by simpa using single
  rw [unsignedSub_of_le fits.le (by omega), Nat.mul_one, Nat.min_eq_left (by omega)]

/-- The room behind `n` elements that no `kfifo_out` has taken. -/
theorem unused_behind (low : k ≤ 31) (le : n ≤ 2 ^ k) :
    kfifoUnused ⟨n, 0, 2 ^ k - 1, esize, data⟩ = 2 ^ k - n := by
  have power : 2 ^ k ≤ 2 ^ 31 := Nat.pow_le_pow_right (by decide) low
  have size : unsignedInt (2 ^ k) = 2 ^ k := Nat.mod_eq_of_lt (by omega)
  rw [kfifoUnused, Nat.sub_add_cancel (Nat.two_pow_pos k), size,
    unsignedSub_of_le (Nat.zero_le n) (by omega), Nat.sub_zero, unsignedSub_of_le le (by omega)]

/-- A queue with more elements than the buffer has room for goes outside it. -/
theorem overruns (low : k ≤ 31) (buffer : List UInt8) (unsigned : buffer.length < 2 ^ 32)
    (fits : buffer.length / esize < 2 ^ k) (near : 2 ^ k ≤ 2 * (buffer.length / esize))
    (pos : 0 < esize) :
    ∃ events : List (Event esize), run (start ⟨0, 0, 2 ^ k - 1, esize, buffer⟩) events = none := by
  by_contra inside
  simp only [not_exists, ← ne_eq, ne_none_iff_exists'] at inside
  have total := Nat.div_add_mod' buffer.length esize
  have below := Nat.mod_lt buffer.length pos
  have power : 2 ^ k ≤ 2 ^ 31 := Nat.pow_le_pow_right (by decide) low
  generalize buffer.length / esize = n at *
  generalize buffer.length % esize = r at *
  have least : esize ≤ n * esize := Nat.le_mul_of_pos_left _ (by omega)
  have half : (2 ^ k - n) * esize ≤ n * esize := Nat.mul_le_mul_right _ (by omega)
  have index : unsignedInt n = n := Nat.mod_eq_of_lt (by omega)
  let item : Element esize := .replicate esize 0
  -- all elements that fit, and then one more
  obtain ⟨last, ran⟩ := inside (.kfifoIn (.replicate n item) :: (.replicate (n * esize) .copyIn ++
    (.addIn :: .kfifoIn [item] :: (.replicate r .copyIn ++ [.copyIn]))))
  rw [run, List.foldlM_cons] at ran
  obtain ⟨first, began, ran⟩ := bind_eq_some_iff.mp ran
  rw [List.foldlM_append] at ran
  obtain ⟨full, copied, ran⟩ := bind_eq_some_iff.mp ran
  have count : min (unsignedInt (List.replicate n item).length)
      (kfifoUnused ⟨0, 0, 2 ^ k - 1, esize, buffer⟩) = n := by
    rw [unused_behind low (Nat.zero_le _), List.length_replicate, index]
    exact Nat.min_eq_left fits.le
  simp only [step, start, count] at began
  obtain rfl := some.inj began
  have length : (copyRange (2 ^ k - 1) esize n 0).len = n * esize := copyRange_len (by omega)
  obtain ⟨data, same, rfl⟩ := run_copyIn (n * esize) rfl (by simp [length]) copied
  rw [List.foldlM_cons] at ran
  obtain ⟨added, moved, ran⟩ := bind_eq_some_iff.mp ran
  simp only [step, elim_some, addIn, length, Nat.zero_add, Nat.lt_irrefl, if_false] at moved
  obtain rfl := some.inj moved
  rw [List.foldlM_cons] at ran
  obtain ⟨again, began, ran⟩ := bind_eq_some_iff.mp ran
  have one : min (unsignedInt [item].length)
      (kfifoUnused ⟨n, 0, 2 ^ k - 1, esize, data⟩) = 1 := by
    rw [unused_behind low fits.le]
    exact Nat.min_eq_left (Nat.sub_pos_of_lt fits)
  have behind : copyRange (2 ^ k - 1) esize 1 n = ⟨n * esize, esize, esize⟩ :=
    copyRange_behind low fits (by omega) (by omega) (by omega)
  simp only [step, index, one, behind] at began
  obtain rfl := some.inj began
  rw [List.foldlM_append] at ran
  obtain ⟨edge, copied, ran⟩ := bind_eq_some_iff.mp ran
  obtain ⟨data', same', rfl⟩ := run_copyIn r rfl (by simp only; omega) copied
  rw [List.foldlM_cons] at ran
  obtain ⟨beyond, stepped, -⟩ := bind_eq_some_iff.mp ran
  simp only [step, elim_some, copyIn, Nat.zero_add, if_pos below] at stepped
  obtain ⟨byte, -, stepped⟩ := bind_eq_some_iff.mp stepped
  obtain ⟨final, written, -⟩ := bind_eq_some_iff.mp stepped
  have outside : ¬ n * esize + r < data'.length := by
    have edge : data'.length = buffer.length := same'.trans same
    omega
  rw [store, CopyRange.address, if_pos below, if_neg outside] at written
  cases written

/-- In a queue made of a caller's buffer no step goes outside that buffer exactly if the buffer has
a power of two of elements, or so many that the rounded number does not fit and the queue is left
with one. -/
theorem kfifo_init_inside_iff {bits : Nat} (long : bits = 32 ∨ bits = 64) (buffer : List UInt8)
    (unsigned : buffer.length < 2 ^ 32) (two : 2 ≤ buffer.length / esize) :
    (∀ events : List (Event esize), ∃ state,
        run (start (kfifoInit bits buffer buffer.length esize).1) events = some state) ↔
      (∃ order, buffer.length / esize = 2 ^ order) ∨ 2 ^ 31 < buffer.length / esize := by
  have positive : 0 < esize := by
    rcases Nat.eq_zero_or_pos esize with rfl | positive
    · simp at two
    exact positive
  have used := Nat.div_mul_le_self buffer.length esize
  have single : esize ≤ buffer.length := (Nat.le_mul_of_pos_left _ (by omega)).trans used
  have element : unsignedInt esize = esize := Nat.mod_eq_of_lt (by omega)
  have few := Nat.div_le_self buffer.length esize
  have rounded := rounded_eq long (n := buffer.length / esize) (by omega) (by omega)
  have above := Nat.lt_size_self (buffer.length / esize - 1)
  obtain ⟨k, size⟩ : ∃ k, (buffer.length / esize - 1).size = k + 1 :=
    Nat.exists_eq_succ_of_ne_zero (Nat.size_pos.mpr (by omega)).ne'
  have lower : 2 ^ k ≤ buffer.length / esize - 1 := Nat.lt_size.mp (by omega)
  rw [size] at rounded above
  simp only [kfifoInit, rounded, element]
  by_cases many : 2 ^ 31 < buffer.length / esize
  · have high : 31 < (buffer.length / esize - 1).size := Nat.lt_size.mpr (by omega)
    have zero : 2 ^ (k + 1) % 2 ^ 32 = 0 := Nat.mod_eq_zero_of_dvd (Nat.pow_dvd_pow 2 (by omega))
    rw [zero, if_pos Nat.zero_lt_two]
    refine iff_of_true (fun events => ?_) (.inr many)
    exact run_of_capacity (Nat.zero_le 31) buffer (by simpa using single) unsigned events
  have low : (buffer.length / esize - 1).size ≤ 31 := Nat.size_le.mpr (by omega)
  rw [size] at low
  have word : 2 ^ (k + 1) < 2 ^ 32 := Nat.pow_lt_pow_right Nat.one_lt_two (by omega)
  have twice := pow_succ 2 k
  rw [Nat.mod_eq_of_lt word, if_neg (by omega)]
  by_cases power : buffer.length / esize = 2 ^ (k + 1)
  · refine iff_of_true (fun events => ?_) (.inl ⟨k + 1, power⟩)
    exact run_of_capacity low buffer (power ▸ used) unsigned events
  refine iff_of_false (fun inside => ?_) ?_
  · obtain ⟨events, outside⟩ := overruns low buffer unsigned (by omega) (by omega) positive
    obtain ⟨state, ran⟩ := inside events
    rw [outside] at ran
    cases ran
  rintro (⟨order, same⟩ | huge)
  · have more : k < order := (Nat.pow_lt_pow_iff_right Nat.one_lt_two).mp (by omega)
    have next := Nat.pow_le_pow_right (by decide : 0 < 2) (show k + 1 ≤ order from more)
    omega
  exact many huge

/-- Four elements of two bytes in nine bytes. -/
theorem kfifo_init_inside_iff_nine :
    ∃ state, run (start (kfifoInit 64 (.replicate 9 0) 9 2).1 : State 2)
      (.kfifoIn (List.replicate 5 (Vector.replicate 2 1)) :: List.replicate 10 .copyIn) =
        some state :=
  (kfifo_init_inside_iff (.inr rfl) (.replicate 9 0) (by decide) (by decide)).mpr (.inl ⟨2, rfl⟩) _

/-- Three elements are rounded up to four, and the fourth is written behind the buffer. -/
theorem kfifo_init_overruns :
    ∃ fifo, kfifoInit 64 [0, 0, 0] 3 1 = (fifo, none) ∧
      run (start fifo : State 1)
          (.kfifoIn (List.replicate 4 (Vector.replicate 1 1)) :: List.replicate 4 .copyIn) =
        none := by
  refine ⟨⟨0, 0, 3, 1, [0, 0, 0]⟩, ?_, ?_⟩ <;> decide +kernel

end TinyKernel.Fifo
