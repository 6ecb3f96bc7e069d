import TinyKernel.Printk.Records

/-! How the live records lie in the buffer: one after the other, or up to a marker and on from the
start. -/

namespace TinyKernel.Printk

open Lib List

variable {record : Record} {records : List Record}
  {first middle last msg : Nat}

/-- The record's length covers what is in it. -/
def Record.Proper (record : Record) : Prop :=
  headerSize + record.text.length + record.dict.length ≤ record.len

theorem readRecord_congr (found : readRecord build memory msg = record) (proper : record.Proper)
    (same : ∀ i, msg ≤ i → i < msg + record.len → memory' i = memory i) :
    readRecord build memory' msg = record := by
  have text_len : record.text.length = msgTextLen build memory msg := by
    rw [← found]
    exact Memory.length_read
  have dict_len : record.dict.length = msgDictLen build memory msg := by
    rw [← found]
    exact Memory.length_read
  rw [Record.Proper, text_len, dict_len, headerSize] at proper
  have fields {offset width : Nat} (inside : offset + width ≤ 16) :
      field build memory' msg offset width = field build memory msg offset width :=
    field_congr fun i lower upper => same i (by omega) (by omega)
  have text_len' : msgTextLen build memory' msg = msgTextLen build memory msg := fields (by decide)
  have dict_len' : msgDictLen build memory' msg = msgDictLen build memory msg := fields (by decide)
  have text : memory'.read (logText msg) (msgTextLen build memory msg) =
      memory.read (logText msg) (msgTextLen build memory msg) :=
    Memory.read_congr fun i lower upper => same i
      (by simp only [logText, headerSize] at lower; omega)
      (by simp only [logText, headerSize] at upper; omega)
  have dict : memory'.read (logDict build memory msg) (msgDictLen build memory msg) =
      memory.read (logDict build memory msg) (msgDictLen build memory msg) :=
    Memory.read_congr fun i lower upper => same i
      (by simp only [logDict, headerSize] at lower; omega)
      (by simp only [logDict, headerSize] at upper; omega)
  rw [← found]
  simp only [readRecord, msgLen, fields (show 0 + 8 ≤ 16 by decide),
    fields (show 8 + 2 ≤ 16 by decide), fields (show 14 + 1 ≤ 16 by decide),
    fields (show 15 + 1 ≤ 16 by decide), text_len', dict_len', text]
  rw [logDict, text_len', ← logDict, dict]

/-- The records lie one after the other. -/
def Chain (build : Build) (memory : Memory) : Nat → List Record → Nat → Prop
  | first, [], last => first = last
  | first, record :: records, last =>
    readRecord build memory first = record ∧ record.Proper ∧
      Chain build memory (first + record.len) records last

namespace Chain

theorem le (chain : Chain build memory first records last) : first ≤ last := by
  induction records generalizing first with
  | nil => exact Nat.le_of_eq chain
  | cons record records ih => exact (Nat.le_add_right ..).trans (ih chain.2.2)

theorem lt (chain : Chain build memory first records last) (nonempty : records ≠ []) :
    first < last := by
  cases records with
  | nil => exact absurd rfl nonempty
  | cons record records => ?_
  obtain ⟨-, proper, rest⟩ := chain
  have := rest.le
  rw [Record.Proper, headerSize] at proper
  omega

theorem congr (chain : Chain build memory first records last)
    (same : ∀ i, first ≤ i → i < last → memory' i = memory i) :
    Chain build memory' first records last := by
  induction records generalizing first with
  | nil => exact chain
  | cons record records ih => ?_
  obtain ⟨found, proper, rest⟩ := chain
  have ends := rest.le
  refine ⟨readRecord_congr found proper fun i lower upper => same i lower (by omega), proper,
    ih rest fun i lower upper => same i (by omega) upper⟩

theorem append (chain : Chain build memory first records middle)
    (rest : Chain build memory middle more last) :
    Chain build memory first (records ++ more) last := by
  induction records generalizing first with
  | nil =>
    cases chain
    exact rest
  | cons record records ih => exact ⟨chain.1, chain.2.1, ih chain.2.2⟩

end Chain

/-- The live records, in the order they were stored. -/
inductive Laid (build : Build) (log : Log) : List Record → Prop where
  | straight {live : List Record} (chain : Chain build log.buf log.firstIdx live log.nextIdx)
      (ends : log.nextIdx + headerSize ≤ log.bufLen) : Laid build log live
  | wrapped {old new : List Record} {marker : Nat}
    (chain : Chain build log.buf log.firstIdx old marker)
      (ends : marker + headerSize ≤ log.bufLen) (zero : msgLen build log.buf marker = 0)
      (restart : Chain build log.buf 0 new log.nextIdx) (nonempty : new ≠ [])
      (gap : log.nextIdx + headerSize ≤ log.firstIdx) : Laid build log (old ++ new)

theorem msgLen_of_read (found : readRecord build memory msg = record) (proper : record.Proper) :
    msgLen build memory msg = record.len ∧ record.len ≠ 0 := by
  rw [Record.Proper, headerSize] at proper
  exact ⟨congrArg Record.len found, by omega⟩

theorem Laid.drop (laid : Laid build log (record :: records)) (firstSeq : Nat) :
    Laid build { log with firstIdx := logNext build log log.firstIdx, firstSeq } records := by
  generalize live_eq : record :: records = live at laid
  cases laid with
  | straight chain ends =>
    subst live_eq
    obtain ⟨found, proper, rest⟩ := chain
    obtain ⟨len_eq, ne⟩ := msgLen_of_read found proper
    refine .straight ?_ ends
    rw [logNext, len_eq, if_neg ne]
    exact rest
  | @wrapped old new marker chain ends zero restart nonempty gap => ?_
  cases old with
  | nil =>
    -- the marker is the first index, and stands for the record at the start
    subst live_eq
    cases chain
    obtain ⟨found, proper, rest⟩ := restart
    refine .straight ?_ (gap.trans ((Nat.le_add_right ..).trans ends))
    rw [logNext, zero, if_pos rfl, (msgLen_of_read found proper).1]
    rwa [Nat.zero_add] at rest
  | cons record' old => ?_
  obtain ⟨rfl, rfl⟩ := cons.inj live_eq
  obtain ⟨found, proper, rest⟩ := chain
  obtain ⟨len_eq, ne⟩ := msgLen_of_read found proper
  have next_eq : logNext build log log.firstIdx = log.firstIdx + record.len := by
    rw [logNext, len_eq, if_neg ne]
  have chain' : Chain build log.buf (logNext build log log.firstIdx) old marker := by
    rw [next_eq]
    exact rest
  have gap' : log.nextIdx + headerSize ≤ logNext build log log.firstIdx := by
    rw [next_eq]
    exact gap.trans (Nat.le_add_right ..)
  exact .wrapped chain' ends zero restart nonempty gap'

/-- There is room for a record where it goes. -/
structure Room (log : Log) (size : Nat) : Prop where
  start : log.wraps size = true → log.firstIdx ≤ log.nextIdx ∧ size + headerSize ≤ log.firstIdx
  here : log.wraps size = false →
    log.firstIdx ≤ log.nextIdx ∨ log.nextIdx + size + headerSize ≤ log.firstIdx

/-- A record fits the buffer when it is empty. -/
def Log.fitsEmpty (log : Log) (size : Nat) : Bool :=
  size + headerSize ≤ max (log.bufLen - log.nextIdx) log.nextIdx

theorem Laid.hasSpace_empty (laid : Laid build log []) (size : Nat) :
    logbufHasSpace log size true = log.fitsEmpty size ∧
      (log.fitsEmpty size = true → Room log size) := by
  generalize live_eq : ([] : List Record) = live at laid
  cases laid with
  | straight chain ends =>
    subst live_eq
    have same : log.firstIdx = log.nextIdx := chain
    refine ⟨by simp [logbufHasSpace, Log.fitsEmpty, same],
      fun fits => ⟨fun wraps => ?_, fun _ => ?_⟩⟩
    · simp only [Log.fitsEmpty, Log.wraps, decide_eq_true_eq] at fits wraps
      omega
    exact .inl (Nat.le_of_eq same)
  | wrapped chain ends zero restart nonempty gap =>
    exact absurd (append_eq_nil_iff.mp live_eq.symm).2 nonempty

theorem Laid.hasSpace_nonempty (laid : Laid build log live) (nonempty : live ≠ [])
    (space : logbufHasSpace log size false = true) : log.fitsEmpty size = true ∧ Room log size := by
  cases laid with
  | straight chain ends =>
    have order := chain.lt nonempty
    have free : size + headerSize ≤ max (log.bufLen - log.nextIdx) log.firstIdx := by
      simpa [logbufHasSpace, order] using space
    refine ⟨?_, ⟨fun wraps => ?_, fun _ => .inl order.le⟩⟩
    · simp only [Log.fitsEmpty, decide_eq_true_eq]
      omega
    simp only [Log.wraps, decide_eq_true_eq] at wraps
    omega
  | wrapped chain ends zero restart nonempty' gap => ?_
  have order : ¬log.nextIdx > log.firstIdx := by omega
  have free : size + headerSize ≤ log.firstIdx - log.nextIdx := by
    simpa [logbufHasSpace, order] using space
  have upper := chain.le
  refine ⟨?_, ⟨fun wraps => ?_, fun _ => .inr (by omega)⟩⟩
  · simp only [Log.fitsEmpty, decide_eq_true_eq]
    omega
  simp only [Log.wraps, decide_eq_true_eq] at wraps
  omega

/-- Records are dropped until there is room, and all of them if there is not. -/
theorem makeFree_spec (laid : Laid build log live) (size : Nat) :
    ∃ gone firstIdx, gone ≤ live.length ∧
      makeFree build size live.length log =
        ({ log with firstIdx, firstSeq := log.firstSeq + gone }, log.fitsEmpty size) ∧
      Laid build { log with firstIdx, firstSeq := log.firstSeq + gone } (live.drop gone) ∧
      (log.fitsEmpty size = true →
        Room { log with firstIdx, firstSeq := log.firstSeq + gone } size) := by
  induction live generalizing log with
  | nil =>
    obtain ⟨space, room⟩ := laid.hasSpace_empty size
    exact ⟨0, log.firstIdx, Nat.le_refl 0, by simp [makeFree, space], laid, room⟩
  | cons record live ih => ?_
  rw [length_cons, makeFree]
  cases space : logbufHasSpace log size false with
  | true =>
    obtain ⟨fits, room⟩ := laid.hasSpace_nonempty (cons_ne_nil _ _) space
    exact ⟨0, log.firstIdx, Nat.zero_le _, by simp [fits], laid, fun _ => room⟩
  | false => ?_
  obtain ⟨gone, firstIdx, bound, ran, laid', room⟩ := ih (laid.drop (log.firstSeq + 1))
  refine ⟨gone + 1, firstIdx, Nat.succ_le_succ bound, ?_, ?_, fun fits => ?_⟩
  · rw [if_neg Bool.false_ne_true, ran]
    simp only [Nat.add_assoc, Nat.add_comm 1]
    rfl
  · simpa only [Nat.add_assoc, Nat.add_comm 1, drop_succ_cons] using laid'
  simpa only [Nat.add_assoc, Nat.add_comm 1] using room fits

theorem msgLen_marker (memory : Memory) (idx : Nat) :
    msgLen build (memory.write idx (replicate headerSize 0)) idx = 0 := by
  have zeros : (memory.write idx (replicate headerSize 0)).read (idx + 8) 2 = [0, 0] := by
    simp [Memory.read, Memory.write, range_succ, headerSize, Nat.add_assoc]
  rw [msgLen, field, zeros]
  cases build.bigEndian <;> rfl

/-- A record is added where there is room for it. -/
theorem Laid.add (laid : Laid build log live) (room : Room log size) (proper : record.Proper)
    (len_eq : record.len = size) (found : readRecord build memory (log.slot size) = record)
    (out : ∀ i, i < log.slot size ∨ log.slot size + size ≤ i →
      memory i =
        if log.wraps size then log.buf.write log.nextIdx (replicate headerSize 0) i else log.buf i)
    (nextSeq : Nat) :
    Laid build { log with buf := memory, nextIdx := log.slot size + size, nextSeq }
      (live ++ [record]) := by
  have added : Chain build memory (log.slot size) [record] (log.slot size + size) :=
    ⟨found, proper, by rw [len_eq]; rfl⟩
  have header : headerSize = 16 := rfl
  cases wraps : log.wraps size with
  | false =>
    have slot_eq : log.slot size = log.nextIdx := by rw [Log.slot, wraps, if_neg Bool.false_ne_true]
    simp only [wraps, Bool.false_eq_true, if_false, slot_eq] at out added ⊢
    have fits : log.nextIdx + size + headerSize ≤ log.bufLen := by simpa [Log.wraps] using wraps
    cases laid with
    | straight chain ends =>
      exact .straight ((chain.congr fun i _ upper => out i (.inl upper)).append added) fits
    | wrapped chain ends zero restart nonempty gap => ?_
    have space : log.nextIdx + size + headerSize ≤ log.firstIdx := by
      rcases room.here wraps with order | space
      · omega
      exact space
    have upper := chain.le
    have chain' := chain.congr fun i lower _ => out i (.inr (by omega))
    have restart' := (restart.congr fun i _ upper => out i (.inl upper)).append added
    rw [append_assoc]
    refine .wrapped chain' ends ?_ restart' (by simp) space
    rw [← zero]
    exact field_congr fun i lower _ => out i (.inr (by omega))
  | true => ?_
  have slot_eq : log.slot size = 0 := by rw [Log.slot, wraps, if_pos rfl]
  obtain ⟨order, space⟩ := room.start wraps
  simp only [wraps, if_true, slot_eq, Nat.zero_add] at out added ⊢
  cases laid with
  | straight chain ends =>
    have chain' := chain.congr fun i lower upper =>
      (out i (.inr (by omega))).trans (Memory.write_outside (.inl upper))
    refine .wrapped chain' ends ?_ added (by simp) space
    -- the record does not reach the marker
    rw [← msgLen_marker log.buf log.nextIdx]
    exact field_congr fun i lower _ => out i (.inr (by omega))
  | wrapped chain ends zero restart nonempty gap => omega

theorem Laid.next_le (laid : Laid build log live) : log.nextIdx + headerSize ≤ log.bufLen := by
  cases laid with
  | straight chain ends => exact ends
  | wrapped chain ends zero restart nonempty gap => ?_
  have upper := chain.le
  omega

theorem Laid.slot_le (laid : Laid build log live) (room : Room log size) :
    log.slot size + size ≤ log.bufLen := by
  have next := laid.next_le
  rw [Log.slot]
  cases wraps : log.wraps size with
  | false =>
    rw [if_neg Bool.false_ne_true]
    simp only [Log.wraps, decide_eq_false_iff_not] at wraps
    omega
  | true => ?_
  have space := room.start wraps
  rw [if_pos rfl]
  omega

end TinyKernel.Printk
