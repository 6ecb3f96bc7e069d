import Mathlib.Data.Nat.Digits.Lemmas
import Mathlib.Order.Lattice.Nat
import TinyKernel.Printk.Code

/-! What `log_store` writes for a record, and what is read back. -/

namespace TinyKernel.Printk

open Lib List

variable {buffer : Buffer}
  {msg lower upper lower' upper' : Nat}

/-- From one buffer to the next, nothing is written outside of an interval. -/
structure Within (lower upper : Nat) (buffer buffer' : Buffer) : Prop where
  outside : ∀ i, i < lower ∨ upper ≤ i → buffer'.memory i = buffer.memory i
  writes : ∀ place ∈ buffer'.writes, place ∈ buffer.writes ∨
    lower ≤ place.1 ∧ place.1 + place.2 ≤ upper

namespace Within

theorem refl (lower upper : Nat) (buffer : Buffer) : Within lower upper buffer buffer :=
  ⟨fun _ _ => rfl, fun _ mem => .inl mem⟩

theorem trans (first : Within lower upper buffer buffer')
    (second : Within lower upper buffer' buffer'') : Within lower upper buffer buffer'' := by
  constructor
  · intro i outside
    exact (second.outside i outside).trans (first.outside i outside)
  intro place mem
  rcases second.writes place mem with prev | inside
  · exact first.writes place prev
  exact .inr inside

theorem mono (within : Within lower upper buffer buffer') (below : lower' ≤ lower)
    (above : upper ≤ upper') : Within lower' upper' buffer buffer' := by
  constructor
  · intro i outside
    exact within.outside i (by omega)
  intro place mem
  rcases within.writes place mem with prev | inside
  · exact .inl prev
  exact .inr (by omega)

theorem write (within : Within lower upper buffer buffer') (below : lower ≤ start)
    (above : start + bytes.length ≤ upper) :
    Within lower upper buffer (buffer'.write start bytes) := by
  refine within.trans ⟨fun i outside => Memory.write_outside (by omega), fun place mem => ?_⟩
  rcases mem_append.mp mem with prev | new
  · exact .inl prev
  rw [mem_singleton.mp new]
  exact .inr ⟨below, above⟩

theorem setField (within : Within lower upper buffer buffer') (below : lower ≤ msg + offset)
    (above : msg + offset + width ≤ upper) :
    Within lower upper buffer (buffer'.setField build msg offset width value) :=
  within.write below (by rwa [length_encode])

end Within

section

variable {offset width value start start' length : Nat} {bytes : List UInt8}

theorem field_congr
    (same : ∀ i, msg + offset ≤ i → i < msg + offset + width → memory i = memory' i) :
    field build memory msg offset width = field build memory' msg offset width := by
  rw [field, Memory.read_congr same, field]

@[simp] theorem field_setField_self :
    field build (buffer.setField build msg offset width value).memory msg offset width =
      value % 256 ^ width := by
  have read : (buffer.memory.write (msg + offset) (encode build.bigEndian width value)).read
        (msg + offset) width = encode build.bigEndian width value := by
    have whole : (buffer.memory.write (msg + offset) (encode build.bigEndian width value)).read
          (msg + offset) (encode build.bigEndian width value).length =
        encode build.bigEndian width value :=
      Memory.read_write_self
    rwa [length_encode] at whole
  rw [field, Buffer.setField, Buffer.write, read, decode_encode]

theorem field_setField_apart (apart : offset + width ≤ offset' ∨ offset' + width' ≤ offset) :
    field build (buffer.setField build msg offset' width' value).memory msg offset width =
      field build buffer.memory msg offset width := by
  rw [field, Buffer.setField, Buffer.write, Memory.read_write_apart, field]
  rw [length_encode]
  omega

/-- What comes after a header does not change it. -/
theorem field_write (inside : offset + width ≤ headerSize) (behind : logText msg ≤ start) :
    field build (buffer.write start bytes).memory msg offset width =
      field build buffer.memory msg offset width := by
  rw [logText] at behind
  rw [field, Buffer.write, Memory.read_write_apart (by omega), field]

theorem read_setField (inside : offset + width ≤ headerSize) (behind : logText msg ≤ start) :
    (buffer.setField build msg offset width value).memory.read start length =
      buffer.memory.read start length := by
  rw [logText] at behind
  rw [Buffer.setField, Buffer.write, Memory.read_write_apart]
  rw [length_encode]
  omega

theorem read_before (before : start + length ≤ start') :
    (buffer.write start' bytes).memory.read start length = buffer.memory.read start length :=
  Memory.read_write_apart (.inl before)

theorem read_written (written : bytes.length = length) :
    (buffer.write start bytes).memory.read start length = bytes := by
  rw [← written]
  exact Memory.read_write_self

theorem logDict_eq (build : Build) (memory : Memory) (msg : Nat) :
    logDict build memory msg = logText msg + msgTextLen build memory msg := rfl

end

/-- The text of a record, but for the mark of a truncated one. -/
def storedText (build : Build) (call : Call) : List UInt8 :=
  (if build.mtPrefix then tbuf call.caller else []) ++ call.text.take (logLineMax - tlen build call)

theorem printedDigits_length (big : 1 < base) (pos : 0 < digits) (small : number < base ^ digits) :
    (printedDigits base number).length ≤ digits := by
  rw [printedDigits]
  split
  · exact pos
  rw [length_map, length_reverse]
  exact (Nat.digits_length_le_iff big number).mpr small

/-- `tbuf` has room for what is printed to it. -/
theorem tbuf_length (caller : Caller) : (tbuf caller).length ≤ 40 := by
  have cpu : (printedDigits 16 caller.cpu).length ≤ 8 :=
    printedDigits_length (by decide) (by decide) caller.cpu_lt
  have pid : (printedDigits 10 caller.pid).length ≤ 10 :=
    printedDigits_length (by decide) (by decide) (caller.pid_lt.trans (by decide))
  have comm := caller.comm_length
  simp only [tbuf]
  split <;> simp [ascii] <;> omega

theorem storedText_length (build : Build) (call : Call) :
    (storedText build call).length ≤ logLineMax := by
  have short := tbuf_length call.caller
  rw [storedText, tlen, logLineMax]
  cases build.mtPrefix <;> simp
  omega

theorem copyText_spec (build : Build) (buffer : Buffer) (msg : Nat) (call : Call) :
    ∃ buffer',
      copyText build buffer msg call call.text.length = (buffer', (storedText build call).length) ∧
        buffer'.memory.read (logText msg) (storedText build call).length = storedText build call ∧
        Within (logText msg) (logText msg + (storedText build call).length) buffer buffer' := by
  have text := call.text_length
  cases mt : build.mtPrefix with
  | false =>
    have stored : storedText build call = call.text := by simp [storedText, tlen, mt, text]
    have ran : copyText build buffer msg call call.text.length =
        (buffer.write (logText msg) call.text, call.text.length) := by
      simp [copyText, mt]
    rw [stored, ran]
    exact ⟨_, rfl, Memory.read_write_self, (Within.refl ..).write (le_rfl) (le_rfl)⟩
  | true => ?_
  have stored : storedText build call =
      tbuf call.caller ++ call.text.take (logLineMax - (tbuf call.caller).length) := by
    simp [storedText, tlen, mt]
  -- the length that the code computes is that of the text that is left
  have cut (textLen : Nat)
      (textLen_eq : textLen =
        if (tbuf call.caller).length + call.text.length > logLineMax then
          logLineMax - (tbuf call.caller).length
        else call.text.length) :
      call.text.take textLen = call.text.take (logLineMax - (tbuf call.caller).length) ∧
        textLen = (call.text.take (logLineMax - (tbuf call.caller).length)).length := by
    rw [textLen_eq, length_take]
    split
    · exact ⟨rfl, by omega⟩
    refine ⟨?_, by omega⟩
    rw [take_of_length_le (le_rfl), take_of_length_le (by omega)]
  rw [stored, copyText, if_pos mt]
  dsimp only
  generalize textLen_eq : (if (tbuf call.caller).length + call.text.length > logLineMax
      then logLineMax - (tbuf call.caller).length else call.text.length) = textLen
  obtain ⟨taken, counted⟩ := cut textLen textLen_eq.symm
  rw [taken, counted, length_append]
  generalize call.text.take (logLineMax - (tbuf call.caller).length) = left
  rw [Nat.add_comm left.length]
  refine ⟨_, rfl, ?_, ?_⟩
  · rw [Memory.read_add]
    congr 1
    · exact (Memory.read_write_apart (.inl (le_rfl))).trans Memory.read_write_self
    exact Memory.read_write_self
  exact ((Within.refl ..).write (le_rfl) (by omega)).write (by omega) (by omega)

theorem setTextLen_spec (build : Build) (buffer : Buffer) (msg : Nat)
    (mark : truncMsgLen = 0 ∨ truncMsgLen = truncMsg.length)
    (small : textLen + truncMsgLen < 2 ^ 16) :
    msgTextLen build (setTextLen build buffer msg textLen truncMsgLen).memory msg =
        textLen + truncMsgLen ∧
      (setTextLen build buffer msg textLen truncMsgLen).memory.read (logText msg)
          (textLen + truncMsgLen) =
        buffer.memory.read (logText msg) textLen ++ truncMsg.take truncMsgLen ∧
      Within msg (logText msg + (textLen + truncMsgLen)) buffer
        (setTextLen build buffer msg textLen truncMsgLen) := by
  have header : logText msg = msg + 16 := rfl
  have inside {offset width : Nat} (fits : offset + width ≤ 16) :
      msg + offset + width ≤ logText msg + (textLen + truncMsgLen) := by omega
  rcases mark with rfl | rfl
  · rw [setTextLen, if_neg (not_not.mpr rfl), take_zero, append_nil, Nat.add_zero]
    refine ⟨?_, read_setField (by decide) (le_rfl),
      (Within.refl ..).setField (Nat.le_add_right ..) (inside (by decide))⟩
    rw [msgTextLen, field_setField_self]
    exact Nat.mod_eq_of_lt small
  have length_pos : truncMsg.length ≠ 0 := by decide
  have text_len : msgTextLen build ((buffer.setField build msg 10 2 textLen).write
        (logText msg + textLen) (truncMsg.take truncMsg.length)).memory msg = textLen := by
    refine (field_write (by decide) (Nat.le_add_right ..)).trans ?_
    rw [field_setField_self]
    exact Nat.mod_eq_of_lt (by omega)
  rw [setTextLen, if_pos length_pos]
  dsimp only
  rw [text_len]
  refine ⟨?_, ?_, ?_⟩
  · rw [msgTextLen, field_setField_self]
    exact Nat.mod_eq_of_lt small
  · rw [read_setField (by decide) (le_rfl), Memory.read_add]
    congr 1
    · refine (Memory.read_write_apart (.inl (le_rfl))).trans ?_
      exact read_setField (by decide) (le_rfl)
    exact Memory.read_write_self
  refine ((Within.refl ..).setField (Nat.le_add_right ..) (inside (by decide))).write ?_ ?_
    |>.setField (Nat.le_add_right ..) (inside (by decide))
  · omega
  rw [take_length]
  omega

theorem fillRest_eq (build : Build) (buffer : Buffer) (msg : Nat) (call : Call) (lengths : Lengths)
    (text_len : msgTextLen build buffer.memory msg = textLen) :
    fillRest build buffer msg call lengths =
      ((((((buffer.write (logText msg + textLen) (call.dict.take lengths.dict)).setField build msg
                  12 2 lengths.dict).setField build msg 14 1 (call.facility % 256).toNat).setField
              build msg 15 1 (packFlags build (call.flags % 32) (call.level % 8).toNat)).setField
            build msg 0 8 (if call.tsNsec > 0 then call.tsNsec else call.localClock).toNat).write
          (logText msg + textLen + lengths.dict) (replicate lengths.pad 0)).setField build msg 8 2
        lengths.size := by
  have kept : msgTextLen build (((((buffer.write (logText msg + textLen)
                (call.dict.take lengths.dict)).setField build msg 12 2 lengths.dict).setField build
            msg 14 1 (call.facility % 256).toNat).setField build msg 15 1
          (packFlags build (call.flags % 32) (call.level % 8).toNat)).setField build msg 0 8
        (if call.tsNsec > 0 then call.tsNsec else call.localClock).toNat).memory msg = textLen := by
    simp (disch := first | decide | omega) only [msgTextLen, field_setField_apart, field_write]
    exact text_len
  simp only [fillRest, logDict_eq, text_len, kept]

/-- What is stored for a call: cut and marked if it does not fit. -/
def Call.record (build : Build) (call : Call) (fits : Bool) (size : Nat) : Record where
  tsNsec := (if call.tsNsec > 0 then call.tsNsec else call.localClock).toNat
  len := size
  facility := (call.facility % 256).toNat
  flags := call.flags % 32
  level := (call.level % 8).toNat
  text := storedText build call ++ if fits then [] else truncMsg
  dict := if fits then call.dict else []

theorem unpack_packFlags (build : Build) (flags_lt : flags < 32) (level_lt : level < 8) :
    unpackFlags build (packFlags build flags level % 256 ^ 1) = flags ∧
      unpackLevel build (packFlags build flags level % 256 ^ 1) = level := by
  simp only [unpackFlags, unpackLevel, packFlags]
  split <;> omega

theorem fillRest_spec (build : Build) (buffer : Buffer) (msg : Nat) (call : Call)
    (lengths : Lengths)
    (text_len : msgTextLen build buffer.memory msg = textLen)
    (dict_len : lengths.dict ≤ call.dict.length) (size_lt : lengths.size < 2 ^ 16) :
    readRecord build (fillRest build buffer msg call lengths).memory msg =
        { call.record build true lengths.size with
          text := buffer.memory.read (logText msg) textLen
          dict := call.dict.take lengths.dict } ∧
      Within msg (logText msg + textLen + lengths.dict + lengths.pad) buffer
        (fillRest build buffer msg call lengths) := by
  have dict_lt : lengths.dict < 256 ^ 2 := dict_len.trans_lt call.dict_length
  have header : logText msg = msg + 16 := rfl
  have taken : (call.dict.take lengths.dict).length = lengths.dict := length_take_of_le dict_len
  have facility_lt : (call.facility % 256).toNat < 256 ^ 1 := by omega
  have stamp_lt : (if call.tsNsec > 0 then call.tsNsec else call.localClock).toNat < 256 ^ 8 :=
    UInt64.toNat_lt _
  obtain ⟨flags_eq, level_eq⟩ := unpack_packFlags build (Nat.mod_lt call.flags (by decide : 32 > 0))
    (by omega : (call.level % 8).toNat < 8)
  rw [fillRest_eq build buffer msg call lengths text_len]
  constructor
  · have text_len' : field build buffer.memory msg 10 2 = textLen := text_len
    simp (disch := first | decide | omega) only [readRecord, Call.record, msgLen, msgTextLen,
      msgDictLen, logDict_eq, field_setField_apart, field_setField_self, field_write, read_setField,
      text_len', flags_eq, level_eq, Nat.mod_eq_of_lt facility_lt, Nat.mod_eq_of_lt stamp_lt,
      Nat.mod_eq_of_lt dict_lt, Nat.mod_eq_of_lt (show lengths.size < 256 ^ 2 from size_lt),
      read_before, Record.mk.injEq, true_and]
    exact read_written taken
  have inside {offset width : Nat} (fits : offset + width ≤ 16) :
      msg + offset + width ≤ logText msg + textLen + lengths.dict + lengths.pad := by omega
  refine Within.setField (Within.write ?_ ?_ ?_) (Nat.le_add_right ..) (inside (by decide))
  · refine Within.setField (Within.setField (Within.setField (Within.setField
      (Within.write (Within.refl ..) ?_ ?_) ?_ (inside ?_)) ?_ (inside ?_)) ?_ (inside ?_)) ?_
      (inside ?_) <;> first | decide | omega
  · omega
  rw [length_replicate]

/-- The index moves on by the length field. -/
theorem insertRecord_nextIdx (build : Build) (log : Log) (call : Call) (lengths : Lengths) :
    (insertRecord build log call lengths).1.nextIdx =
      log.slot lengths.size + lengths.size % 256 ^ 2 := by
  simp [insertRecord, msgLen, fillRest]

theorem insertRecord_spec (build : Build) (log : Log) (call : Call)
    (text_len : lengths.text = call.text.length)
    (mark_len : lengths.truncMsg = if fits then 0 else truncMsg.length)
    (dict_len : lengths.dict = if fits then call.dict.length else 0)
    (size_lt : lengths.size < 2 ^ 16)
    (room : headerSize + (storedText build call).length + lengths.truncMsg + lengths.dict +
        lengths.pad ≤ lengths.size) :
    ∃ memory writes, insertRecord build log call lengths =
        ({ log with
            buf := memory,
            nextIdx := log.slot lengths.size + lengths.size,
            nextSeq := log.nextSeq + 1 }, writes) ∧
      readRecord build memory (log.slot lengths.size) = call.record build fits lengths.size ∧
      (∀ i, i < log.slot lengths.size ∨ log.slot lengths.size + lengths.size ≤ i →
        memory i =
          if log.wraps lengths.size then log.buf.write log.nextIdx (replicate headerSize 0) i
          else log.buf i) ∧
      ∀ place ∈ writes, log.slot lengths.size ≤ place.1 ∧
          place.1 + place.2 ≤ log.slot lengths.size + lengths.size ∨
        log.wraps lengths.size ∧ place = (log.nextIdx, headerSize) := by
  obtain ⟨first, first_eq⟩ : ∃ first : Buffer, first = if log.wraps lengths.size then
    Buffer.write ⟨log.buf, []⟩ log.nextIdx (replicate headerSize 0) else ⟨log.buf, []⟩ := ⟨_, rfl⟩
  simp only [insertRecord, ← first_eq, text_len]
  generalize log.slot lengths.size = msg
  have header : logText msg = msg + headerSize := rfl
  obtain ⟨texted, copied, text_eq, text_within⟩ := copyText_spec build first msg call
  have mark : lengths.truncMsg = 0 ∨ lengths.truncMsg = truncMsg.length := by
    rw [mark_len]
    cases fits
    · exact .inr rfl
    exact .inl rfl
  obtain ⟨len_eq, marked_eq, marked_within⟩ := setTextLen_spec build texted msg mark
    (by omega : (storedText build call).length + lengths.truncMsg < 2 ^ 16)
  have dict_le : lengths.dict ≤ call.dict.length := by
    rw [dict_len]
    split
    · exact le_rfl
    exact Nat.zero_le _
  obtain ⟨record_eq, rest_within⟩ := fillRest_spec build _ msg call lengths len_eq dict_le size_lt
  have within :=
    ((text_within.mono (by omega) (by omega)).trans (marked_within.mono (le_rfl) (by omega))).trans
      (rest_within.mono (le_rfl) (by omega) : Within msg (msg + lengths.size) _ _)
  rw [copied]
  generalize fillRest build
      (setTextLen build texted msg (storedText build call).length lengths.truncMsg) msg call
      lengths = final at record_eq within
  have len : msgLen build final.memory msg = lengths.size := congrArg Record.len record_eq
  refine ⟨final.memory, final.writes, by rw [len], ?_, fun i outside => ?_, fun place mem => ?_⟩
  · rw [record_eq, marked_eq, text_eq, mark_len, dict_len]
    cases fits <;> simp [Call.record]
  · rw [within.outside i outside, first_eq]
    split <;> rfl
  rcases within.writes place mem with marker | inside
  · right
    rw [first_eq] at marker
    cases wraps : log.wraps lengths.size with
    | false => simp [wraps] at marker
    | true => simpa [wraps, Buffer.write] using marker
  exact .inl inside

end TinyKernel.Printk
