import TinyKernel.Printk.Ring

/-! What a reader finds in the log after any calls of `log_store`. -/

namespace TinyKernel.Printk

open Lib List Nat

variable {build : Build} {log : Log} {call : Call}

theorem visit_append (build : Build) (log : Log) (count more idx : Nat) :
    visit build log (count + more) idx =
      ((visit build log count idx).1 ++
        (visit build log more (visit build log count idx).2).1,
          (visit build log more (visit build log count idx).2).2) := by
  induction count generalizing idx with
  | zero => simp [visit]
  | succ count ih => rw [succ_add, visit, visit, ih, cons_append]

theorem visit_chain (chain : Chain build log.buf first records last) :
    visit build log records.length first = (records, last) := by
  induction records generalizing first with
  | nil =>
    cases chain
    rfl
  | cons record records ih => ?_
  obtain ⟨found, proper, rest⟩ := chain
  obtain ⟨len_eq, ne⟩ := msgLen_of_read found proper
  rw [length_cons, visit, logNext, logFromIdx, len_eq, if_neg ne, if_neg ne, ih rest, found]

/-- A marker stands for the record at the start. -/
theorem visit_marker (zero : msgLen build log.buf marker = 0)
    (chain : Chain build log.buf 0 records last) (nonempty : records ≠ []) :
    visit build log records.length marker = (records, last) := by
  cases records with
  | nil => exact absurd rfl nonempty
  | cons record records => ?_
  obtain ⟨found, proper, rest⟩ := chain
  obtain ⟨len_eq, -⟩ := msgLen_of_read found proper
  rw [zero_add] at rest
  rw [length_cons, visit, logNext, logFromIdx, zero, if_pos rfl, if_pos rfl, len_eq,
    visit_chain rest, found]

theorem Laid.visit (laid : Laid build log live) :
    visit build log live.length log.firstIdx = (live, log.nextIdx) := by
  cases laid with
  | straight chain ends => exact visit_chain chain
  | wrapped chain ends zero restart nonempty gap =>
    rw [length_append, visit_append, visit_chain chain, visit_marker zero restart nonempty]

section

variable (build : Build) (log : Log) (call : Call)

/-- What a call asks for. -/
def recordSize : Nat := (msgUsedSize (call.text.length + tlen build call) call.dict.length).1

/-- The size of a truncated record. -/
def truncatedSize : Nat := (msgUsedSize (call.text.length + truncMsg.length) 0).1

def fits : Bool := log.fitsEmpty (recordSize build call)

def storedSize : Nat := if fits build log call then recordSize build call else truncatedSize call

/-- The record of a call. -/
def stored : Record := call.record build (fits build log call) (storedSize build log call)

/-- The length field has room for the size of a record that fits. With a prefix, one that does not
fit has a text that is cut for the prefix anyway. -/
def Storable : Prop :=
  if fits build log call then recordSize build call < 2 ^ 16
  else build.mtPrefix = true → call.text.length = logLineMax

instance : Decidable (Storable build log call) := inferInstanceAs (Decidable (ite _ _ _))

/-- A place that was written is in the record or is the marker before it. -/
def InRecord (place : Nat × Nat) : Prop :=
  log.slot (storedSize build log call) ≤ place.1 ∧
    place.1 + place.2 ≤ log.slot (storedSize build log call) + storedSize build log call ∨
  log.wraps (storedSize build log call) = true ∧ place = (log.nextIdx, headerSize)

instance (place : Nat × Nat) : Decidable (InRecord build log call place) :=
  inferInstanceAs (Decidable (_ ∨ _))

end

/-- The state between two calls. -/
structure Consistent (build : Build) (log : Log) (live : List Record) : Prop where
  laid : Laid build log live
  count : log.nextSeq = log.firstSeq + live.length
  large : 2 ^ 12 ≤ log.bufLen

theorem storedText_le (build : Build) (call : Call) :
    (storedText build call).length ≤ call.text.length + tlen build call := by
  rw [storedText, tlen]
  cases build.mtPrefix <;> simp
  omega

/-- The record goes in after the old ones have been dropped. -/
theorem Consistent.insert (sound : Consistent build log live) (lengths : Lengths) (fits : Bool)
    (text_len : lengths.text = call.text.length)
    (mark_len : lengths.truncMsg = if fits then 0 else truncMsg.length)
    (dict_len : lengths.dict = if fits then call.dict.length else 0)
    (size_lt : lengths.size < 2 ^ 16)
    (space : headerSize + (storedText build call).length + lengths.truncMsg + lengths.dict +
        lengths.pad ≤ lengths.size) (room : Room log lengths.size) :
    Consistent build (insertRecord build log call lengths).1
        (live ++ [call.record build fits lengths.size]) ∧
      (insertRecord build log call lengths).1.firstSeq = log.firstSeq ∧
      (insertRecord build log call lengths).1.bufLen = log.bufLen ∧
      ∀ place ∈ (insertRecord build log call lengths).2, place.1 + place.2 ≤ log.bufLen ∧
        (log.slot lengths.size ≤ place.1 ∧
            place.1 + place.2 ≤ log.slot lengths.size + lengths.size ∨
          log.wraps lengths.size = true ∧ place = (log.nextIdx, headerSize)) := by
  obtain ⟨memory, writes, ran, found, out, places⟩ :=
    insertRecord_spec build log call text_len mark_len dict_len size_lt space
  have proper : (call.record build fits lengths.size).Proper := by
    rw [mark_len, dict_len] at space
    cases fits <;> simp [Record.Proper, Call.record] at space ⊢ <;> omega
  have laid := sound.laid.add room proper rfl found out (log.nextSeq + 1)
  rw [ran]
  refine ⟨⟨laid, ?_, sound.large⟩, rfl, rfl, fun place mem => ?_⟩
  · rw [length_append, length_singleton, ← add_assoc, ← sound.count]
  refine ⟨?_, places place mem⟩
  have next := sound.laid.next_le
  have slot := sound.laid.slot_le room
  rcases places place mem with inside | ⟨-, rfl⟩
  · omega
  exact next

/-- `log_make_free_space`, with the records that are left. -/
theorem Consistent.makeFree (sound : Consistent build log live) (size : Nat) :
    ∃ dropped firstIdx, dropped ≤ live.length ∧
      logMakeFreeSpace build log size =
        ({ log with firstIdx, firstSeq := log.firstSeq + dropped }, log.fitsEmpty size) ∧
      Consistent build { log with firstIdx, firstSeq := log.firstSeq + dropped }
        (live.drop dropped) ∧
      (log.fitsEmpty size = true →
        Room { log with firstIdx, firstSeq := log.firstSeq + dropped } size) := by
  obtain ⟨dropped, firstIdx, bound, ran, laid, room⟩ := makeFree_spec sound.laid size
  have count := sound.count
  refine ⟨dropped, firstIdx, bound, ?_, ⟨laid, ?_, sound.large⟩, room⟩
  · have number : log.nextSeq - log.firstSeq = live.length := by omega
    rw [logMakeFreeSpace, number, ran]
  rw [length_drop]
  dsimp only
  omega

theorem truncated_fits (large : 2 ^ 12 ≤ log.bufLen) (call : Call) :
    log.fitsEmpty (truncatedSize call) = true := by
  have text := call.text_length
  have mark : truncMsg.length = 11 := rfl
  simp only [Log.fitsEmpty, truncatedSize, msgUsedSize, headerSize, logLineMax, logAlign, mark,
    decide_eq_true_eq] at text ⊢
  omega

theorem truncateMsg_eq (large : 2 ^ 12 ≤ log.bufLen) (call : Call) :
    truncateMsg log call.text.length =
      ⟨call.text.length, truncMsg.length, 0, (msgUsedSize (call.text.length + truncMsg.length) 0).2,
        truncatedSize call⟩ := by
  have text := call.text_length
  have short : ¬call.text.length > log.bufLen / maxLogTakePart := by
    simp only [logLineMax, maxLogTakePart] at text ⊢
    omega
  simp only [truncateMsg, if_neg short, truncatedSize]

/-- A call drops the oldest records that are in its way and adds one. -/
theorem Consistent.store (sound : Consistent build log live) (storable : Storable build log call) :
    ∃ dropped ≤ live.length,
      Consistent build (logStore build log call).1 (live.drop dropped ++ [stored build log call]) ∧
        (logStore build log call).1.firstSeq = log.firstSeq + dropped ∧
        (logStore build log call).1.bufLen = log.bufLen ∧
        ∀ place ∈ (logStore build log call).2, place.1 + place.2 ≤ log.bufLen ∧
          InRecord build log call place := by
  obtain ⟨dropped, firstIdx, bound, ran, consistent', room⟩ :=
    sound.makeFree (recordSize build call)
  have text := storedText_le build call
  rw [Storable] at storable
  rw [logStore]
  simp only [stored, InRecord, storedSize]
  rw [← recordSize]
  cases enough : fits build log call with
  | true =>
    have fits_eq : log.fitsEmpty (recordSize build call) = true := enough
    rw [enough, if_pos rfl] at storable
    rw [ran, fits_eq]
    have size_eq : recordSize build call =
        headerSize + (call.text.length + tlen build call) + call.dict.length +
          (msgUsedSize (call.text.length + tlen build call) call.dict.length).2 :=
      rfl
    have space : headerSize + (storedText build call).length + 0 + call.dict.length +
          (msgUsedSize (call.text.length + tlen build call) call.dict.length).2 ≤
        recordSize build call := by
      omega
    obtain ⟨final, seq, len, places⟩ :=
      consistent'.insert ⟨_, _, _, _, _⟩ true rfl rfl rfl storable space (room fits_eq)
    exact ⟨dropped, bound, final, seq, len, places⟩
  | false => ?_
  have fits_eq : log.fitsEmpty (recordSize build call) = false := enough
  rw [enough, if_neg Bool.false_ne_true] at storable
  rw [ran, fits_eq]
  obtain ⟨dropped', firstIdx', bound', ran', consistent'', room'⟩ :=
    consistent'.makeFree (truncatedSize call)
  have fits_eq' := truncated_fits consistent'.large call
  have lengths_eq := truncateMsg_eq consistent'.large call
  simp only [lengths_eq]
  rw [ran', fits_eq']
  have text_max := call.text_length
  have size_eq : truncatedSize call = headerSize + (call.text.length + truncMsg.length) + 0 +
      (msgUsedSize (call.text.length + truncMsg.length) 0).2 := rfl
  have text_le : (storedText build call).length ≤ call.text.length := by
    cases mt : build.mtPrefix with
    | false => simp [storedText, mt]
    | true => ?_
    rw [storable mt]
    exact storedText_length build call
  have space : headerSize + (storedText build call).length + truncMsg.length + 0 +
      (msgUsedSize (call.text.length + truncMsg.length) 0).2 ≤ truncatedSize call := by omega
  have small : truncatedSize call < 2 ^ 16 := by
    have mark : truncMsg.length = 11 := rfl
    simp only [truncatedSize, msgUsedSize, headerSize, logLineMax, logAlign, mark] at text_max ⊢
    omega
  obtain ⟨final, seq, len, places⟩ :=
    consistent''.insert ⟨_, _, _, _, _⟩ false rfl rfl rfl small space (room' fits_eq')
  rw [drop_drop] at final
  rw [length_drop] at bound'
  refine ⟨dropped + dropped', by omega, final, ?_, len, places⟩
  rw [← add_assoc]
  exact seq

section

variable (build : Build)

/-- The records of all calls. -/
def history : Log → List Call → List Record
  | _, [] => []
  | log, call :: calls => stored build log call :: history (logStore build log call).1 calls

def StorableAll : Log → List Call → Prop
  | _, [] => True
  | log, call :: calls => Storable build log call ∧ StorableAll (logStore build log call).1 calls

end

theorem storableAll_append {before after : List Call}
    (storable : StorableAll build log (before ++ call :: after)) :
    StorableAll build log before ∧ Storable build (run build log before) call := by
  induction before generalizing log with
  | nil => exact ⟨trivial, storable.1⟩
  | cons first before ih => ?_
  obtain ⟨prev, last⟩ := ih storable.2
  exact ⟨⟨storable.1, prev⟩, last⟩

theorem Consistent.run (sound : Consistent build log live)
    (storable : StorableAll build log calls) :
    ∃ dropped,
      Consistent build (run build log calls) ((live ++ history build log calls).drop dropped) ∧
        (run build log calls).firstSeq = log.firstSeq + dropped ∧
        dropped ≤ live.length + calls.length ∧ (run build log calls).bufLen = log.bufLen := by
  induction calls generalizing log live with
  | nil => exact ⟨0, by rwa [history, append_nil], rfl, zero_le _, rfl⟩
  | cons call calls ih => ?_
  obtain ⟨dropped, bound, stepped, seq, len, -⟩ := sound.store storable.1
  obtain ⟨dropped', ran, seq', bound', len'⟩ := ih stepped storable.2
  have all : (live.drop dropped ++ [stored build log call] ++
          history build (logStore build log call).1 calls).drop dropped' =
      (live ++ history build log (call :: calls)).drop (dropped + dropped') := by
    rw [history, ← drop_drop, drop_append_of_le_length bound, append_assoc, singleton_append]
  rw [all] at ran
  rw [length_append, length_drop, length_singleton] at bound'
  refine ⟨dropped + dropped', ran, ?_, ?_, len'.trans len⟩
  · rw [← Nat.add_assoc, ← seq]
    exact seq'
  rw [length_cons]
  omega

theorem length_history (build : Build) (log : Log) (calls : List Call) :
    (history build log calls).length = calls.length := by
  induction calls generalizing log with
  | nil => rfl
  | cons call calls ih => rw [history, length_cons, ih, length_cons]

theorem Consistent.init (build : Build) (memory : Memory) (large : 2 ^ 12 ≤ bufLen) :
    Consistent build (Log.init memory bufLen) [] where
  laid := .straight rfl (show 0 + 16 ≤ bufLen by omega)
  count := rfl
  large := large

/-- A reader that starts at the first index finds the last records as they were stored, and ends at
the next index. All that a call writes is in its record or the marker before it. -/
theorem log_keeps_records (build : Build) (memory : Memory) {shift : Nat} (large : 12 ≤ shift)
    (calls : List Call)
    (storable : StorableAll build (Log.init memory (2 ^ shift)) calls) :
    let start := Log.init memory (2 ^ shift)
    let log := run build start calls
    visit build log (log.nextSeq - log.firstSeq) log.firstIdx =
        ((history build start calls).drop log.firstSeq, log.nextIdx) ∧
      log.nextSeq = calls.length ∧ log.firstSeq ≤ calls.length ∧
      ∀ before call after, calls = before ++ call :: after →
        ∀ place ∈ (logStore build (run build start before) call).2,
          place.1 + place.2 ≤ 2 ^ shift ∧ InRecord build (run build start before) call place := by
  have start := Consistent.init build memory (Nat.pow_le_pow_right (by decide : 0 < 2) large)
  obtain ⟨dropped, final, seq, bound, -⟩ := start.run storable
  have number : (history build (Log.init memory (2 ^ shift)) calls).length = calls.length :=
    length_history ..
  have first_eq : (run build (Log.init memory (2 ^ shift)) calls).firstSeq = dropped :=
    seq.trans (zero_add dropped)
  rw [nil_append] at final
  rw [length_nil, zero_add] at bound
  have count := final.count
  rw [length_drop, number, first_eq] at count
  refine ⟨?_, by omega, by omega, fun before call after split place member => ?_⟩
  · have live_count : (run build (Log.init memory (2 ^ shift)) calls).nextSeq -
        (run build (Log.init memory (2 ^ shift)) calls).firstSeq =
        ((history build (Log.init memory (2 ^ shift)) calls).drop dropped).length := by
      rw [length_drop, number]
      omega
    rw [live_count, final.laid.visit, first_eq]
  rw [split] at storable
  obtain ⟨earlier, last⟩ := storableAll_append storable
  obtain ⟨_, reached, _, _, len⟩ := start.run earlier
  obtain ⟨_, _, _, _, _, places⟩ := reached.store last
  have inside := places place member
  rwa [len] at inside

/-- A line of the log, from a console that is not suspended. -/
def line (text dict : List UInt8) (text_length : text.length ≤ logLineMax)
    (dict_length : dict.length < 2 ^ 16) : Call where
  facility := 0
  level := 6
  flags := 2
  tsNsec := 1
  localClock := 1
  dict := dict
  dict_length := dict_length
  text := text
  text_length := text_length
  caller := ⟨0, false, 0, by decide, 1, by decide, ascii ['s', 'h'], by decide⟩

def twoLines : List Call :=
  [line (ascii ['u', 'p']) [] (by decide) (by decide),
    line [] (ascii ['A', '=', 'b']) (by decide) (by decide)]

theorem log_keeps_records_two :
    StorableAll ⟨true, false⟩ (Log.init (fun _ => 0) (2 ^ 12)) twoLines ∧
      visit ⟨true, false⟩ (run ⟨true, false⟩ (Log.init (fun _ => 0) (2 ^ 12)) twoLines) 2 0 =
        (history ⟨true, false⟩ (Log.init (fun _ => 0) (2 ^ 12)) twoLines, 60) := by
  have storable : StorableAll ⟨true, false⟩ (Log.init (fun _ => 0) (2 ^ 12)) twoLines :=
    ⟨by decide +kernel, by decide +kernel, trivial⟩
  have kept := (log_keeps_records ⟨true, false⟩ (fun _ => 0) (le_refl 12) twoLines storable).1
  exact ⟨storable, kept⟩

/-- A line with a dictionary of the size of a small buffer. -/
def longLine : Call := line [] (replicate 4096 0) (by decide) (by rw [length_replicate]; decide)

def shortLine : Call := line (ascii ['o', 'k']) [] (by decide) (by decide)

/-- A line of 2 ^ 16 bytes with its header. -/
def largestLine : Call := line [] (replicate 65520 0) (by decide) (by rw [length_replicate]; decide)

/-- The truncated record has no room for the prefix: `<truncated>` goes behind its end, and the next
call overwrites it. In any build, a record of 2 ^ 16 bytes has the length 0 and the next one goes
over it. -/
theorem truncated_prefix_overflows :
    ((26, 11) ∈ (logStore ⟨true, false⟩ (Log.init (fun _ => 0) (2 ^ 12)) longLine).2 ∧
        ¬InRecord ⟨true, false⟩ (Log.init (fun _ => 0) (2 ^ 12)) longLine (26, 11)) ∧
      (visit ⟨true, false⟩
          (run ⟨true, false⟩ (Log.init (fun _ => 0) (2 ^ 12)) [longLine, shortLine]) 2 0).1 ≠
        history ⟨true, false⟩ (Log.init (fun _ => 0) (2 ^ 12)) [longLine, shortLine] ∧
      (logStore ⟨false, false⟩ (Log.init (fun _ => 0) (2 ^ 17)) largestLine).1.nextIdx = 0 ∧
      (logStore ⟨false, false⟩ (Log.init (fun _ => 0) (2 ^ 17)) largestLine).1.nextSeq = 1 := by
  have ran : logStore ⟨false, false⟩ (Log.init (fun _ => 0) (2 ^ 17)) largestLine =
      insertRecord ⟨false, false⟩ (Log.init (fun _ => 0) (2 ^ 17)) largestLine
        ⟨0, 0, 65520, 0, 65536⟩ := by
    have dict_len : largestLine.dict.length = 65520 := length_replicate
    have text_len : largestLine.text.length = 0 := rfl
    rw [logStore, dict_len, text_len]
    rfl
  refine ⟨by decide +kernel, by decide +kernel, ?_, ?_⟩
  · rw [ran, insertRecord_nextIdx]
    rfl
  rw [ran]
  rfl

end TinyKernel.Printk
