import TinyKernel.SeqFile.Code

/-! What the functions on sequential files read is the text of the elements, in order. -/

namespace TinyKernel.Seq

open List Option Nat

variable {α : Type}

section

/-- What an element adds to the text. -/
def Element.shown (p : Element α) : List α := if p.skip then [] else p.text

def texts (elements : List (Element α)) : List α := elements.flatMap Element.shown

@[simp]
theorem texts_nil : texts ([] : List (Element α)) = [] := rfl

@[simp]
theorem texts_cons (p : Element α) (next : List (Element α)) :
    texts (p :: next) = p.shown ++ texts next := rfl

@[simp]
theorem texts_append (front back : List (Element α)) :
    texts (front ++ back) = texts front ++ texts back := by
  simp [texts]

variable {p : Element α}

theorem shown_of_skip (skip : p.skip = true) : p.shown = [] := if_pos skip

theorem shown_of_not_skip (plain : ¬p.skip = true) : p.shown = p.text := if_neg plain

/-- The length of the longest text, which a buffer has to exceed. -/
def longest (elements : List (Element α)) : Nat :=
  elements.foldr (fun p length => max p.text.length length) 0

theorem le_longest (mem : p ∈ items) : p.text.length ≤ longest items := by
  induction items with
  | nil => cases mem
  | cons head next ih => ?_
  rcases mem_cons.mp mem with rfl | later
  · exact le_max_left _ _
  exact (ih later).trans (le_max_right _ _)

end

section

/-- The buffer holds exactly these bytes. -/
structure Holds (m : SeqFile α) (held : List α) : Prop where
  count : held.length = m.count
  buf : ∃ rest, m.buf = some (held ++ rest)

/-- Only the buffer was written. -/
structure Kept (m m' : SeqFile α) : Prop where
  size : m'.size = m.size
  readPos : m'.readPos = m.readPos

theorem Kept.trans (first : Kept m m') (second : Kept m' m'') : Kept m m'' :=
  ⟨second.size.trans first.size, second.readPos.trans first.readPos⟩

variable {m : SeqFile α}

theorem Holds.before (holds : Holds m held) : (m.buf.getD []).take m.count = held := by
  obtain ⟨count, rest, buf⟩ := holds
  simp [buf, ← count]

theorem kept_show (m : SeqFile α) (p : Element α) : Kept m (showElement m p) := by
  rw [showElement]
  split
  · exact ⟨rfl, rfl⟩
  exact ⟨rfl, rfl⟩

@[simp]
theorem index_show (m : SeqFile α) (p : Element α) : (showElement m p).index = m.index := by
  rw [showElement]
  split <;> rfl

/-- An element either fits, with room for one byte more, or fills the buffer behind what it
holds. -/
theorem show_cases (holds : Holds m held) (p : Element α) :
    (m.count + p.text.length < m.size ∧ Holds (showElement m p) (held ++ p.text)) ∨
      m.size ≤ m.count + p.text.length ∧ (showElement m p).count = m.size ∧
        ∃ rest, (showElement m p).buf = some (held ++ rest) := by
  simp only [showElement, holds.before]
  split
  next fits =>
    refine .inl ⟨fits, ?_, [], by simp⟩
    rw [length_append, holds.count]
  next full => exact .inr ⟨not_lt.mp full, rfl, _, rfl⟩

end

section

variable {m : SeqFile α}

/-- The file with nothing in its buffer. -/
theorem holds_reset (buf : m.buf = some rest) : Holds { m with count := 0 } [] := ⟨rfl, rest, buf⟩

theorem Holds.show_skip (holds : Holds m []) (p : Element α) :
    Holds { showElement m p with count := 0 } [] := by
  rcases show_cases holds p with ⟨-, shown⟩ | ⟨-, -, rest, buf⟩
  · obtain ⟨rest, buf⟩ := shown.buf
    exact holds_reset buf
  exact holds_reset buf

theorem holds_enlarge (m : SeqFile α) : Holds (enlarge m) [] := ⟨rfl, [], rfl⟩

/-- What the search for a record finds: the end, or an element behind others without text that fits
or does not fit. -/
inductive FindsRecord (m : SeqFile α) (pos : Nat) (els : List (Element α)) : Found α → Prop
  | nothing {m' : SeqFile α} : texts els = [] → m'.index = pos + els.length → Holds m' [] →
      Kept m m' → FindsRecord m pos els (.nothing m')
  | record {m' : SeqFile α} (skipped : List (Element α)) {next : List (Element α)} {p : Element α} :
      els = skipped ++ p :: next → texts skipped = [] → p.shown ≠ [] → Holds m' p.shown →
      Kept m m' → FindsRecord m pos els (.record m' (pos + skipped.length) next)
  | overflow {m' : SeqFile α} (skipped : List (Element α)) {next : List (Element α)}
      {p : Element α} :
      els = skipped ++ p :: next → texts skipped = [] → m.size ≤ p.text.length →
      m'.index = pos + skipped.length → Holds m' [] → m'.size = m.size * 2 →
      m'.readPos = m.readPos → FindsRecord m pos els (.overflow m')

theorem FindsRecord.cons {next : List (Element α)} (finds : FindsRecord m' (pos + 1) next found)
    (kept : Kept m m') (empty : p.shown = []) : FindsRecord m pos (p :: next) found := by
  cases finds with
  | nothing none index holds after =>
    exact .nothing (by simp [empty, none]) (by rw [index, length_cons]; omega) holds
      (kept.trans after)
  | @record m'' skipped rest q same none some holds after =>
    have place : pos + 1 + skipped.length = pos + (p :: skipped).length := by
      rw [length_cons]
      omega
    rw [place]
    exact .record (p :: skipped) (by rw [same]; rfl) (by simp [empty, none]) some holds
      (kept.trans after)
  | @overflow m'' skipped rest q same none long index holds size readPos => ?_
  refine .overflow (p :: skipped) (by rw [same]; rfl) (by simp [empty, none])
    (kept.size ▸ long) ?_ holds (by rw [size, kept.size]) (readPos.trans kept.readPos)
  rw [index, length_cons]
  omega

theorem findRecord_finds (holds : Holds m []) (sized : 0 < m.size) (index : m.index = pos)
    (els : List (Element α)) : FindsRecord m pos els (findRecord m pos els) := by
  induction els generalizing m pos with
  | nil => exact .nothing rfl index holds ⟨rfl, rfl⟩
  | cons p next ih => ?_
  have kept := kept_show m p
  have noCount : m.count = 0 := holds.count.symm
  have enlarged : (enlarge (showElement m p)).size = m.size * 2 := by
    rw [← kept.size]
    rfl
  by_cases skip : p.skip = true
  · rw [findRecord, if_pos skip, if_pos rfl]
    have reset := holds.show_skip p
    have keptSkip : Kept m { showElement m p with count := 0, index := pos + 1 } :=
      ⟨kept.size, kept.readPos⟩
    have holdsSkip : Holds { showElement m p with count := 0, index := pos + 1 } [] :=
      ⟨reset.count, reset.buf⟩
    exact (ih holdsSkip (kept.size ▸ sized) rfl).cons keptSkip (shown_of_skip skip)
  rw [findRecord, if_neg skip]
  have shown := shown_of_not_skip skip
  rcases show_cases holds p with ⟨fits, holds'⟩ | ⟨full, count, -⟩
  · have count := holds'.count
    split
    next none =>
      have empty : p.text = [] := eq_nil_of_length_eq_zero (by simpa [none] using count)
      have keptEmpty : Kept m { showElement m p with index := pos + 1 } := ⟨kept.size, kept.readPos⟩
      have holdsEmpty : Holds { showElement m p with index := pos + 1 } [] := by
        simpa [empty] using (⟨holds'.count, holds'.buf⟩ :
          Holds { showElement m p with index := pos + 1 } ([] ++ p.text))
      exact (ih holdsEmpty (kept.size ▸ sized) rfl).cons keptEmpty (shown.trans empty)
    next some =>
      rw [if_pos (by rw [kept.size, ← count]; simpa [noCount] using fits)]
      have nonempty : p.shown ≠ [] := by
        rw [shown]
        rintro empty
        simp [empty] at count
        exact some count.symm
      exact .record [] rfl rfl nonempty (by rw [shown]; exact holds') kept
  rw [if_neg (by omega), if_neg (by rw [count, kept.size]; omega)]
  exact .overflow [] rfl rfl (by omega) (by simpa [enlarge] using index) (holds_enlarge _) enlarged
    kept.readPos

/-- What is added to a record: some of the next elements, from the first one on. -/
theorem fill_spec (size : Nat) (holds : Holds m held) (pos : Nat) (els : List (Element α)) :
    ∃ m' taken rest, els = taken ++ rest ∧ fill size m pos els = (m', pos + taken.length) ∧
      Holds m' (held ++ texts taken) ∧ Kept m m' := by
  induction els generalizing m held pos with
  | nil => exact ⟨m, [], [], rfl, rfl, by simpa using holds, ⟨rfl, rfl⟩⟩
  | cons p next ih => ?_
  have kept := kept_show m p
  have stop : ∃ m' taken rest, p :: next = taken ++ rest ∧ (m, pos) = (m', pos + taken.length) ∧
      Holds m' (held ++ texts taken) ∧ Kept m m' :=
    ⟨m, [], p :: next, rfl, rfl, by simpa using holds, ⟨rfl, rfl⟩⟩
  have restored (rest : List α) (buf : (showElement m p).buf = some (held ++ rest)) :
      Holds { showElement m p with count := m.count } held := ⟨holds.count, rest, buf⟩
  have go {m' : SeqFile α} (text : List α) (holds' : Holds m' (held ++ text)) (kept' : Kept m m')
      (shown : p.shown = text) : ∃ m'' taken rest, p :: next = taken ++ rest ∧
        fill size m' (pos + 1) next = (m'', pos + taken.length) ∧
        Holds m'' (held ++ texts taken) ∧ Kept m m'' := by
    obtain ⟨m'', taken, rest, same, filled, holds'', kept''⟩ := ih holds' (pos + 1)
    refine ⟨m'', p :: taken, rest, by rw [same]; rfl, ?_, ?_, kept'.trans kept''⟩
    · rw [filled, length_cons, add_right_comm, add_assoc]
    simpa [shown] using holds''
  rw [fill]
  split
  next room =>
    rcases show_cases holds p with ⟨fits, holds'⟩ | ⟨full, count, rest, buf⟩
    · by_cases skip : p.skip = true
      · rw [if_pos skip]
        obtain ⟨rest, buf⟩ := holds'.buf
        have back := restored (p.text ++ rest) (by simpa using buf)
        exact go [] (by simpa using back) ⟨kept.size, kept.readPos⟩ (shown_of_skip skip)
      have within : seqOverflow (showElement m p) = false := by
        have := holds'.count
        simp only [length_append, holds.count] at this
        simp only [seqOverflow, kept.size, decide_eq_false_iff_not]
        omega
      rw [if_neg skip, if_neg (by simp [within])]
      exact go _ holds' kept (shown_of_not_skip skip)
    by_cases skip : p.skip = true
    · rw [if_pos skip]
      exact go [] (by simpa using restored _ buf) ⟨kept.size, kept.readPos⟩ (shown_of_skip skip)
    have tooLong : seqOverflow (showElement m p) = true := by simp [seqOverflow, count, kept.size]
    rw [if_neg skip, if_pos tooLong]
    exact ⟨_, [], p :: next, rfl, rfl, by simpa using restored _ buf, ⟨kept.size, kept.readPos⟩⟩
  next => exact stop

end

section

/-- The bytes of the buffer that have not been read. -/
def pending (m : SeqFile α) : List α := ((m.buf.getD []).drop m.fromPos).take m.count

/-- The text from the place on that the file is at. -/
def upcoming (elements : List (Element α)) (m : SeqFile α) : List α :=
  pending m ++ texts (elements.drop (if m.count = 0 then m.index else m.index + 1))

/-- The buffer holds what `count` says, and has some size. -/
structure Ready (m : SeqFile α) : Prop where
  held : (pending m).length = m.count
  sized : m.buf.isSome = true → 0 < m.size

variable {items : List (Element α)} {m : SeqFile α}

theorem drop_append (same : items.drop i = front ++ back) :
    items.drop (i + front.length) = back := by
  rw [← drop_drop, same, drop_left]

theorem ready_of_empty (none : m.count = 0) (sized : 0 < m.size) : Ready m where
  held := by simp [pending, none]
  sized := fun _ => sized

theorem upcoming_of_empty (none : m.count = 0) : upcoming items m = texts (items.drop m.index) := by
  simp [upcoming, pending, none]

/-- What is left after a part of the held bytes has been copied. -/
theorem upcoming_of_rest (buf : m.buf = some (held ++ rest))
    (from_eq : held.length = m.fromPos + m.count) (some : m.count ≠ 0) :
    pending m = held.drop m.fromPos ∧
      upcoming items m = held.drop m.fromPos ++ texts (items.drop (m.index + 1)) := by
  have part : pending m = held.drop m.fromPos := by
    rw [pending, buf, getD_some, drop_append_of_le_length (by omega),
      take_append_of_le_length (by simp; omega), take_of_length_le (by simp; omega)]
  exact ⟨part, by simp [upcoming, part, some]⟩

/-- What a function that reads from a place of the text on returns. -/
structure Reads (elements : List (Element α)) (size : Nat) (text copied : List α)
    (m m' : SeqFile α) : Prop where
  length : copied.length ≤ size
  whole : text = copied ++ upcoming elements m'
  progress : copied = [] → size = 0 ∨ text = []
  ready : Ready m'
  readPos : m'.readPos = m.readPos

theorem copyRecords_spec (items : List (Element α)) (size pos : Nat) (holds : Holds m held)
    (some : held ≠ []) (sized : 0 < m.size) :
    Reads items size (held ++ texts (items.drop (pos + 1))) (copyRecords size m pos).1 m
      (copyRecords size m pos).2 := by
  obtain ⟨count, rest, buf⟩ := holds
  have positive : 0 < held.length := length_pos_iff.mpr some
  have copied : (m.buf.getD []).take (min m.count size) = held.take (min m.count size) := by
    rw [buf, getD_some, take_append_of_le_length (by omega)]
  have short : (held.take (min m.count size)).length ≤ size := by
    rw [length_take]
    omega
  have progress (whole : List α) : held.take (min m.count size) = [] → size = 0 ∨ whole = [] := by
    intro none
    have := congrArg length none
    rw [length_take, length_nil] at this
    omega
  rw [copyRecords]
  split
  next left =>
    let left' : SeqFile α :=
      { m with count := m.count - min m.count size, fromPos := min m.count size, index := pos }
    obtain ⟨part, later⟩ : pending left' = held.drop left'.fromPos ∧ upcoming items left' =
        held.drop left'.fromPos ++ texts (items.drop (left'.index + 1)) :=
      upcoming_of_rest buf (by simp only [left']; omega) left
    refine ⟨by rw [copied]; exact short, ?_, by rw [copied]; exact progress _, ⟨?_, fun _ => sized⟩,
      rfl⟩
    · rw [later, copied, ← append_assoc, take_append_drop]
    rw [part, length_drop]
    simp only [left']
    omega
  next all =>
    have whole : held.take (min m.count size) = held := take_of_length_le (by omega)
    refine ⟨by rw [copied]; exact short, ?_, by rw [copied]; exact progress _,
      ready_of_empty (not_not.mp all) sized, rfl⟩
    rw [upcoming_of_empty (not_not.mp all), copied, whole]

/-- One search for a record: it leads to an answer, or is made again with a larger buffer. -/
theorem readRecords_step (size : Nat) (holds : Holds m []) (sized : 0 < m.size) :
    (∃ copied m', (∀ fuel, readRecords items size (fuel + 1) m = some (copied, m')) ∧
        Reads items size (texts (items.drop m.index)) copied m m') ∨
      ∃ m', (∀ fuel, readRecords items size (fuel + 1) m = readRecords items size fuel m') ∧
        m.size ≤ longest items ∧ Holds m' [] ∧ m'.size = m.size * 2 ∧ m'.readPos = m.readPos ∧
        texts (items.drop m'.index) = texts (items.drop m.index) := by
  have finds := findRecord_finds holds sized rfl (items.drop m.index)
  simp only [readRecords]
  generalize findRecord m m.index (items.drop m.index) = found at finds ⊢
  cases finds with
  | @nothing m' none index after kept =>
    have gone : items.drop m'.index = [] := by
      apply drop_of_length_le
      rw [index, length_drop]
      omega
    have reset : upcoming items { m' with count := 0 } = [] := by
      rw [upcoming_of_empty rfl, gone, texts_nil]
    refine .inl ⟨[], _, fun _ => rfl, zero_le _, by rw [reset, none]; rfl, fun _ => .inr none,
      ready_of_empty rfl (kept.size ▸ sized), kept.readPos⟩
  | @record m' skipped next p same none some after kept =>
    obtain ⟨m'', taken, rest, parts, filled, holds', kept'⟩ :=
      fill_spec size after (m.index + skipped.length) next
    simp only [filled]
    have place : items.drop (m.index + skipped.length + taken.length + 1) = rest := by
      have all : items.drop m.index = (skipped ++ p :: taken) ++ rest := by
        rw [same, parts, append_assoc, cons_append]
      have dropped := drop_append all
      rwa [length_append, length_cons, ← add_assoc, ← add_assoc] at dropped
    have copies := copyRecords_spec items size (m.index + skipped.length + taken.length) holds'
      (by simp [some]) (kept'.size ▸ kept.size ▸ sized)
    generalize copyRecords size m'' (m.index + skipped.length + taken.length) = res at copies ⊢
    refine .inl ⟨res.1, res.2, fun _ => rfl, copies.length, ?_, ?_, copies.ready, ?_⟩
    · rw [← copies.whole, place, same, parts]
      simp [none]
    · intro empty
      rcases copies.progress empty with zero | whole
      · exact .inl zero
      simp [some] at whole
    rw [copies.readPos, kept'.readPos, kept.readPos]
  | @overflow m' skipped next p same none long index after size' readPos => ?_
  have mem : p ∈ items := mem_of_mem_drop (by simp [same] : p ∈ items.drop m.index)
  refine .inr ⟨m', fun _ => rfl, long.trans (le_longest mem), after, size', readPos, ?_⟩
  rw [index, drop_append same, same]
  simp [none]

theorem readRecords_spec (size : Nat) (holds : Holds m []) (sized : 0 < m.size)
    (enough : longest items < m.size + fuel) :
    ∃ copied m', readRecords items size (fuel + 1) m = some (copied, m') ∧
      Reads items size (texts (items.drop m.index)) copied m m' := by
  induction fuel generalizing m with
  | zero =>
    rcases readRecords_step size holds sized with ⟨copied, m', done, reads⟩ | ⟨m', -, long, -⟩
    · exact ⟨copied, m', done 0, reads⟩
    omega
  | succ fuel ih => ?_
  rcases readRecords_step size holds sized with
    ⟨copied, m', done, reads⟩ | ⟨m', again, -, holds', size', readPos, same⟩
  · exact ⟨copied, m', done _, reads⟩
  obtain ⟨copied, m'', done, reads⟩ := ih holds' (by omega) (by omega)
  rw [same] at reads
  exact ⟨copied, m'', (again _).trans done, reads.length, reads.whole, reads.progress,
    reads.ready, reads.readPos.trans readPos⟩

theorem flush_spec (items : List (Element α)) (ready : Ready m) (some : m.count ≠ 0)
    (part : n ≤ m.count) :
    (flush m n).1.length = n ∧ upcoming items m = (flush m n).1 ++ upcoming items (flush m n).2 ∧
      Ready (flush m n).2 := by
  have held := ready.held
  have first : (flush m n).1 = (pending m).take n := by simp [flush, pending, take_take, part]
  have rest : pending (flush m n).2 = (pending m).drop n := by simp [flush, pending, drop_take]
  have length : (flush m n).1.length = n := by
    rw [first, length_take]
    omega
  refine ⟨length, ?_, ?_, ready.sized⟩
  · simp only [upcoming, first, rest]
    rw [← append_assoc, take_append_drop]
    congr 3
    simp only [flush]
    split <;> split <;> simp_all
  rw [rest, length_drop, held]
  rfl

theorem readHere_spec (size : Nat) (ready : Ready m) (allocated : m.buf.isSome = true)
    (enough : longest items < fuel) :
    ∃ copied m', readHere items fuel m size = some (copied, m') ∧
      Reads items size (upcoming items m) copied m m' := by
  obtain ⟨fuel, rfl⟩ := exists_eq_succ_of_ne_zero (ne_zero_of_lt enough)
  obtain ⟨bytes, buf⟩ := isSome_iff_exists.mp allocated
  have sized := ready.sized allocated
  rw [readHere]
  split
  next filled =>
    have part := min_le_left m.count size
    obtain ⟨length, whole, ready'⟩ := flush_spec items ready filled part
    have left : (flush m (min m.count size)).2.count = m.count - min m.count size := rfl
    have sized' : 0 < (flush m (min m.count size)).2.size := sized
    have buf' : (flush m (min m.count size)).2.buf = some bytes := buf
    have readPos : (flush m (min m.count size)).2.readPos = m.readPos := rfl
    obtain ⟨copied, m1, same⟩ : ∃ copied m1, flush m (min m.count size) = (copied, m1) :=
      ⟨_, _, rfl⟩
    simp only [same] at length whole ready' left sized' buf' readPos ⊢
    have progress (rest : List α) : copied ++ rest = [] → size = 0 := by
      intro none
      rw [(append_eq_nil_iff.mp none).1, length_nil] at length
      omega
    split
    next full =>
      refine ⟨copied, m1, rfl, by omega, whole, fun none => ?_, ready', readPos⟩
      exact .inl (progress [] (by simpa using none))
    next open' =>
      have none : m1.count = 0 := by omega
      have holds : Holds m1 [] := ⟨none.symm, bytes, buf'⟩
      have fits : longest items < m1.size + fuel := by omega
      obtain ⟨more, m', done, reads⟩ := readRecords_spec (size - min m.count size) holds sized' fits
      refine ⟨copied ++ more, m', by rw [done]; rfl, ?_, ?_, fun none => .inl (progress _ none),
        reads.ready, reads.readPos.trans readPos⟩
      · have := reads.length
        rw [length_append]
        omega
      rw [whole, upcoming_of_empty none, reads.whole, append_assoc]
  next none =>
    have none := not_not.mp none
    have holds : Holds m [] := ⟨none.symm, bytes, buf⟩
    rw [upcoming_of_empty none]
    exact readRecords_spec size holds sized (by omega)

end

section

variable {m : SeqFile α}

/-- What a pass of `traverse` over the elements from `index` on leaves: the file at the offset. -/
structure Traversed (els : List (Element α)) (index offset : Nat) (m m' : SeqFile α) : Prop where
  ready : Ready m'
  after : index ≤ m'.index
  text : (texts els).drop offset =
    pending m' ++ texts (els.drop (if m'.count = 0 then m'.index - index else m'.index + 1 - index))

theorem Traversed.cons (p : Element α) {next : List (Element α)}
    (traversed : Traversed next (index + 1) offset m' m'') :
    Traversed (p :: next) index (p.shown.length + offset) m m'' := by
  obtain ⟨ready, after, text⟩ := traversed
  refine ⟨ready, by omega, ?_⟩
  rw [texts_cons, List.drop_append, List.drop_of_length_le (by omega), List.nil_append,
    Nat.add_sub_cancel_left, text]
  congr 2
  split
  · rw [show m''.index - index = m''.index - (index + 1) + 1 by omega, drop_succ_cons]
  rw [show m''.index + 1 - index = m''.index + 1 - (index + 1) + 1 by omega, drop_succ_cons]

/-- The buffer was too small for an element and is now twice as large. -/
structure Enlarged (els : List (Element α)) (m m' : SeqFile α) : Prop where
  long : m.size ≤ longest els
  holds : Holds m' []
  size : m'.size = m.size * 2

theorem traverseLoop_spec (holds : Holds m []) (sized : 0 < m.size) (index : Nat) {pos : Nat}
    (before : pos < offset) (els : List (Element α)) :
    (∃ m', traverseLoop offset m index pos els = (false, m') ∧
        Traversed els index (offset - pos) m m') ∨
      ∃ m', traverseLoop offset m index pos els = (true, m') ∧ Enlarged els m m' := by
  induction els generalizing m index pos with
  | nil =>
    have none : m.count = 0 := holds.count.symm
    refine .inl ⟨_, rfl, ready_of_empty none sized, le_rfl, ?_⟩
    simp [pending, none]
  | cons p next ih => ?_
  have kept := kept_show m p
  have none : m.count = 0 := holds.count.symm
  -- the rest of the elements, after one of which `shown` was read
  have go {m1 : SeqFile α} (holds1 : Holds m1 []) (size1 : m1.size = m.size)
    (more : pos + p.shown.length < offset) :
      (∃ m', traverseLoop offset m1 (index + 1) (pos + p.shown.length) next = (false, m') ∧
          Traversed (p :: next) index (offset - pos) m m') ∨
        ∃ m', traverseLoop offset m1 (index + 1) (pos + p.shown.length) next = (true, m') ∧
          Enlarged (p :: next) m m' := by
    rcases ih holds1 (size1 ▸ sized) (index + 1) more with ⟨m', done, traversed⟩ | ⟨m', done, grown⟩
    · refine .inl ⟨m', done, ?_⟩
      have := traversed.cons p (m := m)
      rwa [show p.shown.length + (offset - (pos + p.shown.length)) = offset - pos by omega] at this
    refine .inr ⟨m', done, ?_, grown.holds, grown.size.trans (by rw [size1])⟩
    exact (size1 ▸ grown.long).trans (le_max_right _ _)
  by_cases skip : p.skip = true
  · have shown := shown_of_skip skip
    have holds' := holds.show_skip p
    simp only [shown, length_nil, add_zero] at go
    have plain : seqOverflow { showElement m p with count := 0 } = false := by
      simp only [seqOverflow, kept.size, decide_eq_false_iff_not]
      omega
    rw
      [traverseLoop, if_pos skip, if_neg (Bool.eq_false_iff.mp plain), if_neg (by simp only; omega)]
    simp only [add_zero]
    rw [if_neg (by omega)]
    exact go holds' kept.size before
  have shown := shown_of_not_skip skip
  rw [traverseLoop, if_neg skip]
  rcases show_cases holds p with ⟨fits, holds'⟩ | ⟨full, count, -⟩
  · have count : (showElement m p).count = p.text.length := by simpa using holds'.count.symm
    obtain ⟨rest, buf⟩ := holds'.buf
    have plain : seqOverflow (showElement m p) = false := by
      simp only [seqOverflow, kept.size, decide_eq_false_iff_not]
      omega
    rw [if_neg (Bool.eq_false_iff.mp plain)]
    split
    next inside =>
      let m' : SeqFile α := { showElement m p with
        fromPos := offset - pos, count := (showElement m p).count - (offset - pos), index }
      have left : m'.count ≠ 0 := by
        simp only [m']
        omega
      have length : p.text.length = m'.fromPos + m'.count := by
        simp only [m']
        omega
      obtain ⟨part, -⟩ : pending m' = p.text.drop m'.fromPos ∧ upcoming next m' =
          p.text.drop m'.fromPos ++ texts (next.drop (m'.index + 1)) :=
        upcoming_of_rest (by simpa using buf) length left
      refine .inl ⟨m', rfl, ⟨?_, fun _ => kept.size ▸ sized⟩, le_rfl, ?_⟩
      · rw [part, length_drop]
        omega
      have one : m'.index + 1 - index = 1 := Nat.add_sub_cancel_left _ _
      rw [part, if_neg left, one, drop_one, tail_cons, texts_cons, shown,
        drop_append_of_le_length (by rw [← count]; omega)]
    next out =>
      simp only
      split
      next reached =>
        refine .inl ⟨_, rfl, ready_of_empty rfl (kept.size ▸ sized), le_succ _, ?_⟩
        have length : offset - pos = p.shown.length := by
          rw [shown]
          omega
        have gone : pending { showElement m p with count := 0, index := index + 1 } = [] := by
          simp [pending]
        rw [gone, length, texts_cons, drop_left, if_pos rfl, Nat.add_sub_cancel_left]
        rfl
      next more =>
        rw [count, ← shown]
        rw [count, ← shown] at more out
        exact go (holds_reset buf) kept.size (by omega)
  have long : seqOverflow (showElement m p) = true := by simp [seqOverflow, count, kept.size]
  rw [if_pos long]
  refine .inr ⟨_, rfl, ?_, holds_enlarge _, ?_⟩
  · have own : p.text.length ≤ longest (p :: next) := le_longest mem_cons_self
    omega
  simp [enlarge, kept.size]

theorem holds_grab (m : SeqFile α) (ready : Ready m) :
    Holds (grabBuffer { m with count := 0, fromPos := 0 }) [] ∧
      0 < (grabBuffer { m with count := 0, fromPos := 0 }).size := by
  rw [grabBuffer]
  split
  next => exact ⟨⟨rfl, [], rfl⟩, (by decide : 0 < pageSize)⟩
  next some =>
    obtain ⟨bytes, buf⟩ := ne_none_iff_exists'.mp (by simpa using some : m.buf ≠ none)
    exact ⟨⟨rfl, bytes, buf⟩, ready.sized (by simp [buf])⟩

/-- The file is at the place in the text that it says. -/
structure Placed (elements : List (Element α)) (m : SeqFile α) : Prop where
  ready : Ready m
  text : (texts elements).drop m.readPos = upcoming elements m

theorem traverse_spec (items : List (Element α)) (ready : Ready m) (offset : Nat) :
    (∃ m', traverse items m offset = (false, m') ∧ Ready m' ∧
        (texts items).drop offset = upcoming items m') ∨
      ∃ m', traverse items m offset = (true, m') ∧ Ready m' ∧ m'.buf.isSome = true ∧
        ∃ size, 0 < size ∧ (m.buf.isSome = true → size = m.size) ∧ size ≤ longest items ∧
          m'.size = size * 2 := by
  obtain ⟨holds, sized⟩ := holds_grab m ready
  rw [traverse]
  split
  next zero =>
    refine .inl ⟨_, rfl, ⟨rfl, ready.sized⟩, ?_⟩
    rw [upcoming_of_empty rfl, zero]
    rfl
  next some =>
    rcases traverseLoop_spec holds sized 0 (pos_of_ne_zero some) items with
      ⟨m', done, traversed⟩ | ⟨m', done, grown⟩
    · refine .inl ⟨m', done, traversed.ready, ?_⟩
      exact traversed.text
    obtain ⟨rest, buf⟩ := grown.holds.buf
    refine .inr ⟨m', done, ready_of_empty grown.holds.count.symm (by rw [grown.size]; omega),
      by simp [buf], _, sized, ?_, grown.long, grown.size⟩
    intro allocated
    rw [grabBuffer, if_neg (by simpa using isSome_iff_ne_none.mp allocated)]

/-- The size that the buffer has, or one if there is none yet. -/
def room (m : SeqFile α) : Nat := if m.buf.isSome then m.size else 1

theorem Ready.room_pos (ready : Ready m) : 0 < room m := by
  rw [room]
  split
  next some => exact ready.sized some
  next => exact one_pos

/-- One call of `traverse` is the last one, or the buffer has grown. -/
theorem traverseAll_step (items : List (Element α)) (ready : Ready m) (offset : Nat) :
    (∃ m', (∀ fuel, traverseAll items offset (fuel + 1) m = some m') ∧ Placed items m' ∧
        m'.readPos = offset) ∨
      ∃ m', (∀ fuel, traverseAll items offset (fuel + 1) m = traverseAll items offset fuel m') ∧
        Ready m' ∧ room m ≤ longest items ∧ room m < room m' := by
  rcases traverse_spec items ready offset with
    ⟨m', done, ready', text⟩ | ⟨m', again, ready', allocated, size, positive, same, long, double⟩
  · refine .inl ⟨{ m' with readPos := offset }, fun fuel => by rw [traverseAll, done], ?_, rfl⟩
    exact ⟨⟨ready'.held, ready'.sized⟩, text⟩
  refine .inr ⟨m', fun fuel => by rw [traverseAll, again], ready', ?_, ?_⟩
  · rw [room]
    split
    next some => exact same some ▸ long
    next => omega
  rw [room, room, if_pos allocated, double]
  split
  next some =>
    rw [← same some]
    omega
  next => omega

theorem traverseAll_spec (ready : Ready m) (offset : Nat) (enough : longest items < room m + fuel) :
    ∃ m', traverseAll items offset (fuel + 1) m = some m' ∧ Placed items m' ∧
      m'.readPos = offset := by
  induction fuel generalizing m with
  | zero =>
    rcases traverseAll_step items ready offset with
      ⟨m', done, placed, readPos⟩ | ⟨m', -, -, long, -⟩
    · exact ⟨m', done 0, placed, readPos⟩
    omega
  | succ fuel ih => ?_
  rcases traverseAll_step items ready offset with
    ⟨m', done, placed, readPos⟩ | ⟨m', again, ready', -, grown⟩
  · exact ⟨m', done _, placed, readPos⟩
  obtain ⟨m'', done, placed⟩ := ih ready' (by omega)
  exact ⟨m'', (again _).trans done, placed⟩

end

section

variable {m : SeqFile α}

theorem Placed.grab (placed : Placed items m) :
    Placed items (grabBuffer m) ∧ (grabBuffer m).buf.isSome = true ∧
      (grabBuffer m).readPos = m.readPos := by
  rw [grabBuffer]
  split
  next missing =>
    have none : m.buf = none := by simpa using missing
    have empty : m.count = 0 := by
      have held := placed.ready.held
      simpa [pending, none] using held.symm
    refine ⟨⟨ready_of_empty empty (by decide : 0 < pageSize), ?_⟩, rfl, rfl⟩
    have fresh : upcoming items { m with buf := some [], size := pageSize } =
        texts (items.drop m.index) := by simp [upcoming, pending, empty]
    exact placed.text.trans ((upcoming_of_empty empty).trans fresh.symm)
  next some => exact ⟨placed, by simpa [isSome_iff_ne_none] using some, rfl⟩

theorem Placed.goto (placed : Placed items m) (offset : Nat) (enough : longest items < fuel) :
    ∃ m', traverseAll items offset fuel m = some m' ∧ Placed items m' ∧ m'.readPos = offset := by
  obtain ⟨fuel, rfl⟩ := exists_eq_succ_of_ne_zero (ne_zero_of_lt enough)
  have := placed.ready.room_pos
  exact traverseAll_spec placed.ready offset (by omega)

theorem seqRead_spec (placed : Placed items m) (size ppos : Nat) (enough : longest items < fuel) :
    ∃ copied m', seqRead items fuel m size ppos = some (copied, m', ppos + copied.length) ∧
      Placed items m' ∧ copied.length ≤ size ∧ (∃ rest, (texts items).drop ppos = copied ++ rest) ∧
      (copied = [] → size = 0 ∨ (texts items).drop ppos = []) := by
  obtain ⟨m1, there, placed1, readPos1⟩ : ∃ m1,
      (if ppos ≠ m.readPos then traverseAll items ppos fuel m else some m) = some m1 ∧
        Placed items m1 ∧ m1.readPos = ppos := by
    split
    next => exact placed.goto ppos enough
    next same => exact ⟨m, rfl, placed, (not_not.mp same).symm⟩
  obtain ⟨placed2, allocated, readPos2⟩ := placed1.grab
  obtain ⟨copied, m', done, reads⟩ := readHere_spec size placed2.ready allocated enough
  have text : (texts items).drop ppos = copied ++ upcoming items m' := by
    rw [← reads.whole, ← placed2.text, readPos2, readPos1]
  refine ⟨copied, { m' with readPos := m'.readPos + copied.length }, ?_, ⟨?_, ?_⟩, reads.length,
    ⟨_, text⟩, ?_⟩
  · rw [seqRead, there]
    simp [done]
  · exact ⟨reads.ready.held, reads.ready.sized⟩
  · rw [reads.readPos, readPos2, readPos1, ← drop_drop, text, drop_left]
    rfl
  intro none
  refine (reads.progress none).imp_right fun empty => ?_
  rw [text, ← reads.whole, empty]

theorem seqLseek_spec (placed : Placed items file.m) (offset : Int) (whence : Whence)
    (enough : longest items < fuel) :
    ∃ ret file', seqLseek items fuel file offset whence = some (ret, file') ∧
      Placed items file'.m := by
  simp only [seqLseek]
  split
  · exact ⟨none, file, rfl, placed⟩
  split
  · exact ⟨none, file, rfl, placed⟩
  split
  · obtain ⟨m', done, placed', -⟩ := placed.goto _ enough
    rw [done]
    exact ⟨_, _, rfl, placed'⟩
  exact ⟨_, _, rfl, placed⟩

theorem step_spec (placed : Placed items file.m) (event : Event) (enough : longest items < fuel) :
    ∃ file', step items fuel file event = some file' ∧ Placed items file'.m := by
  cases event with
  | read size =>
    obtain ⟨copied, m', done, placed', -⟩ := seqRead_spec placed size file.fPos enough
    exact ⟨_, by rw [step, done]; rfl, placed'⟩
  | pread size pos =>
    obtain ⟨copied, m', done, placed', -⟩ := seqRead_spec placed size pos enough
    exact ⟨_, by rw [step, done]; rfl, placed'⟩
  | lseek offset whence => ?_
  obtain ⟨ret, file', done, placed'⟩ := seqLseek_spec placed offset whence enough
  exact ⟨file', by rw [step, done]; rfl, placed'⟩

/-- The files that any sequence of calls leads to, each with fuel enough for it. -/
inductive Reached (elements : List (Element α)) : File α → Prop
  | opened : Reached elements ⟨seqOpen, 0⟩
  | step {file file' : File α} {fuel : Nat} {event : Event} : Reached elements file →
      longest elements < fuel → step elements fuel file event = some file' → Reached elements file'

theorem placed_open : Placed items seqOpen where
  ready := ⟨rfl, nofun⟩
  text := rfl

theorem Reached.placed (reached : Reached items file) : Placed items file.m := by
  induction reached with
  | opened => exact placed_open
  | step _ enough done ih => ?_
  obtain ⟨file', same, placed⟩ := step_spec ih _ enough
  rw [done] at same
  cases same
  exact placed

end

/-- After any calls, a read of any size at any offset returns the text from that offset on, and
nothing only at the end or if nothing was asked for. Every call returns, with fuel for as many
larger buffers as the longest element needs. -/
theorem seq_read_text (elements : List (Element α)) (file : File α)
    (reached : Reached elements file) (fuel : Nat) (enough : longest elements < fuel) :
    (∀ event, ∃ file', step elements fuel file event = some file') ∧
      ∀ size ppos, ∃ copied m',
        seqRead elements fuel file.m size ppos = some (copied, m', ppos + copied.length) ∧
          copied = ((texts elements).drop ppos).take copied.length ∧ copied.length ≤ size ∧
          (copied = [] → size = 0 ∨ (texts elements).length ≤ ppos) := by
  have placed := reached.placed
  constructor
  · intro event
    obtain ⟨file', done, -⟩ := step_spec placed event enough
    exact ⟨file', done⟩
  intro size ppos
  obtain ⟨copied, m', done, -, short, ⟨rest, text⟩, progress⟩ :=
    seqRead_spec placed size ppos enough
  refine ⟨copied, m', done, ?_, short, fun none => (progress none).imp_right ?_⟩
  · rw [text, take_left]
  exact drop_eq_nil_iff.mp

/-- Two elements with a skipped one between them, read in pieces. -/
def threeElements : List (Element Nat) := [⟨[1, 2, 3], false⟩, ⟨[9], true⟩, ⟨[4, 5], false⟩]

theorem seq_read_text_three :
    ∃ copied m', seqRead threeElements 4 seqOpen 10 2 = some (copied, m', 2 + copied.length) ∧
      copied = [3, 4, 5] ∧ copied = ([1, 2, 3, 4, 5].drop 2).take copied.length := by
  obtain ⟨copied, m', done, text, -, -⟩ :=
    (seq_read_text threeElements ⟨seqOpen, 0⟩ .opened 4 (by decide)).2 10 2
  have value : seqRead threeElements 4 seqOpen 10 2 =
      some ([3, 4, 5], ⟨some [4, 5], 4096, 3, 0, 3, 5⟩, 5) := by
    decide
  cases done
  exact ⟨_, _, value, rfl, text⟩

end TinyKernel.Seq
