import TinyKernel.Asn1.Code

/-! Where the decoder reads, and which parts of the data it hands to the actions. -/

namespace TinyKernel.Asn1

open List Nat

theorem plus_eq (small : a + b < word) : plus a b = a + b := mod_eq_of_lt small

theorem minus_eq (le : b ≤ a) : minus a b = a - b := if_pos le

section

/-- The open elements of definite length, each with the start and the end of its contents. -/
def enclosing : Nat → List Cons → List (Nat × Nat)
  | _, [] => []
  | datalen, top :: rest =>
    if top.datalen = 0 then enclosing datalen rest
    else (top.dp, datalen) :: enclosing top.datalen rest

/-- Each open element of definite length ends inside of the next one, and the last in the buffer. -/
def Nested (size : Nat) : Nat → List Cons → Prop
  | limit, [] => limit ≤ size
  | limit, top :: rest =>
    if top.datalen = 0 then Nested size limit rest
    else limit ≤ top.datalen ∧ Nested size top.datalen rest

variable {size limit : Nat} {cons : List Cons}

theorem Nested.le (nested : Nested size limit cons) : limit ≤ size := by
  induction cons generalizing limit with
  | nil => exact nested
  | cons top rest ih => ?_
  rw [Nested] at nested
  split at nested
  · exact ih nested
  exact nested.1.trans (ih nested.2)

theorem Nested.end_le (nested : Nested size limit cons) (mem : element ∈ enclosing limit cons) :
    limit ≤ element.2 := by
  induction cons generalizing limit with
  | nil => cases mem
  | cons top rest ih => ?_
  rw [Nested] at nested
  rw [enclosing] at mem
  split at nested
  next indefinite =>
    rw [if_pos indefinite] at mem
    exact ih nested mem
  next definite =>
    rw [if_neg definite] at mem
    rcases mem_cons.mp mem with rfl | outer
    · exact le_rfl
    exact nested.1.trans (ih nested.2 outer)

theorem start_of_enclosing (mem : element ∈ enclosing limit cons) :
    ∃ entry ∈ cons, entry.dp = element.1 := by
  induction cons generalizing limit with
  | nil => cases mem
  | cons top rest ih => ?_
  rw [enclosing] at mem
  split at mem
  · obtain ⟨entry, found, same⟩ := ih mem
    exact ⟨entry, .tail _ found, same⟩
  rcases mem_cons.mp mem with rfl | outer
  · exact ⟨top, mem_cons_self, rfl⟩
  obtain ⟨entry, found, same⟩ := ih outer
  exact ⟨entry, .tail _ found, same⟩

end

/-- A step reads in the buffer only, and an action is given a part of the buffer and of every open
element of definite length. -/
structure Effect.Inside (size : Nat) (s : State) (effect : Effect) : Prop where
  reads : ∀ i ∈ effect.reads, i < size
  calls : ∀ call ∈ effect.calls, call.value + call.len ≤ size ∧
    ∀ element ∈ enclosing s.datalen s.cons, element.1 ≤ call.value ∧
      call.value + call.len ≤ element.2

/-- The places that a state remembers are in order. With `whole`, the last length is one of
contents. -/
structure Placed (size : Nat) (whole : Bool) (s : State) : Prop where
  small : size ≤ 65535
  dp : s.dp ≤ s.datalen
  tdp : s.tdp ≤ s.dp
  nested : Nested size s.datalen s.cons
  starts : ∀ entry ∈ s.cons, entry.dp ≤ s.tdp
  ordered : s.cons.Pairwise fun inner outer => outer.dp ≤ inner.dp
  scanned : ∀ scan, s.scan = some scan → scan.start = s.tdp
  contents : s.scan = none → whole = true → s.tdp + s.len ≤ s.datalen

/-- Whether an end operation goes back to the start of the form. -/
def startsOver (input : Input) (s : State) (op : Byte) : Bool :=
  endOf op && match s.cons with
    | [] => false
    | top :: _ => if top.datalen = 0 then input.data s.dp ≠ 0 else s.dp < s.datalen

/-- Whether the next step leaves `tdp` and `len` as those of an element's contents: not if it takes
the header of an element of indefinite length, nor if it starts a form over. -/
def wholeAfter (input : Input) (s : State) (whole : Bool) : Bool :=
  let op := input.code s.pc
  if s.scan.isSome then true
  else if matchesTag op then
    if passedOver s op || !tagMatches op (input.code (s.pc + 1)) (input.data s.dp) then whole
    else (input.data (s.dp + 1)).toNat ≠ indefiniteLength
  else if caseOf op = .endSet ∨ caseOf op = .endOther then !startsOver input s op
  else whole

/-- The end of the contents whose length bytes start at `dp`. -/
def contentEnd (data : Nat → Byte) (dp : Nat) : Nat :=
  let len := (data dp).toNat
  if len ≤ 0x7f then dp + 1 + len
  else if len = indefiniteLength then dp + 1
  else dp + 1 + (len - 0x80) + readLength data (len - 0x80) (dp + 1) 0

/-- Whether a round of `asn1_find_indefinite_length` gets to a length. -/
def reachesLength (data : Nat → Byte) (dp : Nat) (scan : Scan) : Bool :=
  if scan.inTag then data dp &&& 0x80 = 0 else data dp ≠ 0 && !longTag (data dp)

/-- What the decoder does not check: that there is any data, that a length of one byte fits, that an
action that wants the contents of an element at once is not asked for one of indefinite length, that
the elements inside of such an element fit, and that the operation that only acts comes after one
that leaves the length of contents. -/
structure Fits (input : Input) (s : State) (whole : Bool) : Prop where
  matching : s.scan = none → matchesTag (input.code s.pc) = true →
    passedOver s (input.code s.pc) = false → s.datalen ≠ 0 ∧
    (tagMatches (input.code s.pc) (input.code (s.pc + 1)) (input.data s.dp) = true →
      ((input.data (s.dp + 1)).toNat ≤ 0x7f →
        contentEnd input.data (s.dp + 1) ≤ s.datalen) ∧
      (caseOf (input.code s.pc) = .matchAnyAct ∨ caseOf (input.code s.pc) = .matchAct →
        (input.data (s.dp + 1)).toNat ≠ indefiniteLength))
  scanning : ∀ scan, s.scan = some scan → reachesLength input.data s.dp scan = true →
    contentEnd input.data (s.dp + 1) ≤ s.datalen
  acting : s.scan = none → caseOf (input.code s.pc) = .act → whole = true

section

variable {datalen : Nat}

/-- What is known about a length that was read from the data at `dp`. -/
structure Length.Good (data : Nat → Byte) (dp datalen : Nat) (found : Length) : Prop where
  after : dp < found.dp
  inside : found.dp ≤ datalen
  indefinite : found.indefinite = true → (data dp).toNat = indefiniteLength
  definite : found.indefinite = false →
    ((data dp).toNat ≤ 0x7f → contentEnd data dp ≤ datalen) → found.dp + found.len ≤ datalen

theorem length_spec (data : Nat → Byte) (tag : Byte) (pos : 0 < dp) (lt : dp < datalen)
    (small : datalen ≤ 65535) :
    (∀ i ∈ (length data tag dp datalen).1, i < datalen) ∧
      ∀ found, (length data tag dp datalen).2 = some found → found.Good data dp datalen := by
  simp only [length]
  split
  next long =>
    split
    next indefinite =>
      split
      · simpa using lt
      split
      · simpa using lt
      refine ⟨by simpa using lt, ?_⟩
      rintro found ⟨⟩
      exact ⟨lt_succ_self dp, lt, fun _ => indefinite, nofun⟩
    next definite =>
      generalize (data dp).toNat - 0x80 = n
      split
      · simpa using lt
      next two =>
      rw [minus_eq (by omega)]
      split
      · simpa using lt
      next room =>
      have reads : ∀ i ∈ dp :: range' (dp + 1) n, i < datalen := by
        simp only [mem_cons, mem_range'_1]
        omega
      have inside : dp + 1 + n ≤ datalen := by omega
      rw [minus_eq inside]
      split
      · exact ⟨reads, nofun⟩
      next fits =>
        refine ⟨reads, ?_⟩
        rintro found ⟨⟩
        refine ⟨lt_of_lt_of_le (lt_succ_self dp) (le_add_right _ _), inside, nofun, ?_⟩
        intro _ _
        exact Nat.add_le_of_le_sub' inside (not_lt.mp fits)
  next short =>
    refine ⟨by simpa using lt, ?_⟩
    rintro found ⟨⟩
    have short := not_lt.mp short
    refine ⟨lt_succ_self dp, lt, nofun, ?_⟩
    intro _ fits
    simpa [contentEnd, short] using fits short

/-- What the header of an element says, if the decoder gets past it. -/
theorem header_spec (data : Nat → Byte) (op optag : Byte) (le : dp ≤ datalen) (some : datalen ≠ 0)
    (small : datalen ≤ 65535) :
    let res := header data op optag dp datalen
    (∀ i ∈ res.1, i < datalen) ∧
      (∀ tag, res.2 = .skip tag → tagMatches op optag (data dp) = false) ∧
      ∀ tag cons found, res.2 = .element tag cons found →
        tagMatches op optag (data dp) = true ∧ dp + 1 < datalen ∧
          found.Good data (dp + 1) datalen := by
  simp only [header]
  rw [minus_eq (by omega)]
  split
  · simp
  next room =>
  split
  · simp only [mem_singleton, forall_eq, reduceCtorEq, false_implies, implies_true, and_true]
    omega
  split
  next other =>
    refine ⟨by simp only [mem_singleton, forall_eq]; omega, fun _ _ => by simpa using other, ?_⟩
    intro tag cons found same
    split at same <;> cases same
  next wanted =>
  have next : dp + 1 < datalen := by omega
  obtain ⟨reads, good⟩ := length_spec data (data dp) (succ_pos dp) next small
  have all : ∀ i ∈ dp :: (length data (data dp) (dp + 1) datalen).1, i < datalen :=
    forall_mem_cons.mpr ⟨by omega, reads⟩
  split
  · exact ⟨all, nofun, nofun⟩
  next found same =>
    refine ⟨all, nofun, ?_⟩
    rintro tag cons found ⟨⟩
    exact ⟨by simpa using wanted, next, good _ same⟩

end

section

variable {datalen : Nat}

/-- What a round of the scan leaves: a place between the old one and the end. -/
def ScanNext.Good (start dp datalen : Nat) : ScanNext → Prop
  | .fail => True
  | .found next => dp ≤ next ∧ next ≤ datalen
  | .goOn next scan => dp ≤ next ∧ next ≤ datalen ∧ scan.start = start

theorem scanLength_spec (scan : Scan) (lt : dp < datalen) (small : datalen ≤ 65535)
    (fits : contentEnd data dp ≤ datalen) :
    (∀ i ∈ (scanLength data datalen dp scan).1, i < datalen) ∧
      (scanLength data datalen dp scan).2.Good scan.start dp datalen := by
  have bound : datalen < word := by
    rw [word]
    omega
  simp only [contentEnd] at fits
  simp only [scanLength]
  split
  next short =>
    rw [if_pos short] at fits
    rw [plus_eq (by omega)]
    exact ⟨by simpa using lt, by omega, fits, rfl⟩
  next long =>
  rw [if_neg long] at fits
  split
  next indefinite =>
    split
    · exact ⟨by simpa using lt, trivial⟩
    exact ⟨by simpa using lt, by omega, lt, rfl⟩
  next definite =>
  rw [if_neg definite] at fits
  generalize (data dp).toNat - 0x80 = n at fits ⊢
  split
  · exact ⟨by simpa using lt, trivial⟩
  split
  · exact ⟨by simpa using lt, trivial⟩
  rw [plus_eq (by omega)]
  refine ⟨?_, by omega, fits, rfl⟩
  simp only [mem_cons, mem_range'_1]
  omega

theorem ScanNext.Good.mono {start : Nat} {next : ScanNext} (le : dp ≤ dp')
    (good : next.Good start dp' datalen) : next.Good start dp datalen := by
  cases next with
  | fail => trivial
  | found next => exact ⟨le.trans good.1, good.2⟩
  | goOn next scan => exact ⟨le.trans good.1, good.2⟩

theorem scanStep_spec (le : dp ≤ datalen) (small : datalen ≤ 65535)
    (fits : reachesLength data dp scan = true → contentEnd data (dp + 1) ≤ datalen) :
    (∀ i ∈ (scanStep data datalen dp scan).1, i < datalen) ∧
      (scanStep data datalen dp scan).2.Good scan.start dp datalen := by
  simp only [scanStep]
  rw [minus_eq le]
  split
  · exact ⟨by simp, trivial⟩
  next room =>
  have here : dp < datalen := by omega
  have next : dp + 1 < datalen := by omega
  have both : ∀ i ∈ [dp, dp + 1], i < datalen := by simpa using ⟨here, next⟩
  have gets (scan : Scan) (reaches : contentEnd data (dp + 1) ≤ datalen) :
      (∀ i ∈ dp :: (scanLength data datalen (dp + 1) scan).1, i < datalen) ∧
        (scanLength data datalen (dp + 1) scan).2.Good scan.start dp datalen := by
    obtain ⟨reads, good⟩ := scanLength_spec scan next small reaches
    exact ⟨forall_mem_cons.mpr ⟨here, reads⟩, good.mono (le_succ dp)⟩
  split
  next inTag =>
    split
    · exact ⟨by simpa using here, le_succ dp, here, rfl⟩
    next last => exact gets scan (fits (by simpa [reachesLength, inTag] using last))
  next out =>
    split
    · split
      · exact ⟨both, trivial⟩
      split
      · exact ⟨both, by omega, next⟩
      exact ⟨both, by omega, next, rfl⟩
    next some =>
    split
    · exact ⟨by simpa using here, le_succ dp, here, rfl⟩
    next short =>
      have plain : data dp ≠ 0#8 := some
      exact gets _ (fits (by simp [reachesLength, out, plain, short]))

end

section

variable {size : Nat} {whole whole' : Bool} {input : Input} {s : State}

/-- A step is inside of the buffer and leaves the places in order. -/
def Keeps (size : Nat) (s : State) (whole : Bool) (effect : Effect) : Prop :=
  effect.Inside size s ∧ ∀ s', effect.next = .goOn s' → Placed size whole s'

theorem Placed.reads (placed : Placed size whole s) {reads : List Nat}
    (inside : ∀ i ∈ reads, i < s.datalen) : ∀ i ∈ reads, i < size := by
  intro i mem
  exact (inside i mem).trans_le placed.nested.le

theorem Placed.call (placed : Placed size whole s) {call : Call}
    (after : ∀ entry ∈ s.cons, entry.dp ≤ call.value) (fits : call.value + call.len ≤ s.datalen) :
    call.value + call.len ≤ size ∧
      ∀ element ∈ enclosing s.datalen s.cons, element.1 ≤ call.value ∧
        call.value + call.len ≤ element.2 := by
  refine ⟨fits.trans placed.nested.le, ?_⟩
  intro element mem
  obtain ⟨entry, found, same⟩ := start_of_enclosing mem
  exact ⟨same ▸ after entry found, fits.trans (placed.nested.end_le mem)⟩

theorem Placed.stop (placed : Placed size whole s) {reads : List Nat}
    (inside : ∀ i ∈ reads, i < s.datalen) (ret : Int) :
    Keeps size s whole' ⟨reads, [], .stop ret⟩ :=
  ⟨⟨placed.reads inside, nofun⟩, nofun⟩

theorem Placed.goOn (placed : Placed size whole s) {reads : List Nat}
    (inside : ∀ i ∈ reads, i < s.datalen) (after : Placed size whole' s') :
    Keeps size s whole' ⟨reads, [], .goOn s'⟩ := by
  refine ⟨⟨placed.reads inside, nofun⟩, ?_⟩
  rintro _ ⟨⟩
  exact after

theorem Placed.mono (placed : Placed size whole s) (less : whole' = true → whole = true) :
    Placed size whole' s :=
  { placed with contents := fun plain known => placed.contents plain (less known) }

theorem Keeps.mono (keeps : Keeps size s whole effect) (less : whole' = true → whole = true) :
    Keeps size s whole' effect :=
  ⟨keeps.1, fun s' goes => (keeps.2 s' goes).mono less⟩

theorem Placed.forward (placed : Placed size whole s) (pc : Nat) :
    Placed size whole { s with pc } :=
  { placed with }

/-- The contents of an element whose header has been read, if they are to be used at once. -/
def LengthFits (s : State) (found : Length) : Prop :=
  found.indefinite = false → found.dp + found.len ≤ s.datalen

section

variable {found : Length}

theorem placed_enter (placed : Placed size whole s) (plain : s.scan = none) (some : s.datalen ≠ 0)
    (good : found.Good input.data (s.dp + 1) s.datalen) (fits : LengthFits s found) (tag : Byte)
    (cons : Bool) : Placed size (!found.indefinite) (enter s tag cons found) := by
  have after : s.tdp ≤ found.dp := by
    have := placed.tdp
    have := good.after
    omega
  have short : s.datalen ≤ 65535 := placed.nested.le.trans placed.small
  have dp : found.dp % 65536 = found.dp := mod_eq_of_lt (by have := good.inside; omega)
  have top : ∀ entry ∈ s.cons, entry.dp ≤ found.dp :=
    fun entry mem => (placed.starts entry mem).trans after
  have idle : ∀ scan, s.scan = Option.some scan → scan.start = found.dp := by
    rw [plain]
    nofun
  simp only [enter]
  split
  · refine ⟨placed.small, good.inside, le_rfl, placed.nested, top, placed.ordered, idle, ?_⟩
    exact fun _ definite => fits (by simpa using definite)
  split
  next indefinite =>
    refine ⟨placed.small, good.inside, le_rfl, ?_, ?_, ?_, idle, ?_⟩
    · simpa [Nested] using placed.nested
    · simpa [dp] using top
    · simpa [dp, placed.ordered] using top
    simp [indefinite]
  next definite =>
    have inside : found.dp + found.len ≤ s.datalen := fits (by simpa using definite)
    have datalen : s.datalen % 65536 = s.datalen := mod_eq_of_lt (by omega)
    have len : plus found.dp found.len = found.dp + found.len := plus_eq (by rw [word]; omega)
    refine ⟨placed.small, ?_, le_rfl, ?_, ?_, ?_, idle, fun _ _ => len.ge⟩
    · simp [len]
    · simpa [Nested, datalen, some, len, inside] using placed.nested
    · simpa [dp] using top
    simpa [dp, placed.ordered] using top

end

@[simp]
theorem enter_dp (tag : Byte) (cons : Bool) (found : Length) :
    (enter s tag cons found).dp = found.dp ∧ (enter s tag cons found).len = found.len ∧
      (enter s tag cons found).tdp = found.dp := by
  simp only [enter]
  split
  · simp
  split <;> simp

section

variable (placed : Placed size whole s)
include placed

theorem placed_skipData {cons : Bool} (op : Byte) (here : s.dp = s.tdp)
    (fits : cons = false → indefinite = false → s.dp + s.len ≤ s.datalen) :
    Placed size whole (skipData s op cons indefinite) := by
  simp only [skipData]
  split
  · exact placed.forward _
  split
  · refine { placed with scanned := ?_, contents := nofun }
    rintro _ ⟨⟩
    exact here
  next leaf definite =>
    have inside := fits (by simpa using leaf) (by simpa using definite)
    have limit := placed.nested.le.trans placed.small
    have len : plus s.dp s.len = s.dp + s.len := plus_eq (by rw [word]; omega)
    refine { placed with dp := ?_, tdp := ?_ }
    · simpa [len] using inside
    simpa [len] using placed.tdp.trans (le_add_right _ _)

/-- An operation on an element whose header has been read. -/
theorem keeps_dispatch (plain : s.scan = none) (some : s.datalen ≠ 0) {found : Length}
    (good : found.Good input.data (s.dp + 1) s.datalen) (fits : LengthFits s found)
    (definite : caseOf op = .matchAnyAct ∨ caseOf op = .matchAct → found.indefinite = false)
    (ret : Int) (tag : Byte) (cons : Bool) (inside : ∀ i ∈ reads, i < s.datalen) :
    Keeps size s (!found.indefinite)
      (dispatch input ret (enter s tag cons found) op cons found.indefinite reads) := by
  obtain ⟨dp, len, tdp⟩ := enter_dp (s := s) tag cons found
  have entered := placed_enter placed plain some good fits tag cons
  have skipped : Placed size (!found.indefinite)
      (skipData (enter s tag cons found) op cons found.indefinite) := by
    apply placed_skipData entered op (dp.trans tdp.symm)
    intro leaf plain
    subst leaf
    exact fits plain
  have after : s.tdp ≤ found.dp := by
    have := placed.tdp
    have := good.after
    omega
  have call (action : Byte) (whole : found.indefinite = false) : Keeps size s (!found.indefinite)
      ⟨reads, [⟨action.toNat, (enter s tag cons found).hdr, (enter s tag cons found).tag,
        (enter s tag cons found).dp, (enter s tag cons found).len⟩],
        if ret < 0 then .stop ret else
          .goOn (skipData (enter s tag cons found) op cons found.indefinite)⟩ := by
    refine ⟨⟨placed.reads inside, ?_⟩, ?_⟩
    · intro call mem
      rw [mem_singleton.mp mem]
      refine placed.call ?_ ?_
      · rw [dp]
        exact fun entry mem => (placed.starts entry mem).trans after
      rw [dp, len]
      exact fits whole
    intro s' goes
    split at goes
    · cases goes
    cases goes
    exact skipped
  simp only [dispatch]
  split
  next act => exact call _ (definite (.inl act))
  next act => exact call _ (definite (.inr act))
  · exact placed.goOn inside skipped
  · split
    · exact placed.stop inside _
    exact placed.goOn inside { entered with }
  exact placed.stop inside _

theorem keeps_matchOp (fits : Fits input s whole) (plain : s.scan = none)
    (wants : matchesTag (input.code s.pc) = true) (ret : Int) :
    Keeps size s (wholeAfter input s whole) (matchOp input ret s (input.code s.pc)) := by
  rw [matchOp]
  split
  next past =>
    have same : wholeAfter input s whole = whole := by simp [wholeAfter, plain, wants, past]
    rw [same]
    exact placed.goOn (by simp) (placed.forward _)
  next looked =>
  obtain ⟨some, checked⟩ := fits.matching plain wants (by simpa using looked)
  have small : s.datalen ≤ 65535 := placed.nested.le.trans placed.small
  obtain ⟨reads, other, element⟩ :=
    header_spec input.data (input.code s.pc) (input.code (s.pc + 1)) placed.dp some small
  revert reads other element
  generalize header input.data (input.code s.pc) (input.code (s.pc + 1)) s.dp s.datalen = res
  obtain ⟨reads, found⟩ := res
  intro inside other element
  cases found with
  | fail => exact placed.stop inside _
  | skip tag =>
    have same : wholeAfter input s whole = whole := by
      simp [wholeAfter, plain, wants, other tag rfl]
    rw [same]
    exact placed.goOn inside { placed with }
  | element tag cons found => ?_
  obtain ⟨wanted, -, good⟩ := element tag cons found rfl
  obtain ⟨short, act⟩ := checked wanted
  have whole : caseOf (input.code s.pc) = .matchAnyAct ∨ caseOf (input.code s.pc) = .matchAct →
      found.indefinite = false := by
    intro acts
    by_contra indefinite
    exact act acts (good.indefinite (by simpa using indefinite))
  have fits : LengthFits s found := fun definite => good.definite definite short
  simp only
  split
  · exact placed.stop inside _
  refine (keeps_dispatch placed plain some good fits whole ret tag cons inside).mono fun known => ?_
  have byte : (input.data (s.dp + 1)).toNat ≠ indefiniteLength := by
    simpa [wholeAfter, plain, wants, looked, wanted] using known
  simpa using fun indefinite => byte (good.indefinite indefinite)

/-- The end of a form that has been taken from the stack. -/
theorem keeps_endDone {ended : State} (after : Placed size whole' ended)
    (starts : ∀ entry ∈ s.cons, entry.dp ≤ ended.tdp) (fits : ended.tdp + ended.len ≤ s.datalen)
    (op : Byte) (inside : ∀ i ∈ reads, i < s.datalen) :
    Keeps size s whole' (endDone input ended op reads) := by
  refine ⟨⟨placed.reads inside, ?_⟩, ?_⟩
  · intro call mem
    simp only [endDone] at mem
    split at mem
    · rw [mem_singleton.mp mem]
      exact placed.call starts fits
    cases mem
  intro s' goes
  obtain rfl := Next.goOn.inj goes
  exact after.forward _

theorem keeps_endOp (plain : s.scan = none) (op : Byte) :
    Keeps size s (!startsOver input s op) (endOp input s op) := by
  rw [endOp]
  split
  · exact placed.stop (by simp) _
  next top rest stack =>
  have nested := placed.nested
  have ordered := placed.ordered
  rw [stack, Nested] at nested
  rw [stack] at ordered
  obtain ⟨below, ordered⟩ := pairwise_cons.mp ordered
  have starts : ∀ entry ∈ s.cons, entry.dp ≤ top.dp := by
    rw [stack]
    exact forall_mem_cons.mpr ⟨le_rfl, below⟩
  have topDp : top.dp ≤ s.dp := (placed.starts top (stack ▸ (.head _))).trans placed.tdp
  have idle : ∀ scan, s.scan = some scan → scan.start = top.dp := by
    rw [plain]
    nofun
  have again (back : startsOver input s op = true) : Placed size (!startsOver input s op) { s with
      tdp := top.dp, hdr := top.hdrlen, len := s.datalen, pc := (input.code (s.pc + 1)).toNat } :=
    ⟨placed.small, placed.dp, topDp, placed.nested, starts, placed.ordered, idle, by simp [back]⟩
  split
  next indefinite =>
    rw [if_pos indefinite] at nested
    rw [minus_eq placed.dp]
    split
    · exact placed.stop (by simp) _
    next room =>
    have here : ∀ i ∈ [s.dp], i < s.datalen := by
      simp only [mem_singleton, forall_eq]
      omega
    have both : ∀ i ∈ [s.dp, s.dp + 1], i < s.datalen := by
      simp only [mem_cons, not_mem_nil, or_false, forall_eq_or_imp, forall_eq]
      omega
    split
    next more =>
      split
      next loops =>
        have kept : input.data s.dp ≠ 0#8 := more
        exact placed.goOn here (again (by simp [startsOver, stack, indefinite, kept, loops]))
      exact placed.stop here _
    split
    · exact placed.stop both _
    have len : minus (minus (s.dp + 2) top.dp) 2 = s.dp - top.dp := by
      have inner : minus (s.dp + 2) top.dp = s.dp + 2 - top.dp := minus_eq (by omega)
      rw [inner, minus_eq (by omega)]
      omega
    have contents : top.dp + minus (minus (s.dp + 2) top.dp) 2 ≤ s.datalen := by omega
    refine keeps_endDone placed ⟨placed.small, ?_, ?_, nested, below, ordered, idle,
      fun _ _ => contents⟩ starts contents op both
    · simp only
      omega
    simp only
    omega
  next definite =>
    rw [if_neg definite] at nested
    split
    next loops =>
      exact placed.goOn (by simp) (again (by simp [startsOver, stack, definite, loops]))
    split
    · exact placed.stop (by simp) _
    next there =>
      have len : minus s.datalen top.dp = s.datalen - top.dp := minus_eq (by omega)
      have contents : top.dp + minus s.datalen top.dp ≤ s.datalen := by omega
      refine keeps_endDone placed ⟨placed.small, ?_, topDp, nested.2, below, ordered, idle, ?_⟩
        starts contents op (by simp)
      · exact placed.dp.trans nested.1
      exact fun _ _ => contents.trans nested.1

theorem keeps_otherOp (fits : Fits input s whole) (plain : s.scan = none)
    (other : matchesTag (input.code s.pc) = false) :
    Keeps size s (wholeAfter input s whole) (otherOp input s (input.code s.pc)) := by
  have ends (case : caseOf (input.code s.pc) = .endSet ∨ caseOf (input.code s.pc) = .endOther) :
      Keeps size s (wholeAfter input s whole) (endOp input s (input.code s.pc)) := by
    have after : wholeAfter input s whole = !startsOver input s (input.code s.pc) := by
      simp only [wholeAfter, plain, other]
      exact if_pos case
    rw [after]
    exact keeps_endOp placed plain _
  have same (case : ¬ (caseOf (input.code s.pc) = .endSet ∨ caseOf (input.code s.pc) = .endOther)) :
      wholeAfter input s whole = whole := by
    simp only [wholeAfter, plain, other]
    exact if_neg case
  rw [otherOp]
  split
  next case =>
    rw [same (by simp [case])]
    split
    · exact placed.stop (by simp) _
    exact placed.goOn (by simp) (placed.forward _)
  · split <;> exact placed.stop (by simp) _
  next case =>
    split
    · exact placed.stop (by simp) _
    exact ends (.inl case)
  next case => exact ends (.inr case)
  next act =>
    rw [same (by simp [act])]
    refine ⟨⟨by simp, ?_⟩, ?_⟩
    · intro call mem
      rw [mem_singleton.mp mem]
      exact placed.call placed.starts (placed.contents plain (fits.acting plain act))
    intro s' goes
    obtain rfl := Next.goOn.inj goes
    exact placed.forward _
  next case =>
    rw [same (by simp [case])]
    split
    · exact placed.stop (by simp) _
    exact placed.goOn (by simp) { placed with }
  exact placed.stop (by simp) _

theorem keeps_nextOp (fits : Fits input s whole) (plain : s.scan = none) (ret : Int) :
    Keeps size s (wholeAfter input s whole) (nextOp input ret s) := by
  simp only [nextOp]
  split
  · exact placed.stop (by simp) _
  split
  · exact placed.stop (by simp) _
  split
  next wants => exact keeps_matchOp placed fits plain wants ret
  next other => exact keeps_otherOp placed fits plain (by simpa using other)

theorem keeps_scanOp (fits : Fits input s whole) (scanning : s.scan = some scan) :
    Keeps size s (wholeAfter input s whole) (scanOp input s scan) := by
  have small : s.datalen ≤ 65535 := placed.nested.le.trans placed.small
  have spec := scanStep_spec placed.dp small (fits.scanning scan scanning)
  rw [scanOp]
  revert spec
  generalize scanStep input.data s.datalen s.dp scan = res
  obtain ⟨reads, next⟩ := res
  rintro ⟨inside, good⟩
  cases next with
  | fail => exact placed.stop inside _
  | found dp =>
    have start := placed.scanned scan scanning
    have after : s.tdp ≤ dp := placed.tdp.trans good.1
    have len : minus dp scan.start = dp - scan.start := minus_eq (by omega)
    refine placed.goOn inside ⟨placed.small, good.2, after, placed.nested, placed.starts,
      placed.ordered, nofun, fun _ _ => ?_⟩
    have limit := good.2
    simp only [len]
    omega
  | goOn dp scan => ?_
  refine placed.goOn inside ⟨placed.small, good.2.1, placed.tdp.trans good.1, placed.nested,
    placed.starts, placed.ordered, ?_, nofun⟩
  rintro _ ⟨⟩
  exact good.2.2.trans (placed.scanned _ scanning)

theorem keeps_step (fits : Fits input s whole) (ret : Int) :
    Keeps size s (wholeAfter input s whole) (step input ret s) := by
  cases scanning : s.scan with
  | none =>
    simp only [step, scanning]
    exact keeps_nextOp placed fits scanning ret
  | some scan => ?_
  simp only [step, scanning]
  exact keeps_scanOp placed fits scanning

end

end

/-- The states that the decoder gets to with every step fitting, whatever the actions return, and
whether the last length is one of contents there. -/
inductive Reached (input : Input) (datalen : Nat) : State → Bool → Prop
  | start : Reached input datalen (start datalen) true
  | step {s s' : State} {whole : Bool} (ret : Int) : Reached input datalen s whole →
    Fits input s whole →
      (step input ret s).next = .goOn s' → Reached input datalen s' (wholeAfter input s whole)

theorem placed_start {size : Nat} (small : size ≤ 65535) : Placed size true (start size) where
  small := small
  dp := zero_le _
  tdp := le_rfl
  nested := le_rfl
  starts := nofun
  ordered := Pairwise.nil
  scanned := nofun
  contents _ _ := zero_le _

theorem Reached.placed {size : Nat} (small : size ≤ 65535) (there : Reached input size s whole) :
    Placed size whole s := by
  induction there with
  | start => exact placed_start small
  | step ret _ fits goes ih => exact (keeps_step ih fits ret).2 _ goes

/-- For any bytecode, any data and any actions: as long as the steps fit, the decoder reads in the
buffer only and hands out parts of the buffer and of the elements it is in. -/
theorem decoder_stays_inside (input : Input) (datalen : Nat) (small : datalen ≤ 65535) (s : State)
    (whole : Bool) (reached : Reached input datalen s whole) (fits : Fits input s whole)
    (ret : Int) : (step input ret s).Inside datalen s :=
  (keeps_step (reached.placed small) fits ret).1

/-- The memory that holds these bytes and then zeros. -/
def memory (bytes : List Byte) (i : Nat) : Byte := bytes.getD i 0

/-- A sequence with an action on an element with tag 4, one at its end, and one after it. -/
def sequence : Input where
  machine := [0x00, 0x30, 0x02, 0x04, 0x00, 0x24, 0x01, 0x1d, 0x02, 0x1c]
  data := memory [0x30, 0x03, 0x04, 0x01, 0xaa]

/-- The action after the sequence gets its contents again. -/
theorem decoder_stays_inside_sequence :
    ∃ s, Reached sequence 5 s true ∧ (step sequence 0 s).calls = [⟨2, 2, 4, 2, 3⟩] ∧
      (step sequence 0 s).Inside 5 s := by
  have first : Reached sequence 5 ⟨2, 2, 5, 2, 3, 2, 0x30, true, [⟨2, 5, 2⟩], [], none⟩ true :=
    .step 0 .start ⟨by decide, nofun, by decide⟩ rfl
  have second : Reached sequence 5 ⟨5, 5, 5, 4, 1, 2, 0x04, true, [⟨2, 5, 2⟩], [], none⟩ true :=
    .step 0 first ⟨by decide, nofun, by decide⟩ rfl
  have third : Reached sequence 5 ⟨7, 5, 5, 2, 3, 2, 0x04, true, [], [], none⟩ true :=
    .step 0 second ⟨by decide, nofun, by decide⟩ rfl
  refine ⟨_, third, by decide, ?_⟩
  exact decoder_stays_inside sequence 5 (by decide) _ _ third ⟨by decide, nofun, by decide⟩ 0

/-- One action on an element with tag 4, and the end. -/
def oneAction : List Byte := [0x02, 0x04, 0x00, 0x1c]

/-- A length of one byte is not compared with the end of the data. -/
theorem short_length_leaves_the_buffer :
    (step ⟨oneAction, memory [0x04, 0x7f]⟩ 0 (start 2)).calls = [⟨0, 2, 4, 2, 127⟩] ∧
      ¬(step ⟨oneAction, memory [0x04, 0x7f]⟩ 0 (start 2)).Inside 2 (start 2) := by
  have called : (step ⟨oneAction, memory [0x04, 0x7f]⟩ 0 (start 2)).calls =
      [⟨0, 2, 4, 2, 127⟩] := by
    decide
  refine ⟨called, fun inside => ?_⟩
  have bad := (inside.calls ⟨0, 2, 4, 2, 127⟩ (called ▸ mem_singleton_self _)).1
  exact absurd bad (by decide)

end TinyKernel.Asn1
