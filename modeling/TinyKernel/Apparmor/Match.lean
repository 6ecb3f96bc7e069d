import TinyKernel.Apparmor.Unpack

/-! Matches through verified tables. -/

namespace TinyKernel.Apparmor

open Lib

variable {dfa : Dfa} {defTable base nxt chk : Table} {state : Nat}

theorem require_eq_ok {condition : Prop} [Decidable condition] :
    require condition = .ok done ↔ condition := by
  rw [require]
  split
  · next holds => exact iff_of_true rfl holds
  · next fails => exact iff_of_false (by simp) fails

theorem require_ne_fault (condition : Prop) [Decidable condition] :
    require condition ≠ .error .fault := by
  rw [require]
  split <;> simp

theorem entry_eq (inside : i < table.tdData.length) : entry table i = .ok table.tdData[i] := by
  rw [entry, List.getElem?_eq_getElem inside]

theorem entry_ne_fault (inside : i < table.tdData.length) : entry table i ≠ .error .fault := by
  rw [entry_eq inside]
  simp

theorem verifyDfa_ne_fault (wf : WellFormedAll dfa.tables) (flags : Nat) :
    verifyDfa dfa flags ≠ .error .fault := by
  rw [verifyDfa]
  split
  · next defTable base nxt chk def_eq base_eq nxt_eq chk_eq =>
    refine bind_ne_error (require_ne_fault _) fun _ _ =>
      bind_ne_error (require_ne_fault _) fun _ _ =>
      bind_ne_error (require_ne_fault _) fun _ states =>
      bind_ne_error (require_ne_fault _) fun _ trans =>
      bind_ne_error (require_ne_fault _) fun _ _ => ?_
    have states := require_eq_ok.mp states
    have trans := require_eq_ok.mp trans
    split
    · refine bind_ne_error (forM_ne_error fun i mem => ?_) fun _ _ => forM_ne_error fun i mem => ?_
      · have inside := List.mem_range.mp mem
        refine bind_ne_error (entry_ne_fault ?_) fun _ _ =>
          bind_ne_error (require_ne_fault _) fun _ _ =>
          bind_ne_error (entry_ne_fault ?_) fun _ _ => require_ne_fault _
        · rwa [(wf _ _ def_eq).1.length, ← states]
        rwa [(wf _ _ base_eq).1.length]
      have inside := List.mem_range.mp mem
      refine bind_ne_error (entry_ne_fault ?_) fun _ _ =>
        bind_ne_error (require_ne_fault _) fun _ _ =>
        bind_ne_error (entry_ne_fault ?_) fun _ _ => require_ne_fault _
      · rwa [(wf _ _ nxt_eq).1.length]
      rwa [(wf _ _ chk_eq).1.length, ← trans]
    simp
  simp

/-- What `verify_dfa` has checked. -/
structure Verified (dfa : Dfa) (defTable base nxt chk : Table) : Prop where
  defTable_eq : dfa.tables .dflt = some defTable
  base_eq : dfa.tables .base = some base
  nxt_eq : dfa.tables .nxt = some nxt
  chk_eq : dfa.tables .chk = some chk
  classes : ∀ ec ∈ dfa.tables .ec, ec.tdLolen = 256
  states : ∀ i < base.tdLolen, ∃ default value, entry defTable i = .ok default ∧
    default < base.tdLolen ∧ entry base i = .ok value ∧ baseIdx value + 255 < nxt.tdLolen
  trans : ∀ i < nxt.tdLolen, ∃ next check, entry nxt i = .ok next ∧ next < base.tdLolen ∧
    entry chk i = .ok check

theorem verifyDfa_ok (verify : verifyStates flags = true) (ran : verifyDfa dfa flags = .ok ()) :
    ∃ defTable base nxt chk, Verified dfa defTable base nxt chk := by
  rw [verifyDfa] at ran
  split at ran
  · next defTable base nxt chk def_eq base_eq nxt_eq chk_eq =>
    simp only [bind_eq_ok, require_eq_ok, verify, if_true, forM_eq_ok, List.mem_range, verifyState,
      verifyTrans] at ran
    obtain ⟨_, -, _, -, _, -, _, -, _, classes, _, states, trans⟩ := ran
    refine ⟨defTable, base, nxt, chk, def_eq, base_eq, nxt_eq, chk_eq, classes, fun i inside => ?_,
      fun i inside => ?_⟩
    · obtain ⟨default, default_eq, _, small, value, value_eq, below⟩ := states i inside
      exact ⟨default, value, default_eq, small, value_eq, below⟩
    obtain ⟨next, next_eq, _, small, check, check_eq, -⟩ := trans i inside
    exact ⟨next, check, next_eq, small, check_eq⟩
  cases ran

/-- The number of states. -/
def stateCount (dfa : Dfa) : Nat :=
  match dfa.tables .base with
  | some base => base.tdLolen
  | none => 0

section

variable (verified : Verified dfa defTable base nxt chk) (wf : WellFormedAll dfa.tables)
include verified

theorem Verified.stateCount_eq : stateCount dfa = base.tdLolen := by
  rw [stateCount, verified.base_eq]

include wf

theorem Verified.equiv (c : UInt8) : ∃ class_, equiv dfa c = .ok class_ ∧ class_ ≤ 255 := by
  have byte : c.toNat < 256 := UInt8.toNat_lt c
  rw [Apparmor.equiv]
  cases found : dfa.tables .ec with
  | none => exact ⟨c.toNat, rfl, by omega⟩
  | some ec => ?_
  obtain ⟨good, width⟩ := wf .ec ec found
  have inside : c.toNat < ec.tdData.length := by
    rw [good.length, verified.classes ec found]
    exact byte
  have value := good.values _ (List.getElem_mem inside)
  rw [width rfl, yytdData8] at value
  exact ⟨ec.tdData[c.toNat], entry_eq inside, by omega⟩

/-- One character leads from a state to a state. -/
theorem Verified.advance (inside : state < stateCount dfa) (c : UInt8) :
    ∃ next, advance dfa state c = .ok next ∧ next < stateCount dfa := by
  rw [verified.stateCount_eq] at inside ⊢
  obtain ⟨default, start, default_eq, default_lt, start_eq, start_lt⟩ :=
    verified.states state inside
  obtain ⟨class_, class_eq, class_le⟩ := verified.equiv wf c
  obtain ⟨next, owner, next_eq, next_lt, owner_eq⟩ :=
    verified.trans (baseIdx start + class_) (by omega)
  simp only [Apparmor.advance, tableOf, verified.defTable_eq, verified.base_eq, verified.nxt_eq,
    verified.chk_eq, start_eq, class_eq, owner_eq, bind, Except.bind]
  split
  · exact ⟨next, next_eq, next_lt⟩
  exact ⟨default, default_eq, default_lt⟩

section

variable (inside : state < stateCount dfa) (str : List UInt8)
include inside str

theorem Verified.matchLen :
    ∃ next, aaDfaMatchLen dfa state str = .ok next ∧ next < stateCount dfa := by
  rw [aaDfaMatchLen]
  split
  · exact ⟨0, rfl, by omega⟩
  rename_i ne
  clear ne
  induction str generalizing state with
  | nil => exact ⟨state, rfl, inside⟩
  | cons c str ih => ?_
  obtain ⟨next, ran, inside'⟩ := verified.advance wf inside c
  rw [List.foldlM_cons, ran]
  exact ih inside'

theorem Verified.matchLoop :
    ∃ next, matchLoop dfa state str = .ok next ∧ next < stateCount dfa := by
  induction str generalizing state with
  | nil => exact ⟨state, rfl, inside⟩
  | cons c str ih => ?_
  rw [Apparmor.matchLoop]
  split
  · exact ⟨state, rfl, inside⟩
  obtain ⟨next, ran, inside'⟩ := verified.advance wf inside c
  rw [ran]
  exact ih inside'

theorem Verified.matchStr :
    ∃ next, aaDfaMatch dfa state str = .ok next ∧ next < stateCount dfa := by
  rw [aaDfaMatch]
  split
  · exact ⟨0, rfl, by omega⟩
  exact verified.matchLoop wf inside str

end

end

/-- The states that a caller may start from. -/
inductive Returned (dfa : Dfa) : Nat → Prop where
  | start : Returned dfa dfaStart
  | matched {state next : Nat} {str : List UInt8} (before : Returned dfa state)
      (ran : aaDfaMatch dfa state str = .ok next) : Returned dfa next
  | matchedLen {state next : Nat} {str : List UInt8} (before : Returned dfa state)
      (ran : aaDfaMatchLen dfa state str = .ok next) : Returned dfa next
  | stepped {state next : Nat} {c : UInt8} (before : Returned dfa state)
      (ran : aaDfaNext dfa state c = .ok next) : Returned dfa next

/-- No access of a match is outside of the tables, and what it returns is a state. -/
def Safe (dfa : Dfa) : Prop :=
  ∀ state, Returned dfa state →
    (∀ str, ∃ next, aaDfaMatch dfa state str = .ok next ∧ next < stateCount dfa) ∧
    (∀ str, ∃ next, aaDfaMatchLen dfa state str = .ok next ∧ next < stateCount dfa) ∧
    ∀ c, ∃ next, aaDfaNext dfa state c = .ok next ∧ next < stateCount dfa

theorem Verified.returned (verified : Verified dfa defTable base nxt chk)
    (wf : WellFormedAll dfa.tables) (two : 2 ≤ stateCount dfa) (returned : Returned dfa state) :
    state < stateCount dfa := by
  induction returned with
  | start => exact two
  | matched before ran ih =>
    obtain ⟨next, ran', inside⟩ := verified.matchStr wf ih _
    rw [ran] at ran'
    cases ran'
    exact inside
  | matchedLen before ran ih =>
    obtain ⟨next, ran', inside⟩ := verified.matchLen wf ih _
    rw [ran] at ran'
    cases ran'
    exact inside
  | stepped before ran ih => ?_
  obtain ⟨next, ran', inside⟩ := verified.advance wf ih _
  rw [aaDfaNext, ran'] at ran
  cases ran
  exact inside

/-- Verified tables are safe for matches from `DFA_START` when that is one of their states. -/
theorem Verified.safe_iff (verified : Verified dfa defTable base nxt chk)
    (wf : WellFormedAll dfa.tables) : Safe dfa ↔ 2 ≤ stateCount dfa := by
  constructor
  · intro safe
    obtain ⟨next, ran, inside⟩ := (safe dfaStart .start).1 []
    cases ran
    exact inside
  intro two state returned
  have inside := verified.returned wf two returned
  exact ⟨verified.matchStr wf inside, verified.matchLen wf inside, verified.advance wf inside⟩

theorem unpackHeader_ne_fault (env : Env) (blob : List UInt8) :
    unpackHeader env blob ≠ .error .fault := by
  rw [unpackHeader]
  split
  · simp
  split
  · simp
  rename_i header
  rw [tableSetHeaderSize] at header
  rw [readBe_eq (by omega), readBe_eq (by omega), readBe_eq (by omega)]
  simp only [bind, Except.bind]
  split
  · simp
  split <;> simp [pure, Except.pure]

/-- The size of a table does not wrap with 64 bits. -/
theorem not_wraps_of_64 (bits : env.sizeBits = 64) (copied : Copied env blob offset) :
    ¬Wraps env blob offset := by
  have header := copied.header
  rw [tableHeaderSize] at header
  have len : tdLolenAt blob offset < 256 ^ 4 := beAt_lt (by omega)
  have width : tdFlagsAt blob offset ≤ 4 := by
    rcases copied.flags with eq | eq | eq <;> rw [eq] <;> decide
  have product : tdLolenAt blob offset * tdFlagsAt blob offset ≤ 256 ^ 4 * 4 :=
    Nat.mul_le_mul len.le width
  rw [Wraps, bits, tableHeaderSize]
  omega

theorem aaDfaUnpack_ne_fault (wide : 8 ≤ 2 ^ env.sizeBits) :
    aaDfaUnpack env blob flags ≠ .error .fault ↔
      ∀ hsize dfaFlags, unpackHeader env blob = .ok (hsize, dfaFlags) →
        NeverWraps env blob flags hsize fun _ => none := by
  have none_yet : WellFormedAll fun _ => none := fun id table found => by cases found
  rw [aaDfaUnpack]
  cases header : unpackHeader env blob with
  | error stop =>
    have other := unpackHeader_ne_fault env blob
    rw [header] at other
    refine iff_of_true ?_ fun hsize dfaFlags same => by cases same
    exact fun same => other (congrArg Except.error (Except.error.inj same))
  | ok out => ?_
  obtain ⟨hsize, dfaFlags⟩ := out
  have loop :=
    unpackTables_fault wide flags none_yet (by omega : blob.length - hsize < blob.length + 1)
  constructor
  · intro whole hsize' dfaFlags' same
    cases same
    refine loop.mp fun fault => whole ?_
    simp only [bind, Except.bind, fault]
  intro never
  refine bind_ne_error (by simp) fun _ same => ?_
  cases same
  refine bind_ne_error (loop.mpr (never hsize dfaFlags rfl)) fun tables ran => ?_
  have checked : verifyDfa ⟨dfaFlags, tables⟩ flags ≠ .error .fault :=
    verifyDfa_ne_fault (unpackTables_ok wide none_yet ran) flags
  exact bind_ne_error checked fun _ _ => by simp [pure, Except.pure]

/-- What is accepted is verified. -/
theorem aaDfaUnpack_ok (wide : 8 ≤ 2 ^ env.sizeBits) (verify : verifyStates flags = true)
    (ran : aaDfaUnpack env blob flags = .ok dfa) :
    WellFormedAll dfa.tables ∧ ∃ defTable base nxt chk, Verified dfa defTable base nxt chk := by
  obtain ⟨⟨hsize, dfaFlags⟩, -, rest⟩ := bind_eq_ok.mp ran
  obtain ⟨tables, unpacked, rest⟩ := bind_eq_ok.mp rest
  obtain ⟨_, checked, last⟩ := bind_eq_ok.mp rest
  cases last
  exact ⟨unpackTables_ok wide (fun id table found => by cases found) unpacked,
    verifyDfa_ok verify checked⟩

/-- The first table of the blob is one of the tables. -/
theorem aaDfaUnpack_first (ran : aaDfaUnpack env blob flags = .ok dfa)
    (header : unpackHeader env blob = .ok (hsize, dfaFlags)) (more : blob.length - hsize ≠ 0) :
    ∃ next later, unpackNext env blob flags hsize (fun _ => none) = .ok (next, later) ∧
      ∀ id table, later id = some table → dfa.tables id = some table := by
  obtain ⟨_, header', rest⟩ := bind_eq_ok.mp ran
  cases header.symm.trans header'
  obtain ⟨tables, unpacked, rest⟩ := bind_eq_ok.mp rest
  obtain ⟨_, -, last⟩ := bind_eq_ok.mp rest
  cases last
  rw [unpackTables, if_neg more] at unpacked
  obtain ⟨⟨next, later⟩, round, others⟩ := bind_eq_ok.mp unpacked
  exact ⟨next, later, round, fun id table found => unpackTables_keeps others found⟩

/-- Unpacking is inside of the blob and the tables, and so are matches with what is accepted, if no
size of a table wraps (as it may with 32 bits) and `DFA_START` is a state. -/
theorem dfa_stays_in_tables (env : Env) (bits : env.sizeBits = 32 ∨ env.sizeBits = 64)
    (blob : List UInt8) (flags : Nat) (verify : verifyStates flags = true) :
    (aaDfaUnpack env blob flags ≠ .error .fault ∧
        ∀ dfa, aaDfaUnpack env blob flags = .ok dfa → Safe dfa) ↔
      (env.sizeBits = 32 →
          ∀ hsize dfaFlags, unpackHeader env blob = .ok (hsize, dfaFlags) →
            NeverWraps env blob flags hsize fun _ => none) ∧
        ∀ dfa, aaDfaUnpack env blob flags = .ok dfa → 2 ≤ stateCount dfa := by
  have wide : 8 ≤ 2 ^ env.sizeBits := by rcases bits with eq | eq <;> rw [eq] <;> decide
  refine and_congr ?_ (forall_congr' fun dfa => forall_congr' fun ran => ?_)
  · rw [aaDfaUnpack_ne_fault wide]
    constructor
    · exact fun never _ => never
    intro never hsize dfaFlags header
    rcases bits with small | large
    · exact never small hsize dfaFlags header
    exact fun _ _ _ _ _ both => not_wraps_of_64 large both.1 both.2
  obtain ⟨wellFormed, defTable, base, nxt, chk, verified⟩ := aaDfaUnpack_ok wide verify ran
  exact verified.safe_iff wellFormed

/-- Memory is always there. -/
def plenty (sizeBits : Nat) : Env := ⟨sizeBits, true, fun _ => true⟩

def setHeader : List UInt8 := [0x1B, 0x5E, 0x78, 0x3D, 0, 0, 0, 16, 0, 0, 0, 0, 0, 0, 0, 0]

/-- The header of a table with fewer than 2 ^ 16 elements, and zeros after it. -/
def zeroTable (tdId tdFlags : UInt8) (high low : UInt8) (bytes : Nat) : List UInt8 :=
  [0, tdId, 0, tdFlags, 0, 0, 0, 0, 0, 0, high, low] ++ List.replicate bytes 0

/-- Tables with two states, and transitions to state 0 only. -/
def twoStates : List UInt8 :=
  setHeader ++ zeroTable 2 4 0 2 12 ++ zeroTable 4 2 0 2 4 ++ zeroTable 8 2 1 0 516 ++
    zeroTable 3 2 1 0 516

theorem dfa_stays_in_tables_two :
    ∃ dfa, aaDfaUnpack (plenty 64) twoStates 0x1000 = .ok dfa ∧ Safe dfa := by
  have accepted : (aaDfaUnpack (plenty 64) twoStates 0x1000).isOk = true := by decide +kernel
  have safe := ((dfa_stays_in_tables (plenty 64) (.inr rfl) twoStates 0x1000 (by decide)).mpr
    ⟨fun small => absurd small (by decide), fun dfa ran => ?_⟩).2
  · cases ran : aaDfaUnpack (plenty 64) twoStates 0x1000 with
    | error stop =>
      rw [ran] at accepted
      cases accepted
    | ok dfa => exact ⟨dfa, rfl, safe dfa ran⟩
  have header : unpackHeader (plenty 64) twoStates = .ok (16, 0) := by decide +kernel
  have first : (unpackNext (plenty 64) twoStates 0x1000 16 fun _ => none).map
        (fun result => result.2 .base) = .ok (some ⟨1, 4, 2, [0, 0]⟩) := by
    decide +kernel
  have more : twoStates.length - 16 ≠ 0 := by decide +kernel
  obtain ⟨next, later, round, kept⟩ := aaDfaUnpack_first ran header more
  rw [round] at first
  rw [stateCount, kept .base _ (Except.ok.inj first)]

/-- Tables without a state. -/
def noStates : List UInt8 :=
  setHeader ++ zeroTable 2 4 0 0 4 ++ zeroTable 4 2 0 0 4 ++ zeroTable 8 2 0 0 4 ++
    zeroTable 3 2 0 0 4

/-- A table with 2 ^ 30 elements of four bytes. -/
def hugeTable : List UInt8 := setHeader ++ [0, 2, 0, 4, 0, 0, 0, 0, 0x40, 0, 0, 0, 0, 0, 0, 0]

/-- Tables without states are accepted, and the first match reads outside of them. With 32 bits, the
size of a huge table wraps to 16 bytes, and unpacking it leaves the blob and the table. -/
theorem no_states_out_of_tables :
    (aaDfaUnpack (plenty 64) noStates 0x1000 >>= fun dfa => aaDfaMatch dfa dfaStart [97]) =
        .error .fault ∧ (aaDfaUnpack (plenty 64) noStates 0x1000).map stateCount = .ok 0 ∧
      aaDfaUnpack (plenty 32) hugeTable 0x1000 = .error .fault := by
  refine ⟨by decide +kernel, by decide +kernel, ?_⟩
  have stopped : (aaDfaUnpack (plenty 32) hugeTable 0x1000).map stateCount = .error .fault := by
    decide +kernel
  cases ran : aaDfaUnpack (plenty 32) hugeTable 0x1000 with
  | error stop =>
    rw [ran] at stopped
    exact congrArg Except.error (Except.error.inj stopped)
  | ok dfa => ?_
  rw [ran] at stopped
  cases stopped

end TinyKernel.Apparmor
