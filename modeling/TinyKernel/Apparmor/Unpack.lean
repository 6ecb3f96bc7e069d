import TinyKernel.Apparmor.Code

/-! When unpacking stays inside the blob and its tables, and what the tables are then. -/

namespace TinyKernel.Apparmor

open Lib
open Nat hiding le_add_right

variable {env : Env} {blob : List UInt8} {offset : Nat}

theorem readBe_eq (inside : offset + width ≤ blob.length) :
    readBe blob offset width = .ok (beAt blob offset width) := if_pos inside

theorem beAt_lt (inside : offset + width ≤ blob.length) : beAt blob offset width < 256 ^ width := by
  have bound := decode_lt true ((blob.drop offset).take width)
  have length : ((blob.drop offset).take width).length = width := by
    rw [List.length_take, List.length_drop]
    omega
  rwa [length] at bound

section

variable {start tsize width i count : Nat}

theorem unpackArray_spec (inside : start + (i + count) * width ≤ blob.length)
    (room : tableHeaderSize + (i + count) * width ≤ tsize) :
    ∃ data, unpackArray blob start tsize width i count = .ok data ∧ data.length = count ∧
      ∀ value ∈ data, value < 256 ^ width := by
  induction count generalizing i with
  | zero => exact ⟨[], rfl, rfl, fun value mem => absurd mem List.not_mem_nil⟩
  | succ count ih => ?_
  have split : i + (count + 1) = i + 1 + count := by omega
  rw [split] at inside room
  obtain ⟨data, ran, length, values⟩ := ih inside room
  have first : (i + 1) * width ≤ (i + 1 + count) * width :=
    Nat.mul_le_mul_right width (Nat.le_add_right ..)
  have next : (i + 1) * width = i * width + width := succ_mul i width
  have here : start + i * width + width ≤ blob.length := by omega
  refine ⟨beAt blob (start + i * width) width :: data, ?_, by rw [List.length_cons, length], ?_⟩
  · rw [unpackArray, readBe_eq here]
    simp only [bind, Except.bind]
    rw [if_neg (by omega), ran]
    rfl
  intro value mem
  rcases List.mem_cons.mp mem with rfl | later
  · exact beAt_lt here
  exact values value later

/-- An array that is too large for its table is written past its end, if the blob is not read past
its end before. -/
theorem unpackArray_fault (before : tableHeaderSize + i * width ≤ tsize)
    (small : tsize < tableHeaderSize + (i + count) * width) :
    unpackArray blob start tsize width i count = .error .fault := by
  induction count generalizing i with
  | zero => exact absurd before (not_le.mpr small)
  | succ count ih => ?_
  rw [unpackArray, readBe]
  split
  · simp only [bind, Except.bind]
    split
    · rfl
    rename_i enough
    rw [ih (by omega) (by rwa [add_right_comm, add_assoc])]
  rfl

end

section

variable (env : Env) (blob : List UInt8) (offset : Nat)

def tdIdAt : Nat := tdIdOf (beAt blob offset 2)

def tdFlagsAt : Nat := beAt blob (offset + 2) 2

def tdLolenAt : Nat := beAt blob (offset + 8) 4

/-- `unpack_table` comes to copy the table at an offset. -/
structure Copied : Prop where
  header : tableHeaderSize ≤ blob.length - offset
  id : tdIdAt blob offset ≤ yytdIdMax
  flags : tdFlagsAt blob offset = yytdData16 ∨ tdFlagsAt blob offset = yytdData32 ∨
    tdFlagsAt blob offset = yytdData8
  size : tableSize env (tdLolenAt blob offset) (tdFlagsAt blob offset) ≤ blob.length - offset
  allocated : env.allocTable offset = true

/-- The size of the table wraps. -/
def Wraps : Prop :=
  2 ^ env.sizeBits ≤ tableHeaderSize + tdLolenAt blob offset * tdFlagsAt blob offset + 7

end

theorem unpackTable_copied (copied : Copied env blob offset) :
    unpackTable env blob offset =
      if tableSize env (tdLolenAt blob offset) (tdFlagsAt blob offset) < tableHeaderSize then
        .error .fault
      else do
        let data ← unpackArray blob (offset + tableHeaderSize)
          (tableSize env (tdLolenAt blob offset) (tdFlagsAt blob offset)) (tdFlagsAt blob offset) 0
          (tdLolenAt blob offset)
        return some ⟨tdIdAt blob offset, tdFlagsAt blob offset, tdLolenAt blob offset, data⟩ := by
  have header := copied.header
  have size := copied.size
  rw [tableHeaderSize] at header
  rw [unpackTable, if_neg (not_lt.mpr copied.header), readBe_eq (by omega), readBe_eq (by omega),
    readBe_eq (by omega)]
  simp only [bind, Except.bind]
  rw [← tdIdAt, ← tdFlagsAt, ← tdLolenAt, if_neg (not_lt.mpr copied.id),
    if_neg (not_not.mpr copied.flags), if_neg (not_lt.mpr size),
    if_neg (not_not.mpr copied.allocated)]

theorem unpackTable_refused (refused : ¬Copied env blob offset) :
    unpackTable env blob offset = .ok none := by
  rw [unpackTable]
  split
  · rfl
  rename_i header
  rw [tableHeaderSize] at header
  rw [readBe_eq (by omega), readBe_eq (by omega), readBe_eq (by omega)]
  simp only [bind, Except.bind]
  rw [← tdIdAt, ← tdFlagsAt, ← tdLolenAt]
  split
  · rfl
  split
  · rfl
  rename_i flags
  split
  · rfl
  rename_i size
  split
  · rfl
  rename_i allocated
  exact absurd
    ⟨by rw [tableHeaderSize]; omega, by omega, not_not.mp flags, by omega, not_not.mp allocated⟩
    refused

/-- All elements are there, and each is of the table's width. -/
structure Table.WellFormed (table : Table) : Prop where
  length : table.tdData.length = table.tdLolen
  values : ∀ value ∈ table.tdData, value < 256 ^ table.tdFlags

section

variable {len elSize : Nat}

theorem tableSize_of_lt (fits : tableHeaderSize + len * elSize + 7 < 2 ^ env.sizeBits) :
    tableHeaderSize + len * elSize ≤ tableSize env len elSize := by
  rw [tableSize, mod_eq_of_lt fits]
  omega

variable (wide : 8 ≤ 2 ^ env.sizeBits)
include wide

theorem tableSize_of_wraps (wraps : 2 ^ env.sizeBits ≤ tableHeaderSize + len * elSize + 7) :
    tableSize env len elSize < tableHeaderSize + len * elSize := by
  have below : (tableHeaderSize + len * elSize + 7) % 2 ^ env.sizeBits ≤
      tableHeaderSize + len * elSize + 7 - 2 ^ env.sizeBits := by
    rw [mod_eq_sub_mod wraps]
    exact mod_le ..
  rw [tableSize]
  omega

theorem unpackTable_fault (copied : Copied env blob offset) (wraps : Wraps env blob offset) :
    unpackTable env blob offset = .error .fault := by
  have small := tableSize_of_wraps wide wraps
  rw [unpackTable_copied copied]
  split
  · rfl
  rename_i header
  rw [unpackArray_fault (by omega) (by rwa [zero_add])]
  rfl

omit wide in
theorem unpackTable_ok (copied : Copied env blob offset) (fits : ¬Wraps env blob offset) :
    ∃ data, unpackTable env blob offset =
        .ok (some ⟨tdIdAt blob offset, tdFlagsAt blob offset, tdLolenAt blob offset, data⟩) ∧
      Table.WellFormed ⟨tdIdAt blob offset, tdFlagsAt blob offset, tdLolenAt blob offset,
        data⟩ := by
  have large := tableSize_of_lt (not_le.mp fits)
  have size := copied.size
  have header_size : tableHeaderSize = 12 := rfl
  have inside : offset + tableHeaderSize + (0 + tdLolenAt blob offset) * tdFlagsAt blob offset ≤
      blob.length := by
    rw [zero_add]
    omega
  have room : tableHeaderSize + (0 + tdLolenAt blob offset) * tdFlagsAt blob offset ≤
      tableSize env (tdLolenAt blob offset) (tdFlagsAt blob offset) := by
    rwa [zero_add]
  obtain ⟨data, ran, length, values⟩ := unpackArray_spec inside room
  refine ⟨data, ?_, length, values⟩
  rw [unpackTable_copied copied, if_neg (by omega), ran]
  rfl

end

/-- What the loop has unpacked so far. -/
def WellFormedAll (tables : TableId → Option Table) : Prop :=
  ∀ id table, tables id = some table → table.WellFormed ∧ (id = .ec → table.tdFlags = yytdData8)

section

variable {flags : Nat} {tables tables' : TableId → Option Table} {next : Nat}
    (wide : 8 ≤ 2 ^ env.sizeBits)
include wide

theorem unpackNext_fault :
    unpackNext env blob flags offset tables = .error .fault ↔
      Copied env blob offset ∧ Wraps env blob offset := by
  by_cases copied : Copied env blob offset
  · by_cases wraps : Wraps env blob offset
    · rw [unpackNext, unpackTable_fault wide copied wraps]
      exact iff_of_true rfl ⟨copied, wraps⟩
    obtain ⟨data, ran, -⟩ := unpackTable_ok copied wraps
    refine iff_of_false ?_ fun both => wraps both.2
    rw [unpackNext, ran]
    simp only [bind, Except.bind]
    split
    · simp
    split <;> simp
  rw [unpackNext, unpackTable_refused copied]
  exact iff_of_false (by simp [bind, Except.bind]) fun both => copied both.1

theorem unpackNext_ok (ran : unpackNext env blob flags offset tables = .ok (next, tables'))
    (wf : WellFormedAll tables) : WellFormedAll tables' ∧ offset < next ∧ next ≤ blob.length := by
  have copied : Copied env blob offset := by
    by_contra refused
    rw [unpackNext, unpackTable_refused refused] at ran
    cases ran
  have fits : ¬Wraps env blob offset := by
    intro wraps
    rw [(unpackNext_fault wide).mpr ⟨copied, wraps⟩] at ran
    cases ran
  have large := tableSize_of_lt (not_le.mp fits)
  have size := copied.size
  have header := copied.header
  obtain ⟨data, unpacked, good⟩ := unpackTable_ok copied fits
  rw [unpackNext, unpacked] at ran
  simp only [bind, Except.bind] at ran
  split at ran
  · cases ran
  rename_i id _
  split at ran
  · cases ran
  rename_i accepted
  obtain ⟨rfl, rfl⟩ := Prod.mk.inj (Except.ok.inj ran)
  refine ⟨fun id' table found => ?_, by rw [tableHeaderSize] at large; omega, by
    rw [tableHeaderSize] at header
    omega⟩
  by_cases same : id' = id
  · subst same
    rw [Function.update_self] at found
    obtain rfl := Option.some.inj found
    refine ⟨good, fun is_ec => ?_⟩
    subst is_ec
    by_contra other
    exact accepted (.inl (by simpa [flagsAccepted] using other))
  rw [Function.update_of_ne same] at found
  exact wf id' table found

end

section

variable (env : Env) (blob : List UInt8) (flags : Nat)

/-- Where the loop is after some rounds. -/
def afterRounds : Nat → Nat → (TableId → Option Table) → Option (Nat × (TableId → Option Table))
  | 0, offset, tables => some (offset, tables)
  | rounds + 1, offset, tables =>
    if blob.length - offset = 0 then none
    else match unpackNext env blob flags offset tables with
      | .ok (offset, tables) => afterRounds rounds offset tables
      | .error _ => none

/-- No table that the loop comes to copy has a size that wraps. -/
def NeverWraps (offset : Nat) (tables : TableId → Option Table) : Prop :=
  ∀ rounds next later, afterRounds env blob flags rounds offset tables = some (next, later) →
    blob.length - next ≠ 0 → ¬(Copied env blob next ∧ Wraps env blob next)

end

theorem unpackTables_fault (wide : 8 ≤ 2 ^ env.sizeBits) (flags : Nat) (wf : WellFormedAll tables)
    (enough : blob.length - offset < fuel) :
    unpackTables env blob flags fuel offset tables ≠ .error .fault ↔
      NeverWraps env blob flags offset tables := by
  induction fuel generalizing offset tables with
  | zero => exact absurd enough (not_lt_zero _)
  | succ fuel ih => ?_
  rw [unpackTables]
  by_cases done : blob.length - offset = 0
  · rw [if_pos done]
    refine iff_of_true (by simp) fun rounds next later found more => ?_
    cases rounds with
    | zero =>
      cases found
      exact absurd done more
    | succ rounds => ?_
    rw [afterRounds, if_pos done] at found
    cases found
  rw [if_neg done]
  -- the first round, and then all that follow it
  have split : NeverWraps env blob flags offset tables ↔
      ¬(Copied env blob offset ∧ Wraps env blob offset) ∧
        ∀ next later, unpackNext env blob flags offset tables = .ok (next, later) →
          NeverWraps env blob flags next later := by
    constructor
    · intro never
      refine ⟨never 0 offset tables rfl done, fun next later ran rounds next' later' found => ?_⟩
      refine never (rounds + 1) next' later' ?_
      rw [afterRounds, if_neg done, ran]
      exact found
    rintro ⟨first, rest⟩ rounds next later found
    cases rounds with
    | zero =>
      cases found
      exact fun _ => first
    | succ rounds => ?_
    rw [afterRounds, if_neg done] at found
    split at found
    · next offset' tables' ran => exact rest offset' tables' ran rounds next later found
    cases found
  rw [split]
  cases ran : unpackNext env blob flags offset tables with
  | error stop =>
    have same : unpackNext env blob flags offset tables = .error .fault ↔ stop = .fault := by
      rw [ran]
      exact ⟨fun eq => Except.error.inj eq, fun eq => by rw [eq]⟩
    rw [← unpackNext_fault wide, same]
    simp [bind, Except.bind]
  | ok out => ?_
  obtain ⟨next, later⟩ := out
  obtain ⟨wellFormed', forward, inside⟩ := unpackNext_ok wide ran wf
  have unwrapped : ¬(Copied env blob offset ∧ Wraps env blob offset) := by
    rw [← unpackNext_fault wide, ran]
    simp
  have rest := ih wellFormed' (by omega : blob.length - next < fuel)
  simp only [bind, Except.bind]
  rw [rest]
  constructor
  · intro never
    refine ⟨unwrapped, fun next' later' same => ?_⟩
    cases same
    exact never
  exact fun both => both.2 next later rfl

theorem unpackTables_ok (wide : 8 ≤ 2 ^ env.sizeBits) (wf : WellFormedAll tables)
    (ran : unpackTables env blob flags fuel offset tables = .ok tables') :
    WellFormedAll tables' := by
  induction fuel generalizing offset tables with
  | zero => cases ran
  | succ fuel ih => ?_
  rw [unpackTables] at ran
  split at ran
  · cases ran
    exact wf
  obtain ⟨⟨next, later⟩, first, rest⟩ := bind_eq_ok.mp ran
  exact ih (unpackNext_ok wide first wf).1 rest

/-- A table that was unpacked stays. -/
theorem unpackTables_keeps {id : TableId} {table : Table}
    (ran : unpackTables env blob flags fuel offset tables = .ok tables')
    (found : tables id = some table) : tables' id = some table := by
  induction fuel generalizing offset tables with
  | zero => cases ran
  | succ fuel ih => ?_
  rw [unpackTables] at ran
  split at ran
  · cases ran
    exact found
  obtain ⟨⟨next, later⟩, first, rest⟩ := bind_eq_ok.mp ran
  refine ih rest ?_
  obtain ⟨unpacked, -, accepted⟩ := bind_eq_ok.mp first
  split at accepted
  · cases accepted
  split at accepted
  · cases accepted
  split at accepted
  · cases accepted
  rename_i free
  obtain ⟨-, rfl⟩ := Prod.mk.inj (Except.ok.inj accepted)
  rw [Function.update_of_ne, found]
  rintro rfl
  exact free (.inr (by rw [found]; rfl))

end TinyKernel.Apparmor
