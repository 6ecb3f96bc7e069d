import TinyKernel.Lib.Bytes
import TinyKernel.Lib.Results

/-! The tables of `security/apparmor/match.c`: how a blob is unpacked and verified, and how a match
goes through them. -/

namespace TinyKernel.Apparmor

open Lib

/-- Why there is no result: an access outside of the blob or of a table, or an error that is
returned. -/
inductive Stop where
  | fault
  | enomem
  | eproto
  deriving DecidableEq

/-- The tables that are used. -/
inductive TableId where
  | accept
  | base
  | chk
  | dflt
  | ec
  | accept2
  | nxt
  deriving DecidableEq

def TableId.ofTdId : Nat → Option TableId
  | 0 => some .accept
  | 1 => some .base
  | 2 => some .chk
  | 3 => some .dflt
  | 4 => some .ec
  | 6 => some .accept2
  | 7 => some .nxt
  | _ => none

def yytdIdMax : Nat := 8

def yytdData8 : Nat := 1

def yytdData16 : Nat := 2

def yytdData32 : Nat := 4

def yythMagic : Nat := 0x1B5E783D

def accept1Flags (flags : Nat) : Nat := flags % 64

def accept2Flags (flags : Nat) : Nat := accept1Flags (flags / 64)

def verifyStates (flags : Nat) : Bool := flags.testBit 12

def dfaStart : Nat := 1

/-- `sizeof(struct table_header)`. -/
def tableHeaderSize : Nat := 12

/-- `sizeof(struct table_set_header)`. -/
def tableSetHeaderSize : Nat := 16

structure Table where
  tdId : Nat
  tdFlags : Nat
  tdLolen : Nat
  tdData : List Nat
  deriving DecidableEq

structure Dfa where
  flags : Nat
  tables : TableId → Option Table

/-- The width of `size_t`, and which allocations succeed; that of a table is named by where it is in
the blob. -/
structure Env where
  sizeBits : Nat
  allocDfa : Bool
  allocTable : Nat → Bool

section

variable (env : Env) (blob : List UInt8)

/-- A number in network order. -/
def beAt (offset width : Nat) : Nat := decode true ((blob.drop offset).take width)

def readBe (offset width : Nat) : Except Stop Nat :=
  if offset + width ≤ blob.length then .ok (beAt blob offset width) else .error .fault

def tableSize (len elSize : Nat) : Nat :=
  (tableHeaderSize + len * elSize + 7) % 2 ^ env.sizeBits / 8 * 8

/-- `UNPACK_ARRAY` from an element on, into a table of `tsize` bytes. -/
def unpackArray (start tsize width : Nat) : Nat → Nat → Except Stop (List Nat)
  | _, 0 => .ok []
  | i, count + 1 => do
    let value ← readBe blob (start + i * width) width
    if tsize < tableHeaderSize + (i + 1) * width then .error .fault
    else do
      let rest ← unpackArray start tsize width (i + 1) count
      return value :: rest

/-- The ids of loaded tables start at 1; one less, as a `u16`. -/
def tdIdOf : Nat → Nat
  | 0 => 65535
  | id + 1 => id

/-- `unpack_table` at an offset of the blob; none is a null pointer. -/
def unpackTable (offset : Nat) : Except Stop (Option Table) :=
  let bsize := blob.length - offset
  if bsize < tableHeaderSize then .ok none
  else do
    let id ← readBe blob offset 2
    let tdId := tdIdOf id
    if tdId > yytdIdMax then .ok none
    else do
      let tdFlags ← readBe blob (offset + 2) 2
      let tdLolen ← readBe blob (offset + 8) 4
      if ¬(tdFlags = yytdData16 ∨ tdFlags = yytdData32 ∨ tdFlags = yytdData8) then .ok none
      else
        let tsize := tableSize env tdLolen tdFlags
        if bsize < tsize then .ok none
        else if ¬env.allocTable offset then .ok none
        else if tsize < tableHeaderSize then .error .fault
        else do
          let tdData ← unpackArray blob (offset + tableHeaderSize) tsize tdFlags 0 tdLolen
          return some ⟨tdId, tdFlags, tdLolen, tdData⟩

/-- The `switch` over a table's id: whether its flags are those that the id asks for. -/
def flagsAccepted (flags tdFlags : Nat) : TableId → Bool
  | .accept => tdFlags &&& accept1Flags flags ≠ 0
  | .accept2 => tdFlags &&& accept2Flags flags ≠ 0
  | .base => tdFlags = yytdData32
  | .dflt => tdFlags = yytdData16
  | .nxt => tdFlags = yytdData16
  | .chk => tdFlags = yytdData16
  | .ec => tdFlags = yytdData8

/-- One round of the loop: where the next table is, and the tables so far. -/
def unpackNext (flags offset : Nat) (tables : TableId → Option Table) :
    Except Stop (Nat × (TableId → Option Table)) := do
  match ← unpackTable env blob offset with
  | none => .error .eproto
  | some table =>
    match TableId.ofTdId table.tdId with
    | none => .error .eproto
    | some id =>
      if flagsAccepted flags table.tdFlags id = false ∨ (tables id).isSome then .error .eproto
      else
        .ok (offset +
          tableSize env table.tdLolen table.tdFlags, Function.update tables id (some table))

/-- The loop, with a bound on its rounds. -/
def unpackTables (flags : Nat) :
    Nat → Nat → (TableId → Option Table) → Except Stop (TableId → Option Table)
  | 0, _, _ => .error .fault
  | fuel + 1, offset, tables =>
    if blob.length - offset = 0 then .ok tables
    else do
      let (offset, tables) ← unpackNext env blob flags offset tables
      unpackTables flags fuel offset tables

/-- The value of an `int` as a `size_t`. -/
def toSizeT (value : Nat) : Nat :=
  if value < 2 ^ 31 then value else 2 ^ env.sizeBits - 2 ^ 32 + value

/-- The header of the blob: its size, and the flags of the tables. -/
def unpackHeader : Except Stop (Nat × Nat) :=
  if ¬env.allocDfa then .error .enomem
  else if blob.length < tableSetHeaderSize then .error .eproto
  else do
    let magic ← readBe blob 0 4
    if magic ≠ yythMagic then .error .eproto
    else do
      let hsize ← readBe blob 4 4
      if blob.length < toSizeT env hsize then .error .eproto
      else do
        let dfaFlags ← readBe blob 12 2
        return (toSizeT env hsize, dfaFlags)

end

/-- An element of a table. -/
def entry (table : Table) (i : Nat) : Except Stop Nat :=
  match table.tdData[i]? with
  | some value => .ok value
  | none => .error .fault

def baseIdx (value : Nat) : Nat := value % 2 ^ 24

/-- `goto out` unless a condition holds. -/
def require (condition : Prop) [Decidable condition] : Except Stop Unit :=
  if condition then .ok () else .error .eproto

def acceptCovers (flags stateCount : Nat) (table : Option Table) : Bool :=
  flags = 0 || match table with
    | none => false
    | some accept => stateCount = accept.tdLolen

def verifyState (defTable base : Table) (stateCount transCount i : Nat) : Except Stop Unit := do
  let default ← entry defTable i
  require (default < stateCount)
  let value ← entry base i
  require (baseIdx value + 255 < transCount)

def verifyTrans (nxt chk : Table) (stateCount i : Nat) : Except Stop Unit := do
  let next ← entry nxt i
  require (next < stateCount)
  let check ← entry chk i
  require (check < stateCount)

def verifyDfa (dfa : Dfa) (flags : Nat) : Except Stop Unit :=
  match dfa.tables .dflt, dfa.tables .base, dfa.tables .nxt, dfa.tables .chk with
  | some defTable, some base, some nxt, some chk => do
    let stateCount := base.tdLolen
    require (acceptCovers (accept1Flags flags) stateCount (dfa.tables .accept))
    require (acceptCovers (accept2Flags flags) stateCount (dfa.tables .accept2))
    require (stateCount = defTable.tdLolen)
    let transCount := nxt.tdLolen
    require (transCount = chk.tdLolen)
    require (∀ ec ∈ dfa.tables .ec, ec.tdLolen = 256)
    if verifyStates flags then do
      (List.range stateCount).forM (verifyState defTable base stateCount transCount)
      (List.range transCount).forM (verifyTrans nxt chk stateCount)
    else .ok ()
  | _, _, _, _ => .error .eproto

def aaDfaUnpack (env : Env) (blob : List UInt8) (flags : Nat) : Except Stop Dfa := do
  let (hsize, dfaFlags) ← unpackHeader env blob
  let tables ← unpackTables env blob flags (blob.length + 1) hsize fun _ => none
  verifyDfa ⟨dfaFlags, tables⟩ flags
  return ⟨dfaFlags, tables⟩

section

variable (dfa : Dfa)

/-- A table that is used without a test for null. -/
def tableOf (id : TableId) : Except Stop Table :=
  match dfa.tables id with
  | some table => .ok table
  | none => .error .fault

/-- The class of a character. -/
def equiv (c : UInt8) : Except Stop Nat :=
  match dfa.tables .ec with
  | some ec => entry ec c.toNat
  | none => .ok c.toNat

/-- From a state to the next one. -/
def advance (state : Nat) (c : UInt8) : Except Stop Nat := do
  let defTable ← tableOf dfa .dflt
  let base ← tableOf dfa .base
  let next ← tableOf dfa .nxt
  let check ← tableOf dfa .chk
  let start ← entry base state
  let class_ ← equiv dfa c
  let pos := baseIdx start + class_
  let owner ← entry check pos
  if owner = state then entry next pos else entry defTable state

/-- `aa_dfa_match_len` with all of `str`. -/
def aaDfaMatchLen (start : Nat) (str : List UInt8) : Except Stop Nat :=
  if start = 0 then .ok 0 else str.foldlM (advance dfa) start

/-- The loop of `aa_dfa_match`, up to a null byte. -/
def matchLoop : Nat → List UInt8 → Except Stop Nat
  | state, [] => .ok state
  | state, c :: str =>
    if c = 0 then .ok state
    else do
      let state ← advance dfa state c
      matchLoop state str

def aaDfaMatch (start : Nat) (str : List UInt8) : Except Stop Nat :=
  if start = 0 then .ok 0 else matchLoop dfa start str

def aaDfaNext (state : Nat) (c : UInt8) : Except Stop Nat := advance dfa state c

end

end TinyKernel.Apparmor
