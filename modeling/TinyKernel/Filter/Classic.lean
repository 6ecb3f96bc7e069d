import Mathlib.Tactic.Common

/-! Classic socket filters and their check, `net/core/filter.c`. -/

namespace TinyKernel.Filter

/-- `struct sock_filter` -/
structure SockFilter where
  code : UInt16
  jt : UInt8
  jf : UInt8
  k : UInt32
  deriving DecidableEq, Repr

def bpfLd : UInt16 := 0x00
def bpfLdx : UInt16 := 0x01
def bpfSt : UInt16 := 0x02
def bpfStx : UInt16 := 0x03
def bpfAlu : UInt16 := 0x04
def bpfJmp : UInt16 := 0x05
def bpfRet : UInt16 := 0x06
def bpfMisc : UInt16 := 0x07

def bpfW : UInt16 := 0x00
def bpfH : UInt16 := 0x08
def bpfB : UInt16 := 0x10

def bpfImm : UInt16 := 0x00
def bpfAbs : UInt16 := 0x20
def bpfInd : UInt16 := 0x40
def bpfMem : UInt16 := 0x60
def bpfLen : UInt16 := 0x80
def bpfMsh : UInt16 := 0xa0

def bpfAdd : UInt16 := 0x00
def bpfSub : UInt16 := 0x10
def bpfMul : UInt16 := 0x20
def bpfDiv : UInt16 := 0x30
def bpfOr : UInt16 := 0x40
def bpfAnd : UInt16 := 0x50
def bpfLsh : UInt16 := 0x60
def bpfRsh : UInt16 := 0x70
def bpfNeg : UInt16 := 0x80
def bpfMod : UInt16 := 0x90
def bpfXor : UInt16 := 0xa0

def bpfJa : UInt16 := 0x00
def bpfJeq : UInt16 := 0x10
def bpfJgt : UInt16 := 0x20
def bpfJge : UInt16 := 0x30
def bpfJset : UInt16 := 0x40

def bpfK : UInt16 := 0x00
def bpfX : UInt16 := 0x08
def bpfA : UInt16 := 0x10

def bpfTax : UInt16 := 0x00
def bpfTxa : UInt16 := 0x80

/-- The cases of a `switch` with both sources. -/
def withSources (code : UInt16) : List UInt16 := [code ||| bpfK, code ||| bpfX]

def aluCodes : List UInt16 :=
  [bpfAdd, bpfSub, bpfMul, bpfDiv, bpfMod, bpfAnd, bpfOr, bpfXor, bpfLsh, bpfRsh].flatMap fun op =>
    withSources (bpfAlu ||| op)

def absCodes : List UInt16 :=
  [bpfLd ||| bpfW ||| bpfAbs, bpfLd ||| bpfH ||| bpfAbs, bpfLd ||| bpfB ||| bpfAbs]

def loadCodes : List UInt16 := [bpfLd ||| bpfMem, bpfLdx ||| bpfMem]

def storeCodes : List UInt16 := [bpfSt, bpfStx]

def retCodes : List UInt16 := [bpfRet ||| bpfK, bpfRet ||| bpfA]

def jaCode : UInt16 := bpfJmp ||| bpfJa

def condCodes : List UInt16 :=
  [bpfJeq, bpfJge, bpfJgt, bpfJset].flatMap fun op => withSources (bpfJmp ||| op)

/-- The table of `chk_code_allowed`. -/
def codes : List UInt16 :=
  aluCodes ++ [bpfAlu ||| bpfNeg] ++ absCodes ++
  [bpfLd ||| bpfW ||| bpfLen, bpfLd ||| bpfW ||| bpfInd, bpfLd ||| bpfH ||| bpfInd, bpfLd |||
    bpfB ||| bpfInd, bpfLd ||| bpfImm, bpfLdx ||| bpfW ||| bpfLen, bpfLdx ||| bpfB |||
    bpfMsh, bpfLdx ||| bpfImm] ++
  loadCodes ++ storeCodes ++ [bpfMisc ||| bpfTax, bpfMisc ||| bpfTxa] ++ retCodes ++ [jaCode] ++
    condCodes

def chkCodeAllowed (codeToProbe : UInt16) : Bool := codeToProbe ∈ codes

def bpfMaxinsns : Nat := 4096

def bpfMemwords : Nat := 16

/-- `SKF_AD_OFF` as an unsigned number. -/
def skfAdOff : UInt32 := 0xfffff000

/-- The offsets of the ancillary loads that `bpf_anc_helper` knows. -/
def ancillary : List UInt32 := [0, 4, 8, 12, 16, 20, 24, 28, 32, 36, 40, 44, 48, 52, 56]

/-- `bpf_anc_helper(ftest) & BPF_ANC`, for a load from a fixed offset. -/
def ancFound (ftest : SockFilter) : Bool := ftest.k ∈ ancillary.map (skfAdOff + ·)

/-- Why a filter is rejected; `outside` is an index behind the end of `masks`. -/
inductive Fault where
  | einval
  | enomem
  | outside (index : Nat)
  deriving DecidableEq

/-- The checks of one instruction in `bpf_check_classic`. -/
def checkCode (flen pc : Nat) (ftest : SockFilter) : Bool :=
  if !chkCodeAllowed ftest.code then false
  else if ftest.code ∈ [bpfAlu ||| bpfDiv ||| bpfK, bpfAlu ||| bpfMod ||| bpfK] then ftest.k ≠ 0
  else if ftest.code ∈ [bpfAlu ||| bpfLsh ||| bpfK, bpfAlu ||| bpfRsh ||| bpfK] then ftest.k < 32
  else if ftest.code ∈ loadCodes ++ storeCodes then ftest.k.toNat < bpfMemwords
  else if ftest.code = jaCode then ftest.k.toNat < flen - pc - 1
  else if ftest.code ∈ condCodes then pc + ftest.jt.toNat + 1 < flen ∧ pc + ftest.jf.toNat + 1 <
    flen
  else if ftest.code ∈ absCodes then ancFound ftest ∨ ftest.k < skfAdOff
  else true

/-- The loop of `bpf_check_classic`, from index `pc` on. -/
def checkCodes (flen : Nat) : Nat → List SockFilter → Bool
  | _, [] => true
  | pc, ftest :: rest => checkCode flen pc ftest && checkCodes flen (pc + 1) rest

/-- `masks[i] &= memvalid` -/
def andMask (masks : List (BitVec 16)) (i : Nat) (memvalid : BitVec 16) :
    Except Fault (List (BitVec 16)) :=
  match masks[i]? with
  | some mask => .ok (masks.set i (mask &&& memvalid))
  | none => .error (.outside i)

/-- `1 << k` -/
def cellBit (k : UInt32) : BitVec 16 := 1#16 <<< k.toNat

/-- The `switch` of `check_load_and_stores`. -/
def checkCell (pc : Nat) (f : SockFilter) (masks : List (BitVec 16)) (memvalid : BitVec 16) :
    Except Fault (List (BitVec 16) × BitVec 16) :=
  if f.code ∈ storeCodes then .ok (masks, memvalid ||| cellBit f.k)
  else if f.code ∈ loadCodes then
    if memvalid &&& cellBit f.k = 0 then .error .einval else .ok (masks, memvalid)
  else if f.code = jaCode then do
    let masks ← andMask masks (pc + 1 + f.k.toNat) memvalid
    return (masks, BitVec.allOnes 16)
  else if f.code ∈ condCodes then do
    let masks ← andMask masks (pc + 1 + f.jt.toNat) memvalid
    let masks ← andMask masks (pc + 1 + f.jf.toNat) memvalid
    return (masks, BitVec.allOnes 16)
  else .ok (masks, memvalid)

/-- The loop of `check_load_and_stores`, from index `pc` on. -/
def checkCells : Nat → List SockFilter → List (BitVec 16) → BitVec 16 → Except Fault Unit
  | _, [], _, _ => .ok ()
  | pc, f :: rest, masks, memvalid =>
    match masks[pc]? with
    | none => .error (.outside pc)
    | some mask => do
      let (masks, memvalid) ← checkCell pc f masks (memvalid &&& mask)
      checkCells (pc + 1) rest masks memvalid

/-- `check_load_and_stores`; `alloc` says whether there is memory for `masks`. -/
def checkLoadAndStores (filter : List SockFilter) (alloc : Bool) : Except Fault Unit :=
  if alloc then checkCells 0 filter (List.replicate filter.length (BitVec.allOnes 16)) 0
  else .error .enomem

def bpfCheckClassic (filter : List SockFilter) (alloc : Bool) : Except Fault Unit :=
  if filter.length = 0 ∨ filter.length > bpfMaxinsns then .error .einval
  else if !checkCodes filter.length 0 filter then .error .einval
  else match filter.getLast? with
    | some last => if last.code ∈ retCodes then checkLoadAndStores filter alloc else .error .einval
    | none => .error .einval

end TinyKernel.Filter
