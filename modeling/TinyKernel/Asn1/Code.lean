import Mathlib.Tactic

/-! The ASN.1 BER decoder of `lib/asn1_decoder.c` as a machine that takes one operation of the
bytecode, or one element inside an element of indefinite length, at a time. -/

namespace TinyKernel.Asn1

abbrev Byte := BitVec 8

/-- One more than the largest `size_t`. -/
def word : Nat := 2 ^ 64

def plus (a b : Nat) : Nat := (a + b) % word

/-- The difference of two values of type `size_t`, which wraps around below zero. -/
def minus (a b : Nat) : Nat := if b ≤ a then a - b else a + word - b

/-- `asn1_op_lengths` -/
def opLength (op : Byte) : Nat :=
  match op.toNat with
  | 0x00 | 0x01 => 2
  | 0x02 | 0x03 => 3
  | 0x04 | 0x05 => 3
  | 0x08 => 1
  | 0x0a => 2
  | 0x11 => 2
  | 0x13 => 3
  | 0x15 => 3
  | 0x18 => 1
  | 0x1a => 2
  | 0x1b | 0x1c => 1
  | 0x1d => 2
  | 0x1e => 1
  | 0x20 | 0x21 => 1
  | 0x22 | 0x23 => 2
  | 0x24 | 0x25 => 2
  | 0x26 | 0x27 => 3
  | _ => 0

/-- `op <= ASN1_OP__MATCHES_TAG` -/
def matchesTag (op : Byte) : Bool := op ≤ 0x1a

/-- `ASN1_OP_MATCH__SKIP` -/
def matchSkip (op : Byte) : Bool := op &&& 0x01 ≠ 0

/-- `ASN1_OP_MATCH__ANY` -/
def matchAny (op : Byte) : Bool := op &&& 0x08 ≠ 0

/-- `ASN1_OP_MATCH__COND` -/
def matchCond (op : Byte) : Bool := op &&& 0x10 ≠ 0

/-- `ASN1_OP_END__OF` -/
def endOf (op : Byte) : Bool := op &&& 0x02 ≠ 0

/-- `ASN1_OP_END__ACT` -/
def endAct (op : Byte) : Bool := op &&& 0x04 ≠ 0

/-- The groups of cases of the `switch` over the opcode. -/
inductive Case where
  | matchAnyAct
  | matchAct
  | plain
  | matchJump
  | condFail
  | complete
  | endSet
  | endOther
  | act
  | ret
  | reserved
  deriving DecidableEq, Repr

def caseOf (op : Byte) : Case :=
  match op.toNat with
  | 0x0a | 0x1a => .matchAnyAct
  | 0x02 | 0x03 | 0x13 => .matchAct
  | 0x00 | 0x01 | 0x08 | 0x11 | 0x18 => .plain
  | 0x04 | 0x05 | 0x15 => .matchJump
  | 0x1b => .condFail
  | 0x1c => .complete
  | 0x21 | 0x25 => .endSet
  | 0x20 | 0x22 | 0x23 | 0x24 | 0x26 | 0x27 => .endOther
  | 0x1d => .act
  | 0x1e => .ret
  | _ => .reserved

/-- `ASN1_CONS_BIT` -/
def consBit (tag : Byte) : Bool := tag &&& 0x20 ≠ 0

/-- `ASN1_LONG_TAG` -/
def longTag (tag : Byte) : Bool := tag &&& 0x1f = 0x1f

/-- `ASN1_INDEFINITE_LENGTH` -/
def indefiniteLength : Nat := 0x80

/-- Whether a tag of the data is the one that the operation wants. -/
def tagMatches (op optag tag : Byte) : Bool :=
  matchAny op || ((optag ^^^ tag) &&& ~~~(optag &&& 0x20)) = 0

/-- `for (len = 0; n > 0; n--)`, from the length so far. -/
def readLength (data : Nat → Byte) : Nat → Nat → Nat → Nat
  | 0, _, len => len
  | n + 1, dp, len => readLength data n (dp + 1) ((len <<< 8) % word ||| (data dp).toNat)

/-- What the length bytes say. -/
structure Length where
  hdr : Nat
  dp : Nat
  len : Nat
  indefinite : Bool

/-- The part of the decoder from `len = data[dp++]` on, with the indices that it reads. -/
def length (data : Nat → Byte) (tag : Byte) (dp datalen : Nat) : List Nat × Option Length :=
  let len := (data dp).toNat
  let start := dp
  let dp := dp + 1
  if len > 0x7f then
    if len = indefiniteLength then
      if !consBit tag then ([start], none)
      else if 2 > minus datalen dp then ([start], none)
      else ([start], some ⟨2, dp, len, true⟩)
    else
      let n := len - 0x80
      if n > 2 then ([start], none)
      else if dp ≥ minus datalen n then ([start], none)
      else
        let len := readLength data n dp 0
        let reads := start :: List.range' dp n
        let dp := dp + n
        if len > minus datalen dp then (reads, none)
        else (reads, some ⟨2 + n, dp, len, false⟩)
  else ([start], some ⟨2, dp, len, false⟩)

inductive Header where
  | fail
  | skip (tag : Byte)
  | element (tag : Byte) (cons : Bool) (length : Length)

/-- The part of the decoder that takes a tag and a length from the data. -/
def header (data : Nat → Byte) (op optag : Byte) (dp datalen : Nat) : List Nat × Header :=
  if dp ≥ minus datalen 1 then ([], .fail)
  else
    let tag := data dp
    if longTag tag then ([dp], .fail)
    else if !tagMatches op optag tag then ([dp], if matchSkip op then .skip tag else .fail)
    else
      let (reads, found) := length data tag (dp + 1) datalen
      match found with
      | none => (dp :: reads, .fail)
      | some found => (dp :: reads, .element tag (!matchAny op && consBit optag) found)

/-- An entry of `cons_dp_stack`, `cons_datalen_stack` and `cons_hdrlen_stack`. -/
structure Cons where
  dp : Nat
  datalen : Nat
  hdrlen : Nat
  deriving DecidableEq, Repr

/-- The variables of `asn1_find_indefinite_length` besides `dp`: where it started, `indef_level`,
the tag, and whether it is between the bytes of a long tag. -/
structure Scan where
  start : Nat
  indefLevel : Nat
  tag : Byte
  inTag : Bool
  deriving DecidableEq, Repr

/-- The variables of `asn1_ber_decoder`, both stacks with their top first. While it is inside of
`asn1_find_indefinite_length`, `scan` and `dp` are the variables of that function. -/
structure State where
  pc : Nat
  dp : Nat
  datalen : Nat
  tdp : Nat
  len : Nat
  hdr : Nat
  tag : Byte
  matched : Bool
  cons : List Cons
  jumps : List Nat
  scan : Option Scan
  deriving DecidableEq, Repr

/-- The arguments of one call of an action. -/
structure Call where
  action : Nat
  hdr : Nat
  tag : Byte
  value : Nat
  len : Nat
  deriving DecidableEq, Repr

inductive Next where
  | goOn (s : State)
  | stop (ret : Int)
  deriving DecidableEq, Repr

/-- What one step reads from the data, which action it calls and how it goes on. -/
structure Effect where
  reads : List Nat
  calls : List Call
  next : Next
  deriving DecidableEq, Repr

/-- `-EBADMSG` -/
def ebadmsg : Int := -74

def nrConsStack : Nat := 10

def nrJumpStack : Nat := 10

/-- The decoder definition, and the memory that starts at `data`. -/
structure Input where
  machine : List Byte
  data : Nat → Byte

def Input.code (input : Input) (pc : Nat) : Byte := input.machine.getD pc 0

inductive ScanNext where
  | fail
  | found (dp : Nat)
  | goOn (dp : Nat) (scan : Scan)

/-- From `len = data[dp++]` to `goto next_tag`. -/
def scanLength (data : Nat → Byte) (datalen dp : Nat) (scan : Scan) : List Nat × ScanNext :=
  let len := (data dp).toNat
  let start := dp
  let dp := dp + 1
  let scan := { scan with inTag := false }
  if len ≤ 0x7f then ([start], .goOn (plus dp len) scan)
  else if len = indefiniteLength then
    if !consBit scan.tag then ([start], .fail)
    else ([start], .goOn dp { scan with indefLevel := scan.indefLevel + 1 })
  else
    let n := len - 0x80
    if n > 7 then ([start], .fail)
    else if n > minus datalen dp then ([start], .fail)
    else
      let len := readLength data n dp 0
      (start :: List.range' dp n, .goOn (plus (dp + n) len) scan)

/-- The next part of `asn1_find_indefinite_length`: a byte of a long tag, or from `next_tag` on. -/
def scanStep (data : Nat → Byte) (datalen dp : Nat) (scan : Scan) : List Nat × ScanNext :=
  if minus datalen dp < 2 then ([], .fail)
  else if scan.inTag then
    if data dp &&& 0x80 ≠ 0 then ([dp], .goOn (dp + 1) scan)
    else
      let (reads, next) := scanLength data datalen (dp + 1) scan
      (dp :: reads, next)
  else
    let tag := data dp
    if tag = 0 then
      if data (dp + 1) ≠ 0 then ([dp, dp + 1], .fail)
      else if scan.indefLevel ≤ 1 then ([dp, dp + 1], .found (dp + 2))
      else ([dp, dp + 1], .goOn (dp + 2) { scan with indefLevel := scan.indefLevel - 1 })
    else if longTag tag then ([dp], .goOn (dp + 1) { scan with tag, inTag := true })
    else
      let (reads, next) := scanLength data datalen (dp + 1) { scan with tag }
      (dp :: reads, next)

section

variable (input : Input)

/-- `skip_data` -/
def skipData (s : State) (op : Byte) (cons indefinite : Bool) : State :=
  if cons then { s with pc := s.pc + opLength op }
  else if indefinite then { s with scan := some ⟨s.dp, 1, 0, false⟩ }
  else { s with dp := plus s.dp s.len, pc := s.pc + opLength op }

/-- The variables after the header of an element, with the ends of an expected compound form
stacked. -/
def enter (s : State) (tag : Byte) (cons : Bool) (length : Length) : State :=
  let s := { s with
    tag, matched := true, hdr := length.hdr, dp := length.dp, len := length.len, tdp := length.dp }
  if !cons then s
  else if length.indefinite then
    { s with cons := ⟨length.dp % 2 ^ 16, 0, length.hdr⟩ :: s.cons }
  else
    { s with
      cons := ⟨length.dp % 2 ^ 16, s.datalen % 2 ^ 16, length.hdr⟩ :: s.cons
      datalen := plus length.dp length.len }

/-- An operation on an element whose header has been read; `ret` is what an action returns. -/
def dispatch (ret : Int) (s : State) (op : Byte) (cons indefinite : Bool) (reads : List Nat) :
    Effect :=
  let call (action : Byte) : Effect :=
    ⟨reads, [⟨action.toNat, s.hdr, s.tag, s.dp, s.len⟩],
      if ret < 0 then .stop ret else .goOn (skipData s op cons indefinite)⟩
  match caseOf op with
  | .matchAnyAct => call (input.code (s.pc + 1))
  | .matchAct => call (input.code (s.pc + 2))
  | .plain => ⟨reads, [], .goOn (skipData s op cons indefinite)⟩
  | .matchJump =>
    if s.jumps.length = nrJumpStack then ⟨reads, [], .stop ebadmsg⟩
    else ⟨reads, [], .goOn { s with
      jumps := (s.pc + opLength op) % 2 ^ 8 :: s.jumps, pc := (input.code (s.pc + 2)).toNat }⟩
  | _ => ⟨reads, [], .stop ebadmsg⟩

/-- Whether an operation that matches a tag is passed over without a look at the data. -/
def passedOver (s : State) (op : Byte) : Bool :=
  (matchCond op && s.matched) || (matchSkip op && s.dp = s.datalen)

def matchOp (ret : Int) (s : State) (op : Byte) : Effect :=
  if passedOver s op then ⟨[], [], .goOn { s with pc := s.pc + opLength op }⟩
  else
    let (reads, found) := header input.data op (input.code (s.pc + 1)) s.dp s.datalen
    match found with
    | .fail => ⟨reads, [], .stop ebadmsg⟩
    | .skip tag =>
      ⟨reads, [], .goOn { s with pc := s.pc + opLength op, tag, hdr := 2, matched := false }⟩
    | .element tag cons length =>
      if cons ∧ s.cons.length ≥ nrConsStack then ⟨reads, [], .stop ebadmsg⟩
      else dispatch input ret (enter s tag cons length) op cons length.indefinite reads

/-- The end of the operations that end a compound form, with the form already unstacked. -/
def endDone (s : State) (op : Byte) (reads : List Nat) : Effect :=
  let action := if endOf op then input.code (s.pc + 2) else input.code (s.pc + 1)
  let calls := if endAct op then [⟨action.toNat, s.hdr, 0, s.tdp, s.len⟩] else []
  ⟨reads, calls, .goOn { s with pc := s.pc + opLength op }⟩

def endOp (s : State) (op : Byte) : Effect :=
  match s.cons with
  | [] => ⟨[], [], .stop ebadmsg⟩
  | top :: rest =>
    -- `csp` is put back and `len` left as it is when the operation starts the form over
    let again : State := { s with
      tdp := top.dp, hdr := top.hdrlen, len := s.datalen, pc := (input.code (s.pc + 1)).toNat }
    let ended : State := { s with cons := rest, tdp := top.dp, hdr := top.hdrlen }
    if top.datalen = 0 then
      if minus s.datalen s.dp < 2 then ⟨[], [], .stop ebadmsg⟩
      else if input.data s.dp ≠ 0 then
        ⟨[s.dp], [], if endOf op then .goOn again else .stop ebadmsg⟩
      else if input.data (s.dp + 1) ≠ 0 then ⟨[s.dp, s.dp + 1], [], .stop ebadmsg⟩
      else
        endDone input { ended with dp := s.dp + 2, len := minus (minus (s.dp + 2) top.dp) 2 } op
          [s.dp, s.dp + 1]
    else if s.dp < s.datalen ∧ endOf op then ⟨[], [], .goOn again⟩
    else if s.dp ≠ s.datalen then ⟨[], [], .stop ebadmsg⟩
    else endDone input { ended with datalen := top.datalen, len := minus s.datalen top.dp } op []

/-- The `switch` for the operations that match no tag. -/
def otherOp (s : State) (op : Byte) : Effect :=
  let forward : State := { s with pc := s.pc + opLength op }
  match caseOf op with
  | .condFail => if !s.matched then ⟨[], [], .stop ebadmsg⟩ else ⟨[], [], .goOn forward⟩
  | .complete =>
    if s.jumps ≠ [] ∨ s.cons ≠ [] then ⟨[], [], .stop ebadmsg⟩ else ⟨[], [], .stop 0⟩
  | .endSet => if !s.matched then ⟨[], [], .stop ebadmsg⟩ else endOp input s op
  | .endOther => endOp input s op
  | .act =>
    ⟨[], [⟨(input.code (s.pc + 1)).toNat, s.hdr, s.tag, s.tdp, s.len⟩], .goOn forward⟩
  | .ret =>
    match s.jumps with
    | [] => ⟨[], [], .stop ebadmsg⟩
    | pc :: jumps => ⟨[], [], .goOn { s with pc, jumps }⟩
  | _ => ⟨[], [], .stop ebadmsg⟩

/-- From `next_op` to the next `goto next_op`. -/
def nextOp (ret : Int) (s : State) : Effect :=
  let op := input.code s.pc
  if s.pc ≥ input.machine.length then ⟨[], [], .stop ebadmsg⟩
  else if s.pc + opLength op > input.machine.length then ⟨[], [], .stop ebadmsg⟩
  else if matchesTag op then matchOp input ret s op
  else otherOp input s op

/-- A round of `asn1_find_indefinite_length`, which was called from `skip_data`. -/
def scanOp (s : State) (scan : Scan) : Effect :=
  let (reads, next) := scanStep input.data s.datalen s.dp scan
  match next with
  | .fail => ⟨reads, [], .stop ebadmsg⟩
  | .found dp => ⟨reads, [], .goOn { s with
      dp, len := minus dp scan.start, scan := none, pc := s.pc + opLength (input.code s.pc) }⟩
  | .goOn dp scan => ⟨reads, [], .goOn { s with dp, scan := some scan }⟩

def step (ret : Int) (s : State) : Effect :=
  match s.scan with
  | none => nextOp input ret s
  | some scan => scanOp input s scan

/-- The state at the first `next_op`, for a buffer of `datalen` bytes. -/
def start (datalen : Nat) : State := ⟨0, 0, datalen, 0, 0, 0, 0, false, [], [], none⟩

end

end TinyKernel.Asn1
