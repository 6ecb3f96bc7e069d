import TinyKernel.Lib.Bytes

/-! The log buffer of `kernel/printk/printk.c`, a ring of records of different lengths. Indices are
offsets into `log_buf`; what lies behind it in memory has offsets from `log_buf_len` on. -/

namespace TinyKernel.Printk

open Lib

def logAlign : Nat := 4

def logLineMax : Nat := 1024 - 32

/-- `sizeof(struct printk_log)`. -/
def headerSize : Nat := 16

def ascii (chars : List Char) : List UInt8 := chars.map fun char => UInt8.ofNat char.toNat

def truncMsg : List UInt8 := ascii ['<', 't', 'r', 'u', 'n', 'c', 'a', 't', 'e', 'd', '>']

/-- What is fixed when the kernel is built: `CONFIG_PRINTK_MT_PREFIX` and the order of bytes. -/
structure Build where
  mtPrefix : Bool
  bigEndian : Bool

/-- What `CONFIG_PRINTK_MT_PREFIX` puts before the text. -/
structure Caller where
  state : UInt8
  consoleSuspended : Bool
  cpu : Nat
  cpu_lt : cpu < 2 ^ 32
  pid : Nat
  pid_lt : pid < 2 ^ 31
  comm : List UInt8
  comm_length : comm.length < 16

/-- The arguments of `log_store`, and the clock. -/
structure Call where
  facility : Int
  level : Int
  flags : Nat
  tsNsec : UInt64
  localClock : UInt64
  dict : List UInt8
  dict_length : dict.length < 2 ^ 16
  text : List UInt8
  text_length : text.length ≤ logLineMax
  caller : Caller

/-- The digits that `%x` and `%d` print. -/
def printedDigits (base number : Nat) : List UInt8 :=
  if number = 0 then ascii ['0']
  else
    (Nat.digits base number).reverse.map fun digit => UInt8.ofNat
      (if digit < 10 then 48 + digit else 87 + digit)

/-- `tbuf`, of `tlen` bytes. -/
def tbuf (caller : Caller) : List UInt8 :=
  let state := if caller.state = 0 then 32 else caller.state
  if caller.consoleSuspended then [state] ++ printedDigits 16 caller.cpu ++ ascii [')']
  else [state] ++ ascii ['('] ++ printedDigits 16 caller.cpu ++ ascii [')', '['] ++
    printedDigits 10 caller.pid ++ ascii [':'] ++ caller.comm ++ ascii [']']

/-- The buffer and the global variables that say what is in it. -/
structure Log where
  buf : Memory
  bufLen : Nat
  firstSeq : Nat
  firstIdx : Nat
  nextSeq : Nat
  nextIdx : Nat

section

variable (build : Build) (memory : Memory) (msg : Nat)

def field (offset width : Nat) : Nat := decode build.bigEndian (memory.read (msg + offset) width)

/-- `flags` and `level` share a byte. -/
def packFlags (flags level : Nat) : Nat :=
  if build.bigEndian then 8 * flags + level else flags + 32 * level

def unpackFlags (byte : Nat) : Nat := if build.bigEndian then byte / 8 else byte % 32

def unpackLevel (byte : Nat) : Nat := if build.bigEndian then byte % 8 else byte / 32

def msgLen : Nat := field build memory msg 8 2

def msgTextLen : Nat := field build memory msg 10 2

def msgDictLen : Nat := field build memory msg 12 2

def logText : Nat := msg + headerSize

def logDict : Nat := msg + headerSize + msgTextLen build memory msg

/-- A record as its readers see it. -/
structure Record where
  tsNsec : Nat
  len : Nat
  facility : Nat
  flags : Nat
  level : Nat
  text : List UInt8
  dict : List UInt8
  deriving DecidableEq

def readRecord : Record where
  tsNsec := field build memory msg 0 8
  len := msgLen build memory msg
  facility := field build memory msg 14 1
  flags := unpackFlags build (field build memory msg 15 1)
  level := unpackLevel build (field build memory msg 15 1)
  text := memory.read (logText msg) (msgTextLen build memory msg)
  dict := memory.read (logDict build memory msg) (msgDictLen build memory msg)

end

section

variable (build : Build) (log : Log)

def logFromIdx (idx : Nat) : Nat := if msgLen build log.buf idx = 0 then 0 else idx

def logNext (idx : Nat) : Nat :=
  if msgLen build log.buf idx = 0 then msgLen build log.buf 0 else idx + msgLen build log.buf idx

def logbufHasSpace (msgSize : Nat) (empty : Bool) : Bool :=
  let free :=
    if log.nextIdx > log.firstIdx ∨ empty then max (log.bufLen - log.nextIdx) log.firstIdx
    else log.firstIdx - log.nextIdx
  decide (free ≥ msgSize + headerSize)

/-- The loop of `log_make_free_space`, with the number of records as the bound; false is
`-ENOMEM`. -/
def makeFree (msgSize : Nat) : Nat → Log → Log × Bool
  | 0, log => (log, logbufHasSpace log msgSize true)
  | records + 1, log =>
    if logbufHasSpace log msgSize false then (log, true)
    else makeFree msgSize records
      { log with firstIdx := logNext build log log.firstIdx, firstSeq := log.firstSeq + 1 }

def logMakeFreeSpace (msgSize : Nat) : Log × Bool :=
  makeFree build msgSize (log.nextSeq - log.firstSeq) log

/-- The size and the padding in it. -/
def msgUsedSize (textLen dictLen : Nat) : Nat × Nat :=
  let size := headerSize + textLen + dictLen
  let padLen := (2 ^ 32 - size) % logAlign
  (size + padLen, padLen)

/-- The lengths that a record gets. -/
structure Lengths where
  text : Nat
  truncMsg : Nat
  dict : Nat
  pad : Nat
  size : Nat

def maxLogTakePart : Nat := 4

def truncateMsg (textLen : Nat) : Lengths :=
  let maxTextLen := log.bufLen / maxLogTakePart
  let textLen := if textLen > maxTextLen then maxTextLen else textLen
  let (size, padLen) := msgUsedSize (textLen + truncMsg.length) 0
  ⟨textLen, truncMsg.length, 0, padLen, size⟩

end

/-- The memory with the places and the lengths of what was written to it. -/
structure Buffer where
  memory : Memory
  writes : List (Nat × Nat)

def Buffer.write (buffer : Buffer) (start : Nat) (bytes : List UInt8) : Buffer :=
  ⟨buffer.memory.write start bytes, buffer.writes ++ [(start, bytes.length)]⟩

section

variable (build : Build)

def Buffer.setField (buffer : Buffer) (msg offset width value : Nat) : Buffer :=
  buffer.write (msg + offset) (encode build.bigEndian width value)

/-- The text, with `text_len` as it is after. -/
def copyText (buffer : Buffer) (msg : Nat) (call : Call) (textLen : Nat) : Buffer × Nat :=
  if build.mtPrefix then
    let tlen := (tbuf call.caller).length
    let buffer := buffer.write (logText msg) (tbuf call.caller)
    let textLen := if tlen + textLen > logLineMax then logLineMax - tlen else textLen
    (buffer.write (logText msg + tlen) (call.text.take textLen), textLen + tlen)
  else (buffer.write (logText msg) (call.text.take textLen), textLen)

def setTextLen (buffer : Buffer) (msg textLen truncMsgLen : Nat) : Buffer :=
  let buffer := buffer.setField build msg 10 2 textLen
  if truncMsgLen ≠ 0 then
    let buffer := buffer.write (logText msg + textLen) (truncMsg.take truncMsgLen)
    buffer.setField build msg 10 2 (msgTextLen build buffer.memory msg + truncMsgLen)
  else buffer

def fillRest (buffer : Buffer) (msg : Nat) (call : Call) (lengths : Lengths) : Buffer :=
  let buffer := buffer.write (logDict build buffer.memory msg) (call.dict.take lengths.dict)
  let buffer := buffer.setField build msg 12 2 lengths.dict
  let buffer := buffer.setField build msg 14 1 (call.facility % 256).toNat
  let buffer :=
    buffer.setField build msg 15 1 (packFlags build (call.flags % 32) (call.level % 8).toNat)
  let buffer :=
    buffer.setField build msg 0 8 (if call.tsNsec > 0 then call.tsNsec else call.localClock).toNat
  let buffer :=
    buffer.write (logDict build buffer.memory msg + lengths.dict) (List.replicate lengths.pad 0)
  buffer.setField build msg 8 2 lengths.size

/-- The record and an empty header do not fit at the end of the buffer. -/
def Log.wraps (log : Log) (size : Nat) : Bool := log.nextIdx + size + headerSize > log.bufLen

/-- Where a record goes. -/
def Log.slot (log : Log) (size : Nat) : Nat := if log.wraps size then 0 else log.nextIdx

/-- `log_store` once there is space: the log after it, and what was written. -/
def insertRecord (log : Log) (call : Call) (lengths : Lengths) : Log × List (Nat × Nat) :=
  let buffer : Buffer := ⟨log.buf, []⟩
  let buffer :=
    if log.wraps lengths.size then buffer.write log.nextIdx (List.replicate headerSize 0)
    else buffer
  let msg := log.slot lengths.size
  let (buffer, textLen) := copyText build buffer msg call lengths.text
  let buffer := setTextLen build buffer msg textLen lengths.truncMsg
  let buffer := fillRest build buffer msg call lengths
  ({ log with
      buf := buffer.memory
      nextIdx := msg + msgLen build buffer.memory msg
      nextSeq := log.nextSeq + 1 }, buffer.writes)

def tlen (call : Call) : Nat := if build.mtPrefix then (tbuf call.caller).length else 0

def logStore (log : Log) (call : Call) : Log × List (Nat × Nat) :=
  let (size, padLen) := msgUsedSize (call.text.length + tlen build call) call.dict.length
  match logMakeFreeSpace build log size with
  | (log, true) => insertRecord build log call ⟨call.text.length, 0, call.dict.length, padLen, size⟩
  | (log, false) =>
    let lengths := truncateMsg log call.text.length
    match logMakeFreeSpace build log lengths.size with
    | (log, true) => insertRecord build log call lengths
    | (log, false) => (log, [])

end

section

variable (build : Build) (log : Log)

/-- The records that are found from an index on, and the index after them. -/
def visit : Nat → Nat → List Record × Nat
  | 0, idx => ([], idx)
  | count + 1, idx =>
    let (records, last) := visit count (logNext build log idx)
    (readRecord build log.buf (logFromIdx build log idx) :: records, last)

def run (log : Log) (calls : List Call) : Log :=
  calls.foldl (fun log call => (logStore build log call).1) log

def Log.init (memory : Memory) (bufLen : Nat) : Log := ⟨memory, bufLen, 0, 0, 0, 0⟩

end

end TinyKernel.Printk
