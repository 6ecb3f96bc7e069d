import Mathlib.Data.Nat.Bits
import TinyKernel.Lib.Circular

/-! The queues of `lib/kfifo.c`, with one caller of `__kfifo_in` and one of `__kfifo_out`. The
copies of both go byte by byte, and their steps come in any order. -/

namespace TinyKernel.Fifo

/-- `struct __kfifo`; `in` and `out` are `unsigned int`. -/
structure Kfifo where
  inIndex : Nat
  outIndex : Nat
  mask : Nat
  esize : Nat
  data : List UInt8
  deriving DecidableEq

def unsignedInt (n : Nat) : Nat := n % 2 ^ 32

def unsignedSub (a b : Nat) : Nat := (a + 2 ^ 32 - b) % 2 ^ 32

/-- `1UL << fls_long(n - 1)`, for a `long` of some number of bits. -/
def roundupPowOfTwo (bits n : Nat) : Nat := 2 ^ ((n + 2 ^ bits - 1) % 2 ^ bits).size % 2 ^ bits

inductive AllocError where
  | einval
  | enomem
  deriving DecidableEq

/-- `__kfifo_alloc`, with the memory that `kmalloc` finds, if any. -/
def kfifoAlloc (bits : Nat) (memory : Option (Nat → UInt8)) (size esize : Nat) :
    Except AllocError Kfifo :=
  let size := unsignedInt (roundupPowOfTwo bits size)
  if size < 2 then .error .einval
  else
    match memory with
    | none => .error .enomem
    | some memory => .ok
      { inIndex := 0
        outIndex := 0
        mask := size - 1
        esize := unsignedInt esize
        data := (List.range (size * esize % 2 ^ bits)).map memory }

/-- `__kfifo_init`. It sets the fields in any case; the error is for less than two elements. -/
def kfifoInit (bits : Nat) (buffer : List UInt8) (size esize : Nat) : Kfifo × Option AllocError :=
  let size := unsignedInt (roundupPowOfTwo bits (size / esize))
  let fifo (mask : Nat) : Kfifo :=
    { inIndex := 0, outIndex := 0, mask, esize := unsignedInt esize, data := buffer }
  if size < 2 then (fifo 0, some .einval) else (fifo (size - 1), none)

def kfifoUnused (fifo : Kfifo) : Nat :=
  unsignedSub (unsignedInt (fifo.mask + 1)) (unsignedSub fifo.inIndex fifo.outIndex)

/-- The two `memcpy` of `kfifo_copy_in` and `kfifo_copy_out`: `l` bytes at `off`, then up to `len`
bytes from the start of the buffer. -/
structure CopyRange where
  off : Nat
  l : Nat
  len : Nat
  deriving DecidableEq

def copyRange (mask esize len off : Nat) : CopyRange :=
  let size := unsignedInt (mask + 1)
  let off := off &&& mask
  if esize ≠ 1 then
    let off := unsignedInt (off * esize)
    let size := unsignedInt (size * esize)
    let len := unsignedInt (len * esize)
    ⟨off, min len (unsignedSub size off), len⟩
  else ⟨off, min len (unsignedSub size off), len⟩

/-- Where in the buffer a byte of the caller goes, or comes from. -/
def CopyRange.address (range : CopyRange) (i : Nat) : Nat :=
  if i < range.l then range.off + i else i - range.l

variable {esize : Nat}

abbrev Element (esize : Nat) : Type := Vector UInt8 esize

def bytes (elements : List (Element esize)) : List UInt8 := elements.flatMap Vector.toList

/-- A call of `__kfifo_in` before it moves `in`. -/
structure Putting (esize : Nat) where
  buf : List (Element esize)
  len : Nat
  range : CopyRange
  copied : Nat
  deriving DecidableEq

/-- A call of `__kfifo_out` before it moves `out`. -/
structure Taking where
  len : Nat
  range : CopyRange
  dst : List UInt8
  deriving DecidableEq

/-- The queue, both callers, all elements put in and all bytes taken out by calls that are done. -/
structure State (esize : Nat) where
  fifo : Kfifo
  producer : Option (Putting esize)
  consumer : Option Taking
  put : List (Element esize)
  taken : List UInt8
  deriving DecidableEq

def start (fifo : Kfifo) : State esize := ⟨fifo, none, none, [], []⟩

/-- What the callers do. One that is not in such a call does nothing. -/
inductive Event (esize : Nat) where
  | kfifoIn (buf : List (Element esize))
  | copyIn
  | addIn
  | kfifoOut (len : Nat)
  | copyOut
  | addOut

def store (data : List UInt8) (address : Nat) (byte : UInt8) : Option (List UInt8) :=
  if address < data.length then some (data.set address byte) else none

def copyIn (state : State esize) (putting : Putting esize) : Option (State esize) :=
  if putting.copied < putting.range.len then do
    let byte ← (bytes putting.buf)[putting.copied]?
    let data ← store state.fifo.data (putting.range.address putting.copied) byte
    return { state with
      fifo := { state.fifo with data }
      producer := some { putting with copied := putting.copied + 1 } }
  else some state

def addIn (state : State esize) (putting : Putting esize) : State esize :=
  if putting.copied < putting.range.len then state
  else
    { state with
      fifo := { state.fifo with inIndex := unsignedInt (state.fifo.inIndex + putting.len) }
      producer := none
      put := state.put ++ putting.buf.take putting.len }

def copyOut (state : State esize) (taking : Taking) : Option (State esize) :=
  if taking.dst.length < taking.range.len then do
    let byte ← state.fifo.data[taking.range.address taking.dst.length]?
    return { state with consumer := some { taking with dst := taking.dst ++ [byte] } }
  else some state

def addOut (state : State esize) (taking : Taking) : State esize :=
  if taking.dst.length < taking.range.len then state
  else
    { state with
      fifo := { state.fifo with outIndex := unsignedInt (state.fifo.outIndex + taking.len) }
      consumer := none
      taken := state.taken ++ taking.dst }

/-- One step; nothing if it reads or writes outside the buffers. -/
def step (state : State esize) : Event esize → Option (State esize)
  | .kfifoIn buf =>
    match state.producer with
    | some _ => some state
    | none =>
      let fifo := state.fifo
      let len := min (unsignedInt buf.length) (kfifoUnused fifo)
      let range := copyRange fifo.mask fifo.esize len fifo.inIndex
      some { state with producer := some ⟨buf, len, range, 0⟩ }
  | .copyIn => state.producer.elim (some state) (copyIn state)
  | .addIn => some (state.producer.elim state (addIn state))
  | .kfifoOut len =>
    match state.consumer with
    | some _ => some state
    | none =>
      let fifo := state.fifo
      let len := min (unsignedInt len) (unsignedSub fifo.inIndex fifo.outIndex)
      let range := copyRange fifo.mask fifo.esize len fifo.outIndex
      some { state with consumer := some ⟨len, range, []⟩ }
  | .copyOut => state.consumer.elim (some state) (copyOut state)
  | .addOut => some (state.consumer.elim state (addOut state))

def run (state : State esize) (events : List (Event esize)) : Option (State esize) :=
  events.foldlM step state

end TinyKernel.Fifo
