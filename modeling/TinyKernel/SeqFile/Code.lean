import Mathlib.Tactic

/-! The sequential files of `fs/seq_file.c`. An iterator is the list of its elements: `start` at a
position gives the element there, or `NULL` behind the last one, and `next` the element at the next
position. -/

namespace TinyKernel.Seq

variable {α : Type}

/-- An element: what `show` writes for it, and whether it then returns `SEQ_SKIP`. -/
structure Element (α : Type) where
  text : List α
  skip : Bool
  deriving DecidableEq, Repr

/-- `struct seq_file`. The buffer is what has been written of it. -/
structure SeqFile (α : Type) where
  buf : Option (List α)
  size : Nat
  fromPos : Nat
  count : Nat
  index : Nat
  readPos : Nat
  deriving DecidableEq, Repr

def pageSize : Nat := 4096

/-- The file after `seq_open`. -/
def seqOpen : SeqFile α := ⟨none, 0, 0, 0, 0, 0⟩

def seqOverflow (m : SeqFile α) : Bool := m.count = m.size

/-- `show`: the text of the element, or a full buffer if it does not fit. -/
def showElement (m : SeqFile α) (p : Element α) : SeqFile α :=
  let before := (m.buf.getD []).take m.count
  if m.count + p.text.length < m.size then
    { m with buf := some (before ++ p.text), count := m.count + p.text.length }
  else { m with buf := some (before ++ p.text.take (m.size - m.count)), count := m.size }

/-- `seq_buf_alloc` of a buffer twice as large, after the old one was freed. -/
def enlarge (m : SeqFile α) : SeqFile α := { m with buf := some [], size := m.size * 2, count := 0 }

/-- The first buffer, if there is none. -/
def grabBuffer (m : SeqFile α) : SeqFile α :=
  if m.buf.isNone then { m with buf := some [], size := pageSize } else m

/-- The loop of `traverse` from an element on. It returns whether the buffer was too small. -/
def traverseLoop (offset : Nat) (m : SeqFile α) (index pos : Nat) :
    List (Element α) → Bool × SeqFile α
  | [] => (false, { m with index })
  | p :: next =>
    let m := showElement m p
    let m := if p.skip then { m with count := 0 } else m
    if seqOverflow m then (true, enlarge m)
    else if pos + m.count > offset then
      (false, { m with fromPos := offset - pos, count := m.count - (offset - pos), index })
    else
      let pos := pos + m.count
      let m := { m with count := 0 }
      if pos = offset then (false, { m with index := index + 1 })
      else traverseLoop offset m (index + 1) pos next

def traverse (elements : List (Element α)) (m : SeqFile α) (offset : Nat) : Bool × SeqFile α :=
  let m := { m with count := 0, fromPos := 0 }
  if offset = 0 then (false, { m with index := 0 })
  else traverseLoop offset (grabBuffer m) 0 0 elements

/-- `while ((err = traverse(m, *ppos)) == -EAGAIN)` -/
def traverseAll (elements : List (Element α)) (offset : Nat) :
    (fuel : Nat) → SeqFile α → Option (SeqFile α)
  | 0, _ => none
  | fuel + 1, m =>
    match traverse elements m offset with
    | (true, m) => traverseAll elements offset fuel m
    | (false, m) => some { m with readPos := offset }

/-- How the search for a record ends: at the end, with a record in the buffer, or with a buffer that
is too small. -/
inductive Found (α : Type) where
  | nothing (m : SeqFile α)
  | record (m : SeqFile α) (pos : Nat) (next : List (Element α))
  | overflow (m : SeqFile α)

/-- The `while (1)` of `seq_read` from an element on. -/
def findRecord (m : SeqFile α) (pos : Nat) : List (Element α) → Found α
  | [] => .nothing m
  | p :: next =>
    let m := showElement m p
    let m := if p.skip then { m with count := 0 } else m
    if m.count = 0 then findRecord { m with index := pos + 1 } (pos + 1) next
    else if m.count < m.size then .record m pos next
    else .overflow (enlarge m)

/-- `while (m->count < size)` at `Fill`. -/
def fill (size : Nat) (m : SeqFile α) (pos : Nat) : List (Element α) → SeqFile α × Nat
  | [] => (m, pos)
  | p :: next =>
    if m.count < size then
      let offs := m.count
      let m := showElement m p
      if p.skip then fill size { m with count := offs } (pos + 1) next
      else if seqOverflow m then ({ m with count := offs }, pos)
      else fill size m (pos + 1) next
    else (m, pos)

/-- The copy to the user after the loop at `Fill`. -/
def copyRecords (size : Nat) (m : SeqFile α) (pos : Nat) : List α × SeqFile α :=
  let n := min m.count size
  let copied := (m.buf.getD []).take n
  let count := m.count - n
  if count ≠ 0 then (copied, { m with count, fromPos := n, index := pos })
  else (copied, { m with count, index := pos + 1 })

/-- From `we need at least one record in buffer` on: what is copied to the user. -/
def readRecords (elements : List (Element α)) (size : Nat) :
    (fuel : Nat) → SeqFile α → Option (List α × SeqFile α)
  | 0, _ => none
  | fuel + 1, m =>
    match findRecord m m.index (elements.drop m.index) with
    | .overflow m => readRecords elements size fuel m
    | .nothing m => some ([], { m with count := 0 })
    | .record m pos next =>
      let (m, pos) := fill size m pos next
      some (copyRecords size m pos)

/-- `if not empty - flush it first`, of `n` bytes. -/
def flush (m : SeqFile α) (n : Nat) : List α × SeqFile α :=
  let count := m.count - n
  (((m.buf.getD []).drop m.fromPos).take n, { m with
    count, fromPos := m.fromPos + n, index := if count = 0 then m.index + 1 else m.index })

/-- The part of `seq_read` after the position is right. -/
def readHere (elements : List (Element α)) (fuel : Nat) (m : SeqFile α) (size : Nat) :
    Option (List α × SeqFile α) :=
  if m.count ≠ 0 then
    let n := min m.count size
    let (copied, m) := flush m n
    if size - n = 0 then some (copied, m)
    else (readRecords elements (size - n) fuel m).map fun (more, m) => (copied ++ more, m)
  else readRecords elements size fuel m

/-- `seq_read`: the bytes, the file and the new position. -/
def seqRead (elements : List (Element α)) (fuel : Nat) (m : SeqFile α) (size ppos : Nat) :
    Option (List α × SeqFile α × Nat) := do
  let m ← (if ppos ≠ m.readPos then traverseAll elements ppos fuel m else some m)
  let (copied, m) ← readHere elements fuel (grabBuffer m) size
  return (copied, { m with readPos := m.readPos + copied.length }, ppos + copied.length)

inductive Whence where
  | cur
  | set
  | other
  deriving DecidableEq, Repr

/-- An open file: the sequential file and `f_pos`. -/
structure File (α : Type) where
  m : SeqFile α
  fPos : Nat

/-- `seq_lseek`: the new position, or nothing for `-EINVAL`, and the file. A sum of positions is a
`loff_t`, which wraps. -/
def seqLseek (elements : List (Element α)) (fuel : Nat) (file : File α) (offset : Int)
    (whence : Whence) : Option (Option Nat × File α) :=
  let goal : Option Int := match whence with
    | .cur => some ((offset + file.fPos).bmod (2 ^ 64))
    | .set => some offset
    | .other => none
  match goal with
  | none => some (none, file)
  | some offset =>
    if offset < 0 then some (none, file)
    else
      let offset := offset.toNat
      if offset ≠ file.m.readPos then
        (traverseAll elements offset fuel file.m).map fun m => (some offset, ⟨m, offset⟩)
      else some (some offset, ⟨file.m, offset⟩)

/-- What a user of the file can do: read at the position of the file or at another one, or change
the position. -/
inductive Event where
  | read (size : Nat)
  | pread (size pos : Nat)
  | lseek (offset : Int) (whence : Whence)
  deriving DecidableEq, Repr

def step (elements : List (Element α)) (fuel : Nat) (file : File α) : Event → Option (File α)
  | .read size => (seqRead elements fuel file.m size file.fPos).map fun (_, m, fPos) => ⟨m, fPos⟩
  | .pread size pos => (seqRead elements fuel file.m size pos).map fun (_, m, _) => ⟨m, file.fPos⟩
  | .lseek offset whence => (seqLseek elements fuel file offset whence).map (·.2)

end TinyKernel.Seq
