import Mathlib.Tactic

/-! The extensible bitmaps of `security/selinux/ss/ebitmap.c`: a list of nodes, each with `units`
words of `width` bits. -/

namespace TinyKernel.Selinux

/-- `struct ebitmap_node` -/
structure Node (width units : Nat) where
  startbit : Nat
  maps : Vector (BitVec width) units
  deriving DecidableEq

/-- `struct ebitmap` -/
structure Ebitmap (width units : Nat) where
  node : List (Node width units)
  highbit : Nat
  deriving DecidableEq

variable {width units : Nat}

/-- A value stored in a variable of type `u32`. -/
def u32 (value : Nat) : Nat := value % 2 ^ 32

/-- `EBITMAP_SIZE` -/
def Node.size (_ : Node width units) : Nat := units * width

/-- The bit at an offset from `startbit`. -/
def Node.bit (n : Node width units) (offset : Nat) : Bool :=
  if bound : offset / width < units then (n.maps[offset / width]).getLsbD (offset % width)
  else false

/-- `find_next_bit(n->maps, EBITMAP_SIZE, offset)` -/
def Node.findNextBit (n : Node width units) (offset : Nat) : Nat :=
  ((List.range' offset (n.size - offset)).find? n.bit).getD n.size

/-- `find_first_bit(n->maps, EBITMAP_SIZE)` -/
def Node.findFirstBit (n : Node width units) : Nat := n.findNextBit 0

/-- One of the functions on a bit of a node, with the word of the bit and the mask for it; nothing
if `BUG_ON(index >= EBITMAP_UNIT_NUMS)` fires. -/
def Node.access {α : Type} (n : Node width units) (bit : Nat)
    (use : (index : Fin units) → (mask : BitVec width) → α) : Option α :=
  let index := (bit - n.startbit) / width
  let ofs := (bit - n.startbit) % width
  if bound : index < units then some (use ⟨index, bound⟩ (BitVec.ofNat width 1 <<< ofs)) else none

/-- `ebitmap_node_get_bit` -/
def Node.getBit (n : Node width units) (bit : Nat) : Option Bool :=
  n.access bit fun index mask => n.maps[index] &&& mask ≠ 0

/-- `ebitmap_node_set_bit` -/
def Node.setBit (n : Node width units) (bit : Nat) : Option (Node width units) :=
  n.access bit fun index mask => { n with maps := n.maps.set index (n.maps[index] ||| mask) }

/-- `ebitmap_node_clr_bit` -/
def Node.clrBit (n : Node width units) (bit : Nat) : Option (Node width units) :=
  n.access bit fun index mask => { n with maps := n.maps.set index (n.maps[index] &&& ~~~mask) }

/-- `ebitmap_init` -/
def init : Ebitmap width units := ⟨[], 0⟩

/-- The loop of `ebitmap_get_bit`. -/
def getLoop (bit : Nat) : List (Node width units) → Option Bool
  | [] => some false
  | n :: next =>
    if n.startbit ≤ bit then
      if n.startbit + n.size > bit then n.getBit bit else getLoop bit next
    else some false

/-- `ebitmap_get_bit` -/
def getBit (e : Ebitmap width units) (bit : Nat) : Option Bool :=
  if e.highbit < bit then some false else getLoop bit e.node

inductive Status where
  | ok
  | nomem
  deriving DecidableEq, Repr

/-- The part of `ebitmap_set_bit` after its loop; `alloc` says whether there is memory. -/
def insert (bit : Nat) (value alloc : Bool) (n : List (Node width units)) (highbit : Nat) :
    Option (Status × List (Node width units) × Nat) :=
  if !value then some (.ok, n, highbit)
  else if !alloc then some (.nomem, n, highbit)
  else do
    let empty : Node width units := ⟨u32 (bit - bit % (units * width)), Vector.replicate units 0⟩
    let new ← empty.setBit bit
    let highbit := if n = [] then u32 (new.startbit + new.size) else highbit
    return (.ok, new :: n, highbit)

/-- The loop of `ebitmap_set_bit` from the node behind `prev` on: what it leaves of these nodes. -/
def setLoop (bit : Nat) (value alloc : Bool) (prev : Option (Node width units)) (highbit : Nat) :
    List (Node width units) → Option (Status × List (Node width units) × Nat)
  | [] => insert bit value alloc [] highbit
  | n :: next =>
    if n.startbit ≤ bit then
      if n.startbit + n.size > bit then
        if value then (n.setBit bit).map fun n => (.ok, n :: next, highbit)
        else (n.clrBit bit).map fun n =>
          if n.findFirstBit < n.size then (.ok, n :: next, highbit)
          else
            let highbit := if next = [] then
                match prev with
                | some prev => u32 (prev.startbit + prev.size)
                | none => 0
              else highbit
            (.ok, next, highbit)
      else
        (setLoop bit value alloc (some n) highbit next).map fun (status, next, highbit) =>
          (status, n :: next, highbit)
    else insert bit value alloc (n :: next) highbit

/-- `ebitmap_set_bit` -/
def setBit (e : Ebitmap width units) (bit : Nat) (value alloc : Bool) :
    Option (Status × Ebitmap width units) :=
  (setLoop bit value alloc none e.highbit e.node).map fun (status, node, highbit) =>
    (status, ⟨node, highbit⟩)

/-- The loop of `ebitmap_cpy`; `allocs` says of each allocation whether there is memory. -/
def cpyLoop : List (Node width units) → List Bool → Option (List (Node width units))
  | [], _ => some []
  | n :: next, allocs =>
    if !allocs.headD true then none
    else (cpyLoop next allocs.tail).map (⟨n.startbit, n.maps⟩ :: ·)

/-- `ebitmap_cpy`: the status and the destination, which `ebitmap_destroy` leaves empty. -/
def cpy (src : Ebitmap width units) (allocs : List Bool) : Status × Ebitmap width units :=
  match cpyLoop src.node allocs with
  | none => (.nomem, init)
  | some node => (.ok, ⟨node, src.highbit⟩)

/-- The loop of `ebitmap_cmp` and the test after it. -/
def cmpLoop : List (Node width units) → List (Node width units) → Bool
  | n1 :: next1, n2 :: next2 =>
    if n1.startbit = n2.startbit ∧ n1.maps = n2.maps then cmpLoop next1 next2 else false
  | [], [] => true
  | _, _ => false

/-- `ebitmap_cmp` -/
def cmp (e1 e2 : Ebitmap width units) : Bool :=
  if e1.highbit ≠ e2.highbit then false else cmpLoop e1.node e2.node

/-- The `for` that skips the trailing zero words: the last other word below `i`. -/
def lastUnit (maps : Vector (BitVec width) units) : (i : Nat) → i ≤ units → Option (Fin units)
  | 0, _ => none
  | i + 1, bound =>
    if maps[i] ≠ 0 then some ⟨i, bound⟩ else lastUnit maps i (Nat.le_of_succ_le bound)

/-- The `while` over the words from `i - 1` down. -/
def unitsWithin (maps1 maps2 : Vector (BitVec width) units) : (i : Nat) → i ≤ units → Bool
  | 0, _ => true
  | i + 1, bound =>
    if maps1[i] &&& maps2[i] ≠ maps2[i] then false
    else unitsWithin maps1 maps2 i (Nat.le_of_succ_le bound)

/-- The body of the loop of `ebitmap_contains` for nodes at the same place. -/
def nodeWithin (n1 n2 : Node width units) (lastE2bit : Nat) : Bool :=
  match lastUnit n2.maps units le_rfl with
  | none => true
  | some i =>
    -- `__fls` is the place of the highest bit
    let lastsetbit := u32 (n2.startbit + i * width + Nat.log2 (n2.maps[i]).toNat)
    if lastE2bit ≠ 0 ∧ lastsetbit > lastE2bit then false
    else unitsWithin n1.maps n2.maps (i + 1) i.isLt

/-- The loop of `ebitmap_contains` and the test after it. -/
def containsLoop (lastE2bit : Nat) : List (Node width units) → List (Node width units) → Bool
  | _, [] => true
  | [], _ :: _ => false
  | n1 :: next1, n2 :: next2 =>
    if n1.startbit ≤ n2.startbit then
      if n1.startbit < n2.startbit then containsLoop lastE2bit next1 (n2 :: next2)
      else if !nodeWithin n1 n2 lastE2bit then false
      else containsLoop lastE2bit next1 next2
    else false

/-- `ebitmap_contains` -/
def contains (e1 e2 : Ebitmap width units) (lastE2bit : Nat) : Bool :=
  if e1.highbit < e2.highbit then false else containsLoop lastE2bit e1.node e2.node

/-- The first set bit of the nodes from here on, and the nodes from its own on. -/
def firstPositive : List (Node width units) → Option (List (Node width units) × Nat)
  | [] => none
  | n :: next =>
    let ofs := n.findFirstBit
    if ofs < n.size then some (n :: next, n.startbit + ofs) else firstPositive next

/-- `ebitmap_start_positive` -/
def startPositive (e : Ebitmap width units) : List (Node width units) × Nat :=
  (firstPositive e.node).getD ([], e.highbit)

/-- `ebitmap_next_positive` -/
def nextPositive (e : Ebitmap width units) (n : List (Node width units)) (bit : Nat) :
    List (Node width units) × Nat :=
  match n with
  | [] => ([], e.highbit)
  | n :: next =>
    let ofs := n.findNextBit (bit - n.startbit + 1)
    if ofs < n.size then (n :: next, ofs + n.startbit)
    else (firstPositive next).getD ([], e.highbit)

/-- The rounds of `ebitmap_for_each_positive_bit`, at most `fuel` many, and whether it is over. -/
def forEachPositiveBit (e : Ebitmap width units) :
    (fuel : Nat) → List (Node width units) × Nat → List Nat × Bool
  | 0, _ => ([], false)
  | fuel + 1, (n, bit) =>
    if bit < e.highbit then
      let (bits, finished) := forEachPositiveBit e fuel (nextPositive e n bit)
      (bit :: bits, finished)
    else ([], true)

end TinyKernel.Selinux
