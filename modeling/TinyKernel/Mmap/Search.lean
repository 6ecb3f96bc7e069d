import TinyKernel.Lib.Prune
import TinyKernel.Lib.Words
import TinyKernel.Rbtree.Code

/-! The searches of `mm/mmap.c` for an unmapped area, from below and from above. -/

namespace TinyKernel.Mmap

open Lib TinyKernel.Lib.Words TinyKernel.Rbtree

/-- The range that a VMA maps. -/
structure Area where
  vmStart : Nat
  vmEnd : Nat
  deriving DecidableEq, Repr

/-- The index of an address space. The augmented field of a node is its `rb_subtree_gap`. -/
structure Mm where
  mmRb : Mem Area Nat
  mmap : Option Id
  vmNext : Id → Option Id
  vmPrev : Id → Option Id
  highestVmEnd : Nat

structure UnmappedAreaInfo where
  length : Nat
  lowLimit : Nat
  highLimit : Nat
  alignMask : Nat
  alignOffset : Nat

inductive Fault where
  | oops
  | bug
  | endless
  deriving DecidableEq, Repr

namespace Mm

variable (mm : Mm)

def area (vma : Id) : Area := (mm.mmRb.info vma).data

def subtreeGap (vma : Id) : Nat := (mm.mmRb.info vma).aug

/-- `vma->vm_prev ? vma->vm_prev->vm_end : 0`. -/
def prevEnd (vma : Id) : Nat := ((mm.vmPrev vma).map fun prev => (mm.area prev).vmEnd).getD 0

/-- `vma->vm_prev->vm_end`. -/
def derefPrevEnd (vma : Id) : Except Fault Nat :=
  match mm.vmPrev vma with
  | some prev => .ok (mm.area prev).vmEnd
  | none => .error .oops

end Mm

section

variable (bits : Nat) (mm : Mm)

/-- The larger of a gap and that of a subtree, if there is one. -/
def largerGap (max : Nat) (child : Option Id) : Nat :=
  match child with
  | some child => if max < mm.subtreeGap child then mm.subtreeGap child else max
  | none => max

/-- The gap in front of a VMA. -/
def ownGap (vma : Id) : Nat :=
  match mm.vmPrev vma with
  | some prev => minus bits (mm.area vma).vmStart (mm.area prev).vmEnd
  | none => (mm.area vma).vmStart

def vmaComputeSubtreeGap (vma : Id) : Nat :=
  largerGap mm (largerGap mm (ownGap bits mm vma) (mm.mmRb.child .left vma))
    (mm.mmRb.child .right vma)

/-- The search from the root, unless the root does not look promising. -/
def searchTree (guide : Guide Fault (Nat × Nat)) (rounds : Nat) :
    Except Fault (Ending (Nat × Nat)) :=
  match mm.mmRb.root with
  | none => .ok .ended
  | some vma =>
    if guide.promising vma then guide.walk mm.mmRb .endless rounds rounds .above vma else .ok .ended

variable (length lowLimit highLimit : Nat)

/-- `check_current` of `unmapped_area`. -/
def currentUp (gapStart gapEnd : Nat) : Verdict (Nat × Nat) :=
  if highLimit < gapStart then .stop
  else if lowLimit ≤ gapEnd ∧ length ≤ minus bits gapEnd gapStart then .found (gapStart, gapEnd)
  else .pass

/-- Back up from a left child there must be a VMA before. -/
def checkUp (back : Bool) (vma : Id) : Except Fault (Verdict (Nat × Nat)) := do
  let gapStart ← if back then mm.derefPrevEnd vma else .ok (mm.prevEnd vma)
  return currentUp bits length lowLimit highLimit gapStart (mm.area vma).vmStart

def guideUp : Guide Fault (Nat × Nat) where
  side := .left
  enter vma := lowLimit ≤ (mm.area vma).vmStart
  promising vma := length ≤ mm.subtreeGap vma
  check := checkUp bits mm length lowLimit highLimit

/-- `check_current` of `unmapped_area_topdown`. -/
def currentDown (gapStart gapEnd : Nat) : Verdict (Nat × Nat) :=
  if gapEnd < lowLimit then .stop
  else if gapStart ≤ highLimit ∧ length ≤ minus bits gapEnd gapStart then .found (gapStart, gapEnd)
  else .pass

def guideDown : Guide Fault (Nat × Nat) where
  side := .right
  enter vma := mm.prevEnd vma ≤ highLimit
  promising vma := length ≤ mm.subtreeGap vma
  check _ vma :=
    .ok (currentDown bits length lowLimit highLimit (mm.prevEnd vma) (mm.area vma).vmStart)

end

section

variable (bits rounds : Nat) (mm : Mm) (info : UnmappedAreaInfo)

/-- The limits adjusted by the length with the worst alignment overhead, and that length. -/
def adjust : Option (Nat × Nat × Nat) :=
  let length := plus bits info.length info.alignMask
  if length < info.length then none
  else if info.highLimit < length then none
  else
    let highLimit := info.highLimit - length
    if highLimit < info.lowLimit then none
    else some (length, plus bits info.lowLimit length, highLimit)

/-- From `found` on in `unmapped_area`. -/
def lowestIn (gapStart gapEnd : Nat) : Except Fault (Option Nat) :=
  let gapStart := if gapStart < info.lowLimit then info.lowLimit else gapStart
  let gapStart := plus bits gapStart (minus bits info.alignOffset gapStart &&& info.alignMask)
  if info.highLimit < plus bits gapStart info.length then .error .bug
  else if gapEnd < plus bits gapStart info.length then .error .bug
  else .ok (some gapStart)

/-- Nothing stands for `-ENOMEM`. The source returns both in an `unsigned long`, so its callers tell
`-ENOMEM` from an address only as long as the address is below 2 ^ bits - 4095. -/
def unmappedArea : Except Fault (Option Nat) := do
  match adjust bits info with
  | none => return none
  | some (length, lowLimit, highLimit) =>
    match ← searchTree mm (guideUp bits mm length lowLimit highLimit) rounds with
    | .stopped => return none
    | .found (gapStart, gapEnd) => lowestIn bits info gapStart gapEnd
    | .ended =>
      -- `check_highest`, with `ULONG_MAX` as the end of the gap
      if highLimit < mm.highestVmEnd then return none
      else lowestIn bits info mm.highestVmEnd (2 ^ bits - 1)

/-- From `found_highest` on in `unmapped_area_topdown`. -/
def highestIn (gapStart gapEnd : Nat) : Except Fault (Option Nat) :=
  let gapEnd := minus bits gapEnd info.length
  let gapEnd := minus bits gapEnd (minus bits gapEnd info.alignOffset &&& info.alignMask)
  if gapEnd < info.lowLimit then .error .bug
  else if gapEnd < gapStart then .error .bug
  else .ok (some gapEnd)

def unmappedAreaTopdown : Except Fault (Option Nat) := do
  match adjust bits info with
  | none => return none
  | some (length, lowLimit, highLimit) =>
    if mm.highestVmEnd ≤ highLimit then highestIn bits info mm.highestVmEnd info.highLimit
    else
      match ← searchTree mm (guideDown bits mm length lowLimit highLimit) rounds with
      | .stopped => return none
      | .ended => return none
      | .found (gapStart, gapEnd) =>
        highestIn bits info gapStart (if info.highLimit < gapEnd then info.highLimit else gapEnd)

end

end TinyKernel.Mmap
