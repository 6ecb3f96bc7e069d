import TinyKernel.Lib.Bin

/-! `lib/rbtree.c` and `rbtree_augmented.h`. The word that packs a node's colour with its parent
is kept as two fields; reading it as a pointer without masking, as `rb_red_parent` does, only
works for a red node. The mirrored copies of each case are one definition, with the side on
which the node hangs as a parameter. -/

namespace TinyKernel.Rbtree

open Lib

inductive Color where
  | red
  | black
  deriving DecidableEq, Repr

/-- A node of the tree: its colour, the structure it is embedded in and the augmented field. -/
structure Info (Data Aug : Type) where
  color : Color
  data : Data
  aug : Aug

abbrev Id := Nat

abbrev Mem (Data Aug : Type) := Links (Info Data Aug)

inductive Fault where
  | oops
  | endless
  deriving DecidableEq, Repr

/-- `rbcompute`, from a node and the augmented fields of its children. -/
abbrev Compute (Data Aug : Type) := Data → Option Aug → Option Aug → Aug

variable {Data Aug : Type}

def color (m : Mem Data Aug) (rb : Id) : Color := (m.info rb).color

/-- `rb && rb_is_red(rb)`. -/
def isRed (m : Mem Data Aug) (rb : Id) : Bool := color m rb = .red

def setColor (m : Mem Data Aug) (rb : Id) (color : Color) : Mem Data Aug :=
  m.setInfo rb { m.info rb with color }

def setAug (m : Mem Data Aug) (rb : Id) (aug : Aug) : Mem Data Aug :=
  m.setInfo rb { m.info rb with aug }

def rbSetParentColor (m : Mem Data Aug) (rb : Id) (p : Option Id) (color : Color) : Mem Data Aug :=
  setColor (m.setParent rb p) rb color

/-- `if (rb) rb_set_parent_color(rb, p, color)`. -/
def setParentColorIf (m : Mem Data Aug) (rb p : Option Id) (color : Color) : Mem Data Aug :=
  match rb with
  | none => m
  | some rb => rbSetParentColor m rb p color

def rbRedParent (m : Mem Data Aug) (red : Id) : Except Fault (Option Id) :=
  if color m red = .red then .ok (m.parent red) else .error .oops

def rbChangeChild (m : Mem Data Aug) (old : Id) (new parent : Option Id) : Mem Data Aug :=
  match parent with
  | none => { m with root := new }
  | some parent =>
    if m.child .left parent = some old then m.setChild .left parent new
    else m.setChild .right parent new

def rbRotateSetParents (m : Mem Data Aug) (old new : Id) (newColor : Color) : Mem Data Aug :=
  let parent := m.parent old
  let m := rbSetParentColor m new parent (color m old)
  let m := rbSetParentColor m old (some new) newColor
  rbChangeChild m old (some new) parent

section

variable (f : Compute Data Aug)

def rbCompute (m : Mem Data Aug) (node : Id) : Aug :=
  f (m.info node).data ((m.child .left node).map fun id => (m.info id).aug)
    ((m.child .right node).map fun id => (m.info id).aug)

/-- The `propagate` of `RB_DECLARE_CALLBACKS`. -/
def propagate [DecidableEq Aug] :
    Nat → Mem Data Aug → Option Id → Option Id → Except Fault (Mem Data Aug)
  | 0, _, _, _ => .error .endless
  | rounds + 1, m, rb, stop =>
    if rb = stop then .ok m
    else
      match rb with
      | none => .error .oops
      | some node =>
        let augmented := rbCompute f m node
        if (m.info node).aug = augmented then .ok m
        else propagate rounds (setAug m node augmented) (m.parent node) stop

def copy (m : Mem Data Aug) (old new : Id) : Mem Data Aug := setAug m new (m.info old).aug

def rotate (m : Mem Data Aug) (old new : Id) : Mem Data Aug :=
  let m := copy m old new
  setAug m old (rbCompute f m old)

end

/-- `rb_link_node`; `link` names the child slot of `parent`, or the root. -/
def rbLinkNode (m : Mem Data Aug) (node : Id) (link : Option (Id × Side)) : Mem Data Aug :=
  let m := rbSetParentColor m node (link.map Prod.fst) .red
  let m := (m.setChild .left node none).setChild .right node none
  match link with
  | none => { m with root := some node }
  | some (parent, side) => m.setChild side parent (some node)

section

variable (f : Compute Data Aug)

/-- Case 3 of `__rb_insert`, for a parent on the given side of `gparent`. -/
def insertCase3 (side : Side) (m : Mem Data Aug) (gparent parent : Id) (tmp : Option Id) :
    Mem Data Aug :=
  let m := m.setChild side gparent tmp
  let m := m.setChild side.other parent (some gparent)
  let m := setParentColorIf m tmp (some gparent) .black
  let m := rbRotateSetParents m gparent parent .red
  rotate f m gparent parent

/-- Case 2 of `__rb_insert`, before it goes on to case 3. -/
def insertCase2 (side : Side) (m : Mem Data Aug) (parent node : Id) : Mem Data Aug :=
  let tmp := m.child side node
  let m := m.setChild side.other parent tmp
  let m := m.setChild side node (some parent)
  let m := setParentColorIf m tmp (some parent) .black
  let m := rbSetParentColor m parent (some node) .red
  rotate f m parent node

/-- The loop of `__rb_insert`. -/
def rbInsertLoop : Nat → Mem Data Aug → Id → Option Id → Except Fault (Mem Data Aug)
  | 0, _, _, _ => .error .endless
  | rounds + 1, m, node, parent =>
    match parent with
    | none => .ok (rbSetParentColor m node none .black)
    | some parent =>
      if color m parent = .black then .ok m
      else do
        match ← rbRedParent m parent with
        | none => .error .oops
        | some gparent =>
          let side := if m.child .right gparent = some parent then Side.right else .left
          match (m.child side.other gparent).filter (isRed m) with
          | some tmp =>
            let m := rbSetParentColor m tmp (some gparent) .black
            let m := rbSetParentColor m parent (some gparent) .black
            let above := m.parent gparent
            rbInsertLoop rounds (rbSetParentColor m gparent above .red) gparent above
          | none =>
            let tmp := m.child side.other parent
            if some node = tmp then
              let m := insertCase2 f side m parent node
              .ok (insertCase3 f side m gparent node (m.child side.other node))
            else .ok (insertCase3 f side m gparent parent tmp)

/-- `__rb_insert`. -/
def rbInsert (rounds : Nat) (m : Mem Data Aug) (node : Id) : Except Fault (Mem Data Aug) := do
  let parent ← rbRedParent m node
  rbInsertLoop f rounds m node parent

end

section

variable (f : Compute Data Aug)

/-- Case 4 of `____rb_erase_color`, for a node on the given side of `parent`. -/
def eraseCase4 (side : Side) (m : Mem Data Aug) (parent sibling tmp1 : Id) : Mem Data Aug :=
  let tmp2 := m.child side sibling
  let m := m.setChild side.other parent tmp2
  let m := m.setChild side sibling (some parent)
  let m := rbSetParentColor m tmp1 (some sibling) .black
  let m := match tmp2 with
    | none => m
    | some tmp2 => m.setParent tmp2 (some parent)
  let m := rbRotateSetParents m parent sibling .black
  rotate f m parent sibling

/-- Case 3 of `____rb_erase_color`, before it goes on to case 4. -/
def eraseCase3 (side : Side) (m : Mem Data Aug) (parent sibling tmp2 : Id) : Mem Data Aug :=
  let tmp1 := m.child side.other tmp2
  let m := m.setChild side sibling tmp1
  let m := m.setChild side.other tmp2 (some sibling)
  let m := m.setChild side.other parent (some tmp2)
  let m := setParentColorIf m tmp1 (some sibling) .black
  rotate f m sibling tmp2

/-- Case 1 of `____rb_erase_color`: the memory it leaves and the new sibling. -/
def eraseCase1 (side : Side) (m : Mem Data Aug) (parent sibling : Id) :
    Except Fault (Mem Data Aug × Id) :=
  match m.child side sibling with
  | none => .error .oops
  | some tmp1 =>
    let m := m.setChild side.other parent (some tmp1)
    let m := m.setChild side sibling (some parent)
    let m := rbSetParentColor m tmp1 (some parent) .black
    let m := rbRotateSetParents m parent sibling .red
    .ok (rotate f m parent sibling, tmp1)

/-- Cases 2 to 4, for a black sibling: the memory, and the parent to go on from after case 2. -/
def eraseRound (side : Side) (m : Mem Data Aug) (parent sibling : Id) : Mem Data Aug × Option Id :=
  match (m.child side.other sibling).filter (isRed m) with
  | some tmp1 => (eraseCase4 f side m parent sibling tmp1, none)
  | none =>
    match (m.child side sibling).filter (isRed m) with
    | some tmp2 =>
      (eraseCase4 f side (eraseCase3 f side m parent sibling tmp2) parent tmp2 sibling, none)
    | none =>
      let m := rbSetParentColor m sibling (some parent) .red
      if isRed m parent then (setColor m parent .black, none) else (m, m.parent parent)

/-- The loop of `____rb_erase_color`. -/
def rbEraseColor : Nat → Mem Data Aug → Option Id → Id → Except Fault (Mem Data Aug)
  | 0, _, _, _ => .error .endless
  | rounds + 1, m, node, parent => do
    let side := if node = m.child .right parent then Side.right else .left
    match m.child side.other parent with
    | none => .error .oops
    | some sibling =>
      let (m, sibling) ← if isRed m sibling then eraseCase1 f side m parent sibling
        else .ok (m, sibling)
      match eraseRound f side m parent sibling with
      | (m, none) => .ok m
      | (m, some above) => rbEraseColor rounds m (some parent) above

/-- The walk to the leftmost node, with the node above it. -/
def leftmost (m : Mem Data Aug) : Nat → Id → Id → Except Fault (Id × Id)
  | 0, _, _ => .error .endless
  | rounds + 1, parent, successor =>
    match m.child .left successor with
    | none => .ok (parent, successor)
    | some tmp => leftmost m rounds successor tmp

variable [DecidableEq Aug]

/-- The successor of a node whose right child is `child`, unlinked from below it: the memory, the
successor, the node its child goes below and that child. -/
def takeSuccessor (rounds : Nat) (m : Mem Data Aug) (node child : Id) :
    Except Fault (Mem Data Aug × Id × Id × Option Id) :=
  match m.child .left child with
  | none => .ok (copy m node child, child, child, m.child .right child)
  | some tmp => do
    let (parent, successor) ← leftmost m rounds child tmp
    let child2 := m.child .right successor
    let m := m.setChild .left parent child2
    let m := m.setChild .right successor (some child)
    let m := m.setParent child (some successor)
    let m := copy m node successor
    let m ← propagate f rounds m (some parent) (some successor)
    .ok (m, successor, parent, child2)

/-- The successor put in the place of `node`: the memory and where to rebalance. -/
def replaceNode (m : Mem Data Aug) (node left successor parent : Id) (child2 : Option Id) :
    Mem Data Aug × Option Id :=
  let m := m.setChild .left successor (some left)
  let m := m.setParent left (some successor)
  let above := m.parent node
  let m := rbChangeChild m node (some successor) above
  match child2 with
  | some child2 =>
    let m := rbSetParentColor m successor above (color m node)
    (rbSetParentColor m child2 (some parent) .black, none)
  | none =>
    let color2 := color m successor
    let m := rbSetParentColor m successor above (color m node)
    (m, if color2 = .black then some parent else none)

/-- `__rb_erase_augmented`: the memory and where to rebalance. -/
def rbEraseNode (rounds : Nat) (m : Mem Data Aug) (node : Id) :
    Except Fault (Mem Data Aug × Option Id) := do
  let parent := m.parent node
  match m.child .left node, m.child .right node with
  | none, none =>
    let rebalance := if color m node = .black then parent else none
    let m := rbChangeChild m node none parent
    let m ← propagate f rounds m parent none
    .ok (m, rebalance)
  | none, some child =>
    let m := rbChangeChild m node (some child) parent
    let m := rbSetParentColor m child parent (color m node)
    let m ← propagate f rounds m parent none
    .ok (m, none)
  | some tmp, none =>
    let m := rbSetParentColor m tmp parent (color m node)
    let m := rbChangeChild m node (some tmp) parent
    let m ← propagate f rounds m parent none
    .ok (m, none)
  | some tmp, some child =>
    let (m, successor, parent, child2) ← takeSuccessor f rounds m node child
    let (m, rebalance) := replaceNode m node tmp successor parent child2
    let m ← propagate f rounds m (some successor) none
    .ok (m, rebalance)

/-- `rb_erase_augmented`. -/
def rbEraseAugmented (rounds : Nat) (m : Mem Data Aug) (node : Id) : Except Fault (Mem Data Aug) :=
  do
  match ← rbEraseNode f rounds m node with
  | (m, none) => .ok m
  | (m, some rebalance) => rbEraseColor f rounds m none rebalance

end

/-- The dummy callbacks: there is no augmented field, and nothing to compute. -/
def dummyCompute : Compute Data Unit := fun _ _ _ => ()

def rbInsertColor (rounds : Nat) (m : Mem Data Unit) (node : Id) : Except Fault (Mem Data Unit) :=
  rbInsert dummyCompute rounds m node

def rbErase (rounds : Nat) (m : Mem Data Unit) (node : Id) : Except Fault (Mem Data Unit) :=
  rbEraseAugmented dummyCompute rounds m node

end TinyKernel.Rbtree
