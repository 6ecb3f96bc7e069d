import Mathlib.Data.List.Nodup
import Mathlib.Logic.Function.Basic

/-! Binary trees with parent pointers, kept as separate maps from a node to its fields, and
zippers into them. -/

namespace TinyKernel.Lib

open List

inductive Side where
  | left
  | right
  deriving DecidableEq, Repr

namespace Side

def other : Side → Side
  | left => right
  | right => left

@[simp] theorem other_other (side : Side) : side.other.other = side := by cases side <;> rfl

@[simp] theorem other_ne (side : Side) : side.other ≠ side := by cases side <;> simp [other]

@[simp] theorem ne_other (side : Side) : side ≠ side.other := by cases side <;> simp [other]

theorem eq_or_eq_other (side side' : Side) : side' = side ∨ side' = side.other := by
  cases side <;> cases side' <;> simp [other]

end Side

/-- The memory of a binary tree: its root, and for each node what it holds and its pointers. -/
@[ext]
structure Links (Info : Type*) where
  root : Option Nat
  info : Nat → Info
  parent : Nat → Option Nat
  child : Side → Nat → Option Nat

variable {Info : Type*} {m : Links Info} {id : Nat}

namespace Links

def setInfo (m : Links Info) (id : Nat) (info : Info) : Links Info :=
  { m with info := fun x => if x = id then info else m.info x }

def setParent (m : Links Info) (id : Nat) (parent : Option Nat) : Links Info :=
  { m with parent := fun x => if x = id then parent else m.parent x }

def setChild (m : Links Info) (side : Side) (id : Nat) (child : Option Nat) : Links Info :=
  { m with child := fun s x => if s = side ∧ x = id then child else m.child s x }

section

variable (m : Links Info) (id x : Nat) (info : Info) (pointer : Option Nat) (side side' : Side)

@[simp] theorem setInfo_root : (m.setInfo id info).root = m.root := rfl

@[simp] theorem setInfo_parent : (m.setInfo id info).parent = m.parent := rfl

@[simp] theorem setInfo_child : (m.setInfo id info).child = m.child := rfl

theorem setInfo_info : (m.setInfo id info).info x = if x = id then info else m.info x := rfl

@[simp] theorem setParent_root : (m.setParent id pointer).root = m.root := rfl

@[simp] theorem setParent_info : (m.setParent id pointer).info = m.info := rfl

@[simp] theorem setParent_child : (m.setParent id pointer).child = m.child := rfl

theorem setParent_parent :
    (m.setParent id pointer).parent x = if x = id then pointer else m.parent x := rfl

@[simp] theorem setChild_root : (m.setChild side id pointer).root = m.root := rfl

@[simp] theorem setChild_info : (m.setChild side id pointer).info = m.info := rfl

@[simp] theorem setChild_parent : (m.setChild side id pointer).parent = m.parent := rfl

theorem setChild_child :
    (m.setChild side id pointer).child side' x =
      if side' = side ∧ x = id then pointer else m.child side' x := rfl

end

/-- A node has the same fields in both memories. -/
structure Same (m m' : Links Info) (id : Nat) : Prop where
  info : m'.info id = m.info id
  parent : m'.parent id = m.parent id
  child : ∀ side, m'.child side id = m.child side id

theorem Same.refl (m : Links Info) (id : Nat) : Same m m id := ⟨rfl, rfl, fun _ => rfl⟩

theorem Same.trans (one : Same m m' id) (two : Same m' m'' id) : Same m m'' id :=
  ⟨two.info.trans one.info, two.parent.trans one.parent,
    fun side => (two.child side).trans (one.child side)⟩

end Links

/-- A binary tree whose nodes are named by numbers. -/
inductive Bin (Info : Type*) where
  | nil
  | node (left : Bin Info) (id : Nat) (info : Info) (right : Bin Info)

namespace Bin

/-- The node with `near` on the given side and `far` on the other. -/
def on (side : Side) (id : Nat) (info : Info) (near far : Bin Info) : Bin Info :=
  match side with
  | .left => node near id info far
  | .right => node far id info near

theorem on_other (side : Side) (id : Nat) (info : Info) (near far : Bin Info) :
    on side.other id info near far = on side id info far near := by
  cases side <;> rfl

/-- A node seen from either side. -/
theorem node_eq_on (left : Bin Info) (id : Nat) (info : Info) (right : Bin Info) (side : Side) :
    ∃ near far, node left id info right = on side id info near far := by
  cases side with
  | left => exact ⟨left, right, rfl⟩
  | right => exact ⟨right, left, rfl⟩

def root : Bin Info → Option Nat
  | nil => none
  | node _ id _ _ => some id

@[simp] theorem root_nil : (nil : Bin Info).root = none := rfl

@[simp] theorem root_on (side : Side) (id : Nat) (info : Info) (near far : Bin Info) :
    (on side id info near far).root = some id := by
  cases side <;> rfl

variable {t : Bin Info}

theorem eq_nil_of_root (none : t.root = none) : t = nil := by
  cases t with
  | nil => rfl
  | node => cases none

theorem exists_on (root : t.root = some id) (side : Side) :
    ∃ info near far, t = on side id info near far := by
  cases t with
  | nil => cases root
  | node left id' info right => ?_
  cases root
  obtain ⟨near, far, shape⟩ := node_eq_on left id info right side
  exact ⟨info, near, far, shape⟩

/-- The nodes in order. -/
def ids : Bin Info → List Nat
  | nil => []
  | node left id _ right => left.ids ++ id :: right.ids

theorem ids_on (side : Side) (id : Nat) (info : Info) (near far : Bin Info) :
    (on side id info near far).ids =
      match side with
      | .left => near.ids ++ id :: far.ids
      | .right => far.ids ++ id :: near.ids := by
  cases side <;> rfl

variable {side : Side} {info : Info}

@[simp] theorem mem_ids_on :
    x ∈ (on side id info near far).ids ↔ x = id ∨ x ∈ near.ids ∨ x ∈ far.ids := by
  cases side <;> simp [on, ids] <;> tauto

theorem perm_on (side : Side) (id : Nat) (info : Info) (near far : Bin Info) :
    (on side id info near far).ids.Perm (id :: (near.ids ++ far.ids)) := by
  cases side with
  | left => exact perm_middle
  | right => exact perm_middle.trans (perm_append_comm.cons id)

theorem nodup_on :
    (on side id info near far).ids.Nodup ↔
      id ∉ near.ids ∧ id ∉ far.ids ∧ near.ids.Nodup ∧ far.ids.Nodup ∧
        ∀ x ∈ near.ids, x ∉ far.ids := by
  rw [(perm_on side id info near far).nodup_iff, nodup_cons, mem_append, not_or, nodup_append,
    and_assoc]
  simp only [ne_eq, and_congr_right_iff]
  intro _ _ _ _
  constructor
  · exact fun apart x inNear inFar => apart x inNear x inFar rfl
  rintro apart x inNear y inFar rfl
  exact apart x inNear inFar

theorem root_mem (root : t.root = some id) : id ∈ t.ids := by
  cases t with
  | nil => cases root
  | node left id' info right => ?_
  cases root
  simp [ids]

/-- What the root holds, replaced. -/
def setRoot (change : Info → Info) : Bin Info → Bin Info
  | nil => nil
  | node left id info right => node left id (change info) right

@[simp] theorem setRoot_nil (change : Info → Info) : (nil : Bin Info).setRoot change = nil := rfl

@[simp] theorem setRoot_on (change : Info → Info) (side : Side) (id : Nat) (info : Info)
    (near far : Bin Info) :
    (on side id info near far).setRoot change = on side id (change info) near far := by
  cases side <;> rfl

@[simp] theorem root_setRoot (change : Info → Info) (t : Bin Info) :
    (t.setRoot change).root = t.root := by
  cases t <;> rfl

@[simp] theorem ids_setRoot (change : Info → Info) (t : Bin Info) :
    (t.setRoot change).ids = t.ids := by
  cases t <;> rfl

/-- The memory holds a tree under the given parent. -/
def Rep (m : Links Info) : Option Nat → Bin Info → Prop
  | _, .nil => True
  | parent, .node left id info right =>
    m.info id = info ∧ m.parent id = parent ∧ m.child .left id = left.root ∧
      m.child .right id = right.root ∧ Rep m (some id) left ∧ Rep m (some id) right

theorem rep_on :
    Rep m parent (on side id info near far) ↔
      m.info id = info ∧ m.parent id = parent ∧ m.child side id = near.root ∧
        m.child side.other id = far.root ∧ Rep m (some id) near ∧ Rep m (some id) far := by
  cases side with
  | left => exact Iff.rfl
  | right => ?_
  simp only [on, Rep, Side.other]
  tauto

theorem Rep.congr (rep : Rep m parent t) (same : ∀ id ∈ t.ids, Links.Same m m' id) :
    Rep m' parent t := by
  induction t generalizing parent with
  | nil => trivial
  | node left id info right ihLeft ihRight => ?_
  obtain ⟨holds, up, onLeft, onRight, repLeft, repRight⟩ := rep
  have here := same id (by simp [ids])
  refine ⟨here.info.trans holds, here.parent.trans up, (here.child _).trans onLeft,
    (here.child _).trans onRight, ?_, ?_⟩
  · exact ihLeft repLeft fun x mem => same x (by simp [ids, mem])
  exact ihRight repRight fun x mem => same x (by simp [ids, mem])

/-- A tree whose root was given another parent and other contents. -/
theorem Rep.reroot (rep : Rep m parent t) (nodup : t.ids.Nodup)
    (same : ∀ id ∈ t.ids, t.root ≠ some id → Links.Same m m' id)
    (root : ∀ id, t.root = some id →
      m'.info id = change (m.info id) ∧ m'.parent id = parent' ∧
        ∀ side, m'.child side id = m.child side id) : Rep m' parent' (t.setRoot change) := by
  cases t with
  | nil => trivial
  | node left id info right => ?_
  obtain ⟨holds, up, onLeft, onRight, repLeft, repRight⟩ := rep
  obtain ⟨newInfo, newParent, sameChild⟩ := root id rfl
  have unique : (on .left id info left right).ids.Nodup := nodup
  have apart := nodup_on.mp unique
  refine ⟨by rw [newInfo, holds], newParent, (sameChild _).trans onLeft,
    (sameChild _).trans onRight, repLeft.congr fun x mem => ?_,
    repRight.congr fun x mem => ?_⟩
  · refine same x (by simp [ids, mem]) fun same => ?_
    cases same
    exact apart.1 mem
  refine same x (by simp [ids, mem]) fun same => ?_
  cases same
  exact apart.2.1 mem

/-- One step down into a tree: the node passed, the side taken and the subtree left out. -/
structure Frame (Info : Type*) where
  side : Side
  id : Nat
  info : Info
  sibling : Bin Info

namespace Frame

def fill (frame : Frame Info) (t : Bin Info) : Bin Info :=
  on frame.side frame.id frame.info t frame.sibling

def ids (frame : Frame Info) : List Nat := frame.id :: frame.sibling.ids

end Frame

/-- The tree around a hole, innermost frame first. -/
abbrev Path (Info : Type*) := List (Frame Info)

namespace Path

def fill (path : Path Info) (t : Bin Info) : Bin Info := path.foldl (fun t frame => frame.fill t) t

@[simp] theorem fill_nil (t : Bin Info) : fill [] t = t := rfl

@[simp] theorem fill_cons (frame : Frame Info) (path : Path Info) (t : Bin Info) :
    fill (frame :: path) t = fill path (frame.fill t) := rfl

/-- The node above the hole. -/
def above : Path Info → Option Nat
  | [] => none
  | frame :: _ => some frame.id

@[simp] theorem above_nil : above ([] : Path Info) = none := rfl

@[simp] theorem above_cons (frame : Frame Info) (path : Path Info) :
    above (frame :: path) = some frame.id := rfl

def ids (path : Path Info) : List Nat := path.flatMap Frame.ids

@[simp] theorem ids_nil : ids ([] : Path Info) = [] := rfl

@[simp] theorem ids_cons (frame : Frame Info) (path : Path Info) :
    ids (frame :: path) = frame.id :: (frame.sibling.ids ++ ids path) := rfl

theorem id_mem_ids (mem : frame ∈ path) : frame.id ∈ ids path :=
  mem_flatMap.mpr ⟨frame, mem, .head _⟩

/-- The nodes before and after the hole, in order. -/
def before : Path Info → List Nat
  | [] => []
  | frame :: path =>
    match frame.side with
    | .left => before path
    | .right => before path ++ (frame.sibling.ids ++ [frame.id])

def after : Path Info → List Nat
  | [] => []
  | frame :: path =>
    match frame.side with
    | .left => (frame.id :: frame.sibling.ids) ++ after path
    | .right => after path

theorem ids_fill (path : Path Info) (t : Bin Info) :
    (path.fill t).ids = path.before ++ t.ids ++ path.after := by
  induction path generalizing t with
  | nil => simp [before, after]
  | cons frame path ih => ?_
  rw [fill_cons, ih, before, after, Frame.fill, ids_on]
  cases frame.side <;> simp

end Path

theorem Path.perm_cons (frame : Frame Info) (path : Path Info) (t : Bin Info) :
    (Path.ids path ++ (frame.fill t).ids).Perm (Path.ids (frame :: path) ++ t.ids) := by
  rw [perm_iff_count]
  intro x
  rw [Path.ids_cons, Frame.fill, ids_on]
  cases frame.side <;> simp only [count_append, count_cons] <;> omega

theorem Path.perm_fill (path : Path Info) (t : Bin Info) :
    (Path.fill path t).ids.Perm (Path.ids path ++ t.ids) := by
  induction path generalizing t with
  | nil => exact .refl _
  | cons frame path ih => exact (ih (frame.fill t)).trans (perm_cons frame path t)

/-- The memory holds what is around the hole, with the hole's root as given. -/
def RepPath (m : Links Info) : Option Nat → Path Info → Prop
  | hole, [] => m.root = hole
  | hole, frame :: path =>
    m.info frame.id = frame.info ∧ m.parent frame.id = Path.above path ∧
      m.child frame.side frame.id = hole ∧ m.child frame.side.other frame.id = frame.sibling.root ∧
      Rep m (some frame.id) frame.sibling ∧ RepPath m (some frame.id) path

variable {path : Path Info}

section

variable {hole top : Option Nat} {inner : Path Info}

/-- The node above the hole of a segment that hangs below `top`. -/
def Path.aboveOr (top : Option Nat) : Path Info → Option Nat
  | [] => top
  | frame :: _ => some frame.id

theorem Path.aboveOr_none (path : Path Info) : Path.aboveOr none path = Path.above path := by
  cases path <;> rfl

/-- The root of what fills a segment, from the root of what fills the hole. -/
def Path.rootOf : Option Nat → Path Info → Option Nat
  | hole, [] => hole
  | _, frame :: path => rootOf (some frame.id) path

theorem Path.fill_append (inner outer : Path Info) (t : Bin Info) :
    Path.fill (inner ++ outer) t = Path.fill outer (Path.fill inner t) :=
  foldl_append

theorem Path.ids_append (inner outer : Path Info) :
    Path.ids (inner ++ outer) = Path.ids inner ++ Path.ids outer :=
  flatMap_append

theorem Path.above_append (inner outer : Path Info) :
    Path.above (inner ++ outer) = Path.aboveOr (Path.above outer) inner := by
  cases inner <;> rfl

/-- The memory holds a part of the way up, the last node of it below `top`. -/
def RepSeg (m : Links Info) : Option Nat → Path Info → Option Nat → Prop
  | _, [], _ => True
  | hole, frame :: path, top =>
    m.info frame.id = frame.info ∧ m.parent frame.id = Path.aboveOr top path ∧
      m.child frame.side frame.id = hole ∧ m.child frame.side.other frame.id = frame.sibling.root ∧
      Rep m (some frame.id) frame.sibling ∧ RepSeg m (some frame.id) path top

theorem repPath_append :
    RepPath m hole (inner ++ outer) ↔
      RepSeg m hole inner (Path.above outer) ∧ RepPath m (Path.rootOf hole inner) outer := by
  induction inner generalizing hole with
  | nil => simp [RepSeg, Path.rootOf]
  | cons frame inner ih =>
    simp only [cons_append, RepPath, RepSeg, Path.rootOf, ih, Path.above_append, and_assoc]

theorem rep_fill :
    Rep m top (Path.fill inner t) ↔
      RepSeg m t.root inner top ∧ Rep m (Path.aboveOr top inner) t := by
  induction inner generalizing t with
  | nil => simp [RepSeg, Path.aboveOr]
  | cons frame inner ih => ?_
  rw [Path.fill_cons, ih, Frame.fill, rep_on, root_on, RepSeg]
  tauto

theorem RepSeg.congr (rep : RepSeg m hole inner top)
    (same : ∀ id ∈ Path.ids inner, Links.Same m m' id) : RepSeg m' hole inner top := by
  induction inner generalizing hole with
  | nil => trivial
  | cons frame inner ih => ?_
  obtain ⟨holds, up, down, across, sibling, outer⟩ := rep
  have here := same frame.id (by simp)
  refine ⟨here.info.trans holds, here.parent.trans up, (here.child _).trans down,
    (here.child _).trans across, sibling.congr fun x mem => same x (by simp [mem]), ?_⟩
  exact ih outer fun x mem => same x (by simp [mem])

theorem RepPath.congr (rep : RepPath m hole path) (root : m'.root = m.root)
    (same : ∀ id ∈ path.ids, Links.Same m m' id) : RepPath m' hole path := by
  rw [← append_nil path, repPath_append] at rep ⊢
  exact ⟨rep.1.congr same, root.trans rep.2⟩

theorem Path.before_append (inner outer : Path Info) :
    Path.before (inner ++ outer) = Path.before outer ++ Path.before inner := by
  induction inner with
  | nil => simp [Path.before]
  | cons frame inner ih => ?_
  rw [cons_append, Path.before, Path.before, ih]
  cases frame.side <;> simp

theorem Path.after_append (inner outer : Path Info) :
    Path.after (inner ++ outer) = Path.after inner ++ Path.after outer := by
  induction inner with
  | nil => rfl
  | cons frame inner ih => ?_
  rw [cons_append, Path.after, Path.after, ih]
  cases frame.side <;> simp

theorem Path.aboveOr_append (inner outer : Path Info) (top : Option Nat) :
    Path.aboveOr top (inner ++ outer) = Path.aboveOr (Path.aboveOr top outer) inner := by
  cases inner <;> rfl

theorem Path.rootOf_append (inner outer : Path Info) (hole : Option Nat) :
    Path.rootOf hole (inner ++ outer) = Path.rootOf (Path.rootOf hole inner) outer := by
  induction inner generalizing hole with
  | nil => rfl
  | cons frame inner ih => exact ih (some frame.id)

theorem repSeg_append :
    RepSeg m hole (inner ++ outer) top ↔
      RepSeg m hole inner (Path.aboveOr top outer) ∧
        RepSeg m (Path.rootOf hole inner) outer top := by
  induction inner generalizing hole with
  | nil => simp [RepSeg, Path.rootOf]
  | cons frame inner ih =>
    simp only [cons_append, RepSeg, Path.rootOf, ih, Path.aboveOr_append, and_assoc]

/-- A node of the tree, and the way to it. -/
theorem exists_path (mem : id ∈ t.ids) :
    ∃ (path : Path Info) (left : Bin Info) (info : Info) (right : Bin Info),
      t = path.fill (node left id info right) := by
  induction t with
  | nil => cases mem
  | node left id' info right ihLeft ihRight => ?_
  simp only [ids, mem_append, mem_cons] at mem
  rcases mem with inLeft | rfl | inRight
  · obtain ⟨path, left', info', right', rfl⟩ := ihLeft inLeft
    exact ⟨path ++ [⟨.left, id', info, right⟩], left', info', right', by
      rw [Path.fill_append]; rfl⟩
  · exact ⟨[], left, info, right, rfl⟩
  obtain ⟨path, left', info', right', rfl⟩ := ihRight inRight
  exact ⟨path ++ [⟨.right, id', info, left⟩], left', info', right', by
    rw [Path.fill_append]; rfl⟩

end

/-- A tree in memory, looked at through a hole. -/
structure Focus (m : Links Info) (path : Path Info) (t : Bin Info) : Prop where
  around : RepPath m t.root path
  here : Rep m path.above t
  nodup : (path.ids ++ t.ids).Nodup

theorem focus_fill : Focus m path (frame.fill t) ↔ Focus m (frame :: path) t := by
  have unique := (Path.perm_cons frame path t).nodup_iff
  constructor
  · rintro ⟨around, here, nodup⟩
    obtain ⟨holds, up, down, across, inner, sibling⟩ := rep_on.mp here
    rw [Frame.fill, root_on] at around
    exact ⟨⟨holds, up, down, across, sibling, around⟩, inner, unique.mp nodup⟩
  rintro ⟨⟨holds, up, down, across, sibling, around⟩, here, nodup⟩
  refine ⟨?_, rep_on.mpr ⟨holds, up, down, across, here, sibling⟩, unique.mpr nodup⟩
  rw [Frame.fill, root_on]
  exact around

/-- The whole tree in memory. -/
def Holds (m : Links Info) (t : Bin Info) : Prop := Focus m [] t

theorem focus_iff_holds : Focus m path t ↔ Holds m (path.fill t) := by
  induction path generalizing t with
  | nil => exact Iff.rfl
  | cons frame path ih => rw [Path.fill_cons, ← ih, focus_fill]

theorem focus_append {inner : Path Info} :
    Focus m (inner ++ outer) t ↔ Focus m outer (Path.fill inner t) := by
  rw [focus_iff_holds, focus_iff_holds, Path.fill_append]

end Bin

end TinyKernel.Lib
