import Mathlib.Algebra.GroupWithZero.Nat
import Mathlib.Algebra.NeZero
import TinyKernel.Lib.Results
import TinyKernel.Rbtree.Erase

/-! Insertion and erasure as a user of the tree sees them. -/

namespace TinyKernel.Rbtree

open Lib Bin Links List

variable {Data Aug : Type} {m m' : Mem Data Aug}
variable {f : Compute Data Aug}

/-- The structures that the nodes are embedded in. -/
def dataOf (m : Mem Data Aug) (id : Id) : Data := (m.info id).data

section

theorem dataOf_setInfo {id : Id} {info : Info Data Aug} (same : info.data = (m.info id).data) :
    dataOf (m.setInfo id info) = dataOf m := by
  funext x
  rw [dataOf, setInfo_info]
  split
  · rename_i here
    rw [here, same, dataOf]
  rfl

variable (m)

@[simp] theorem dataOf_setParent (id : Id) (p : Option Id) : dataOf (m.setParent id p) = dataOf m :=
  rfl

@[simp] theorem dataOf_setChild (side : Side) (id : Id) (child : Option Id) :
    dataOf (m.setChild side id child) = dataOf m := rfl

@[simp] theorem dataOf_setAug (id : Id) (aug : Aug) : dataOf (setAug m id aug) = dataOf m :=
  dataOf_setInfo rfl

@[simp] theorem dataOf_setColor (id : Id) (color : Color) :
    dataOf (setColor m id color) = dataOf m :=
  dataOf_setInfo rfl

@[simp] theorem dataOf_rbSetParentColor (id : Id) (p : Option Id) (color : Color) :
    dataOf (rbSetParentColor m id p color) = dataOf m := by
  rw [rbSetParentColor, dataOf_setColor, dataOf_setParent]

@[simp] theorem dataOf_setParentColorIf (rb p : Option Id) (color : Color) :
    dataOf (setParentColorIf m rb p color) = dataOf m := by
  cases rb with
  | none => rfl
  | some rb => exact dataOf_rbSetParentColor m rb p color

@[simp] theorem dataOf_rbChangeChild (old : Id) (new parent : Option Id) :
    dataOf (rbChangeChild m old new parent) = dataOf m := by
  funext id
  rw [dataOf, rbChangeChild_info, dataOf]

@[simp] theorem dataOf_rbRotateSetParents (old new : Id) (color : Color) :
    dataOf (rbRotateSetParents m old new color) = dataOf m := by
  simp [rbRotateSetParents]

@[simp] theorem dataOf_rotate (old new : Id) : dataOf (rotate f m old new) = dataOf m := by
  simp [rotate, copy]

theorem dataOf_rbLinkNode (node : Id) (link : Option (Id × Side)) :
    dataOf (rbLinkNode m node link) = dataOf m := by
  cases link with
  | none => exact dataOf_rbSetParentColor m node none .red
  | some link => exact dataOf_rbSetParentColor m node (some link.1) .red

variable {m}

variable {rounds : Nat}

theorem dataOf_propagate [DecidableEq Aug] (ran : propagate f rounds m rb stop = .ok m') :
    dataOf m' = dataOf m := by
  induction rounds generalizing m rb with
  | zero => cases ran
  | succ rounds ih => ?_
  unfold propagate at ran
  split at ran
  · cases ran
    rfl
  split at ran
  · cases ran
  dsimp only at ran
  split at ran
  · cases ran
    rfl
  rw [ih ran, dataOf_setAug]

variable {node : Id}

theorem dataOf_rbInsertLoop {parent : Option Id}
    (ran : rbInsertLoop f rounds m node parent = .ok m') : dataOf m' = dataOf m := by
  induction rounds generalizing m node parent with
  | zero => cases ran
  | succ rounds ih => ?_
  unfold rbInsertLoop at ran
  split at ran
  · cases ran
    simp
  rename_i parent
  split at ran
  · cases ran
    rfl
  obtain ⟨above, _, ran⟩ := bind_eq_ok.mp ran
  split at ran
  · cases ran
  rename_i gparent _
  dsimp only at ran
  generalize (if m.child .right gparent = some parent then Side.right else .left) = side at ran
  split at ran
  · rw [ih ran]
    simp
  split at ran
  · cases ran
    simp [insertCase2, insertCase3]
  cases ran
  simp [insertCase3]

theorem dataOf_rbInsert (ran : rbInsert f rounds m node = .ok m') : dataOf m' = dataOf m := by
  obtain ⟨parent, _, ran⟩ := bind_eq_ok.mp ran
  exact dataOf_rbInsertLoop ran

theorem dataOf_eraseRound (side : Side) (parent sibling : Id) :
    dataOf (eraseRound f side m parent sibling).1 = dataOf m := by
  have moved (m : Mem Data Aug) (p s tmp1 : Id) : dataOf (eraseCase4 f side m p s tmp1) =
      dataOf m := by
    simp only [eraseCase4]
    cases m.child side s <;> simp
  rw [eraseRound]
  split
  · exact moved ..
  split
  · rw [moved]
    simp [eraseCase3]
  dsimp only
  split <;> simp

/-- What `rbEraseColor` makes of a round: it ends, or goes on above. -/
def eraseOnward (f : Compute Data Aug) (rounds : Nat) (parent : Id) :
    Mem Data Aug × Option Id → Except Fault (Mem Data Aug)
  | (m, none) => .ok m
  | (m, some above) => rbEraseColor f rounds m (some parent) above

theorem dataOf_rbEraseColor {node : Option Id} {parent : Id}
    (ran : rbEraseColor f rounds m node parent = .ok m') : dataOf m' = dataOf m := by
  induction rounds generalizing m node parent with
  | zero => cases ran
  | succ rounds ih => ?_
  unfold rbEraseColor at ran
  generalize (if node = m.child .right parent then Side.right else .left) = side at ran
  dsimp only at ran
  split at ran
  · cases ran
  rename_i sibling _
  have onward (m₁ : Mem Data Aug) (sibling : Id) (same : dataOf m₁ = dataOf m)
      (ran : eraseOnward f rounds parent (eraseRound f side m₁ parent sibling) = .ok m') :
      dataOf m' = dataOf m := by
    have round := dataOf_eraseRound (f := f) (m := m₁) side parent sibling
    unfold eraseOnward at ran
    split at ran
    · rename_i m₂ ended
      cases ran
      rw [ended] at round
      exact round.trans same
    rename_i m₂ above ended
    rw [ended] at round
    exact (ih ran).trans (round.trans same)
  split at ran
  · obtain ⟨⟨m₁, tmp1⟩, first, ran⟩ := bind_eq_ok.mp ran
    refine onward m₁ tmp1 ?_ ran
    unfold eraseCase1 at first
    split at first
    · cases first
    cases first
    simp
  exact onward m sibling rfl ran

theorem dataOf_takeSuccessor [DecidableEq Aug] {child s p : Id} {c : Option Id}
    (ran : takeSuccessor f rounds m node child = .ok (m', s, p, c)) : dataOf m' = dataOf m := by
  unfold takeSuccessor at ran
  split at ran
  · cases ran
    simp [copy]
  obtain ⟨⟨parent, successor⟩, _, ran⟩ := bind_eq_ok.mp ran
  obtain ⟨m₁, propagated, ran⟩ := bind_eq_ok.mp ran
  cases ran
  rw [dataOf_propagate propagated]
  simp [copy]

theorem dataOf_replaceNode (node left s p : Id) (c : Option Id) :
    dataOf (replaceNode m node left s p c).1 = dataOf m := by
  cases c <;> simp [replaceNode]

theorem dataOf_rbEraseNode [DecidableEq Aug] {rebalance : Option Id}
    (ran : rbEraseNode f rounds m node = .ok (m', rebalance)) : dataOf m' = dataOf m := by
  unfold rbEraseNode at ran
  dsimp only at ran
  split at ran
  · obtain ⟨m₁, propagated, ran⟩ := bind_eq_ok.mp ran
    cases ran
    rw [dataOf_propagate propagated, dataOf_rbChangeChild]
  · obtain ⟨m₁, propagated, ran⟩ := bind_eq_ok.mp ran
    cases ran
    rw [dataOf_propagate propagated, dataOf_rbSetParentColor, dataOf_rbChangeChild]
  · obtain ⟨m₁, propagated, ran⟩ := bind_eq_ok.mp ran
    cases ran
    rw [dataOf_propagate propagated, dataOf_rbChangeChild, dataOf_rbSetParentColor]
  obtain ⟨⟨m₁, s, p, c⟩, taken, ran⟩ := bind_eq_ok.mp ran
  obtain ⟨m₂, propagated, ran⟩ := bind_eq_ok.mp ran
  cases ran
  rw [dataOf_propagate propagated, dataOf_replaceNode, dataOf_takeSuccessor taken]

theorem dataOf_rbEraseAugmented [DecidableEq Aug]
    (ran : rbEraseAugmented f rounds m node = .ok m') : dataOf m' = dataOf m := by
  obtain ⟨⟨m₁, rebalance⟩, erased, ran⟩ := bind_eq_ok.mp ran
  have same := dataOf_rbEraseNode erased
  cases rebalance with
  | none =>
    cases ran
    exact same
  | some rebalance => exact (dataOf_rbEraseColor ran).trans same

end

/-- The child slot that a path leads to, as `rb_link_node` is given it. -/
def slot (path : RbPath Data Aug) : Option (Id × Side) :=
  path.head?.map fun frame => (frame.id, frame.side)

/-- A tree ready for a new leaf: the path to its place has been given the augmented fields that it
has with the leaf. -/
structure Updated (f : Compute Data Aug) (m : Mem Data Aug) (path : RbPath Data Aug) (node : Id) :
    Prop where
  holds : Holds m (path.fill .nil)
  redBlack : RedBlack (path.fill (.nil : RbTree Data Aug))
  fresh : node ∉ (path.fill (.nil : RbTree Data Aug)).ids
  leaf : (m.info node).aug = f (m.info node).data none none
  around : AugmentedPath f (some (m.info node).aug) path

theorem rbLinkNode_focus {node : Id} (focus : Focus m path .nil) (fresh : node ∉ Path.ids path) :
    Focus (rbLinkNode m node (slot path)) path
      (.node .nil node { m.info node with color := .red } .nil) := by
  obtain ⟨around, _, nodup⟩ := focus
  have unique : (Path.ids path ++ [node]).Nodup := by
    rw [Bin.ids, append_nil] at nodup
    rw [← concat_eq_append]
    exact nodup.concat fresh
  cases path with
  | nil =>
    refine ⟨rfl, ⟨if_pos rfl, if_pos rfl, ?_, ?_, trivial, trivial⟩, unique⟩
    · simp [rbLinkNode, slot, setChild_child]
    simp [rbLinkNode, slot, setChild_child]
  | cons frame path => ?_
  obtain ⟨holds, up, _, across, sibling, outer⟩ := around
  rw [Path.ids_cons, mem_cons, not_or, mem_append, not_or] at fresh
  obtain ⟨notHere, notSibling, notAbove⟩ := fresh
  have apart := unique
  rw [Path.ids_cons, cons_append, nodup_cons, append_assoc, mem_append, mem_append, not_or,
    not_or] at apart
  obtain ⟨⟨offSibling, offAbove, _⟩, _⟩ := apart
  have kept (x : Id) (notNode : x ≠ node) (notFrame : x ≠ frame.id) :
      Same m (rbLinkNode m node (slot (frame :: path))) x := by
    refine ⟨if_neg notNode, if_neg notNode, fun side => ?_⟩
    simp [rbLinkNode, slot, setChild_child, notNode, notFrame, rbSetParentColor, setColor]
  have sameFrame : frame.id ≠ node := Ne.symm notHere
  refine ⟨⟨?_, ?_, ?_, ?_, ?_, ?_⟩, ⟨if_pos rfl, if_pos rfl, ?_, ?_, trivial, trivial⟩, ?_⟩
  · exact (if_neg sameFrame).trans holds
  · exact (if_neg sameFrame).trans up
  · exact if_pos ⟨rfl, rfl⟩
  · simpa [rbLinkNode, slot, setChild_child, sameFrame, rbSetParentColor, setColor] using across
  · exact sibling.congr fun x mem => kept x (fun same => notSibling (same ▸ mem)) fun same =>
      offSibling (same ▸ mem)
  · exact outer.congr rfl fun x mem => kept x (fun same => notAbove (same ▸ mem)) fun same =>
      offAbove (same ▸ mem)
  · simp [rbLinkNode, slot, setChild_child, notHere]
  · simp [rbLinkNode, slot, setChild_child, notHere]
  exact unique

/-- A leaf linked anywhere and rebalanced with `insert`: the tree is red-black and augmented again,
that node is the only new one in the order, and nothing is written to the nodes' contents. -/
def InsertProper (f : Compute Data Aug)
    (insert : Nat → Mem Data Aug → Id → Except Fault (Mem Data Aug)) : Prop :=
  ∀ (m : Mem Data Aug) (path : RbPath Data Aug) (node : Id) (rounds : Nat),
    Updated f m path node → (path.fill (.nil : RbTree Data Aug)).ids.length < rounds →
    ∃ m', insert rounds (rbLinkNode m node (slot path)) node = .ok m' ∧
      Proper f m' (path.before ++ node :: path.after) ∧ dataOf m' = dataOf m

/-- The same for any node erased with `erase`. -/
def EraseProper (f : Compute Data Aug)
    (erase : Nat → Mem Data Aug → Id → Except Fault (Mem Data Aug)) : Prop :=
  ∀ (m : Mem Data Aug) (t : RbTree Data Aug) (node : Id) (rounds : Nat),
    Holds m t → RedBlack t → Augmented f t → node ∈ t.ids → t.ids.length < rounds →
    ∃ m', erase rounds m node = .ok m' ∧ Proper f m' (t.ids.erase node) ∧ dataOf m' = dataOf m

theorem rbInsert_proper (inv : RotationInvariant f) : InsertProper f (rbInsert f) := by
  intro m path node rounds updated enough
  have perm := Path.perm_fill path (.nil : RbTree Data Aug)
  have fresh : node ∉ Path.ids path := fun mem =>
    updated.fresh (perm.mem_iff.mpr (mem_append_left _ mem))
  have focus := rbLinkNode_focus (focus_iff_holds.mpr updated.holds) fresh
  have augmented : Augmented f
      (path.fill (.node .nil node { m.info node with color := .red } .nil)) :=
    (augmented_fill f).mpr ⟨updated.around, updated.leaf, trivial, trivial⟩
  have short : path.length < rounds := by
    have total := perm.length_eq
    rw [length_append] at total
    have few := length_le_ids path
    omega
  obtain ⟨m', ran, proper⟩ :=
    rbInsert_spec inv rfl (focus_iff_holds.mp focus) updated.redBlack augmented short
  exact ⟨m', ran, proper, (dataOf_rbInsert ran).trans (dataOf_rbLinkNode m node _)⟩

theorem rbEraseAugmented_proper [DecidableEq Aug] (inv : RotationInvariant f) :
    EraseProper f (rbEraseAugmented f) := by
  intro m t node rounds holds redBlack augmented mem enough
  obtain ⟨m', ran, proper⟩ := rbEraseAugmented_spec inv holds redBlack augmented mem enough
  exact ⟨m', ran, proper, dataOf_rbEraseAugmented ran⟩

/-- Insertion and erasure, augmented and plain, keep the trees valid. -/
theorem insert_and_erase_proper [DecidableEq Aug] (f : Compute Data Aug)
    (invariant : RotationInvariant f) :
    InsertProper f (rbInsert f) ∧ EraseProper f (rbEraseAugmented f) ∧
      InsertProper (dummyCompute : Compute Data Unit) rbInsertColor ∧
      EraseProper (dummyCompute : Compute Data Unit) rbErase := by
  have dummy : RotationInvariant (dummyCompute : Compute Data Unit) := fun _ _ _ _ _ => rfl
  exact ⟨rbInsert_proper invariant, rbEraseAugmented_proper invariant, rbInsert_proper dummy,
    rbEraseAugmented_proper dummy⟩

/-- Two nodes in a row, the root and a red right child; a third one is not linked yet. -/
def chain (aug : Id → Nat) : Mem Nat Nat where
  root := some 0
  info id := ⟨if id = 1 then .red else .black, id, aug id⟩
  parent id := if id = 1 then some 0 else none
  child side id := if side = .right ∧ id = 0 then some 1 else none

def chainPath (aug : Id → Nat) : RbPath Nat Nat :=
  [⟨.right, 1, ⟨.red, 1, aug 1⟩, .nil⟩, ⟨.right, 0, ⟨.black, 0, aug 0⟩, .nil⟩]

theorem chain_holds (aug : Id → Nat) : Holds (chain aug) ((chainPath aug).fill .nil) := by
  refine focus_iff_holds.mp ⟨?_, trivial, ?_⟩
  · simp [chainPath, RepPath, chain, Side.other, Bin.Rep]
  simp [chainPath, Bin.ids]

theorem chain_redBlack (aug : Id → Nat) :
    RedBlack ((chainPath aug).fill (.nil : RbTree Nat Nat)) := by
  refine ⟨rfl, 1, 0, rfl, rfl, ?_⟩
  exact ⟨rfl, rfl, rfl, rfl⟩

/-- The largest key of a subtree. -/
def subtreeMax : Compute Nat Nat := fun key left right => max key (max (left.getD 0) (right.getD 0))

theorem insert_and_erase_chain :
    (∃ m', rbInsert subtreeMax 3 (rbLinkNode (chain fun _ => 2) 2 (some (1, .right))) 2 = .ok m' ∧
        Proper subtreeMax m' [0, 1, 2] ∧ dataOf m' = id) ∧
      (∃ m', rbEraseAugmented subtreeMax 3 (chain fun _ => 1) 0 = .ok m' ∧
        Proper subtreeMax m' [1] ∧ dataOf m' = id) := by
  have invariant : RotationInvariant subtreeMax := by
    intro top inner x y z
    simp only [subtreeMax, Option.getD_some]
    omega
  obtain ⟨insert, erase, _⟩ := insert_and_erase_proper subtreeMax invariant
  constructor
  · refine insert (chain fun _ => 2) (chainPath fun _ => 2) 2 3
      ⟨chain_holds _, chain_redBlack _, by decide, by decide, ?_⟩ (by decide)
    exact ⟨rfl, trivial, rfl, trivial, trivial⟩
  refine erase (chain fun _ => 1) _ 0 3 (chain_holds _) (chain_redBlack _) ?_ (by decide)
    (by decide)
  exact ⟨rfl, trivial, rfl, trivial, trivial⟩

theorem root_computed {id : Id} (holds : Holds m t) (augmented : Augmented f t)
    (root : m.root = some id) : (m.info id).aug = rbCompute f m id := by
  obtain ⟨around, here, _⟩ := holds
  obtain ⟨info, left, right, rfl⟩ := exists_on (around.symm.trans root) .left
  obtain ⟨rfl, _, onLeft, onRight, repLeft, repRight⟩ := here
  rw [rbCompute, onLeft, onRight, rootAug_of_rep repLeft, rootAug_of_rep repRight]
  exact augmented.1

/-- The height of a subtree. -/
def subtreeHeight : Compute Nat Nat := fun _ left right => max (left.getD 0) (right.getD 0) + 1

/-- A rotation hands the value of the old top to the new one, but the subtree got flatter. -/
theorem rotation_keeps_stale_height :
    Updated subtreeHeight (chain fun id => 3 - id) (chainPath fun id => 3 - id) 2 ∧
      ∃ m', rbInsert subtreeHeight 3 (rbLinkNode (chain fun id => 3 - id) 2 (some (1, .right))) 2 =
          .ok m' ∧ ¬ Proper subtreeHeight m' [0, 1, 2] := by
  refine ⟨⟨chain_holds _, chain_redBlack _, by decide, by decide,
      ⟨rfl, trivial, rfl, trivial, trivial⟩⟩, _, rfl, ?_⟩
  rintro ⟨t, holds, _, augmented, _⟩
  have computed := root_computed holds augmented rfl
  revert computed
  decide

end TinyKernel.Rbtree
