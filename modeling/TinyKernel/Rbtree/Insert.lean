import TinyKernel.Rbtree.Turn

/-! `__rb_insert`: from a red leaf upwards the loop restores the red-black properties. -/

namespace TinyKernel.Rbtree

open Lib Bin Links List

variable {Data Aug : Type} {m m' : Mem Data Aug} {path : RbPath Data Aug} {side : Side}
variable {f : Compute Data Aug} {count : Nat} {t : RbTree Data Aug}

/-- The memory holds an augmented red-black tree with these nodes in order. -/
def Proper (f : Compute Data Aug) (m : Mem Data Aug) (ids : List Id) : Prop :=
  ∃ t, Holds m t ∧ RedBlack t ∧ Augmented f t ∧ t.ids = ids

theorem proper_of_focus (focus : Focus m path t) (balanced : Balanced count t)
    (accepts : Accepts path count (rootColor t)) (around : AugmentedPath f (rootAug t) path)
    (augmented : Augmented f t) : Proper f m (path.fill t).ids :=
  ⟨path.fill t, focus_iff_holds.mp focus, accepts.redBlack balanced,
    (augmented_fill f).mpr ⟨around, augmented⟩, rfl⟩

variable {near far : RbTree Data Aug}

theorem setRoot_black (black : rootColor x = .black) : x.setRoot (paint (some .black)) = x := by
  cases x with
  | nil => rfl
  | node left id info right => ?_
  obtain ⟨color, data, aug⟩ := info
  cases black
  rfl

variable {id node : Id} {info : Info Data Aug}

theorem Augmented.recolor (augmented : Augmented f (on side id info near far)) (color : Color) :
    Augmented f (on side id { info with color } near far) := by
  rw [augmented_on] at augmented ⊢
  exact augmented

/-- `tmp && rb_is_red(tmp)` for the root of a tree. -/
theorem filter_isRed {parent : Option Id} (rep : Rep m parent t) :
    t.root.filter (isRed m) = if rootColor t = .red then t.root else none := by
  cases t with
  | nil => rfl
  | node left id info right => ?_
  have painted : isRed m id = decide (info.color = .red) := by rw [isRed, color, rep.1]
  rw [Bin.root, rootColor, Option.filter_some, painted]
  by_cases red : info.color = .red
  · simp [red]
  simp [red]

theorem fill_other (side : Side) (id : Id) (info : Info Data Aug) (near far : RbTree Data Aug) :
    (Frame.mk side.other id info near).fill far = on side id info near far :=
  on_other side id info far near

/-- A node seen in the other child's place. -/
theorem focus_far :
    Focus m path (on side id info near far) ↔
      Focus m (⟨side.other, id, info, near⟩ :: path) far := by
  rw [← fill_other, focus_fill]

theorem focus_near :
    Focus m path (on side id info near far) ↔ Focus m (⟨side, id, info, far⟩ :: path) near := by
  rw [← focus_fill, Frame.fill]

/-- Everything a rotation needs, from a tree in order. -/
theorem ready_of_focus (focus : Focus m path (on side old oldInfo (on side new newInfo y x) z)) :
    Ready m path side old oldInfo new newInfo y x z := by
  obtain ⟨around, here, nodup⟩ := focus
  obtain ⟨oldHolds, up, _, oldFar, inner, far⟩ := rep_on.mp here
  obtain ⟨newHolds, _, newNear, _, near, moved⟩ := rep_on.mp inner
  rw [root_on] at around
  exact ⟨around, oldHolds, up, oldFar, newHolds, newNear, near, ⟨_, moved⟩, far, nodup⟩

theorem insertCase3_eq_turn (m : Mem Data Aug) (gparent parent : Id) (tmp : Option Id) :
    insertCase3 f side m gparent parent tmp =
      turn f side m gparent parent tmp (some .black) .red := by
  cases tmp <;> rfl

theorem insertCase2_eq_halfTurn (m : Mem Data Aug) (parent node : Id) :
    insertCase2 f side m parent node =
      halfTurn f side.other m parent node (m.child side node) .red := by
  rw [insertCase2, halfTurn, shift, Side.other_other]
  cases m.child side node <;> rfl

/-- The rotation at the grandparent ends the loop. -/
theorem proper_turn (inv : RotationInvariant f) (ready : Ready m path side g gInfo p pInfo y x z)
    (black : gInfo.color = .black) (yBalanced : Balanced count y) (xBalanced : Balanced count x)
    (zBalanced : Balanced count z) (xBlack : rootColor x = .black) (zBlack : rootColor z = .black)
    (accepts : Accepts path (count + 1) .black) (around : AugmentedPath f (some gInfo.aug) path)
    (augmented : Augmented f (on side g gInfo (on side p pInfo y x) z)) :
    Proper f (insertCase3 f side m g p x.root)
      (path.fill (on side g gInfo (on side p pInfo y x) z)).ids := by
  have focus := ready.turn f (some .black) .red
  rw [setRoot_black xBlack] at focus
  have moved := ((augmented_on f).mp ((augmented_on f).mp augmented).2.1).2.2
  have lower : Balanced count (on side g
      { gInfo with color := .red, aug := computeOn f side gInfo.data (rootAug x) (rootAug z) } x
      z) :=
    (balanced_red rfl).mpr ⟨xBlack, zBlack, xBalanced, zBalanced⟩
  have whole : Balanced (count + 1) (on side p { pInfo with color := gInfo.color, aug := gInfo.aug }
      y (on side g
      { gInfo with color := .red, aug := computeOn f side gInfo.data (rootAug x) (rootAug z) } x
      z)) := by
    rw [balanced_black (by exact black)]
    exact ⟨yBalanced, lower⟩
  have proper := proper_of_focus focus whole (by rw [rootColor_on, black]; exact accepts)
    (by rw [rootAug_on]; exact around) (augmented.turn inv _ _ moved rfl)
  rw [insertCase3_eq_turn]
  have same := ids_turn side g p gInfo pInfo
    { gInfo with color := .red, aug := computeOn f side gInfo.data (rootAug x) (rootAug z) }
    { pInfo with color := gInfo.color, aug := gInfo.aug } y x z (paint (some .black))
  rw [setRoot_black xBlack] at same
  rw [Path.ids_fill, same, ← Path.ids_fill] at proper
  exact proper

/-- The parent hangs on the side that the comparison with `rb_right` tells. -/
theorem side_eq {frame : Frame (Info Data Aug)} {parent : Id}
    (down : m.child frame.side frame.id = some parent)
    (across : m.child frame.side.other frame.id = frame.sibling.root)
    (apart : parent ∉ frame.sibling.ids) :
    (if m.child .right frame.id = some parent then Side.right else .left) = frame.side := by
  cases side : frame.side with
  | right => rw [if_pos (side ▸ down)]
  | left => ?_
  rw [side] at across
  exact if_neg fun same => apart (root_mem (across.symm.trans same))

/-- Case 1: the colours of parent, uncle and grandparent flipped. -/
theorem flip_focus
    (focus : Focus m path (on side g gInfo (on pSide p pInfo n s) (on uSide u uInfo x y))) :
    ∃ m', rbSetParentColor (rbSetParentColor m u (some g) .black) p (some g) .black = m' ∧
      m'.parent g = Path.above path ∧
      Focus (rbSetParentColor m' g (Path.above path) .red) path (on side g
        { gInfo with color := .red } (on pSide p { pInfo with color := .black } n s)
        (on uSide u { uInfo with color := .black } x y)) := by
  have uncle := focus_far.mpr (recolor_focus (focus_far.mp focus) .black)
  have parent := focus_near.mpr (recolor_focus (focus_near.mp uncle) .black)
  exact ⟨_, rfl, (rep_on.mp parent.here).2.1, recolor_focus parent .red⟩

/-- The nodes in order before and after case 2. -/
theorem ids_halfTurn (side : Side) (g p n : Id) (gInfo pInfo nInfo pInfo' nInfo' : Info Data Aug)
    (a b s u : RbTree Data Aug) (change : Info Data Aug → Info Data Aug) :
    (on side g gInfo (on side n nInfo' (on side.other p pInfo' (a.setRoot change) s) b) u).ids =
      (on side g gInfo (on side.other p pInfo (on side n nInfo a b) s) u).ids := by
  cases side <;> simp [on, ids, Side.other]

/-- Case 2 leaves everything ready for case 3. -/
theorem ready_of_halfTurn
    (whole : Focus m path (on side g gInfo (on side.other p pInfo (on side n nInfo a b) s) u)) :
    Ready (insertCase2 f side m p n) path side g gInfo n { nInfo with aug := pInfo.aug }
        (on side.other p { pInfo with
          color := .red,
          aug := computeOn f side.other pInfo.data (rootAug a) (rootAug s) }
          (a.setRoot (paint (some .black))) s) b u ∧
      (insertCase2 f side m p n).child side.other n = b.root := by
  obtain ⟨around, here, nodup⟩ := whole
  obtain ⟨gHolds, gUp, gNear, gFar, inner, far⟩ := rep_on.mp here
  have unique := nodup_append.mp nodup
  obtain ⟨gInner, gU, innerNodup, uNodup, apartU⟩ := nodup_on.mp unique.2.1
  rw [← on_other side n nInfo b a] at inner innerNodup gInner apartU
  have onNear : m.child side n = a.root := (rep_on.mp (rep_on.mp inner).2.2.2.2.1).2.2.2.1 ▸ by
    rw [Side.other_other]
  have spec := halfTurn_spec f inner innerNodup .red
  rw [insertCase2_eq_halfTurn, onNear]
  generalize halfTurn f side.other m p n a.root .red = m' at spec
  have out {i : Id} (mem : i ∈ path.ids) : Same m m' i := by
    refine spec.kept i fun inside => ?_
    refine unique.2.2 i mem i (mem_ids_on.mpr (.inr (.inl ?_))) rfl
    rw [← on_other side n nInfo b a]
    exact inside
  have sameG := spec.kept g gInner
  have nearN := spec.newFar
  rw [Side.other_other] at nearN
  refine ⟨⟨?_, sameG.info.trans gHolds, sameG.parent.trans gUp, (sameG.child _).trans gFar,
    spec.newHolds, ?_, spec.far, ⟨_, spec.near⟩, ?_, ?_⟩, spec.newNear⟩
  · rw [root_on] at around
    exact around.congr spec.root fun i mem => out mem
  · rw [nearN, root_on]
  · exact far.congr fun i mem => spec.kept i fun inside => apartU i inside mem
  rw [ids_halfTurn side g p n gInfo pInfo nInfo]
  exact nodup

/-- What the loop of `__rb_insert` starts a round with: a red node with black children, in a
place that would take it if it were black. -/
structure Inserting (f : Compute Data Aug) (m : Mem Data Aug) (path : RbPath Data Aug) (node : Id)
    (t : RbTree Data Aug) (count : Nat) : Prop where
  focus : Focus m path t
  root : t.root = some node
  red : rootColor t = .red
  balanced : Balanced count t
  accepts : Accepts path count .black
  around : AugmentedPath f (rootAug t) path
  augmented : Augmented f t

theorem rbInsertLoop_spec (inv : RotationInvariant f) {rounds : Nat}
    (inserting : Inserting f m path node t count) (enough : path.length < rounds) :
    ∃ m', rbInsertLoop f rounds m node (Path.above path) = .ok m' ∧
      Proper f m' (path.fill t).ids := by
  induction rounds generalizing m path node t count with
  | zero => omega
  | succ rounds ih => ?_
  obtain ⟨focus, root, red, balanced, accepts, around, augmented⟩ := inserting
  cases path with
  | nil =>
    obtain ⟨info, near, far, rfl⟩ := exists_on root .left
    obtain ⟨_, _, nearBalanced, farBalanced⟩ := (balanced_red red).mp balanced
    have painted := recolor_focus focus .black
    refine ⟨_, rfl, ?_⟩
    have proper := proper_of_focus painted
      ((balanced_black rfl).mpr ⟨nearBalanced, farBalanced⟩) (rootColor_on ..) trivial
      (augmented.recolor .black)
    exact proper
  | cons frame path => ?_
  obtain ⟨holds, up, down, across, repSibling, outer⟩ := focus.around
  have parentColor : color m frame.id = frame.info.color := by rw [color, holds]
  rw [Path.above_cons, rbInsertLoop]
  simp only [parentColor]
  cases shade : frame.info.color with
  | black =>
    refine ⟨m, if_pos rfl, proper_of_focus focus balanced ?_ around augmented⟩
    obtain ⟨sibling, rest⟩ := accepts
    rw [shade] at rest
    refine ⟨sibling, ?_⟩
    rw [shade]
    exact rest
  | red => ?_
  obtain ⟨siblingBalanced, rest⟩ := accepts
  rw [shade] at rest
  obtain ⟨_, siblingBlack, accepts⟩ := rest
  cases path with
  | nil => cases accepts
  | cons gframe path => ?_
  obtain ⟨uncleBalanced, rest⟩ := accepts
  cases gshade : gframe.info.color with
  | red =>
    rw [gshade] at rest
    cases rest.1
  | black => ?_
  rw [gshade] at rest
  obtain ⟨gholds, gup, gdown, gacross, uncle, gouter⟩ := outer
  have unique := focus.nodup
  simp only
    [Path.ids_cons, cons_append, nodup_cons, mem_append, append_assoc, mem_cons, not_or] at unique
  have apart : frame.id ∉ gframe.sibling.ids := unique.1.2.2.1
  have redParent : rbRedParent m frame.id = .ok (some gframe.id) := by
    rw [rbRedParent, if_pos (parentColor.trans shade), up, Path.above_cons]
  simp only [if_neg (by simp : ¬ Color.red = Color.black), redParent, bind, Except.bind,
    side_eq gdown gacross apart, gacross, filter_isRed uncle]
  have whole := focus_fill.mpr (focus_fill.mpr focus)
  obtain ⟨pSide, p, pInfo, s⟩ := frame
  obtain ⟨gSide, g, gInfo, uncleTree⟩ := gframe
  simp only [Frame.fill] at *
  obtain ⟨pAug, sAug, gAug, uAug, pathAug⟩ := around
  by_cases uncleRed : rootColor uncleTree = .red
  · obtain ⟨u, uRoot⟩ : ∃ u, uncleTree.root = some u := by
      cases uncleTree with
      | nil => cases uncleRed
      | node left u info right => exact ⟨u, rfl⟩
    rw [if_pos uncleRed, uRoot]
    obtain ⟨uInfo, x, y, rfl⟩ := exists_on uRoot .left
    obtain ⟨_, _, xBalanced, yBalanced⟩ := (balanced_red uncleRed).mp uncleBalanced
    obtain ⟨m', painted, upper, flipped⟩ := flip_focus whole
    simp only [painted, upper]
    have inserting : Inserting f (rbSetParentColor m' g (Path.above path) .red) path g
        (on gSide g { gInfo with color := .red } (on pSide p { pInfo with color := .black } t s)
          (on .left u { uInfo with color := .black } x y)) (count + 1) := by
      refine ⟨flipped, root_on .., rootColor_on .., ?_, rest, ?_, ?_⟩
      · rw [balanced_red rfl, rootColor_on, rootColor_on, balanced_black rfl, balanced_black rfl]
        exact ⟨rfl, rfl, ⟨balanced, siblingBalanced⟩, xBalanced, yBalanced⟩
      · rw [rootAug_on]
        exact pathAug
      simp only [augmented_on, rootAug_on] at uAug ⊢
      exact ⟨gAug, ⟨pAug, augmented, sAug⟩, uAug⟩
    simp only [length_cons] at enough
    obtain ⟨last, ran, proper⟩ := ih inserting (by omega)
    refine ⟨last, ran, ?_⟩
    rw [Path.ids_fill] at proper
    rw [Path.fill_cons, Path.fill_cons, Path.ids_fill, Frame.fill, Frame.fill]
    convert proper using 3
    simp only [ids_on]
  rw [if_neg uncleRed]
  have uncleBlack : rootColor uncleTree = .black := by
    cases shadeU : rootColor uncleTree with
    | red => exact absurd shadeU uncleRed
    | black => rfl
  have nodeApart : node ∉ s.ids :=
    (nodup_on.mp (nodup_on.mp (nodup_append.mp whole.nodup).2.1).2.2.1).2.2.2.2 node (root_mem root)
  rcases Side.eq_or_eq_other gSide pSide with rfl | rfl
  · rw [across, if_neg fun same => nodeApart (root_mem same.symm)]
    refine ⟨_, rfl, proper_turn inv (ready_of_focus whole) gshade balanced
      siblingBalanced uncleBalanced siblingBlack uncleBlack rest pathAug ?_⟩
    simp only [augmented_on, rootAug_on]
    exact ⟨gAug, ⟨pAug, augmented, sAug⟩, uAug⟩
  rw [down, if_pos root.symm]
  obtain ⟨nInfo, a, b, rfl⟩ := exists_on root gSide
  rw [rootColor_on] at red
  obtain ⟨aBlack, bBlack, aBalanced, bBalanced⟩ := (balanced_red red).mp balanced
  obtain ⟨ready, onFar⟩ := ready_of_halfTurn (f := f) whole
  rw [setRoot_black aBlack] at ready
  have lower : Balanced count (on gSide.other p { pInfo with
      color := .red, aug := computeOn f gSide.other pInfo.data (rootAug a) (rootAug s) }
      a s) := (balanced_red rfl).mpr ⟨aBlack, siblingBlack, aBalanced, siblingBalanced⟩
  simp only [onFar]
  have proper :=
    proper_turn inv ready gshade lower bBalanced uncleBalanced bBlack uncleBlack rest pathAug ?_
  · refine ⟨_, rfl, ?_⟩
    have same := ids_halfTurn gSide g p node gInfo pInfo nInfo
      { pInfo with
        color := .red, aug := computeOn f gSide.other pInfo.data (rootAug a) (rootAug s) }
      { nInfo with aug := pInfo.aug } a b s uncleTree (paint (some .black))
    rw [setRoot_black aBlack] at same
    rw [Path.ids_fill, same, ← Path.ids_fill] at proper
    exact proper
  have before : Augmented f (on gSide.other p pInfo (on gSide.other node nInfo b a) s) := by
    rw [on_other gSide node, augmented_on]
    exact ⟨pAug, augmented, sAug⟩
  have inner := before.turn inv nInfo.color .red ((augmented_on f).mp augmented).2.1 rfl
  rw [on_other gSide node] at inner
  rw [augmented_on, rootAug_on]
  exact ⟨gAug, inner, uAug⟩

/-- `__rb_insert` on a red leaf linked into a red-black tree. -/
theorem rbInsert_spec (inv : RotationInvariant f) (red : info.color = .red)
    (holds : Holds m (path.fill (.node .nil node info .nil)))
    (redBlack : RedBlack (path.fill (.nil : RbTree Data Aug)))
    (augmented : Augmented f (path.fill (.node .nil node info .nil)))
    (enough : path.length < rounds) :
    ∃ m', rbInsert f rounds m node = .ok m' ∧ Proper f m' (path.before ++ node :: path.after) := by
  obtain ⟨count, balanced, accepts⟩ := redBlack.accepts
  obtain ⟨around, leaf⟩ := (augmented_fill f).mp augmented
  have focus := focus_iff_holds.mpr holds
  have balancedLeaf : Balanced count (.node .nil node info .nil : RbTree Data Aug) := by
    rw [Balanced, red]
    exact ⟨rfl, rfl, balanced, balanced⟩
  obtain ⟨m', ran, proper⟩ :=
    rbInsertLoop_spec inv ⟨focus, rfl, red, balancedLeaf, accepts, around, leaf⟩ enough
  refine ⟨m', ?_, ?_⟩
  · have painted : color m node = .red := by rw [color, focus.here.1, red]
    rw [rbInsert, rbRedParent, if_pos painted, focus.here.2.1]
    exact ran
  rw [Path.ids_fill] at proper
  simpa [ids] using proper

end TinyKernel.Rbtree
