import TinyKernel.Rbtree.Insert

/-! `____rb_erase_color`: the loop that makes up for a missing black node. -/

namespace TinyKernel.Rbtree

open Lib Bin Links

variable {Data Aug : Type} {m m' : Mem Data Aug} {path : RbPath Data Aug} {side : Side}
variable {f : Compute Data Aug} {count : Nat}

theorem eraseCase4_eq_turn (m : Mem Data Aug) (parent sibling tmp1 : Id) :
    eraseCase4 f side m parent sibling tmp1 =
      turn f side.other (rbSetParentColor m tmp1 (some sibling) .black) parent sibling
        (m.child side sibling) none .black := by
  rw [eraseCase4, turn, shift, Side.other_other]
  cases m.child side sibling <;> rfl

variable {old new id p s : Id}

theorem rotate_setChild (apart : id ≠ old) (m : Mem Data Aug) (side : Side) (child : Option Id) :
    rotate f (m.setChild side id child) old new = (rotate f m old new).setChild side id child := by
  have children (s : Side) : (m.setChild side id child).child s old = m.child s old := by
    simp [setChild_child, Ne.symm apart]
  have computed : rbCompute f (copy (m.setChild side id child) old new) old =
      rbCompute f (copy m old new) old := by
    rw [rbCompute, rbCompute]
    congr 1
    · congr 1
      exact children .left
    congr 1
    exact children .right
  rw [rotate, computed]
  rfl

theorem rotate_setParentColor (ne : old ≠ new) (m : Mem Data Aug) (parent : Option Id)
    (color : Color) :
    rbSetParentColor (rotate f m old new) old parent color =
      rotate f (rbSetParentColor m old parent color) old new := by
  have augs (i : Id) : ((copy (rbSetParentColor m old parent color) old new).info i).aug =
      ((copy m old new).info i).aug := by
    simp only [copy, setAug, rbSetParentColor, setColor, setInfo_info, setParent_info]
    grind
  have datas : ((copy (rbSetParentColor m old parent color) old new).info old).data =
      ((copy m old new).info old).data := by
    simp only [copy, setAug, rbSetParentColor, setColor, setInfo_info, setParent_info]
    grind
  have computed : rbCompute f (copy (rbSetParentColor m old parent color) old new) old =
      rbCompute f (copy m old new) old := by
    simp only [rbCompute, augs, datas]
    rfl
  rw [rotate, rotate, computed]
  ext1
  · rfl
  · funext i
    simp only [copy, setAug, rbSetParentColor, setColor, setInfo_info, setParent_info]
    grind
  · rfl
  rfl

theorem eraseCase3_eq_halfTurn {parent : Id} (apart : parent ≠ sibling) (ne : sibling ≠ tmp2)
    (m : Mem Data Aug) :
    rbSetParentColor (eraseCase3 f side m parent sibling tmp2) sibling (some tmp2) .black =
      (halfTurn f side m sibling tmp2 (m.child side.other tmp2) .black).setChild side.other parent
        (some tmp2) := by
  have shifted : eraseCase3 f side m parent sibling tmp2 =
      rotate f ((shift side m sibling tmp2 (m.child side.other tmp2) (some .black)).setChild
        side.other parent (some tmp2)) sibling tmp2 := by
    rw [eraseCase3, shift]
    cases m.child side.other tmp2 <;> rfl
  rw [shifted, rotate_setParentColor ne, halfTurn, ← rotate_setChild apart]
  rfl

/-- A place that takes a node of this colour over children with this many black nodes. -/
def Takes (path : RbPath Data Aug) (color : Color) (count : Nat) : Prop :=
  match color with
  | .red => Accepts path count .red
  | .black => Accepts path (count + 1) .black

variable {t sib : RbTree Data Aug}

theorem Takes.accepts {color : Color} (takes : Takes path color count) (side : Side) (id : Id)
    (info : Info Data Aug) (same : info.color = color) (nearBlack : rootColor near = .black)
    (farBlack : rootColor far = .black) (nearBalanced : Balanced count near)
    (farBalanced : Balanced count far) :
    ∃ total, Balanced total (on side id info near far) ∧
      Accepts path total (rootColor (on side id info near far)) := by
  cases color with
  | red =>
    refine ⟨count, (balanced_red same).mpr ⟨nearBlack, farBlack, nearBalanced, farBalanced⟩, ?_⟩
    rw [rootColor_on, same]
    exact takes
  | black => ?_
  refine ⟨count + 1, (balanced_black same).mpr ⟨nearBalanced, farBalanced⟩, ?_⟩
  rw [rootColor_on, same]
  exact takes

variable {pInfo : Info Data Aug}

/-- The rotation of case 4 ends the loop: the place of the parent has its black nodes again. -/
theorem proper_case4 (inv : RotationInvariant f) (ready : Ready m path side p pInfo s sInfo y x z)
    (yBalanced : Balanced (count + 1) y) (xBalanced : Balanced count x)
    (zBalanced : Balanced count z) (yBlack : rootColor y = .black)
    (takes : Takes path pInfo.color (count + 1)) (around : AugmentedPath f (some pInfo.aug) path)
    (augmented : Augmented f (on side p pInfo (on side s sInfo y x) z)) :
    Proper f (turn f side m p s x.root none .black)
      (path.fill (on side p pInfo (on side s sInfo y x) z)).ids := by
  have focus := ready.turn f none .black
  have moved := ((augmented_on f).mp ((augmented_on f).mp augmented).2.1).2.2
  have plain : x.setRoot (paint none) = x := by cases x <;> rfl
  have same := ids_turn side p s pInfo sInfo
    { pInfo with color := .black, aug := computeOn f side pInfo.data (rootAug x) (rootAug z) }
    { sInfo with color := pInfo.color, aug := pInfo.aug } y x z (paint none)
  rw [plain] at focus same
  have lower : Balanced (count + 1) (on side p
      { pInfo with color := .black, aug := computeOn f side pInfo.data (rootAug x) (rootAug z) } x
      z) :=
    (balanced_black rfl).mpr ⟨xBalanced, zBalanced⟩
  obtain ⟨total, balanced, accepts⟩ :=
    takes.accepts side s { sInfo with color := pInfo.color, aug := pInfo.aug } rfl yBlack
      (rootColor_on ..) yBalanced lower
  have proper := proper_of_focus focus balanced accepts (by rw [rootAug_on]; exact around)
    (augmented.turn inv _ _ moved rfl)
  rw [Path.ids_fill, same, ← Path.ids_fill] at proper
  exact proper

/-- Case 3 leaves everything ready for case 4. -/
theorem ready_of_case3 {n : Id} {c : RbTree Data Aug}
    (whole : Focus m path (on side p pInfo t (on side s sInfo (on side n nInfo a b) c))) :
    Ready (rbSetParentColor (eraseCase3 f side m p s n) s (some n) .black) path side.other p pInfo n
        { nInfo with aug := sInfo.aug } (on side s
        { sInfo with color := .black, aug := computeOn f side sInfo.data (rootAug b) (rootAug c) }
        (b.setRoot (paint (some .black))) c) a t ∧
      (eraseCase3 f side m p s n).child side n = a.root := by
  obtain ⟨around, here, nodup⟩ := whole
  obtain ⟨pHolds, pUp, pNear, pFar, near, inner⟩ := rep_on.mp here
  have unique := List.nodup_append.mp nodup
  obtain ⟨pT, pInner, tNodup, innerNodup, apartT⟩ := nodup_on.mp unique.2.1
  have onFar : m.child side.other n = b.root := (rep_on.mp (rep_on.mp inner).2.2.2.2.1).2.2.2.1
  have spec := halfTurn_spec f inner innerNodup .black
  have apart : p ≠ s := fun same => pInner (mem_ids_on.mpr (.inl same))
  have ne : s ≠ n := fun same => (nodup_on.mp innerNodup).1 (mem_ids_on.mpr (.inl same))
  have notN : p ≠ n := fun same =>
    pInner (mem_ids_on.mpr (.inr (.inl (mem_ids_on.mpr (.inl same)))))
  have sameChild : (eraseCase3 f side m p s n).child side n =
      (rbSetParentColor (eraseCase3 f side m p s n) s (some n) .black).child side n := rfl
  rw [sameChild, eraseCase3_eq_halfTurn apart ne, onFar]
  generalize halfTurn f side m s n b.root .black = m' at spec
  have written (i : Id) (notP : i ≠ p) : Same m' (m'.setChild side.other p (some n)) i :=
    ⟨rfl, rfl, fun sd => by simp [setChild_child, notP]⟩
  have out {i : Id} (mem : i ∈ path.ids) : Same m (m'.setChild side.other p (some n)) i := by
    refine (spec.kept i fun inside => ?_).trans (written i ?_)
    · exact unique.2.2 i mem i (mem_ids_on.mpr (.inr (.inr inside))) rfl
    exact unique.2.2 i mem p (mem_ids_on.mpr (.inl rfl))
  have sameP := spec.kept p pInner
  have innerKept {t : RbTree Data Aug} {parent : Option Id} (rep : Rep m' parent t)
    (notP : p ∉ t.ids) :
      Rep (m'.setChild side.other p (some n)) parent t :=
    rep.congr fun i mem => written i fun same => notP (same ▸ mem)
  simp only [mem_ids_on, not_or] at pInner
  refine ⟨⟨?_, sameP.info.trans pHolds, sameP.parent.trans pUp, ?_, spec.newHolds, ?_,
    innerKept spec.far ?_, ⟨_, innerKept spec.near pInner.2.1.2.1⟩, ?_, ?_⟩, ?_⟩
  · rw [root_on] at around
    exact around.congr spec.root fun i mem => out mem
  · rw [Side.other_other, setChild_child, if_neg fun both => side.ne_other both.1]
    exact (sameP.child side).trans pNear
  · rw [(written n (Ne.symm notN)).child, spec.newFar, root_on]
  · simp only [mem_ids_on, ids_setRoot, not_or]
    exact ⟨pInner.1, pInner.2.1.2.2, pInner.2.2⟩
  · refine near.congr fun i mem => (spec.kept i (apartT i mem)).trans (written i ?_)
    exact fun same => pT (same ▸ mem)
  · have same : (on side.other p pInfo (on side.other n { nInfo with aug := sInfo.aug }
        (on side s
          { sInfo with color := .black, aug := computeOn f side sInfo.data (rootAug b) (rootAug c) }
          (b.setRoot (paint (some .black))) c) a) t).ids =
        (on side p pInfo t (on side s sInfo (on side n nInfo a b) c)).ids := by
      cases side <;> simp [on, ids, Side.other]
    rw [same]
    exact nodup
  rw [(written n (Ne.symm notN)).child, spec.newNear]

/-- What the loop of `____rb_erase_color` starts a round with: below `frame` hangs a tree that
lacks one black node. -/
structure Erasing (f : Compute Data Aug) (m : Mem Data Aug) (frame : Frame (Info Data Aug))
    (path : RbPath Data Aug) (t : RbTree Data Aug) (count : Nat) : Prop where
  focus : Focus m (frame :: path) t
  black : rootColor t = .black
  balanced : Balanced count t
  sibling : Balanced (count + 1) frame.sibling
  siblingBlack : frame.info.color = .red → rootColor frame.sibling = .black
  takes : Takes path frame.info.color (count + 1)
  around : AugmentedPath f (rootAug t) (frame :: path)
  augmented : Augmented f t

/-- Case 1 makes the sibling black. -/
theorem erasing_case1 (inv : RotationInvariant f)
    (erasing : Erasing f m ⟨side, p, pInfo, sib⟩ path t count) (root : sib.root = some s)
    (red : rootColor sib = .red) :
    ∃ m' tmp1 pInfo' sib' frame', eraseCase1 f side m p s = .ok (m', tmp1) ∧ sib'.root = some tmp1 ∧
      rootColor sib' = .black ∧ pInfo'.color = .red ∧
      Erasing f m' ⟨side, p, pInfo', sib'⟩ (frame' :: path) t count ∧
      (Path.fill (⟨side, p, pInfo', sib'⟩ :: frame' :: path) t).ids =
        (Path.fill (⟨side, p, pInfo, sib⟩ :: path) t).ids := by
  obtain ⟨focus, black, balanced, sibling, siblingBlack, takes, around, augmented⟩ := erasing
  obtain ⟨sInfo, near, far, rfl⟩ := exists_on root side
  rw [rootColor_on] at red
  obtain ⟨nearBlack, farBlack, nearBalanced, farBalanced⟩ := (balanced_red red).mp sibling
  have parentBlack : pInfo.color = .black := by
    cases shade : pInfo.color with
    | black => rfl
    | red => ?_
    have impossible := siblingBlack shade
    rw [rootColor_on, red] at impossible
    cases impossible
  obtain ⟨tmp1, nearRoot⟩ : ∃ tmp1, near.root = some tmp1 := by
    cases near with
    | nil => cases nearBalanced
    | node left tmp1 info right => exact ⟨tmp1, rfl⟩
  have whole := focus_near.mpr focus
  rw [← on_other side p, ← on_other side s] at whole
  have onNear : m.child side s = some tmp1 := by
    have far' := (rep_on.mp (rep_on.mp whole.here).2.2.2.2.1).2.2.2.1
    rw [Side.other_other] at far'
    exact far'.trans nearRoot
  have ran : eraseCase1 f side m p s =
      .ok (turn f side.other m p s near.root (some .black) .red, tmp1) := by
    rw [eraseCase1, onNear, turn, shift, Side.other_other, nearRoot]
    rfl
  have turned := (ready_of_focus whole).turn f (some .black) .red
  rw [setRoot_black nearBlack, on_other side s, on_other side p] at turned
  refine ⟨_, tmp1, _, near, _, ran, nearRoot, nearBlack, rfl, ⟨focus_near.mp (focus_near.mp turned),
    black, balanced, nearBalanced, fun _ => nearBlack, ⟨farBalanced, ?_⟩, ?_, augmented⟩, ?_⟩
  · rw [parentBlack] at takes ⊢
    exact takes
  · obtain ⟨pAug, sAug, pathAug⟩ := around
    rw [rootAug_on] at pAug
    obtain ⟨sEq, nearAug, farAug⟩ := (augmented_on f).mp sAug
    have before : Augmented f (on side.other p pInfo (on side.other s sInfo far near) t) := by
      simp only [augmented_on, rootAug_on, computeOn_other]
      exact ⟨pAug, ⟨sEq, farAug, nearAug⟩, augmented⟩
    have after := before.turn inv .black .red nearAug rfl
    simp only [augmented_on, rootAug_on, computeOn_other] at after
    refine ⟨?_, nearAug, ?_, farAug, pathAug⟩
    · rw [computeOn_other]
    rw [computeOn_other]
    exact after.1
  rw [Path.fill_cons, Path.fill_cons, Path.fill_cons, Path.ids_fill, Path.ids_fill]
  congr 2
  cases side <;> simp [Frame.fill, on, ids]

/-- The nodes in order do not depend on the side a node is seen from. -/
theorem ids_fill_other (path : RbPath Data Aug) (p s : Id) (pInfo sInfo sInfo' : Info Data Aug)
    (sameNear : near'.ids = near.ids) (sameFar : far'.ids = far.ids) :
    (path.fill (on side.other p pInfo (on side.other s sInfo' far' near') t)).ids =
      (Path.fill (⟨side, p, pInfo, on side s sInfo near far⟩ :: path) t).ids := by
  rw [Path.fill_cons, Path.ids_fill, Path.ids_fill, Frame.fill]
  congr 2
  cases side <;> simp [on, ids, Side.other, sameNear, sameFar]

theorem setColor_eq {parent : Option Id} (up : m.parent id = parent) (color : Color) :
    setColor m id color = rbSetParentColor m id parent color := by
  have same : m.setParent id parent = m := by
    ext1
    · rfl
    · rfl
    · funext i
      by_cases here : i = id
      · rw [here, setParent_parent, if_pos rfl, up]
      rw [setParent_parent, if_neg here]
    rfl
  rw [rbSetParentColor, same]

theorem color_cases (notRed : ¬ rootColor t = .red) : rootColor t = .black := by
  cases shade : rootColor t with
  | red => exact absurd shade notRed
  | black => rfl

theorem root_of_red (red : rootColor t = .red) : ∃ id, t.root = some id := by
  cases t with
  | nil => cases red
  | node left id info right => exact ⟨id, rfl⟩

/-- How a round ends: the tree is in order, or what is below the parent lacks a black node. -/
inductive RoundEnd (f : Compute Data Aug) (path : RbPath Data Aug) (p : Id) (color : Color)
    (count : Nat) (ids : List Id) : Mem Data Aug × Option Id → Prop where
  | done (m : Mem Data Aug) (proper : Proper f m ids) : RoundEnd f path p color count ids (m, none)
  | again (m : Mem Data Aug) (frame : Frame (Info Data Aug)) (outer : RbPath Data Aug)
      (t : RbTree Data Aug) (shape : path = frame :: outer) (black : color = .black)
      (root : t.root = some p) (erasing : Erasing f m frame outer t (count + 1))
      (same : (Path.fill path t).ids = ids) :
      RoundEnd f path p color count ids (m, some frame.id)

theorem eraseRound_spec (inv : RotationInvariant f)
    (erasing : Erasing f m ⟨side, p, pInfo, sib⟩ path t count) (root : sib.root = some s)
    (siblingBlack : rootColor sib = .black) :
    RoundEnd f path p pInfo.color count (Path.fill (⟨side, p, pInfo, sib⟩ :: path) t).ids
      (eraseRound f side m p s) := by
  obtain ⟨focus, black, balanced, sibling, _, takes, around, augmented⟩ := erasing
  obtain ⟨sInfo, near, far, rfl⟩ := exists_on root side
  rw [rootColor_on] at siblingBlack
  obtain ⟨nearBalanced, farBalanced⟩ := (balanced_black siblingBlack).mp sibling
  obtain ⟨pAug, sAug, pathAug⟩ := around
  rw [rootAug_on] at pAug
  obtain ⟨sEq, nearAug, farAug⟩ := (augmented_on f).mp sAug
  have whole := focus_near.mpr focus
  obtain ⟨_, _, _, _, _, sHere⟩ := rep_on.mp whole.here
  obtain ⟨_, _, onNear, onFar, nearRep, farRep⟩ := rep_on.mp sHere
  rw [eraseRound, onFar, onNear, filter_isRed farRep, filter_isRed nearRep]
  by_cases farRed : rootColor far = .red
  · obtain ⟨r, farRoot⟩ := root_of_red farRed
    rw [if_pos farRed, farRoot]
    obtain ⟨rInfo, c, d, rfl⟩ := exists_on farRoot .left
    obtain ⟨_, _, cBalanced, dBalanced⟩ := (balanced_red farRed).mp farBalanced
    have painted :=
      focus_far.mpr (focus_far.mpr (recolor_focus (focus_far.mp (focus_far.mp whole)) .black))
    rw [← on_other side p, ← on_other side s] at painted
    have farBalanced' : Balanced (count + 1) (on .left r { rInfo with color := .black } c d) :=
      (balanced_black rfl).mpr ⟨cBalanced, dBalanced⟩
    have proper := proper_case4 inv (ready_of_focus painted) farBalanced' nearBalanced balanced
      (rootColor_on ..) takes pathAug ?_
    · have sameFar : (on .left r { rInfo with color := .black } c d).ids =
          (on .left r rInfo c d).ids := by simp only [ids_on]
      rw [ids_fill_other path p s pInfo sInfo sInfo rfl sameFar] at proper
      simp only [eraseCase4_eq_turn, onNear]
      exact .done _ proper
    have farAug' := farAug.recolor .black
    simp only [augmented_on, rootAug_on, computeOn_other] at sEq farAug' ⊢
    exact ⟨pAug, ⟨sEq, farAug', nearAug⟩, augmented⟩
  rw [if_neg farRed]
  by_cases nearRed : rootColor near = .red
  · obtain ⟨n, nearRoot⟩ := root_of_red nearRed
    rw [if_pos nearRed, nearRoot]
    obtain ⟨nInfo, a, b, rfl⟩ := exists_on nearRoot side
    rw [rootColor_on] at nearRed
    obtain ⟨aBlack, bBlack, aBalanced, bBalanced⟩ := (balanced_red nearRed).mp nearBalanced
    obtain ⟨ready, child⟩ := ready_of_case3 (f := f) whole
    rw [setRoot_black bBlack] at ready
    have upper : Balanced (count + 1) (on side s { sInfo with
        color := .black, aug := computeOn f side sInfo.data (rootAug b) (rootAug far) } b far) :=
      (balanced_black rfl).mpr ⟨bBalanced, farBalanced⟩
    have proper :=
      proper_case4 inv ready upper aBalanced balanced (rootColor_on ..) takes pathAug ?_
    · simp only [eraseCase4_eq_turn, child]
      have same : (path.fill (on side.other p pInfo (on side.other n { nInfo with aug := sInfo.aug }
          (on side s { sInfo with
            color := .black, aug := computeOn f side sInfo.data (rootAug b) (rootAug far) } b far)
          a) t)).ids =
          (Path.fill (⟨side, p, pInfo, on side s sInfo (on side n nInfo a b) far⟩ :: path)
            t).ids := by
        rw [Path.fill_cons, Path.ids_fill, Path.ids_fill, Frame.fill]
        congr 2
        cases side <;> simp [on, ids, Side.other]
      rw [same] at proper
      exact .done _ proper
    have after := sAug.turn inv nInfo.color .black ((augmented_on f).mp nearAug).2.2 rfl
    rw [on_other side n, on_other side p, augmented_on, rootAug_on]
    exact ⟨pAug, augmented, after⟩
  rw [if_neg nearRed]
  have painted := focus_far.mpr (recolor_focus (focus_far.mp whole) .red)
  rw [Path.above_cons] at painted
  have lower : Balanced count (on side s { sInfo with color := .red } near far) :=
    (balanced_red rfl).mpr ⟨color_cases nearRed, color_cases farRed, nearBalanced, farBalanced⟩
  have lowerAug : Augmented f (on side s { sInfo with color := .red } near far) := sAug.recolor .red
  obtain ⟨pHolds, up, _⟩ := rep_on.mp painted.here
  have parentColor : isRed (rbSetParentColor m s (some p) .red) p =
      decide (pInfo.color = .red) := by
    exact congrArg (fun info => decide (info.color = .red)) pHolds
  have same (info : Info Data Aug) :
      (path.fill (on side p info t (on side s { sInfo with color := .red } near far))).ids =
        (Path.fill (⟨side, p, pInfo, on side s sInfo near far⟩ :: path) t).ids := by
    rw [Path.fill_cons, Path.ids_fill, Path.ids_fill, Frame.fill]
    simp only [ids_on]
  have joined : Augmented f
      (on side p pInfo t (on side s { sInfo with color := .red } near far)) := by
    rw [augmented_on, rootAug_on]
    exact ⟨pAug, augmented, lowerAug⟩
  simp only [parentColor, decide_eq_true_eq]
  cases shade : pInfo.color with
  | red =>
    rw [if_pos rfl, setColor_eq up]
    refine .done _ ?_
    have proper := proper_of_focus (recolor_focus painted .black)
      ((balanced_black rfl).mpr ⟨balanced, lower⟩) ?_ (by rw [rootAug_on]; exact pathAug)
      (joined.recolor .black)
    · rw [same] at proper
      exact proper
    rw [rootColor_on]
    rw [shade] at takes
    exact Accepts.black takes
  | black => ?_
  have higher : Balanced (count + 1)
      (on side p pInfo t (on side s { sInfo with color := .red } near far)) :=
    (balanced_black shade).mpr ⟨balanced, lower⟩
  have above : (rbSetParentColor m s (some p) .red).parent p = Path.above path := up
  rw [above]
  cases path with
  | nil =>
    have proper := proper_of_focus painted higher (by rw [rootColor_on, shade]; rfl) trivial joined
    rw [same] at proper
    exact .done _ proper
  | cons frame outer => ?_
  rw [shade] at takes
  obtain ⟨sibling', rest⟩ := takes
  refine .again _ frame outer _ rfl rfl (root_on ..)
    ⟨painted, ?_, higher, sibling', ?_, ?_, ?_, joined⟩ (same pInfo)
  · rw [rootColor_on, shade]
  · intro red
    rw [red] at rest
    exact rest.2.1
  · cases color : frame.info.color with
    | red =>
      rw [color] at rest
      exact rest.2.2
    | black => ?_
    rw [color] at rest
    exact rest
  rw [rootAug_on]
  exact pathAug

theorem rbEraseColor_spec (inv : RotationInvariant f) (erasing : Erasing f m frame path t count)
    (enough : path.length < rounds) :
    ∃ m', rbEraseColor f rounds m t.root frame.id = .ok m' ∧
      Proper f m' (Path.fill (frame :: path) t).ids := by
  induction rounds generalizing m frame path t count with
  | zero => omega
  | succ rounds ih => ?_
  obtain ⟨side, p, pInfo, sib⟩ := frame
  obtain ⟨s, sibRoot⟩ : ∃ s, sib.root = some s := by
    cases sib with
    | nil => cases erasing.sibling
    | node left s info right => exact ⟨s, rfl⟩
  have whole := focus_near.mpr erasing.focus
  obtain ⟨_, _, onNear, onFar, _, sibRep⟩ := rep_on.mp whole.here
  rw [sibRoot] at onFar
  have apart : t.root ≠ some s := fun same =>
    (nodup_on.mp (List.nodup_append.mp whole.nodup).2.1).2.2.2.2 s (root_mem same)
      (root_mem sibRoot)
  have sideEq : (if t.root = m.child .right p then Side.right else .left) = side := by
    cases side with
    | right => exact if_pos onNear.symm
    | left => exact if_neg fun same => apart (same.trans onFar)
  have siblingColor : isRed m s = decide (rootColor sib = .red) := by
    obtain ⟨info, near, far, rfl⟩ := exists_on sibRoot .left
    rw [isRed, color, (rep_on.mp sibRep).1, rootColor_on]
  simp only [rbEraseColor, sideEq, onFar, siblingColor, bind, Except.bind, decide_eq_true_eq]
  by_cases red : rootColor sib = .red
  · obtain ⟨m', tmp1, pInfo', sib', frame', ran, root', black', parentRed, erasing', same⟩ :=
      erasing_case1 inv erasing sibRoot red
    have round := eraseRound_spec inv erasing' root' black'
    rw [same] at round
    simp only [if_pos red, ran]
    generalize eraseRound f side m' p tmp1 = res at round
    cases round with
    | done last proper => exact ⟨last, rfl, proper⟩
    | again last frame outer t' shape black => ?_
    -- after case 1 the parent is red, and the round does not leave it short
    rw [parentRed] at black
    cases black
  have round := eraseRound_spec inv erasing sibRoot (color_cases red)
  simp only [if_neg red]
  generalize eraseRound f side m p s = res at round
  cases round with
  | done last proper => exact ⟨last, rfl, proper⟩
  | again last frame outer t' shape black root' erasing' same => ?_
  subst shape
  have fewer : outer.length < rounds := Nat.lt_of_succ_lt_succ enough
  obtain ⟨final, ran, proper⟩ := ih erasing' fewer
  rw [root'] at ran
  refine ⟨final, ran, ?_⟩
  rw [same] at proper
  exact proper

end TinyKernel.Rbtree
