import TinyKernel.Rbtree.Propagate

/-! The successor of a node with two children: it is found, unlinked from below the right child
and put in the node's place. -/

namespace TinyKernel.Rbtree

open Lib Bin Links List

variable {Data Aug : Type} {m m' : Mem Data Aug} {path inner inner' : RbPath Data Aug}
variable {f : Compute Data Aug}

theorem length_le_ids (path : RbPath Data Aug) : path.length ≤ (Path.ids path).length := by
  induction path with
  | nil => exact Nat.le_refl 0
  | cons frame path ih => ?_
  simp only [Path.ids_cons, length_cons, length_append]
  omega

/-- The walk ends at the node before which no other comes. -/
theorem leftmost_spec (root : t.root = some start) (rep : Rep m top t) (parent : Id) :
    ∃ inner p s sInfo c, t = Path.fill inner (.node .nil s sInfo c) ∧ Path.before inner = [] ∧
      (∀ frame ∈ inner, frame.side = .left) ∧ Path.aboveOr (some parent) inner = some p ∧
      ∀ rounds, inner.length < rounds → leftmost m rounds parent start = .ok (p, s) := by
  induction t generalizing start top parent with
  | nil => cases root
  | node left id info right ih _ => ?_
  cases root
  obtain ⟨_, _, onLeft, _, repLeft, _⟩ := rep
  cases left with
  | nil =>
    refine ⟨[], parent, id, info, right, rfl, rfl, by simp, rfl, fun rounds enough => ?_⟩
    cases rounds with
    | zero => cases enough
    | succ rounds => rw [leftmost, onLeft, root_nil]
  | node left' start info' right' => ?_
  obtain ⟨inner, p, s, sInfo, c, shape, first, lefts, above, ran⟩ := ih rfl repLeft id
  refine ⟨inner ++ [⟨.left, id, info, right⟩], p, s, sInfo, c, ?_, ?_, ?_, ?_, ?_⟩
  · rw [Path.fill_append, ← shape]
    rfl
  · rw [Path.before_append, first]
    rfl
  · simpa [or_imp, forall_and] using lefts
  · rw [Path.aboveOr_append]
    exact above
  intro rounds enough
  rw [length_append, length_singleton] at enough
  cases rounds with
  | zero => cases enough
  | succ rounds => ?_
  rw [leftmost, onLeft]
  exact ran rounds (Nat.lt_of_succ_lt_succ enough)

/-- The first node of a segment given another child. -/
theorem rehole (seg : RepSeg m hole (frame :: inner) top)
    (nodup : (Path.ids (frame :: inner)).Nodup) (child : Option Id) :
    RepSeg (m.setChild frame.side frame.id child) child (frame :: inner) top := by
  obtain ⟨holds, up, _, across, sibling, outer⟩ := seg
  rw [Path.ids_cons, nodup_cons, mem_append, not_or] at nodup
  obtain ⟨⟨notSibling, notAbove⟩, _⟩ := nodup
  have kept (x : Id) (other : x ≠ frame.id) : Same m (m.setChild frame.side frame.id child) x :=
    ⟨rfl, rfl, fun _ => if_neg fun both => other both.2⟩
  refine ⟨holds, up, if_pos ⟨rfl, rfl⟩, ?_, ?_, ?_⟩
  · rw [setChild_child, if_neg fun both => frame.side.other_ne both.1]
    exact across
  · exact sibling.congr fun x mem => kept x fun same => notSibling (same ▸ mem)
  exact outer.congr fun x mem => kept x fun same => notAbove (same ▸ mem)

/-- The last node of a segment given another parent. -/
theorem retop (seg : RepSeg m hole (inner ++ [frame]) top)
    (nodup : (Path.ids (inner ++ [frame])).Nodup) (parent : Option Id) :
    RepSeg (m.setParent frame.id parent) hole (inner ++ [frame]) parent := by
  rw [repSeg_append] at seg ⊢
  obtain ⟨lower, holds, _, down, across, sibling, _⟩ := seg
  rw [Path.ids_append, Path.ids_cons, Path.ids_nil, append_nil, nodup_append, nodup_cons] at nodup
  obtain ⟨_, ⟨notSibling, _⟩, apart⟩ := nodup
  have kept (x : Id) (other : x ≠ frame.id) : Same m (m.setParent frame.id parent) x :=
    ⟨rfl, if_neg other, fun _ => rfl⟩
  refine ⟨?_, holds, if_pos rfl, down, across, ?_, trivial⟩
  · exact lower.congr fun x mem => kept x (apart x mem frame.id (.head _))
  exact sibling.congr fun x mem => kept x fun same => notSibling (same ▸ mem)

/-- The pointers written while the successor is unlinked from the end of a way to the left. -/
def unlink (m : Mem Data Aug) (node child p s : Id) (c : Option Id) : Mem Data Aug :=
  copy (((m.setChild .left p c).setChild .right s (some child)).setParent child (some s)) node s

theorem unlink_same {node child : Id} (c : Option Id) (notP : x ≠ p) (notS : x ≠ s)
    (notChild : x ≠ child) : Same m (unlink m node child p s c) x := by
  refine ⟨if_neg notS, if_neg notChild, fun side => ?_⟩
  rw [unlink, copy, setAug, setInfo_child, setParent_child, setChild_child,
    if_neg fun both => notS both.2, setChild_child, if_neg fun both => notP both.2]

theorem unlink_seg {node : Id} (seg : RepSeg m hole (inner ++ [last]) top)
    (lefts : ∀ frame ∈ inner ++ [last], frame.side = .left)
    (above : Path.aboveOr (some s) (inner ++ [last]) = some p)
    (nodup : (Path.ids (inner ++ [last])).Nodup) (out : s ∉ Path.ids (inner ++ [last]))
    (c : Option Id) : RepSeg (unlink m node last.id p s c) c (inner ++ [last]) (some s) := by
  have first : RepSeg (m.setChild .left p c) c (inner ++ [last]) top := by
    obtain ⟨frame, rest, shape⟩ : ∃ frame rest, inner ++ [last] = frame :: rest := by
      cases inner with
      | nil => exact ⟨last, [], rfl⟩
      | cons frame rest => exact ⟨frame, rest ++ [last], rfl⟩
    rw [shape] at seg above nodup lefts ⊢
    cases above
    rw [← lefts frame (.head _)]
    exact rehole seg nodup c
  have second : RepSeg ((m.setChild .left p c).setChild .right s (some last.id)) c (inner ++ [last])
      top := by
    refine first.congr fun x mem => ⟨rfl, rfl, fun _ => if_neg ?_⟩
    rintro ⟨_, rfl⟩
    exact out mem
  refine (retop second nodup (some s)).congr fun x mem => ⟨if_neg ?_, rfl, fun _ => rfl⟩
  rintro rfl
  exact out mem

/-- What unlinking the successor `s` with the child `c` from below `inner` leaves. -/
structure Taken (f : Compute Data Aug) (m m' : Mem Data Aug) (aug : Aug)
    (inner inner' : RbPath Data Aug) (s : Id) (sInfo : Info Data Aug) (c : RbTree Data Aug) :
    Prop where
  alike : AlikePath inner inner'
  seg : RepSeg m' c.root inner' (some s)
  holds : m'.info s = { sInfo with aug }
  onRight : m'.child .right s = Path.rootOf c.root inner
  child : Rep m' (some s) c
  augmented : AugmentedPath f (rootAug c) inner'
  root : m'.root = m.root
  same : ∀ x, x ≠ s → x ∉ Path.ids inner → Same m m' x

theorem takeSuccessor_spec [DecidableEq Aug] {node child : Id} (root : r.root = some child)
    (rep : Rep m (some node) r) (nodup : r.ids.Nodup) (out : node ∉ r.ids)
    (augmented : Augmented f r) (enough : r.ids.length ≤ rounds) :
    ∃ m' inner inner' p s sInfo c, r = Path.fill inner (.node .nil s sInfo c) ∧
      Path.before inner = [] ∧ Path.aboveOr (some s) inner = some p ∧
      takeSuccessor f rounds m node child = .ok (m', s, p, c.root) ∧
      Taken f m m' (m.info node).aug inner inner' s sInfo c := by
  cases r with
  | nil => cases root
  | node left id info right => ?_
  cases root
  obtain ⟨holds, _, onLeft, onRight, repLeft, repRight⟩ := id rep
  cases left with
  | nil =>
    refine ⟨copy m node child, [], [], child, child, info, right, rfl, rfl, rfl, ?_, ?_⟩
    · rw [takeSuccessor, onLeft, root_nil, onRight]
    have notRight : child ∉ right.ids := (nodup_cons.mp nodup).1
    have kept (x : Id) (other : x ≠ child) : Same m (copy m node child) x :=
      ⟨if_neg other, rfl, fun _ => rfl⟩
    refine ⟨.nil, trivial, ?_, onRight, ?_, trivial, rfl, fun x other _ => kept x other⟩
    · rw [copy, setAug, setInfo_info, if_pos rfl, holds]
    exact repRight.congr fun x mem => kept x fun same => notRight (same ▸ mem)
  | node left' tmp info' right' => ?_
  obtain ⟨inner, p, s, sInfo, c, shape, first, lefts, above, ran⟩ := leftmost_spec rfl repLeft child
  obtain ⟨last, lastId, lastSide, filled⟩ : ∃ last : Frame (Info Data Aug), last.id = child ∧
      last.side = .left ∧ Bin.node (.node left' tmp info' right') child info right =
        Path.fill (inner ++ [last]) (.node .nil s sInfo c) := by
    refine ⟨⟨.left, child, info, right⟩, rfl, rfl, ?_⟩
    rw [Path.fill_append, ← shape]
    rfl
  subst lastId
  rw [filled] at rep nodup augmented enough ⊢
  obtain ⟨seg, rep⟩ := rep_fill.mp rep
  obtain ⟨sHolds, _, _, sRight, _, repChild⟩ := rep
  have around := ((augmented_fill f).mp augmented).1
  have perm := Path.perm_fill (inner ++ [last]) (.node .nil s sInfo c)
  obtain ⟨segNodup, hereNodup, apart⟩ := nodup_append.mp (perm.nodup_iff.mp nodup)
  have notS : s ∉ Path.ids (inner ++ [last]) := fun mem =>
    apart s mem s (.head _) rfl
  have notC (x : Id) (mem : x ∈ c.ids) : x ∉ Path.ids (inner ++ [last]) := fun above =>
    apart x above x (.tail _ mem) rfl
  have sameAbove : Path.aboveOr (some s) (inner ++ [last]) = some p := by
    rw [Path.aboveOr_append]
    exact above
  have parentMem : p ∈ Path.ids (inner ++ [last]) := by cases inner <;> cases above <;> simp
  have childMem : last.id ∈ Path.ids (inner ++ [last]) := Path.id_mem_ids (by simp)
  have long : (inner ++ [last]).length < rounds := by
    have short := length_le_ids (inner ++ [last])
    have total := perm.length_eq
    rw [length_append, Bin.ids, Bin.ids, nil_append, length_cons] at total
    omega
  have kept (x : Id) (other : x ≠ s) (away : x ∉ Path.ids (inner ++ [last])) :
      Same m (unlink m node last.id p s c.root) x := by
    refine unlink_same c.root ?_ other ?_
    · rintro rfl
      exact away parentMem
    rintro rfl
    exact away childMem
  have repChild' : Rep (unlink m node last.id p s c.root) (some s) c :=
    repChild.congr fun x mem => kept x (fun same => (nodup_cons.mp hereNodup).1 (same ▸ mem))
      (notC x mem)
  have seg' : RepSeg (unlink m node last.id p s c.root) c.root (inner ++ [last]) (some s) :=
    unlink_seg seg (by simpa [or_imp, forall_and, lastSide] using lefts) sameAbove segNodup notS
      c.root
  obtain ⟨m', inner', ran', alike, seg'', right', untouched⟩ := propagate_spec (f := f) seg'
    (rootAug_of_rep repChild') segNodup (fun x isRoot => notC x (root_mem isRoot))
    (fun frame mem same => notS (Option.some.inj same ▸ Path.id_mem_ids mem)) around.stale
    long
  rw [sameAbove] at ran'
  have onward (x : Id) (away : x ∉ Path.ids (inner ++ [last])) :
      Same (unlink m node last.id p s c.root) m' x :=
    untouched.same x fun frame mem same => away (same ▸ Path.id_mem_ids mem)
  refine ⟨m', _, inner', p, s, sInfo, c, rfl, ?_, sameAbove, ?_, alike, seg'', ?_, ?_, ?_,
    right', ?_, ?_⟩
  · rw [Path.before_append, first, Path.before, lastSide]
    rfl
  · have walk := ran rounds (by rw [length_append] at long; omega)
    rw [takeSuccessor, onLeft, Bin.root]
    simp only [walk, sRight, bind, Except.bind]
    rw [unlink] at ran'
    simp only [ran']
  · rw [(onward s notS).info, unlink, copy, setAug, setInfo_info, if_pos rfl]
    simp [sHolds]
  · rw [(onward s notS).child, Path.rootOf_append]
    simp [unlink, copy, setAug, setChild_child, Path.rootOf]
  · exact repChild'.congr fun x mem => onward x (notC x mem)
  · exact untouched.root
  exact fun x other away => (kept x other away).trans (onward x away)

section

variable {m₁ : Mem Data Aug} {node left s p : Id} {info sInfo : Info Data Aug}
    {l c : RbTree Data Aug}

/-- The nodes of a tree whose root has two children, the successor named. -/
theorem perm_successor (path inner : RbPath Data Aug) :
    (Path.ids path ++ (Bin.node l node info (Path.fill inner (.node .nil s sInfo c))).ids).Perm
      (Path.ids path ++ (l.ids ++ node :: (Path.ids inner ++ s :: c.ids))) :=
  .append_left _ (.append_left _ (.cons _ (Path.perm_fill inner (.node .nil s sInfo c))))

theorem setParentColorIf_same {parent : Option Id} {color : Color} (other : rb ≠ some x) :
    Same m (setParentColorIf m rb parent color) x := by
  cases rb with
  | none => exact Same.refl m x
  | some rb => ?_
  have ne : x ≠ rb := fun same => other (congrArg some same.symm)
  exact ⟨if_neg ne, if_neg ne, fun _ => rfl⟩

theorem setParentColorIf_root {parent : Option Id} {color : Color} :
    (setParentColorIf m rb parent color).root = m.root := by
  cases rb <;> rfl

/-- The successor in the place of the node, with its colour and its augmented field. -/
theorem replaceNode_spec
    (focus : Focus m path (.node l node info (Path.fill inner (.node .nil s sInfo c))))
    (leftRoot : l.root = some left) (above : Path.aboveOr (some s) inner = some p)
    (taken : Taken f m m₁ info.aug inner inner' s sInfo c) :
    ∃ m₂, replaceNode m₁ node left s p c.root =
        (m₂, if c.root = none ∧ sInfo.color = .black then some p else none) ∧
      Focus m₂
        (inner' ++ ⟨.right, s, { sInfo with color := info.color, aug := info.aug }, l⟩ :: path)
        (c.setRoot (paint (some .black))) := by
  obtain ⟨around, ⟨nodeHolds, nodeUp, _, _, repL, _⟩, nodup⟩ := focus
  obtain ⟨alike, seg, sHolds, sRight, repC, _, root₁, same₁⟩ := taken
  rw [(perm_successor path inner).nodup_iff] at nodup
  obtain ⟨pathNodup, rest, apartPath⟩ := nodup_append.mp nodup
  obtain ⟨lNodup, rest, apartL⟩ := nodup_append.mp rest
  obtain ⟨notNode, rest⟩ := nodup_cons.mp rest
  obtain ⟨innerNodup, rest, apartInner⟩ := nodup_append.mp rest
  obtain ⟨notS, cNodup⟩ := nodup_cons.mp rest
  simp only [mem_append, mem_cons, not_or] at notNode apartPath apartL apartInner
  have inL : left ∈ l.ids := root_mem leftRoot
  have offS (x : Id) (mem : x ∈ Path.ids path) : x ≠ s := fun same =>
    apartPath x mem s (by simp) same
  have offLeft (x : Id) (mem : x ∈ Path.ids path) : x ≠ left := fun same =>
    apartPath x mem left (by simp [inL]) same
  have offC (x : Id) (mem : x ∈ Path.ids path) : c.root ≠ some x := fun isRoot =>
    apartPath x mem x (by simp [root_mem isRoot]) rfl
  have sLeft : s ≠ left := fun same => apartL left inL s (by simp) same.symm
  have nodeLeft : node ≠ left := fun same => apartL left inL node (by simp) same.symm
  have sNode : s ≠ node := fun same => notNode.2.1 same.symm
  have sC : c.root ≠ some s := fun isRoot => notS (root_mem isRoot)
  have sPath : s ∉ Path.ids path := fun mem => offS s mem rfl
  have nodePath : node ∉ Path.ids path := fun mem => apartPath node mem node (by simp) rfl
  -- the left subtree moves below the successor
  generalize stageA : (m₁.setChild .left s (some left)).setParent left (some s) = mA
  have sameA (x : Id) (notLeft : x ≠ left) (other : x ≠ s) : Same m₁ mA x := by
    subst stageA
    exact ⟨rfl, if_neg notLeft, fun _ => if_neg fun both => other both.2⟩
  have sameNode : Same m mA node :=
    (same₁ node (Ne.symm sNode) notNode.1).trans (sameA node nodeLeft (Ne.symm sNode))
  have up : mA.parent node = Path.above path := sameNode.parent.trans nodeUp
  have around₁ : RepPath mA (some node) path := by
    refine around.congr (by subst stageA; exact root₁) fun x mem => ?_
    refine (same₁ x (offS x mem) ?_).trans (sameA x (offLeft x mem) (offS x mem))
    exact fun inside => apartPath x mem x (by simp [inside]) rfl
  -- the parent of the node points to the successor
  obtain ⟨aroundB, sameB⟩ := rbChangeChild_spec around₁ pathNodup nodePath (some s)
  generalize stageB : rbChangeChild mA node (some s) (Path.above path) = mB at aroundB sameB
  have colorNode : color mB node = info.color := by
    rw [color, (sameB node nodePath).info, sameNode.info, nodeHolds]
  have colorS : color mB s = sInfo.color := by
    rw [color, (sameB s sPath).info]
    subst stageA
    rw [setParent_info, setChild_info, sHolds]
  generalize stageC : rbSetParentColor mB s (Path.above path) info.color = mC
  have sameC (x : Id) (other : x ≠ s) : Same mB mC x := by
    subst stageC
    exact ⟨if_neg other, if_neg other, fun _ => rfl⟩
  refine ⟨setParentColorIf mC c.root (some p) .black, ?_, ?_⟩
  · cases childRoot : c.root with
    | none => simp [replaceNode, setParentColorIf, stageA, up, stageB, colorNode, colorS, stageC]
    | some child => simp [replaceNode, setParentColorIf, stageA, up, stageB, colorNode, stageC]
  have sameD (x : Id) (other : c.root ≠ some x) :
      Same mC (setParentColorIf mC c.root (some p) .black) x := setParentColorIf_same other
  have rootD : (setParentColorIf mC c.root (some p) .black).root = mB.root := by
    rw [setParentColorIf_root]
    subst stageC
    rfl
  have paintedC (x : Id) (isRoot : c.root = some x) :
      (setParentColorIf mC c.root (some p) .black).info x = paint (some .black) (mC.info x) ∧
        (setParentColorIf mC c.root (some p) .black).parent x = some p ∧
        ∀ side, (setParentColorIf mC c.root (some p) .black).child side x = mC.child side x := by
    rw [isRoot]
    exact ⟨if_pos rfl, if_pos rfl, fun _ => rfl⟩
  generalize setParentColorIf mC c.root (some p) .black = mD at sameD rootD paintedC
  have onward (x : Id) (away : x ∉ Path.ids path) (other : x ≠ s) (notC : c.root ≠ some x) :
      Same mA mD x := ((sameB x away).trans (sameC x other)).trans (sameD x notC)
  have innerNot (x : Id) (inside : x ∈ Path.ids inner) : x ∉ Path.ids path := fun mem =>
    apartPath x mem x (by simp [inside]) rfl
  refine ⟨repPath_append.mpr ⟨?_, ?_⟩, ?_, ?_⟩
  · rw [root_setRoot, Path.above_cons]
    refine seg.congr fun x mem => ?_
    rw [alike.ids] at mem
    have notLeft : x ≠ left := fun same => apartL left inL x (by simp [mem]) same.symm
    have other : x ≠ s := apartInner x mem s (.inl rfl)
    refine (sameA x notLeft other).trans (onward x (innerNot x mem) other fun isRoot => ?_)
    exact apartInner x mem x (.inr (root_mem isRoot)) rfl
  · have sameS : Same mC mD s := sameD s sC
    have childS (side : Side) : mD.child side s = mA.child side s := by
      rw [sameS.child]
      subst stageC
      exact (sameB s sPath).child side
    have infoS : mB.info s = { sInfo with aug := info.aug } := by
      rw [(sameB s sPath).info]
      subst stageA
      exact sHolds
    rw [root_setRoot, alike.rootOf]
    refine ⟨?_, ?_, ?_, ?_, ?_, ?_⟩
    · rw [sameS.info]
      subst stageC
      rw [rbSetParentColor, setColor, setInfo_info, if_pos rfl, setParent_info, infoS]
    · rw [sameS.parent]
      subst stageC
      exact if_pos rfl
    · rw [childS]
      subst stageA
      exact sRight
    · rw [childS]
      subst stageA
      rw [leftRoot]
      exact if_pos ⟨rfl, rfl⟩
    · have repL₁ : Rep m₁ (some node) l := repL.congr fun x mem =>
        same₁ x (fun same => apartL x mem s (by simp) same) fun inside =>
          apartL x mem x (by simp [inside]) rfl
      have plain : l.setRoot id = l := by cases l <;> rfl
      rw [← plain]
      have kept (x : Id) (mem : x ∈ l.ids) : Same mA mD x := by
        refine onward x (fun above => ?_) (apartL x mem s (by simp)) fun isRoot => ?_
        · exact apartPath x above x (.inl mem) rfl
        exact apartL x mem x (by simp [root_mem isRoot]) rfl
      refine repL₁.reroot lNodup (fun x mem notRoot => ?_) fun x isRoot => ?_
      · have notLeft : x ≠ left := fun same => notRoot (by rw [leftRoot, same])
        exact (sameA x notLeft (apartL x mem s (by simp))).trans (kept x mem)
      rw [leftRoot, Option.some.injEq] at isRoot
      subst isRoot
      rw [(kept left inL).info, (kept left inL).parent]
      refine ⟨?_, ?_, fun side => ?_⟩
      · subst stageA
        rfl
      · subst stageA
        exact if_pos rfl
      rw [(kept left inL).child]
      subst stageA
      exact if_neg fun both => sLeft both.2.symm
    refine aroundB.congr rootD fun x mem => ?_
    exact (sameC x (offS x mem)).trans (sameD x (offC x mem))
  · rw [Path.above_append, alike.above, Path.above_cons, above]
    have repC' : Rep mC (some s) c := repC.congr fun x mem => by
      have other : x ≠ s := fun same => notS (same ▸ mem)
      have notLeft : x ≠ left := fun same => apartL left inL x (by simp [mem]) same.symm
      refine ((sameA x notLeft other).trans (sameB x fun path => ?_)).trans (sameC x other)
      exact apartPath x path x (by simp [mem]) rfl
    exact repC'.reroot cNodup (fun x _ notRoot => sameD x notRoot) paintedC
  rw [nodup_iff_count_le_one] at nodup ⊢
  intro x
  have once := nodup x
  simp only
    [Path.ids_append, alike.ids, ids_setRoot, Path.ids_cons, count_append, count_cons] at once ⊢
  omega

end

end TinyKernel.Rbtree
