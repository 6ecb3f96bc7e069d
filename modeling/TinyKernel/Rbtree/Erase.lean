import TinyKernel.Rbtree.Successor

/-! `__rb_erase_augmented`: a node is unlinked, its successor takes its place if it has two
children, and the loop of `____rb_erase_color` restores the balance. -/

namespace TinyKernel.Rbtree

open Lib Bin Links List

variable {Data Aug : Type} {m m' : Mem Data Aug} {path path' : RbPath Data Aug}
variable {f : Compute Data Aug} {count : Nat} {side : Side} {rounds : Nat}

/-- `propagate` up to the root. -/
theorem propagate_focus [DecidableEq Aug] (focus : Focus m path t) (stale : Stale f path)
    (enough : path.length < rounds) :
    ∃ m' path', propagate f rounds m (Path.above path) none = .ok m' ∧ AlikePath path path' ∧
      Focus m' path' t ∧ AugmentedPath f (rootAug t) path' := by
  obtain ⟨around, here, nodup⟩ := focus
  rw [← append_nil path, repPath_append] at around
  obtain ⟨seg, root⟩ := around
  obtain ⟨pathNodup, _, apart⟩ := nodup_append.mp nodup
  obtain ⟨m', path', ran, alike, seg, right, kept⟩ :=
    propagate_spec seg (rootAug_of_rep here) pathNodup
      (fun id isRoot above => apart id above id (root_mem isRoot) rfl) (by simp) stale enough
  have sameAbove := alike.above none
  rw [Path.aboveOr_none, Path.aboveOr_none] at sameAbove
  refine ⟨m', path', ?_, alike, ⟨?_, ?_, ?_⟩, right⟩
  · exact ran
  · rw [← append_nil path', repPath_append, alike.rootOf]
    exact ⟨seg, kept.root.trans root⟩
  · rw [sameAbove]
    refine here.congr fun id inside => kept.same id fun frame mem same => ?_
    exact apart id (same ▸ Path.id_mem_ids mem) id inside rfl
  rw [alike.ids]
  exact nodup

section

variable {id : Id} {info : Info Data Aug} {c : RbTree Data Aug}

/-- An only child is red and its parent black. -/
theorem balanced_lone (balanced : Balanced count (on side id info .nil c)) (child : c ≠ .nil) :
    info.color = .black ∧ count = 1 ∧ Balanced 1 (c.setRoot (paint (some .black))) := by
  obtain ⟨left, x, xInfo, right, rfl⟩ : ∃ left x xInfo right, c = .node left x xInfo right := by
    cases c with
    | nil => exact absurd rfl child
    | node left x xInfo right => exact ⟨left, x, xInfo, right, rfl⟩
  have shape : Bin.node left x xInfo right = on .left x xInfo left right := rfl
  cases shade : info.color with
  | red =>
    obtain ⟨_, black, zero, inChild⟩ := (balanced_red shade).mp balanced
    rw [zero, shape] at inChild
    exact absurd inChild (not_balanced_zero black)
  | black => ?_
  cases count with
  | zero => exact absurd balanced (not_balanced_zero shade)
  | succ count => ?_
  obtain ⟨zero, inChild⟩ := (balanced_black shade).mp balanced
  rw [zero, shape] at inChild
  refine ⟨rfl, by rw [zero], ?_⟩
  cases childShade : xInfo.color with
  | black => exact absurd inChild (not_balanced_zero childShade)
  | red => ?_
  obtain ⟨_, _, inLeft, inRight⟩ := (balanced_red childShade).mp inChild
  rw [shape, setRoot_on, balanced_black rfl]
  exact ⟨inLeft, inRight⟩

/-- A node without children. -/
theorem balanced_leaf (balanced : Balanced count (on side id info .nil .nil)) :
    count = if info.color = .black then 1 else 0 := by
  cases shade : info.color with
  | red =>
    obtain ⟨_, _, zero, _⟩ := (balanced_red shade).mp balanced
    exact zero
  | black => ?_
  cases count with
  | zero => exact absurd balanced (not_balanced_zero shade)
  | succ count => ?_
  obtain ⟨zero, _⟩ := (balanced_black shade).mp balanced
  rw [zero, if_pos rfl]

theorem rootColor_setRoot_black (c : RbTree Data Aug) :
    rootColor (c.setRoot (paint (some .black))) = .black := by
  cases c <;> rfl

theorem rootAug_setRoot_paint (c : RbTree Data Aug) (color : Option Color) :
    rootAug (c.setRoot (paint color)) = rootAug c := by
  cases c with
  | nil => rfl
  | node => rw [setRoot, rootAug, rootAug, paint_aug]

theorem Augmented.setRoot_paint (augmented : Augmented f c) (color : Color) :
    Augmented f (c.setRoot (paint (some color))) := by
  cases c with
  | nil => trivial
  | node => exact augmented

/-- Where to rebalance after a node with at most the child `c` was taken out. -/
def rebalanceAt (path : RbPath Data Aug) (color : Color) (c : RbTree Data Aug) : Option Id :=
  if c.root = none ∧ color = .black then Path.above path else none

/-- `__rb_erase_color`, if there is something to rebalance. -/
def finish (f : Compute Data Aug) (rounds : Nat) (m : Mem Data Aug) (rebalance : Option Id) :
    Except Fault (Mem Data Aug) :=
  match rebalance with
  | none => .ok m
  | some rebalance => rbEraseColor f rounds m none rebalance

/-- A node with at most one child was replaced by that child. -/
theorem finish_spec (inv : RotationInvariant f) (balanced : Balanced count (on side id info .nil c))
    (accepts : Accepts path count info.color) (augmented : Augmented f c)
    (alike : AlikePath path path') (focus : Focus m path' (c.setRoot (paint (some .black))))
    (around : AugmentedPath f (rootAug c) path') (enough : path.length < rounds) :
    ∃ m', finish f rounds m (rebalanceAt path info.color c) = .ok m' ∧
      Proper f m' (path.before ++ c.ids ++ path.after) := by
  have order : (path'.fill (c.setRoot (paint (some .black)))).ids =
      path.before ++ c.ids ++ path.after := by
    rw [Path.ids_fill, alike.before, alike.after, ids_setRoot]
  have blackened : rootColor (c.setRoot (paint (some .black))) = .black := rootColor_setRoot_black c
  have sameAug := rootAug_setRoot_paint c (some .black)
  by_cases child : c = .nil
  · subst child
    have exact' := balanced_leaf balanced
    cases shade : info.color with
    | red =>
      rw [shade] at accepts exact'
      refine ⟨m, rfl, ?_⟩
      rw [← order]
      exact proper_of_focus focus exact' (alike.accepts accepts).black around trivial
    | black => ?_
    rw [shade] at accepts exact'
    subst exact'
    cases alike with
    | nil =>
      refine ⟨m, rfl, ?_⟩
      exact proper_of_focus focus (by exact rfl : Balanced 0 Bin.nil) rfl around trivial
    | @cons frame frame' path path' frames alike => ?_
    have accepts' := (AlikePath.accepts (.cons frames alike) accepts)
    have erasing : Erasing f m frame' path' .nil 0 := by
      refine ⟨focus, rfl, rfl, accepts'.1, ?_, ?_, around, trivial⟩
      · intro red
        have rest := accepts'.2
        rw [red] at rest
        exact rest.2.1
      have rest := accepts'.2
      cases shade' : frame'.info.color with
      | red =>
        rw [shade'] at rest
        exact rest.2.2
      | black => ?_
      rw [shade'] at rest
      exact rest
    have fewer : path'.length < rounds := by
      rw [← alike.length_eq]
      exact Nat.lt_of_succ_lt enough
    obtain ⟨last, ran, proper⟩ := rbEraseColor_spec inv erasing fewer
    refine ⟨last, ?_, ?_⟩
    · have above : rebalanceAt (frame :: path) .black (.nil : RbTree Data Aug) =
          some frame'.id := by
        rw [frames.id]
        exact if_pos ⟨rfl, rfl⟩
      rw [above]
      exact ran
    rw [← order]
    exact proper
  obtain ⟨black, rfl, balanced'⟩ := balanced_lone balanced child
  have nothing : rebalanceAt path info.color c = none := by
    rw [rebalanceAt, if_neg]
    exact fun both => child (eq_nil_of_root both.1)
  refine ⟨m, by rw [nothing, finish], ?_⟩
  rw [← order]
  refine proper_of_focus focus balanced' ?_ (by rw [sameAug]; exact around)
    (augmented.setRoot_paint .black)
  rw [blackened]
  exact (alike.accepts accepts).black

end

section

variable {node : Id} {info : Info Data Aug} {c : RbTree Data Aug}

/-- The node's only child, or nothing, put in its place. -/
theorem replace_focus (focus : Focus m path (on side node info .nil c)) (color : Color) :
    Focus (setParentColorIf (rbChangeChild m node c.root (Path.above path)) c.root (Path.above path)
      color) path (c.setRoot (paint (some color))) := by
  obtain ⟨around, here, nodup⟩ := focus
  obtain ⟨_, _, _, _, _, child⟩ := rep_on.mp here
  rw [root_on] at around
  obtain ⟨pathNodup, hereNodup, apart⟩ := nodup_append.mp nodup
  have out : node ∉ Path.ids path := fun above =>
    apart node above node (mem_ids_on.mpr (.inl rfl)) rfl
  obtain ⟨linked, kept⟩ := rbChangeChild_spec around pathNodup out c.root
  have separate (x : Id) (above : x ∈ Path.ids path) : x ∉ c.ids := fun below =>
    apart x above x (mem_ids_on.mpr (.inr (.inr below))) rfl
  generalize rbChangeChild m node c.root (Path.above path) = m₁ at linked kept
  have painted (x : Id) (other : c.root ≠ some x) :
      Same m₁ (setParentColorIf m₁ c.root (Path.above path) color) x := by
    cases root : c.root with
    | none => exact Same.refl m₁ x
    | some rb => ?_
    have ne : x ≠ rb := fun same => other (by rw [root, same])
    exact ⟨if_neg ne, if_neg ne, fun _ => rfl⟩
  refine ⟨?_, ?_, ?_⟩
  · rw [root_setRoot]
    refine linked.congr (by cases c.root <;> rfl) fun x above => painted x fun isRoot => ?_
    exact separate x above (root_mem isRoot)
  · have child₁ : Rep m₁ (some node) c := child.congr fun x below =>
      kept x fun above => separate x above below
    refine child₁.reroot (nodup_on.mp hereNodup).2.2.2.1 (fun x _ other => painted x other) ?_
    intro x isRoot
    rw [isRoot]
    exact ⟨if_pos rfl, if_pos rfl, fun _ => rfl⟩
  rw [ids_setRoot, nodup_append]
  exact ⟨pathNodup, (nodup_on.mp hereNodup).2.2.2.1, fun x above y below same =>
    separate x above (same ▸ below)⟩

theorem rbChangeChild_setParentColor (m : Mem Data Aug) (rb old : Id) (p new parent : Option Id)
    (color : Color) :
    rbChangeChild (rbSetParentColor m rb p color) old new parent =
      rbSetParentColor (rbChangeChild m old new parent) rb p color := by
  cases parent with
  | none => rfl
  | some parent => ?_
  by_cases onLeft : m.child .left parent = some old
  · rw [rbChangeChild, rbChangeChild, if_pos (by exact onLeft), if_pos onLeft]
    rfl
  rw [rbChangeChild, rbChangeChild, if_neg (by exact onLeft), if_neg onLeft]
  rfl

theorem rbChangeChild_info (m : Mem Data Aug) (old : Id) (new parent : Option Id) :
    (rbChangeChild m old new parent).info = m.info := by
  cases parent with
  | none => rfl
  | some parent => ?_
  rw [rbChangeChild]
  split <;> rfl

/-- A node out of its tree: what is left has at most to be rebalanced. -/
structure Unlinked (f : Compute Data Aug) (m : Mem Data Aug) (path path' : RbPath Data Aug)
    (c : RbTree Data Aug) : Prop where
  alike : AlikePath path path'
  focus : Focus m path' (c.setRoot (paint (some .black)))
  around : AugmentedPath f (rootAug c) path'

theorem rbEraseNode_lone [DecidableEq Aug] (focus : Focus m path (on side node info .nil c))
    (balanced : Balanced count (on side node info .nil c))
    (around : AugmentedPath f (some info.aug) path) (enough : path.length < rounds) :
    ∃ m' path', rbEraseNode f rounds m node = .ok (m', rebalanceAt path info.color c) ∧
      Unlinked f m' path path' c := by
  obtain ⟨holds, up, onNear, onFar, _, _⟩ := rep_on.mp focus.here
  have shade : color m node = info.color := by rw [color, holds]
  have replaced := replace_focus focus info.color
  have painted : c.setRoot (paint (some info.color)) = c.setRoot (paint (some .black)) := by
    by_cases child : c = .nil
    · rw [child, setRoot_nil, setRoot_nil]
    rw [(balanced_lone balanced child).1]
  rw [painted] at replaced
  obtain ⟨m', path', ran, alike, focus', around'⟩ := propagate_focus replaced around.stale enough
  rw [rootAug_setRoot_paint] at around'
  refine ⟨m', path', ?_, alike, focus', around'⟩
  have sameColor (new : Option Id) :
      color (rbChangeChild m node new (Path.above path)) node = info.color := by
    rw [color, rbChangeChild_info, holds]
  rw [rbEraseNode, rebalanceAt]
  cases side with
  | left =>
    rw [Side.other] at onFar
    cases childRoot : c.root with
    | none =>
      rw [childRoot] at ran onFar
      rw [setParentColorIf] at ran
      simp [up, onNear, onFar, shade, ran, bind, Except.bind]
    | some child => ?_
    rw [childRoot] at ran onFar
    rw [setParentColorIf] at ran
    simp [up, onNear, onFar, sameColor, ran, bind, Except.bind]
  | right => ?_
  rw [Side.other] at onFar
  cases childRoot : c.root with
  | none =>
    rw [childRoot] at ran onFar
    rw [setParentColorIf] at ran
    simp [up, onNear, onFar, shade, ran, bind, Except.bind]
  | some child => ?_
  rw [childRoot] at ran onFar
  rw [setParentColorIf] at ran
  simp [up, onNear, onFar, shade, rbChangeChild_setParentColor, ran, bind, Except.bind]

/-- The successor found, taken out and put in the place of the node. -/
theorem rbEraseNode_two [DecidableEq Aug] {l r : RbTree Data Aug} {left child : Id}
    (focus : Focus m path (.node l node info r)) (leftRoot : l.root = some left)
    (rightRoot : r.root = some child) (leftAug : Augmented f l) (rightAug : Augmented f r)
    (around : AugmentedPath f (some info.aug) path) (rightFew : r.ids.length ≤ rounds)
    (enough : path.length + 1 < rounds) :
    ∃ inner s sInfo c m' path', r = Path.fill inner (.node .nil s sInfo c) ∧
      Path.before inner = [] ∧
      rbEraseNode f rounds m node =
        .ok (m',
          rebalanceAt
            (inner ++ ⟨.right, s, { sInfo with color := info.color, aug := info.aug }, l⟩ :: path)
            sInfo.color c) ∧
      Unlinked f m'
        (inner ++ ⟨.right, s, { sInfo with color := info.color, aug := info.aug }, l⟩ :: path) path'
        c := by
  obtain ⟨holds, up, onLeft, onRight, _, repRight⟩ := focus.here
  have hereNodup := (nodup_append.mp focus.nodup).2.1
  obtain ⟨_, rightNodup, _⟩ := nodup_append.mp hereNodup
  obtain ⟨notRight, rightNodup⟩ := nodup_cons.mp rightNodup
  obtain ⟨m₁, inner, inner', p, s, sInfo, c, shape, first, above, ran₁, taken⟩ :=
    takeSuccessor_spec rightRoot repRight rightNodup notRight rightAug rightFew
  subst shape
  rw [holds] at taken
  obtain ⟨m₂, ran₂, focus₂⟩ := replaceNode_spec focus leftRoot above taken
  have stale : Stale f
      (⟨.right, s, { sInfo with color := info.color, aug := info.aug }, l⟩ :: path) :=
    ⟨leftAug, around⟩
  obtain ⟨m₃, path', ran₃, alike, focus₃, around₃⟩ :=
    propagate_focus (focus_append.mp focus₂) stale enough
  refine ⟨inner, s, sInfo, c, m₃, inner' ++ path', rfl, first, ?_, ?_⟩
  · have same : rebalanceAt (inner ++ ⟨.right, s,
        { sInfo with color := info.color, aug := info.aug }, l⟩ :: path) sInfo.color c =
        if c.root = none ∧ sInfo.color = .black then some p else none := by
      rw [rebalanceAt, Path.above_append, Path.above_cons, above]
    rw [Path.above_cons] at ran₃
    rw [rbEraseNode, onLeft, onRight, leftRoot, rightRoot, same]
    simp only [ran₁, ran₂, ran₃, bind, Except.bind]
  refine ⟨rel_append taken.alike alike, focus_append.mpr focus₃, ?_⟩
  refine augmentedPath_append taken.augmented _ ?_ around₃
  exact rootAug_setRoot_paint c (some .black)

end

theorem rbEraseAugmented_eq [DecidableEq Aug] (rounds : Nat) (node : Id) :
    rbEraseAugmented f rounds m node =
      (rbEraseNode f rounds m node).bind fun (m, rebalance) => finish f rounds m rebalance := by
  rw [rbEraseAugmented]
  cases rbEraseNode f rounds m node with
  | error fault => rfl
  | ok res => ?_
  obtain ⟨m, rebalance⟩ := res
  cases rebalance <;> rfl

/-- `rb_erase_augmented` on any node of an augmented red-black tree. -/
theorem rbEraseAugmented_spec [DecidableEq Aug] (inv : RotationInvariant f) {node : Id}
    (holds : Holds m t) (redBlack : RedBlack t) (augmented : Augmented f t) (mem : node ∈ t.ids)
    (enough : t.ids.length < rounds) :
    ∃ m', rbEraseAugmented f rounds m node = .ok m' ∧ Proper f m' (t.ids.erase node) := by
  obtain ⟨path, l, info, r, rfl⟩ := exists_path mem
  have focus := focus_iff_holds.mpr holds
  have few := (Path.perm_fill path (.node l node info r)).length_eq
  have short := length_le_ids path
  rw [length_append, Bin.ids, length_append, length_cons] at few
  obtain ⟨around, here⟩ := (augmented_fill f).mp augmented
  obtain ⟨_, leftAug, rightAug⟩ := here
  have order : (Path.fill path (.node l node info r)).ids.erase node =
      path.before ++ (l.ids ++ r.ids) ++ path.after := by
    have nodup := (Path.perm_fill path (.node l node info r)).nodup_iff.mpr focus.nodup
    have shape : (Path.fill path (.node l node info r)).ids =
        (path.before ++ l.ids) ++ node :: (r.ids ++ path.after) := by
      rw [Path.ids_fill, Bin.ids]
      simp
    rw [shape] at nodup ⊢
    have fresh : node ∉ path.before ++ l.ids := fun early =>
      (nodup_append.mp nodup).2.2 node early node (.head _) rfl
    rw [erase_append_right _ fresh, erase_cons_head]
    simp
  rw [order, rbEraseAugmented_eq]
  have lone (side : Side) (c : RbTree Data Aug)
      (shape : Bin.node l node info r = on side node info .nil c) (childAug : Augmented f c)
      (ids : c.ids = l.ids ++ r.ids) :
      ∃ m', (rbEraseNode f rounds m node).bind (fun (m, rebalance) => finish f rounds m rebalance) =
        .ok m' ∧ Proper f m' (path.before ++ (l.ids ++ r.ids) ++ path.after) := by
    rw [shape] at redBlack focus around
    obtain ⟨count, balanced, accepts⟩ := redBlack.accepts
    rw [rootColor_on] at accepts
    rw [rootAug_on] at around
    obtain ⟨m', path', ran, unlinked⟩ :=
      rbEraseNode_lone focus balanced around (by omega : path.length < rounds)
    rw [ran, ← ids]
    exact finish_spec inv balanced accepts childAug unlinked.alike unlinked.focus unlinked.around
      (by omega)
  cases l with
  | nil => exact lone .left r rfl rightAug rfl
  | node l₁ left leftInfo l₂ => ?_
  cases r with
  | nil => exact lone .right _ rfl leftAug (append_nil _).symm
  | node r₁ child rightInfo r₂ => ?_
  obtain ⟨inner, s, sInfo, c, m', path', shape, first, ran, unlinked⟩ :=
    rbEraseNode_two focus rfl rfl leftAug rightAug around (by omega : _ ≤ rounds) (by omega)
  have innerShort := length_le_ids inner
  have rightFew := (Path.perm_fill inner (.node .nil s sInfo c)).length_eq
  rw [length_append, ← shape, Bin.ids.eq_2 .nil, Bin.ids, nil_append, length_cons] at rightFew
  rw [shape] at redBlack rightAug ⊢
  have whole : Path.fill path
        (.node (.node l₁ left leftInfo l₂) node info (Path.fill inner (.node .nil s sInfo c))) =
      Path.fill (inner ++ ⟨.right, node, info, .node l₁ left leftInfo l₂⟩ :: path)
        (.node .nil s sInfo c) := by
    rw [Path.fill_append]
    rfl
  rw [whole] at redBlack
  obtain ⟨count, balanced, accepts⟩ := redBlack.accepts
  have childAug := ((augmented_fill f).mp rightAug).2.2.2
  have long : (inner ++ ⟨.right, s, { sInfo with color := info.color, aug := info.aug },
      Bin.node l₁ left leftInfo l₂⟩ :: path).length < rounds := by
    rw [length_append, length_cons]
    omega
  have accepts' : Accepts (inner ++ ⟨.right, s,
      { sInfo with color := info.color, aug := info.aug }, .node l₁ left leftInfo l₂⟩ :: path)
      count sInfo.color := by
    refine accepts_congr ?_ accepts
    refine rel_append ?_ (.cons ⟨rfl, rfl⟩ ?_)
    · exact forall₂_same.mpr fun _ _ => ⟨rfl, rfl⟩
    exact forall₂_same.mpr fun _ _ => ⟨rfl, rfl⟩
  have atLeft : Balanced count (on .left s sInfo .nil c) := balanced
  obtain ⟨last, ran', proper⟩ := finish_spec inv atLeft accepts' childAug unlinked.alike
    unlinked.focus unlinked.around long
  refine ⟨last, ?_, ?_⟩
  · rw [ran]
    exact ran'
  rw [Path.before_append, Path.after_append, first] at proper
  rw [Path.ids_fill, first]
  simpa [Path.before, Path.after, Bin.ids] using proper

end TinyKernel.Rbtree
