import TinyKernel.Rbtree.Balance

/-! What the rotations of `__rb_insert` and `____rb_erase_color` do to the tree in memory. -/

namespace TinyKernel.Rbtree

open Lib Bin Links

variable {Data Aug : Type} {m : Mem Data Aug} {side : Side}
variable {old new id : Id}

/-- `__rb_change_child` redirects the pointer above the hole. -/
theorem rbChangeChild_spec (around : RepPath m (some old) path) (nodup : path.ids.Nodup)
    (out : old ∉ path.ids) (child : Option Id) :
    RepPath (rbChangeChild m old child path.above) child path ∧
      ∀ id, id ∉ path.ids → Same m (rbChangeChild m old child path.above) id := by
  cases path with
  | nil => exact ⟨rfl, fun id _ => ⟨rfl, rfl, fun _ => rfl⟩⟩
  | cons frame path => ?_
  obtain ⟨holds, up, down, across, sibling, outer⟩ := around
  simp only [Path.ids_cons, List.nodup_cons, List.mem_append, not_or, List.mem_cons] at nodup out
  obtain ⟨⟨notSibling, notPath⟩, _⟩ := nodup
  have written : rbChangeChild m old child (Path.above (frame :: path)) =
      m.setChild frame.side frame.id child := by
    rw [Path.above_cons, rbChangeChild]
    cases side : frame.side with
    | left =>
      rw [side] at down
      rw [if_pos down]
    | right => ?_
    rw [side] at across
    have other : m.child .left frame.id ≠ some old := fun same =>
      out.2.1 (root_mem (across.symm.trans same))
    rw [if_neg other]
  have kept (id : Id) (ne : id ≠ frame.id) :
      Same m (m.setChild frame.side frame.id child) id :=
    ⟨rfl, rfl, fun s => by simp [setChild_child, ne]⟩
  rw [written]
  refine ⟨⟨holds, up, ?_, ?_, ?_, ?_⟩, fun id notMember => kept id ?_⟩
  · simp [setChild_child]
  · simpa [setChild_child] using across
  · exact sibling.congr fun id mem => kept id fun same => notSibling (same ▸ mem)
  · refine outer.congr rfl fun id mem => kept id fun same => notPath (same ▸ mem)
  intro same
  exact notMember (same ▸ .head _)

theorem rbCompute_on (f : Compute Data Aug) (side : Side) :
    rbCompute f m id =
      computeOn f side (m.info id).data ((m.child side id).map fun id => (m.info id).aug)
        ((m.child side.other id).map fun id => (m.info id).aug) := by
  cases side <;> rfl

variable {parent : Option Id}

theorem rootAug_of_rep (rep : Rep m parent t) :
    t.root.map (fun id => (m.info id).aug) = rootAug t := by
  cases t with
  | nil => rfl
  | node left id info right => rw [Bin.root, Option.map_some, rep.1, rootAug]

/-- The augmented fields that the `rotate` callback writes. -/
theorem rotate_info (f : Compute Data Aug) (side : Side) (ne : old ≠ new)
    (notNear : m.child side old ≠ some new) (notFar : m.child side.other old ≠ some new) (id : Id) :
    (rotate f m old new).info id =
      if id = old then
        { m.info old with
          aug := computeOn f side (m.info old).data
            ((m.child side old).map fun id => (m.info id).aug)
            ((m.child side.other old).map fun id => (m.info id).aug) }
      else if id = new then { m.info new with aug := (m.info old).aug } else m.info id := by
  have unaffected (s : Side) (apart : m.child s old ≠ some new) :
      (m.child s old).map (fun id => ((copy m old new).info id).aug) =
        (m.child s old).map fun id => (m.info id).aug := by
    apply Option.map_congr
    intro id mem
    have other : id ≠ new := fun same => apart (same ▸ mem)
    simp only [copy, setAug, setInfo_info, if_neg other]
  have kept : (copy m old new).info old = m.info old := by
    simp only [copy, setAug, setInfo_info, if_neg ne]
  have children : (copy m old new).child = m.child := rfl
  rw [rotate, setAug, setInfo_info, rbCompute_on f side, children, kept, unaffected side notNear,
    unaffected side.other notFar]
  rfl

/-- A root repainted, or left as it was. -/
def paint (color : Option Color) (info : Info Data Aug) : Info Data Aug :=
  match color with
  | none => info
  | some color => { info with color }

@[simp] theorem paint_aug (color : Option Color) (info : Info Data Aug) :
    (paint color info).aug = info.aug := by
  cases color <;> rfl

/-- `rb` given a parent, and a colour if there is one to give. -/
def reparent (m : Mem Data Aug) (rb p : Option Id) (color : Option Color) : Mem Data Aug :=
  match rb, color with
  | none, _ => m
  | some rb, none => m.setParent rb p
  | some rb, some color => rbSetParentColor m rb p color

/-- The writes to the children and to `tmp`, which moves from `new` to `old`. -/
def shift (side : Side) (m : Mem Data Aug) (old new : Id) (tmp : Option Id)
    (recolor : Option Color) : Mem Data Aug :=
  reparent ((m.setChild side old tmp).setChild side.other new (some old)) tmp (some old) recolor

section

variable (side) (m) (old new) (tmp : Option Id) (recolor : Option Color)

theorem shift_root : (shift side m old new tmp recolor).root = m.root := by
  cases tmp <;> cases recolor <;> rfl

theorem shift_child (s : Side) (i : Id) :
    (shift side m old new tmp recolor).child s i =
      if s = side.other ∧ i = new then some old
      else if s = side ∧ i = old then tmp else m.child s i := by
  cases tmp <;> cases recolor <;> rfl

theorem shift_parent (i : Id) :
    (shift side m old new tmp recolor).parent i =
      if tmp = some i then some old else m.parent i := by
  cases tmp with
  | none => rfl
  | some r =>
    cases recolor <;> simp [shift, reparent, rbSetParentColor, setColor, setParent_parent, eq_comm]

theorem shift_info (i : Id) :
    (shift side m old new tmp recolor).info i =
      if tmp = some i then paint recolor (m.info i) else m.info i := by
  cases tmp with
  | none => rfl
  | some r => ?_
  cases recolor with
  | none => simp [shift, reparent, paint]
  | some color => ?_
  by_cases same : i = r
  · simp [shift, reparent, rbSetParentColor, setColor, setInfo_info, same, paint]
  simp [shift, reparent, rbSetParentColor, setColor, setInfo_info, same, Ne.symm same]

end

/-- What a rotation writes below the place of `old`: `new` gets its children and `old` its new
parent. -/
def rise (f : Compute Data Aug) (side : Side) (m : Mem Data Aug) (old new : Id) (tmp : Option Id)
    (recolor : Option Color) (color : Color) : Mem Data Aug :=
  rotate f (rbSetParentColor (shift side m old new tmp recolor) old (some new) color) old new

theorem rise_spec (f : Compute Data Aug) (recolor : Option Color) (color : Color)
    (oldHolds : m.info old = oldInfo) (oldFar : m.child side.other old = z.root)
    (newHolds : m.info new = newInfo) (newNear : m.child side new = y.root)
    (near : Rep m (some new) y) (moved : Rep m parent x) (far : Rep m (some old) z)
    (nodup : (on side old oldInfo (on side new newInfo y x) z).ids.Nodup) :
    (rise f side m old new x.root recolor color).root = m.root ∧
      (rise f side m old new x.root recolor color).info new = { newInfo with aug := oldInfo.aug } ∧
      (rise f side m old new x.root recolor color).child side new = y.root ∧
      (rise f side m old new x.root recolor color).child side.other new = some old ∧
      Rep (rise f side m old new x.root recolor color) (some new) y ∧
      Rep (rise f side m old new x.root recolor color) (some new) (on side old
        { oldInfo with color, aug := computeOn f side oldInfo.data (rootAug x) (rootAug z) }
        (x.setRoot (paint recolor)) z) ∧
      ∀ i, i ∉ (on side old oldInfo (on side new newInfo y x) z).ids →
        Same m (rise f side m old new x.root recolor color) i := by
  obtain ⟨oldInner, oldZ, innerNodup, zNodup, apartZ⟩ := nodup_on.mp nodup
  obtain ⟨newY, newX, yNodup, xNodup, apartY⟩ := nodup_on.mp innerNodup
  simp only [mem_ids_on, not_or] at oldInner
  obtain ⟨oldNew, oldY, oldX⟩ := oldInner
  have newZ : new ∉ z.ids := apartZ new (by simp)
  have xRoot {i : Id} (isRoot : x.root = some i) : i ∈ x.ids := root_mem isRoot
  have notOld : x.root ≠ some old := fun same => oldX (xRoot same)
  have notNew : x.root ≠ some new := fun same => newX (xRoot same)
  have notFar : z.root ≠ some new := fun same => newZ (root_mem same)
  have child₂ := shift_child m side old new x.root recolor
  have parent₂ := shift_parent m side old new x.root recolor
  have info₂ := shift_info m side old new x.root recolor
  have root₂ := shift_root m side old new x.root recolor
  unfold rise
  generalize shift side m old new x.root recolor = m₂ at child₂ parent₂ info₂ root₂
  have oldHolds₂ : m₂.info old = oldInfo := by rw [info₂, if_neg notOld, oldHolds]
  have newHolds₂ : m₂.info new = newInfo := by rw [info₂, if_neg notNew, newHolds]
  generalize stage₃ : rbSetParentColor m₂ old (some new) color = m₃
  have child₃ (s : Side) (i : Id) : m₃.child s i = m₂.child s i := by rw [← stage₃]; rfl
  have parent₃ (i : Id) : m₃.parent i = if i = old then some new else m₂.parent i := by
    rw [← stage₃]
    rfl
  have info₃ (i : Id) : m₃.info i = if i = old then { oldInfo with color } else m₂.info i := by
    rw [← stage₃]
    simp only [rbSetParentColor, setColor, setInfo_info, setParent_info, oldHolds₂]
  have near₃ : m₃.child side old = x.root := by
    rw [child₃, child₂, if_neg fun both => oldNew both.2, if_pos ⟨rfl, rfl⟩]
  have far₃ : m₃.child side.other old = z.root := by
    rw [child₃, child₂, if_neg fun both => oldNew both.2, if_neg fun both => side.other_ne both.1,
      oldFar]
  have info₄ := rotate_info f side oldNew (near₃ ▸ notNew) (far₃ ▸ notFar)
  have kept {i : Id} (one : i ≠ old) (two : i ≠ new) (three : x.root ≠ some i) :
      Same m (rotate f m₃ old new) i := by
    refine ⟨?_, ?_, fun s => ?_⟩
    · rw [info₄, if_neg one, if_neg two, info₃, if_neg one, info₂, if_neg three]
    · change m₃.parent i = _
      rw [parent₃, if_neg one, parent₂, if_neg three]
    change m₃.child s i = _
    rw [child₃, child₂, if_neg fun both => two both.2, if_neg fun both => one both.2]
  have inX {i : Id} (mem : i ∈ x.ids) : i ≠ old ∧ i ≠ new :=
    ⟨fun same => oldX (same ▸ mem), fun same => newX (same ▸ mem)⟩
  have inZ {i : Id} (mem : i ∈ z.ids) : i ≠ old ∧ i ≠ new ∧ x.root ≠ some i := by
    refine ⟨fun same => oldZ (same ▸ mem), fun same => newZ (same ▸ mem), fun same => ?_⟩
    exact apartZ i (mem_ids_on.mpr (.inr (.inr (xRoot same)))) mem
  have augX : x.root.map (fun i => (m₃.info i).aug) = rootAug x := by
    rw [← rootAug_of_rep moved]
    apply Option.map_congr
    intro i isRoot
    rw [info₃, if_neg (inX (xRoot isRoot)).1, info₂, if_pos isRoot, paint_aug]
  have augZ : z.root.map (fun i => (m₃.info i).aug) = rootAug z := by
    rw [← rootAug_of_rep far]
    apply Option.map_congr
    intro i isRoot
    obtain ⟨one, _, three⟩ := inZ (root_mem isRoot)
    rw [info₃, if_neg one, info₂, if_neg three]
  refine ⟨?_, ?_, ?_, ?_, ?_, rep_on.mpr ⟨?_, ?_, ?_, far₃, ?_, ?_⟩, fun i out => ?_⟩
  · rw [← root₂, ← stage₃]
    rfl
  · rw [info₄, if_neg (Ne.symm oldNew), if_pos rfl, info₃, if_neg (Ne.symm oldNew), newHolds₂,
      info₃, if_pos rfl]
  · change m₃.child side new = _
    rw [child₃, child₂, if_neg fun both => side.ne_other both.1,
      if_neg fun both => oldNew both.2.symm, newNear]
  · change m₃.child side.other new = _
    rw [child₃, child₂, if_pos ⟨rfl, rfl⟩]
  · refine near.congr fun i mem => kept ?_ ?_ ?_
    · exact fun same => oldY (same ▸ mem)
    · exact fun same => newY (same ▸ mem)
    exact fun same => apartY i mem (xRoot same)
  · rw [info₄, if_pos rfl, near₃, far₃, augX, augZ, info₃, if_pos rfl]
  · change m₃.parent old = _
    rw [parent₃, if_pos rfl]
  · rw [root_setRoot]
    exact near₃
  · refine moved.reroot xNodup (fun i mem notRoot => ?_) fun i isRoot => ?_
    · exact kept (inX mem).1 (inX mem).2 notRoot
    obtain ⟨one, two⟩ := inX (xRoot isRoot)
    refine ⟨?_, ?_, fun s => ?_⟩
    · rw [info₄, if_neg one, if_neg two, info₃, if_neg one, info₂, if_pos isRoot]
    · change m₃.parent i = _
      rw [parent₃, if_neg one, parent₂, if_pos isRoot]
    change m₃.child s i = _
    rw [child₃, child₂, if_neg fun both => two both.2, if_neg fun both => one both.2]
  · exact far.congr fun i mem => kept (inZ mem).1 (inZ mem).2.1 (inZ mem).2.2
  simp only [mem_ids_on, not_or] at out
  exact kept out.1 out.2.1.1 fun same => out.2.1.2.2 (xRoot same)

/-- The pointer writes that every rotation makes: `new`, the child of `old` on the given side,
takes its place. -/
def turn (f : Compute Data Aug) (side : Side) (m : Mem Data Aug) (old new : Id) (tmp : Option Id)
    (recolor : Option Color) (color : Color) : Mem Data Aug :=
  rotate f (rbRotateSetParents (shift side m old new tmp recolor) old new color) old new

theorem ids_turn (side : Side) (old new : Id) (oldInfo newInfo oldInfo' newInfo' : Info Data Aug)
    (y x z : RbTree Data Aug) (change : Info Data Aug → Info Data Aug) :
    (on side new newInfo' y (on side old oldInfo' (x.setRoot change) z)).ids =
      (on side old oldInfo (on side new newInfo y x) z).ids := by
  cases side <;> simp [on, ids]

theorem rotate_rbChangeChild (f : Compute Data Aug) {child : Option Id}
    (apart : parent ≠ some old) :
    rotate f (rbChangeChild m old child parent) old new =
      rbChangeChild (rotate f m old new) old child parent := by
  have compute (s : Side) (p : Id) (other : p ≠ old) :
      rbCompute f (copy (m.setChild s p child) old new) old = rbCompute f (copy m old new) old := by
    simp [rbCompute, copy, setAug, setChild_child, setInfo_info, other.symm]
  cases parent with
  | none => rfl
  | some p => ?_
  have other : p ≠ old := fun same => apart (same ▸ rfl)
  have reads : (rotate f m old new).child .left p = m.child .left p := rfl
  simp only [rbChangeChild, reads]
  split <;> rw [rotate, compute _ p other] <;> rfl

theorem rotate_rbSetParentColor (f : Compute Data Aug) (ne : old ≠ new) :
    rotate f (rbSetParentColor (rbSetParentColor m new p c) old q d) old new =
      rbSetParentColor (rotate f (rbSetParentColor m old q d) old new) new p c := by
  have compute : rbCompute f (copy (rbSetParentColor (rbSetParentColor m new p c) old q d) old new)
        old = rbCompute f (copy (rbSetParentColor m old q d) old new) old := by
    simp only [rbCompute, copy, setAug, rbSetParentColor, setColor, setInfo_info, setInfo_child,
      setParent_info, setParent_child, ne, if_true, if_false]
    congr 2 <;> funext i <;> split <;> simp_all
  rw [rotate, compute, rotate]
  refine Links.ext rfl (funext fun i => ?_) (funext fun i => ?_) rfl
  · by_cases isOld : i = old <;> by_cases isNew : i = new <;>
      simp_all [copy, setAug, rbSetParentColor, setColor, setInfo_info]
  by_cases isOld : i = old <;> simp_all [copy, setAug, rbSetParentColor, setColor, setParent_parent]

/-- A rotation is what it writes below, and the pointers to and from the node above. -/
theorem turn_eq_rise (f : Compute Data Aug) (side : Side) (tmp : Option Id) (recolor : Option Color)
    (color : Color) (ne : old ≠ new) (up : (shift side m old new tmp recolor).parent old = parent)
    (painted : Rbtree.color (shift side m old new tmp recolor) old = oldColor)
    (apart : parent ≠ some old) :
    turn f side m old new tmp recolor color =
      rbChangeChild (rbSetParentColor (rise f side m old new tmp recolor color) new parent oldColor)
        old (some new) parent := by
  unfold turn rise rbRotateSetParents
  rw [up, painted, rotate_rbChangeChild f apart, rotate_rbSetParentColor f ne]

/-- What a rotation reads. The two links between `old` and `new` are not among it. -/
structure Ready (m : Mem Data Aug) (path : RbPath Data Aug) (side : Side) (old : Id)
    (oldInfo : Info Data Aug) (new : Id) (newInfo : Info Data Aug) (y x z : RbTree Data Aug) :
    Prop where
  around : RepPath m (some old) path
  oldHolds : m.info old = oldInfo
  oldParent : m.parent old = path.above
  oldFar : m.child side.other old = z.root
  newHolds : m.info new = newInfo
  newNear : m.child side new = y.root
  near : Rep m (some new) y
  moved : ∃ parent, Rep m parent x
  far : Rep m (some old) z
  nodup : (path.ids ++ (on side old oldInfo (on side new newInfo y x) z).ids).Nodup

theorem Ready.turn (f : Compute Data Aug) (ready : Ready m path side old oldInfo new newInfo y x z)
    (recolor : Option Color) (color : Color) :
    Focus (turn f side m old new x.root recolor color) path (on side new
      { newInfo with color := oldInfo.color, aug := oldInfo.aug } y (on side old
      { oldInfo with color, aug := computeOn f side oldInfo.data (rootAug x) (rootAug z) }
      (x.setRoot (paint recolor)) z)) := by
  obtain ⟨around, oldHolds, oldParent, oldFar, newHolds, newNear, near, ⟨xParent, moved⟩, far,
    nodup⟩ :=
    ready
  obtain ⟨pathNodup, treeNodup, apartPath⟩ := List.nodup_append.mp nodup
  have inTree {i : Id} (mem : i ∈ (on side old oldInfo (on side new newInfo y x) z).ids) :
      i ∉ path.ids := fun inPath => apartPath i inPath i mem rfl
  have oldOutside : old ∉ path.ids := inTree (by simp)
  have newOutside : new ∉ path.ids := inTree (by simp)
  obtain ⟨oldInner, oldZ, innerNodup, _, apartZ⟩ := nodup_on.mp treeNodup
  obtain ⟨newY, newX, _⟩ := nodup_on.mp innerNodup
  have oldNew : old ≠ new := fun same => oldInner (by simp [same])
  have newZ : new ∉ z.ids := apartZ new (by simp)
  have notOld : x.root ≠ some old := fun same => oldInner (by simp [root_mem same])
  have notAbove : path.above ≠ some old := by
    cases path with
    | nil => simp
    | cons frame path => exact fun same => oldOutside (Option.some.inj same ▸ by simp)
  have upper : (shift side m old new x.root recolor).parent old = path.above := by
    rw [shift_parent, if_neg notOld, oldParent]
  have painted : Rbtree.color (shift side m old new x.root recolor) old = oldInfo.color := by
    rw [Rbtree.color, shift_info, if_neg notOld, oldHolds]
  obtain ⟨root, newHolds', newNear', newFar', near', far', kept⟩ :=
    rise_spec f recolor color oldHolds oldFar newHolds newNear near moved far treeNodup
  have written := turn_eq_rise f side x.root recolor color oldNew upper painted notAbove
  rw [written]
  generalize rise f side m old new x.root recolor color = m' at *
  have lifted (i : Id) (ne : i ≠ new) :
      Same m' (rbSetParentColor m' new path.above oldInfo.color) i :=
    ⟨if_neg ne, if_neg ne, fun _ => rfl⟩
  have around' : RepPath (rbSetParentColor m' new path.above oldInfo.color) (some old) path :=
    around.congr root fun i mem => (kept i fun inside => inTree inside mem).trans
      (lifted i fun same => newOutside (same ▸ mem))
  obtain ⟨around₂, same₂⟩ := rbChangeChild_spec around' pathNodup oldOutside (some new)
  have carried {i : Id} (ne : i ≠ new)
    (mem : i ∈ (on side old oldInfo (on side new newInfo y x) z).ids) :
      Same m'
        (rbChangeChild (rbSetParentColor m' new path.above oldInfo.color) old (some new) path.above)
        i :=
    (lifted i ne).trans (same₂ i (inTree mem))
  have here := same₂ new newOutside
  refine ⟨by rw [root_on]; exact around₂, rep_on.mpr ⟨?_, ?_, ?_, ?_, ?_, ?_⟩, ?_⟩
  · rw [here.info]
    simp only [rbSetParentColor, setColor, setInfo_info, if_true, setParent_info, newHolds']
  · rw [here.parent]
    exact if_pos rfl
  · rw [here.child]
    exact newNear'
  · rw [here.child, root_on]
    exact newFar'
  · refine near'.congr fun i mem => carried ?_ (by simp [mem])
    exact fun same => newY (same ▸ mem)
  · refine far'.congr fun i mem => carried ?_ ?_
    · rintro rfl
      simp only [mem_ids_on, ids_setRoot] at mem
      exact mem.elim (Ne.symm oldNew) fun inside => inside.elim newX newZ
    simp only [mem_ids_on, ids_setRoot] at mem ⊢
    tauto
  have nodes := ids_turn side old new oldInfo newInfo
    { oldInfo with color, aug := computeOn f side oldInfo.data (rootAug x) (rootAug z) }
    { newInfo with color := oldInfo.color, aug := oldInfo.aug } y x z (paint recolor)
  rw [nodes]
  exact nodup

/-- The tree of a rotation before and after, and its augmented fields. -/
theorem Augmented.turn (inv : RotationInvariant f) (color color' : Color)
    (augmented : Augmented f (on side old oldInfo (on side new newInfo y x) z))
    (moved : Augmented f x') (same : rootAug x' = rootAug x) :
    Augmented f (on side new { newInfo with color, aug := oldInfo.aug } y
      (on side old { oldInfo with
        color := color',
        aug := computeOn f side oldInfo.data (rootAug x) (rootAug z) } x' z)) := by
  simp only [augmented_on, rootAug_on] at augmented ⊢
  obtain ⟨oldAug, ⟨newAug, inY, _⟩, inZ⟩ := augmented
  refine ⟨?_, inY, ?_, moved, inZ⟩
  · rw [oldAug, newAug]
    exact inv.computeOn side oldInfo.data newInfo.data _ _ _
  rw [same]

/-- A node painted, its parent as before. -/
theorem recolor_focus {info : Info Data Aug} (focus : Focus m path (on side id info x y))
    (color : Color) :
    Focus (rbSetParentColor m id path.above color) path (on side id { info with color } x y) := by
  obtain ⟨around, here, nodup⟩ := focus
  obtain ⟨holds, up, near, far, repX, repY⟩ := rep_on.mp here
  have unique := List.nodup_append.mp nodup
  obtain ⟨notX, notY, _⟩ := nodup_on.mp unique.2.1
  have kept (i : Id) (ne : i ≠ id) : Same m (rbSetParentColor m id path.above color) i :=
    ⟨if_neg ne, if_neg ne, fun _ => rfl⟩
  refine ⟨?_, rep_on.mpr ⟨?_, if_pos rfl, near, far, ?_, ?_⟩, ?_⟩
  · rw [root_on] at around ⊢
    refine around.congr rfl fun i mem => kept i ?_
    exact unique.2.2 i mem id (by simp)
  · simp only [rbSetParentColor, setColor, setInfo_info, if_true, setParent_info, holds]
  · exact repX.congr fun i mem => kept i fun same => notX (same ▸ mem)
  · exact repY.congr fun i mem => kept i fun same => notY (same ▸ mem)
  rw [ids_on] at nodup ⊢
  exact nodup

/-- A rotation whose upper pointers are left to the rotation that follows it. -/
def halfTurn (f : Compute Data Aug) (side : Side) (m : Mem Data Aug) (old new : Id)
    (tmp : Option Id) (color : Color) : Mem Data Aug :=
  rotate f (rbSetParentColor (shift side m old new tmp (some .black)) old (some new) color) old new

/-- What is below `new` after such a rotation. -/
structure HalfTurned (f : Compute Data Aug) (m m' : Mem Data Aug) (side : Side) (old : Id)
    (oldInfo : Info Data Aug) (new : Id) (newInfo : Info Data Aug) (color : Color)
    (y x z : RbTree Data Aug) : Prop where
  root : m'.root = m.root
  newHolds : m'.info new = { newInfo with aug := oldInfo.aug }
  newNear : m'.child side new = y.root
  newFar : m'.child side.other new = some old
  near : Rep m' (some new) y
  far : Rep m' (some new) (on side old
    { oldInfo with color, aug := computeOn f side oldInfo.data (rootAug x) (rootAug z) }
    (x.setRoot (paint (some .black))) z)
  kept : ∀ i, i ∉ (on side old oldInfo (on side new newInfo y x) z).ids → Same m m' i

theorem halfTurn_spec (f : Compute Data Aug)
    (here : Rep m parent (on side old oldInfo (on side new newInfo y x) z))
    (nodup : (on side old oldInfo (on side new newInfo y x) z).ids.Nodup) (color : Color) :
    HalfTurned f m (halfTurn f side m old new x.root color) side old oldInfo new newInfo color y x
      z := by
  obtain ⟨oldHolds, _, _, oldFar, inner, far⟩ := rep_on.mp here
  obtain ⟨newHolds, _, newNear, _, near, moved⟩ := rep_on.mp inner
  obtain ⟨root, newHolds', newNear', newFar', near', far', kept⟩ :=
    rise_spec f (some .black) color oldHolds oldFar newHolds newNear near moved far nodup
  exact ⟨root, newHolds', newNear', newFar', near', far', kept⟩

end TinyKernel.Rbtree
