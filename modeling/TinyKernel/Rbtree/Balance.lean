import TinyKernel.Rbtree.Code

/-! What a red-black tree is, and what may be put into the hole of one. -/

namespace TinyKernel.Rbtree

open Lib Bin

variable {Data Aug : Type}

abbrev RbTree (Data Aug : Type) := Bin (Info Data Aug)

abbrev RbPath (Data Aug : Type) := Path (Info Data Aug)

section

/-- The colour of the root; a leaf is black. -/
def rootColor : RbTree Data Aug → Color
  | .nil => .black
  | .node _ _ info _ => info.color

@[simp] theorem rootColor_nil : rootColor (.nil : RbTree Data Aug) = .black := rfl

@[simp] theorem rootColor_on (side : Side) (id : Id) (info : Info Data Aug)
    (near far : RbTree Data Aug) : rootColor (on side id info near far) = info.color := by
  cases side <;> rfl

/-- Every path down to a leaf has this many black nodes, and no red node has a red child. -/
def Balanced : Nat → RbTree Data Aug → Prop
  | count, .nil => count = 0
  | count, .node left _ info right =>
    match info.color with
    | .red => rootColor left = .black ∧ rootColor right = .black ∧ Balanced count left ∧
      Balanced count right
    | .black => ∃ fewer, count = fewer + 1 ∧ Balanced fewer left ∧ Balanced fewer right

/-- The five properties: besides `Balanced`, the root is black. -/
def RedBlack (t : RbTree Data Aug) : Prop := rootColor t = .black ∧ ∃ count, Balanced count t

variable {count : Nat}

theorem balanced_red {id : Id} (red : info.color = .red) :
    Balanced count (on side id info near far) ↔
      rootColor near = .black ∧ rootColor far = .black ∧ Balanced count near ∧
        Balanced count far := by
  cases side with
  | left => simp only [on, Balanced, red]
  | right => ?_
  simp only [on, Balanced, red]
  tauto

theorem balanced_black {id : Id} (black : info.color = .black) :
    Balanced (count + 1) (on side id info near far) ↔ Balanced count near ∧ Balanced count far := by
  cases side with
  | left =>
    simp only [on, Balanced, black]
    constructor
    · rintro ⟨fewer, same, rest⟩
      cases same
      exact rest
    exact fun rest => ⟨count, rfl, rest⟩
  | right => ?_
  simp only [on, Balanced, black]
  constructor
  · rintro ⟨fewer, same, inFar, inNear⟩
    cases same
    exact ⟨inNear, inFar⟩
  exact fun rest => ⟨count, rfl, rest.2, rest.1⟩

theorem not_balanced_zero {id : Id} (black : info.color = .black) :
    ¬ Balanced 0 (on side id info near far) := by
  intro balanced
  cases side with
  | left =>
    simp only [on, Balanced, black] at balanced
    obtain ⟨_, impossible, _⟩ := balanced
    cases impossible
  | right => ?_
  simp only [on, Balanced, black] at balanced
  obtain ⟨_, impossible, _⟩ := balanced
  cases impossible

/-- A tree with this many black nodes and this colour completes the red-black tree. -/
def Accepts : RbPath Data Aug → Nat → Color → Prop
  | [], _, color => color = .black
  | frame :: path, count, color =>
    Balanced count frame.sibling ∧
    match frame.info.color with
    | .red => color = .black ∧ rootColor frame.sibling = .black ∧ Accepts path count .red
    | .black => Accepts path (count + 1) .black

theorem Accepts.redBlack (accepts : Accepts path count (rootColor t))
    (balanced : Balanced count t) : RedBlack (path.fill t) := by
  induction path generalizing count t with
  | nil => exact ⟨accepts, count, balanced⟩
  | cons frame path ih => ?_
  obtain ⟨sibling, rest⟩ := accepts
  rw [Path.fill_cons, Frame.fill]
  cases shade : frame.info.color with
  | red =>
    rw [shade] at rest
    have filled : Balanced count (on frame.side frame.id frame.info t frame.sibling) :=
      (balanced_red shade).mpr ⟨rest.1, rest.2.1, balanced, sibling⟩
    refine ih ?_ filled
    rw [rootColor_on, shade]
    exact rest.2.2
  | black => ?_
  rw [shade] at rest
  have filled : Balanced (count + 1) (on frame.side frame.id frame.info t frame.sibling) :=
    (balanced_black shade).mpr ⟨balanced, sibling⟩
  refine ih ?_ filled
  rw [rootColor_on, shade]
  exact rest

/-- A black root is accepted wherever a red one is. -/
theorem Accepts.black {color : Color} (accepts : Accepts path count color) :
    Accepts path count .black := by
  cases path with
  | nil => rfl
  | cons frame path => ?_
  obtain ⟨sibling, rest⟩ := accepts
  refine ⟨sibling, ?_⟩
  cases shade : frame.info.color with
  | red =>
    rw [shade] at rest
    exact ⟨rfl, rest.2⟩
  | black => ?_
  rw [shade] at rest
  exact rest

/-- The hole of a red-black tree accepts what is in it. -/
theorem accepts_of_balanced (balanced : Balanced total (path.fill t))
    (black : rootColor (path.fill t) = .black) :
    ∃ count, Balanced count t ∧ Accepts path count (rootColor t) := by
  induction path generalizing t total with
  | nil => exact ⟨total, balanced, black⟩
  | cons frame path ih => ?_
  rw [Path.fill_cons] at balanced black
  obtain ⟨count, inside, accepts⟩ := ih balanced black
  rw [Frame.fill] at inside accepts
  rw [rootColor_on] at accepts
  cases shade : frame.info.color with
  | red =>
    obtain ⟨nearBlack, farBlack, near, far⟩ := (balanced_red shade).mp inside
    refine ⟨count, near, far, ?_⟩
    rw [shade] at accepts ⊢
    exact ⟨nearBlack, farBlack, accepts⟩
  | black => ?_
  cases count with
  | zero => exact absurd inside (not_balanced_zero shade)
  | succ count => ?_
  obtain ⟨near, far⟩ := (balanced_black shade).mp inside
  refine ⟨count, near, far, ?_⟩
  rw [shade] at accepts ⊢
  exact accepts

theorem RedBlack.accepts (redBlack : RedBlack (path.fill t)) :
    ∃ count, Balanced count t ∧ Accepts path count (rootColor t) :=
  accepts_of_balanced redBlack.2.choose_spec redBlack.1

end

section

variable (f : Compute Data Aug)

/-- The augmented field of the root, if there is one. -/
def rootAug : RbTree Data Aug → Option Aug
  | .nil => none
  | .node _ _ info _ => some info.aug

@[simp] theorem rootAug_nil : rootAug (.nil : RbTree Data Aug) = none := rfl

@[simp] theorem rootAug_on (side : Side) (id : Id) (info : Info Data Aug)
    (near far : RbTree Data Aug) : rootAug (on side id info near far) = some info.aug := by
  cases side <;> rfl

/-- `rbcompute` with the children given by side. -/
def computeOn (side : Side) (data : Data) (near far : Option Aug) : Aug :=
  match side with
  | .left => f data near far
  | .right => f data far near

theorem computeOn_other (side : Side) (data : Data) (near far : Option Aug) :
    computeOn f side.other data near far = computeOn f side data far near := by
  cases side <;> rfl

/-- Every augmented field is what `rbcompute` makes of the node and its children. -/
def Augmented : RbTree Data Aug → Prop
  | .nil => True
  | .node left _ info right =>
    info.aug = f info.data (rootAug left) (rootAug right) ∧ Augmented left ∧ Augmented right

theorem augmented_on {id : Id} {far : RbTree Data Aug} :
    Augmented f (on side id info near far) ↔
      info.aug = computeOn f side info.data (rootAug near) (rootAug far) ∧ Augmented f near ∧
        Augmented f far := by
  cases side with
  | left => exact Iff.rfl
  | right => ?_
  simp only [on, Augmented, computeOn]
  tauto

/-- The fields around a hole are right if the hole's root has this field. -/
def AugmentedPath : Option Aug → RbPath Data Aug → Prop
  | _, [] => True
  | hole, frame :: path =>
    frame.info.aug = computeOn f frame.side frame.info.data hole (rootAug frame.sibling) ∧
      Augmented f frame.sibling ∧ AugmentedPath (some frame.info.aug) path

theorem augmented_fill :
    Augmented f (path.fill t) ↔ AugmentedPath f (rootAug t) path ∧ Augmented f t := by
  induction path generalizing t with
  | nil => simp [AugmentedPath]
  | cons frame path ih => ?_
  rw [Path.fill_cons, ih, Frame.fill, rootAug_on, augmented_on, AugmentedPath]
  tauto

/-- What `rbcompute` gives does not depend on the shape of the subtree: a rotation of two nodes
leaves it alone. -/
def RotationInvariant : Prop :=
  ∀ (top inner : Data) (x y z : Option Aug),
    f top (some (f inner x y)) z = f inner x (some (f top y z))

variable {f}

theorem RotationInvariant.computeOn (inv : RotationInvariant f) (side : Side) (top inner : Data)
    (x y z : Option Aug) :
    computeOn f side top (some (computeOn f side inner x y)) z =
      computeOn f side inner x (some (computeOn f side top y z)) := by
  cases side with
  | left => exact inv top inner x y z
  | right => exact (inv inner top z y x).symm

end

end TinyKernel.Rbtree
