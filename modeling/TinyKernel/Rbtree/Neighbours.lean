import TinyKernel.Rbtree.Successor

/-! `rb_next` and `rb_prev`: the neighbours of a node in the order of the tree. -/

namespace TinyKernel.Rbtree

open Lib List

variable {Data Aug : Type}

/-- `RB_EMPTY_NODE`: a node on no tree is its own parent. -/
def rbEmptyNode (m : Mem Data Aug) (node : Id) : Bool := m.parent node = some node

/-- `RB_CLEAR_NODE`. -/
def rbClearNode (m : Mem Data Aug) (node : Id) : Mem Data Aug := m.setParent node (some node)

/-- Down along one side as far as possible. -/
def farthest (m : Mem Data Aug) (side : Side) : Nat → Id → Except Fault Id
  | 0, _ => .error .endless
  | rounds + 1, node =>
    match m.child side node with
    | none => .ok node
    | some child => farthest m side rounds child

/-- Up while coming from the given side. -/
def climb (m : Mem Data Aug) (side : Side) : Nat → Id → Except Fault (Option Id)
  | 0, _ => .error .endless
  | rounds + 1, node =>
    match m.parent node with
    | none => .ok none
    | some parent =>
      if m.child side parent = some node then climb m side rounds parent else .ok (some parent)

/-- `rb_next` and `rb_prev`, which are mirror images. -/
def neighbour (side : Side) (rounds : Nat) (m : Mem Data Aug) (node : Id) :
    Except Fault (Option Id) :=
  if rbEmptyNode m node then .ok none
  else
    match m.child side node with
    | some child => (farthest m side.other rounds child).map some
    | none => climb m side rounds node

def rbNext (rounds : Nat) (m : Mem Data Aug) (node : Id) : Except Fault (Option Id) :=
  neighbour .right rounds m node

def rbPrev (rounds : Nat) (m : Mem Data Aug) (node : Id) : Except Fault (Option Id) :=
  neighbour .left rounds m node

/-- The first or last of some nodes. -/
def endOn : Side → List Id → Option Id
  | .left, ids => ids.head?
  | .right, ids => ids.getLast?

open Bin

variable {path : RbPath Data Aug}

theorem endOn_on (side : Side) (id : Id) (info : Info Data Aug) (near far : RbTree Data Aug) :
    endOn side (on side id info near far).ids = (endOn side near.ids).or (some id) := by
  cases side with
  | left => simp [endOn, ids_on]
  | right => ?_
  rw [ids_on]
  simp only [endOn]
  rw [getLast?_append, getLast?_cons]
  cases near.ids.getLast? <;> rfl

variable {rounds : Nat}

theorem farthest_spec (side : Side) (root : t.root = some start) (rep : Rep m top t)
    (enough : t.ids.length ≤ rounds) :
    ∃ node, farthest m side rounds start = .ok node ∧ endOn side t.ids = some node := by
  induction rounds generalizing t start top with
  | zero =>
    obtain ⟨info, near, far, rfl⟩ := exists_on root side
    have pos := (perm_on side start info near far).length_eq
    simp at pos
    omega
  | succ rounds ih => ?_
  obtain ⟨info, near, far, rfl⟩ := exists_on root side
  obtain ⟨_, _, down, _, repNear, _⟩ := rep_on.mp rep
  have length := (perm_on side start info near far).length_eq
  rw [length_cons, length_append] at length
  rw [farthest, down, endOn_on]
  cases below : near.root with
  | none =>
    obtain rfl := eq_nil_of_root below
    refine ⟨start, rfl, ?_⟩
    cases side <;> rfl
  | some child => ?_
  obtain ⟨node, ran, found⟩ := ih below repNear (by omega)
  exact ⟨node, ran, by rw [found]; rfl⟩

/-- What lies on a side of the hole. -/
def beyond : Side → RbPath Data Aug → List Id
  | .left, path => path.before
  | .right, path => path.after

theorem beyond_same (same : frame.side = side) :
    beyond side (frame :: path) = beyond side path := by
  subst same
  cases from_side : frame.side <;> simp [beyond, Path.before, Path.after, from_side]

theorem beyond_other (other : frame.side = side.other) :
    endOn side.other (beyond side (frame :: path)) = some frame.id := by
  cases side with
  | left =>
    have right : frame.side = .right := other
    simp [beyond, Path.before, right, endOn, Side.other, getLast?_append]
  | right => ?_
  have left : frame.side = .left := other
  simp [beyond, Path.after, left, endOn, Side.other]

theorem climb_spec {id : Id} (root : t.root = some id) (focus : Focus m path t)
    (enough : path.length < rounds) :
    climb m side rounds id = .ok (endOn side.other (beyond side path)) := by
  induction path generalizing t id rounds with
  | nil =>
    obtain _ | rounds := rounds
    · omega
    obtain ⟨info, near, far, rfl⟩ := exists_on root side
    obtain ⟨_, up, _⟩ := rep_on.mp focus.here
    rw [climb, up]
    cases side <;> rfl
  | cons frame path ih => ?_
  obtain _ | rounds := rounds
  · omega
  have outer := focus_fill.mpr focus
  have nodup := focus.nodup
  obtain ⟨_, _, down, across, _, _⟩ := focus.around
  have up : m.parent id = some frame.id := by
    obtain ⟨info, near, far, rfl⟩ := exists_on root side
    exact (rep_on.mp focus.here).2.1
  rw [climb, up]
  simp only
  rcases Side.eq_or_eq_other side frame.side with same | other
  · rw [if_pos (by rw [← same, down, root]), beyond_same same]
    refine ih ?_ outer (Nat.lt_of_succ_lt_succ enough)
    rw [Frame.fill, root_on]
  have away : m.child side frame.id ≠ some id := by
    have opposite : side = frame.side.other := by
      rw [other]
      cases side <;> rfl
    rw [opposite, across]
    intro inside
    have twice := nodup_append.mp nodup
    have mem : id ∈ Path.ids (frame :: path) := by
      exact .tail _ (mem_append_left _ (root_mem inside))
    exact twice.2.2 id mem id (root_mem root) rfl
  rw [if_neg away, beyond_other other]

theorem neighbour_focus (side : Side) {id : Id} (focus : Focus m path (on side id info near far))
    (enough : (path.fill (on side id info near far)).ids.length < rounds) :
    neighbour side rounds m id =
      .ok ((endOn side.other near.ids).or (endOn side.other (beyond side path))) := by
  have total := (Path.perm_fill path (on side id info near far)).length_eq
  rw [length_append, (perm_on side id info near far).length_eq, length_cons, length_append] at total
  have short : path.length ≤ (Path.ids path).length := length_le_ids path
  obtain ⟨_, up, down, _, repNear, _⟩ := rep_on.mp focus.here
  have linked : rbEmptyNode m id = false := by
    rw [rbEmptyNode, up, decide_eq_false_iff_not]
    intro same
    cases path with
    | nil => cases same
    | cons frame path => ?_
    obtain rfl : frame.id = id := Option.some.inj same
    have mem : frame.id ∈ (on side frame.id info near far).ids := root_mem (root_on ..)
    exact (nodup_append.mp focus.nodup).2.2 frame.id (by simp) frame.id mem rfl
  rw [neighbour, linked, if_neg Bool.false_ne_true, down]
  cases below : near.root with
  | none =>
    obtain rfl := eq_nil_of_root below
    have nothing : endOn side.other (nil : RbTree Data Aug).ids = none := by cases side <;> rfl
    simp only [nothing, Option.none_or]
    exact climb_spec (root_on ..) focus (by omega)
  | some child => ?_
  obtain ⟨node, ran, found⟩ :=
    farthest_spec side.other below repNear (by omega : near.ids.length ≤ rounds)
  simp only [ran, found]
  rfl

/-- A node of the tree with its neighbours. -/
theorem neighbours {after : List Id} {id : Id} (holds : Holds m t)
    (order : t.ids = before ++ id :: after) (enough : t.ids.length < rounds) :
    rbNext rounds m id = .ok after.head? ∧ rbPrev rounds m id = .ok before.getLast? := by
  obtain ⟨path, left, info, right, rfl⟩ := exists_path (by simp [order] : id ∈ t.ids)
  have focus := focus_iff_holds.mpr holds
  have nodup : (path.before ++ (node left id info right).ids ++ path.after).Nodup := by
    rw [← Path.ids_fill]
    simpa using (focus_iff_holds.mp focus).nodup
  have ids_eq := (Path.ids_fill path (node left id info right)).symm.trans order
  have shape : path.before ++ (node left id info right).ids ++ path.after =
      (path.before ++ left.ids) ++ id :: (right.ids ++ path.after) := by simp [Bin.ids]
  rw [shape] at nodup ids_eq
  have fresh := (nodup_cons.mp ((perm_middle.nodup_iff).mp nodup)).1
  obtain ⟨before_eq, -, after_eq⟩ :=
    (append_cons_inj_of_notMem (fun mem => fresh (mem_append_left _ mem))
        (fun mem => fresh (mem_append_right _ mem))).mp ids_eq
  constructor
  · have next := neighbour_focus .right focus enough
    rw [rbNext, next, ← after_eq]
    exact congrArg _ head?_append.symm
  have prev := neighbour_focus .left focus enough
  rw [rbPrev, prev, ← before_eq]
  exact congrArg _ getLast?_append.symm

end TinyKernel.Rbtree
