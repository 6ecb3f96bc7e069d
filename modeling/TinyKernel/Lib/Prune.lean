import TinyKernel.Lib.Bin

/-! Searches through a binary tree in order that leave out subtrees which cannot hold what is
sought, and that go back up through the parent pointers. -/

namespace TinyKernel.Lib

open List hiding nil

variable {Info : Type*}

namespace Bin

/-- The nodes of a tree as they are met by a walk that begins on the given side. -/
def order : Side → Bin Info → List Nat
  | .left, t => t.ids
  | .right, t => t.ids.reverse

@[simp] theorem order_nil (side : Side) : order side (nil : Bin Info) = [] := by cases side <;> rfl

@[simp] theorem mem_order : x ∈ order side t ↔ x ∈ t.ids := by cases side <;> simp [order]

theorem order_on (side : Side) (id : Nat) (info : Info) (near far : Bin Info) :
    order side (on side id info near far) = order side near ++ id :: order side far := by
  cases side <;> simp [order, ids_on]

theorem order_on_other (side : Side) (id : Nat) (info : Info) (near far : Bin Info) :
    order side (on side.other id info near far) = order side far ++ id :: order side near := by
  rw [on_other, order_on]

namespace Path

/-- What such a walk meets after it has left the hole. -/
def rest (side : Side) : Path Info → List Nat
  | [] => []
  | frame :: path =>
    if frame.side = side then frame.id :: order side frame.sibling ++ rest side path
    else rest side path

/-- The steps it takes from there: each node is entered and checked. -/
def weight (side : Side) : Path Info → Nat
  | [] => 0
  | frame :: path =>
    if frame.side = side then 2 * frame.sibling.ids.length + 1 + weight side path
    else weight side path

/-- What it has met before. -/
def past (side : Side) : Path Info → List Nat
  | [] => []
  | frame :: path =>
    if frame.side = side then past side path
    else past side path ++ (order side frame.sibling ++ [frame.id])

theorem order_fill (side : Side) (path : Path Info) (t : Bin Info) :
    order side (path.fill t) = past side path ++ order side t ++ rest side path := by
  induction path generalizing t with
  | nil => simp [past, rest]
  | cons frame path ih => ?_
  rw [fill_cons, ih, past, rest, Frame.fill]
  rcases Side.eq_or_eq_other side frame.side with same | other
  · rw [same, order_on]
    simp
  rw [other, order_on_other]
  simp

theorem length_lt_fill (path : Path Info) {id : Nat} (root : t.root = some id) :
    path.length < (path.fill t).ids.length := by
  have nodes : path.length ≤ (Path.ids path).length := by
    induction path with
    | nil => exact Nat.le_refl _
    | cons frame path ih => ?_
    simp only [ids_cons, length_cons, length_append]
    omega
  have here := length_pos_of_mem (root_mem root)
  rw [(perm_fill path t).length_eq, length_append]
  omega

end Path

end Bin

variable {Error Gap : Type}

/-- What is seen at a node. -/
inductive Verdict (Gap : Type) where
  | stop
  | found (gap : Gap)
  | pass

inductive Ending (Gap : Type) where
  | stopped
  | found (gap : Gap)
  | ended
  deriving DecidableEq

/-- A node is come to from its parent, or it is its turn, in the latter case perhaps on the way
back. -/
inductive Stage where
  | above
  | current (back : Bool)

structure Guide (Error Gap : Type) where
  /-- The side that is visited first. -/
  side : Side
  /-- Whether the node's subtree on that side is worth a visit. -/
  enter : Nat → Bool
  /-- Whether the subtree below a node looks promising. -/
  promising : Nat → Bool
  check : Bool → Nat → Except Error (Verdict Gap)

/-- Up the tree until the way leads up from the given side. -/
def backUp (m : Links Info) (endless : Error) (side : Side) : Nat → Nat → Except Error (Option Nat)
  | 0, _ => .error endless
  | rounds + 1, prev =>
    match m.parent prev with
    | none => .ok none
    | some parent =>
      if m.child side parent = some prev then .ok (some parent)
      else backUp m endless side rounds parent

namespace Guide

variable (guide : Guide Error Gap) (m : Links Info) (endless : Error) (limit : Nat)

def promisingChild (side : Side) (node : Nat) : Option Nat :=
  (m.child side node).filter guide.promising

/-- The first child, unless the node tells that there is nothing for it. -/
def firstChild (node : Nat) : Option Nat :=
  if guide.enter node then guide.promisingChild m guide.side node else none

def walk : Nat → Stage → Nat → Except Error (Ending Gap)
  | 0, _, _ => .error endless
  | rounds + 1, .above, node =>
    match guide.firstChild m node with
    | some child => walk rounds .above child
    | none => walk rounds (.current false) node
  | rounds + 1, .current back, node => do
    match ← guide.check back node with
    | .stop => return .stopped
    | .found gap => return .found gap
    | .pass =>
      match guide.promisingChild m guide.side.other node with
      | some child => walk rounds .above child
      | none =>
        match ← backUp m endless guide.side limit node with
        | none => return .ended
        | some parent => walk rounds (.current true) parent

end Guide

open Bin

/-- Nothing is found at the node. -/
def Verdict.Empty (verdict : Verdict Gap) : Prop := ∀ gap, verdict ≠ .found gap

theorem Verdict.empty_iff {verdict : Verdict Gap} {Good : Gap → Prop}
    (found : ∀ gap, verdict = .found gap ↔ gap = here ∧ Good gap) : verdict.Empty ↔ ¬Good here := by
  constructor
  · intro empty good
    exact empty here ((found here).mpr ⟨rfl, good⟩)
  intro bad gap isFound
  obtain ⟨rfl, good⟩ := (found gap).mp isFound
  exact bad good

/-- An ending is right for the nodes that were ahead: the first find, or that there is none. -/
def Finds (verdict : Nat → Verdict Gap) (nodes : List Nat) : Ending Gap → Prop
  | .stopped => (∀ x ∈ nodes, (verdict x).Empty) ∧ ∃ x ∈ nodes, verdict x = .stop
  | .found gap => ∃ before id after, nodes = before ++ id :: after ∧
      (∀ x ∈ before, (verdict x).Empty) ∧ verdict id = .found gap
  | .ended => ∀ x ∈ nodes, (verdict x).Empty

theorem Finds.append {verdict : Nat → Verdict Gap} (empty : ∀ x ∈ skip, (verdict x).Empty)
    (finds : Finds verdict nodes ending) : Finds verdict (skip ++ nodes) ending := by
  cases ending with
  | stopped =>
    obtain ⟨none, x, mem, stop⟩ := finds
    refine ⟨fun y inside => ?_, x, mem_append_right _ mem, stop⟩
    exact (mem_append.mp inside).elim (empty y) (none y)
  | found gap =>
    obtain ⟨before, id, after, rfl, none, found⟩ := finds
    refine ⟨skip ++ before, id, after, by simp, fun y inside => ?_, found⟩
    exact (mem_append.mp inside).elim (empty y) (none y)
  | ended => exact fun y inside => (mem_append.mp inside).elim (empty y) (finds y)

/-- What a guide promises about a tree: its checks give the verdict, and what it leaves out is
empty. -/
structure Guide.Sound (guide : Guide Error Gap) (verdict : Nat → Verdict Gap) (tree : Bin Info) :
    Prop where
  check : ∀ path id info near far, tree = Path.fill path (on guide.side id info near far) →
    guide.check false id = .ok (verdict id) ∧ (near ≠ nil → guide.check true id = .ok (verdict id))
  enter : ∀ path id info near far, tree = Path.fill path (on guide.side id info near far) →
    guide.enter id = false → ∀ x ∈ near.ids, (verdict x).Empty
  promising : ∀ path t id, tree = Path.fill path t → t.root = some id → guide.promising id = false →
    ∀ x ∈ t.ids, (verdict x).Empty
  stop : ∀ before id after, tree.order guide.side = before ++ id :: after → verdict id = .stop →
    ∀ x ∈ id :: after, (verdict x).Empty

section

variable {m : Links Info} {path : Path Info} {t : Bin Info} {endless : Error} {limit : Nat}

variable {id : Nat}

theorem parent_of_focus (root : t.root = some id) (focus : Focus m (frame :: path) t) :
    m.parent id = some frame.id := by
  obtain ⟨info, near, far, rfl⟩ := exists_on root .left
  exact (rep_on.mp focus.here).2.1

theorem child_iff_side (root : t.root = some id) (side : Side) (focus : Focus m (frame :: path) t) :
    m.child side frame.id = some id ↔ frame.side = side := by
  obtain ⟨_, _, down, across, _, _⟩ := focus.around
  rcases Side.eq_or_eq_other frame.side side with rfl | other
  · simp [down, root]
  subst other
  rw [across]
  refine ⟨fun inside => ?_, fun same => absurd same (Side.ne_other _)⟩
  have mem : id ∈ Path.ids (frame :: path) := by exact .tail _ (mem_append_left _ (root_mem inside))
  exact absurd rfl ((nodup_append.mp focus.nodup).2.2 id mem id (root_mem root))

/-- Going back up ends at the node whose turn is next. -/
theorem backUp_spec (side : Side) (root : t.root = some id) (focus : Focus m path t)
    (enough : path.length < limit) :
    backUp m endless side limit id = .ok none ∧ Path.rest side path = [] ∨
      ∃ id' info near far outer, backUp m endless side limit id = .ok (some id') ∧
        path.fill t = Path.fill outer (on side id' info near far) ∧ near ≠ nil ∧
        Path.rest side path = id' :: order side far ++ Path.rest side outer ∧
        Path.weight side path = 2 * far.ids.length + 1 + Path.weight side outer := by
  induction path generalizing t id limit with
  | nil =>
    obtain _ | limit := limit
    · omega
    obtain ⟨info, near, far, rfl⟩ := exists_on root side
    obtain ⟨_, up, _⟩ := rep_on.mp focus.here
    have top : m.parent id = none := up
    exact .inl ⟨by rw [backUp, top], rfl⟩
  | cons frame path ih => ?_
  obtain _ | limit := limit
  · omega
  rw [backUp, parent_of_focus root focus]
  simp only [child_iff_side root side focus, Path.rest, Path.weight]
  by_cases same : frame.side = side
  · refine .inr
      ⟨frame.id, frame.info, t, frame.sibling, path, if_pos same, ?_, ?_, if_pos same, if_pos same⟩
    · rw [Path.fill_cons, Frame.fill, same]
    intro empty
    rw [empty] at root
    cases root
  rw [if_neg same, if_neg same, if_neg same, Path.fill_cons]
  refine ih ?_ (focus_fill.mpr focus) (Nat.lt_of_succ_lt_succ enough)
  rw [Frame.fill, root_on]

variable {guide : Guide Error Gap} {verdict : Nat → Verdict Gap} {tree : Bin Info}

/-- A child that is not visited has nothing below it. -/
theorem Guide.Sound.unvisited (sound : guide.Sound verdict tree) {side : Side}
    (focus : Focus m path (on side id info near far))
    (whole : tree = path.fill (on side id info near far))
    (unpromising : guide.promisingChild m side id = none) : ∀ x ∈ near.ids, (verdict x).Empty := by
  obtain ⟨_, _, down, _⟩ := rep_on.mp focus.here
  cases root : near.root with
  | none =>
    rw [eq_nil_of_root root]
    exact fun x mem => by cases mem
  | some child => ?_
  rw [Guide.promisingChild, down, root] at unpromising
  have unlikely : guide.promising child = false := by simpa [Option.filter] using unpromising
  refine sound.promising (⟨side, id, info, far⟩ :: path) near child ?_ root unlikely
  rw [whole]
  rfl

/-- A child that is visited is the root of the subtree on its side. -/
theorem visited (focus : Focus m path (on side id info near far))
    (promising : guide.promisingChild m side id = some child) :
    near.root = some child ∧ Focus m (⟨side, id, info, far⟩ :: path) near := by
  obtain ⟨_, _, down, _⟩ := rep_on.mp focus.here
  rw [Guide.promisingChild, down] at promising
  exact ⟨(Option.filter_eq_some_iff.mp promising).1, focus_fill.mp focus⟩

/-- From any node that a walk comes to it ends right for what is ahead. -/
theorem walk_spec (sound : guide.Sound verdict tree) (deep : tree.ids.length ≤ limit)
    (rounds : Nat) :
    (∀ (path : Path Info) (t : Bin Info) (id : Nat), tree = path.fill t → Focus m path t →
        t.root = some id → 2 * t.ids.length + path.weight guide.side < rounds →
        ∃ ending, guide.walk m endless limit rounds .above id = .ok ending ∧
          Finds verdict (t.order guide.side ++ path.rest guide.side) ending) ∧
      ∀ (path : Path Info) (id : Nat) (info : Info) (near far : Bin Info) (back : Bool),
        tree = path.fill (on guide.side id info near far) →
          Focus m path (on guide.side id info near far) → (back = true → near ≠ nil) →
          2 * far.ids.length + 1 + path.weight guide.side < rounds →
          ∃ ending, guide.walk m endless limit rounds (.current back) id = .ok ending ∧
            Finds verdict (id :: far.order guide.side ++ path.rest guide.side) ending := by
  induction rounds with
  | zero => exact ⟨fun _ _ _ _ _ _ few => absurd few (by omega), fun _ _ _ _ _ _ _ _ _ few =>
      absurd few (by omega)⟩
  | succ rounds ih => ?_
  obtain ⟨ihAbove, ihCurrent⟩ := ih
  constructor
  · intro path t id whole focus root few
    obtain ⟨info, near, far, rfl⟩ := exists_on root guide.side
    have size := (perm_on guide.side id info near far).length_eq
    rw [length_cons, length_append] at size
    rw [Guide.walk, order_on, append_assoc]
    cases first : guide.firstChild m id with
    | some child =>
      have promising : guide.promisingChild m guide.side id = some child := by
        rw [Guide.firstChild] at first
        split at first
        · exact first
        cases first
      obtain ⟨rootNear, focusNear⟩ := visited focus promising
      obtain ⟨ending, ran, finds⟩ := ihAbove _ near child (by rw [whole]; rfl) focusNear rootNear
        (by simp only [Path.weight, if_true]; omega)
      refine ⟨ending, ran, ?_⟩
      simpa only [Path.rest, if_true] using finds
    | none => ?_
    have empty : ∀ x ∈ near.ids, (verdict x).Empty := by
      rw [Guide.firstChild] at first
      split at first
      · exact sound.unvisited focus whole first
      exact sound.enter path id info near far whole (by simpa using ‹¬guide.enter id = true›)
    obtain ⟨ending, ran, finds⟩ := ihCurrent path id info near far false whole focus
      (fun back => by cases back) (by omega)
    exact ⟨ending, ran, finds.append fun x mem => empty x (mem_order.mp mem)⟩
  intro path id info near far back whole focus came few
  have checked : guide.check back id = .ok (verdict id) := by
    obtain ⟨ahead, behind⟩ := sound.check path id info near far whole
    cases back with
    | false => exact ahead
    | true => exact behind (came rfl)
  have turned := focus
  have whole' := whole
  rw [← Side.other_other guide.side, on_other] at turned whole'
  rw [Guide.walk, checked]
  simp only [bind, Except.bind, pure, Except.pure]
  cases here : verdict id with
  | stop =>
    refine ⟨.stopped, rfl, ?_, id, by simp, here⟩
    refine sound.stop (path.past guide.side ++ near.order guide.side) id _ ?_ here
    rw [whole, Path.order_fill, order_on]
    simp
  | found gap =>
    exact ⟨.found gap, rfl, [], id, far.order guide.side ++
      path.rest guide.side, rfl, forall_mem_nil _, here⟩
  | pass => ?_
  have nothing : (verdict id).Empty := fun gap found => by rw [here] at found; cases found
  cases next : guide.promisingChild m guide.side.other id with
  | some child =>
    obtain ⟨rootFar, focusFar⟩ := visited turned next
    obtain ⟨ending, ran, finds⟩ := ihAbove _ far child (by rw [whole']; rfl) focusFar rootFar
      (by simp only [Path.weight, Side.other_ne, if_false]; omega)
    refine ⟨ending, ran, ?_⟩
    simp only [Path.rest, Side.other_ne, if_false] at finds
    have alone : ∀ x ∈ [id], (verdict x).Empty := by simpa using nothing
    exact (finds.append alone : Finds verdict ([id] ++ _) ending)
  | none => ?_
  have empty : ∀ x ∈ id :: far.order guide.side, (verdict x).Empty := by
    intro x mem
    rcases mem_cons.mp mem with rfl | mem
    · exact nothing
    exact sound.unvisited turned whole' next x (mem_order.mp mem)
  have shallow : path.length < limit := by
    have inside := Path.length_lt_fill path (root_on guide.side id info near far)
    rw [← whole] at inside
    omega
  rcases backUp_spec guide.side (root_on ..) focus shallow with ⟨ran, ended⟩ |
    ⟨id', info', near', far', outer, ran, same, inner, rest, weight⟩
  · refine ⟨.ended, by rw [ran], ?_⟩
    rw [ended, append_nil]
    exact empty
  have focus' : Focus m outer (on guide.side id' info' near' far') := by
    rw [focus_iff_holds, ← same, ← focus_iff_holds]
    exact focus
  obtain ⟨ending, ran', finds⟩ := ihCurrent outer id' info' near' far' true
    (whole.trans same) focus' (fun _ => inner) (by omega)
  refine ⟨ending, by rw [ran]; exact ran', ?_⟩
  rw [rest]
  exact finds.append empty

end

end TinyKernel.Lib
