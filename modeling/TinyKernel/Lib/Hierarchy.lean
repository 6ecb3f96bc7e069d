import Mathlib.Tactic.Common

/-! Trees in which every value stands in a relation to the value above it. The relation is kept by a
change of all values from the top down, and by an edit of one subtree. -/

namespace TinyKernel.Lib

open List

inductive Rose (α : Type) where
  | node (value : α) (children : List (Rose α))

namespace Rose

variable {α ε : Type}

def value : Rose α → α
  | node value _ => value

/-- Induction with the statement for all children. -/
@[elab_as_elim]
theorem induction {P : Rose α → Prop}
    (node : ∀ value children, (∀ child ∈ children, P child) → P (.node value children))
    (tree : Rose α) : P tree :=
  @Rose.rec α P (fun trees => ∀ child ∈ trees, P child) node (by simp)
    (fun _ _ first rest => forall_mem_cons.mpr ⟨first, rest⟩) tree

mutual

/-- Change every value, given the changed value above it. -/
def mapDown (change : α → α → α) (above : α) : Rose α → Rose α
  | node value children =>
    node (change above value) (mapDownAll change (change above value) children)

def mapDownAll (change : α → α → α) (above : α) : List (Rose α) → List (Rose α)
  | [] => []
  | tree :: rest => mapDown change above tree :: mapDownAll change above rest

end

theorem mapDownAll_eq_map (change : α → α → α) (above : α) (trees : List (Rose α)) :
    mapDownAll change above trees = trees.map (mapDown change above) := by
  induction trees with
  | nil => rfl
  | cons tree rest ih => rw [mapDownAll, ih, map_cons]

/-- Edit the subtree at a path; the edit also sees the value above. -/
def editAt (edit : Option α → Rose α → Except ε (Rose α)) (missing : ε) :
    Option α → List Nat → Rose α → Except ε (Rose α)
  | above, [], tree => edit above tree
  | _, place :: rest, node value children =>
    match children[place]? with
    | none => .error missing
    | some child =>
      match editAt edit missing (some value) rest child with
      | .error fault => .error fault
      | .ok child => .ok (node value (children.set place child))

/-- Each value is related to the one above it. -/
inductive Chained (R : Option α → α → Prop) : Option α → Rose α → Prop
  | node {above : Option α} {value : α} {children : List (Rose α)} : R above value →
      (∀ child ∈ children, Chained R (some value) child) → Chained R above (.node value children)

/-- The neighbours in a tree. -/
inductive Edge : Rose α → α → α → Prop
  | top {value : α} {children : List (Rose α)} {child : Rose α} : child ∈ children →
      Edge (.node value children) value child.value
  | deeper {value upper lower : α} {children : List (Rose α)} {child : Rose α} : child ∈ children →
      Edge child upper lower → Edge (.node value children) upper lower

variable {tree tree' : Rose α}

namespace Chained

variable {R : Option α → α → Prop} {above : Option α}

theorem related (chained : Chained R above tree) : R above tree.value := by
  cases chained with
  | node related _ => exact related

theorem edge (chained : Chained R above tree) (edge : Edge tree upper lower) :
    R (some upper) lower := by
  induction edge generalizing above with
  | top mem =>
    cases chained with
    | node _ below => exact (below _ mem).related
  | deeper mem _ ih => ?_
  cases chained with
  | node _ below => exact ih (below _ mem)

/-- A change from the top down, with what is known of a value and its change. -/
theorem mapDown {change : α → α → α} {Changed : α → α → Prop}
    (step : ∀ above above' value, Changed above above' → R (some above) value →
      Changed value (change above' value) ∧ R (some above') (change above' value)) {above : α}
    (changed : Changed above above') (chained : Chained R (some above) tree) :
    Chained R (some above') (tree.mapDown change above') := by
  induction tree using Rose.induction generalizing above above' with
  | node value children ih =>
    cases chained with
    | node related below =>
      obtain ⟨changed', related'⟩ := step above above' value changed related
      rw [Rose.mapDown, mapDownAll_eq_map]
      refine .node related' fun child mem => ?_
      obtain ⟨old, present, rfl⟩ := mem_map.mp mem
      exact ih old present changed' (below old present)

theorem editAt {gone : ε}
    (step : ∀ above tree tree', Chained R above tree → edit above tree = .ok tree' →
      Chained R above tree') (chained : Chained R above tree)
    (edited : Rose.editAt edit gone above path tree = .ok tree') : Chained R above tree' := by
  induction path generalizing above tree tree' with
  | nil => exact step above tree tree' chained edited
  | cons place rest ih => ?_
  cases chained with
  | @node _ value children related below =>
    rw [Rose.editAt] at edited
    cases found : children[place]? with
    | none =>
      rw [found] at edited
      cases edited
    | some child => ?_
    simp only [found] at edited
    generalize out : Rose.editAt edit gone (some value) rest child = after at edited
    cases after with
    | error fault => cases edited
    | ok child' => ?_
    cases edited
    refine .node related fun other mem => ?_
    rcases mem_or_eq_of_mem_set mem with old | rfl
    · exact below other old
    exact ih (below child (mem_of_getElem? found)) out

theorem mono (weaker : ∀ above value, R above value → R' above value)
    (chained : Chained R above tree) : Chained R' above tree := by
  induction chained with
  | node related _ ih => exact .node (weaker _ _ related) ih

theorem node_iff {value : α} {children : List (Rose α)} :
    Chained R above (.node value children) ↔
      R above value ∧ ∀ child ∈ children, Chained R (some value) child := by
  constructor
  · rintro ⟨related, below⟩
    exact ⟨related, below⟩
  exact fun both => .node both.1 both.2

end Chained

mutual

/-- The values of a tree, each before those below it. -/
def preorder : Rose α → List α
  | node value children => value :: preorders children

def preorders : List (Rose α) → List α
  | [] => []
  | tree :: rest => preorder tree ++ preorders rest

end

theorem mem_preorders {value : α} :
    value ∈ preorders trees ↔ ∃ tree ∈ trees, value ∈ tree.preorder := by
  induction trees with
  | nil => simp [preorders]
  | cons tree rest ih => simp [preorders, ih]

section

variable {σ β : Type}

mutual

/-- Change the values in preorder, as long as the step goes through; else the rest stays as it
is. -/
def visitDown (step : α → σ → α → Option (α × σ)) (above : α) (state : σ) :
    Rose α → Rose α × Option σ
  | node value children =>
    match step above state value with
    | none => (node value children, none)
    | some (value, state) =>
      let (children, left) := visitDownAll step value state children
      (node value children, left)

def visitDownAll (step : α → σ → α → Option (α × σ)) (above : α) (state : σ) :
    List (Rose α) → List (Rose α) × Option σ
  | [] => ([], some state)
  | tree :: rest =>
    match visitDown step above state tree with
    | (tree, none) => (tree :: rest, none)
    | (tree, some state) =>
      let (rest, left) := visitDownAll step above state rest
      (tree :: rest, left)

end

mutual

/-- Two trees of one shape, with values that are related. -/
def Pointwise (R : α → α → Prop) : Rose α → Rose α → Prop
  | node value children, node value' children' => R value value' ∧ PointwiseAll R children children'

def PointwiseAll (R : α → α → Prop) : List (Rose α) → List (Rose α) → Prop
  | [], [] => True
  | tree :: rest, tree' :: rest' => Pointwise R tree tree' ∧ PointwiseAll R rest rest'
  | _, _ => False

end

section

variable {step : α → σ → α → Option (α × σ)}

variable {change : α → α → α} {trees : List (Rose α)} {state state' : σ}

theorem visitDownAll_eq_map_of
    (each : ∀ tree ∈ trees, ∀ state tree' state',
      visitDown step above state tree = (tree', some state') → tree' = tree.mapDown change above)
    (done : (visitDownAll step above state trees).2 = some state') :
    (visitDownAll step above state trees).1 = trees.map (mapDown change above) := by
  induction trees generalizing state with
  | nil => rfl
  | cons tree rest ih => ?_
  rw [visitDownAll] at done ⊢
  cases here : visitDown step above state tree with
  | mk tree' after =>
    rw [here] at done
    cases after with
    | none => cases done
    | some after => ?_
    rw [map_cons, ← each tree (.head _) state tree' after here,
      ← ih (fun other mem => each other (.tail _ mem)) done]

section

variable
    (one : ∀ above state value value' state', step above state value = some (value', state') →
      value' = change above value)
    {above : α}
include one

/-- A walk that gets to its end has changed every value. -/
theorem visitDown_eq_mapDown (done : visitDown step above state tree = (tree', some state')) :
    tree' = tree.mapDown change above := by
  induction tree using Rose.induction generalizing above state tree' state' with
  | node value children ih =>
    rw [visitDown] at done
    cases first : step above state value with
    | none =>
      rw [first] at done
      cases done
    | some next => ?_
    obtain ⟨value', between⟩ := next
    rw [first] at done
    simp only [Prod.mk.injEq] at done
    obtain ⟨rfl, left⟩ := done
    obtain rfl := one above state value value' between first
    rw [mapDown, mapDownAll_eq_map, visitDownAll_eq_map_of _ left]
    exact fun child mem state tree' state' => ih child mem

theorem visitDownAll_eq_map (done : (visitDownAll step above state trees).2 = some state') :
    (visitDownAll step above state trees).1 = trees.map (mapDown change above) :=
  visitDownAll_eq_map_of (fun _ _ _ _ _ => visitDown_eq_mapDown one) done

end

theorem visitDownAll_ne_none_of
    (each : ∀ tree ∈ trees, ∀ state, (visitDown step above state tree).2 ≠ none) (state : σ) :
    (visitDownAll step above state trees).2 ≠ none := by
  induction trees generalizing state with
  | nil => simp [visitDownAll]
  | cons tree rest ih => ?_
  rw [visitDownAll]
  have here := each tree (.head _) state
  cases out : visitDown step above state tree with
  | mk tree' after =>
    rw [out] at here
    cases after with
    | none => exact absurd rfl here
    | some after => exact ih (fun other mem => each other (.tail _ mem)) after

theorem visitDown_ne_none (one : ∀ above state value, step above state value ≠ none) (tree : Rose α)
    (above : α) (state : σ) : (visitDown step above state tree).2 ≠ none := by
  induction tree using Rose.induction generalizing above state with
  | node value children ih =>
    rw [visitDown]
    cases first : step above state value with
    | none => exact absurd first (one above state value)
    | some next => exact visitDownAll_ne_none_of (fun child mem => ih child mem next.1) next.2

theorem visitDownAll_ne_none (one : ∀ above state value, step above state value ≠ none)
    (trees : List (Rose α)) (above : α) (state : σ) :
    (visitDownAll step above state trees).2 ≠ none :=
  visitDownAll_ne_none_of (fun tree _ => visitDown_ne_none one tree above) state

end

variable {R : α → α → Prop} (same : ∀ value, R value value)
include same

theorem pointwise_refl (tree : Rose α) : Pointwise R tree tree := by
  induction tree using Rose.induction with
  | node value children ih =>
    refine ⟨same value, ?_⟩
    induction children with
    | nil => trivial
    | cons tree rest below =>
      exact ⟨ih tree (.head _), below fun other mem => ih other (.tail _ mem)⟩

theorem pointwiseAll_refl (trees : List (Rose α)) : PointwiseAll R trees trees := by
  induction trees with
  | nil => trivial
  | cons tree rest ih => exact ⟨pointwise_refl same tree, ih⟩

theorem pointwiseAll_set (found : trees[place]? = some tree) :
    PointwiseAll R trees (trees.set place tree') ↔ Pointwise R tree tree' := by
  induction trees generalizing place with
  | nil => cases found
  | cons first rest ih => ?_
  cases place with
  | zero =>
    cases found
    exact ⟨fun both => both.1, fun one => ⟨one, pointwiseAll_refl same rest⟩⟩
  | succ place => ?_
  have here := ih (getElem?_cons_succ.symm.trans found)
  exact ⟨fun both => here.mp both.2, fun one => ⟨pointwise_refl same first, here.mpr one⟩⟩

end

section

variable {β : Type}

/-- Change the subtree at a path, with a result; the change also sees the value above. -/
def updateAt (edit : Option α → Rose α → Rose α × β) (missing : β) :
    Option α → List Nat → Rose α → Rose α × β
  | above, [], tree => edit above tree
  | _, place :: rest, node value children =>
    match children[place]? with
    | none => (node value children, missing)
    | some child =>
      let (child, result) := updateAt edit missing (some value) rest child
      (node value (children.set place child), result)

/-- The subtree at a path, and the value above it. -/
def locate : Option α → List Nat → Rose α → Option (Option α × Rose α)
  | above, [], tree => some (above, tree)
  | _, place :: rest, node value children =>
    match children[place]? with
    | none => none
    | some child => locate (some value) rest child

variable {edit : Option α → Rose α → Rose α × β} {gone : β} {above here : Option α}
    {tree subtree : Rose α}
  {path : List Nat}

theorem updateAt_missing (lost : locate above path tree = none) :
    updateAt edit gone above path tree = (tree, gone) := by
  induction path generalizing above tree with
  | nil => cases lost
  | cons place rest ih => ?_
  obtain ⟨value, children⟩ := tree
  rw [locate] at lost
  rw [updateAt]
  cases found : children[place]? with
  | none => rfl
  | some child => ?_
  rw [found] at lost
  simp only
  rw [ih lost]
  obtain ⟨bound, rfl⟩ := List.getElem?_eq_some_iff.mp found
  rw [List.set_getElem_self]

theorem updateAt_result (found : locate above path tree = some (here, subtree)) :
    (updateAt edit gone above path tree).2 = (edit here subtree).2 := by
  induction path generalizing above tree with
  | nil =>
    cases found
    rfl
  | cons place rest ih => ?_
  obtain ⟨value, children⟩ := tree
  rw [locate] at found
  rw [updateAt]
  cases child_eq : children[place]? with
  | none =>
    rw [child_eq] at found
    cases found
  | some child => ?_
  rw [child_eq] at found
  exact ih found

/-- The changed tree is chained when the changed subtree is. -/
theorem updateAt_chained {R : Option α → α → Prop} (chained : Chained R above tree)
    (found : locate above path tree = some (here, subtree)) :
    Chained R above (updateAt edit gone above path tree).1 ↔
      Chained R here (edit here subtree).1 := by
  induction path generalizing above tree with
  | nil =>
    cases found
    rfl
  | cons place rest ih => ?_
  obtain ⟨value, children⟩ := tree
  rw [locate] at found
  rw [updateAt]
  cases child_eq : children[place]? with
  | none =>
    rw [child_eq] at found
    cases found
  | some child => ?_
  rw [child_eq] at found
  obtain ⟨related, below⟩ := Chained.node_iff.mp chained
  have inside := mem_of_getElem? child_eq
  rw [← ih (below child inside) found]
  constructor
  · rintro ⟨-, all⟩
    obtain ⟨bound, -⟩ := List.getElem?_eq_some_iff.mp child_eq
    exact all _ (List.mem_set bound _)
  intro changed
  refine ⟨related, fun other mem => ?_⟩
  rcases mem_or_eq_of_mem_set mem with old | rfl
  · exact below other old
  exact changed

theorem updateAt_pointwise (same : ∀ value, R value value)
    (found : locate above path tree = some (here, subtree)) :
    Pointwise R tree (updateAt edit gone above path tree).1 ↔
      Pointwise R subtree (edit here subtree).1 := by
  induction path generalizing above tree with
  | nil =>
    cases found
    rfl
  | cons place rest ih => ?_
  obtain ⟨value, children⟩ := tree
  rw [locate] at found
  rw [updateAt]
  cases child_eq : children[place]? with
  | none =>
    rw [child_eq] at found
    cases found
  | some child => ?_
  rw [child_eq] at found
  rw [← ih found]
  exact ⟨fun both => (pointwiseAll_set same child_eq).mp both.2,
    fun one => ⟨same value, (pointwiseAll_set same child_eq).mpr one⟩⟩

/-- The same change as an edit that may fail. -/
theorem updateAt_editAt {change : Option α → Rose α → Except ε (Rose α)} (bad : gone ≠ good)
    (agree : ∀ above tree, (edit above tree).2 = good → change above tree = .ok (edit above tree).1)
    (done : (updateAt edit gone above path tree).2 = good) :
    editAt change fault above path tree = .ok (updateAt edit gone above path tree).1 := by
  induction path generalizing above tree with
  | nil => exact agree above tree done
  | cons place rest ih => ?_
  obtain ⟨value, children⟩ := tree
  rw [updateAt] at done ⊢
  rw [editAt]
  cases found : children[place]? with
  | none =>
    rw [found] at done
    exact absurd done bad
  | some child => ?_
  rw [found] at done
  simp only [ih done]

theorem locate_chained {R : Option α → α → Prop} (chained : Chained R above tree)
    (found : locate above path tree = some (here, subtree)) : Chained R here subtree := by
  induction path generalizing above tree with
  | nil =>
    cases found
    exact chained
  | cons place rest ih => ?_
  obtain ⟨value, children⟩ := tree
  rw [locate] at found
  cases child_eq : children[place]? with
  | none =>
    rw [child_eq] at found
    cases found
  | some child => ?_
  rw [child_eq] at found
  exact ih ((Chained.node_iff.mp chained).2 child (mem_of_getElem? child_eq)) found

end

end Rose

end TinyKernel.Lib
