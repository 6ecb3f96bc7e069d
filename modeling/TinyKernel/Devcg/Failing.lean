import Mathlib.Algebra.GroupWithZero.Nat
import Mathlib.Algebra.NeZero
import TinyKernel.Devcg.Narrow

/-! Writes that fail, also for want of memory. `memory` is the number of allocations that
succeed. -/

namespace TinyKernel.Devcg

open Lib List Rose

/-- What a failed call returns. -/
inductive Failure where
  | refused (errno : Errno)
  | enomem
  deriving DecidableEq

/-- The body of the loop of `propagate_exception`. Only `dev_exception_add` allocates; none is
`-ENOMEM`. -/
def propagateStep (root : Behavior) (ex : ExceptionItem) (parent : DevCgroup) (memory : Nat)
    (devcg : DevCgroup) : Option (DevCgroup × Nat) :=
  if root = .allow ∧ devcg.behavior = .allow then
    match memory with
    | 0 => none
    | memory + 1 => some (propagateTo root ex parent devcg, memory)
  else some (propagateTo root ex parent devcg, memory)

/-- `propagate_exception`. -/
def propagateFailing (memory : Nat) (devcg : DevCgroup) (ex : ExceptionItem)
    (children : List (Rose DevCgroup)) : Rose DevCgroup × Option Failure :=
  let (children, left) := visitDownAll (propagateStep devcg.behavior ex) devcg memory children
  (.node devcg children, if left.isNone then some .enomem else none)

/-- The rule `a` of `devcgroup_update_access`. -/
def updateAllFailing (memory : Nat) (parent : Option DevCgroup) (devcgroup : DevCgroup)
    (children : List (Rose DevCgroup)) : FileType → Rose DevCgroup × Option Failure
  | .allow =>
    if cssHasOnlineChildren children then (.node devcgroup children, some (.refused .einval))
    else if mayAllowAll parent then
      let devcgroup := { devExceptionClean devcgroup with behavior := .allow }
      match parent with
      | none => (.node devcgroup children, none)
      | some parent =>
        -- a failed copy frees the exceptions that were copied
        if parent.exceptions.length ≤ memory then
          (.node { devcgroup with exceptions := devcgroup.exceptions ++ parent.exceptions }
              children, none)
        else (.node devcgroup children, some .enomem)
    else (.node devcgroup children, some (.refused .eperm))
  | .deny =>
    if cssHasOnlineChildren children then (.node devcgroup children, some (.refused .einval))
    else (.node { devExceptionClean devcgroup with behavior := .deny } children, none)
  | .list => (.node devcgroup children, some (.refused .einval))

/-- The rules `b` and `c`. -/
def updateExceptionFailing (memory : Nat) (parent : Option DevCgroup) (devcgroup : DevCgroup)
    (children : List (Rose DevCgroup)) (ex : ExceptionItem) :
    FileType → Rose DevCgroup × Option Failure
  | .allow =>
    if devcgroup.behavior = .allow then
      if parentAllowsRemoval parent devcgroup ex then
        (.node (devExceptionRm devcgroup ex) children, none)
      else (.node devcgroup children, some (.refused .eperm))
    else if parentHasPerm parent devcgroup ex then
      if memory = 0 then (.node devcgroup children, some .enomem)
      else (.node (devExceptionAdd devcgroup ex) children, none)
    else (.node devcgroup children, some (.refused .eperm))
  | .deny =>
    if devcgroup.behavior = .deny then propagateFailing memory (devExceptionRm devcgroup ex) ex
      children
    else match memory with
      | 0 => (.node devcgroup children, some .enomem)
      | memory + 1 => propagateFailing memory (devExceptionAdd devcgroup ex) ex children
  | .list => (.node devcgroup children, some (.refused .einval))

/-- `devcgroup_update_access`, on the cgroup at the top of a tree: the tree after it, and the
error. -/
def updateAccessFailing (memory : Nat) (capable : Bool) (filetype : FileType) (buffer : List Char)
    (parent : Option DevCgroup) : Rose DevCgroup → Rose DevCgroup × Option Failure
  | .node devcgroup children =>
    if capable then
      match readRule buffer with
      | .error errno => (.node devcgroup children, some (.refused errno))
      | .ok .all => updateAllFailing memory parent devcgroup children filetype
      | .ok (.exception ex) => updateExceptionFailing memory parent devcgroup children ex filetype
    else (.node devcgroup children, some (.refused .eperm))

/-- A write to a file of the cgroup that a path leads to. -/
def writeFailing (memory : Nat) (path : List Nat) (capable : Bool) (filetype : FileType)
    (buffer : List Char) (tree : Rose DevCgroup) : Rose DevCgroup × Option Failure :=
  tree.updateAt (updateAccessFailing memory capable filetype buffer) (some (.refused .enoent)) none
    path

/-- A write that does not fail is one with all the memory it needs. -/
theorem writeFailing_done
    (done : (writeFailing memory path capable filetype buffer tree).2 = none) :
    step tree (.write path capable filetype buffer) =
      .ok (writeFailing memory path capable filetype buffer tree).1 := by
  have propagated {memory : Nat} {devcg : DevCgroup} {ex : ExceptionItem}
      {children : List (Rose DevCgroup)}
      (done : (propagateFailing memory devcg ex children).2 = none) :
      propagateException devcg ex children = (propagateFailing memory devcg ex children).1 := by
    have one (above : DevCgroup) (state : Nat) (value value' : DevCgroup) (state' : Nat)
        (next : propagateStep devcg.behavior ex above state value = some (value', state')) :
        value' = propagateTo devcg.behavior ex above value := by
      simp only [propagateStep] at next
      split at next
      · cases state with
        | zero => cases next
        | succ state => ?_
        cases next
        rfl
      cases next
      rfl
    simp only [propagateFailing] at done ⊢
    cases left : (visitDownAll (propagateStep devcg.behavior ex) devcg memory children).2 with
    | none => simp [left] at done
    | some left => rw [visitDownAll_eq_map one left, propagateException]
  refine updateAt_editAt (by simp) (fun above tree done => ?_) done
  obtain ⟨devcg, children⟩ := tree
  rw [updateAccessFailing] at done ⊢
  rw [devcgroupUpdateAccess]
  cases capable with
  | false => cases done
  | true => ?_
  simp only [if_true] at done ⊢
  cases rule : readRule buffer with
  | error errno =>
    rw [rule] at done
    cases done
  | ok rule' => ?_
  rw [rule] at done
  cases rule' with
  | all =>
    change updateAll above devcg children filetype = _
    cases filetype with
    | list => cases done
    | deny =>
      simp only [updateAllFailing] at done ⊢
      rw [updateAll]
      split at done
      · cases done
      · next none => rw [if_neg none, if_neg none]
    | allow => ?_
    simp only [updateAllFailing] at done ⊢
    rw [updateAll]
    split at done
    · cases done
    rename_i none
    rw [if_neg none, if_neg none]
    split at done
    · next may =>
      rw [if_pos may, if_pos may]
      cases above with
      | none => rfl
      | some parent => ?_
      simp only at done ⊢
      split at done
      · next enough => rw [if_pos enough]
      cases done
    cases done
  | exception ex => ?_
  change updateException above devcg children ex filetype = _
  cases filetype with
  | list => cases done
  | deny =>
    simp only [updateExceptionFailing] at done ⊢
    rw [updateException]
    by_cases deny : devcg.behavior = .deny
    · rw [if_pos deny] at done ⊢
      simp only [if_pos deny]
      rw [propagated done]
    rw [if_neg deny] at done ⊢
    simp only [if_neg deny]
    cases memory with
    | zero => cases done
    | succ memory => rw [propagated done]
  | allow => ?_
  simp only [updateExceptionFailing] at done ⊢
  rw [updateException]
  split at done
  · next allow =>
    rw [if_pos allow, if_pos allow]
    split at done
    · next removable => rw [if_pos removable, if_pos removable]
    cases done
  rename_i deny
  rw [if_neg deny, if_neg deny]
  split at done
  · next verified =>
    rw [if_pos verified, if_pos verified]
    split at done
    · cases done
    · next enough => rw [if_neg enough]
  cases done

/-- Three cgroups below each other that allow all devices, and one aside that denies all. -/
def family : Rose DevCgroup :=
  .node ⟨[], .allow⟩ [.node ⟨[], .allow⟩ [.node ⟨[], .allow⟩ []], .node ⟨[], .deny⟩ []]

/-- A rule denied at the root takes an allocation in each of the three. -/
theorem writeFailing_done_family :
    let rule : ExceptionItem := ⟨1, 3, .char, {.read}⟩
    let after : Rose DevCgroup := .node ⟨[rule], .allow⟩
      [.node ⟨[rule], .allow⟩ [.node ⟨[rule], .allow⟩ []], .node ⟨[], .deny⟩ []]
    writeFailing 3 [] true .deny "c 1:3 r".toList family = (after, none) ∧
      (writeFailing 2 [] true .deny "c 1:3 r".toList family).2 ≠ none ∧
      step family (.write [] true .deny "c 1:3 r".toList) = .ok after :=
  ⟨rfl, nofun, writeFailing_done
    (show (writeFailing 3 [] true .deny "c 1:3 r".toList family).2 = none from rfl)⟩

section

variable {devcg parent : DevCgroup} {tree : Rose DevCgroup}

/-- A cgroup allows no access that the one above it denies. -/
def Bounded (above : Option DevCgroup) (devcg : DevCgroup) : Prop :=
  ∀ parent, above = some parent → ∀ type major minor a, Allows devcg type major minor a →
    Allows parent type major minor a

/-- No access is allowed that was not allowed before. -/
def Fewer (before after : DevCgroup) : Prop :=
  ∀ type major minor a, Allows after type major minor a → Allows before type major minor a

/-- Nothing of an exception is allowed. -/
def Excludes (ex : ExceptionItem) (devcg : DevCgroup) : Prop :=
  ∀ type major minor a, ex.Touches type major minor → a ∈ ex.access →
    ¬Allows devcg type major minor a

/-- What holds of a cgroup besides the rule: it is online, its exceptions are about different
devices, and it allows by default only below one that does, as the comment in `verify_new_ex`
says. -/
structure Formed (above : Option DevCgroup) (devcg : DevCgroup) : Prop where
  online : devcg.behavior ≠ .none
  distinct : (devcg.exceptions.map ExceptionItem.key).Nodup
  behavior : ∀ parent, above = some parent → devcg.behavior = .allow → parent.behavior = .allow

theorem Placed.bounded {above : Option DevCgroup} (placed : Placed above devcg) :
    Bounded above devcg :=
  fun parent same _ _ _ _ allowed => (placed.narrower parent same).allows allowed

theorem Placed.formed {above : Option DevCgroup} (placed : Placed above devcg) :
    Formed above devcg :=
  ⟨placed.online, placed.distinct, fun parent same => (placed.narrower parent same).behavior⟩

theorem chained_placed
    (distinct : ∀ parent, above = some parent → (parent.exceptions.map ExceptionItem.key).Nodup)
    (formed : Chained Formed above tree) (bounded : Chained Bounded above tree) :
    Chained Placed above tree := by
  induction tree using induction generalizing above with
  | node value children ih =>
    obtain ⟨here, below⟩ := Chained.node_iff.mp formed
    obtain ⟨here', below'⟩ := Chained.node_iff.mp bounded
    refine .node ⟨here.online, here.distinct, distinct, fun parent same => ?_⟩ fun child mem => ?_
    · exact ⟨here.behavior parent same,
        fun type major minor a _ => here' parent same type major minor a⟩
    refine ih child mem ?_ (below child mem) (below' child mem)
    rintro _ ⟨⟩
    exact here.distinct

theorem allows_add (allow : parent.behavior = .allow) :
    Allows (devExceptionAdd parent ex) type major minor a ↔
      Allows parent type major minor a ∧ ¬(ex.Touches type major minor ∧ a ∈ ex.access) := by
  have allow' : (devExceptionAdd parent ex).behavior = .allow := by simpa using allow
  rw [allows_of_allow allow', matchExceptionPartial_add, not_or, allows_of_allow allow]

/-- A cgroup below one with a new restriction follows the rule as it is, if it had the restriction
already. -/
theorem bounded_add (allow : parent.behavior = .allow) (before : Bounded (some parent) devcg) :
    Bounded (some (devExceptionAdd parent ex)) devcg ↔ Excludes ex devcg := by
  constructor
  · intro bounded type major minor a touches bit allowed
    exact ((allows_add allow).mp (bounded _ rfl type major minor a allowed)).2 ⟨touches, bit⟩
  rintro excludes _ ⟨⟩ type major minor a allowed
  refine (allows_add allow).mpr ⟨before parent rfl type major minor a allowed, fun both => ?_⟩
  exact excludes type major minor a both.1 both.2 allowed

theorem Excludes.below (excludes : Excludes ex above)
    (chained : Chained Bounded (some above) tree) : ∀ devcg ∈ tree.preorder, Excludes ex devcg := by
  induction tree using induction generalizing above with
  | node value children ih =>
    obtain ⟨bounded, below⟩ := Chained.node_iff.mp chained
    have here : Excludes ex value := fun type major minor a touches bit allowed =>
      excludes type major minor a touches bit (bounded above rfl type major minor a allowed)
    intro devcg mem
    rcases mem_cons.mp mem with rfl | later
    · exact here
    obtain ⟨child, present, inside⟩ := mem_preorders.mp later
    exact ih child present here (below child present) devcg inside

theorem chained_add (ex : ExceptionItem) (allow : parent.behavior = .allow)
    (chained : Chained Bounded (some parent) tree) :
    Chained Bounded (some (devExceptionAdd parent ex)) tree ↔
      ∀ devcg ∈ tree.preorder, Excludes ex devcg := by
  obtain ⟨value, children⟩ := tree
  obtain ⟨bounded, below⟩ := Chained.node_iff.mp chained
  rw [Chained.node_iff, bounded_add allow bounded]
  constructor
  · rintro ⟨excludes, -⟩ devcg mem
    rcases mem_cons.mp mem with rfl | later
    · exact excludes
    obtain ⟨child, present, inside⟩ := mem_preorders.mp later
    exact excludes.below (below child present) devcg inside
  intro all
  refine ⟨all value ?_, below⟩
  exact .head _

/-- Only below cgroups that allow by default is there one that does. -/
theorem allow_above (chained : Chained Placed (some parent) tree) (mem : devcg ∈ tree.preorder)
    (allow : devcg.behavior = .allow) : parent.behavior = .allow := by
  induction tree using induction generalizing parent with
  | node value children ih =>
    obtain ⟨placed, below⟩ := Chained.node_iff.mp chained
    refine (placed.narrower parent rfl).behavior ?_
    rcases mem_cons.mp mem with rfl | later
    · exact allow
    obtain ⟨child, present, inside⟩ := mem_preorders.mp later
    exact ih child present (below child present) inside

theorem Changed.fewer {root : Behavior} (changed : Changed root ex parent parent')
    (placed : Placed (some parent) child) : Fewer child (propagateTo root ex parent' child) := by
  intro type major minor a allowed
  by_cases allow : child.behavior = .allow
  · obtain ⟨-, added⟩ := (changed.below placed).1.added allow
    rw [added] at allowed
    exact ((allows_add allow).mp allowed).1
  have online : isDevcgOnline child = true := by simpa [isDevcgOnline] using placed.online
  rw [propagateTo, if_pos online] at allowed
  simp only [if_neg fun both : root = .allow ∧ _ => allow both.2] at allowed
  rw [revalidate_eq _ (placed.distinct.sublist (keys_rm _ ex))] at allowed
  have other (exceptions : List ExceptionItem) :
      (⟨exceptions, (devExceptionRm child ex).behavior⟩ : DevCgroup).behavior ≠ .allow := allow
  obtain ⟨left, present, both⟩ := matchException_single.mp ((allows_of_deny (other _)).mp allowed)
  rw [allows_of_deny allow, matchException_single]
  exact bit_of_rm covers_of_key ⟨left, (mem_filter.mp present).1, both⟩

theorem Fewer.refl (devcg : DevCgroup) : Fewer devcg devcg := fun _ _ _ _ allowed => allowed

end

/-- The cgroups that `propagate_exception` does not reach: those from the one on for which there is
no memory. -/
def unreached : Nat → List DevCgroup → List DevCgroup
  | _, [] => []
  | memory, devcg :: rest =>
    if devcg.behavior = .allow then
      match memory with
      | 0 => devcg :: rest
      | memory + 1 => unreached memory rest
    else unreached memory rest

/-- The memory that is left after some cgroups, if it is enough for them. -/
def remaining : Nat → List DevCgroup → Option Nat
  | memory, [] => some memory
  | memory, devcg :: rest =>
    if devcg.behavior = .allow then
      match memory with
      | 0 => none
      | memory + 1 => remaining memory rest
    else remaining memory rest

theorem remaining_append (memory : Nat) (devcgs more : List DevCgroup) :
    remaining memory (devcgs ++ more) = (remaining memory devcgs).bind (remaining · more) := by
  induction devcgs generalizing memory with
  | nil => simp [remaining]
  | cons devcg rest ih => ?_
  simp only [cons_append, remaining]
  split
  · cases memory with
    | zero => rfl
    | succ memory => exact ih memory
  exact ih memory

theorem unreached_append (memory : Nat) (devcgs more : List DevCgroup) :
    unreached memory (devcgs ++ more) =
      match remaining memory devcgs with
      | none => unreached memory devcgs ++ more
      | some left => unreached left more := by
  induction devcgs generalizing memory with
  | nil => simp [remaining]
  | cons devcg rest ih => ?_
  simp only [cons_append, unreached, remaining]
  split
  · cases memory with
    | zero => rfl
    | succ memory => exact ih memory
  exact ih memory

theorem unreached_done (enough : remaining memory devcgs = some left) :
    unreached memory devcgs = [] := by
  have whole := unreached_append memory devcgs []
  rw [append_nil, enough] at whole
  rw [whole]
  cases left <;> rfl

theorem allow_of_remaining (fail : remaining memory devcgs = none) :
    ∃ devcg ∈ devcgs, devcg.behavior = .allow := by
  induction devcgs generalizing memory with
  | nil => cases fail
  | cons devcg rest ih => ?_
  by_cases allow : devcg.behavior = .allow
  · exact ⟨devcg, .head _, allow⟩
  simp only [remaining, if_neg allow] at fail
  obtain ⟨other, mem, allow'⟩ := ih fail
  exact ⟨other, .tail _ mem, allow'⟩

/-- What `propagate_exception` does to a subtree, with enough memory or not. -/
structure Propagated (ex : ExceptionItem) (parent' : DevCgroup) (memory : Nat)
    (before : Rose DevCgroup) (after : Rose DevCgroup × Option Nat) : Prop where
  left : after.2 = remaining memory before.preorder
  fewer : Pointwise Fewer before after.1
  bounded : Chained Bounded (some parent') after.1 ↔
    ∀ devcg ∈ unreached memory before.preorder, Excludes ex devcg

structure PropagatedAll (ex : ExceptionItem) (parent' : DevCgroup) (memory : Nat)
    (before : List (Rose DevCgroup)) (after : List (Rose DevCgroup) × Option Nat) : Prop where
  left : after.2 = remaining memory (preorders before)
  fewer : PointwiseAll Fewer before after.1
  bounded : (∀ child ∈ after.1, Chained Bounded (some parent') child) ↔
    ∀ devcg ∈ unreached memory (preorders before), Excludes ex devcg

theorem propagatedAll_of (changed : Changed .allow ex parent parent')
    {children : List (Rose DevCgroup)}
    (each : ∀ child ∈ children, ∀ memory,
      Propagated ex parent' memory child (child.visitDown (propagateStep .allow ex) parent' memory))
    (below : ∀ child ∈ children, Chained Placed (some parent) child) (memory : Nat) :
    PropagatedAll ex parent' memory children
      (visitDownAll (propagateStep .allow ex) parent' memory children) := by
  induction children generalizing memory with
  | nil => exact ⟨rfl, trivial, by simp [visitDownAll, preorders, unreached]⟩
  | cons child rest ih => ?_
  have first := each child (.head _) memory
  have chained := below child (.head _)
  rw [visitDownAll]
  generalize child.visitDown (propagateStep .allow ex) parent' memory = out at first ⊢
  obtain ⟨child', left⟩ := out
  have same : left = remaining memory child.preorder := first.left
  cases left with
  | none =>
    refine ⟨?_, ⟨first.fewer, pointwiseAll_refl Fewer.refl rest⟩, ?_⟩
    · rw [preorders, remaining_append, ← same]
      rfl
    -- the rest stays as it is, below a parent that has changed
    obtain ⟨devcg, mem, allow⟩ := allow_of_remaining same.symm
    have above := allow_above chained mem allow
    obtain ⟨-, rfl⟩ := changed.added above
    rw [preorders, unreached_append, ← same]
    simp only [forall_mem_cons, forall_mem_append]
    refine and_congr first.bounded ?_
    have one (other : Rose DevCgroup) (present : other ∈ rest) := chained_add ex above
      ((below other (.tail _ present)).mono fun _ _ => Placed.bounded)
    constructor
    · intro all devcg inside
      obtain ⟨other, present, inside'⟩ := mem_preorders.mp inside
      exact (one other present).mp (all other present) devcg inside'
    intro all other present
    exact (one other present).mpr fun devcg inside => all devcg
      (mem_preorders.mpr ⟨other, present, inside⟩)
  | some left => ?_
  have next :=
    ih (fun other mem => each other (.tail _ mem)) (fun other mem => below other (.tail _ mem)) left
  refine ⟨?_, ⟨first.fewer, next.fewer⟩, ?_⟩
  · rw [preorders, remaining_append, ← same]
    exact next.left
  rw [preorders, unreached_append, ← same]
  have here := first.bounded.mpr (by simp [unreached_done same.symm])
  simp only [forall_mem_cons]
  rw [← next.bounded]
  exact ⟨fun both => both.2, fun later => ⟨here, later⟩⟩

theorem propagated (changed : Changed .allow ex parent parent') {tree : Rose DevCgroup}
    (chained : Chained Placed (some parent) tree) (memory : Nat) :
    Propagated ex parent' memory tree
      (tree.visitDown (propagateStep .allow ex) parent' memory) := by
  induction tree using induction generalizing parent parent' memory with
  | node value children ih =>
    obtain ⟨placed, below⟩ := Chained.node_iff.mp chained
    obtain ⟨changed', placed'⟩ := changed.below placed
    have fewer := changed.fewer placed
    have later (left : Nat) :=
      propagatedAll_of changed' (fun child mem => ih child mem changed' (below child mem)) below
        left
    generalize here : propagateTo .allow ex parent' value = value' at changed' placed' fewer later
    have node (left : Nat)
      (counted :
        remaining memory (value :: preorders children) = remaining left (preorders children))
      (listed :
        unreached memory (value :: preorders children) = unreached left (preorders children)) :
        Propagated ex parent' memory (.node value children) (.node value'
            (visitDownAll (propagateStep .allow ex) value' left children).1,
          (visitDownAll (propagateStep .allow ex) value' left children).2) := by
      refine ⟨?_, ⟨fewer, (later left).fewer⟩, ?_⟩
      · rw [preorder, counted]
        exact (later left).left
      rw [preorder, listed, Chained.node_iff, ← (later left).bounded]
      exact ⟨fun both => both.2, fun all => ⟨placed'.bounded, all⟩⟩
    by_cases allow : value.behavior = .allow
    · cases memory with
      | zero =>
        have fail : propagateStep .allow ex parent' 0 value = none := by simp [propagateStep, allow]
        rw [visitDown, fail]
        have above := (placed.narrower parent rfl).behavior allow
        obtain ⟨-, rfl⟩ := changed.added above
        refine ⟨?_, pointwise_refl Fewer.refl _, ?_⟩
        · simp [preorder, remaining, allow]
        have all := chained_add ex above (chained.mono fun _ _ => Placed.bounded)
        simpa [preorder, unreached, allow] using all
      | succ left => ?_
      have added : propagateStep .allow ex parent' (left + 1) value = some (value', left) := by
        simp [propagateStep, allow, here]
      rw [visitDown, added]
      exact node left (by simp [remaining, allow]) (by simp [unreached, allow])
    have removed : propagateStep .allow ex parent' memory value = some (value', memory) := by
      simp [propagateStep, allow, here]
    rw [visitDown, removed]
    exact node memory (by simp [remaining, allow]) (by simp [unreached, allow])

section

variable {above : Option DevCgroup} {devcg : DevCgroup} {children : List (Rose DevCgroup)}

/-- When a write that fails does no harm: where the copy of the parent's exceptions fails, the
cgroup allowed all accesses before; where a new exception is not passed on, it is nothing new to the
cgroups not reached. -/
def Harmless (memory : Nat) (filetype : FileType) (above : Option DevCgroup) (devcg : DevCgroup)
    (children : List (Rose DevCgroup)) : Except Errno Rule → Prop
  | .ok .all =>
    filetype = .allow → cssHasOnlineChildren children = false → ∀ parent, above = some parent →
      parent.behavior = .allow → memory < parent.exceptions.length →
      ∀ type major minor a, Allows devcg type major minor a
  | .ok (.exception ex) => filetype = .deny → devcg.behavior = .allow → ∀ left, memory = left + 1 →
      ∀ other ∈ unreached left (preorders children), Excludes ex other
  | .error _ => True

/-- The rule holds of a subtree, and no cgroup of it allows more than before. -/
def GrantsNothing (above : Option DevCgroup) (before after : Rose DevCgroup) : Prop :=
  Chained Bounded above after ∧ Pointwise Fewer before after

theorem grantsNothing_refl (chained : Chained Placed above tree) : GrantsNothing above tree tree :=
  ⟨chained.mono fun _ _ => Placed.bounded, pointwise_refl Fewer.refl tree⟩

variable {memory : Nat} {failure : Failure}

theorem updateAllFailing_grants (chained : Chained Placed above (.node devcg children))
    (fail : (updateAllFailing memory above devcg children filetype).2 = some failure) :
    GrantsNothing above (.node devcg children)
        (updateAllFailing memory above devcg children filetype).1 ↔
      Harmless memory filetype above devcg children (.ok .all) := by
  have unchanged := grantsNothing_refl chained
  obtain ⟨placed, below⟩ := Chained.node_iff.mp chained
  cases filetype with
  | list => exact iff_of_true unchanged nofun
  | deny =>
    simp only [updateAllFailing] at fail ⊢
    split at fail
    · next some =>
      rw [if_pos some]
      exact iff_of_true unchanged nofun
    cases fail
  | allow => ?_
  simp only [updateAllFailing] at fail ⊢
  split at fail
  · next some =>
    rw [if_pos some]
    exact iff_of_true unchanged fun _ none => absurd (some.symm.trans none) (by decide)
  rename_i none
  have none' : cssHasOnlineChildren children = false := by simpa using none
  obtain rfl := no_children below none'
  split at fail
  · next may =>
    rw [if_pos may]
    cases above with
    | none => cases fail
    | some parent => ?_
    simp only at fail ⊢
    split at fail
    · cases fail
    rename_i short
    rw [if_neg short]
    have allow : parent.behavior = .allow := by simpa [mayAllowAll] using may
    have everything (type : DevType) (major minor : Nat) (a : Access) :
        Allows { devExceptionClean devcg with behavior := .allow } type major minor a := by
      rw [allows_of_allow rfl]
      simp [devExceptionClean, matchExceptionPartial]
    constructor
    · rintro ⟨-, fewer, -⟩ _ _ _ _ _ _ type major minor a
      exact fewer type major minor a (everything type major minor a)
    intro harmless
    have full := harmless rfl none' parent rfl allow (by omega)
    refine ⟨.node ?_ (by simp), fun type major minor a _ => full type major minor a, trivial⟩
    rintro _ ⟨⟩ type major minor a -
    exact placed.bounded parent rfl type major minor a (full type major minor a)
  rename_i may
  rw [if_neg may]
  refine iff_of_true unchanged fun _ _ parent same allow => absurd ?_ may
  rw [same]
  simpa [mayAllowAll] using allow

/-- Nothing is allocated below a cgroup that denies by default. -/
theorem propagateFailing_deny (deny : devcg.behavior ≠ .allow) :
    (propagateFailing memory devcg ex children).2 = none := by
  have one (above : DevCgroup) (memory : Nat) (value : DevCgroup) :
      propagateStep devcg.behavior ex above memory value ≠ none := by
    simp [propagateStep, deny]
  have done := visitDownAll_ne_none one children devcg memory
  simp [propagateFailing, if_neg done]

section

variable {filetype : FileType} (chained : Chained Placed above (.node devcg children))
include chained

theorem updateExceptionFailing_grants {ex : ExceptionItem}
    (fail : (updateExceptionFailing memory above devcg children ex filetype).2 = some failure) :
    GrantsNothing above (.node devcg children)
        (updateExceptionFailing memory above devcg children ex filetype).1 ↔
      Harmless memory filetype above devcg children (.ok (.exception ex)) := by
  have unchanged := grantsNothing_refl chained
  obtain ⟨placed, below⟩ := Chained.node_iff.mp chained
  cases filetype with
  | list => exact iff_of_true unchanged nofun
  | allow =>
    have harmless : Harmless memory .allow above devcg children (.ok (.exception ex)) := nofun
    simp only [updateExceptionFailing] at fail ⊢
    split at fail
    · next allow =>
      rw [if_pos allow]
      split at fail
      · cases fail
      rename_i kept
      rw [if_neg kept]
      exact iff_of_true unchanged harmless
    rename_i deny
    rw [if_neg deny]
    split at fail
    · next verified =>
      rw [if_pos verified]
      split at fail
      · next short =>
        rw [if_pos short]
        exact iff_of_true unchanged harmless
      cases fail
    rename_i refused
    rw [if_neg refused]
    exact iff_of_true unchanged harmless
  | deny => ?_
  simp only [updateExceptionFailing] at fail ⊢
  by_cases deny : devcg.behavior = .deny
  · rw [if_pos deny] at fail
    have other : (devExceptionRm devcg ex).behavior ≠ .allow := by
      rw [behavior_rm, deny]
      decide
    rw [propagateFailing_deny other] at fail
    cases fail
  rw [if_neg deny] at fail ⊢
  have allow : devcg.behavior = .allow := by
    have online := placed.online
    cases same : devcg.behavior <;> simp_all
  cases memory with
  | zero => exact iff_of_true unchanged fun _ _ left same => absurd same (by simp)
  | succ memory => ?_
  have allow' : (devExceptionAdd devcg ex).behavior = .allow := by simpa using allow
  have changed : Changed .allow ex devcg (devExceptionAdd devcg ex) :=
    ⟨behavior_add, fun _ => ⟨rfl, rfl⟩, keys_add ex placed.distinct⟩
  have all :=
    propagatedAll_of changed (fun child mem => propagated changed (below child mem)) below memory
  simp only [propagateFailing, allow'] at fail ⊢
  have fewer : Fewer devcg (devExceptionAdd devcg ex) :=
    fun type major minor a allowed => ((allows_add allow).mp allowed).1
  constructor
  · rintro ⟨bounded, -⟩ _ _ left same
    obtain rfl : memory = left := by omega
    exact all.bounded.mp (Chained.node_iff.mp bounded).2
  intro harmless
  refine ⟨.node ?_ (all.bounded.mpr (harmless rfl allow memory rfl)), fewer, all.fewer⟩
  intro parent same type major minor a allowed
  exact placed.bounded parent same type major minor a (fewer type major minor a allowed)

theorem updateAccessFailing_grants
    (fail : (updateAccessFailing memory capable filetype buffer above (.node devcg children)).2 =
      some failure) :
    GrantsNothing above (.node devcg children)
        (updateAccessFailing memory capable filetype buffer above (.node devcg children)).1 ↔
      (capable = true → Harmless memory filetype above devcg children (readRule buffer)) := by
  have unchanged := grantsNothing_refl chained
  rw [updateAccessFailing] at fail ⊢
  cases capable with
  | false => exact iff_of_true unchanged nofun
  | true => ?_
  simp only [if_true, forall_const] at fail ⊢
  cases rule : readRule buffer with
  | error errno => exact iff_of_true unchanged trivial
  | ok rule' => ?_
  rw [rule] at fail
  cases rule' with
  | all => exact updateAllFailing_grants chained fail
  | exception ex => exact updateExceptionFailing_grants chained fail

end

/-- In a hierarchy that follows the rule, a write that returns an error leaves the rule and grants
nothing, exactly where it does no harm. -/
theorem failed_write_grants_nothing (memory : Nat) (path : List Nat) (capable : Bool)
    (filetype : FileType) (buffer : List Char) (tree : Rose DevCgroup)
    (formed : Chained Formed none tree) (bounded : Chained Bounded none tree) (failure : Failure)
    (failed : (writeFailing memory path capable filetype buffer tree).2 = some failure) :
    (Chained Bounded none (writeFailing memory path capable filetype buffer tree).1 ∧
        Pointwise Fewer tree (writeFailing memory path capable filetype buffer tree).1) ↔
      (capable = true →
        ∀ above devcg children, tree.locate none path = some (above, .node devcg children) →
          Harmless memory filetype above devcg children (readRule buffer)) := by
  have chained := chained_placed (fun _ same => by cases same) formed bounded
  cases found : tree.locate none path with
  | none =>
    rw [writeFailing, updateAt_missing found]
    exact iff_of_true (grantsNothing_refl chained) fun _ _ _ _ => nofun
  | some here => ?_
  obtain ⟨above, devcg, children⟩ := here
  have inside := locate_chained chained found
  rw [writeFailing, updateAt_result found] at failed
  rw [writeFailing, updateAt_chained bounded found, updateAt_pointwise Fewer.refl found]
  refine (updateAccessFailing_grants inside failed).trans ?_
  constructor
  · rintro harmless able _ _ _ ⟨⟩
    exact harmless able
  exact fun all able => all able above devcg children rfl

/-- The root, and below it a cgroup that denies a device. -/
def deniedBelow : Rose DevCgroup :=
  .node ⟨[], .allow⟩ [.node ⟨[⟨1, 3, .char, {.read}⟩], .allow⟩ []]

theorem deniedBelow_reached : Reached deniedBelow := by
  have online : Reached (.node ⟨[], .allow⟩ [.node ⟨[], .allow⟩ []]) := .step (.online []) .root rfl
  exact .step (.write [0] true .deny "c 1:3 r".toList) online (by rfl)

theorem failed_write_grants_nothing_two :
    (writeFailing 1 [] true .deny "c 1:3 r".toList deniedBelow).2 = some .enomem ∧
      Chained Bounded none (writeFailing 1 [] true .deny "c 1:3 r".toList deniedBelow).1 ∧
      Pointwise Fewer deniedBelow
        (writeFailing 1 [] true .deny "c 1:3 r".toList deniedBelow).1 := by
  have chained := deniedBelow_reached.chained
  refine ⟨by rfl, (failed_write_grants_nothing 1 [] true .deny "c 1:3 r".toList deniedBelow
    (chained.mono fun _ _ => Placed.formed) (chained.mono fun _ _ => Placed.bounded) .enomem
      (by rfl)).mpr ?_⟩
  rintro - above devcg children ⟨⟩ - - left same other member
  obtain rfl : left = 0 := by omega
  -- the cgroup not reached has the exception already
  obtain rfl := mem_singleton.mp member
  intro type major minor a touches bit
  rw [allows_of_allow rfl, not_not]
  exact matchExceptionPartial_single.mpr ⟨_, mem_singleton_self _, touches, bit⟩

/-- The root denies a device, and the cgroup below it denies all. -/
def deniedAbove : Rose DevCgroup :=
  .node ⟨[⟨1, 3, .char, {.read}⟩], .allow⟩ [.node ⟨[], .deny⟩ []]

/-- The copy of the parent's exceptions fails when the cgroup allows all devices already. -/
theorem failed_copy_grants_all :
    Reached deniedAbove ∧ (writeFailing 0 [0] true .allow "a".toList deniedAbove).2 = some .enomem ∧
      ¬Chained Bounded none (writeFailing 0 [0] true .allow "a".toList deniedAbove).1 ∧
      ¬Pointwise Fewer deniedAbove (writeFailing 0 [0] true .allow "a".toList deniedAbove).1 := by
  have after : (writeFailing 0 [0] true .allow "a".toList deniedAbove).1 =
      .node ⟨[⟨1, 3, .char, {.read}⟩], .allow⟩ [.node ⟨[], .allow⟩ []] := rfl
  have denied : Reached (.node ⟨[⟨1, 3, .char, {.read}⟩], .allow⟩ []) :=
    .step (.write [] true .deny "c 1:3 r".toList) .root (by rfl)
  have online : Reached
      (.node ⟨[⟨1, 3, .char, {.read}⟩], .allow⟩ [.node ⟨[⟨1, 3, .char, {.read}⟩], .allow⟩ []]) :=
    .step (.online []) denied (by rfl)
  refine ⟨.step (.write [0] true .deny "a".toList) online (by rfl), by rfl, ?_, ?_⟩
  · intro chained
    have below := (Chained.node_iff.mp chained).2 _ (mem_singleton_self _)
    have allowed : checkPermission _ .char 1 3 {.read} = true :=
      below.related _ rfl .char 1 3 .read (by rfl)
    revert allowed
    decide
  rintro ⟨-, ⟨fewer, -⟩, -⟩
  have allowed : checkPermission _ .char 1 3 {.read} = true := fewer .char 1 3 .read (by rfl)
  revert allowed
  decide

end

end TinyKernel.Devcg
