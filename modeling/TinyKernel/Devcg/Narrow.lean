import TinyKernel.Devcg.Code
import TinyKernel.Lib.Results

/-! A cgroup never gets more access than the one above it. -/

namespace TinyKernel.Devcg

open Lib List Rose

variable {ex : ExceptionItem}

section

/-- A device, or a range of them, lies inside the range of an exception. -/
def ExceptionItem.Covers (ex : ExceptionItem) (type : DevType) (major minor : Nat) : Prop :=
  ex.type = type ∧ (ex.major = all ∨ ex.major = major) ∧ (ex.minor = all ∨ ex.minor = minor)

/-- The two have a device in common. -/
def ExceptionItem.Touches (ex : ExceptionItem) (type : DevType) (major minor : Nat) : Prop :=
  ex.type = type ∧ (ex.major = all ∨ major = all ∨ ex.major = major) ∧
    (ex.minor = all ∨ minor = all ∨ ex.minor = minor)

variable {type : DevType} {major minor : Nat}

theorem matchException_iff :
    matchException exceptions type major minor access = true ↔
      ∃ ex ∈ exceptions, ex.Covers type major minor ∧ access ⊆ ex.access := by
  simp [matchException, ExceptionItem.Covers, and_assoc]

theorem matchExceptionPartial_iff :
    matchExceptionPartial exceptions type major minor access = true ↔
      ∃ ex ∈ exceptions, ex.Touches type major minor ∧ ∃ a ∈ access, a ∈ ex.access := by
  simp only [matchExceptionPartial, ExceptionItem.Touches, any_eq_true, decide_eq_true_eq,
    ← Finset.nonempty_iff_ne_empty, Finset.Nonempty, Finset.mem_inter, and_assoc]

theorem matchException_single :
    matchException exceptions type major minor {a} = true ↔
      ∃ ex ∈ exceptions, ex.Covers type major minor ∧ a ∈ ex.access := by
  simp [matchException_iff]

theorem matchExceptionPartial_single :
    matchExceptionPartial exceptions type major minor {a} = true ↔
      ∃ ex ∈ exceptions, ex.Touches type major minor ∧ a ∈ ex.access := by
  simp [matchExceptionPartial_iff]

/-- What touches a part of a range touches the range. -/
theorem ExceptionItem.Touches.of_covers {other : ExceptionItem}
    (covers : ex.Covers type major minor) (touches : other.Touches type major minor) :
    other.Touches ex.type ex.major ex.minor := by
  obtain ⟨rfl, major, minor⟩ := covers
  obtain ⟨same, major', minor'⟩ := touches
  refine ⟨same, ?_, ?_⟩ <;> grind

theorem ExceptionItem.Covers.trans {other : ExceptionItem} (covers : ex.Covers type major minor)
    (wider : other.Covers ex.type ex.major ex.minor) : other.Covers type major minor := by
  obtain ⟨rfl, major, minor⟩ := covers
  obtain ⟨same, major', minor'⟩ := wider
  refine ⟨same, ?_, ?_⟩ <;> grind

/-- The devices of an exception are the only thing that tells it from others. -/
def ExceptionItem.key (ex : ExceptionItem) : DevType × Nat × Nat := (ex.type, ex.major, ex.minor)

theorem sameDevices_iff : sameDevices walk ex = true ↔ walk.key = ex.key := by
  simp [sameDevices, ExceptionItem.key]

/-- Said of the devices of an exception alone. -/
def ByKey (holds : ExceptionItem → Prop) : Prop :=
  ∀ ⦃ex other : ExceptionItem⦄, ex.key = other.key → (holds ex ↔ holds other)

theorem touches_of_key : ByKey (·.Touches type major minor) := by
  intro ex other same
  simp only [ExceptionItem.key, Prod.mk.injEq] at same
  simp only [ExceptionItem.Touches, same]

theorem covers_of_key : ByKey (·.Covers type major minor) := by
  intro ex other same
  simp only [ExceptionItem.key, Prod.mk.injEq] at same
  simp only [ExceptionItem.Covers, same]

end

section

variable {devcg : DevCgroup} {ex : ExceptionItem}

@[simp] theorem behavior_add : (devExceptionAdd devcg ex).behavior = devcg.behavior := by
  rw [devExceptionAdd]
  split <;> rfl

@[simp] theorem behavior_rm : (devExceptionRm devcg ex).behavior = devcg.behavior := rfl

/-- What `dev_exception_rm` does to one exception. -/
theorem strip_eq_some :
    strip ex walk = some left ↔
      (walk.key ≠ ex.key ∧ left = walk) ∨
        (walk.key = ex.key ∧ left = { walk with access := walk.access \ ex.access } ∧
          left.access ≠ ∅) := by
  rw [strip]
  by_cases same : sameDevices walk ex = true
  · have key := sameDevices_iff.mp same
    simp only [same, if_true, key, ne_eq, not_true, false_and, false_or, true_and]
    split
    next none =>
      constructor
      · rintro ⟨⟩
      rintro ⟨rfl, some⟩
      exact absurd none some
    next some =>
      constructor
      · rintro ⟨⟩
        exact ⟨rfl, some⟩
      rintro ⟨rfl, -⟩
      rfl
  have key : walk.key ≠ ex.key := fun eq => same (sameDevices_iff.mpr eq)
  simp [same, key, eq_comm]

theorem key_of_strip (kept : strip ex walk = some left) : left.key = walk.key := by
  rcases strip_eq_some.mp kept with ⟨-, rfl⟩ | ⟨-, rfl, -⟩
  · rfl
  rfl

/-- The bits after `dev_exception_rm` were there before it. -/
theorem bit_of_rm (byKey : ByKey holds)
    (bit : ∃ left ∈ (devExceptionRm devcg ex).exceptions, holds left ∧ a ∈ left.access) :
    ∃ walk ∈ devcg.exceptions, holds walk ∧ a ∈ walk.access := by
  obtain ⟨left, mem, devices, bit⟩ := bit
  obtain ⟨walk, old, kept⟩ := mem_filterMap.mp mem
  refine ⟨walk, old, (byKey (key_of_strip kept)).mp devices, ?_⟩
  rcases strip_eq_some.mp kept with ⟨-, rfl⟩ | ⟨-, rfl, -⟩
  · exact bit
  exact Finset.sdiff_subset bit

/-- A bit of an exception stays, unless it is one of those to remove. -/
theorem exists_mem_rm (mem : walk ∈ devcg.exceptions) (bit : a ∈ walk.access)
    (other : walk.key = ex.key → a ∉ ex.access) :
    ∃ left ∈ (devExceptionRm devcg ex).exceptions, left.key = walk.key ∧ a ∈ left.access := by
  by_cases same : walk.key = ex.key
  · have bit' : a ∈ walk.access \ ex.access := Finset.mem_sdiff.mpr ⟨bit, other same⟩
    refine ⟨{ walk with access := walk.access \ ex.access }, ?_, rfl, bit'⟩
    refine mem_filterMap.mpr ⟨walk, mem, strip_eq_some.mpr (.inr ⟨same, rfl, ?_⟩)⟩
    exact Finset.ne_empty_of_mem bit'
  exact ⟨walk, mem_filterMap.mpr ⟨walk, mem, strip_eq_some.mpr (.inl ⟨same, rfl⟩)⟩, rfl, bit⟩

theorem keys_rm (devcg : DevCgroup) (ex : ExceptionItem) :
    ((devExceptionRm devcg ex).exceptions.map ExceptionItem.key).Sublist
      (devcg.exceptions.map ExceptionItem.key) := by
  rw [devExceptionRm]
  induction devcg.exceptions with
  | nil => simp
  | cons walk rest ih => ?_
  rw [filterMap_cons, map_cons]
  cases kept : strip ex walk with
  | none => exact ih.cons _
  | some left => ?_
  rw [← key_of_strip kept]
  exact ih.cons_cons _

/-- The bits after `dev_exception_add` are those before it and the new ones. -/
theorem bit_add (byKey : ByKey holds) :
    (∃ walk ∈ (devExceptionAdd devcg ex).exceptions, holds walk ∧ a ∈ walk.access) ↔
      (∃ walk ∈ devcg.exceptions, holds walk ∧ a ∈ walk.access) ∨ holds ex ∧ a ∈ ex.access := by
  have merged (walk : ExceptionItem) (mem : walk ∈ devcg.exceptions) :
      (if sameDevices walk ex then { walk with access := walk.access ∪ ex.access } else walk) ∈
        (devExceptionAdd devcg ex).exceptions := by
    rw [devExceptionAdd]
    split
    · exact mem_map_of_mem mem
    exact mem_append_left _ (mem_map_of_mem mem)
  constructor
  · rintro ⟨walk, mem, devices, bit⟩
    have cases : (∃ old ∈ devcg.exceptions, (if sameDevices old ex then
        { old with access := old.access ∪ ex.access } else old) = walk) ∨ walk = ex := by
      rw [devExceptionAdd] at mem
      split at mem
      · exact .inl (mem_map.mp mem)
      rcases mem_append.mp mem with old | new
      · exact .inl (mem_map.mp old)
      exact .inr (mem_singleton.mp new)
    rcases cases with ⟨old, present, rfl⟩ | rfl
    · have devices' : holds old := by
        refine (byKey ?_).mp devices
        split <;> rfl
      split at bit
      next same =>
        rcases Finset.mem_union.mp bit with before | new
        · exact .inl ⟨old, present, devices', before⟩
        exact .inr ⟨(byKey (sameDevices_iff.mp same)).mp devices', new⟩
      next => exact .inl ⟨old, present, devices', bit⟩
    exact .inr ⟨devices, bit⟩
  rintro (⟨walk, mem, devices, bit⟩ | ⟨devices, bit⟩)
  · refine ⟨_, merged walk mem, (byKey ?_).mpr devices, ?_⟩
    · split <;> rfl
    split
    · exact Finset.mem_union_left _ bit
    exact bit
  by_cases found : devcg.exceptions.any (sameDevices · ex) = true
  · obtain ⟨walk, mem, same⟩ := any_eq_true.mp found
    refine ⟨_, merged walk mem, (byKey ?_).mpr devices, ?_⟩
    · rw [if_pos same]
      exact sameDevices_iff.mp same
    rw [if_pos same]
    exact Finset.mem_union_right _ bit
  refine ⟨ex, ?_, devices, bit⟩
  rw [devExceptionAdd]
  simp only [found]
  exact mem_append_right _ (mem_singleton_self ex)

theorem keys_add (ex : ExceptionItem) (distinct : (devcg.exceptions.map ExceptionItem.key).Nodup) :
    ((devExceptionAdd devcg ex).exceptions.map ExceptionItem.key).Nodup := by
  have same : (devcg.exceptions.map fun walk => if sameDevices walk ex then
      { walk with access := walk.access ∪ ex.access } else walk).map ExceptionItem.key =
      devcg.exceptions.map ExceptionItem.key := by
    rw [map_map]
    apply map_congr_left
    intro walk _
    simp only [Function.comp_apply]
    split <;> rfl
  rw [devExceptionAdd]
  split
  next => rwa [same]
  next missing =>
    rw [map_append, same, map_singleton]
    refine nodup_append.mpr ⟨distinct, nodup_singleton _, ?_⟩
    rintro key mem other single rfl
    obtain ⟨walk, present, eq⟩ := mem_map.mp mem
    rw [mem_singleton.mp single] at eq
    exact missing (any_eq_true.mpr ⟨walk, present, sameDevices_iff.mpr eq⟩)

variable {type : DevType} {major minor : Nat}

theorem matchExceptionPartial_add :
    matchExceptionPartial (devExceptionAdd devcg ex).exceptions type major minor {a} = true ↔
      matchExceptionPartial devcg.exceptions type major minor {a} = true ∨
        ex.Touches type major minor ∧ a ∈ ex.access := by
  simp only [matchExceptionPartial_single]
  exact bit_add touches_of_key

theorem matchException_add :
    matchException (devExceptionAdd devcg ex).exceptions type major minor {a} = true ↔
      matchException devcg.exceptions type major minor {a} = true ∨
        ex.Covers type major minor ∧ a ∈ ex.access := by
  simp only [matchException_single]
  exact bit_add covers_of_key

end

section

/-- Whether a task in the cgroup has one access to a device. -/
def Allows (devcg : DevCgroup) (type : DevType) (major minor : Nat) (a : Access) : Prop :=
  checkPermission devcg type major minor {a} = true

variable {a : Access}

section

variable {devcg : DevCgroup} {type : DevType} {major minor : Nat}

theorem allows_of_allow (behavior : devcg.behavior = .allow) :
    Allows devcg type major minor a ↔
      ¬matchExceptionPartial devcg.exceptions type major minor {a} = true := by
  simp [Allows, checkPermission, behavior]

theorem allows_of_deny (behavior : devcg.behavior ≠ .allow) :
    Allows devcg type major minor a ↔
      matchException devcg.exceptions type major minor {a} = true := by
  simp [Allows, checkPermission, behavior]

end

/-- The access of a cgroup is part of that of its parent. Where both allow by default, this is said
of single devices only: those decide about ranges too. -/
structure Narrower (parent child : DevCgroup) : Prop where
  behavior : child.behavior = .allow → parent.behavior = .allow
  access : ∀ type major minor a, (child.behavior = .allow → major ≠ all ∧ minor ≠ all) →
    Allows child type major minor a → Allows parent type major minor a

/-- A cgroup in its place of the tree. -/
structure Placed (parent : Option DevCgroup) (devcg : DevCgroup) : Prop where
  online : devcg.behavior ≠ .none
  distinct : (devcg.exceptions.map ExceptionItem.key).Nodup
  above : ∀ above, parent = some above → (above.exceptions.map ExceptionItem.key).Nodup
  narrower : ∀ above, parent = some above → Narrower above devcg

variable {devcg : DevCgroup} {ex : ExceptionItem}

/-- An exception that `verify_new_ex` accepts gives nothing that the parent does not give. -/
theorem allows_of_verify (verified : verifyNewEx parent ex devcg.behavior = true)
    (deny : devcg.behavior ≠ .allow) (covers : ex.Covers type major minor) (bit : a ∈ ex.access) :
    Allows parent type major minor a := by
  rw [verifyNewEx, if_neg deny] at verified
  by_cases allow : parent.behavior = .allow
  · rw [if_pos allow] at verified
    rw [allows_of_allow allow, matchExceptionPartial_single]
    rintro ⟨other, mem, touches, bit'⟩
    have found : matchExceptionPartial parent.exceptions ex.type ex.major ex.minor ex.access =
        true :=
      matchExceptionPartial_iff.mpr ⟨other, mem, touches.of_covers covers, a, bit, bit'⟩
    rw [found] at verified
    cases verified
  rw [if_neg allow] at verified
  obtain ⟨other, mem, wider, access⟩ := matchException_iff.mp verified
  rw [allows_of_deny allow, matchException_single]
  exact ⟨other, mem, covers.trans wider, access bit⟩

theorem narrower_of_verify (deny : devcg.behavior ≠ .allow)
    (verified : ∀ ex ∈ devcg.exceptions, verifyNewEx parent ex devcg.behavior = true) :
    Narrower parent devcg where
  behavior := fun allow => absurd allow deny
  access := by
    intro type major minor a _ allowed
    rw [allows_of_deny deny, matchException_single] at allowed
    obtain ⟨ex, mem, covers, bit⟩ := allowed
    exact allows_of_verify (verified ex mem) deny covers bit

/-- More access for the parent. -/
theorem Narrower.widen (narrower : Narrower parent child)
    (behavior : parent'.behavior = parent.behavior)
    (wider : ∀ type major minor a, Allows parent type major minor a →
      Allows parent' type major minor a) : Narrower parent' child where
  behavior := fun allow => behavior.trans (narrower.behavior allow)
  access := fun type major minor a single allowed =>
    wider type major minor a (narrower.access type major minor a single allowed)

/-- Removing an exception that the parent does not touch. -/
theorem Narrower.rm (narrower : Narrower parent devcg) (allow : devcg.behavior = .allow)
    (removable : parentAllowsRemoval (some parent) devcg ex = true) :
    Narrower parent (devExceptionRm devcg ex) where
  behavior := narrower.behavior
  access := by
    intro type major minor a single allowed
    have above := narrower.behavior allow
    have deny : devcg.behavior ≠ .deny := by rw [allow]; decide
    rw [parentAllowsRemoval, if_neg deny] at removable
    rw [allows_of_allow above]
    intro found
    -- the parent forbids the device, so the child did
    have before : ¬Allows devcg type major minor a := by
      intro allowed'
      exact (allows_of_allow above).mp (narrower.access type major minor a single allowed') found
    rw [allows_of_allow allow, not_not, matchExceptionPartial_single] at before
    obtain ⟨walk, mem, touches, bit⟩ := before
    obtain ⟨other, present, touches', bit'⟩ := matchExceptionPartial_single.mp found
    have kept : walk.key = ex.key → a ∉ ex.access := by
      intro same removed
      obtain ⟨major_eq, minor_eq⟩ := single allow
      have covers : ex.Covers type major minor := by
        have := (touches_of_key same).mp touches
        obtain ⟨rfl, hmajor, hminor⟩ := this
        refine ⟨rfl, ?_, ?_⟩ <;> grind
      have forbidden : matchExceptionPartial parent.exceptions ex.type ex.major ex.minor ex.access =
          true :=
        matchExceptionPartial_iff.mpr ⟨other, present, touches'.of_covers covers, a, removed, bit'⟩
      rw [forbidden] at removable
      cases removable
    obtain ⟨left, stays, key, bit''⟩ := exists_mem_rm mem bit kept
    have allow' : (devExceptionRm devcg ex).behavior = .allow := allow
    refine (allows_of_allow allow').mp allowed ?_
    exact matchExceptionPartial_single.mpr ⟨left, stays, (touches_of_key key).mpr touches, bit''⟩

theorem Placed.rm {above : Option DevCgroup} (placed : Placed above devcg)
    (allow : devcg.behavior = .allow) (removable : parentAllowsRemoval above devcg ex = true) :
    Placed above (devExceptionRm devcg ex) where
  online := placed.online
  distinct := placed.distinct.sublist (keys_rm _ ex)
  above := placed.above
  narrower := by
    rintro parent rfl
    exact (placed.narrower parent rfl).rm allow removable

theorem Placed.add {above : Option DevCgroup} (placed : Placed above devcg)
    (deny : devcg.behavior ≠ .allow) (verified : parentHasPerm above devcg ex = true) :
    Placed above (devExceptionAdd devcg ex) where
  online := by simpa using placed.online
  distinct := keys_add ex placed.distinct
  above := placed.above
  narrower := by
    rintro parent rfl
    have before := placed.narrower parent rfl
    have deny' : (devExceptionAdd devcg ex).behavior ≠ .allow := by simpa using deny
    refine ⟨fun allow => absurd allow deny', fun type major minor a _ allowed => ?_⟩
    rw [allows_of_deny deny', matchException_add] at allowed
    rcases allowed with old | ⟨covers, bit⟩
    · exact before.access type major minor a (fun allow => absurd allow deny)
        ((allows_of_deny deny).mpr old)
    exact allows_of_verify verified deny covers bit

end

theorem rm_self {after : List ExceptionItem}
    (distinct : ((before ++ ex :: after).map ExceptionItem.key).Nodup) :
    devExceptionRm ⟨before ++ ex :: after, behavior⟩ ex = ⟨before ++ after, behavior⟩ := by
  have others : ∀ walk ∈ before ++ after, walk.key ≠ ex.key := by
    rw [map_append, map_cons] at distinct
    have fresh := (nodup_middle.mp distinct).notMem
    rw [← map_append] at fresh
    exact fun walk mem same => fresh (mem_map.mpr ⟨walk, mem, same⟩)
  have kept (walks : List ExceptionItem) (apart : ∀ walk ∈ walks, walk.key ≠ ex.key) :
      walks.filterMap (strip ex) = walks := by
    induction walks with
    | nil => rfl
    | cons walk rest ih => ?_
    have stays : strip ex walk = some walk := strip_eq_some.mpr (.inl ⟨apart walk (.head _), rfl⟩)
    rw [filterMap_cons, stays]
    rw [ih fun other mem => apart other (.tail _ mem)]
  have gone : strip ex ex = none := by simp [strip, sameDevices]
  simp only [devExceptionRm, filterMap_append, filterMap_cons, gone]
  rw [kept before fun walk mem => others walk (mem_append_left _ mem),
    kept after fun walk mem => others walk (mem_append_right _ mem)]

/-- The walk of `revalidate_active_exceptions`, with the exceptions it has kept so far. -/
theorem revalidate_loop (parent : Option DevCgroup) (behavior : Behavior)
    (kept todo : List ExceptionItem) (distinct : ((kept ++ todo).map ExceptionItem.key).Nodup) :
    todo.foldl
        (fun devcg ex => if parentHasPerm parent devcg ex then devcg else devExceptionRm devcg ex)
        ⟨kept ++ todo, behavior⟩ =
      ⟨kept ++ todo.filter (parentHasPerm parent ⟨[], behavior⟩ ·), behavior⟩ := by
  induction todo generalizing kept with
  | nil => simp
  | cons ex rest ih => ?_
  have same : parentHasPerm parent ⟨kept ++ ex :: rest, behavior⟩ ex =
      parentHasPerm parent ⟨[], behavior⟩ ex := by cases parent <;> rfl
  rw [foldl_cons, same, filter_cons]
  split
  next =>
    have next := ih (kept ++ [ex]) (by simpa using distinct)
    rw [append_assoc, singleton_append] at next
    rw [next, append_assoc, singleton_append]
  next =>
    rw [rm_self distinct]
    apply ih
    refine distinct.sublist (Sublist.map _ ?_)
    exact (Sublist.refl kept).append (sublist_cons_self ex rest)

/-- With distinct exceptions, those that the parent permits are left. -/
theorem revalidate_eq (parent : Option DevCgroup)
    (distinct : (devcg.exceptions.map ExceptionItem.key).Nodup) :
    revalidateActiveExceptions parent devcg =
      ⟨devcg.exceptions.filter (parentHasPerm parent ⟨[], devcg.behavior⟩ ·), devcg.behavior⟩ := by
  have loop := revalidate_loop parent devcg.behavior [] devcg.exceptions distinct
  rwa [nil_append, nil_append] at loop

/-- What a new restriction at `root` makes of a cgroup below it. -/
structure Changed (root : Behavior) (ex : ExceptionItem) (before after : DevCgroup) : Prop where
  behavior : after.behavior = before.behavior
  added : before.behavior = .allow → root = .allow ∧ after = devExceptionAdd before ex
  distinct : (after.exceptions.map ExceptionItem.key).Nodup

/-- The step down: the parent has changed, and the child follows. -/
theorem Changed.below {root : Behavior} (changed : Changed root ex parent parent')
    (placed : Placed (some parent) child) :
    Changed root ex child (propagateTo root ex parent' child) ∧
      Placed (some parent') (propagateTo root ex parent' child) := by
  have online : isDevcgOnline child = true := by simpa [isDevcgOnline] using placed.online
  have narrower := placed.narrower parent rfl
  rw [propagateTo, if_pos online]
  by_cases allow : child.behavior = .allow
  · have above := narrower.behavior allow
    obtain ⟨top, rfl⟩ := changed.added above
    have above' : (devExceptionAdd parent ex).behavior = .allow := by simpa using above
    have allow' : (devExceptionAdd child ex).behavior = .allow := by simpa using allow
    have all : revalidateActiveExceptions (some (devExceptionAdd parent ex))
          (devExceptionAdd child ex) = devExceptionAdd child ex := by
      rw [revalidate_eq _ (keys_add ex placed.distinct)]
      simp [parentHasPerm, verifyNewEx, above, allow]
      rw [← allow']
    rw [if_pos ⟨top, allow⟩, all]
    have distinct := keys_add ex placed.distinct
    refine ⟨⟨behavior_add, fun _ => ⟨top, rfl⟩, distinct⟩, ?_, distinct, ?_, ?_⟩
    · rw [allow']
      decide
    · rintro _ ⟨⟩
      exact changed.distinct
    rintro _ ⟨⟩
    refine ⟨fun _ => above', fun type major minor a single allowed => ?_⟩
    rw [allows_of_allow allow', matchExceptionPartial_add, not_or] at allowed
    have before :=
      narrower.access type major minor a (fun _ => single allow')
        ((allows_of_allow allow).mpr allowed.1)
    rw [allows_of_allow above', matchExceptionPartial_add, not_or]
    exact ⟨(allows_of_allow above).mp before, allowed.2⟩
  rw [if_neg fun both => allow both.2, revalidate_eq _ (placed.distinct.sublist (keys_rm _ ex))]
  have distinct (test : ExceptionItem → Bool) :
      (((devExceptionRm child ex).exceptions.filter test).map ExceptionItem.key).Nodup :=
    (placed.distinct.sublist (keys_rm child ex)).sublist (filter_sublist.map _)
  refine ⟨⟨rfl, fun other => absurd other allow, distinct _⟩, placed.online, distinct _, ?_, ?_⟩
  · rintro _ ⟨⟩
    exact changed.distinct
  rintro _ ⟨⟩
  refine narrower_of_verify allow fun e mem => ?_
  exact (mem_filter.mp mem).2

section

variable {above : Option DevCgroup} {devcg : DevCgroup} {children : List (Rose DevCgroup)}

theorem propagate_chained {devcg' : DevCgroup} (changed : Changed devcg'.behavior ex devcg devcg')
    (placed : Placed above devcg') (below : ∀ child ∈ children, Chained Placed (some devcg) child) :
    Chained Placed above (propagateException devcg' ex children) := by
  refine .node placed fun child mem => ?_
  obtain ⟨old, present, rfl⟩ := mem_map.mp mem
  exact (below old present).mapDown (fun _ _ _ changed placed => changed.below placed) changed

/-- More access for a cgroup does not matter to those below it. -/
theorem chained_widen (behavior : devcg'.behavior = devcg.behavior)
    (distinct : (devcg'.exceptions.map ExceptionItem.key).Nodup)
    (wider : ∀ type major minor a, Allows devcg type major minor a →
      Allows devcg' type major minor a) (chained : Chained Placed (some devcg) child) :
    Chained Placed (some devcg') child := by
  cases chained with
  | node placed below =>
    refine .node ⟨placed.online, placed.distinct, ?_, ?_⟩ below
    · rintro _ ⟨⟩
      exact distinct
    rintro _ ⟨⟩
    exact (placed.narrower devcg rfl).widen behavior wider

theorem no_children (below : ∀ child ∈ children, Chained Placed (some devcg) child)
    (none : cssHasOnlineChildren children = false) : children = [] := by
  cases children with
  | nil => rfl
  | cons child rest => ?_
  have online := (below child (.head _)).related.online
  simp [cssHasOnlineChildren, isDevcgOnline, online] at none

/-- A cgroup with the behavior and the exceptions of its parent. -/
theorem placed_copy (online : parent.behavior ≠ .none)
    (distinct : (parent.exceptions.map ExceptionItem.key).Nodup) :
    Placed (some parent) ⟨parent.exceptions, parent.behavior⟩ where
  online := online
  distinct := distinct
  above := by
    rintro _ ⟨⟩
    exact distinct
  narrower := by
    rintro _ ⟨⟩
    exact ⟨id, fun _ _ _ _ _ allowed => allowed⟩

variable {tree : Rose DevCgroup}

section

variable {filetype : FileType} (placed : Placed above devcg)
    (below : ∀ child ∈ children, Chained Placed (some devcg) child)
include placed below

theorem updateAll_chained (done : updateAll above devcg children filetype = .ok tree) :
    Chained Placed above tree := by
  cases filetype with
  | list => cases done
  | deny =>
    rw [updateAll] at done
    split at done
    next => cases done
    next none =>
      obtain rfl := no_children below (by simpa using none)
      cases done
      refine .node ⟨by simp, nodup_nil, placed.above, fun parent _ => ?_⟩ (by simp)
      exact narrower_of_verify (by simp) (by simp [devExceptionClean])
  | allow => ?_
  rw [updateAll] at done
  split at done
  next => cases done
  next none =>
    obtain rfl := no_children below (by simpa using none)
    split at done
    next may =>
      cases above with
      | none =>
        cases done
        exact .node ⟨by simp, nodup_nil, nofun, nofun⟩ (by simp)
      | some parent => ?_
      cases done
      have allow : parent.behavior = .allow := by simpa [mayAllowAll] using may
      have copy := placed_copy (by rw [allow]; decide) (placed.above parent rfl)
      rw [allow] at copy
      exact .node (by simpa [devExceptionClean] using copy) (by simp)
    next => cases done

theorem updateException_chained
    (done : updateException above devcg children ex filetype = .ok tree) :
    Chained Placed above tree := by
  cases filetype with
  | list => cases done
  | allow =>
    rw [updateException] at done
    split at done
    next allow =>
      split at done
      next removable =>
        cases done
        have placed' := placed.rm allow removable
        have same : (devExceptionRm devcg ex).behavior = devcg.behavior := rfl
        refine .node placed' fun child mem =>
          chained_widen same placed'.distinct ?_ (below child mem)
        intro type major minor a allowed
        have allow' : (devExceptionRm devcg ex).behavior = .allow := allow
        rw [allows_of_allow allow] at allowed
        rw [allows_of_allow allow']
        rw [matchExceptionPartial_single] at allowed ⊢
        exact mt (bit_of_rm touches_of_key) allowed
      next => cases done
    next deny =>
      split at done
      next verified =>
        cases done
        have placed' := placed.add deny verified
        have deny' : (devExceptionAdd devcg ex).behavior ≠ .allow := by simpa using deny
        refine .node placed' fun child mem =>
          chained_widen behavior_add placed'.distinct ?_ (below child mem)
        intro type major minor a allowed
        rw [allows_of_deny deny] at allowed
        rw [allows_of_deny deny', matchException_add]
        exact .inl allowed
      next => cases done
  | deny => ?_
  simp only [updateException, Except.ok.injEq] at done
  subst done
  by_cases deny : devcg.behavior = .deny
  · rw [if_pos deny]
    have other : devcg.behavior ≠ .allow := by rw [deny]; decide
    have distinct := placed.distinct.sublist (keys_rm devcg ex)
    have changed : Changed (devExceptionRm devcg ex).behavior ex devcg (devExceptionRm devcg ex) :=
      ⟨rfl, fun allow => absurd allow other, distinct⟩
    refine propagate_chained changed ?_ below
    refine ⟨placed.online, distinct, placed.above, fun parent same => ?_⟩
    have before := placed.narrower parent same
    refine ⟨before.behavior, fun type major minor a single allowed => ?_⟩
    have other' : (devExceptionRm devcg ex).behavior ≠ .allow := other
    apply before.access type major minor a single
    rw [allows_of_deny other', matchException_single] at allowed
    rw [allows_of_deny other, matchException_single]
    exact bit_of_rm covers_of_key allowed
  rw [if_neg deny]
  have allow : devcg.behavior = .allow := by
    have online := placed.online
    cases same : devcg.behavior <;> simp_all
  have allow' : (devExceptionAdd devcg ex).behavior = .allow := by simpa using allow
  have distinct := keys_add ex placed.distinct
  refine propagate_chained ⟨behavior_add, fun _ => ⟨allow', rfl⟩, distinct⟩ ?_ below
  refine ⟨by simpa using placed.online, distinct, placed.above, fun parent same => ?_⟩
  have before := placed.narrower parent same
  refine ⟨fun _ => before.behavior allow, fun type major minor a single allowed => ?_⟩
  rw [allows_of_allow allow', matchExceptionPartial_add, not_or] at allowed
  exact before.access type major minor a (fun _ => single allow')
    ((allows_of_allow allow).mpr allowed.1)

end

theorem addChild_chained (chained : Chained Placed above tree) :
    Chained Placed above (addChild tree) := by
  cases chained with
  | node placed below =>
    refine .node placed fun child mem => ?_
    rcases mem_append.mp mem with old | new
    · exact below child old
    rw [mem_singleton.mp new]
    exact .node (placed_copy placed.online placed.distinct) (by simp)

theorem step_chained (chained : Chained Placed none tree) (done : step tree event = .ok tree') :
    Chained Placed none tree' := by
  cases event with
  | online path =>
    refine chained.editAt (fun above tree tree' chained edited => ?_) done
    cases edited
    exact addChild_chained chained
  | write path capable filetype buffer => ?_
  refine chained.editAt (fun above tree tree' chained edited => ?_) done
  cases chained with
  | node placed below =>
    rw [devcgroupUpdateAccess] at edited
    split at edited
    next =>
      obtain ⟨rule, -, edited⟩ := bind_eq_ok.mp edited
      cases rule with
      | all => exact updateAll_chained placed below edited
      | exception ex => exact updateException_chained placed below edited
    next => cases edited

/-- The trees that cgroups going online and writes to their files lead to. A write that fails
changes nothing. -/
inductive Reached : Rose DevCgroup → Prop
  | root : Reached root
  | step {tree tree' : Rose DevCgroup} (event : Event) : Reached tree →
    step tree event = .ok tree' →
      Reached tree'

theorem Reached.chained (there : Reached tree) : Chained Placed none tree := by
  induction there with
  | root => exact .node ⟨by decide, nodup_nil, nofun, nofun⟩ (by simp)
  | step event _ done ih => exact step_chained ih done

end

/-- What holds of all single devices holds of ranges: one device decides. -/
theorem Narrower.allows (narrower : Narrower parent child)
    (allowed : Allows child type major minor a) : Allows parent type major minor a := by
  by_cases allow : child.behavior = .allow
  · have above := narrower.behavior allow
    rw [allows_of_allow above]
    intro found
    obtain ⟨ex, mem, touches, bit⟩ := matchExceptionPartial_single.mp found
    -- a device in both ranges
    have one (wide : Nat) (number : Nat) : ∃ single, single ≠ all ∧
        (wide = all ∨ number = all ∨ wide = number → wide = all ∨ single = all ∨ wide = single) ∧
        ∀ other, (other = all ∨ single = all ∨ other = single) →
          other = all ∨ number = all ∨ other = number := by
      by_cases range : number = all
      · by_cases every : wide = all
        · exact ⟨0, by decide, fun _ => .inl every, fun _ _ => .inr (.inl range)⟩
        exact ⟨wide, every, fun _ => .inr (.inr rfl), fun _ _ => .inr (.inl range)⟩
      exact ⟨number, range, id, fun _ => id⟩
    obtain ⟨single, concrete, inside, back⟩ := one ex.major major
    obtain ⟨single', concrete', inside', back'⟩ := one ex.minor minor
    have forbidden : ¬Allows child type single single' a := by
      intro allowed'
      have given := narrower.access type single single' a (fun _ => ⟨concrete, concrete'⟩) allowed'
      refine (allows_of_allow above).mp given (matchExceptionPartial_single.mpr ⟨ex, mem, ?_, bit⟩)
      exact ⟨touches.1, inside touches.2.1, inside' touches.2.2⟩
    rw [allows_of_allow allow, not_not, matchExceptionPartial_single] at forbidden
    obtain ⟨other, present, ⟨same, touch, touch'⟩, bit'⟩ := forbidden
    exact (allows_of_allow allow).mp allowed (matchExceptionPartial_single.mpr
      ⟨other, present, ⟨same, back _ touch, back' _ touch'⟩, bit'⟩)
  exact narrower.access type major minor a (fun other => absurd other allow) allowed

/-- In every tree that is reached, what the check allows in a cgroup it allows in the one above. -/
theorem child_access_within_parent (tree : Rose DevCgroup) (reached : Reached tree)
    (parent child : DevCgroup) (edge : tree.Edge parent child) (type : DevType) (major minor : Nat)
    (a : Access) (allowed : checkPermission child type major minor {a} = true) :
    checkPermission parent type major minor {a} = true :=
  ((reached.chained.edge edge).narrower parent rfl).allows allowed

/-- A cgroup that denies all but two devices, and one below it with only one of them. Writing was
denied to the upper one last. -/
def readOnly : Rose DevCgroup :=
  .node ⟨[], .allow⟩ [.node ⟨[⟨1, 3, .char, {.read}⟩, ⟨1, 5, .char, {.read}⟩], .deny⟩
    [.node ⟨[⟨1, 3, .char, {.read}⟩], .deny⟩ []]]

theorem readOnly_reached : Reached readOnly := by
  let upper : DevCgroup := ⟨[⟨1, 3, .char, {.read, .write}⟩, ⟨1, 5, .char, {.read}⟩], .deny⟩
  have online : Reached (.node ⟨[], .allow⟩ [.node ⟨[], .allow⟩ []]) := .step (.online []) .root rfl
  have denied : Reached (.node ⟨[], .allow⟩ [.node ⟨[], .deny⟩ []]) :=
    .step (.write [0] true .deny "a".toList) online (by rfl)
  have first : Reached (.node ⟨[], .allow⟩ [.node ⟨[⟨1, 3, .char, {.read, .write}⟩], .deny⟩ []]) :=
    .step (.write [0] true .allow "c 1:3 wr".toList) denied (by rfl)
  have second : Reached (.node ⟨[], .allow⟩ [.node upper []]) :=
    .step (.write [0] true .allow "c 1:5 r".toList) first (by rfl)
  have below : Reached (.node ⟨[], .allow⟩ [.node upper [.node upper []]]) :=
    .step (.online [0]) second (by rfl)
  have fewer : Reached (.node ⟨[], .allow⟩ [.node upper
      [.node ⟨[⟨1, 3, .char, {.read, .write}⟩], .deny⟩ []]]) :=
    .step (.write [0, 0] true .deny "c 1:5 r".toList) below (by rfl)
  exact .step (.write [0] true .deny "c 1:3 w".toList) fewer (by rfl)

theorem child_access_within_parent_read_only :
    let parent : DevCgroup := ⟨[⟨1, 3, .char, {.read}⟩, ⟨1, 5, .char, {.read}⟩], .deny⟩
    let child : DevCgroup := ⟨[⟨1, 3, .char, {.read}⟩], .deny⟩
    readOnly.Edge parent child ∧ checkPermission parent .char 1 3 {.write} = false ∧
      checkPermission child .char 1 3 {.read} = true ∧
        checkPermission parent .char 1 3 {.read} = true := by
  have edge : readOnly.Edge ⟨[⟨1, 3, .char, {.read}⟩, ⟨1, 5, .char, {.read}⟩], .deny⟩
      ⟨[⟨1, 3, .char, {.read}⟩], .deny⟩ :=
    .deeper (mem_singleton_self _) (.top (mem_singleton_self _))
  exact ⟨edge, by decide, by decide,
    child_access_within_parent readOnly readOnly_reached _ _ edge .char 1 3 .read (by decide)⟩

end TinyKernel.Devcg
