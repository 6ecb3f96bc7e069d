import Mathlib.Algebra.Group.Nat.Defs
import Mathlib.Data.Finset.SDiff
import TinyKernel.Lib.Hierarchy

/-! The device cgroups of `security/device_cgroup.c`: the permission check, the rules that are
written to `devices.allow` and `devices.deny`, and their way down the tree. All allocations
succeed. -/

namespace TinyKernel.Devcg

open Lib

inductive DevType where
  | block
  | char
  deriving DecidableEq, Repr

inductive Access where
  | mknod
  | read
  | write
  deriving DecidableEq, Repr

inductive Behavior where
  | none
  | allow
  | deny
  deriving DecidableEq, Repr

/-- `~0` as a number: all of them. -/
def all : Nat := 2 ^ 32 - 1

/-- `struct dev_exception_item`. The access mask is the set of its bits. -/
structure ExceptionItem where
  major : Nat
  minor : Nat
  type : DevType
  access : Finset Access
  deriving DecidableEq

/-- `struct dev_cgroup`. -/
structure DevCgroup where
  exceptions : List ExceptionItem
  behavior : Behavior

/-- The comparison in the loops of `dev_exception_add` and `dev_exception_rm`. -/
def sameDevices (walk ex : ExceptionItem) : Bool :=
  walk.type = ex.type ∧ walk.major = ex.major ∧ walk.minor = ex.minor

def devExceptionAdd (devCgroup : DevCgroup) (ex : ExceptionItem) : DevCgroup :=
  let merged := devCgroup.exceptions.map fun walk =>
    if sameDevices walk ex then { walk with access := walk.access ∪ ex.access } else walk
  if devCgroup.exceptions.any (sameDevices · ex) then { devCgroup with exceptions := merged }
  else { devCgroup with exceptions := merged ++ [ex] }

/-- What the loop of `dev_exception_rm` leaves of an exception. -/
def strip (ex walk : ExceptionItem) : Option ExceptionItem :=
  let left := { walk with access := walk.access \ ex.access }
  if sameDevices walk ex then
    if left.access = ∅ then none else some left
  else some walk

def devExceptionRm (devCgroup : DevCgroup) (ex : ExceptionItem) : DevCgroup :=
  { devCgroup with exceptions := devCgroup.exceptions.filterMap (strip ex) }

def devExceptionClean (devCgroup : DevCgroup) : DevCgroup := { devCgroup with exceptions := [] }

def isDevcgOnline (devcg : DevCgroup) : Bool := devcg.behavior ≠ .none

/-- The new cgroup after `devcgroup_online`. -/
def devcgroupOnline : Option DevCgroup → DevCgroup
  | none => ⟨[], .allow⟩
  | some parent => ⟨parent.exceptions, parent.behavior⟩

def matchException (exceptions : List ExceptionItem) (type : DevType) (major minor : Nat)
    (access : Finset Access) : Bool :=
  exceptions.any fun ex =>
    ex.type = type ∧ (ex.major = all ∨ ex.major = major) ∧ (ex.minor = all ∨ ex.minor = minor) ∧
      access \ ex.access = ∅

def matchExceptionPartial (exceptions : List ExceptionItem) (type : DevType) (major minor : Nat)
    (access : Finset Access) : Bool :=
  exceptions.any fun ex =>
    ex.type = type ∧ (ex.major = all ∨ major = all ∨ ex.major = major) ∧
      (ex.minor = all ∨ minor = all ∨ ex.minor = minor) ∧ access ∩ ex.access ≠ ∅

/-- The check of `__devcgroup_check_permission` for a task in the cgroup. -/
def checkPermission (devCgroup : DevCgroup) (type : DevType) (major minor : Nat)
    (access : Finset Access) : Bool :=
  if devCgroup.behavior = .allow then
    !matchExceptionPartial devCgroup.exceptions type major minor access
  else matchException devCgroup.exceptions type major minor access

def verifyNewEx (devCgroup : DevCgroup) (refex : ExceptionItem) (behavior : Behavior) : Bool :=
  if devCgroup.behavior = .allow then
    if behavior = .allow then true
    else !matchExceptionPartial devCgroup.exceptions refex.type refex.major refex.minor refex.access
  else matchException devCgroup.exceptions refex.type refex.major refex.minor refex.access

def parentHasPerm (parent : Option DevCgroup) (childcg : DevCgroup) (ex : ExceptionItem) : Bool :=
  match parent with
  | none => true
  | some parent => verifyNewEx parent ex childcg.behavior

def parentAllowsRemoval (parent : Option DevCgroup) (childcg : DevCgroup) (ex : ExceptionItem) :
    Bool :=
  match parent with
  | none => true
  | some parent =>
    if childcg.behavior = .deny then true
    else !matchExceptionPartial parent.exceptions ex.type ex.major ex.minor ex.access

def mayAllowAll : Option DevCgroup → Bool
  | none => true
  | some parent => parent.behavior = .allow

def revalidateActiveExceptions (parent : Option DevCgroup) (devcg : DevCgroup) : DevCgroup :=
  devcg.exceptions.foldl
    (fun devcg ex => if parentHasPerm parent devcg ex then devcg else devExceptionRm devcg ex) devcg

/-- The body of the loop of `propagate_exception`, at a descendant of a cgroup with behavior
`root`. -/
def propagateTo (root : Behavior) (ex : ExceptionItem) (parent devcg : DevCgroup) : DevCgroup :=
  if isDevcgOnline devcg then
    let devcg := if root = .allow ∧ devcg.behavior = .allow then devExceptionAdd devcg ex
      else devExceptionRm devcg ex
    revalidateActiveExceptions (some parent) devcg
  else devcg

/-- `propagate_exception`: every descendant after its parent. -/
def propagateException (devcg : DevCgroup) (ex : ExceptionItem) (children : List (Rose DevCgroup)) :
    Rose DevCgroup :=
  .node devcg (children.map (Rose.mapDown (propagateTo devcg.behavior ex) devcg))

inductive Errno where
  | eperm
  | einval
  | enoent
  deriving DecidableEq, Repr

/-- `isspace` of the kernel's table. -/
def isspace (c : Char) : Bool :=
  c ∈ [' ', '\t', '\n', '\x0b', '\x0c', '\r', '\xa0']

/-- The loop that copies digits to `temp`. -/
def takeDigits : Nat → List Char → List Char × List Char
  | count + 1, c :: b =>
    if c.isDigit then
      let (temp, b) := takeDigits count b
      (c :: temp, b)
    else ([], c :: b)
  | _, b => ([], b)

/-- `kstrtou32` of some digits. -/
def kstrtou32 (temp : List Char) : Except Errno Nat :=
  let value := temp.foldl (fun value c => value * 10 + (c.toNat - '0'.toNat)) 0
  if value < 2 ^ 32 then .ok value else .error .einval

/-- A major or minor number, or `*`, and what follows it. -/
def readNumber : List Char → Except Errno (Nat × List Char)
  | '*' :: b => .ok (all, b)
  | b =>
    match takeDigits 11 b with
    | ([], _) => .error .einval
    | (temp, b) => do
      let value ← kstrtou32 temp
      return (value, b)

/-- The loop over the access letters. -/
def readAccess : Nat → List Char → Finset Access → Except Errno (Finset Access)
  | 0, _, access => .ok access
  | _, [], access => .ok access
  | count + 1, c :: b, access =>
    if c = 'r' then readAccess count b (insert .read access)
    else if c = 'w' then readAccess count b (insert .write access)
    else if c = 'm' then readAccess count b (insert .mknod access)
    else if c = '\n' ∨ c = '\x00' then .ok access
    else .error .einval

/-- What is written: all devices, or an exception. -/
inductive Rule where
  | all
  | exception (ex : ExceptionItem)

/-- A character that has to stand here. -/
def expect (test : Char → Bool) : List Char → Except Errno (List Char)
  | c :: b => if test c then .ok b else .error .einval
  | [] => .error .einval

def readException (type : DevType) (b : List Char) : Except Errno Rule := do
  let b ← expect isspace b
  let (major, b) ← readNumber b
  let b ← expect (· = ':') b
  let (minor, b) ← readNumber b
  let b ← expect isspace b
  let access ← readAccess 3 b ∅
  return .exception ⟨major, minor, type, access⟩

def readRule : List Char → Except Errno Rule
  | 'a' :: _ => .ok .all
  | 'b' :: b => readException .block b
  | 'c' :: b => readException .char b
  | _ => .error .einval

inductive FileType where
  | allow
  | deny
  | list
  deriving DecidableEq, Repr

def cssHasOnlineChildren (children : List (Rose DevCgroup)) : Bool :=
  children.any fun child => isDevcgOnline child.value

/-- The rule `a` of `devcgroup_update_access`. -/
def updateAll (parent : Option DevCgroup) (devcgroup : DevCgroup)
    (children : List (Rose DevCgroup)) : FileType → Except Errno (Rose DevCgroup)
  | .allow =>
    if cssHasOnlineChildren children then .error .einval
    else if mayAllowAll parent then
      let devcgroup := { devExceptionClean devcgroup with behavior := .allow }
      match parent with
      | none => .ok (.node devcgroup children)
      | some parent =>
        .ok (.node { devcgroup with exceptions := devcgroup.exceptions ++ parent.exceptions }
          children)
    else .error .eperm
  | .deny =>
    if cssHasOnlineChildren children then .error .einval
    else .ok (.node { devExceptionClean devcgroup with behavior := .deny } children)
  | .list => .error .einval

/-- The rules `b` and `c`. -/
def updateException (parent : Option DevCgroup) (devcgroup : DevCgroup)
    (children : List (Rose DevCgroup)) (ex : ExceptionItem) :
    FileType → Except Errno (Rose DevCgroup)
  | .allow =>
    if devcgroup.behavior = .allow then
      if parentAllowsRemoval parent devcgroup ex then
        .ok (.node (devExceptionRm devcgroup ex) children)
      else .error .eperm
    else if parentHasPerm parent devcgroup ex then
      .ok (.node (devExceptionAdd devcgroup ex) children)
    else .error .eperm
  | .deny =>
    let devcgroup := if devcgroup.behavior = .deny then devExceptionRm devcgroup ex
      else devExceptionAdd devcgroup ex
    .ok (propagateException devcgroup ex children)
  | .list => .error .einval

/-- `devcgroup_update_access`, on the cgroup at the top of a tree. -/
def devcgroupUpdateAccess (capable : Bool) (filetype : FileType) (buffer : List Char)
    (parent : Option DevCgroup) : Rose DevCgroup → Except Errno (Rose DevCgroup)
  | .node devcgroup children =>
    if capable then do
      match ← readRule buffer with
      | .all => updateAll parent devcgroup children filetype
      | .exception ex => updateException parent devcgroup children ex filetype
    else .error .eperm

/-- A new cgroup goes online below the one at the top of a tree. -/
def addChild : Rose DevCgroup → Rose DevCgroup
  | .node devcgroup children =>
    .node devcgroup (children ++ [.node (devcgroupOnline (some devcgroup)) []])

/-- What happens at the cgroup that a path leads to. -/
inductive Event where
  | online (path : List Nat)
  | write (path : List Nat) (capable : Bool) (filetype : FileType) (buffer : List Char)

def step (tree : Rose DevCgroup) : Event → Except Errno (Rose DevCgroup)
  | .online path => tree.editAt (fun _ tree => .ok (addChild tree)) .enoent none path
  | .write path capable filetype buffer =>
    tree.editAt (devcgroupUpdateAccess capable filetype buffer) .enoent none path

/-- The root cgroup alone. -/
def root : Rose DevCgroup := .node (devcgroupOnline none) []

end TinyKernel.Devcg
