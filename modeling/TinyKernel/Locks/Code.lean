import Mathlib.Algebra.Group.Int.Defs
import TinyKernel.Lib.Results

/-! The POSIX record locks of `fs/locks.c`. An inode's `i_flock` is a list of locks in which each
structure is named by its address; a pointer to a lock of the list is that name. -/

namespace TinyKernel.Locks

inductive LockType where
  | read
  | write
  | unlock
  deriving DecidableEq, Repr

abbrev Id := Nat

def offsetMax : Int := 2 ^ 63 - 1

/-- `struct file_lock`. What `posix_same_owner` compares is one value, the owner. -/
structure FileLock (Owner : Type) where
  id : Id
  posix : Bool
  ofd : Bool
  owner : Owner
  type : LockType
  start : Int
  last : Int
  deriving DecidableEq, Repr

/-- The flags of a request besides those of the lock it asks for. -/
structure Flags where
  sleep : Bool
  access : Bool
  exist : Bool
  deriving DecidableEq, Repr

inductive Status where
  | ok
  | again
  | deadlock
  | deferred
  | noLock
  | noEntry
  deriving DecidableEq, Repr

/-- A blocked request and the lock that it waits for. -/
structure Waiter (Owner : Type) where
  request : FileLock Owner
  blocker : FileLock Owner
  deriving DecidableEq, Repr

variable {Owner : Type} [DecidableEq Owner]

def posixSameOwner (fl1 fl2 : FileLock Owner) : Bool := fl1.owner = fl2.owner

def locksOverlap (fl1 fl2 : FileLock Owner) : Bool := fl1.last ≥ fl2.start ∧ fl2.last ≥ fl1.start

def locksConflict (caller sys : FileLock Owner) : Bool := sys.type = .write ∨ caller.type = .write

def posixLocksConflict (caller sys : FileLock Owner) : Bool :=
  if !sys.posix || posixSameOwner caller sys then false
  else if !locksOverlap caller sys then false
  else locksConflict caller sys

def maxDeadlkIterations : Nat := 10

/-- The entries of `blocked_hash`, the newest first. -/
def inBlockedHash (waiter : Waiter Owner) : Bool := waiter.blocker.posix && !waiter.blocker.ofd

/-- The lock that the owner of `block` is waiting for. -/
def whatOwnerIsWaitingFor (waiters : List (Waiter Owner)) (block : FileLock Owner) :
    Option (FileLock Owner) :=
  (waiters.find? fun waiter => inBlockedHash waiter && posixSameOwner waiter.request block).map
    Waiter.blocker

/-- The `while` of `posix_locks_deadlock`, with the number of locks it still looks at. -/
def deadlockLoop (waiters : List (Waiter Owner)) (caller : FileLock Owner) :
    Nat → FileLock Owner → Bool
  | 0, _ => false
  | more + 1, block =>
    match whatOwnerIsWaitingFor waiters block with
    | none => false
    | some next =>
      if posixSameOwner caller next then true else deadlockLoop waiters caller more next

def posixLocksDeadlock (waiters : List (Waiter Owner)) (caller block : FileLock Owner) : Bool :=
  if caller.ofd then false else deadlockLoop waiters caller (maxDeadlkIterations + 1) block

/-- The state of the walk over the locks of one owner: the locks up to `before`, those from there
on, and the local variables. -/
structure Walk (Owner : Type) where
  passed : List (FileLock Owner)
  rest : List (FileLock Owner)
  request : FileLock Owner
  added : Bool
  left : Option Id
  right : Option (FileLock Owner)
  newFl : Option Id
  woken : List Id
  noLock : Bool

/-- A write through a pointer to a lock. -/
def modify (id : Id) (change : FileLock Owner → FileLock Owner) (locks : List (FileLock Owner)) :
    List (FileLock Owner) :=
  locks.map fun fl => if fl.id = id then change fl else fl

def store (lock : FileLock Owner) (locks : List (FileLock Owner)) : List (FileLock Owner) :=
  modify lock.id (fun fl => { fl with start := lock.start, last := lock.last }) locks

def setStart (id : Id) (start : Int) (locks : List (FileLock Owner)) : List (FileLock Owner) :=
  modify id (fun fl => { fl with start }) locks

def setLast (id : Id) (last : Int) (locks : List (FileLock Owner)) : List (FileLock Owner) :=
  modify id (fun fl => { fl with last }) locks

/-- The loop that processes the locks with the request's owner. -/
def walk (s : Walk Owner) : List (FileLock Owner) → Walk Owner
  | [] => { s with rest := [] }
  | fl :: rest =>
    if !posixSameOwner s.request fl then { s with rest := fl :: rest }
    else if s.request.type = fl.type then
      if fl.last < s.request.start - 1 then walk { s with passed := s.passed ++ [fl] } rest
      else if fl.start - 1 > s.request.last then { s with rest := fl :: rest }
      else
        let start := min fl.start s.request.start
        let last := max fl.last s.request.last
        if s.added then
          let request := { s.request with start, last }
          walk { s with
            passed := store request s.passed, request, woken := s.woken ++ [fl.id] } rest
        else
          let fl := { fl with start, last }
          walk { s with passed := s.passed ++ [fl], request := fl, added := true } rest
    else if fl.last < s.request.start then walk { s with passed := s.passed ++ [fl] } rest
    else if fl.start > s.request.last then { s with rest := fl :: rest }
    else
      let added := s.added || s.request.type = .unlock
      let left := if fl.start < s.request.start then some fl.id else s.left
      if fl.last > s.request.last then
        { s with rest := fl :: rest, added, left, right := some fl }
      else if fl.start ≥ s.request.start then
        if added then walk { s with added, left, woken := s.woken ++ [fl.id] } rest
        else
          match s.newFl with
          | none => { s with rest := fl :: rest, noLock := true }
          | some id =>
            let request := { s.request with id }
            -- `before` now points into the lock just unlinked, which has no successor: the loop
            -- ends
            { s with
              passed := s.passed ++ [request], rest, request, added := true, left, newFl := none,
              woken := s.woken ++ [fl.id] }
      else walk { s with passed := s.passed ++ [fl], added, left } rest

/-- What a call returns and leaves behind. -/
structure Outcome (Owner : Type) where
  status : Status
  locks : List (FileLock Owner)
  woken : List Id
  blocker : Option (FileLock Owner)
  conflock : Option (FileLock Owner)

/-- `left->fl_end = request->fl_start - 1`, if there is a lock to the left. -/
def cutLeft (left : Option Id) (last : Int) (locks : List (FileLock Owner)) :
    List (FileLock Owner) :=
  match left with
  | none => locks
  | some left => setLast left last locks

/-- The part after the loop. -/
def settle (s : Walk Owner) (exist : Bool) (newFl2 : Option Id) : Outcome Owner :=
  let out (status : Status) : Outcome Owner := ⟨status, s.passed ++ s.rest, s.woken, none, none⟩
  if s.noLock then out .noLock
  else if s.right.isSome ∧ s.left = s.right.map FileLock.id ∧ newFl2 = none then out .noLock
  else if !s.added ∧ s.request.type = .unlock then out (if exist then .noEntry else .ok)
  else if !s.added ∧ s.newFl = none then out .noLock
  else
    let rest := if s.added then s.rest
      else (s.newFl.map fun id => { s.request with id }).toList ++ s.rest
    match s.right with
    | none =>
      ⟨.ok, cutLeft s.left (s.request.start - 1) (s.passed ++ rest), s.woken ++
        s.left.toList, none, none⟩
    | some right =>
      let (left, rest) := if s.left = some right.id then
          (newFl2, (newFl2.map fun id => { right with id }).toList ++ rest)
        else (s.left, rest)
      let locks := setStart right.id (s.request.last + 1) (s.passed ++ rest)
      ⟨.ok, cutLeft left (s.request.start - 1) locks, s.woken ++ right.id ::
        left.toList, none, none⟩

/-- `__posix_lock_file`; the last two arguments are what `locks_alloc_lock` gives, if asked. -/
def posixLockFile (waiters : List (Waiter Owner)) (locks : List (FileLock Owner))
    (request : FileLock Owner) (flags : Flags) (alloc alloc2 : Option Id) : Outcome Owner :=
  let needed : Bool := !flags.access ∧
    (request.type ≠ .unlock ∨ request.start ≠ 0 ∨ request.last ≠ offsetMax)
  let newFl := if needed then alloc else none
  let newFl2 := if needed then alloc2 else none
  let blocked := if request.type = .unlock then none
    else locks.find? (posixLocksConflict request)
  match blocked with
  | some fl =>
    if !flags.sleep then ⟨.again, locks, [], none, some fl⟩
    else if posixLocksDeadlock waiters request fl then ⟨.deadlock, locks, [], none, some fl⟩
    else ⟨.deferred, locks, [], some fl, some fl⟩
  | none =>
    if flags.access then ⟨.ok, locks, [], none, none⟩
    else
      let other (fl : FileLock Owner) : Bool := !fl.posix || !posixSameOwner request fl
      let start : Walk Owner :=
        ⟨locks.takeWhile other, [], request, false, none, none, newFl, [], false⟩
      settle (walk start (locks.dropWhile other)) flags.exist newFl2

end TinyKernel.Locks
