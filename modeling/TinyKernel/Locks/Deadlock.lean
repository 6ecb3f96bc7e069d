import Mathlib.Data.List.Nodup
import Mathlib.Tactic.Ring
import TinyKernel.Lib.Steps
import TinyKernel.Locks.Walk

/-! Blocked requests on many files, and the search for cycles among them. -/

namespace TinyKernel.Locks

open Lib List Function
open Option hiding map_map

variable {File Owner : Type} [DecidableEq File] [DecidableEq Owner]

/-- The lists of all inodes and `blocked_hash`. -/
structure System (File Owner : Type) where
  locks : File → List (FileLock Owner)
  waiters : List (Waiter Owner)

/-- A call, or the end of a wait for any reason. The waits that a call ends one by one while calls
on other files go on are events of their own before it. -/
inductive Event (File Owner : Type) where
  | lock (file : File) (request : FileLock Owner) (flags : Flags) (alloc alloc2 : Option Id)
  | unblock (waiter : Id)

namespace System

variable (s : System File Owner)

/-- A call on a file: a blocked request joins the waiters, the locks that were deleted or have
shrunk lose theirs. -/
def lock (file : File) (request : FileLock Owner) (flags : Flags) (alloc alloc2 : Option Id) :
    System File Owner :=
  let out := posixLockFile s.waiters (s.locks file) request flags alloc alloc2
  { locks := update s.locks file out.locks
    waiters := (out.blocker.map (Waiter.mk request)).toList ++
      s.waiters.filter fun waiter => waiter.blocker.id ∉ out.woken }

def step : Event File Owner → System File Owner
  | .lock file request flags alloc alloc2 => s.lock file request flags alloc alloc2
  | .unblock id => { s with waiters := s.waiters.filter fun waiter => waiter.request.id ≠ id }

def run (events : List (Event File Owner)) : System File Owner := events.foldl step s

/-- The owner waits for a lock of the other one. -/
def WaitsFor (owner other : Owner) : Prop :=
  ∃ waiter ∈ s.waiters, waiter.request.owner = owner ∧ waiter.blocker.owner = other

/-- Each owner waits for at most one lock. -/
def OneWait : Prop := (s.waiters.map fun waiter => waiter.request.owner).Nodup

instance : Decidable s.OneWait := inferInstanceAs (Decidable (Nodup _))

end System

/-- A request for a lock that is not an open file description's. -/
def Event.Classic : Event File Owner → Prop
  | .lock _ request _ _ _ => request.ofd = false
  | .unblock _ => True

instance (event : Event File Owner) : Decidable event.Classic :=
  match event with
  | .lock _ request _ _ _ => inferInstanceAs (Decidable (request.ofd = false))
  | .unblock _ => .isTrue trivial

/-- All of the events are about classic locks, and no owner waits twice. -/
def Runs : System File Owner → List (Event File Owner) → Prop
  | _, [] => True
  | s, event :: events => event.Classic ∧ (s.step event).OneWait ∧ Runs (s.step event) events

instance decidableRuns :
    (s : System File Owner) → (events : List (Event File Owner)) → Decidable (Runs s events)
  | _, [] => .isTrue trivial
  | s, event :: events =>
    have := decidableRuns (s.step event) events
    inferInstanceAs
      (Decidable (event.Classic ∧ (s.step event).OneWait ∧ Runs (s.step event) events))

section

/-- What never changes about a lock. -/
def kind (fl : FileLock Owner) : Owner × Bool × Bool := (fl.owner, fl.posix, fl.ofd)

def tag (fl : FileLock Owner) : Id × Owner × Bool × Bool := (fl.id, kind fl)

omit [DecidableEq Owner] in
theorem tag_modify {id : Id} {change : FileLock Owner → FileLock Owner}
    {locks : List (FileLock Owner)} (same : ∀ fl, tag (change fl) = tag fl) :
    (modify id change locks).map tag = locks.map tag := by
  rw [modify, map_map]
  refine map_congr_left fun fl _ => ?_
  simp only [comp]
  split
  · exact same fl
  rfl

omit [DecidableEq Owner] in
@[simp] theorem tag_store {lock : FileLock Owner} {locks : List (FileLock Owner)} :
    (store lock locks).map tag = locks.map tag := tag_modify fun _ => rfl

/-- The locks that the walk does not delete stay in the list. -/
theorem walk_keeps (s : Walk Owner) (l : List (FileLock Owner)) :
    s.woken ⊆ (walk s l).woken ∧
      ∀ t ∈ (s.passed ++ l).map tag, t.1 ∈ (walk s l).woken ∨
        t ∈ ((walk s l).passed ++ (walk s l).rest).map tag := by
  fun_induction walk s l with
  | case1 | case2 | case4 | case8 | case9 | case11 =>
    exact ⟨fun _ mem => mem, fun t mem => .inr mem⟩
  | case3 _ _ _ _ _ _ ih | case7 _ _ _ _ _ _ ih | case13 _ _ _ _ _ _ _ _ _ _ _ ih =>
    refine ⟨ih.1, fun t mem => ih.2 t ?_⟩
    simpa using mem
  | case6 s fl rest _ _ _ _ _ _ _ _ ih =>
    refine ⟨ih.1, fun t mem => ih.2 t ?_⟩
    simpa [tag, kind] using mem
  | case5 s fl rest _ _ _ _ _ _ _ _ ih =>
    obtain ⟨sub, keeps⟩ := ih
    refine ⟨fun id mem => sub (mem_append_left _ mem), fun t mem => ?_⟩
    simp only [map_append, map_cons, mem_append, mem_cons] at mem
    rcases mem with inPassed | rfl | inRest
    · exact keeps t (by rw [map_append, tag_store]; exact mem_append_left _ inPassed)
    · exact .inl (sub (by simp [tag]))
    exact keeps t (by rw [map_append]; exact mem_append_right _ inRest)
  | case10 s fl rest _ _ _ _ _ _ _ _ _ ih =>
    obtain ⟨sub, keeps⟩ := ih
    refine ⟨fun id mem => sub (mem_append_left _ mem), fun t mem => ?_⟩
    simp only [map_append, map_cons, mem_append, mem_cons] at mem
    rcases mem with inPassed | rfl | inRest
    · exact keeps t (by rw [map_append]; exact mem_append_left _ inPassed)
    · exact .inl (sub (by simp [tag]))
    exact keeps t (by rw [map_append]; exact mem_append_right _ inRest)
  | case12 s fl rest _ _ _ _ _ _ _ _ id _ => ?_
  refine ⟨fun id mem => mem_append_left _ mem, fun t mem => ?_⟩
  simp only [map_append, map_cons, mem_append, mem_cons] at mem ⊢
  rcases mem with inPassed | rfl | inRest
  · exact .inr (.inl (.inl inPassed))
  · exact .inl (by simp [tag])
  exact .inr (.inr inRest)

omit [DecidableEq Owner] in
theorem map_kind {x y : List (FileLock Owner)} (same : x.map tag = y.map tag) :
    x.map kind = y.map kind := by
  have second := congrArg (map Prod.snd) same
  simpa [tag, comp_def] using second

/-- Every lock and every copy that the walk has at hand is like one of these. -/
def kinds (s : Walk Owner) : List (Owner × Bool × Bool) :=
  kind s.request :: (s.right.toList ++ (s.passed ++ s.rest)).map kind

theorem kinds_walk (s : Walk Owner) (l : List (FileLock Owner)) :
    ∀ k ∈ kinds (walk s l), k ∈ kinds { s with rest := l } := by
  fun_induction walk s l with
  | case1 | case2 | case4 | case8 | case11 => exact fun _ mem => mem
  | case9 s fl rest =>
    intro k mem
    simp only [kinds, toList_some, map_append, map_cons, mem_cons, mem_append] at mem ⊢
    tauto
  | case3 _ _ _ _ _ _ ih | case7 _ _ _ _ _ _ ih | case13 _ _ _ _ _ _ _ _ _ _ _ ih =>
    intro k mem
    simpa [kinds] using ih k mem
  | case6 s fl rest _ _ _ _ _ _ _ _ ih =>
    intro k mem
    have := ih k mem
    simp only [kinds, map_append, map_cons, mem_cons, mem_append] at this ⊢
    tauto
  | case5 s fl rest _ _ _ _ _ _ _ _ ih =>
    intro k mem
    have := ih k mem
    simp only [kinds, map_append, map_cons, mem_cons, mem_append, map_kind tag_store] at this ⊢
    tauto
  | case10 s fl rest _ _ _ _ _ _ _ _ _ ih =>
    intro k mem
    have := ih k mem
    simp only [kinds, map_append, map_cons, mem_cons, mem_append] at this ⊢
    tauto
  | case12 s fl rest _ _ _ _ _ _ _ _ id _ => ?_
  intro k mem
  simp only [kinds, map_append, map_cons, mem_cons, mem_append] at mem ⊢
  tauto

omit [DecidableEq Owner] in
@[simp] theorem tag_setStart {id : Id} {start : Int} {locks : List (FileLock Owner)} :
    (setStart id start locks).map tag = locks.map tag := tag_modify fun _ => rfl

omit [DecidableEq Owner] in
@[simp] theorem tag_cutLeft {left : Option Id} {last : Int} {locks : List (FileLock Owner)} :
    (cutLeft left last locks).map tag = locks.map tag := by
  cases left with
  | none => rfl
  | some left => exact tag_modify fun _ => rfl

omit [DecidableEq Owner] in
theorem settle_blocker (s : Walk Owner) (exist : Bool) (newFl2 : Option Id) :
    (settle s exist newFl2).blocker = none := by
  unfold settle
  dsimp only
  split
  · rfl
  split
  · rfl
  split
  · rfl
  split
  · rfl
  split
  · rfl
  rfl

omit [DecidableEq Owner] in
/-- The part after the loop deletes nothing. -/
theorem settle_keeps (s : Walk Owner) (exist : Bool) (newFl2 : Option Id) :
    s.woken ⊆ (settle s exist newFl2).woken ∧
      (s.passed ++ s.rest).map tag ⊆ (settle s exist newFl2).locks.map tag ∧
      ∀ k ∈ (settle s exist newFl2).locks.map kind, k ∈ kinds s := by
  have plain : ∀ k ∈ (s.passed ++ s.rest).map kind, k ∈ kinds s := by
    intro k mem
    simp only [kinds, map_append, mem_cons, mem_append] at mem ⊢
    tauto
  -- the locks behind the walk, with the request in front of them unless it is there already
  have behind : s.rest.map tag ⊆ (if s.added then s.rest
      else (s.newFl.map fun id => { s.request with id }).toList ++ s.rest).map tag := by
    split
    · exact fun _ mem => mem
    simp
  have known : ∀ k ∈ (if s.added then s.rest
      else (s.newFl.map fun id => { s.request with id }).toList ++ s.rest).map kind,
      k ∈ kinds s := by
    intro k mem
    split at mem
    · exact plain k (by simp [mem])
    rw [map_append, mem_append] at mem
    rcases mem with isNew | inRest
    · obtain ⟨fl, inOption, rfl⟩ := mem_map.mp isNew
      obtain ⟨id, _, rfl⟩ := map_eq_some_iff.mp (mem_toList.mp inOption)
      exact .head _
    exact plain k (by simp only [map_append, mem_append]; exact .inr inRest)
  unfold settle
  generalize (if s.added then s.rest
    else (s.newFl.map fun id => { s.request with id }).toList ++ s.rest) = rest at behind known ⊢
  have unchanged (status : Status) :
      s.woken ⊆ (⟨status, s.passed ++ s.rest, s.woken, none, none⟩ : Outcome Owner).woken ∧
      (s.passed ++ s.rest).map tag ⊆ (s.passed ++ s.rest).map tag ∧
      ∀ k ∈ (s.passed ++ s.rest).map kind, k ∈ kinds s :=
    ⟨fun _ mem => mem, fun _ mem => mem, plain⟩
  have front (k : Owner × Bool × Bool) (mem : k ∈ s.passed.map kind) : k ∈ kinds s :=
    plain k (by rw [map_append]; exact mem_append_left _ mem)
  split
  · exact unchanged _
  split
  · exact unchanged _
  split
  · exact unchanged _
  split
  · exact unchanged _
  cases isRight : s.right with
  | none =>
    refine ⟨subset_append_left .., ?_, fun k mem => ?_⟩
    · rw [tag_cutLeft, map_append, map_append]
      exact append_subset.mpr ⟨subset_append_left .., subset_append_of_subset_right _ behind⟩
    rw [map_kind tag_cutLeft, map_append] at mem
    exact (mem_append.mp mem).elim (front k) (known k)
  | some right => ?_
  -- the second new lock is a copy of the one that is cut in two
  have more : ∃ left new, (if s.left = some right.id then
      (newFl2, (newFl2.map fun id => { right with id }).toList ++ rest) else (s.left, rest)) =
      (left, new ++ rest) ∧ ∀ k ∈ new.map kind, k ∈ kinds s := by
    split
    · refine ⟨newFl2, _, rfl, fun k mem => ?_⟩
      obtain ⟨fl, inOption, rfl⟩ := mem_map.mp mem
      obtain ⟨id, _, rfl⟩ := map_eq_some_iff.mp (mem_toList.mp inOption)
      simp [kinds, isRight, kind]
    exact ⟨s.left, [], rfl, by simp⟩
  obtain ⟨left, new, same, fromRight⟩ := more
  simp only [same]
  refine ⟨subset_append_left .., ?_, fun k mem => ?_⟩
  · rw [tag_cutLeft, tag_setStart, map_append, map_append, map_append]
    exact append_subset.mpr ⟨subset_append_left .., subset_append_of_subset_right _
      (subset_append_of_subset_right _ behind)⟩
  rw [map_kind tag_cutLeft, map_kind tag_setStart, map_append, map_append] at mem
  rcases mem_append.mp mem with inPassed | mem
  · exact front k inPassed
  exact (mem_append.mp mem).elim (fromRight k) (known k)

variable (waiters : List (Waiter Owner)) (locks : List (FileLock Owner)) (req : FileLock Owner)
variable (flags : Flags) (alloc alloc2 : Option Id)

/-- What a call can do to the waiters: it adds one that closes no cycle it can see, or ends some. -/
theorem posixLockFile_blocks :
    ((posixLockFile waiters locks req flags alloc alloc2).blocker = none) ∨
      ∃ fl ∈ locks, (posixLockFile waiters locks req flags alloc alloc2).blocker = some fl ∧
        (posixLockFile waiters locks req flags alloc alloc2).woken = [] ∧
        (posixLockFile waiters locks req flags alloc alloc2).locks = locks ∧
        posixLocksConflict req fl = true ∧ posixLocksDeadlock waiters req fl = false := by
  unfold posixLockFile
  generalize isBlocked : (if req.type = .unlock then none
    else locks.find? (posixLocksConflict req)) = blocked
  cases blocked with
  | some fl =>
    dsimp only
    split
    · exact .inl rfl
    split
    · exact .inl rfl
    rename_i noDeadlock
    split at isBlocked
    · cases isBlocked
    exact .inr ⟨fl, mem_of_find?_eq_some isBlocked, rfl, rfl, rfl, find?_some isBlocked,
      by simpa using noDeadlock⟩
  | none => ?_
  dsimp only
  split
  · exact .inl rfl
  exact .inl (settle_blocker ..)

theorem settle_walk_keeps (other : FileLock Owner → Bool) (newFl newFl2 : Option Id)
    (exist : Bool) :
    let out := settle (walk ⟨locks.takeWhile other, [], req, false, none, none, newFl, [], false⟩
      (locks.dropWhile other)) exist newFl2
    (∀ fl ∈ locks, fl.id ∈ out.woken ∨ tag fl ∈ out.locks.map tag) ∧
      ∀ fl ∈ out.locks, kind fl = kind req ∨ kind fl ∈ locks.map kind := by
  intro out
  obtain ⟨_, kept⟩ := walk_keeps
    ⟨locks.takeWhile other, [], req, false, none, none, newFl, [], false⟩ (locks.dropWhile other)
  obtain ⟨wokenMore, tags, known⟩ := settle_keeps (walk
    ⟨locks.takeWhile other, [], req, false, none, none, newFl, [], false⟩ (locks.dropWhile other))
    exist newFl2
  simp only [takeWhile_append_dropWhile] at kept
  refine ⟨fun fl mem => ?_, fun fl mem => ?_⟩
  · rcases kept (tag fl) (mem_map_of_mem mem) with woken | inList
    · exact .inl (wokenMore woken)
    exact .inr (tags inList)
  have inKinds := kinds_walk _ _ _ (known (kind fl) (mem_map_of_mem mem))
  simp only [kinds, toList_none, nil_append, takeWhile_append_dropWhile, mem_cons] at inKinds
  exact inKinds

/-- A lock stays in the list with its owner, or its waiters are woken. -/
theorem posixLockFile_keeps :
    (∀ fl ∈ locks, fl.id ∈ (posixLockFile waiters locks req flags alloc alloc2).woken ∨
        tag fl ∈ (posixLockFile waiters locks req flags alloc alloc2).locks.map tag) ∧
      ∀ fl ∈ (posixLockFile waiters locks req flags alloc alloc2).locks, kind fl = kind req ∨
        kind fl ∈ locks.map kind := by
  have same : (∀ fl ∈ locks, fl.id ∈ ([] : List Id) ∨ tag fl ∈ locks.map tag) ∧
      ∀ fl ∈ locks, kind fl = kind req ∨ kind fl ∈ locks.map kind :=
    ⟨fun fl mem => .inr (mem_map_of_mem mem), fun fl mem => .inr (mem_map_of_mem mem)⟩
  unfold posixLockFile
  dsimp only
  split
  · split
    · exact same
    split
    · exact same
    exact same
  split
  · exact same
  exact settle_walk_keeps ..

end

section

variable {waiters : List (Waiter Owner)}

/-- The search finds the one wait of an owner. -/
theorem whatOwnerIsWaitingFor_of_mem {waiter : Waiter Owner} {block : FileLock Owner}
    (hashed : ∀ waiter ∈ waiters, inBlockedHash waiter = true)
    (once : (waiters.map fun waiter => waiter.request.owner).Nodup) (mem : waiter ∈ waiters)
    (isOwner : waiter.request.owner = block.owner) :
    whatOwnerIsWaitingFor waiters block = some waiter.blocker := by
  rw [whatOwnerIsWaitingFor, map_eq_some_iff]
  cases found : waiters.find? fun waiter =>
      inBlockedHash waiter && posixSameOwner waiter.request block with
  | none =>
    have := find?_eq_none.mp found waiter mem
    simp [hashed waiter mem, posixSameOwner, isOwner] at this
  | some first =>
    have same := find?_some found
    simp only [posixSameOwner, Bool.and_eq_true, decide_eq_true_eq] at same
    have inList := mem_of_find?_eq_some found
    exact ⟨first, rfl,
      congrArg Waiter.blocker (inj_on_of_nodup_map once inList mem (same.2.trans isOwner.symm))⟩

omit [DecidableEq File] in
/-- A path back to the caller that is not too long is found. -/
theorem deadlockLoop_of_steps {caller block : FileLock Owner} {s : System File Owner} {more m : Nat}
    (hashed : ∀ waiter ∈ s.waiters, inBlockedHash waiter = true) (once : s.OneWait)
    (steps : Steps s.WaitsFor (m + 1) block.owner caller.owner) (enough : m < more) :
    deadlockLoop s.waiters caller more block = true := by
  induction m generalizing block more with
  | zero =>
    obtain ⟨more, rfl⟩ := Nat.exists_eq_succ_of_ne_zero (by omega : more ≠ 0)
    obtain ⟨_, ⟨waiter, mem, isOwner, rfl⟩, isCaller⟩ := steps
    have same : posixSameOwner caller waiter.blocker = true := decide_eq_true isCaller.symm
    simp [deadlockLoop, whatOwnerIsWaitingFor_of_mem hashed once mem isOwner, same]
  | succ m ih => ?_
  obtain ⟨more, rfl⟩ := Nat.exists_eq_succ_of_ne_zero (by omega : more ≠ 0)
  obtain ⟨_, ⟨waiter, mem, isOwner, rfl⟩, rest⟩ := steps
  have goesOn : deadlockLoop s.waiters caller more waiter.blocker = true := ih rest (by omega)
  simp [deadlockLoop, whatOwnerIsWaitingFor_of_mem hashed once mem isOwner, goesOn]

end

section

variable {s : System File Owner}

/-- What is so between events. The lock that a request waits for is still in a list, and no cycle is
short enough for the search to see. -/
structure Watched (s : System File Owner) : Prop where
  classic : ∀ file, ∀ fl ∈ s.locks file, fl.ofd = false
  hashed : ∀ waiter ∈ s.waiters, inBlockedHash waiter = true
  listed : ∀ waiter ∈ s.waiters, ∃ file, tag waiter.blocker ∈ (s.locks file).map tag
  acyclic : ∀ owner n, 0 < n → n ≤ maxDeadlkIterations + 2 → ¬ Steps s.WaitsFor n owner owner

omit [DecidableEq File] [DecidableEq Owner] in
/-- Waits that end close no cycle. -/
theorem Watched.fewer (watched : Watched s) {waiters : List (Waiter Owner)}
    (sub : waiters ⊆ s.waiters) : Watched { s with waiters } where
  classic := watched.classic
  hashed := fun waiter mem => watched.hashed waiter (sub mem)
  listed := fun waiter mem => watched.listed waiter (sub mem)
  acyclic := fun owner n pos short cycle => by
    refine watched.acyclic owner n pos short (cycle.mono ?_)
    rintro x y ⟨waiter, mem, ends⟩
    exact ⟨waiter, sub mem, ends⟩

omit [DecidableEq File] in
/-- A wait begins only after the search. -/
theorem Watched.more (watched : Watched s) (once : s.OneWait) {request fl : FileLock Owner}
    (isClassic : request.ofd = false) {file : File} (inList : fl ∈ s.locks file)
    (conflict : posixLocksConflict request fl = true)
    (unseen : posixLocksDeadlock s.waiters request fl = false) :
    Watched { s with waiters := ⟨request, fl⟩ :: s.waiters } := by
  obtain ⟨isPosix, ne⟩ : fl.posix = true ∧ request.owner ≠ fl.owner := by
    rw [posixLocksConflict] at conflict
    split at conflict
    · cases conflict
    rename_i known
    simpa [posixSameOwner] using known
  refine ⟨watched.classic, ?_, ?_, ?_⟩
  · intro waiter mem
    rcases mem_cons.mp mem with rfl | mem
    · simp [inBlockedHash, isPosix, watched.classic file fl inList]
    exact watched.hashed waiter mem
  · intro waiter mem
    rcases mem_cons.mp mem with rfl | mem
    · exact ⟨file, mem_map_of_mem inList⟩
    exact watched.listed waiter mem
  intro owner n pos short cycle
  have added : Steps (Added s.WaitsFor request.owner fl.owner) n owner owner := by
    refine cycle.mono ?_
    rintro x y ⟨waiter, mem, isX, isY⟩
    rcases mem_cons.mp mem with rfl | mem
    · exact .inr ⟨isX.symm, isY.symm⟩
    exact .inl ⟨waiter, mem, isX, isY⟩
  obtain ⟨m, less, back⟩ := added.closes (watched.acyclic owner n pos short)
  cases m with
  | zero => exact ne back.symm
  | succ m => ?_
  have seen : deadlockLoop s.waiters request (maxDeadlkIterations + 1) fl = true :=
    deadlockLoop_of_steps watched.hashed once back (by omega)
  simp [posixLocksDeadlock, isClassic, seen] at unseen

omit [DecidableEq Owner] in
/-- The locks of a file change, and the waiters of those deleted are woken. -/
theorem Watched.exchange (watched : Watched s) {file : File} {locks : List (FileLock Owner)}
    {woken : List Id} {request : FileLock Owner} (isClassic : request.ofd = false)
    (keeps : ∀ fl ∈ s.locks file, fl.id ∈ woken ∨ tag fl ∈ locks.map tag)
    (likes : ∀ fl ∈ locks, kind fl = kind request ∨ kind fl ∈ (s.locks file).map kind) :
    Watched { locks := update s.locks file locks
              waiters := s.waiters.filter fun waiter => waiter.blocker.id ∉ woken } := by
  have fewer : (s.waiters.filter fun waiter => waiter.blocker.id ∉ woken) ⊆ s.waiters :=
    filter_sublist.subset
  refine ⟨fun other fl mem => ?_, fun waiter mem => watched.hashed waiter (fewer mem),
    fun waiter mem => ?_, (watched.fewer fewer).acyclic⟩
  · by_cases same : other = file
    · subst same
      simp only [update_self] at mem
      rcases likes fl mem with like | like
      · exact (congrArg (fun k => k.2.2) like).trans isClassic
      obtain ⟨old, inList, like⟩ := mem_map.mp like
      exact (congrArg (fun k => k.2.2) like).symm.trans (watched.classic other old inList)
    simp only [update_of_ne same] at mem
    exact watched.classic other fl mem
  obtain ⟨other, inList⟩ := watched.listed waiter (fewer mem)
  refine ⟨other, ?_⟩
  by_cases same : other = file
  · subst same
    simp only [update_self]
    have notWoken : waiter.blocker.id ∉ woken := by simpa using (mem_filter.mp mem).2
    obtain ⟨old, wasIn, like⟩ := mem_map.mp inList
    have sameId : old.id = waiter.blocker.id := congrArg Prod.fst like
    rcases keeps old wasIn with isWoken | stays
    · exact absurd (sameId ▸ isWoken) notWoken
    exact like ▸ stays
  simp only [update_of_ne same]
  exact inList

theorem Watched.step (watched : Watched s) (once : s.OneWait) (isClassic : event.Classic) :
    Watched (s.step event) := by
  cases event with
  | unblock id => exact watched.fewer filter_sublist.subset
  | lock file request flags alloc alloc2 => ?_
  have cases := posixLockFile_blocks s.waiters (s.locks file) request flags alloc alloc2
  have keeps := posixLockFile_keeps s.waiters (s.locks file) request flags alloc alloc2
  rw [System.step, System.lock]
  rcases cases with none | ⟨fl, inList, isBlocked, noneWoken, same, conflict, unseen⟩
  · rw [none]
    exact watched.exchange isClassic keeps.1 keeps.2
  rw [isBlocked, noneWoken, same, update_eq_self]
  simpa using watched.more once isClassic inList conflict unseen

/-- Whatever events follow each other, the invariant holds. -/
theorem Watched.run (watched : Watched s) (once : s.OneWait) (runs : Runs s events) :
    Watched (s.run events) := by
  induction events generalizing s with
  | nil => exact watched
  | cons event events ih => ?_
  obtain ⟨isClassic, onceMore, rest⟩ := runs
  exact ih (watched.step once isClassic) onceMore rest

/-- Owner `i` locks byte `i`, then everyone asks for the next byte. -/
def ring (size : Nat) : List (Event Unit Nat) :=
  ((range size).map fun i =>
    .lock () ⟨i, true, false, i, .write, i, i⟩ ⟨true, false, false⟩ (some (100 + i))
      (some (200 + i))) ++
  (range size).map fun i =>
    .lock () ⟨i, true, false, i, .write, ((i + 1) % size : Nat), ((i + 1) % size : Nat)⟩
      ⟨true, false, false⟩ (some (300 + i)) (some (400 + i))

/-- Owners that wait for each other in a circle are too many for the search to come around. -/
theorem no_short_wait_cycle {events : List (Event File Owner)} (idle : s.waiters = [])
    (classic : ∀ file, ∀ fl ∈ s.locks file, fl.ofd = false) (runs : Runs s events) (owner : Owner)
    (n : Nat) (positive : 0 < n) (short : n ≤ maxDeadlkIterations + 2) :
    ¬ Steps (s.run events).WaitsFor n owner owner := by
  have once : s.OneWait := by simp [System.OneWait, idle]
  have watched : Watched s := by
    refine ⟨classic, by simp [idle], by simp [idle], fun owner n positive _ cycle => ?_⟩
    obtain ⟨n, rfl⟩ := Nat.exists_eq_succ_of_ne_zero (Nat.pos_iff_ne_zero.mp positive)
    obtain ⟨_, ⟨waiter, member, _⟩, _⟩ := cycle
    simp [idle] at member
  exact (watched.run once runs).acyclic owner n positive short

/-- The last of three owners is refused. -/
theorem no_short_wait_cycle_three :
    Runs ⟨fun _ => [], []⟩ (ring 3) ∧
      ¬ Steps ((⟨fun _ => [], []⟩ : System Unit Nat).run (ring 3)).WaitsFor 3 0 0 :=
  ⟨by decide, no_short_wait_cycle rfl (by simp) (by decide) 0 3 (by decide) (by decide)⟩

/-- The search gives up before it comes around. -/
theorem thirteen_wait_in_circle :
    Runs ⟨fun _ => [], []⟩ (ring 13) ∧
      Steps ((⟨fun _ => [], []⟩ : System Unit Nat).run (ring 13)).WaitsFor 13 0 0 := by
  have pairs : ((⟨fun _ => [], []⟩ : System Unit Nat).run (ring 13)).waiters.map
      (fun waiter => (waiter.request.owner, waiter.blocker.owner)) =
      (range 13).reverse.map fun i => (i, (i + 1) % 13) := by decide
  have waits (i : Nat) (less : i < 13) :
      ((⟨fun _ => [], []⟩ : System Unit Nat).run (ring 13)).WaitsFor i ((i + 1) % 13) := by
    have member : (i, (i + 1) % 13) ∈ (range 13).reverse.map fun i => (i, (i + 1) % 13) := by
      simpa using less
    rw [← pairs] at member
    obtain ⟨waiter, inList, same⟩ := mem_map.mp member
    exact ⟨waiter, inList, congrArg Prod.fst same, congrArg Prod.snd same⟩
  refine ⟨by decide, ?_⟩
  exact ⟨1, waits 0 (by decide), 2, waits 1 (by decide), 3, waits 2 (by decide), 4,
    waits 3 (by decide), 5, waits 4 (by decide), 6, waits 5 (by decide), 7, waits 6 (by decide), 8,
    waits 7 (by decide), 9, waits 8 (by decide), 10, waits 9 (by decide), 11, waits 10 (by decide),
    12, waits 11 (by decide), 0, waits 12 (by decide), rfl⟩

end

end TinyKernel.Locks
