import TinyKernel.Locks.Settle

/-! An inode's list of locks, and what a call does to the whole of it. -/

namespace TinyKernel.Locks

open List

variable {Owner : Type} [DecidableEq Owner]

/-- A POSIX lock of this owner. -/
def ownedBy (owner : Owner) (fl : FileLock Owner) : Bool := fl.posix && fl.owner = owner

def held (owner : Owner) (locks : List (FileLock Owner)) : List (FileLock Owner) :=
  locks.filter (ownedBy owner)

/-- The list of an inode: each owner's POSIX locks are consecutive, sorted and disjoint. Leases and
BSD locks are put before the POSIX locks. -/
structure WellFormed (locks : List (FileLock Owner)) : Prop where
  distinct : (ids locks).Nodup
  posixLast : locks.Pairwise fun x y => x.posix = true → y.posix = true
  bounds : ∀ fl ∈ locks, fl.posix = true → 0 ≤ fl.start ∧ fl.last ≤ offsetMax ∧ fl.type ≠ .unlock
  consecutive : ∀ owner, ∃ before after, locks = before ++ (held owner locks ++ after)
  lined : ∀ owner, Lined (fun _ => False) (held owner locks)

section

variable {owner : Owner} {locks a g c : List (FileLock Owner)} {fl : FileLock Owner}

theorem ownedBy_iff : ownedBy owner fl = true ↔ fl.posix = true ∧ fl.owner = owner := by
  simp [ownedBy]

theorem held_append : held owner (a ++ c) = held owner a ++ held owner c := filter_append ..

theorem held_of_none (none : ∀ fl ∈ a, ownedBy owner fl = false) : held owner a = [] :=
  filter_eq_nil_iff.mpr fun fl mem => by simp [none fl mem]

theorem held_of_all (all : ∀ fl ∈ g, ownedBy owner fl = true) : held owner g = g :=
  filter_eq_self.mpr all

/-- The list before the locks of one owner, these, and the list behind them. -/
structure Split (owner : Owner) (locks a g c : List (FileLock Owner)) : Prop where
  whole : locks = a ++ (g ++ c)
  mine : ∀ fl ∈ g, ownedBy owner fl = true
  before : ∀ fl ∈ a, ownedBy owner fl = false
  behind : ∀ fl ∈ c, ownedBy owner fl = false
  posix : ∀ fl ∈ c, fl.posix = true
  last : g = [] → c = []

theorem Split.held_eq (split : Split owner locks a g c) : held owner locks = g := by
  rw [split.whole, held_append, held_append, held_of_none split.before, held_of_none split.behind,
    held_of_all split.mine]
  simp

theorem Split.stops (split : Split owner locks a g c) : Stops owner c := by
  cases c with
  | nil => trivial
  | cons fl c => ?_
  intro isOwner
  have notMine := split.behind fl (.head _)
  rw [ownedBy_iff.mpr ⟨split.posix fl (.head _), isOwner⟩] at notMine
  cases notMine

theorem Split.takeWhile (split : Split owner locks a g c) :
    locks.takeWhile (fun fl => !ownedBy owner fl) = a ∧
      locks.dropWhile (fun fl => !ownedBy owner fl) = g ++ c := by
  have skip : ∀ fl ∈ a, (!ownedBy owner fl) = true := fun fl mem => by
    simp [split.before fl mem]
  rw [split.whole, takeWhile_append_of_pos skip, dropWhile_append_of_pos skip]
  cases g with
  | nil =>
    rw [split.last rfl]
    simp
  | cons fl g => ?_
  have isMine := split.mine fl (.head _)
  simp [isMine]

theorem WellFormed.split (wellFormed : WellFormed locks) (owner : Owner) :
    ∃ a g c, Split owner locks a g c := by
  have all : ∀ fl ∈ held owner locks, ownedBy owner fl = true := fun fl mem =>
    (mem_filter.mp mem).2
  by_cases empty : held owner locks = []
  · refine ⟨locks, [], [], by simp, by simp, fun fl mem => ?_, by simp, by simp, fun _ => rfl⟩
    exact Bool.eq_false_iff.mpr fun isMine => filter_eq_nil_iff.mp empty fl mem isMine
  obtain ⟨before, after, whole⟩ := wellFormed.consecutive owner
  -- the locks around the owner's are no more of its own
  have none : held owner before = [] ∧ held owner after = [] := by
    have again := congrArg (held owner) whole
    rw [held_append, held_append, held_of_all all] at again
    have length := congrArg length again
    simp only [length_append] at length
    exact ⟨eq_nil_of_length_eq_zero (by omega), eq_nil_of_length_eq_zero (by omega)⟩
  refine ⟨before, held owner locks, after, whole, all, ?_, ?_, ?_, fun no => absurd no empty⟩
  · intro fl mem
    exact Bool.eq_false_iff.mpr fun isMine => filter_eq_nil_iff.mp none.1 fl mem isMine
  · intro fl mem
    exact Bool.eq_false_iff.mpr fun isMine => filter_eq_nil_iff.mp none.2 fl mem isMine
  intro fl mem
  obtain ⟨first, inHeld⟩ := exists_mem_of_ne_nil _ empty
  have last := wellFormed.posixLast
  rw [whole] at last
  have cross := (pairwise_append.mp (pairwise_append.mp last).2.1).2.2
  exact cross first inHeld fl mem (ownedBy_iff.mp (all first inHeld)).1

end

section

variable {owner other : Owner} {locks a g c g' : List (FileLock Owner)}
variable (split : Split owner locks a g c) (mine : ∀ fl ∈ g', ownedBy owner fl = true)
include split mine

theorem Split.held_replace : held owner (a ++ (g' ++ c)) = g' := by
  rw [held_append, held_append, held_of_none split.before, held_of_none split.behind,
    held_of_all mine]
  simp

theorem Split.others_replace :
    (a ++ (g' ++ c)).filter (fun fl => !ownedBy owner fl) =
      locks.filter (fun fl => !ownedBy owner fl) := by
  have gone (x : List (FileLock Owner)) (all : ∀ fl ∈ x, ownedBy owner fl = true) :
      x.filter (fun fl => !ownedBy owner fl) = [] :=
    filter_eq_nil_iff.mpr fun fl mem => by simp [all fl mem]
  rw [split.whole]
  simp [gone g' mine, gone g split.mine]

theorem Split.held_other (ne : other ≠ owner) : held other (a ++ (g' ++ c)) = held other locks := by
  have gone (x : List (FileLock Owner)) (all : ∀ fl ∈ x, ownedBy owner fl = true) :
      held other x = [] :=
    held_of_none fun fl mem => Bool.eq_false_iff.mpr fun isOther =>
      ne ((ownedBy_iff.mp isOther).2.symm.trans (ownedBy_iff.mp (all fl mem)).2)
  rw [split.whole]
  simp only [held_append, gone g' mine, gone g split.mine]

omit mine in
/-- The locks of another owner stay together, as they lie on one side of those replaced. -/
theorem Split.consecutive_other (ne : other ≠ owner)
    (together : ∃ before after, locks = before ++ (held other locks ++ after)) :
    ∃ before after, a ++ (g' ++ c) = before ++ (held other locks ++ after) := by
  obtain ⟨before, after, whole⟩ := together
  have theirs : ∀ fl ∈ held other locks, ownedBy other fl = true := fun fl mem =>
    (mem_filter.mp mem).2
  generalize held other locks = h at theirs whole
  by_cases none : h = []
  · exact ⟨a ++ (g' ++ c), [], by simp [none]⟩
  have notBoth (fl : FileLock Owner) (inH : fl ∈ h) (inG : fl ∈ g) : False :=
    ne ((ownedBy_iff.mp (theirs fl inH)).2.symm.trans (ownedBy_iff.mp (split.mine fl inG)).2)
  by_cases empty : g = []
  · have atEnd := split.last empty
    have same : a = locks := by simp [split.whole, empty, atEnd]
    exact ⟨before, after ++ g', by simp [same, whole, atEnd]⟩
  rw [split.whole] at whole
  rcases append_eq_append_iff.mp whole with ⟨between, isBefore, rest⟩ | ⟨between, isA, rest⟩
  · rcases append_eq_append_iff.mp rest with ⟨more, isBetween, isC⟩ | ⟨more, isG, inside⟩
    · exact ⟨a ++ (g' ++ more), after, by simp [isC]⟩
    cases more with
    | nil => exact ⟨a ++ g', after, by simp [show c = h ++ after by simpa using inside.symm]⟩
    | cons fl more => ?_
    obtain ⟨first, tail, rfl⟩ := exists_cons_of_ne_nil none
    have same := (cons.inj inside).1
    exact (notBoth first (.head _) (by simp [isG, same])).elim
  rcases append_eq_append_iff.mp rest with ⟨more, isBetween, isAfter⟩ | ⟨more, isH, inside⟩
  · exact ⟨before, more ++ (g' ++ c), by simp [isA, isBetween]⟩
  cases more with
  | nil => exact ⟨before, g' ++ c, by simp [isA, show between = h by simpa using isH.symm]⟩
  | cons fl more => ?_
  obtain ⟨first, tail, rfl⟩ := exists_cons_of_ne_nil empty
  have same := (cons.inj inside).1
  exact (notBoth first (by simp [isH, same]) (.head _)).elim

/-- The list with the locks of one owner exchanged. -/
theorem Split.wellFormed (wellFormed : WellFormed locks) (distinct : (ids (a ++ (g' ++ c))).Nodup)
    (bounds : ∀ fl ∈ g', 0 ≤ fl.start ∧ fl.last ≤ offsetMax ∧ fl.type ≠ .unlock)
    (lined : Lined (fun _ => False) g') : WellFormed (a ++ (g' ++ c)) where
  distinct := distinct
  posixLast := by
    have old := wellFormed.posixLast
    rw [split.whole] at old
    obtain ⟨inA, rest, fromA⟩ := pairwise_append.mp old
    have allPosix : ∀ fl ∈ g' ++ c, fl.posix = true := by
      intro fl mem
      rcases mem_append.mp mem with inG | inC
      · exact (ownedBy_iff.mp (mine fl inG)).1
      exact split.posix fl inC
    refine pairwise_append.mpr ⟨inA, ?_, fun x _ y mem _ => allPosix y mem⟩
    exact pairwise_iff_forall_sublist.mpr fun pair _ => allPosix _ (pair.subset (by simp))
  bounds := by
    intro fl mem isPosix
    have old (inLocks : fl ∈ locks) := wellFormed.bounds fl inLocks isPosix
    rw [split.whole] at old
    rcases mem_append.mp mem with inA | mem
    · exact old (by simp [inA])
    rcases mem_append.mp mem with inG | inC
    · exact bounds fl inG
    exact old (by simp [inC])
  consecutive := by
    intro other
    by_cases same : other = owner
    · rw [same, split.held_replace mine]
      exact ⟨a, c, rfl⟩
    rw [split.held_other mine same]
    exact split.consecutive_other same (wellFormed.consecutive other)
  lined := by
    intro other
    by_cases same : other = owner
    · rw [same, split.held_replace mine]
      exact lined
    rw [split.held_other mine same]
    exact wellFormed.lined other

end

section

variable {locks : List (FileLock Owner)} {req : FileLock Owner} {flags : Flags}
variable {alloc alloc2 : Option Id} (waiters : List (Waiter Owner))

/-- What a caller passes: a POSIX lock on bytes of the file, and two new locks or less. -/
structure Valid (locks : List (FileLock Owner)) (req : FileLock Owner) (alloc alloc2 : Option Id) :
    Prop where
  posix : req.posix = true
  low : 0 ≤ req.start
  range : req.start ≤ req.last
  high : req.last ≤ offsetMax
  fresh : (ids locks ++ (alloc.toList ++ alloc2.toList)).Nodup

/-- The call takes nothing from another owner, as it looks for conflicts first. -/
def Unopposed (locks : List (FileLock Owner)) (req : FileLock Owner) : Prop :=
  req.type ≠ .unlock → ∀ fl ∈ locks, posixLocksConflict req fl = false

/-- A call is refused and leaves the list, or works on the locks of its owner. -/
theorem posixLockFile_cases (wellFormed : WellFormed locks) (valid : Valid locks req alloc alloc2)
    (access : flags.access = false) (lined : Lined types (held req.owner locks)) :
    ((posixLockFile waiters locks req flags alloc alloc2).status ≠ .ok ∧
        (posixLockFile waiters locks req flags alloc alloc2).locks = locks) ∨
      (Unopposed locks req ∧
        ∃ a g c, Split req.owner locks a g c ∧
          Settles types a g c req (req.type = .unlock ∨ Intact req.type req.start req.last g)
            (posixLockFile waiters locks req flags alloc alloc2)) := by
  unfold posixLockFile
  generalize isBlocked : (if req.type = .unlock then none
    else locks.find? (posixLocksConflict req)) = blocked
  cases blocked with
  | some fl =>
    left
    dsimp only
    split
    · exact ⟨by simp, rfl⟩
    split
    · exact ⟨by simp, rfl⟩
    exact ⟨by simp, rfl⟩
  | none => ?_
  right
  have unopposed : Unopposed locks req := by
    intro taken fl mem
    rw [if_neg taken] at isBlocked
    exact Bool.eq_false_iff.mpr (find?_eq_none.mp isBlocked fl mem)
  obtain ⟨a, g, c, split⟩ := wellFormed.split req.owner
  have skips : (fun fl : FileLock Owner => !fl.posix || !posixSameOwner req fl) =
      fun fl => !ownedBy req.owner fl := by
    funext fl
    simp [ownedBy, posixSameOwner, eq_comm]
  obtain ⟨front, rest⟩ := split.takeWhile
  refine ⟨unopposed, a, g, c, split, ?_⟩
  simp only [access, Bool.false_eq_true, if_false, skips, front, rest]
  rw [split.held_eq] at lined
  refine settles_walk lined valid.range valid.posix (fun fl mem => ?_) (fun fl mem => ?_)
    split.stops ?_
  · exact ownedBy_iff.mp (split.mine fl mem)
  · refine (wellFormed.bounds fl ?_ (ownedBy_iff.mp (split.mine fl mem)).1).2.2
    simp [split.whole, mem]
  have fresh := valid.fresh
  rw [split.whole] at fresh
  refine fresh.sublist (.append_left ?_ _)
  refine Sublist.append ?_ ?_
  · split
    · exact .refl _
    exact nil_sublist _
  split
  · exact .refl _
  exact nil_sublist _

/-- Different owners hold no byte in conflicting ways. -/
def NoConflict (locks : List (FileLock Owner)) : Prop :=
  ∀ owner other byte t t', owner ≠ other → At (held owner locks) byte t →
    At (held other locks) byte t' → t ≠ .write ∧ t' ≠ .write

/-- The bytes of the request have its type, nothing else has changed, and the list is as before a
list in which every owner's locks are consecutive, sorted and disjoint. -/
structure Placed (locks : List (FileLock Owner)) (req : FileLock Owner)
    (locks' : List (FileLock Owner)) : Prop where
  inside : ∀ byte t, req.start ≤ byte → byte ≤ req.last →
    (At (held req.owner locks') byte t ↔ t = req.type ∧ req.type ≠ .unlock)
  outside : ∀ byte t, byte < req.start ∨ req.last < byte →
    (At (held req.owner locks') byte t ↔ At (held req.owner locks) byte t)
  others :
    locks'.filter (fun fl => !ownedBy req.owner fl) = locks.filter (fun fl => !ownedBy req.owner fl)
  wellFormed : WellFormed locks'

/-- Besides, no two locks of the requested type touch. -/
def Granted (locks : List (FileLock Owner)) (req : FileLock Owner)
    (locks' : List (FileLock Owner)) : Prop :=
  Placed locks req locks' ∧ Tidy req.type (held req.owner locks')

/-- A lock that the request replaces is the last one that it reaches. -/
def ReplacesLast (locks : List (FileLock Owner)) (req : FileLock Owner) : Prop :=
  req.type = .unlock ∨ Intact req.type req.start req.last (held req.owner locks)

omit [DecidableEq Owner] in
theorem tidy_iff {type : LockType} {g : List (FileLock Owner)} :
    Tidy type g ↔ g.Pairwise (Apart (· = type)) := by
  refine ⟨fun tidy => tidy.imp fun apart => ⟨apart.1, fun first agrees => ?_⟩,
    fun apart => apart.imp fun here => ⟨here.1, fun first second => ?_⟩⟩
  · exact apart.2 first (agrees ▸ first)
  exact here.2 first (first.trans second.symm)

omit [DecidableEq Owner] in
/-- The new locks are made of bytes of the old ones and of the request. -/
theorem Gained.bounds {g g' : List (FileLock Owner)} (gained : Gained g g' req)
    (range : ∀ fl ∈ g', fl.start ≤ fl.last) (low : 0 ≤ req.start) (high : req.last ≤ offsetMax)
    (bounds : ∀ fl ∈ g, 0 ≤ fl.start ∧ fl.last ≤ offsetMax ∧ fl.type ≠ .unlock) :
    ∀ fl ∈ g', 0 ≤ fl.start ∧ fl.last ≤ offsetMax ∧ fl.type ≠ .unlock := by
  intro fl mem
  have nonempty := range fl mem
  have first : At g' fl.start fl.type := ⟨fl, mem, by omega, nonempty, rfl⟩
  have last : At g' fl.last fl.type := ⟨fl, mem, nonempty, by omega, rfl⟩
  refine ⟨?_, ?_, ?_⟩
  · rcases gained _ _ first with ⟨old, inG, starts, _⟩ | ⟨_, _, starts, _⟩
    · have := (bounds old inG).1
      omega
    omega
  · rcases gained _ _ last with ⟨old, inG, _, ends, _⟩ | ⟨_, _, _, ends⟩
    · have := (bounds old inG).2.1
      omega
    omega
  rcases gained _ _ first with ⟨old, inG, _, _, isType⟩ | ⟨_, taken, _⟩
  · exact isType ▸ (bounds old inG).2.2
  exact taken

theorem Applied.placed {g' : List (FileLock Owner)}
    (applied : Applied types g g' req.type req.start req.last) (wellFormed : WellFormed locks)
    (valid : Valid locks req alloc alloc2) (split : Split req.owner locks a g c)
    (mine : ∀ fl ∈ g', ownedBy req.owner fl = true) (distinct : (ids (a ++ (g' ++ c))).Nodup) :
    Placed locks req (a ++ (g' ++ c)) := by
  refine ⟨?_, ?_, split.others_replace mine, split.wellFormed mine wellFormed distinct ?_ ?_⟩
  · rw [split.held_replace mine]
    exact applied.inside
  · rw [split.held_replace mine, split.held_eq]
    exact applied.outside
  · refine applied.gained.bounds applied.lined.range valid.low valid.high fun fl mem => ?_
    refine wellFormed.bounds fl ?_ (ownedBy_iff.mp (split.mine fl mem)).1
    simp [split.whole, mem]
  exact ⟨applied.lined.range, applied.lined.apart.imp fun apart => ⟨apart.1, fun no => no.elim⟩⟩

/-- A lock that conflicts with none of the others is added. -/
theorem Split.noConflict (split : Split req.owner locks a g c)
    (mine : ∀ fl ∈ g', ownedBy req.owner fl = true) (gained : Gained g g' req)
    (unopposed : Unopposed locks req) (before : NoConflict locks) :
    NoConflict (a ++ (g' ++ c)) := by
  -- what the request's owner holds now does not conflict with what another one holds
  have both (other : Owner) (byte : Int) (t t' : LockType) (ne : other ≠ req.owner)
      (here : At g' byte t) (there : At (held other locks) byte t') : t ≠ .write ∧ t' ≠ .write := by
    rcases gained byte t here with old | ⟨rfl, taken, starts, ends⟩
    · rw [← split.held_eq] at old
      exact before _ _ _ _ _ (Ne.symm ne) old there
    obtain ⟨fl, mem, startsAt, endsAt, rfl⟩ := there
    obtain ⟨inLocks, theirs⟩ := mem_filter.mp mem
    obtain ⟨isPosix, isOther⟩ := ownedBy_iff.mp theirs
    have agrees := unopposed taken fl inLocks
    have notSame : ¬ req.owner = fl.owner := fun same => ne (isOther.symm.trans same.symm)
    have overlap : req.last ≥ fl.start ∧ fl.last ≥ req.start := by omega
    simp only [posixLocksConflict, isPosix, posixSameOwner, notSame, locksOverlap, overlap,
      locksConflict] at agrees
    simpa [not_or, and_comm] using agrees
  intro owner other byte t t' ne here there
  by_cases first : owner = req.owner
  · subst first
    rw [split.held_replace mine] at here
    rw [split.held_other mine (Ne.symm ne)] at there
    exact both other byte t t' (Ne.symm ne) here there
  rw [split.held_other mine first] at here
  by_cases second : other = req.owner
  · subst second
    rw [split.held_replace mine] at there
    exact (both owner byte t' t first there here).symm
  rw [split.held_other mine second] at there
  exact before _ _ _ _ _ ne here there

/-- Locks that did not touch still do not. -/
theorem posixLockFile_lined (wellFormed : WellFormed locks) (valid : Valid locks req alloc alloc2)
    (access : flags.access = false) (lined : Lined types (held req.owner locks))
    (isOk : (posixLockFile waiters locks req flags alloc alloc2).status = .ok)
    (replaces : ReplacesLast locks req) :
    Lined types (held req.owner (posixLockFile waiters locks req flags alloc alloc2).locks) := by
  rcases posixLockFile_cases waiters wellFormed valid access lined with
    ⟨fail, _⟩ | ⟨_, a, g, c, split, settles⟩
  · exact absurd isOk fail
  obtain ⟨g', isLocks, applied, _, _, mine, _⟩ := settles.succeeded isOk
  rw [ReplacesLast, split.held_eq] at replaces
  rw [isLocks, split.held_replace fun fl mem => ownedBy_iff.mpr (mine fl mem)]
  exact (applied replaces).lined

end

section

/-- One call with what it depends on besides the list. -/
structure Call (Owner : Type) where
  waiters : List (Waiter Owner)
  request : FileLock Owner
  flags : Flags
  alloc : Option Id
  alloc2 : Option Id

def Call.run (call : Call Owner) (locks : List (FileLock Owner)) : Outcome Owner :=
  posixLockFile call.waiters locks call.request call.flags call.alloc call.alloc2

def runCalls (locks : List (FileLock Owner)) (calls : List (Call Owner)) : List (FileLock Owner) :=
  calls.foldl (fun locks call => (call.run locks).locks) locks

/-- Every call is valid, and those that are granted replace no lock before the last one they
reach. -/
def Orderly : List (FileLock Owner) → List (Call Owner) → Prop
  | _, [] => True
  | locks, call :: calls =>
    Valid locks call.request call.alloc call.alloc2 ∧ call.flags.access = false ∧
      ((call.run locks).status = .ok → ReplacesLast locks call.request) ∧
      Orderly (call.run locks).locks calls

/-- What is so of the list between calls. -/
structure Consistent (locks : List (FileLock Owner)) : Prop where
  wellFormed : WellFormed locks
  apart : ∀ owner, Lined (fun _ => True) (held owner locks)
  noConflict : NoConflict locks

variable {locks : List (FileLock Owner)}

theorem consistent_nil : Consistent ([] : List (FileLock Owner)) := by
  refine ⟨⟨by simp, .nil, by simp, fun owner => ⟨[], [], rfl⟩, fun owner => lined_nil⟩,
    fun owner => lined_nil, ?_⟩
  intro owner other byte t t' _ here
  exact absurd here at_nil

theorem Consistent.call (sound : Consistent locks) (call : Call Owner)
    (valid : Valid locks call.request call.alloc call.alloc2) (access : call.flags.access = false)
    (replaces : (call.run locks).status = .ok → ReplacesLast locks call.request) :
    Consistent (call.run locks).locks := by
  obtain ⟨wellFormed, apart, noConflict⟩ := sound
  rcases posixLockFile_cases call.waiters wellFormed valid access (apart call.request.owner) with
    ⟨_, same⟩ | ⟨unopposed, a, g, c, split, settles⟩
  · rw [Call.run, same]
    exact ⟨wellFormed, apart, noConflict⟩
  by_cases isOk : (call.run locks).status = .ok
  · obtain ⟨g', isLocks, applied, _, gained, mine, distinct⟩ := settles.succeeded isOk
    have allMine : ∀ fl ∈ g', ownedBy call.request.owner fl = true := fun fl mem =>
      ownedBy_iff.mpr (mine fl mem)
    have holds := replaces isOk
    rw [ReplacesLast, split.held_eq] at holds
    rw [isLocks] at distinct
    have placed := (applied holds).placed wellFormed valid split allMine distinct
    rw [Call.run, isLocks]
    refine ⟨placed.wellFormed, fun owner => ?_,
      split.noConflict allMine gained unopposed noConflict⟩
    by_cases same : owner = call.request.owner
    · rw [same, split.held_replace allMine]
      exact (applied holds).lined
    rw [split.held_other allMine same]
    exact apart owner
  have same := settles.failed isOk
  rw [← split.whole] at same
  rw [Call.run, same]
  exact ⟨wellFormed, apart, noConflict⟩

/-- Whatever calls are made on a file, its list stays consistent. -/
theorem runCalls_consistent (sound : Consistent locks) (orderly : Orderly locks calls) :
    Consistent (runCalls locks calls) := by
  induction calls generalizing locks with
  | nil => exact sound
  | cons call calls ih => ?_
  obtain ⟨valid, access, replaces, rest⟩ := orderly
  exact ih (sound.call call valid access replaces) rest

/-- A read lock of each of two owners, a write lock that the one is refused because of the other's,
a lock split by giving back its middle, and one split by a change of its type. -/
def twoOwners : List (Call Nat) :=
  let call (owner : Nat) (type : LockType) (start last : Int) (alloc : Id) : Call Nat :=
    ⟨[], ⟨0, true, false, owner, type, start, last⟩, ⟨false, false, false⟩, some alloc,
      some (alloc + 1)⟩
  [call 7 .write 3 5 3, call 8 .read 10 20 5, call 7 .read 15 30 7, call 8 .write 10 20 9,
    call 7 .unlock 20 25 11, call 7 .read 4 4 13]

theorem runCalls_consistent_two_owners :
    ((runCalls [] twoOwners).map fun fl => (fl.owner, fl.type, fl.start, fl.last)) =
        [(7, .write, 3, 3), (7, .read, 4, 4), (7, .write, 5, 5), (7, .read, 15, 19),
          (7, .read, 26, 30), (8, .read, 10, 20)] ∧ Consistent (runCalls [] twoOwners) := by
  refine ⟨by decide +kernel, runCalls_consistent consistent_nil ?_⟩
  refine ⟨⟨rfl, ?_, ?_, ?_, ?_⟩, rfl, fun _ => .inr (intact_of_none _ ?_),
    ⟨rfl, ?_, ?_, ?_, ?_⟩, rfl, fun _ => .inr (intact_of_none _ ?_),
    ⟨rfl, ?_, ?_, ?_, ?_⟩, rfl, fun _ => .inr (intact_of_none _ ?_),
    ⟨rfl, ?_, ?_, ?_, ?_⟩, rfl, fun granted => absurd granted ?_,
    ⟨rfl, ?_, ?_, ?_, ?_⟩, rfl, fun _ => .inl rfl,
    ⟨rfl, ?_, ?_, ?_, ?_⟩, rfl, fun _ => .inr (intact_of_none _ ?_), trivial⟩ <;> decide +kernel

end

section

variable {locks : List (FileLock Owner)} {req : FileLock Owner} {flags : Flags}
variable {alloc alloc2 : Option Id} (waiters : List (Waiter Owner))

/-- A list of one owner's locks. -/
theorem wellFormed_of_one (mine : ∀ fl ∈ locks, ownedBy owner fl = true)
    (distinct : (ids locks).Nodup)
    (bounds : ∀ fl ∈ locks, 0 ≤ fl.start ∧ fl.last ≤ offsetMax ∧ fl.type ≠ .unlock)
    (lined : Lined (fun _ => False) locks) : WellFormed locks := by
  have split : Split owner [] [] [] [] := ⟨rfl, by simp, by simp, by simp, by simp, fun _ => rfl⟩
  have wellFormed :=
    split.wellFormed mine consistent_nil.wellFormed (by simpa using distinct) bounds lined
  simpa using wellFormed

/-- The byte-range map of a file after a call. -/
theorem posixLockFile_byteMap (wellFormed : WellFormed locks) (valid : Valid locks req alloc alloc2)
    (access : flags.access = false) :
    ((posixLockFile waiters locks req flags alloc alloc2).status ≠ .ok →
        (posixLockFile waiters locks req flags alloc alloc2).locks = locks) ∧
      (NoConflict locks → NoConflict (posixLockFile waiters locks req flags alloc alloc2).locks) ∧
      ((posixLockFile waiters locks req flags alloc alloc2).status = .ok →
        (ReplacesLast locks req →
            Placed locks req (posixLockFile waiters locks req flags alloc alloc2).locks) ∧
          (Tidy req.type (held req.owner locks) →
            (Granted locks req (posixLockFile waiters locks req flags alloc alloc2).locks ↔
              ReplacesLast locks req))) := by
  generalize isOut : posixLockFile waiters locks req flags alloc alloc2 = out
  have weak := wellFormed.lined req.owner
  have cases := posixLockFile_cases waiters wellFormed valid access weak
  rw [isOut] at cases
  rcases cases with ⟨failed, same⟩ | ⟨unopposed, a, g, c, split, settles⟩
  · exact ⟨fun _ => same, fun before => same ▸ before, fun isOk => absurd isOk failed⟩
  have replaces : ReplacesLast locks req ↔
      (req.type = .unlock ∨ Intact req.type req.start req.last g) := by
    rw [ReplacesLast, split.held_eq]
  refine ⟨fun failed => by rw [settles.failed failed, split.whole], fun before => ?_,
    fun isOk => ?_⟩
  · by_cases isOk : out.status = .ok
    · obtain ⟨g', isLocks, _, _, gained, mine, _⟩ := settles.succeeded isOk
      rw [isLocks]
      exact split.noConflict (fun fl member => ownedBy_iff.mpr (mine fl member)) gained unopposed
        before
    rw [settles.failed isOk, ← split.whole]
    exact before
  obtain ⟨g', isLocks, applied, broken, _, mine, distinct⟩ := settles.succeeded isOk
  have allMine : ∀ fl ∈ g', ownedBy req.owner fl = true := fun fl member =>
    ownedBy_iff.mpr (mine fl member)
  rw [isLocks] at distinct ⊢
  rw [replaces]
  refine ⟨fun holds => (applied holds).placed wellFormed valid split allMine distinct,
    fun tidy => ⟨fun granted => ?_, fun holds => ?_⟩⟩
  · by_contra fails
    refine broken fails ?_
    rw [← split.held_replace allMine]
    exact granted.2
  refine ⟨(applied holds).placed wellFormed valid split allMine distinct, ?_⟩
  have lined : Lined (· = req.type) (held req.owner locks) := ⟨weak.range, tidy_iff.mp tidy⟩
  have after := posixLockFile_lined waiters wellFormed valid access lined
    (by rw [isOut]; exact isOk) (replaces.mpr holds)
  rw [isOut, isLocks] at after
  exact tidy_iff.mpr after.apart

/-- A write lock in the middle of a read lock cuts it in two. -/
theorem posixLockFile_byteMap_middle :
    Granted [⟨1, true, false, 7, .read, 0, 9⟩] (⟨0, true, false, 7, .write, 3, 5⟩ : FileLock Nat)
      (posixLockFile [] [⟨1, true, false, 7, .read, 0, 9⟩] ⟨0, true, false, 7, .write, 3, 5⟩
        ⟨false, false, false⟩ (some 3) (some 4)).locks := by
  have mine : ∀ fl ∈ [(⟨1, true, false, 7, .read, 0, 9⟩ : FileLock Nat)], ownedBy 7 fl = true := by
    decide
  have wellFormed := wellFormed_of_one mine (by decide) (by decide) ⟨by decide, by simp⟩
  refine (((posixLockFile_byteMap [] wellFormed ⟨rfl, by decide, by decide, by decide, by decide⟩
    rfl).2.2 (by decide)).2 ?_).mpr (.inr ?_)
  · simp [held, ownedBy, Tidy]
  refine intact_of_none _ ?_
  decide

/-- Two read locks of one owner. -/
def twoReads : List (FileLock Nat) :=
  [⟨1, true, false, 7, .read, 0, 9⟩, ⟨2, true, false, 7, .read, 20, 29⟩]

/-- A request for all of their bytes and more. -/
def writeOver : FileLock Nat := ⟨0, true, false, 7, .write, 0, 30⟩

theorem twoReads_wellFormed : WellFormed twoReads := by
  have mine : ∀ fl ∈ twoReads, ownedBy 7 fl = true := by decide
  refine wellFormed_of_one mine (by decide) (by decide) ⟨by decide, ?_⟩
  simp [twoReads, Apart]

/-- The first read lock is replaced and the walk ends: the second one stays under the write lock. -/
theorem replacing_keeps_later_lock :
    WellFormed twoReads ∧ Valid twoReads writeOver (some 3) (some 4) ∧
      Tidy .write (held 7 twoReads) ∧
      (posixLockFile [] twoReads writeOver ⟨false, false, false⟩ (some 3) (some 4)).status = .ok ∧
      (posixLockFile [] twoReads writeOver ⟨false, false, false⟩ (some 3) (some 4)).locks =
        [{ writeOver with id := 3 }, ⟨2, true, false, 7, .read, 20, 29⟩] ∧
      ¬ Placed twoReads writeOver
        (posixLockFile [] twoReads writeOver ⟨false, false, false⟩ (some 3) (some 4)).locks := by
  have result : (posixLockFile [] twoReads writeOver ⟨false, false, false⟩ (some 3)
        (some 4)).locks = [{ writeOver with id := 3 }, ⟨2, true, false, 7, .read, 20, 29⟩] := by
    decide
  refine ⟨twoReads_wellFormed, ⟨rfl, by decide, by decide, by decide, by decide⟩, ?_, by decide,
    result, ?_⟩
  · simp [twoReads, held, ownedBy, Tidy]
  intro placed
  have both := (placed.inside 20 .read (by decide) (by decide)).mp
    ⟨⟨2, true, false, 7, .read, 20, 29⟩, by decide, by decide, by decide, rfl⟩
  exact absurd both.1 (by decide)

end

end TinyKernel.Locks
