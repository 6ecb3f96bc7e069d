import Mathlib.Data.List.Nodup
import TinyKernel.Locks.Walk

/-! What the call makes of the list once the walk has ended. -/

namespace TinyKernel.Locks

open List

variable {Owner : Type}

/-- In order, with no two touching locks of this type. -/
def Tidy (type : LockType) (locks : List (FileLock Owner)) : Prop :=
  locks.Pairwise fun x y =>
    x.last < y.start ∧ (x.type = type → y.type = type → x.last + 1 < y.start)

/-- The locks of the owner hold nothing that they did not hold before, except for the request. -/
def Gained (g g' : List (FileLock Owner)) (req : FileLock Owner) : Prop :=
  ∀ byte t, At g' byte t →
    At g byte t ∨ (t = req.type ∧ t ≠ .unlock ∧ req.start ≤ byte ∧ byte ≤ req.last)

/-- Locks of the request's owner. -/
abbrev Mine (req : FileLock Owner) (locks : List (FileLock Owner)) : Prop :=
  ∀ fl ∈ locks, fl.posix = true ∧ fl.owner = req.owner

/-- The list after the call, where the locks `g` of the request's owner stood between `a` and
`c`. -/
structure Settles (types : LockType → Prop) (a g c : List (FileLock Owner)) (req : FileLock Owner)
    (intact : Prop) (out : Outcome Owner) : Prop where
  failed : out.status ≠ .ok → out.locks = a ++ (g ++ c)
  succeeded : out.status = .ok → ∃ g', out.locks = a ++ (g' ++ c) ∧
    (intact → Applied types g g' req.type req.start req.last) ∧ (¬ intact → ¬ Tidy req.type g') ∧
    Gained g g' req ∧ (∀ fl ∈ g', fl.posix = true ∧ fl.owner = req.owner) ∧ (ids out.locks).Nodup

section

variable {a p q : List (FileLock Owner)} {y : FileLock Owner} {left : Option Id}

theorem cutLeft_middle (away : ∀ id, left = some id → id ∉ ids a ∧ id ∉ ids q) :
    cutLeft left v (a ++ (p ++ q)) = a ++ (cutLeft left v p ++ q) := by
  rw [cutLeft_append, cutLeft_append, cutLeft_of_notMem fun id isLeft => (away id isLeft).1,
    cutLeft_of_notMem fun id isLeft => (away id isLeft).2]

theorem setStart_middle (before : y.id ∉ ids x) (after : y.id ∉ ids z) :
    setStart y.id v (x ++ y :: z) = x ++ { y with start := v } :: z := by
  have single : setStart y.id v [y] = [{ y with start := v }] := by simp [setStart, modify]
  have assoc : x ++ y :: z = x ++ ([y] ++ z) := rfl
  rw [assoc, setStart, modify_append, modify_append, modify_of_notMem before,
    modify_of_notMem after, ← setStart, single]
  rfl

theorem Mine.insert (mine : Mine req (x ++ z)) (isPosix : y.posix = true)
    (owned : y.owner = req.owner) : Mine req (x ++ y :: z) := by
  obtain ⟨inX, inZ⟩ := forall_mem_append.mp mine
  exact forall_mem_append.mpr ⟨inX, forall_mem_cons.mpr ⟨⟨isPosix, owned⟩, inZ⟩⟩

theorem mine_cutLeft (mine : Mine req (x ++ z)) : Mine req (cutLeft left v x ++ z) := by
  intro fl isIn
  rcases mem_append.mp isIn with inCut | inZ
  · cases left with
    | none => exact mine fl (mem_append_left _ inCut)
    | some id => ?_
    obtain ⟨old, inX, rfl⟩ := mem_map.mp inCut
    have was := mine old (mem_append_left _ inX)
    split <;> exact was
  exact mine fl (mem_append_right _ inZ)

section

variable {t c : List (FileLock Owner)} (leftIn : ∀ id, left = some id → id ∈ ids p)
include leftIn

/-- The lock to the left is among those passed, so nothing else is cut. -/
theorem cutLeft_passed (apart : (ids (a ++ ((p ++ q) ++ c))).Nodup) :
    cutLeft left v (a ++ (p ++ (q ++ c))) = a ++ ((cutLeft left v p ++ q) ++ c) := by
  rw [cutLeft_middle, append_assoc]
  intro id isLeft
  have inside := leftIn id isLeft
  grind

omit leftIn in
theorem right_outside (apart : (ids (a ++ ((p ++ (q ++ y :: t)) ++ c))).Nodup) :
    y.id ∉ ids (a ++ (p ++ q)) ∧ y.id ∉ ids (t ++ c) :=
  notMem_of_middle (by simpa [ids] using apart)

theorem left_ne_right (apart : (ids (a ++ ((p ++ (q ++ y :: t)) ++ c))).Nodup) :
    ¬ left = some y.id := by
  intro isLeft
  refine (right_outside apart).1 ?_
  have := leftIn y.id isLeft
  simp only [ids, map_append, mem_append] at this ⊢
  exact .inr (.inl this)

theorem cutLeft_setStart (apart : (ids (a ++ ((p ++ (q ++ y :: t)) ++ c))).Nodup) :
    cutLeft left v (setStart y.id w (a ++ (p ++ (q ++ y :: (t ++ c))))) =
      a ++ ((cutLeft left v p ++ (q ++ { y with start := w } :: t)) ++ c) := by
  have assoc : a ++ (p ++ (q ++ y :: (t ++ c))) = (a ++ (p ++ q)) ++ y :: (t ++ c) := by simp
  have same : (ids (a ++ ((p ++ (q ++ { y with start := w } :: t)) ++ c))).Nodup := by
    simpa [ids] using apart
  have moved := cutLeft_passed (v := v) leftIn same
  rw [assoc, setStart_middle (right_outside apart).1 (right_outside apart).2, ← moved]
  simp

end

end

section

variable {types : LockType → Prop} {a g c : List (FileLock Owner)} {req : FileLock Owner}
variable {kept : Prop} {out : Outcome Owner}

theorem Settles.of_failed (failed : out.status ≠ .ok) (same : out.locks = a ++ (g ++ c)) :
    Settles types a g c req kept out :=
  ⟨fun _ => same, fun isOk => absurd isOk failed⟩

theorem Applied.gained (applied : Applied types g g' req.type req.start req.last) :
    Gained g g' req := by
  intro byte t held
  by_cases inside : req.start ≤ byte ∧ byte ≤ req.last
  · obtain ⟨rfl, taken⟩ := (applied.inside byte t inside.1 inside.2).mp held
    exact .inr ⟨rfl, taken, inside⟩
  exact .inl ((applied.outside byte t (by omega)).mp held)

theorem Settles.of_applied (g' : List (FileLock Owner)) (isOk : out.status = .ok)
    (locks : out.locks = a ++ (g' ++ c)) (holds : kept)
    (applied : Applied types g g' req.type req.start req.last) (mine : Mine req g')
    (apart : (ids (a ++ (g' ++ c))).Nodup) : Settles types a g c req kept out :=
  ⟨fun failed => absurd isOk failed, fun _ => ⟨g', locks, fun _ => applied,
    fun not => absurd holds not, applied.gained, mine, locks ▸ apart⟩⟩

section

variable {p q t : List (FileLock Owner)} {y : FileLock Owner} {left : Option Id} {v w : Int}
variable (isOk : out.status = .ok) (leftIn : ∀ id, left = some id → id ∈ ids p) (holds : kept)
include isOk leftIn holds

theorem Settles.of_cut (apart : (ids (a ++ ((p ++ q) ++ c))).Nodup)
    (locks : out.locks = cutLeft left v (a ++ (p ++ (q ++ c))))
    (applied : Applied types g (cutLeft left v p ++ q) req.type req.start req.last)
    (mine : Mine req (p ++ q)) : Settles types a g c req kept out := by
  refine .of_applied _ isOk (locks.trans (cutLeft_passed leftIn apart)) holds applied
    (mine_cutLeft mine) ?_
  simp only [map_append, ids_cutLeft] at apart ⊢
  exact apart

/-- The same with a lock to the right that loses what the request covers. -/
theorem Settles.of_cut_right (apart : (ids (a ++ ((p ++ (q ++ y :: t)) ++ c))).Nodup)
    (locks : out.locks = cutLeft left v (setStart y.id w (a ++ (p ++ (q ++ y :: (t ++ c))))))
    (applied : Applied types g (cutLeft left v p ++ (q ++ { y with start := w } :: t)) req.type
      req.start req.last) (mine : Mine req (p ++ (q ++ y :: t))) :
    Settles types a g c req kept out := by
  refine .of_applied _ isOk (locks.trans (cutLeft_setStart leftIn apart)) holds applied
    (mine_cutLeft ?_) ?_
  · simp only [Mine, forall_mem_append, forall_mem_cons] at mine ⊢
    exact mine
  simp only [map_append, map_cons, ids_cutLeft] at apart ⊢
  exact apart

omit leftIn in
/-- The same with a lock around the request that is cut in two. -/
theorem Settles.of_split {id : Id} (same : p ++ y :: t = g)
    (locks : out.locks =
      cutLeft (some id) v (setStart y.id w (a ++ ((p ++ [{ y with id }]) ++ (q ++ y :: (t ++ c))))))
    (applied : Applied types g
      (p ++ [{ y with id, last := v }] ++ (q ++ { y with start := w } :: t)) req.type req.start
      req.last) (mine : Mine req g) (mineQ : Mine req q)
    (apart : (ids (a ++ (g ++ c)) ++ (ids q ++ [id])).Nodup) :
    Settles types a g c req kept out := by
  subst same
  have new : id ∉ ids p := by
    intro inside
    refine (nodup_append.mp apart).2.2 id ?_ id (by simp) rfl
    simp only [ids, map_append, mem_append] at inside ⊢
    exact .inr (.inl (.inl inside))
  have fresh : (ids (a ++ ((p ++ [{ y with id }] ++ (q ++ y :: t)) ++ c))).Nodup := by
    rw [nodup_iff_count_le_one] at apart ⊢
    intro i
    have once := apart i
    simp only [ids, map_append, map_cons, map_nil, count_append, count_cons, count_nil] at once ⊢
    omega
  refine .of_cut_right isOk (by simp) holds fresh locks ?_ ?_
  · rw [cutLeft_last (y := { y with id }) new]
    exact applied
  simp only [Mine, forall_mem_append, forall_mem_cons] at mine ⊢
  exact ⟨⟨mine.1, mine.2.1, by simp⟩, mineQ, mine.2⟩

end

/-- What is left of a lock that goes beyond the request is not in its way. -/
theorem clear_cut (lined : Lined types (y :: t)) (past : last < y.last) (other : y.type ≠ type) :
    Clear type last ({ y with start := last + 1 } :: t) := by
  intro z isIn
  rcases mem_cons.mp isIn with rfl | inT
  · exact ⟨by simp, fun isType => absurd isType other⟩
  have := ((lined_cons.mp lined).2.1 z inT).1
  exact ⟨by omega, fun _ => by omega⟩

end

section

variable {types : LockType → Prop} {a c g p rest t : List (FileLock Owner)}
    {req y r : FileLock Owner}
variable {newFl newFl2 left : Option Id} {kept : Prop} {exist : Bool} {id : Id}
variable {woken : List Id}

theorem distinct_sublist (sub : (ids x).Sublist (ids g)) (apart : (ids (a ++ (g ++ c))).Nodup) :
    (ids (a ++ (x ++ c))).Nodup := by
  refine apart.sublist ?_
  simp only [ids, map_append] at sub ⊢
  exact .append_left (sub.append_right _) _

/-- The locks that stay where they are, and a new one among them, have names of their own. -/
theorem distinct_insert (sub : (ids (x ++ z)).Sublist (ids g))
    (isNew : r.id ∈ newFl.toList ++ newFl2.toList)
    (apart : (ids (a ++ (g ++ c)) ++ (newFl.toList ++ newFl2.toList)).Nodup) :
    (ids (a ++ ((x ++ r :: z) ++ c))).Nodup := by
  have fresh : r.id ∉ ids (a ++ (g ++ c)) := fun old =>
    (nodup_append.mp apart).2.2 r.id old r.id isNew rfl
  have old := distinct_sublist sub (nodup_append.mp apart).1
  have notOld : r.id ∉ ids (a ++ ((x ++ z) ++ c)) := by
    intro isIn
    refine fresh ?_
    simp only [ids, map_append, mem_append] at sub isIn ⊢
    rcases isIn with inA | inside | inC
    · exact .inl inA
    · exact .inr (.inl (sub.mem (mem_append.mpr inside)))
    exact .inr (.inr inC)
  have perm : (ids (a ++ ((x ++ r :: z) ++ c))).Perm (r.id :: ids (a ++ ((x ++ z) ++ c))) := by
    simp only [ids, map_append, map_cons]
    rw [perm_iff_count]
    intro i
    simp only [count_append, count_cons]
    omega
  exact perm.nodup_iff.mpr (nodup_cons.mpr ⟨notOld, old⟩)

variable {right : Option (FileLock Owner)}

section

variable (taken : req.type ≠ .unlock) (range : req.start ≤ req.last) (isPosix : req.posix = true)
    (mine : Mine req g)
variable (apart : (ids (a ++ (g ++ c)) ++ (newFl.toList ++ newFl2.toList)).Nodup)
include taken range isPosix mine apart

theorem settles_between (same : p ++ rest = g)
    (ahead : Ahead types g (cutLeft left (req.start - 1) p) rest req.type req.start req.last)
    (stopped : Stopped req.type req.last rest right)
    (starts : ∀ y, right = some y → req.start ≤ y.start)
    (leftIn : ∀ id, left = some id → id ∈ ids p) (holds : kept) :
    Settles types a g c req kept
      (settle ⟨a ++ p, rest ++ c, req, false, left, right, newFl, woken, false⟩ exist newFl2) := by
  subst same
  cases newFl with
  | none =>
    refine .of_failed ?_ ?_
    · cases right <;> simp [settle, taken]
    cases right <;> simp [settle, taken]
  | some id => ?_
  have fresh : (ids (a ++ ((p ++ ([{ req with id }] ++ rest)) ++ c))).Nodup :=
    distinct_insert (.refl _) (by simp) apart
  have mineNew : Mine req (p ++ ([{ req with id }] ++ rest)) := mine.insert isPosix rfl
  cases right with
  | none =>
    exact .of_cut (by simp [settle, taken]) leftIn holds fresh (by simp [settle, taken])
      (ahead.insert stopped range taken rfl rfl rfl) mineNew
  | some y => ?_
  obtain ⟨t, rfl, otherY, begins, past⟩ := stopped
  have notRight := left_ne_right leftIn fresh
  have clear := clear_cut (lined_append.mp ahead.lined).2.1 past otherY
  exact .of_cut_right (by simp [settle, taken, notRight]) leftIn holds fresh
    (by simp [settle, taken, notRight])
    ((ahead.cutStart (starts y rfl) begins past).insert clear range taken rfl rfl rfl) mineNew

/-- A lock around the request is cut in two, with a second new lock. -/
theorem settles_around (same : p ++ y :: t = g)
    (ahead : Ahead types g p (y :: t) req.type req.start req.last) (starts : y.start < req.start)
    (past : req.last < y.last) (other : y.type ≠ req.type) (holds : kept) :
    Settles types a g c req kept (settle
      ⟨a ++ p, y :: t ++ c, req, false, some y.id, some y, newFl, woken, false⟩ exist newFl2) := by
  cases newFl2 with
  | none => exact .of_failed (by simp [settle]) (by simp [settle, ← same])
  | some id2 => ?_
  cases newFl with
  | none => exact .of_failed (by simp [settle, taken]) (by simp [settle, taken, ← same])
  | some id => ?_
  have clear := clear_cut (lined_append.mp ahead.lined).2.1 past other
  exact .of_split (q := [{ req with id }]) (by simp [settle, taken]) holds same
    (by simp [settle, taken])
    ((ahead.split starts past range other id2).insert clear range taken rfl rfl rfl) mine
    (by simp [Mine, isPosix]) apart

omit range isPosix in
theorem settles_joined (sub : (ids (p ++ r :: rest)).Sublist (ids g)) (mem : ∀ x ∈ p ++ rest, x ∈ g)
    (like : ∃ x ∈ g, r.owner = x.owner ∧ r.posix = x.posix)
    (joined : Joined types g (cutLeft left (r.start - 1) p) r rest req.type req.start req.last)
    (stopped : Stopped req.type r.last rest right) (leftIn : ∀ id, left = some id → id ∈ ids p)
    (holds : kept) :
    Settles types a g c req kept (settle
      ⟨a ++ (p ++ [r]), rest ++ c, r, true, left, right, newFl, woken, false⟩ exist newFl2) := by
  have old : (ids (a ++ ((p ++ ([r] ++ rest)) ++ c))).Nodup :=
    distinct_sublist sub (nodup_append.mp apart).1
  have mineAll : Mine req (p ++ ([r] ++ rest)) := by
    obtain ⟨was, inG, sameOwner, samePosix⟩ := like
    have wasMine := mine was inG
    exact Mine.insert (fun fl isIn => mine fl (mem fl isIn)) (samePosix.trans wasMine.1)
      (sameOwner.trans wasMine.2)
  cases right with
  | none =>
    exact .of_cut (by simp [settle]) leftIn holds old (by simp [settle])
      (joined.finish stopped taken) mineAll
  | some y => ?_
  obtain ⟨t, rfl, otherY, begins, past⟩ := stopped
  have notRight := left_ne_right leftIn old
  have clear := clear_cut joined.ahead past otherY
  exact .of_cut_right (by simp [settle, notRight]) leftIn holds old (by simp [settle, notRight])
    ((joined.cutStart begins past).finish clear taken) mineAll

/-- The request replaced a lock, and nothing behind that lock was looked at. -/
theorem settles_replaced (given : newFl = some id) (sub : (ids (p ++ rest)).Sublist (ids g))
    (mem : ∀ x ∈ p ++ rest, x ∈ g)
    (ahead : Ahead types g (cutLeft left (req.start - 1) p) rest req.type req.start req.last)
    (leftIn : ∀ id, left = some id → id ∈ ids p) (exactly : kept ↔ Clear req.type req.last rest) :
    Settles types a g c req kept (settle ⟨a ++ (p ++ [{ req with id }]), rest ++
      c, { req with id }, true, left, none, none, woken, false⟩ exist newFl2) := by
  have distinct' : (ids (a ++ ((p ++ { req with id } :: rest) ++ c))).Nodup :=
    distinct_insert sub (by simp [given]) apart
  have locks : (settle ⟨a ++ (p ++ [{ req with id }]), rest ++ c, { req with id }, true, left, none,
      none, woken, false⟩ exist newFl2).locks =
      a ++ ((cutLeft left (req.start - 1) p ++ { req with id } :: rest) ++ c) := by
    rw [← cutLeft_passed leftIn distinct']
    simp [settle]
  refine ⟨fun failed => absurd (by simp [settle]) failed, fun _ => ⟨_, locks, fun holds => ?_,
    fun not tidy => ?_, ?_, ?_, ?_⟩⟩
  · exact ahead.insert (r := { req with id }) (exactly.mp holds) range taken rfl rfl rfl
  · refine not (exactly.mpr fun z inRest => ?_)
    have := (pairwise_append.mp tidy).2.1
    have := (pairwise_cons.mp this).1 z inRest
    exact ⟨this.1, this.2 rfl⟩
  · intro byte t held
    rcases at_append.mp held with ⟨fl, inCut, starts, ends, isType⟩ | held
    · have low := (ahead.below fl inCut).1
      refine .inl ((ahead.same byte t (by omega)).mp ?_)
      exact ⟨fl, mem_append_left _ inCut, starts, ends, isType⟩
    rcases at_cons.mp held with ⟨starts, ends, isType⟩ | ⟨fl, inRest, inside⟩
    · exact .inr ⟨isType.symm, isType ▸ taken, starts, ends⟩
    exact .inl ⟨fl, mem fl (mem_append_right _ inRest), inside⟩
  · exact mine_cutLeft (Mine.insert (fun fl isIn => mine fl (mem fl isIn)) isPosix rfl)
  rw [locks]
  simp only [map_append, map_cons, ids_cutLeft] at distinct' ⊢
  exact distinct'

theorem Ends.settles (ends : Ends types a c g g req newFl kept w) :
    Settles types a g c req kept (settle w exist newFl2) := by
  cases ends with
  | between same ahead stopped starts leftIn holds =>
    exact settles_between taken range isPosix mine apart same ahead stopped starts leftIn holds
  | around same ahead starts past other holds =>
    exact settles_around taken range isPosix mine apart same ahead starts past other holds
  | joined sub mem like joined stopped leftIn holds =>
    exact settles_joined taken mine apart sub mem like joined stopped leftIn holds
  | replaced given sub mem ahead leftIn exactly =>
    exact settles_replaced taken range isPosix mine apart given sub mem ahead leftIn exactly
  | failed noLock same => ?_
  refine .of_failed ?_ ?_
  · simp [settle, noLock]
  simp [settle, noLock, same]

end

section

variable (isUnlock : req.type = .unlock) (holds : kept) (mine : Mine req g)
variable (apart : (ids (a ++ (g ++ c)) ++ newFl2.toList).Nodup)
include isUnlock holds mine apart

/-- Bytes are given back: the locks left of them end before, those right of them start after. -/
theorem settles_removed (sub : (ids (p ++ rest)).Sublist (ids g)) (mem : ∀ x ∈ p ++ rest, x ∈ g)
    (ahead : Ahead types g (cutLeft left (req.start - 1) p) rest .unlock req.start req.last)
    (stopped : Stopped .unlock req.last rest right)
    (starts : ∀ y, right = some y → req.start ≤ y.start)
    (leftIn : ∀ id, left = some id → id ∈ ids p) :
    Settles types a g c req kept
      (settle ⟨a ++ p, rest ++ c, req, true, left, right, newFl, woken, false⟩ exist newFl2) := by
  have old : (ids (a ++ ((p ++ rest) ++ c))).Nodup := distinct_sublist sub (nodup_append.mp apart).1
  have mineAll : Mine req (p ++ rest) :=
    fun fl isIn => mine fl (mem fl isIn)
  cases right with
  | none =>
    refine .of_cut (v := req.start - 1) (by simp [settle]) leftIn holds old (by simp [settle]) ?_
      mineAll
    rw [isUnlock]
    exact ahead.remove stopped
  | some y => ?_
  obtain ⟨t, rfl, otherY, begins, past⟩ := stopped
  have notRight := left_ne_right (q := []) leftIn old
  have clear := clear_cut (lined_append.mp ahead.lined).2.1 past otherY
  refine .of_cut_right (q := []) (v := req.start - 1) (w := req.last + 1)
    (by simp [settle, notRight]) leftIn holds old (by simp [settle, notRight]) ?_ mineAll
  rw [isUnlock]
  exact (ahead.cutStart (starts y rfl) begins past).remove clear

/-- A lock around the bytes given back is cut in two. -/
theorem settles_hole (same : p ++ y :: t = g)
    (ahead : Ahead types g p (y :: t) .unlock req.start req.last) (starts : y.start < req.start)
    (past : req.last < y.last) (other : y.type ≠ .unlock) (range : req.start ≤ req.last) :
    Settles types a g c req kept (settle
      ⟨a ++ p, y :: t ++ c, req, true, some y.id, some y, newFl, woken, false⟩ exist newFl2) := by
  cases newFl2 with
  | none => exact .of_failed (by simp [settle]) (by simp [settle, ← same])
  | some id2 => ?_
  have clear := clear_cut (lined_append.mp ahead.lined).2.1 past other
  refine .of_split (q := []) (v := req.start - 1) (w := req.last + 1) (by simp [settle]) holds same
    (by simp [settle]) ?_ mine (by simp [Mine]) apart
  rw [isUnlock]
  exact (ahead.split starts past range other id2).remove clear

theorem EndsUnlock.settles (ends : EndsUnlock types a c g g req newFl w)
    (range : req.start ≤ req.last) : Settles types a g c req kept (settle w exist newFl2) := by
  have old := (nodup_append.mp apart).1
  cases ends with
  | @untouched p rest woken same ahead clear =>
    have left : (settle ⟨a ++ p, rest ++ c, req, false, none, none, newFl, woken, false⟩ exist
        newFl2).locks = a ++ (g ++ c) := by
      simp [settle, isUnlock, ← same]
    cases exist with
    | true => exact .of_failed (by simp [settle, isUnlock]) left
    | false => ?_
    refine .of_applied g (by simp [settle, isUnlock]) left holds ?_ mine old
    rw [isUnlock]
    exact same ▸ ahead.remove clear
  | removed sub mem ahead stopped starts leftIn =>
    exact settles_removed isUnlock holds mine apart sub mem ahead stopped starts leftIn
  | around same ahead starts past other =>
    exact settles_hole isUnlock holds mine apart same ahead starts past other range

end

/-- The walk over the locks of one owner and what is made of it. -/
theorem settles_walk [DecidableEq Owner] (lined : Lined types g) (range : req.start ≤ req.last)
    (isPosix : req.posix = true) (mine : Mine req g) (locked : ∀ fl ∈ g, fl.type ≠ .unlock)
    (stops : Stops req.owner c)
    (apart : (ids (a ++ (g ++ c)) ++ (newFl.toList ++ newFl2.toList)).Nodup) :
    Settles types a g c req (req.type = .unlock ∨ Intact req.type req.start req.last g)
      (settle (walk ⟨a, [], req, false, none, none, newFl, [], false⟩ (g ++ c)) exist newFl2) := by
  have owned (fl : FileLock Owner) (isIn : fl ∈ g) := (mine fl isIn).2
  have front : (ids (a ++ ([] ++ g))).Nodup := by
    refine (nodup_append.mp apart).1.sublist (Sublist.map _ ?_)
    exact .append_left (sublist_append_left ..) _
  by_cases isUnlock : req.type = .unlock
  · have ends : EndsUnlock types a c g g req newFl
        (walk ⟨a ++ [], [], req, false, none, none, newFl, [], false⟩ (g ++ c)) :=
      walk_unlock isUnlock lined.ahead front (by simp) (fun _ => ⟨rfl, rfl⟩) (by simp) (.refl _)
        (fun _ isIn => isIn) owned locked stops
    rw [append_nil] at ends
    refine EndsUnlock.settles isUnlock (.inl isUnlock) mine (apart.sublist ?_) ends range
    exact .append_left (sublist_append_right ..) _
  have ends : Ends types a c g g req newFl (Intact req.type req.start req.last g)
      (walk ⟨a ++ [], [], req, false, none, none, newFl, [], false⟩ (g ++ c)) :=
    walk_ahead isUnlock range lined.ahead front (by simp) (by simp) owned stops
  rw [append_nil] at ends
  have same : (req.type = .unlock ∨ Intact req.type req.start req.last g) =
      Intact req.type req.start req.last g := by simp [isUnlock]
  rw [same]
  exact Ends.settles isUnlock range isPosix mine apart ends

end

end TinyKernel.Locks
