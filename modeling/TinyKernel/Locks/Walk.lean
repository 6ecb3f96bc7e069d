import TinyKernel.Locks.Ranges

/-! The walk over the locks of the request's owner. -/

namespace TinyKernel.Locks

open List

variable {Owner : Type} [DecidableEq Owner]

section

variable {x y : List (FileLock Owner)} {fl : FileLock Owner} {id : Id}

abbrev ids (locks : List (FileLock Owner)) : List Id := locks.map FileLock.id

omit [DecidableEq Owner]

variable {change : FileLock Owner → FileLock Owner}

theorem modify_of_notMem (out : id ∉ ids x) : modify id change x = x := by
  conv => rhs; rw [← map_id x]
  refine map_congr_left fun fl isIn => if_neg ?_
  exact fun same => out (mem_map.mpr ⟨fl, isIn, same⟩)

theorem modify_append : modify id change (x ++ y) = modify id change x ++ modify id change y :=
  map_append

theorem ids_modify (same : ∀ fl, (change fl).id = fl.id) : ids (modify id change x) = ids x := by
  rw [modify, ids, map_map]
  refine map_congr_left fun fl _ => ?_
  simp only [Function.comp]
  split
  · exact same fl
  rfl

theorem store_last (out : fl.id ∉ ids x) :
    store { fl with start, last } (x ++ [fl]) = x ++ [{ fl with start, last }] := by
  rw [store, modify_append, modify_of_notMem out]
  simp [modify]

theorem cutLeft_append :
    cutLeft left value (x ++ y) = cutLeft left value x ++ cutLeft left value y := by
  cases left with
  | none => rfl
  | some left => exact modify_append

theorem cutLeft_of_notMem (out : ∀ id, left = some id → id ∉ ids x) : cutLeft left value x = x := by
  cases left with
  | none => rfl
  | some left => exact modify_of_notMem (out left rfl)

theorem cutLeft_last {y : FileLock Owner} (out : y.id ∉ ids x) :
    cutLeft (some y.id) v (x ++ [y]) = x ++ [{ y with last := v }] := by
  rw [cutLeft_append, cutLeft_of_notMem fun id isLeft => Option.some.inj isLeft ▸ out]
  simp [cutLeft, setLast, modify]

theorem notMem_of_middle {after : List Id} (nodup : (before ++ id :: after).Nodup) :
    id ∉ before ∧ id ∉ after := by
  obtain ⟨_, behind, apart⟩ := nodup_append.mp nodup
  exact ⟨fun early => apart id early id (.head _) rfl, (nodup_cons.mp behind).1⟩

/-- The lock to the left stays the same when another one is passed. -/
theorem cutLeft_pass (leftIn : ∀ id, left = some id → id ∈ ids x) (out : fl.id ∉ ids x) :
    cutLeft left value (x ++ [fl]) = cutLeft left value x ++ [fl] := by
  rw [cutLeft_append, cutLeft_of_notMem (x := [fl])]
  intro id isLeft here
  rw [mem_singleton.mp here] at isLeft
  exact out (leftIn fl.id isLeft)

@[simp] theorem ids_cutLeft : ids (cutLeft left value x) = ids x := by
  cases left with
  | none => rfl
  | some left => exact ids_modify fun _ => rfl

end

/-- The locks behind those of the owner: the walk stops at the first. -/
def Stops (owner : Owner) : List (FileLock Owner) → Prop
  | [] => True
  | fl :: _ => fl.owner ≠ owner

variable {c g a p all : List (FileLock Owner)}

theorem walk_stops (stops : Stops s.request.owner c) : walk s c = { s with rest := c } := by
  cases c with
  | nil => rfl
  | cons fl c => ?_
  have other : posixSameOwner s.request fl = false := decide_eq_false (Ne.symm stops)
  simp [walk, other]

omit [DecidableEq Owner] in
/-- The locks behind one that starts above the request are above it, too. -/
theorem clear_above {types : LockType → Prop} {type : LockType} {last : Int} {y : FileLock Owner}
    {rest : List (FileLock Owner)} (lined : Lined types (y :: rest)) (low : last < y.start)
    (noTouch : y.type = type → last + 1 < y.start) : Clear type last (y :: rest) := by
  obtain ⟨rangeY, head, _⟩ := lined_cons.mp lined
  refine forall_mem_cons.mpr ⟨⟨low, noTouch⟩, fun z isIn => ?_⟩
  have := (head z isIn).1
  exact ⟨by omega, fun _ => by omega⟩

/-- What stops the walk: nothing more in the way of the request, or a lock that goes beyond it. -/
def Stopped (type : LockType) (last : Int) (rest : List (FileLock Owner)) :
    Option (FileLock Owner) → Prop
  | none => Clear type last rest
  | some y => ∃ t, rest = y :: t ∧ y.type ≠ type ∧ y.start ≤ last ∧ last < y.last

variable {types : LockType → Prop} {gr : List (FileLock Owner)}

/-- The walk has put the request into the list and goes on from there. -/
theorem walk_joined (a p c unread : List (FileLock Owner)) (left newFl : Option Id)
    (woken : List Id) (joined : Joined types g d r gr type s e) (fresh : r.id ∉ ids (a ++ p))
    (mine : ∀ y ∈ gr, y.owner = r.owner) (stops : Stops r.owner c) :
    ∃ (last : Int) (rest : List (FileLock Owner)) (right : Option (FileLock Owner))
      (woken' : List Id),
      walk ⟨a ++ (p ++ [r]), unread, r, true, left, none, newFl, woken, false⟩ (gr ++ c) =
          ⟨a ++ (p ++ [{ r with last }]), rest ++
            c, { r with last }, true, left, right, newFl, woken', false⟩ ∧ rest <:+ gr ∧
        Joined types g d { r with last } rest type s e ∧ Stopped type last rest right := by
  induction gr generalizing r woken with
  | nil =>
    exact ⟨r.last, [], none, woken, walk_stops stops, suffix_refl _, joined,
      fun y isIn => absurd isIn (by simp)⟩
  | cons y gr ih => ?_
  have isMine : posixSameOwner r y = true := decide_eq_true (mine y (.head _)).symm
  have startY := joined.starts y (.head _)
  have rangeY := joined.ahead.range y (.head _)
  have mineRest (z : FileLock Owner) (isIn : z ∈ gr) := mine z (.tail _ isIn)
  rw [cons_append, walk]
  simp only [isMine, Bool.not_true, Bool.false_eq_true, if_false]
  by_cases same : r.type = y.type
  · rw [if_pos same, if_neg (by omega)]
    have sameY : y.type = type := same.symm.trans joined.kind
    by_cases far : y.start - 1 > r.last
    · rw [if_pos far]
      exact ⟨r.last, y :: gr, none, woken, rfl, suffix_refl _, joined,
        clear_above joined.ahead (by omega) fun _ => by omega⟩
    have next := joined.absorb sameY (by omega)
    have kept : min y.start r.start = r.start := by omega
    rw [kept] at next
    have stored : store { r with start := r.start, last := max y.last r.last } (a ++ (p ++ [r])) =
        a ++ (p ++ [{ r with start := r.start, last := max y.last r.last }]) := by
      rw [← append_assoc, store_last fresh, append_assoc]
    rw [if_neg far, if_pos trivial, kept, stored]
    obtain ⟨last, rest, right, woken', ran, suffix, joined', stopped⟩ :=
      ih (woken ++ [y.id]) next fresh mineRest stops
    exact ⟨last, rest, right, woken', ran, suffix.trans (suffix_cons ..), joined', stopped⟩
  rw [if_neg same, if_neg (by omega)]
  have otherY : y.type ≠ type := fun isType => same (joined.kind.trans isType.symm)
  by_cases far : y.start > r.last
  · rw [if_pos far]
    exact ⟨r.last, y :: gr, none, woken, rfl, suffix_refl _, joined,
      clear_above joined.ahead (by omega) fun isType => absurd isType otherY⟩
  have notLeft : (if y.start < r.start then some y.id else left) = left := if_neg (by omega)
  simp only [if_neg far, notLeft, Bool.true_or, if_pos]
  by_cases around : y.last > r.last
  · rw [if_pos around]
    exact ⟨r.last, y ::
      gr, some y, woken, rfl, suffix_refl _, joined, gr, rfl, otherY, by omega, around⟩
  rw [if_neg around, if_pos startY]
  obtain ⟨last, rest, right, woken', ran, suffix, joined', stopped⟩ :=
    ih (woken ++ [y.id]) (joined.drop (by omega)) fresh mineRest stops
  exact ⟨last, rest, right, woken', ran, suffix.trans (suffix_cons ..), joined', stopped⟩

/-- A lock of another type inside the request is the last one that the request reaches, if no lock
of its own type was joined before. -/
def Intact (type : LockType) (s e : Int) (g : List (FileLock Owner)) : Prop :=
  ∀ before x after, g = before ++ x :: after → x.type ≠ type → s ≤ x.start → x.last ≤ e →
    (∀ y ∈ before, y.type = type → y.last < s - 1) → Clear type e after

section

omit [DecidableEq Owner]

variable {y : FileLock Owner} (gr : List (FileLock Owner))

theorem intact_of_none (out : ∀ x ∈ gr, x.type ≠ type → s ≤ x.start → ¬ x.last ≤ e) :
    Intact type s e gr := by
  rintro before x after rfl other starts ends _
  exact absurd ends (out x (by simp) other starts)

/-- A lock that is passed does not matter. -/
theorem intact_pass (out : y.type ≠ type → s ≤ y.start → ¬ y.last ≤ e)
    (low : y.type = type → y.last < s - 1) : Intact type s e (y :: gr) ↔ Intact type s e gr := by
  constructor
  · intro intact before x after shape other starts ends joinedNone
    refine intact (y :: before) x after (by rw [shape]; rfl) other starts ends fun z isIn => ?_
    rcases mem_cons.mp isIn with rfl | isIn
    · exact low
    exact joinedNone z isIn
  intro intact before x after shape other starts ends joinedNone
  cases before with
  | nil =>
    cases shape
    exact absurd ends (out other starts)
  | cons z before => ?_
  cases shape
  exact intact before x after rfl other starts ends fun z isIn =>
    joinedNone z (.tail _ isIn)

/-- After a lock that was joined everything is taken care of. -/
theorem intact_joined (same : y.type = type) (touches : s - 1 ≤ y.last) :
    Intact type s e (y :: gr) := by
  intro before x after shape other starts ends joinedNone
  cases before with
  | nil =>
    cases shape
    exact absurd same other
  | cons z before => ?_
  cases shape
  have := joinedNone y (.head _) same
  omega

/-- The first lock that is replaced is the last one looked at. -/
theorem intact_replaced (other : y.type ≠ type) (starts : s ≤ y.start) (ends : y.last ≤ e) :
    Intact type s e (y :: gr) ↔ Clear type e gr := by
  constructor
  · exact fun intact => intact [] y gr rfl other starts ends (by simp)
  intro clear before x after shape _ _ _ _ z isIn
  cases before with
  | nil =>
    cases shape
    exact clear z isIn
  | cons w before => ?_
  cases shape
  exact clear z (by simp [isIn])

end

/-- How the walk ends for a request to lock, over the locks `all` of its owner between `a` and
`c`. -/
inductive Ends (types : LockType → Prop) (a c g all : List (FileLock Owner)) (req : FileLock Owner)
    (newFl : Option Id) (intact : Prop) : Walk Owner → Prop where
  | between {p rest left right woken} (same : p ++ rest = all)
      (ahead : Ahead types g (cutLeft left (req.start - 1) p) rest req.type req.start req.last)
      (stopped : Stopped req.type req.last rest right)
      (starts : ∀ y, right = some y → req.start ≤ y.start)
      (leftIn : ∀ id, left = some id → id ∈ ids p) (holds : intact) :
      Ends types a c g all req newFl intact
        ⟨a ++ p, rest ++ c, req, false, left, right, newFl, woken, false⟩
  | around {p y t woken} (same : p ++ y :: t = all)
      (ahead : Ahead types g p (y :: t) req.type req.start req.last) (starts : y.start < req.start)
      (ends : req.last < y.last) (other : y.type ≠ req.type) (holds : intact) :
      Ends types a c g all req newFl intact
        ⟨a ++ p, y :: t ++ c, req, false, some y.id, some y, newFl, woken, false⟩
  | joined {p r rest left right woken} (sub : (ids (p ++ r :: rest)).Sublist (ids all))
      (mem : ∀ x ∈ p ++ rest, x ∈ all) (like : ∃ x ∈ all, r.owner = x.owner ∧ r.posix = x.posix)
      (joined : Joined types g (cutLeft left (r.start - 1) p) r rest req.type req.start req.last)
      (stopped : Stopped req.type r.last rest right) (leftIn : ∀ id, left = some id → id ∈ ids p)
      (holds : intact) :
      Ends types a c g all req newFl intact
        ⟨a ++ (p ++ [r]), rest ++ c, r, true, left, right, newFl, woken, false⟩
  | replaced {id p rest left woken} (given : newFl = some id)
      (sub : (ids (p ++ rest)).Sublist (ids all)) (mem : ∀ x ∈ p ++ rest, x ∈ all)
      (ahead : Ahead types g (cutLeft left (req.start - 1) p) rest req.type req.start req.last)
      (leftIn : ∀ id, left = some id → id ∈ ids p)
          (exactly : intact ↔ Clear req.type req.last rest) :
      Ends types a c g all req newFl intact ⟨a ++ (p ++ [{ req with id }]), rest ++
        c, { req with id }, true, left, none, none, woken, false⟩
  | failed {w : Walk Owner} (noLock : w.noLock = true) (same : w.passed ++ w.rest = a ++ all ++ c) :
      Ends types a c g all req newFl intact w

variable {req : FileLock Owner} {left newFl : Option Id} {woken : List Id}

theorem walk_ahead (taken : req.type ≠ .unlock) (range : req.start ≤ req.last)
    (ahead : Ahead types g (cutLeft left (req.start - 1) p) gr req.type req.start req.last)
    (unique : (ids (a ++ (p ++ gr))).Nodup) (leftIn : ∀ id, left = some id → id ∈ ids p)
    (beyond : left ≠ none → ∀ y ∈ gr, req.start < y.start) (mine : ∀ y ∈ gr, y.owner = req.owner)
    (stops : Stops req.owner c) :
    Ends types a c g (p ++ gr) req newFl (Intact req.type req.start req.last gr)
      (walk ⟨a ++ p, unread, req, false, left, none, newFl, woken, false⟩ (gr ++ c)) := by
  induction gr generalizing p left woken with
  | nil =>
    rw [nil_append, walk_stops stops]
    refine .between rfl ahead (fun y isIn => absurd isIn (by simp)) (by simp) leftIn ?_
    exact intact_of_none [] (by simp)
  | cons y gr ih => ?_
  have isMine : posixSameOwner req y = true := decide_eq_true (mine y (.head _)).symm
  obtain ⟨_, linedY, _⟩ := lined_append.mp ahead.lined
  obtain ⟨rangeY, headY, _⟩ := lined_cons.mp linedY
  have mineRest (z : FileLock Owner) (isIn : z ∈ gr) := mine z (.tail _ isIn)
  have freshY : y.id ∉ ids (a ++ p) := (notMem_of_middle (by simpa [ids] using unique)).1
  have notHere : y.id ∉ ids p := fun isIn => freshY (by simp [ids, isIn])
  have assoc : p ++ y :: gr = (p ++ [y]) ++ gr := by simp
  have noLeft (starts : y.start < req.start) : left = none := by
    by_contra some
    have := beyond some y (.head _)
    omega
  have intactAbove (low : req.last < y.last) : Intact req.type req.start req.last (y :: gr) := by
    refine intact_of_none (y :: gr) fun x isIn _ _ => ?_
    rcases mem_cons.mp isIn with rfl | isIn
    · omega
    have := (headY x isIn).1
    have := linedY.range x (.tail _ isIn)
    omega
  have passOn (low : y.last < req.start) (noTouch : y.type = req.type → y.last < req.start - 1) :
      Ends types a c g (p ++ y :: gr) req newFl (Intact req.type req.start req.last (y :: gr))
        (walk ⟨a ++ p ++ [y], unread, req, false, left, none, newFl, woken, false⟩ (gr ++ c)) := by
    rw [propext (intact_pass gr (fun _ _ => by omega) noTouch), assoc, append_assoc a]
    refine ih ?_ ?_ ?_ ?_ mineRest
    · rw [cutLeft_pass leftIn notHere]
      exact ahead.pass low fun same => by have := noTouch same; omega
    · rw [← assoc]
      exact unique
    · exact fun id isLeft => by simp [leftIn id isLeft]
    exact fun some z isIn => beyond some z (.tail _ isIn)
  rw [cons_append, walk]
  simp only [isMine, Bool.not_true, Bool.false_eq_true, if_false]
  by_cases same : req.type = y.type
  · rw [if_pos same]
    by_cases low : y.last < req.start - 1
    · rw [if_pos low]
      exact passOn (by omega) fun _ => low
    rw [if_neg low]
    by_cases far : y.start - 1 > req.last
    · rw [if_pos far]
      exact .between rfl ahead (clear_above linedY (by omega) fun _ => by omega) (by simp) leftIn
        (intactAbove (by omega))
    rw [if_neg far]
    have joined :=
      ahead.join range same.symm (by omega) (by omega)
        (r := { y with start := min y.start req.start, last := max y.last req.last }) same.symm rfl
        rfl
    have sameCut : cutLeft left (req.start - 1) p = cutLeft left (min y.start req.start - 1) p := by
      cases left with
      | none => rfl
      | some id => ?_
      have := beyond (by simp) y (.head _)
      rw [show min y.start req.start = req.start by omega]
    obtain ⟨last, rest, right, woken', ran, suffix, joined', stopped⟩ :=
      walk_joined a p c unread left newFl woken joined freshY
        (fun z isIn => (mineRest z isIn).trans (mine y (.head _)).symm)
        (by rw [mine y (.head _)]; exact stops)
    rw [append_assoc a p, ran]
    refine .joined ?_ ?_ ⟨y, by simp, rfl, rfl⟩ ?_ stopped leftIn
      (intact_joined gr same.symm (by omega))
    · simp only [ids, map_append, map_cons]
      exact .append_left (.cons_cons _ (suffix.sublist.map _)) _
    · intro x isIn
      rcases mem_append.mp isIn with inP | inRest
      · simp [inP]
      simp [suffix.mem inRest]
    rw [← sameCut]
    exact joined'
  rw [if_neg same]
  by_cases low : y.last < req.start
  · rw [if_pos low]
    exact passOn low fun isType => absurd isType.symm same
  rw [if_neg low]
  by_cases far : y.start > req.last
  · rw [if_pos far]
    exact .between rfl ahead (clear_above linedY far fun isType => absurd isType.symm same)
      (by simp) leftIn (intactAbove (by omega))
  have notUnlock : (false || decide (req.type = .unlock)) = false := by simp [taken]
  simp only [if_neg far, notUnlock]
  by_cases high : y.last > req.last
  · rw [if_pos high]
    by_cases starts : y.start < req.start
    · rw [if_pos starts]
      obtain rfl := noLeft starts
      exact .around rfl ahead starts high (Ne.symm same) (intactAbove high)
    rw [if_neg starts]
    exact .between rfl ahead ⟨gr, rfl, Ne.symm same, by omega, high⟩
      (fun z isY => by cases isY; omega) leftIn (intactAbove high)
  rw [if_neg high]
  by_cases starts : y.start ≥ req.start
  · rw [if_pos starts, if_neg (by omega : ¬ y.start < req.start)]
    cases newFl with
    | none => exact .failed rfl (by simp)
    | some id => ?_
    dsimp only
    rw [append_assoc a p]
    refine .replaced rfl ?_ ?_ (ahead.drop starts (by omega)) leftIn
      (intact_replaced gr (Ne.symm same) starts (by omega))
    · simp only [ids, map_append, map_cons]
      exact .append_left (sublist_cons_self ..) _
    intro x isIn
    rcases mem_append.mp isIn with inP | inRest
    · simp [inP]
    simp [inRest]
  rw [if_neg starts, if_pos (by omega : y.start < req.start)]
  obtain rfl := noLeft (by omega)
  rw [propext (intact_pass gr (fun _ inside => absurd inside starts)
    fun isType => absurd isType.symm same), assoc, append_assoc a]
  refine ih ?_ ?_ ?_ ?_ mineRest
  · rw [cutLeft_last notHere]
    exact ahead.cutLast (by omega) (by omega) (by omega) (Ne.symm same)
  · rw [← assoc]
    exact unique
  · intro id isLeft
    cases isLeft
    simp
  intro _ z isIn
  have := (headY z isIn).1
  omega

/-- How the walk ends for a request to unlock. -/
inductive EndsUnlock (types : LockType → Prop) (a c g all : List (FileLock Owner))
    (req : FileLock Owner) (newFl : Option Id) : Walk Owner → Prop where
  | untouched {p rest woken} (same : p ++ rest = all)
      (ahead : Ahead types g p rest .unlock req.start req.last)
          (clear : Clear .unlock req.last rest) :
      EndsUnlock types a c g all req newFl
        ⟨a ++ p, rest ++ c, req, false, none, none, newFl, woken, false⟩
  | removed {p rest left right woken} (sub : (ids (p ++ rest)).Sublist (ids all))
      (mem : ∀ x ∈ p ++ rest, x ∈ all)
      (ahead : Ahead types g (cutLeft left (req.start - 1) p) rest .unlock req.start req.last)
      (stopped : Stopped .unlock req.last rest right)
      (starts : ∀ y, right = some y → req.start ≤ y.start)
      (leftIn : ∀ id, left = some id → id ∈ ids p) :
      EndsUnlock types a c g all req newFl
        ⟨a ++ p, rest ++ c, req, true, left, right, newFl, woken, false⟩
  | around {p y t woken} (same : p ++ y :: t = all)
      (ahead : Ahead types g p (y :: t) .unlock req.start req.last) (starts : y.start < req.start)
      (ends : req.last < y.last) (other : y.type ≠ .unlock) :
      EndsUnlock types a c g all req newFl
        ⟨a ++ p, y :: t ++ c, req, true, some y.id, some y, newFl, woken, false⟩

omit [DecidableEq Owner] in
theorem EndsUnlock.clear {types : LockType → Prop} {gr : List (FileLock Owner)} {added : Bool}
    (ahead : Ahead types g (cutLeft left (req.start - 1) p) gr .unlock req.start req.last)
    (leftIn : ∀ id, left = some id → id ∈ ids p)
    (untouched : added = false → p ++ gr = all ∧ left = none)
    (sub : (ids (p ++ gr)).Sublist (ids all)) (mem : ∀ x ∈ p ++ gr, x ∈ all)
    (clear : Clear .unlock req.last gr) :
    EndsUnlock types a c g all req newFl
      ⟨a ++ p, gr ++ c, req, added, left, none, newFl, woken, false⟩ := by
  cases added with
  | false =>
    obtain ⟨same, rfl⟩ := untouched rfl
    exact .untouched same ahead clear
  | true => exact .removed sub mem ahead clear (by simp) leftIn

theorem walk_unlock (isUnlock : req.type = .unlock)
    (ahead : Ahead types g (cutLeft left (req.start - 1) p) gr .unlock req.start req.last)
    (unique : (ids (a ++ (p ++ gr))).Nodup) (leftIn : ∀ id, left = some id → id ∈ ids p)
    (untouched : added = false → p ++ gr = all ∧ left = none)
    (beyond : added = true → ∀ y ∈ gr, req.start < y.start)
    (sub : (ids (p ++ gr)).Sublist (ids all)) (mem : ∀ x ∈ p ++ gr, x ∈ all)
    (mine : ∀ y ∈ gr, y.owner = req.owner) (locked : ∀ y ∈ gr, y.type ≠ .unlock)
    (stops : Stops req.owner c) :
    EndsUnlock types a c g all req newFl
      (walk ⟨a ++ p, unread, req, added, left, none, newFl, woken, false⟩ (gr ++ c)) := by
  induction gr generalizing p left added woken with
  | nil =>
    rw [nil_append, walk_stops stops]
    exact .clear ahead leftIn untouched sub mem (fun y isIn => absurd isIn (by simp))
  | cons y gr ih => ?_
  have isMine : posixSameOwner req y = true := decide_eq_true (mine y (.head _)).symm
  have other : y.type ≠ .unlock := locked y (.head _)
  have differs : ¬ req.type = y.type := fun same => other (same.symm.trans isUnlock)
  obtain ⟨_, linedY, _⟩ := lined_append.mp ahead.lined
  obtain ⟨rangeY, headY, _⟩ := lined_cons.mp linedY
  have mineRest (z : FileLock Owner) (isIn : z ∈ gr) := mine z (.tail _ isIn)
  have lockedRest (z : FileLock Owner) (isIn : z ∈ gr) := locked z (.tail _ isIn)
  have freshY : y.id ∉ ids (a ++ p) := (notMem_of_middle (by simpa [ids] using unique)).1
  have notHere : y.id ∉ ids p := fun isIn => freshY (by simp [ids, isIn])
  have assoc : p ++ y :: gr = (p ++ [y]) ++ gr := by simp
  have gone : (p ++ gr).Sublist (p ++ y :: gr) := .append_left (sublist_cons_self ..) _
  rw [cons_append, walk]
  simp only [isMine, Bool.not_true, Bool.false_eq_true, if_false, if_neg differs]
  by_cases low : y.last < req.start
  · rw [if_pos low, append_assoc a]
    rw [assoc] at unique untouched sub mem
    refine ih ?_ unique ?_ untouched ?_ sub mem mineRest lockedRest
    · rw [cutLeft_pass leftIn notHere]
      exact ahead.pass low fun isType => absurd isType other
    · exact fun id isLeft => by simp [leftIn id isLeft]
    exact fun isAdded z isIn => beyond isAdded z (.tail _ isIn)
  rw [if_neg low]
  by_cases far : y.start > req.last
  · rw [if_pos far]
    exact .clear ahead leftIn untouched sub mem
      (clear_above linedY far fun isType => absurd isType other)
  have nowAdded : (added || decide (req.type = .unlock)) = true := by simp [isUnlock]
  simp only [if_neg far, nowAdded, if_true]
  by_cases starts : y.start < req.start
  · have fresh : added = false := by
      by_contra isAdded
      have := beyond (by simpa using isAdded) y (.head _)
      omega
    obtain ⟨same, rfl⟩ := untouched fresh
    rw [if_pos starts]
    by_cases high : y.last > req.last
    · rw [if_pos high]
      exact .around same ahead starts high other
    rw [if_neg high, if_neg (by omega), append_assoc a]
    rw [assoc] at unique sub mem
    refine ih ?_ unique ?_ (by simp) ?_ sub mem mineRest lockedRest
    · rw [cutLeft_last notHere]
      exact ahead.cutLast (by omega) (by omega) (by omega) other
    · intro id isLeft
      cases isLeft
      simp
    intro _ z isIn
    have := (headY z isIn).1
    omega
  rw [if_neg starts]
  by_cases high : y.last > req.last
  · rw [if_pos high]
    exact .removed sub mem ahead ⟨gr, rfl, other, by omega, high⟩ (fun z isY => by cases isY; omega)
      leftIn
  rw [if_neg high, if_pos (by omega)]
  refine ih (ahead.drop (by omega) (by omega)) ?_ leftIn (by simp) ?_ ?_ ?_ mineRest lockedRest
  · exact unique.sublist ((Sublist.append_left gone a).map _)
  · intro _ z isIn
    have := (headY z isIn).1
    omega
  · exact (gone.map _).trans sub
  exact fun x isIn => mem x (gone.mem isIn)

end TinyKernel.Locks
