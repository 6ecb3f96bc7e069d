import Mathlib.Algebra.Order.Ring.Int
import Mathlib.Order.ConditionallyCompleteLattice.Defs
import Mathlib.Order.ConditionallyCompletePartialOrder.Defs
import TinyKernel.Locks.Code

/-! The locks of one owner as a map from bytes to lock types, and what the single changes that a
request makes to them do to that map. -/

namespace TinyKernel.Locks

open List

variable {Owner : Type}

/-- Some lock of the list has this type at this byte. -/
def At (locks : List (FileLock Owner)) (byte : Int) (type : LockType) : Prop :=
  ∃ fl ∈ locks, fl.start ≤ byte ∧ byte ≤ fl.last ∧ fl.type = type

/-- One lock ends before the next one starts, and does not touch it if both are of one of the given
types. -/
def Apart (types : LockType → Prop) (first second : FileLock Owner) : Prop :=
  first.last < second.start ∧
    (types first.type → first.type = second.type → first.last + 1 < second.start)

/-- The locks of one owner in order. -/
structure Lined (types : LockType → Prop) (locks : List (FileLock Owner)) : Prop where
  range : ∀ fl ∈ locks, fl.start ≤ fl.last
  apart : locks.Pairwise (Apart types)

section

variable {x : List (FileLock Owner)} {fl : FileLock Owner} {byte : Int} {type : LockType}

@[simp] theorem at_nil : ¬ At ([] : List (FileLock Owner)) byte type := by simp [At]

@[simp] theorem at_append : At (x ++ y) byte type ↔ At x byte type ∨ At y byte type := by
  simp only [At, mem_append]
  constructor
  · rintro ⟨fl, mem | mem, rest⟩
    · exact .inl ⟨fl, mem, rest⟩
    exact .inr ⟨fl, mem, rest⟩
  rintro (⟨fl, mem, rest⟩ | ⟨fl, mem, rest⟩)
  · exact ⟨fl, .inl mem, rest⟩
  exact ⟨fl, .inr mem, rest⟩

@[simp] theorem at_cons :
    At (fl :: x) byte type ↔
      (fl.start ≤ byte ∧ byte ≤ fl.last ∧ fl.type = type) ∨ At x byte type := by
  simp [At]

/-- No lock of the list reaches the byte. -/
theorem not_at_of_above (above : ∀ fl ∈ x, byte < fl.start) : ¬ At x byte type := by
  rintro ⟨fl, mem, starts, _⟩
  have := above fl mem
  omega

theorem not_at_of_below (below : ∀ fl ∈ x, fl.last < byte) : ¬ At x byte type := by
  rintro ⟨fl, mem, _, ends, _⟩
  have := below fl mem
  omega

end

section

variable {types : LockType → Prop} {d rest : List (FileLock Owner)} {fl : FileLock Owner}

theorem lined_append :
    Lined types (d ++ rest) ↔
      Lined types d ∧ Lined types rest ∧ ∀ x ∈ d, ∀ y ∈ rest, Apart types x y := by
  constructor
  · rintro ⟨range, apart⟩
    obtain ⟨first, second, cross⟩ := pairwise_append.mp apart
    exact ⟨⟨fun x mem => range x (by simp [mem]), first⟩,
      ⟨fun x mem => range x (by simp [mem]), second⟩, cross⟩
  rintro ⟨first, second, cross⟩
  refine ⟨fun x mem => ?_, pairwise_append.mpr ⟨first.apart, second.apart, cross⟩⟩
  rcases mem_append.mp mem with mem | mem
  · exact first.range x mem
  exact second.range x mem

theorem lined_cons :
    Lined types (fl :: rest) ↔
      fl.start ≤ fl.last ∧ (∀ y ∈ rest, Apart types fl y) ∧ Lined types rest := by
  constructor
  · rintro ⟨range, apart⟩
    obtain ⟨head, tail⟩ := pairwise_cons.mp apart
    exact ⟨range fl (by simp), head, fun x mem => range x (by simp [mem]), tail⟩
  rintro ⟨here, head, tail⟩
  refine ⟨fun x mem => ?_, pairwise_cons.mpr ⟨head, tail.apart⟩⟩
  rcases mem_cons.mp mem with rfl | mem
  · exact here
  exact tail.range x mem

theorem lined_nil : Lined types ([] : List (FileLock Owner)) := ⟨by simp, .nil⟩

theorem lined_singleton (range : fl.start ≤ fl.last) : Lined types [fl] :=
  lined_cons.mpr ⟨range, by simp, lined_nil⟩

/-- Where one lock of a list in order has a byte, no other has it. -/
theorem Lined.at_head (lined : Lined types (fl :: rest)) (inside : byte ≤ fl.last) :
    ¬ At rest byte type :=
  not_at_of_above fun y mem => by
    have := ((lined_cons.mp lined).2.1 y mem).1
    omega

end

/-- What a request for this type on `[s, e]` is to make of the locks of its owner. -/
structure Applied (types : LockType → Prop) (g g' : List (FileLock Owner)) (type : LockType)
    (s e : Int) : Prop where
  lined : Lined types g'
  inside : ∀ byte t, s ≤ byte → byte ≤ e → (At g' byte t ↔ t = type ∧ type ≠ .unlock)
  outside : ∀ byte t, byte < s ∨ e < byte → (At g' byte t ↔ At g byte t)

/-- The walk before it has put the request into the list: the locks passed lie below it. -/
structure Ahead (types : LockType → Prop) (g d rest : List (FileLock Owner)) (type : LockType)
    (s e : Int) : Prop where
  lined : Lined types (d ++ rest)
  below : ∀ x ∈ d, x.last < s ∧ (x.type = type → x.last + 1 < s)
  same : ∀ byte t, byte < s ∨ e < byte → (At (d ++ rest) byte t ↔ At g byte t)

/-- The walk after it has joined the request with a lock of the list. -/
structure Joined (types : LockType → Prop) (g d : List (FileLock Owner)) (r : FileLock Owner)
    (rest : List (FileLock Owner)) (type : LockType) (s e : Int) : Prop where
  kind : r.type = type
  start : r.start ≤ s
  last : e ≤ r.last
  passed : Lined types (d ++ [r])
  ahead : Lined types rest
  starts : ∀ y ∈ rest, r.start ≤ y.start
  upTo : ∀ byte t, byte ≤ r.last →
    (At (d ++ [r]) byte t ↔ if s ≤ byte ∧ byte ≤ e then t = type else At g byte t)
  beyond : ∀ byte t, r.last < byte → (At rest byte t ↔ At g byte t)

section

variable {types : LockType → Prop} {g d rest : List (FileLock Owner)} {type : LockType} {s e : Int}
    {y : FileLock Owner}

theorem Lined.ahead (lined : Lined types g) : Ahead types g [] g type s e :=
  ⟨lined, by simp, fun _ _ _ => Iff.rfl⟩

variable (ahead : Ahead types g d (y :: rest) type s e)
include ahead

/-- A lock gives way to parts of itself that hold the same bytes outside the request, and the parts
below the request are passed. -/
theorem Ahead.parts (below above : List (FileLock Owner)) (lined : Lined types (below ++ above))
    (within : ∀ x ∈ below ++ above, y.start ≤ x.start ∧ x.last ≤ y.last ∧ x.type = y.type)
    (low : ∀ x ∈ below, x.last < s ∧ (x.type = type → x.last + 1 < s))
    (same : ∀ byte t, byte < s ∨ e < byte → (At (below ++ above) byte t ↔ At [y] byte t)) :
    Ahead types g (d ++ below) (above ++ rest) type s e := by
  obtain ⟨first, second, cross⟩ := lined_append.mp ahead.lined
  obtain ⟨_, head, tail⟩ := lined_cons.mp second
  have assoc : (d ++ below) ++ (above ++ rest) = d ++ ((below ++ above) ++ rest) := by simp
  refine ⟨?_, forall_mem_append.mpr ⟨ahead.below, low⟩, fun byte t out => ?_⟩
  · rw [assoc]
    refine lined_append.mpr ⟨first, lined_append.mpr ⟨lined, tail, fun x isPart z inRest => ?_⟩,
      fun x inD => forall_mem_append.mpr ⟨fun z isPart => ?_, fun z inRest => ?_⟩⟩
    · obtain ⟨_, ends, sameType⟩ := within x isPart
      have := head z inRest
      rw [Apart, sameType]
      exact ⟨by have := this.1; omega, fun ofType agrees => by have := this.2 ofType agrees; omega⟩
    · obtain ⟨starts, _, sameType⟩ := within z isPart
      have := cross x inD y (.head _)
      rw [Apart, sameType]
      exact ⟨by have := this.1; omega, fun ofType agrees => by have := this.2 ofType agrees; omega⟩
    exact cross x inD z (.tail _ inRest)
  have agree := same byte t out
  rw [assoc, ← ahead.same byte t out]
  simp only [at_append, at_cons, at_nil, or_false] at agree ⊢
  rw [agree]

/-- A lock below the request is passed. -/
theorem Ahead.pass (low : y.last < s) (noTouch : y.type = type → y.last + 1 < s) :
    Ahead types g (d ++ [y]) rest type s e :=
  ahead.parts [y] [] (lined_singleton (ahead.lined.range y (by simp))) (by simp)
    (by simpa using ⟨low, noTouch⟩) fun _ _ _ => Iff.rfl

/-- A lock inside the request is deleted. -/
theorem Ahead.drop (starts : s ≤ y.start) (ends : y.last ≤ e) : Ahead types g d rest type s e := by
  have parts := ahead.parts [] [] lined_nil (by simp) (by simp) fun byte t out => by
    simp only [append_nil, at_cons, at_nil, or_false, false_iff]
    omega
  rw [append_nil] at parts
  exact parts

/-- The part of a lock that lies in the request is cut off at its end. -/
theorem Ahead.cutLast (starts : y.start < s) (reaches : s ≤ y.last) (ends : y.last ≤ e)
    (other : y.type ≠ type) : Ahead types g (d ++ [{ y with last := s - 1 }]) rest type s e := by
  refine ahead.parts [{ y with last := s - 1 }] [] (lined_singleton (by simp only; omega)) ?_
    (by simpa using other) fun byte t out => ?_
  · simp only [append_nil, mem_singleton, forall_eq]
    exact ⟨le_refl _, by omega, trivial⟩
  have cut : byte ≤ s - 1 ↔ byte ≤ y.last := by omega
  simp [cut]

/-- The part of a lock that lies in the request is cut off at its start. -/
theorem Ahead.cutStart (starts : s ≤ y.start) (begins : y.start ≤ e) (ends : e < y.last) :
    Ahead types g d ({ y with start := e + 1 } :: rest) type s e := by
  have parts := ahead.parts [] [{ y with start := e + 1 }] (lined_singleton (by simp only; omega))
    (by simpa using by omega) (by simp) fun byte t out => by
      have cut : e + 1 ≤ byte ↔ y.start ≤ byte := by omega
      simp [cut]
  rw [append_nil] at parts
  exact parts

/-- A lock around the request is cut in two. -/
theorem Ahead.split (starts : y.start < s) (ends : e < y.last) (range : s ≤ e)
    (other : y.type ≠ type) (id : Id) :
    Ahead types g (d ++ [{ y with id, last := s - 1 }]) ({ y with start := e + 1 } :: rest) type s
      e := by
  refine ahead.parts [{ y with id, last := s - 1 }] [{ y with start := e + 1 }] ?_ ?_
    (by simpa using other) fun byte t out => ?_
  · refine lined_cons.mpr ⟨by simp only; omega, ?_, lined_singleton (by simp only; omega)⟩
    intro z isCut
    rw [mem_singleton.mp isCut]
    simp only [Apart]
    omega
  · simpa using ⟨by omega, by omega⟩
  simp only [singleton_append, at_cons, at_nil, or_false]
  constructor
  · rintro (⟨_, _, same⟩ | ⟨_, _, same⟩)
    · exact ⟨by omega, by omega, same⟩
    exact ⟨by omega, by omega, same⟩
  rintro ⟨_, _, same⟩
  rcases out with low | high
  · exact .inl ⟨by omega, by omega, same⟩
  exact .inr ⟨by omega, by omega, same⟩

end

/-- Nothing ahead is in the way of a lock up to `last`. -/
def Clear (type : LockType) (last : Int) (rest : List (FileLock Owner)) : Prop :=
  ∀ y ∈ rest, last < y.start ∧ (y.type = type → last + 1 < y.start)

section

variable {types : LockType → Prop} {g d rest : List (FileLock Owner)} {type : LockType} {s e : Int}
    {r : FileLock Owner}

theorem Ahead.not_at (ahead : Ahead types g d rest type s e) (there : s ≤ byte) : ¬ At d byte t :=
  not_at_of_below fun x inD => by
    have := (ahead.below x inD).1
    omega

theorem Clear.not_at (clear : Clear type last rest) (inside : byte ≤ last) : ¬ At rest byte t :=
  not_at_of_above fun z inRest => by
    have := (clear z inRest).1
    omega

/-- The request goes between the locks below it and those above. -/
theorem Ahead.insert (ahead : Ahead types g d rest type s e) (clear : Clear type e rest)
    (range : s ≤ e) (taken : type ≠ .unlock) (isType : r.type = type) (isStart : r.start = s)
    (isLast : r.last = e) : Applied types g (d ++ r :: rest) type s e := by
  obtain ⟨first, second, cross⟩ := lined_append.mp ahead.lined
  refine ⟨lined_append.mpr ⟨first, lined_cons.mpr ⟨by omega, fun z inRest => ?_, second⟩, ?_⟩, ?_,
    ?_⟩
  · have := clear z inRest
    exact ⟨by omega, fun _ same => by have := this.2 (by rw [← same, isType]); omega⟩
  · intro x inD z mem
    rcases mem_cons.mp mem with isR | inRest
    · have := ahead.below x inD
      rw [isR, Apart, isType, isStart]
      exact ⟨this.1, fun _ => this.2⟩
    exact cross x inD z inRest
  · intro byte t low high
    simp only [at_append, at_cons, ahead.not_at low, clear.not_at high, false_or, or_false, isType]
    constructor
    · rintro ⟨_, _, rfl⟩
      exact ⟨rfl, taken⟩
    rintro ⟨rfl, _⟩
    exact ⟨by omega, by omega, rfl⟩
  intro byte t out
  rw [← ahead.same byte t out]
  simp only [at_append, at_cons]
  have notR : ¬ (r.start ≤ byte ∧ byte ≤ r.last ∧ r.type = t) := by omega
  tauto

/-- Nothing goes between them. -/
theorem Ahead.remove (ahead : Ahead types g d rest .unlock s e) (clear : Clear .unlock e rest) :
    Applied types g (d ++ rest) .unlock s e := by
  refine ⟨ahead.lined, fun byte t low high => ?_, ahead.same⟩
  simp [ahead.not_at low, clear.not_at high]

end

section

variable {types : LockType → Prop} {g d rest : List (FileLock Owner)} {type : LockType} {s e : Int}
    {r : FileLock Owner}

/-- The request is joined with a lock of its type that it overlaps or touches. -/
theorem Ahead.join (ahead : Ahead types g d (y :: rest) type s e) (range : s ≤ e)
    (same : y.type = type) (low : s ≤ y.last + 1) (high : y.start ≤ e + 1) (isType : r.type = type)
    (isStart : r.start = min y.start s) (isLast : r.last = max y.last e) :
    Joined types g d r rest type s e := by
  obtain ⟨first, second, cross⟩ := lined_append.mp ahead.lined
  obtain ⟨here, head, tail⟩ := lined_cons.mp second
  have apartY (x : FileLock Owner) (inD : x ∈ d) := cross x inD y (.head _)
  have belowR (x : FileLock Owner) (inD : x ∈ d) : Apart types x r := by
    have fromY := apartY x inD
    have fromS := ahead.below x inD
    rw [Apart, same] at fromY
    rw [Apart, isType]
    refine ⟨by omega, fun ofType agrees => ?_⟩
    have := fromY.2 ofType agrees
    have := fromS.2 agrees
    omega
  refine ⟨isType, by omega, by omega, lined_append.mpr ⟨first, lined_singleton (by omega), ?_⟩,
    tail, ?_, ?_, ?_⟩
  · intro x inD z isR
    rw [mem_singleton.mp isR]
    exact belowR x inD
  · intro z inRest
    have := (head z inRest).1
    omega
  · intro byte t upTo
    simp only [at_append, at_cons, at_nil, or_false, isType]
    by_cases inside : s ≤ byte ∧ byte ≤ e
    · rw [if_pos inside]
      simp only [ahead.not_at inside.1, false_or]
      constructor
      · rintro ⟨_, _, agrees⟩
        exact agrees.symm
      rintro rfl
      exact ⟨by omega, by omega, rfl⟩
    rw [if_neg inside, ← ahead.same byte t (by omega)]
    simp only [at_append, at_cons, same]
    by_cases inY : y.start ≤ byte ∧ byte ≤ y.last
    · have notRest : ¬ At rest byte t := second.at_head inY.2
      have starts : r.start ≤ byte ↔ y.start ≤ byte := by omega
      have ends : byte ≤ r.last ↔ byte ≤ y.last := by omega
      simp [notRest, starts, ends]
    have notR : ¬ (r.start ≤ byte ∧ byte ≤ r.last ∧ type = t) := by omega
    have notRest : ¬ At rest byte t := not_at_of_above fun z inRest => by
      have := (head z inRest).1
      omega
    tauto
  intro byte t beyond
  rw [← ahead.same byte t (by omega)]
  have notD : ¬ At d byte t := not_at_of_below fun x inD => by
    have := (apartY x inD).1
    omega
  simp only [at_append, at_cons]
  have notY : ¬ (y.start ≤ byte ∧ byte ≤ y.last ∧ y.type = t) := by omega
  tauto

/-- The joined lock takes in another one of its type. -/
theorem Joined.absorb (joined : Joined types g d r (y :: rest) type s e) (same : y.type = type)
    (high : y.start ≤ r.last + 1) :
    Joined types g d { r with start := min y.start r.start, last := max y.last r.last } rest type s
      e := by
  obtain ⟨kind, start, last, passed, ahead, starts, upTo, beyond⟩ := joined
  obtain ⟨here, head, tail⟩ := lined_cons.mp ahead
  obtain ⟨first, _, cross⟩ := lined_append.mp passed
  have startY := starts y (.head _)
  have kept : min y.start r.start = r.start := by omega
  rw [kept]
  refine ⟨kind, start, by simp only; omega, lined_append.mpr ⟨first,
    lined_singleton (by simp only; omega), ?_⟩, tail, ?_, ?_, ?_⟩
  · intro x inD z isR
    rw [mem_singleton.mp isR]
    exact cross x inD r (by simp)
  · exact fun z inRest => starts z (.tail _ inRest)
  · intro byte t reach
    by_cases old : byte ≤ r.last
    · rw [← upTo byte t old]
      have wider : byte ≤ max y.last r.last ↔ byte ≤ r.last := by omega
      simp [wider]
    have inY : y.start ≤ byte ∧ byte ≤ y.last := by
      simp only at reach
      omega
    have notD : ¬ At d byte t := not_at_of_below fun x inD => by
      have := (cross x inD r (by simp)).1
      omega
    rw [if_neg (by omega), ← beyond byte t (by omega)]
    have notRest : ¬ At rest byte t := ahead.at_head inY.2
    have starts : r.start ≤ byte ↔ y.start ≤ byte := by omega
    have ends : byte ≤ max y.last r.last ↔ byte ≤ y.last := by omega
    simp only
      [at_append, at_cons, at_nil, or_false, notD, false_or, notRest, kind, same, starts, ends]
  intro byte t past
  simp only at past
  rw [← beyond byte t (by omega)]
  have notY : ¬ (y.start ≤ byte ∧ byte ≤ y.last ∧ y.type = t) := by omega
  simp only [at_cons]
  tauto

/-- A lock that the joined one covers is deleted. -/
theorem Joined.drop (joined : Joined types g d r (y :: rest) type s e) (ends : y.last ≤ r.last) :
    Joined types g d r rest type s e := by
  obtain ⟨kind, start, last, passed, ahead, starts, upTo, beyond⟩ := joined
  refine ⟨kind, start, last, passed, (lined_cons.mp ahead).2.2,
    fun z inRest => starts z (.tail _ inRest), upTo, fun byte t past => ?_⟩
  rw [← beyond byte t past]
  have notY : ¬ (y.start ≤ byte ∧ byte ≤ y.last ∧ y.type = t) := by omega
  simp only [at_cons]
  tauto

/-- What the joined lock covers of another one is cut off. -/
theorem Joined.cutStart (joined : Joined types g d r (y :: rest) type s e)
    (begins : y.start ≤ r.last) (ends : r.last < y.last) :
    Joined types g d r ({ y with start := r.last + 1 } :: rest) type s e := by
  obtain ⟨kind, start, last, passed, ahead, starts, upTo, beyond⟩ := joined
  obtain ⟨_, head, tail⟩ := lined_cons.mp ahead
  have range : r.start ≤ r.last := passed.range r (by simp)
  refine ⟨kind, start, last, passed, lined_cons.mpr ⟨by simp only; omega, head, tail⟩, ?_, upTo, ?_⟩
  · intro z mem
    rcases mem_cons.mp mem with isCut | inRest
    · rw [isCut]
      simp only
      omega
    exact starts z (.tail _ inRest)
  intro byte t past
  have cut : r.last + 1 ≤ byte ↔ y.start ≤ byte := by omega
  rw [← beyond byte t past]
  simp [cut]

/-- Nothing is left in the way of the joined lock. -/
theorem Joined.finish (joined : Joined types g d r rest type s e) (clear : Clear type r.last rest)
    (taken : type ≠ .unlock) : Applied types g (d ++ r :: rest) type s e := by
  obtain ⟨kind, start, last, passed, ahead, starts, upTo, beyond⟩ := joined
  have assoc : d ++ r :: rest = (d ++ [r]) ++ rest := by simp
  have belowR (x : FileLock Owner) (mem : x ∈ d ++ [r]) : x.last ≤ r.last := by
    rcases mem_append.mp mem with inD | isR
    · have := ((lined_append.mp passed).2.2 x inD r (by simp)).1
      have := passed.range r (by simp)
      omega
    rw [mem_singleton.mp isR]
  rw [assoc]
  refine ⟨lined_append.mpr ⟨passed, ahead, fun x mem z inRest => ?_⟩, ?_, ?_⟩
  · have := clear z inRest
    rcases mem_append.mp mem with inD | isR
    · have cross := (lined_append.mp passed).2.2 x inD r (by simp)
      have := passed.range r (by simp)
      have := cross.1
      simp only [Apart]
      omega
    rw [mem_singleton.mp isR]
    exact ⟨this.1, fun _ agrees => this.2 (by rw [← agrees, kind])⟩
  · intro byte t low high
    rw [at_append, upTo byte t (by omega), if_pos ⟨low, high⟩]
    simp [clear.not_at (by omega : byte ≤ r.last), taken]
  intro byte t out
  rw [at_append]
  by_cases reach : byte ≤ r.last
  · rw [upTo byte t reach, if_neg (by omega)]
    simp [clear.not_at reach]
  have notPassed : ¬ At (d ++ [r]) byte t := not_at_of_below fun x mem => by
    have := belowR x mem
    omega
  rw [← beyond byte t (by omega)]
  simp [notPassed]

end

end TinyKernel.Locks
