import Mathlib.Algebra.EuclideanDomain.Defs
import Mathlib.Algebra.Order.Ring.Int
import Mathlib.Data.List.Basic
import Mathlib.Order.ConditionallyCompleteLattice.Defs
import Mathlib.Order.ConditionallyCompletePartialOrder.Defs
import TinyKernel.Percpu.Code

/-! The areas that a map describes, and what is so of a chunk between calls. -/

namespace TinyKernel.Percpu

/-- What one entry of the map and the next one stand for. -/
structure Area where
  start : Int
  stop : Int
  inUse : Bool
  deriving DecidableEq, Repr

def Area.size (a : Area) : Int := a.stop - a.start

def areas : List Int → List Area
  | x :: y :: rest => ⟨clear x, clear y, used x⟩ :: areas (y :: rest)
  | _ => []

/-- The bytes of the free areas. -/
def freeSum (list : List Area) : Int := (list.map fun a => if a.inUse then 0 else a.size).sum

@[simp] theorem used_mark : used (mark x) = true := by
  rw [used, mark, clear, decide_eq_true_eq]
  omega

@[simp] theorem clear_mark : clear (mark x) = clear x := by
  simp only [mark, clear]
  omega

theorem clear_of_free (free : used x = false) : clear x = x := by
  simp [used] at free
  simp [clear]
  omega

theorem clear_of_even (even : x % 2 = 0) : clear x = x := by simp [clear, even]

theorem clear_mark_of_even (even : x % 2 = 0) : clear (mark x) = x := by
  rw [clear_mark, clear_of_even even]

theorem used_of_even (even : x % 2 = 0) : used x = false := by simp [used, even]

theorem mark_clear_of_used (isUsed : used x = true) : mark (clear x) = x := by
  simp [used] at isUsed
  simp [mark, clear]
  omega

@[simp] theorem areas_single : areas [x] = [] := rfl

@[simp] theorem areas_cons_cons :
    areas (x :: y :: rest) = ⟨clear x, clear y, used x⟩ :: areas (y :: rest) := rfl

theorem areas_append : areas (front ++ x :: rest) = areas (front ++ [x]) ++ areas (x :: rest) := by
  induction front with
  | nil => simp
  | cons w front ih => ?_
  cases front with
  | nil => simp
  | cons v front => ?_
  simp only [List.cons_append, areas_cons_cons] at ih ⊢
  rw [ih]

theorem areas_snoc :
    areas (front ++ [z, x]) = areas (front ++ [z]) ++ [⟨clear z, clear x, used z⟩] := by
  rw [show front ++ [z, x] = front ++ z :: [x] from rfl, areas_append]
  rfl

/-- The last entry only says where the last area ends. -/
theorem areas_last (same : clear x = clear y) : areas (front ++ [x]) = areas (front ++ [y]) := by
  rcases List.eq_nil_or_concat' front with rfl | ⟨front, z, rfl⟩
  · rfl
  simp [areas_snoc, same]

@[simp] theorem freeSum_append : freeSum (a ++ b) = freeSum a + freeSum b := by simp [freeSum]

@[simp] theorem freeSum_cons : freeSum (a :: b) = (if a.inUse then 0 else a.size) + freeSum b := by
  simp [freeSum]

@[simp] theorem freeSum_nil : freeSum [] = 0 := rfl

/-- The offsets of a map increase. -/
def Increasing (map : List Int) : Prop := map.Pairwise fun x y => clear x < clear y

/-- No two neighbours are free. -/
def Coalesced (map : List Int) : Prop := map.IsChain fun x y => used x = true ∨ used y = true

/-- What is so of a chunk of this size between calls. -/
structure Tiled (unitSize : Int) (c : Chunk) : Prop where
  start : ∃ first rest, c.map = first :: rest ∧ clear first = 0
  sentry : c.map.getLast? = some (mark unitSize)
  increasing : Increasing c.map
  coalesced : Coalesced c.map
  freeSize : c.freeSize = freeSum (areas c.map)
  firstFree : ∀ x ∈ c.map.take c.firstFree, used x = true
  contigHint : ∀ a ∈ areas c.map, a.inUse = false → a.size ≤ c.contigHint

theorem allocChunk_tiled (even : unitSize % 2 = 0) (pos : 0 < unitSize) :
    Tiled unitSize (allocChunk unitSize populated below) := by
  have isClear := clear_of_even even
  refine ⟨⟨0, [mark unitSize], rfl, rfl⟩, rfl, ?_, ?_, ?_, ?_, ?_⟩
  · simp [allocChunk, Increasing, isClear, clear_of_even, pos]
  · simp [allocChunk, Coalesced]
  · simp [allocChunk, isClear, clear_of_even, used, Area.size]
  · simp [allocChunk]
  simp [allocChunk, isClear, clear_of_even, Area.size]

end TinyKernel.Percpu
