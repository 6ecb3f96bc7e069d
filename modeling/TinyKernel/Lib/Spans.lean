import Mathlib.Algebra.Order.Ring.Nat
import Mathlib.Algebra.Order.Sub.Basic
import Mathlib.Data.List.Chain
import Mathlib.Data.Nat.SuccPred

/-! Ordered lists of disjoint flagged ranges. Such a list stands for a partial map from
addresses to flags; filling gaps, cutting at a point and joining neighbours are
described by what they do to that map. -/

namespace TinyKernel.Lib

open List

/-- The addresses `base ≤ address < base + size`, with flags. -/
structure Span (Flags : Type*) where
  base : Nat
  size : Nat
  flags : Flags
  deriving DecidableEq, Repr

namespace Span

variable {Flags : Type*}

def limit (span : Span Flags) : Nat := span.base + span.size

def Covers (span : Span Flags) (address : Nat) : Prop :=
  span.base ≤ address ∧ address < span.limit

instance (span : Span Flags) (address : Nat) : Decidable (span.Covers address) :=
  inferInstanceAs (Decidable (_ ∧ _))

/-- Non-empty spans, each above the one before, the first at `low` or above. -/
def Ordered (low : Nat) : List (Span Flags) → Prop
  | [] => True
  | span :: rest => low ≤ span.base ∧ 0 < span.size ∧ Ordered span.limit rest

/-- The flags of the span that covers an address. -/
def lookup : List (Span Flags) → Nat → Option Flags
  | [], _ => none
  | span :: rest, address => if span.Covers address then some span.flags else lookup rest address

/-- No two neighbours with equal flags touch. -/
def Minimal (spans : List (Span Flags)) : Prop :=
  spans.IsChain fun first second => first.limit = second.base → first.flags ≠ second.flags

def total (spans : List (Span Flags)) : Nat := (spans.map size).sum

@[simp] theorem lookup_nil (address : Nat) : lookup ([] : List (Span Flags)) address = none := rfl

theorem lookup_cons (span : Span Flags) (rest : List (Span Flags)) (address : Nat) :
    lookup (span :: rest) address =
      if span.Covers address then some span.flags else lookup rest address := rfl

@[simp] theorem total_nil : total ([] : List (Span Flags)) = 0 := rfl

@[simp] theorem total_cons (span : Span Flags) (rest : List (Span Flags)) :
    total (span :: rest) = span.size + total rest := by
  simp [total]

@[simp] theorem total_append (first second : List (Span Flags)) :
    total (first ++ second) = total first + total second := by
  simp [total]

variable {low address : Nat} {spans : List (Span Flags)} {span : Span Flags}

section

variable (order : Ordered low spans)
include order

theorem Ordered.weaken (below : lower ≤ low) : Ordered lower spans := by
  cases spans with
  | nil => trivial
  | cons span rest => exact ⟨below.trans order.1, order.2⟩

theorem Ordered.base_le (mem : span ∈ spans) : low ≤ span.base ∧ 0 < span.size := by
  induction spans generalizing low with
  | nil => simp at mem
  | cons head rest ih => ?_
  obtain ⟨start, sized, later⟩ := order
  rcases mem_cons.mp mem with rfl | inRest
  · exact ⟨start, sized⟩
  have bound := ih later inRest
  have step : head.limit = head.base + head.size := rfl
  omega

theorem Ordered.eq_nil_of_total (nothing : total spans = 0) : spans = [] := by
  cases spans with
  | nil => rfl
  | cons span rest => ?_
  have sized := order.2.1
  rw [total_cons] at nothing
  omega

theorem Ordered.pairwise : spans.Pairwise fun first second => first.limit ≤ second.base := by
  induction spans generalizing low with
  | nil => exact .nil
  | cons span rest ih =>
    exact pairwise_cons.mpr ⟨fun other mem => (order.2.2.base_le mem).1, ih order.2.2⟩

theorem lookup_below (below : address < low) : lookup spans address = none := by
  induction spans generalizing low with
  | nil => rfl
  | cons span rest ih => ?_
  obtain ⟨start, sized, later⟩ := order
  have step : span.limit = span.base + span.size := rfl
  have out : ¬ span.Covers address := by simp only [Covers]; omega
  rw [lookup_cons, if_neg out]
  exact ih later (by omega)

end

theorem lookup_append (first second : List (Span Flags)) (address : Nat) :
    lookup (first ++ second) address = (lookup first address).or (lookup second address) := by
  induction first with
  | nil => rfl
  | cons span rest ih => ?_
  rw [cons_append, lookup_cons, lookup_cons, ih]
  split <;> rfl

theorem lookup_isSome :
    (lookup spans address).isSome = true ↔ ∃ span ∈ spans, span.Covers address := by
  induction spans with
  | nil => simp
  | cons span rest ih => ?_
  rw [lookup_cons]
  by_cases inside : span.Covers address
  · simp [inside]
  simp [inside, ih]

/-- In an ordered list the span that covers an address is the only one. -/
theorem Ordered.lookup_eq (order : Ordered low spans) (mem : span ∈ spans)
    (inside : span.Covers address) : lookup spans address = some span.flags := by
  induction spans generalizing low with
  | nil => simp at mem
  | cons head rest ih => ?_
  rw [lookup_cons]
  rcases mem_cons.mp mem with rfl | inRest
  · rw [if_pos inside]
  have above := (order.2.2.base_le inRest).1
  have out : ¬ head.Covers address := by
    simp only [Covers] at inside ⊢
    omega
  rw [if_neg out]
  exact ih order.2.2 inRest

section

variable (flags : Flags)

/-- The part of `[base, stop)` below `point`, if there is any. -/
def piece (base point : Nat) : List (Span Flags) :=
  if base < point then [⟨base, point - base, flags⟩] else []

/-- Insert the parts of `[base, stop)` that no span covers. -/
def fill (stop : Nat) : Nat → List (Span Flags) → List (Span Flags)
  | base, [] => piece flags base stop
  | base, span :: rest =>
    if stop ≤ span.base then piece flags base stop ++ span :: rest
    else if span.limit ≤ base then span :: fill stop base rest
    else piece flags base span.base ++ span :: fill stop (min span.limit stop) rest

/-- How many spans `fill` inserts. -/
def gaps (stop : Nat) : Nat → List (Span Flags) → Nat
  | base, [] => if base < stop then 1 else 0
  | base, span :: rest =>
    if stop ≤ span.base then if base < stop then 1 else 0
    else if span.limit ≤ base then gaps stop base rest
    else (if base < span.base then 1 else 0) + gaps stop (min span.limit stop) rest

/-- How many addresses `fill` adds. -/
def added (stop : Nat) : Nat → List (Span Flags) → Nat
  | base, [] => stop - base
  | base, span :: rest =>
    if stop ≤ span.base then stop - base
    else if span.limit ≤ base then added stop base rest
    else span.base - base + added stop (min span.limit stop) rest

variable {flags}

theorem total_piece (base point : Nat) : total (piece flags base point) = point - base := by
  unfold piece
  split
  · simp
  simp only [total_nil]; omega

theorem total_fill (stop base : Nat) (spans : List (Span Flags)) :
    total (fill flags stop base spans) = total spans + added stop base spans := by
  induction spans generalizing base with
  | nil => simp [fill, added, total_piece]
  | cons span rest ih => ?_
  simp only [fill, added]
  split_ifs <;> simp only [total_append, total_piece, total_cons, ih] <;> omega

theorem length_piece (base point : Nat) :
    (piece flags base point).length = if base < point then 1 else 0 := by
  unfold piece
  split <;> rfl

theorem length_fill (stop base : Nat) (spans : List (Span Flags)) :
    (fill flags stop base spans).length = spans.length + gaps stop base spans := by
  induction spans generalizing base with
  | nil => simp [fill, gaps, length_piece]
  | cons span rest ih => ?_
  simp only [fill, gaps]
  split
  · simp only [length_append, length_piece, length_cons]; omega
  split
  · simp only [length_cons, ih]; omega
  simp only [length_append, length_piece, length_cons, ih]; omega

theorem lookup_piece (base point address : Nat) :
    lookup (piece flags base point) address =
      if base ≤ address ∧ address < point then some flags else none := by
  unfold piece
  by_cases some : base < point
  · have step : (⟨base, point - base, flags⟩ : Span Flags).limit = point := by
      simp only [limit]; omega
    simp only [if_pos some, lookup_cons, lookup_nil, Covers, step]
  rw [if_neg some, if_neg (by omega)]
  rfl

variable {low base stop : Nat} {spans : List (Span Flags)}

theorem Ordered.piece_append {point : Nat} (start : low ≤ base)
    (order : Ordered (max base point) spans) : Ordered low (piece flags base point ++ spans) := by
  unfold piece
  split
  · exact ⟨start, by simp only; omega, order.weaken (by simp only [limit]; omega)⟩
  exact order.weaken (by omega)

theorem ordered_fill (start : low ≤ base) (order : Ordered low spans) :
    Ordered low (fill flags stop base spans) := by
  induction spans generalizing low base with
  | nil =>
    rw [fill, ← append_nil (piece flags base stop)]
    exact Ordered.piece_append start trivial
  | cons span rest ih => ?_
  obtain ⟨first, sized, later⟩ := order
  simp only [fill]
  split
  · by_cases empty : base < stop
    · exact Ordered.piece_append start ⟨by omega, sized, later⟩
    simp only [piece, if_neg empty, nil_append]
    exact ⟨first, sized, later⟩
  split
  · exact ⟨first, sized, ih (by omega) later⟩
  have tail : Ordered span.limit (fill flags stop (min span.limit stop) rest) := by
    by_cases inside : span.limit ≤ stop
    · exact ih (by omega) later
    -- the range ends inside this span, so nothing is left to fill
    have none : fill flags stop (min span.limit stop) rest = rest := by
      rw [Nat.min_eq_right (by omega)]
      cases rest with
      | nil => simp [fill, piece]
      | cons next others => ?_
      have above := later.1
      simp [fill, piece, show stop ≤ next.base by omega]
    rw [none]
    exact later
  by_cases lower : base < span.base
  · exact Ordered.piece_append start ⟨by omega, sized, tail⟩
  simp only [piece, if_neg lower, nil_append]
  exact ⟨first, sized, tail⟩

/-- A range above every span is filled by one span at the end. -/
theorem fill_above (range : base < stop) (below : ∀ span ∈ spans, span.limit ≤ base) :
    fill flags stop base spans = spans ++ [⟨base, stop - base, flags⟩] := by
  induction spans with
  | nil => simp [fill, piece, range]
  | cons span rest ih => ?_
  have past := below span (.head _)
  have start : span.base ≤ span.limit := Nat.le_add_right _ _
  rw [fill, if_neg (by omega), if_pos past, ih (fun other mem => below other (.tail _ mem)),
    cons_append]

theorem gaps_above (range : base < stop) (below : ∀ span ∈ spans, span.limit ≤ base) :
    gaps stop base spans = 1 := by
  induction spans with
  | nil => simp [gaps, range]
  | cons span rest ih => ?_
  have past := below span (.head _)
  have start : span.base ≤ span.limit := Nat.le_add_right _ _
  rw [gaps, if_neg (by omega), if_pos past, ih (fun other mem => below other (.tail _ mem))]

/-- Filling adds exactly the uncovered addresses of the range. -/
theorem lookup_fill (stop base address : Nat) (order : Ordered low spans) :
    lookup (fill flags stop base spans) address =
      (lookup spans address).or (if base ≤ address ∧ address < stop then some flags else none) := by
  induction spans generalizing low base with
  | nil => simp [fill, lookup_piece]
  | cons span rest ih => ?_
  obtain ⟨first, sized, later⟩ := order
  have step : span.limit = span.base + span.size := rfl
  simp only [fill]
  split
  · rw [lookup_append, lookup_piece]
    by_cases inside : base ≤ address ∧ address < stop
    · have out : lookup (span :: rest) address = none :=
        lookup_below (show Ordered span.base (span :: rest) from ⟨le_rfl, sized, later⟩) (by omega)
      simp [inside, out]
    simp [inside]
  split
  · rw [lookup_cons, lookup_cons, ih base later]
    split <;> simp
  rw [lookup_append, lookup_piece, lookup_cons, lookup_cons, ih _ later]
  by_cases here : span.Covers address
  · have miss : ¬ (base ≤ address ∧ address < span.base) := by
      simp only [Covers] at here; omega
    simp [here, miss]
  simp only [if_neg here]
  simp only [Covers] at here
  by_cases lower : base ≤ address ∧ address < span.base
  · have unseen : lookup rest address = none := lookup_below later (by omega)
    have whole : base ≤ address ∧ address < stop := by omega
    simp [lower, whole, unseen]
  have same : (min span.limit stop ≤ address ∧ address < stop) ↔
      (base ≤ address ∧ address < stop) := by omega
  rw [if_neg lower, Option.none_or]
  simp only [same]

end

section

/-- Walk `count` addresses from `address` on and count the runs of free ones. `fresh` says
that a free address starts a new run. -/
def runs (covered : Nat → Bool) : Bool → Nat → Nat → Nat
  | _, _, 0 => 0
  | fresh, address, count + 1 =>
    if covered address then runs covered true (address + 1) count
    else (if fresh then 1 else 0) + runs covered false (address + 1) count

theorem runs_congr (count : Nat) (fresh : Bool) (address : Nat)
    (same : ∀ point, address ≤ point → point < address + count → covered point = other point) :
    runs covered fresh address count = runs other fresh address count := by
  induction count generalizing fresh address with
  | zero => rfl
  | succ count ih => ?_
  have next (fresh : Bool) :=
    ih fresh (address + 1) (fun point low high => same point (by omega) (by omega))
  simp only [runs, same address le_rfl (by omega), next]

/-- A stretch that is covered throughout is no run of its own; one that is free ends the run
before. -/
theorem runs_stretch (length count : Nat) (fresh : Bool) (address : Nat)
    (all : ∀ point, address ≤ point → point < address + length → covered point = value) :
    runs covered fresh address (length + count) =
      (if fresh ∧ value = false ∧ 0 < length then 1 else 0) +
        runs covered (if length = 0 then fresh else value) (address + length) count := by
  induction length generalizing fresh address with
  | zero => simp
  | succ length ih => ?_
  have here := all address le_rfl (by omega)
  have rest := ih value (address + 1) (fun point low high => all point (by omega) (by omega))
  rw [show length + 1 + count = length + count + 1 by omega, runs, here]
  rw [show address + 1 + length = address + (length + 1) by omega] at rest
  cases value <;> simp [rest]

variable {low stop base : Nat}

private theorem runs_below (stop base : Nat) (spans : List (Span Flags)) (order : Ordered low spans)
    (above : stop ≤ low) :
    runs (fun address => (lookup spans address).isSome) true base (stop - base) =
      if base < stop then 1 else 0 := by
  have count := runs_stretch (stop - base) 0 true base fun point _ high =>
    show (lookup spans point).isSome = false by rw [lookup_below order (by omega)]; rfl
  rw [Nat.add_zero] at count
  rw [count]
  simp [runs]

/-- A range that starts before the end of a span: the part before the span is one run, the
span is none, and the rest of the range is left. -/
private theorem runs_across {rest : List (Span Flags)} (order : Ordered low (span :: rest))
    (live : base < stop) (starts : span.base < stop) (reaches : base < span.limit) :
    runs (fun address => (lookup (span :: rest) address).isSome) true base (stop - base) =
      (if base < span.base then 1 else 0) +
        runs (fun address => (lookup rest address).isSome) true (min span.limit stop)
          (stop - min span.limit stop) := by
  obtain ⟨_, sized, later⟩ := order
  have step : span.limit = span.base + span.size := rfl
  have outer :=
    runs_stretch (span.base - base) (stop - max base span.base) true base fun point _ high =>
    show (lookup (span :: rest) point).isSome = false by
      rw
        [lookup_below (show Ordered span.base (span :: rest) from ⟨le_rfl, sized, later⟩)
          (by omega)]
      rfl
  have inner := runs_stretch (min span.limit stop - max base span.base) (stop - min span.limit stop)
    (if span.base - base = 0 then true else false) (max base span.base) fun point low high =>
    show (lookup (span :: rest) point).isSome = true by
      have inside : span.Covers point := by simp only [Covers]; omega
      simp [lookup_cons, inside]
  rw [show span.base - base + (stop - max base span.base) = stop - base by omega,
    show base + (span.base - base) = max base span.base by omega] at outer
  rw [show min span.limit stop - max base span.base + (stop - min span.limit stop) = stop - max base
      span.base by omega,
    show max base span.base + (min span.limit stop - max base span.base) = min span.limit stop by
      omega, if_neg (show min span.limit stop - max base span.base ≠ 0 by omega)] at inner
  rw [outer, inner]
  simp only [Bool.true_eq_false, false_and, and_false, if_false, Nat.zero_add]
  congr 1
  · simp
  apply runs_congr
  intro point from_ upTo
  have out : ¬ span.Covers point := by simp only [Covers]; omega
  simp only [lookup_cons, if_neg out]

variable {spans : List (Span Flags)}

/-- The number of gaps depends only on which addresses are covered. -/
theorem gaps_eq_runs (stop base : Nat) (order : Ordered low spans) :
    gaps stop base spans =
      runs (fun address => (lookup spans address).isSome) true base (stop - base) := by
  induction spans generalizing low base with
  | nil => exact (runs_below stop base [] (show Ordered stop [] from trivial) le_rfl).symm
  | cons span rest ih => ?_
  have later := order.2.2
  simp only [gaps]
  split
  · rename_i beyond
    exact (runs_below stop base (span :: rest) ⟨le_rfl, order.2⟩ beyond).symm
  split
  · rw [ih base later]
    apply runs_congr
    intro point from_ _
    have out : ¬ span.Covers point := by simp only [Covers]; omega
    simp only [lookup_cons, if_neg out]
  by_cases live : base < stop
  · rw [runs_across order live (by omega) (by omega), ih _ later]
  rw [ih _ later, if_neg (by omega), show stop - min span.limit stop = 0 by omega,
    show stop - base = 0 by omega]
  rfl

theorem gaps_congr {lower : Nat} (order : Ordered low first) (other : Ordered lower second)
    (same : ∀ address, base ≤ address → address < stop →
      (lookup first address).isSome = (lookup second address).isSome) :
    gaps stop base first = gaps stop base second := by
  rw [gaps_eq_runs stop base order, gaps_eq_runs stop base other]
  exact runs_congr _ _ _ (fun point from_ upTo => same point from_ (by omega))

/-- A range nothing covers is one gap. -/
theorem gaps_of_free (order : Ordered low spans)
    (free : ∀ address, base ≤ address → address < stop → lookup spans address = none) :
    gaps stop base spans = if base < stop then 1 else 0 := by
  rw [gaps_congr order (show Ordered 0 ([] : List (Span Flags)) from trivial)
    (fun address from_ upTo => by rw [free address from_ upTo, lookup_nil])]
  rfl

theorem gaps_le (stop base : Nat) (spans : List (Span Flags)) :
    gaps stop base spans ≤ spans.length + 1 := by
  induction spans generalizing base with
  | nil => simp only [gaps]; split <;> simp
  | cons span rest ih => ?_
  have tail := ih base
  have later := ih (min span.limit stop)
  simp only [gaps, length_cons]
  split_ifs <;> omega

end

section

/-- The part of the spans below `point`. -/
def before (point : Nat) : List (Span Flags) → List (Span Flags)
  | [] => []
  | span :: rest =>
    if span.limit ≤ point then span :: before point rest
    else if span.base < point then [⟨span.base, point - span.base, span.flags⟩]
    else []

/-- The part of the spans from `point` on. -/
def after (point : Nat) : List (Span Flags) → List (Span Flags)
  | [] => []
  | span :: rest =>
    if span.limit ≤ point then after point rest
    else if span.base < point then ⟨point, span.limit - point, span.flags⟩ :: rest
    else span :: rest

variable {low point : Nat} {spans : List (Span Flags)}

theorem ordered_before (order : Ordered low spans) : Ordered low (before point spans) := by
  induction spans generalizing low with
  | nil => trivial
  | cons span rest ih => ?_
  obtain ⟨first, sized, later⟩ := order
  simp only [before]
  split_ifs with inside crosses
  · exact ⟨first, sized, ih later⟩
  · exact ⟨first, by simp only; omega, trivial⟩
  trivial

theorem limit_before (mem : span ∈ before point spans) : span.limit ≤ point := by
  induction spans with
  | nil => simp [before] at mem
  | cons head rest ih => ?_
  simp only [before] at mem
  split_ifs at mem with inside crosses
  · rcases mem_cons.mp mem with rfl | inRest
    · exact inside
    exact ih inRest
  · obtain rfl := mem_singleton.mp mem
    simp only [limit]
    omega
  simp at mem

theorem ordered_after (order : Ordered low spans) : Ordered point (after point spans) := by
  induction spans generalizing low with
  | nil => trivial
  | cons span rest ih => ?_
  obtain ⟨first, sized, later⟩ := order
  simp only [after]
  split_ifs with inside crosses
  · exact ih later
  · refine ⟨le_rfl, by simp only; omega, later.weaken ?_⟩
    simp only [limit] at *
    omega
  exact ⟨by omega, sized, later⟩

theorem lookup_before (point address : Nat) (order : Ordered low spans) :
    lookup (before point spans) address =
      if address < point then lookup spans address else none := by
  induction spans generalizing low with
  | nil => simp [before]
  | cons span rest ih => ?_
  obtain ⟨first, sized, later⟩ := order
  by_cases inside : span.limit ≤ point
  · simp only [before, if_pos inside, lookup_cons, ih later]
    by_cases small : address < point
    · simp only [if_pos small]
    have out : ¬ span.Covers address := by simp only [Covers]; omega
    simp [if_neg out]
  by_cases crosses : span.base < point
  · have cut : (⟨span.base, point - span.base, span.flags⟩ : Span Flags).Covers address ↔
        span.Covers address ∧ address < point := by simp only [Covers, limit] at *; omega
    simp only [before, if_neg inside, if_pos crosses, lookup_cons, cut, lookup_nil]
    by_cases here : span.Covers address
    · simp [here]
    by_cases small : address < point
    · have unseen : lookup rest address = none := lookup_below later (by omega)
      simp [here, unseen]
    simp [small]
  simp only [before, if_neg inside, if_neg crosses, lookup_nil]
  split
  · exact
      (lookup_below (show Ordered span.base (span :: rest) from ⟨le_rfl, sized, later⟩)
        (by omega)).symm
  rfl

theorem lookup_after (point address : Nat) (order : Ordered low spans) :
    lookup (after point spans) address =
      if point ≤ address then lookup spans address else none := by
  by_cases above : point ≤ address
  · rw [if_pos above]
    induction spans generalizing low with
    | nil => rfl
    | cons span rest ih => ?_
    obtain ⟨first, sized, later⟩ := order
    simp only [after]
    split_ifs with inside crosses
    · have out : ¬ span.Covers address := by simp only [Covers]; omega
      rw [lookup_cons, if_neg out, ih later]
    · have cut : (⟨point, span.limit - point, span.flags⟩ : Span Flags).Covers address ↔
          span.Covers address := by simp only [Covers, limit]; omega
      simp only [lookup_cons, cut]
    rfl
  rw [if_neg above]
  exact lookup_below (ordered_after order) (by omega)

theorem Ordered.append (order : Ordered low first) (below : ∀ span ∈ first, span.limit ≤ point)
    (start : low ≤ point) (later : Ordered point second) : Ordered low (first ++ second) := by
  induction first generalizing low with
  | nil => exact later.weaken start
  | cons span rest ih => ?_
  obtain ⟨base, sized, others⟩ := order
  exact ⟨base, sized,
    ih others (fun other mem => below other (by simp [mem])) (below span (by simp))⟩

section

variable (point) (spans)

/-- Cutting at a point makes at most one more span. -/
theorem length_cut :
    (before point spans).length + (after point spans).length ≤ spans.length + 1 := by
  induction spans with
  | nil => simp [before, after]
  | cons span rest ih => ?_
  simp only [before, after]
  split_ifs <;> simp only [length_cons, length_nil] <;> omega

theorem length_after_le : (after point spans).length ≤ spans.length := by
  induction spans with
  | nil => exact le_rfl
  | cons span rest ih => ?_
  simp only [after]
  split_ifs <;> simp only [length_cons] <;> omega

theorem total_cut (order : Ordered low spans) :
    total (before point spans) + total (after point spans) = total spans := by
  induction spans generalizing low with
  | nil => rfl
  | cons span rest ih => ?_
  have later := ih order.2.2
  have step : span.limit = span.base + span.size := rfl
  by_cases inside : span.limit ≤ point
  · simp only [before, after, if_pos inside, total_cons]
    omega
  by_cases crosses : span.base < point
  · simp only [before, after, if_neg inside, if_pos crosses, total_cons, total_nil]
    omega
  simp only [before, after, if_neg inside, if_neg crosses, total_cons, total_nil]
  omega

end

theorem Minimal.before (minimal : Minimal spans) (point : Nat) : Minimal (before point spans) := by
  have heads (spans : List (Span Flags)) (next : Span Flags)
    (mem : next ∈ (Span.before point spans).head?) :
      ∃ span ∈ spans.head?, next.base = span.base ∧ next.flags = span.flags := by
    cases spans with
    | nil => simp [Span.before] at mem
    | cons span rest => ?_
    refine ⟨span, by simp, ?_⟩
    simp only [Span.before] at mem
    split_ifs at mem <;> simp at mem <;> simp [← mem]
  induction spans with
  | nil => exact .nil
  | cons span rest ih => ?_
  simp only [Span.before]
  split_ifs
  · have parts := isChain_cons.mp minimal
    refine isChain_cons.mpr ⟨fun next mem => ?_, ih parts.2⟩
    obtain ⟨old, found, base, flags⟩ := heads rest next mem
    rw [base, flags]
    exact parts.1 old found
  · exact .singleton _
  exact .nil

theorem Minimal.after (minimal : Minimal spans) (point : Nat) (order : Ordered low spans) :
    Minimal (after point spans) := by
  induction spans generalizing low with
  | nil => exact .nil
  | cons span rest ih => ?_
  have parts := isChain_cons.mp minimal
  simp only [Span.after]
  split_ifs
  · exact ih parts.2 order.2.2
  · refine isChain_cons.mpr ⟨fun next mem touch => parts.1 next mem ?_, parts.2⟩
    simp only [limit] at *
    omega
  exact minimal

theorem Ordered.filter (order : Ordered low spans) (keep : Span Flags → Bool) :
    Ordered low (spans.filter keep) := by
  induction spans generalizing low with
  | nil => trivial
  | cons span rest ih => ?_
  obtain ⟨start, sized, later⟩ := order
  rw [filter_cons]
  split
  · exact ⟨start, sized, ih later⟩
  exact ih (later.weaken (start.trans (Nat.le_add_right ..)))

theorem Minimal.filter (minimal : Minimal spans) (order : Ordered low spans)
    (keep : Span Flags → Bool) : Minimal (spans.filter keep) := by
  have apart : spans.Pairwise fun first second => first.limit = second.base → first.flags ≠
      second.flags := by
    induction spans generalizing low with
    | nil => exact .nil
    | cons span rest ih => ?_
    have parts := isChain_cons.mp minimal
    refine pairwise_cons.mpr ⟨fun other mem touch => ?_, ih parts.2 order.2.2⟩
    cases rest with
    | nil => cases mem
    | cons next later => ?_
    rcases mem_cons.mp mem with rfl | behind
    · exact parts.1 other rfl touch
    have first := order.2.2
    have beyond := (first.2.2.base_le behind).1
    simp only [Ordered, limit] at first touch beyond
    omega
  exact (apart.filter keep).isChain

theorem Minimal.append (left : Minimal first) (right : Minimal second)
    (below : ∀ span ∈ first, span.limit ≤ low) (above : Ordered high second) (room : low < high) :
    Minimal (first ++ second) := by
  refine isChain_append.mpr ⟨left, right, fun last isLast next isHead touch => ?_⟩
  have end_ := below last (mem_of_mem_getLast? isLast)
  have start := (above.base_le (mem_of_mem_head? isHead)).1
  omega

end

section

variable [DecidableEq Flags]

/-- Join a span with the neighbours that touch it and carry its flags. -/
def joinFrom : Span Flags → List (Span Flags) → List (Span Flags)
  | span, [] => [span]
  | span, next :: rest =>
    if span.limit = next.base ∧ span.flags = next.flags then
      joinFrom ⟨span.base, span.size + next.size, span.flags⟩ rest
    else span :: joinFrom next rest

def coalesce : List (Span Flags) → List (Span Flags)
  | [] => []
  | span :: rest => joinFrom span rest

theorem joinFrom_head (span : Span Flags) (rest : List (Span Flags)) :
    ∃ head tail, joinFrom span rest = head :: tail ∧ head.base = span.base ∧
      head.flags = span.flags := by
  induction rest generalizing span with
  | nil => exact ⟨span, [], rfl, rfl, rfl⟩
  | cons next rest ih => ?_
  simp only [joinFrom]
  split
  · obtain ⟨head, tail, shape, base, flags⟩ := ih ⟨span.base, span.size + next.size, span.flags⟩
    exact ⟨head, tail, shape, base, flags⟩
  exact ⟨span, _, rfl, rfl, rfl⟩

variable {spans : List (Span Flags)}

theorem coalesce_spec (order : Ordered low spans) :
    Ordered low (coalesce spans) ∧
      (∀ address, lookup (coalesce spans) address = lookup spans address) ∧
      Minimal (coalesce spans) ∧ total (coalesce spans) = total spans ∧
      (coalesce spans).length ≤ spans.length := by
  cases spans with
  | nil => exact ⟨trivial, fun _ => rfl, .nil, rfl, le_rfl⟩
  | cons span rest => ?_
  simp only [coalesce]
  induction rest generalizing span low with
  | nil => exact ⟨order, fun _ => rfl, .singleton _, rfl, le_rfl⟩
  | cons next rest ih => ?_
  obtain ⟨first, sized, above, filled, later⟩ := order
  simp only [joinFrom]
  split
  · rename_i joins
    have wide : (⟨span.base, span.size + next.size, span.flags⟩ : Span Flags).limit =
        next.limit := by simp only [limit] at *; omega
    obtain ⟨kept, same, minimal, sum, shorter⟩ :=
      ih ⟨span.base, span.size + next.size, span.flags⟩ ⟨first, by simp only; omega, wide ▸ later⟩
    refine ⟨kept, fun address => ?_, minimal, ?_, ?_⟩
    · rw [same, lookup_cons, lookup_cons, lookup_cons]
      by_cases here : span.Covers address
      · rw [if_pos here, if_pos (by simp only [Covers, limit] at *; omega)]
      by_cases there : next.Covers address
      · rw [if_neg here, if_pos there, if_pos (by simp only [Covers, limit] at *; omega), joins.2]
      rw [if_neg here, if_neg there, if_neg (by simp only [Covers, limit] at *; omega)]
    · rw [sum]
      simp only [total_cons]
      omega
    simp only [length_cons] at *
    omega
  rename_i apart
  obtain ⟨kept, same, minimal, sum, shorter⟩ := ih next ⟨above, filled, later⟩
  refine ⟨⟨first, sized, kept⟩, fun address => ?_, ?_, ?_, ?_⟩
  · rw [lookup_cons, lookup_cons, same]
  · obtain ⟨head, tail, shape, base, flags⟩ := joinFrom_head next rest
    refine isChain_cons.mpr ⟨fun other mem touch eq => apart ?_, minimal⟩
    rw [shape] at mem
    obtain rfl := Option.some.inj mem
    exact ⟨by omega, by rw [eq, flags]⟩
  · rw [total_cons, sum, total_cons span]
  simp only [length_cons] at *
  omega

theorem coalesce_of_minimal (minimal : Minimal spans) : coalesce spans = spans := by
  cases spans with
  | nil => rfl
  | cons span rest => ?_
  simp only [coalesce]
  induction rest generalizing span with
  | nil => rfl
  | cons next rest ih => ?_
  have parts := isChain_cons_cons.mp minimal
  rw [joinFrom, if_neg (fun both => parts.1 both.1 both.2), ih next parts.2]

end

section

/-- The span with its flags updated. -/
def reflag (update : Flags → Flags) (span : Span Flags) : Span Flags :=
  { span with flags := update span.flags }

variable (update : Flags → Flags)

theorem ordered_reflag (order : Ordered low spans) : Ordered low (spans.map (reflag update)) := by
  induction spans generalizing low with
  | nil => trivial
  | cons span rest ih => exact ⟨order.1, order.2.1, ih order.2.2⟩

theorem lookup_reflag (spans : List (Span Flags)) (address : Nat) :
    lookup (spans.map (reflag update)) address = (lookup spans address).map update := by
  induction spans with
  | nil => rfl
  | cons span rest ih => ?_
  rw [map_cons, lookup_cons, lookup_cons, ih, apply_ite (Option.map update)]
  rfl

theorem total_reflag (spans : List (Span Flags)) :
    total (spans.map (reflag update)) = total spans := by
  rw [total, map_map]
  rfl

end

end Span

end TinyKernel.Lib
