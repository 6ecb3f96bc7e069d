import Mathlib.Tactic

/-! Maps made of pieces, each of which shifts one interval of numbers onto another. -/

namespace TinyKernel.Lib

structure Piece where
  source : Nat
  target : Nat
  length : Nat

def Piece.Sends (piece : Piece) (a b : Nat) : Prop :=
  piece.source ≤ a ∧ a < piece.source + piece.length ∧ b + piece.source = a + piece.target

/-- The relation that a list of pieces describes. -/
def Sends (pieces : List Piece) (a b : Nat) : Prop := ∃ piece ∈ pieces, piece.Sends a b

def Piece.flip (piece : Piece) : Piece := ⟨piece.target, piece.source, piece.length⟩

variable {a b c : Nat}

theorem Piece.sends_flip {piece : Piece} : piece.flip.Sends b a ↔ piece.Sends a b := by
  simp only [Piece.Sends, Piece.flip]
  omega

variable {pieces : List Piece}

theorem sends_flip : Sends (pieces.map Piece.flip) b a ↔ Sends pieces a b := by
  simp [Sends, Piece.sends_flip]

def Piece.SourceApart (p q : Piece) : Prop :=
  p.source + p.length ≤ q.source ∨ q.source + q.length ≤ p.source

def SourcesApart (pieces : List Piece) : Prop := pieces.Pairwise Piece.SourceApart

def TargetsApart (pieces : List Piece) : Prop := SourcesApart (pieces.map Piece.flip)

theorem SourcesApart.eq (apart : SourcesApart pieces) (left : p ∈ pieces) (right : q ∈ pieces)
    (inLeft : p.source ≤ a ∧ a < p.source + p.length)
    (inRight : q.source ≤ a ∧ a < q.source + q.length) : p = q := by
  by_contra ne
  have : Std.Symm Piece.SourceApart := ⟨fun _ _ => Or.symm⟩
  rcases apart.forall left right ne with below | above <;> omega

theorem Sends.unique (apart : SourcesApart pieces) (first : Sends pieces a b)
    (second : Sends pieces a c) : b = c := by
  obtain ⟨p, left, low, high, value⟩ := first
  obtain ⟨q, right, low', high', value'⟩ := second
  obtain rfl := apart.eq left right ⟨low, high⟩ ⟨low', high'⟩
  omega

theorem Sends.injective (apart : TargetsApart pieces) (first : Sends pieces a c)
    (second : Sends pieces b c) : a = b :=
  Sends.unique apart (sends_flip.mpr first) (sends_flip.mpr second)

/-- `r` is `q` with its targets sent on by one of `pieces`. -/
def Piece.Through (pieces : List Piece) (q r : Piece) : Prop :=
  r.source = q.source ∧ r.length = q.length ∧
    ∃ p ∈ pieces, p.source ≤ q.target ∧ q.target + q.length ≤ p.source + p.length ∧
      r.target + p.source = q.target + p.target

theorem Piece.Through.sends {q : Piece} (through : q.Through pieces r) (sent : r.Sends a c) :
    ∃ b, q.Sends a b ∧ Lib.Sends pieces b c := by
  obtain ⟨source, length, p, mem, low, high, target⟩ := through
  obtain ⟨above, below, value⟩ := sent
  refine ⟨a - q.source + q.target, ?_, p, mem, ?_⟩
  · refine ⟨?_, ?_, ?_⟩ <;> omega
  refine ⟨?_, ?_, ?_⟩ <;> omega

section

variable {ι : Type*} {pieces : List Piece} {items : List ι} {before after : ι → Piece}

theorem Sends.of_through (through : ∀ item ∈ items, (before item).Through pieces (after item))
    {a c : Nat} (sent : Sends (items.map after) a c) :
    ∃ b, Sends (items.map before) a b ∧ Sends pieces b c := by
  obtain ⟨r, mem, sends⟩ := sent
  obtain ⟨item, found, rfl⟩ := List.mem_map.mp mem
  obtain ⟨b, first, second⟩ := (through item found).sends sends
  exact ⟨b, ⟨before item, List.mem_map_of_mem found, first⟩, second⟩

theorem SourcesApart.through (through : ∀ item ∈ items, (before item).Through pieces (after item))
    (apart : SourcesApart (items.map before)) : SourcesApart (items.map after) := by
  apply List.pairwise_map.mpr
  apply (List.pairwise_map.mp apart).imp_of_mem
  intro item item' left right between
  obtain ⟨source, length, -⟩ := through item left
  obtain ⟨source', length', -⟩ := through item' right
  simpa only [Piece.SourceApart, source, length, source', length'] using between

theorem TargetsApart.through (through : ∀ item ∈ items, (before item).Through pieces (after item))
    (nonempty : ∀ item ∈ items, 0 < (before item).length) (targets : TargetsApart pieces)
    (apart : TargetsApart (items.map before)) : TargetsApart (items.map after) := by
  rw [TargetsApart, List.map_map] at apart ⊢
  apply List.pairwise_map.mpr
  apply (List.pairwise_map.mp apart).imp_of_mem
  intro item item' left right between
  obtain ⟨-, length, p, mem, low, high, target⟩ := through item left
  obtain ⟨-, length', p', member', low', high', target'⟩ := through item' right
  have some := nonempty item left
  have some' := nonempty item' right
  by_contra together
  simp only [Piece.SourceApart, Piece.flip, Function.comp_apply, not_or, not_le] at together between
  -- a number that both intervals of targets contain comes from one number in the middle
  obtain ⟨c, inLeft, inRight⟩ :
      ∃ c, ((after item).target ≤ c ∧ c < (after item).target + (before item).length) ∧
        (after item').target ≤ c ∧ c < (after item').target + (before item').length :=
    ⟨max (after item).target (after item').target, by omega, by omega⟩
  have sent : Sends pieces (c + p.source - p.target) c := ⟨p, mem, by constructor <;> omega⟩
  have sent' : Sends pieces (c + p'.source - p'.target) c := ⟨p', member', by constructor <;> omega⟩
  have same := sent.injective targets sent'
  omega

end

end TinyKernel.Lib
