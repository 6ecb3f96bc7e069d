import Mathlib.GroupTheory.Perm.List
import Mathlib.Tactic.Ring

/-! Circular doubly linked lists. Links in which every node that is on no list points to itself are
a permutation: the next node of each. Adding and deleting are changes of the list of nodes. -/

namespace TinyKernel.Lib

open Equiv Function

/-- The two pointers of every node. -/
@[ext]
structure RingLinks (Node : Type*) where
  next : Node → Node
  prev : Node → Node

namespace RingLinks

variable {Node : Type*} [DecidableEq Node]

/-- Put a node between two neighbours. -/
def insert (links : RingLinks Node) (new prev next : Node) : RingLinks Node where
  next := update (update links.next new next) prev new
  prev := update (update links.prev next new) new prev

def add (links : RingLinks Node) (new head : Node) : RingLinks Node :=
  links.insert new head (links.next head)

def addTail (links : RingLinks Node) (new head : Node) : RingLinks Node :=
  links.insert new (links.prev head) head

/-- Take a node out, and let it point to itself. -/
def delInit (links : RingLinks Node) (entry : Node) : RingLinks Node where
  next := update (update links.next (links.prev entry) (links.next entry)) entry entry
  prev := update (update links.prev (links.next entry) (links.prev entry)) entry entry

/-- Let a node point to itself. -/
def init (links : RingLinks Node) (entry : Node) : RingLinks Node :=
  ⟨update links.next entry entry, update links.prev entry entry⟩

def empty (links : RingLinks Node) (head : Node) : Bool := links.next head = head

/-- The links of a permutation. -/
def ofPerm (σ : Perm Node) : RingLinks Node := ⟨σ, σ.symm⟩

/-- The nodes of a list in a ring, all others alone. -/
def ring (nodes : List Node) : RingLinks Node := ofPerm nodes.formPerm

section

variable {σ : Perm Node} {new head entry : Node}

theorem insert_ofPerm (alone : σ new = new) (ne : head ≠ new) :
    (ofPerm σ).insert new head (σ head) = ofPerm (σ * swap head new) := by
  have back : σ.symm new = new := by rw [Equiv.symm_apply_eq, alone]
  have other : σ head ≠ new := fun same => ne (σ.injective (same.trans alone.symm))
  ext node
  · by_cases first : node = head
    · subst first
      simp [insert, ofPerm, alone]
    by_cases second : node = new
    · subst second
      simp [insert, ofPerm, first]
    simp [insert, ofPerm, first, second, swap_apply_of_ne_of_ne]
  have inverse : (σ * swap head new).symm node = swap head new (σ.symm node) := by
    rw [Equiv.symm_apply_eq]
    simp
  change _ = (σ * swap head new).symm node
  rw [inverse]
  by_cases first : node = new
  · subst first
    simp [insert, ofPerm, back]
  by_cases second : node = σ head
  · subst second
    simp [insert, ofPerm, other]
  have far : σ.symm node ≠ head := fun same => second (σ.symm_apply_eq.mp same)
  have far' : σ.symm node ≠ new := by
    intro same
    rw [Equiv.symm_apply_eq, alone] at same
    exact first same
  simp [insert, ofPerm, first, second, swap_apply_of_ne_of_ne far far']

theorem addTail_ofPerm (alone : σ new = new) (ne : head ≠ new) :
    (ofPerm σ).addTail new head = ofPerm (swap head new * σ) := by
  have before : σ.symm head ≠ new := by
    intro same
    rw [Equiv.symm_apply_eq, alone] at same
    exact ne same
  have inserted := insert_ofPerm alone before
  rw [mul_swap_eq_swap_mul, alone, Equiv.apply_symm_apply] at inserted
  exact inserted

theorem delInit_ofPerm : (ofPerm σ).delInit entry = ofPerm (swap entry (σ entry) * σ) := by
  have perm : swap entry (σ entry) * σ = σ * swap (σ.symm entry) entry := by
    rw [mul_swap_eq_swap_mul, Equiv.apply_symm_apply]
  ext node
  · rw [perm]
    by_cases first : node = entry
    · subst first
      simp [delInit, ofPerm]
    by_cases second : node = σ.symm entry
    · subst second
      simp [delInit, ofPerm, first]
    simp [delInit, ofPerm, first, second, swap_apply_of_ne_of_ne]
  have inverse : (swap entry (σ entry) * σ).symm node = σ.symm (swap entry (σ entry) node) := by
    rw [Equiv.symm_apply_eq]
    simp
  change _ = (swap entry (σ entry) * σ).symm node
  rw [inverse]
  by_cases first : node = entry
  · subst first
    simp [delInit, ofPerm]
  by_cases second : node = σ entry
  · subst second
    simp [delInit, ofPerm, first]
  simp [delInit, ofPerm, first, second, swap_apply_of_ne_of_ne]

end

section

variable {before after : List Node} {new head entry node : Node}

theorem ring_nil : ring ([] : List Node) = ring [head] := by simp [ring]

/-- The ring may be cut open anywhere. -/
theorem ring_rotate (apart : (before ++ after).Nodup) :
    ring (before ++ after) = ring (after ++ before) := by
  rw [ring, ring, List.formPerm_eq_of_isRotated apart List.isRotated_append]

variable {nodes : List Node}

theorem next_of_notMem (gone : node ∉ nodes) : (ring nodes).next node = node :=
  List.formPerm_apply_of_notMem gone

theorem prev_of_notMem (gone : node ∉ nodes) : (ring nodes).prev node = node := by
  change nodes.formPerm.symm node = node
  rw [Equiv.symm_apply_eq, List.formPerm_apply_of_notMem gone]

theorem init_ring (gone : entry ∉ nodes) : (ring nodes).init entry = ring nodes := by
  ext node
  · by_cases same : node = entry
    · subst same
      simp [init, next_of_notMem gone]
    simp [init, same]
  by_cases same : node = entry
  · subst same
    simp [init, prev_of_notMem gone]
  simp [init, same]

theorem next_ring (apart : (before ++ node :: head :: after).Nodup) :
    (ring (before ++ node :: head :: after)).next node = head := by
  rw [ring_rotate apart]
  exact List.formPerm_apply_head _ _ _ ((List.perm_append_comm.nodup_iff).mp apart)

theorem next_last (apart : (head :: (before ++ [node])).Nodup) :
    (ring (head :: (before ++ [node]))).next node = head := by
  have rotated : ring (head :: (before ++ [node])) = ring (node :: head :: before) := by
    have cut : (head :: before ++ [node]).Nodup := by simpa using apart
    have same := ring_rotate cut
    simpa using same
  rw [rotated]
  refine List.formPerm_apply_head _ _ _ ?_
  have perm : (head :: (before ++ [node])).Perm (node :: head :: before) := by
    exact List.perm_append_singleton node (head :: before)
  exact perm.nodup_iff.mp apart

/-- A node of a ring is alone exactly if the ring has no other. -/
theorem empty_ring (apart : nodes.Nodup) :
    (ring nodes).empty node = true ↔ (node ∈ nodes → nodes = [node]) := by
  rw [empty, decide_eq_true_eq]
  change nodes.formPerm node = node ↔ _
  constructor
  · intro alone mem
    have short := (List.formPerm_apply_mem_eq_self_iff nodes apart node mem).mp alone
    obtain ⟨one, rfl⟩ := List.length_eq_one_iff.mp (le_antisymm short (List.length_pos_of_mem mem))
    rw [List.mem_singleton.mp mem]
  intro only
  by_cases mem : node ∈ nodes
  · rw [only mem]
    simp
  exact List.formPerm_apply_of_notMem mem

theorem addTail_ring (apart : (before ++ head :: after).Nodup)
    (fresh : new ∉ before ++ head :: after) :
    (ring (before ++ head :: after)).addTail new head = ring (before ++ new :: head :: after) := by
  have ne : head ≠ new := by
    rintro rfl
    exact fresh (by simp)
  have distinct' : (before ++ new :: head :: after).Nodup :=
    (List.perm_middle.nodup_iff).mpr (List.nodup_cons.mpr ⟨fresh, apart⟩)
  have alone : (before ++ head :: after).formPerm new = new := List.formPerm_apply_of_notMem fresh
  rw [ring, addTail_ofPerm alone ne, ring_rotate distinct', swap_comm]
  rw [List.formPerm_eq_of_isRotated apart List.isRotated_append]
  rfl

/-- Adding in front of a list is adding at its end. -/
theorem addTail_first (apart : (head :: after).Nodup) (fresh : new ∉ head :: after) :
    (ring (head :: after)).addTail new head = ring (head :: (after ++ [new])) := by
  have added : (ring ([] ++ head :: after)).addTail new head = ring ([] ++ new :: head :: after) :=
    addTail_ring apart fresh
  have rotated : ring ([new] ++ (head :: after)) = ring ((head :: after) ++ [new]) :=
    ring_rotate (List.nodup_cons.mpr ⟨fresh, apart⟩)
  exact added.trans rotated

theorem add_ring (apart : (before ++ head :: after).Nodup) (fresh : new ∉ before ++ head :: after) :
    (ring (before ++ head :: after)).add new head = ring (before ++ head :: new :: after) := by
  have next : (ring (before ++ head :: after)).add new head =
      (ring (before ++ head :: after)).addTail new
        ((ring (before ++ head :: after)).next head) := by
    rw [add, addTail]
    congr 1
    exact (Equiv.symm_apply_apply _ _).symm
  rw [next]
  cases after with
  | cons first rest =>
    rw [next_ring apart]
    have cut : before ++ head :: first :: rest = (before ++ [head]) ++ first :: rest := by simp
    rw [cut] at apart fresh ⊢
    rw [addTail_ring apart fresh]
    simp
  | nil => ?_
  cases before with
  | nil =>
    exact addTail_first apart fresh
  | cons first rest => ?_
  have last : (ring (first :: rest ++ [head])).next head = first := next_last apart
  rw [last]
  have added : (ring (first :: (rest ++ [head]))).addTail new first =
      ring (first :: ((rest ++ [head]) ++ [new])) := addTail_first apart fresh
  simpa using added

theorem delInit_ring (apart : (before ++ entry :: after).Nodup) :
    (ring (before ++ entry :: after)).delInit entry = ring (before ++ after) := by
  have rotated : (entry :: (after ++ before)).Nodup := (List.perm_append_comm.nodup_iff).mp apart
  have shorter : (before ++ after).Nodup :=
    (List.perm_append_comm.nodup_iff).mp (List.nodup_cons.mp rotated).2
  rw [ring_rotate apart, ring_rotate shorter, List.cons_append]
  generalize after ++ before = rest at rotated
  cases rest with
  | nil =>
    rw [ring, delInit_ofPerm]
    simp only [List.formPerm_singleton, Perm.coe_one, id_eq, swap_self, mul_one]
    rfl
  | cons first rest => ?_
  rw [ring, delInit_ofPerm, List.formPerm_apply_head _ _ _ rotated, List.formPerm_cons_cons,
    ← mul_assoc, swap_mul_self, one_mul]
  rfl

end

end RingLinks

end TinyKernel.Lib
