import Mathlib.Algebra.Order.Ring.Int
import Mathlib.Data.List.Destutter
import Mathlib.Order.ConditionallyCompleteLattice.Defs
import Mathlib.Order.ConditionallyCompletePartialOrder.Defs
import TinyKernel.Plist.Code

/-! The two rings of a priority list stand for one sorted list of nodes. -/

namespace TinyKernel.Plist

open Lib RingLinks List

variable {Node : Type}

section

/-- The first node of each run of one priority. -/
def firsts (prio : Node → Int) (nodes : List Node) : List Node :=
  nodes.destutter fun a b => prio a ≠ prio b

variable {prio : Node → Int} {nodes : List Node}

theorem firsts_sublist (prio : Node → Int) (nodes : List Node) :
    (firsts prio nodes).Sublist nodes :=
  destutter_sublist _ nodes

theorem firsts_append (apart : ∀ a ∈ low, ∀ b ∈ high, prio a ≠ prio b) :
    firsts prio (low ++ high) = firsts prio low ++ firsts prio high := by
  have run (first : Node) (rest : List Node)
    (apart : ∀ a ∈ first :: rest, ∀ b ∈ high, prio a ≠ prio b) :
      destutter' (fun a b => prio a ≠ prio b) first (rest ++ high) =
        destutter' (fun a b => prio a ≠ prio b) first rest ++ firsts prio high := by
    induction rest generalizing first with
    | nil =>
      cases high with
      | nil => simp [firsts]
      | cons head rest => ?_
      have ne := apart first (.head _) head (.head _)
      rw [nil_append, destutter'_cons, if_pos ne]
      rfl
    | cons second rest ih => ?_
    rw [cons_append]
    by_cases ne : prio first ≠ prio second
    · rw [destutter'_cons, destutter'_cons, if_pos ne, if_pos ne,
        ih second fun a mem => apart a (.tail _ mem), cons_append]
    rw [destutter'_cons, destutter'_cons, if_neg ne, if_neg ne]
    refine ih first fun a mem => ?_
    rcases mem_cons.mp mem with rfl | later
    · exact apart a (.head _)
    exact apart a (.tail _ (.tail _ later))
  cases low with
  | nil => rfl
  | cons first rest => exact run first rest apart

/-- Of nodes with one priority, the first. -/
theorem firsts_same (same : ∀ a ∈ rest, prio a = prio first) :
    firsts prio (first :: rest) = [first] := by
  rw [firsts, destutter_cons']
  induction rest with
  | nil => rfl
  | cons second rest ih => ?_
  have eq : ¬prio first ≠ prio second := not_not.mpr (same second (.head _)).symm
  rw [destutter'_cons, if_neg eq]
  exact ih fun a mem => same a (.tail _ mem)

theorem firsts_head (prio : Node → Int) (nodes : List Node) :
    (firsts prio nodes).head? = nodes.head? := by
  cases nodes with
  | nil => rfl
  | cons first rest => ?_
  rw [firsts, destutter_cons']
  induction rest with
  | nil => rfl
  | cons second rest ih => ?_
  rw [destutter'_cons]
  split
  · rfl
  exact ih

end

section

/-- A sorted list around the nodes of one priority. -/
structure Groups (prio : Node → Int) (p : Int) (low same high : List Node) : Prop where
  low : ∀ a ∈ low, prio a < p
  same : ∀ a ∈ same, prio a = p
  high : ∀ a ∈ high, p < prio a

def Sorted (prio : Node → Int) (nodes : List Node) : Prop :=
  nodes.Pairwise fun a b => prio a ≤ prio b

variable {prio : Node → Int} {p : Int} {nodes low same high : List Node}

theorem exists_groups (sorted : Sorted prio nodes) (p : Int) :
    ∃ low same high, nodes = low ++ (same ++ high) ∧ Groups prio p low same high := by
  induction nodes with
  | nil => exact ⟨[], [], [], rfl, by simp, by simp, by simp⟩
  | cons first rest ih => ?_
  obtain ⟨behind, sorted⟩ := pairwise_cons.mp sorted
  obtain ⟨low, same, high, rfl, groups⟩ := ih sorted
  rcases lt_trichotomy (prio first) p with below | eq | above
  · exact ⟨first ::
      low, same, high, rfl, forall_mem_cons.mpr ⟨below, groups.low⟩, groups.same, groups.high⟩
  · have none : low = [] := by
      refine eq_nil_iff_forall_not_mem.mpr fun a mem => ?_
      have := behind a (by simp [mem])
      have := groups.low a mem
      omega
    subst none
    exact ⟨[], first ::
      same, high, rfl, by simp, forall_mem_cons.mpr ⟨eq, groups.same⟩, groups.high⟩
  have none : low = [] ∧ same = [] := by
    constructor
    · refine eq_nil_iff_forall_not_mem.mpr fun a mem => ?_
      have := behind a (by simp [mem])
      have := groups.low a mem
      omega
    refine eq_nil_iff_forall_not_mem.mpr fun a mem => ?_
    have := behind a (by simp [mem])
    have := groups.same a mem
    omega
  obtain ⟨rfl, rfl⟩ := none
  exact ⟨[], [], first :: high, rfl, by simp, by simp, forall_mem_cons.mpr ⟨above, groups.high⟩⟩

/-- The nodes of one node's priority, before and behind it. -/
theorem groups_around {after : List Node} (sorted : Sorted prio (before ++ node :: after)) :
    ∃ low earlier later high, before = low ++ earlier ∧ after = later ++ high ∧
      Groups prio (prio node) low (earlier ++ node :: later) high := by
  obtain ⟨sorted_before, sorted_after, across⟩ := pairwise_append.mp sorted
  obtain ⟨behind, sorted_after⟩ := pairwise_cons.mp sorted_after
  obtain ⟨low, earlier, above, rfl, left⟩ := exists_groups sorted_before (prio node)
  obtain ⟨below, later, high, rfl, right⟩ := exists_groups sorted_after (prio node)
  have no_above : above = [] := by
    refine eq_nil_iff_forall_not_mem.mpr fun a mem => ?_
    have := across a (by simp [mem]) node (.head _)
    have := left.high a mem
    omega
  have no_below : below = [] := by
    refine eq_nil_iff_forall_not_mem.mpr fun a mem => ?_
    have := behind a (by simp [mem])
    have := right.low a mem
    omega
  subst no_above no_below
  refine ⟨low, earlier, later, high, by simp, rfl, left.low, fun a mem => ?_, right.high⟩
  rcases mem_append.mp mem with first | second
  · exact left.same a first
  rcases mem_cons.mp second with rfl | second
  · rfl
  exact right.same a second

theorem Groups.firsts_eq (groups : Groups prio p low same high) :
    firsts prio (low ++ (same ++ high)) = firsts prio low ++ (same.take 1 ++ firsts prio high) := by
  have inner : firsts prio (same ++ high) = same.take 1 ++ firsts prio high := by
    rw [firsts_append fun a left b right => by
      have := groups.same a left
      have := groups.high b right
      omega]
    congr 1
    cases same with
    | nil => rfl
    | cons first rest => ?_
    refine firsts_same fun a mem => ?_
    rw [groups.same a (.tail _ mem), groups.same first (.head _)]
  rw [firsts_append, inner]
  intro a left b right
  have := groups.low a left
  rcases mem_append.mp right with eq | above
  · have := groups.same b eq
    omega
  have := groups.high b above
  omega

theorem Groups.low_firsts (groups : Groups prio p low same high) :
    ∀ a ∈ firsts prio low, prio a < p :=
  fun a mem => groups.low a ((firsts_sublist prio low).subset mem)

theorem Groups.high_firsts (groups : Groups prio p low same high) :
    ∀ a ∈ firsts prio high, p < prio a :=
  fun a mem => groups.high a ((firsts_sublist prio high).subset mem)

end

variable [DecidableEq Node]

/-- A priority list that stands for some nodes in order. -/
structure Rep (head : PlistHead Node) (nodes : List Node) : Prop where
  nodeList : head.nodeList = ring (none :: nodes.map some)
  prioList : head.prioList = ring (firsts head.prio nodes)
  distinct : nodes.Nodup
  sorted : Sorted head.prio nodes

namespace Rep

variable {head : PlistHead Node} {nodes before after : List Node} {node : Node}

omit [DecidableEq Node] in
theorem distinct_ring (distinct : nodes.Nodup) : (none :: nodes.map some).Nodup := by
  refine nodup_cons.mpr ⟨by simp, distinct.map (Option.some_injective _)⟩

theorem distinct_firsts (rep : Rep head nodes) : (firsts head.prio nodes).Nodup :=
  rep.distinct.sublist (firsts_sublist _ _)

/-- The links follow from the nodes. -/
theorem unique (one : Rep head nodes) (two : Rep other nodes) (same : head.prio = other.prio) :
    head = other := by
  obtain ⟨prio, nodeList, prioList⟩ := head
  obtain ⟨prio', nodeList', prioList'⟩ := other
  obtain rfl : prio = prio' := same
  have first : nodeList = nodeList' := one.nodeList.trans two.nodeList.symm
  have second : prioList = prioList' := one.prioList.trans two.prioList.symm
  rw [first, second]

theorem init (prio : Node → Int) : Rep (PlistHead.init prio) [] where
  nodeList := by simp only [PlistHead.init, ring, map_nil, formPerm_singleton]; rfl
  prioList := rfl
  distinct := nodup_nil
  sorted := Pairwise.nil

theorem nodeEmpty (rep : Rep head nodes) : plistNodeEmpty head node = true ↔ node ∉ nodes := by
  rw [plistNodeEmpty, rep.nodeList, empty_ring (distinct_ring rep.distinct)]
  constructor
  · intro alone mem
    have only := alone (by simp [mem])
    simp at only
  intro gone mem
  simp [gone] at mem

theorem next_head (rep : Rep head nodes) : head.nodeList.next none = nodes.head? := by
  rw [rep.nodeList]
  have distinct := distinct_ring rep.distinct
  cases nodes with
  | nil => simp [ring, ofPerm]
  | cons first rest => exact (next_ring distinct : (ring ([] ++ none :: _)).next none = some first)

theorem next_node (rep : Rep head (before ++ node :: after)) :
    head.nodeList.next (some node) = after.head? := by
  rw [rep.nodeList]
  have distinct := distinct_ring rep.distinct
  cases after with
  | nil =>
    rw [map_append, map_singleton] at distinct ⊢
    exact next_last distinct
  | cons next rest => ?_
  have shape : none :: (before ++ node :: next :: rest).map some =
      (none :: before.map some) ++ some node :: some next :: rest.map some := by simp
  rw [shape] at distinct ⊢
  exact next_ring distinct

/-- A node in front of another one, or at the end. -/
theorem addTail_nodes (rep : Rep head (before ++ after)) (fresh : node ∉ before ++ after) :
    head.nodeList.addTail (some node) after.head? =
      ring (none :: (before ++ node :: after).map some) := by
  rw [rep.nodeList]
  have distinct := distinct_ring rep.distinct
  have fresh' : some node ∉ none :: (before ++ after).map some := by simpa using fresh
  cases after with
  | nil =>
    rw [head?_nil, addTail_first distinct fresh']
    simp
  | cons next rest => ?_
  have shape : none :: (before ++ next :: rest).map some =
      (none :: before.map some) ++ some next :: rest.map some := by simp
  rw [shape] at distinct fresh' ⊢
  rw [head?_cons, addTail_ring distinct fresh']
  simp

omit [DecidableEq Node] in
theorem sorted_insert {low same high : List Node} {prio : Node → Int} {p : Int}
    (sorted : Sorted prio (low ++ (same ++ high))) (groups : Groups prio p low same high)
    (eq : prio node = p) : Sorted prio (low ++ (same ++ node :: high)) := by
  rw [Sorted, ← append_assoc] at sorted ⊢
  have parts := pairwise_append.mp sorted
  refine pairwise_append.mpr ⟨parts.1, pairwise_cons.mpr ⟨fun b right => ?_, parts.2.1⟩, ?_⟩
  · have := groups.high b right
    omega
  intro a left b right
  rcases mem_cons.mp right with rfl | later
  · rcases mem_append.mp left with below | same
    · have := groups.low a below
      omega
    have := groups.same a same
    omega
  exact parts.2.2 a left b later

omit [DecidableEq Node] in
theorem distinct_insert (distinct : (before ++ after).Nodup) (fresh : node ∉ before ++ after) :
    (before ++ node :: after).Nodup :=
  (perm_middle.nodup_iff).mpr (nodup_cons.mpr ⟨fresh, distinct⟩)

section

variable {low same high : List Node} {first : Node}

/-- The loop of `plist_add` over the first nodes: it has passed `done`, and will pass `todo`. -/
theorem addLoop_eq (done todo rest : List Node)
    (ring_eq : head.prioList = ring (done ++ (todo ++ rest)))
    (distinct : (done ++ (todo ++ rest)).Nodup)
    (start : (done ++ (todo ++ rest)).head? = some first)
    (past : ∀ a ∈ todo, ¬head.prio node < head.prio a)
    (stops : ∀ a ∈ rest, head.prio node < head.prio a) {iter : Node}
    (now : (todo ++ rest).head? = some iter) (enough : todo.length < fuel) :
    addLoop head node first fuel done.getLast? iter =
      some ((done ++ todo).getLast?, rest.head?.getD first, rest.head?) := by
  induction todo generalizing done fuel iter with
  | nil =>
    obtain _ | fuel := fuel
    · omega
    rw [nil_append] at now
    have stop := stops iter (mem_of_head? now)
    rw [addLoop, if_pos stop, append_nil, now]
    rfl
  | cons a todo ih => ?_
  obtain _ | fuel := fuel
  · omega
  obtain rfl : a = iter := by simpa using now
  rw [addLoop, if_neg (past a (.head _)), ring_eq]
  have shift : done ++ (a :: todo ++ rest) = (done ++ [a]) ++ (todo ++ rest) := by simp
  cases remaining : todo ++ rest with
  | nil =>
    obtain ⟨rfl, rfl⟩ := append_eq_nil_iff.mp remaining
    have around : (ring (done ++ ([a] ++ []))).next a = first := by
      cases done with
      | nil =>
        obtain rfl : a = first := by simpa using start
        simp [ring, ofPerm]
      | cons b done => ?_
      obtain rfl : b = first := by simpa using start
      exact next_last distinct
    rw [around, if_pos rfl]
    simp
  | cons next later => ?_
  have follows : (ring (done ++ (a :: todo ++ rest))).next a = next := by
    have shape : done ++ (a :: todo ++ rest) = done ++ a :: next :: later := by
      rw [cons_append, remaining]
    rw [shape] at distinct ⊢
    exact next_ring distinct
  have ne : next ≠ first := by
    rintro rfl
    rw [cons_append, remaining] at start distinct
    cases done with
    | nil =>
      obtain rfl : a = next := by simpa using start
      simp at distinct
    | cons b done => ?_
    obtain rfl : b = next := by simpa using start
    simp at distinct
  rw [follows, if_neg ne]
  rw [shift] at ring_eq distinct start
  have next_eq :=
    ih (done ++ [a]) ring_eq distinct start (fun b mem => past b (.tail _ mem))
      (by rw [remaining]; rfl) (Nat.lt_of_succ_lt_succ enough)
  rw [getLast?_append, append_assoc] at next_eq
  exact next_eq

/-- In front of the rest of a ring, or of its first node if nothing is left. -/
theorem addTail_rest (distinct : (done ++ rest).Nodup) (fresh : node ∉ done ++ rest)
    (start : (done ++ rest).head? = some first) :
    (ring (done ++ rest)).addTail node (rest.head?.getD first) = ring (done ++ node :: rest) := by
  cases rest with
  | cons next rest => exact addTail_ring distinct fresh
  | nil => ?_
  rw [append_nil] at distinct fresh start ⊢
  cases done with
  | nil => cases start
  | cons a done => ?_
  obtain rfl : a = first := by simpa using start
  exact addTail_first distinct fresh

/-- `plist_add` puts a node behind those of its priority. -/
theorem add (rep : Rep head (low ++ (same ++ high)))
    (groups : Groups head.prio (head.prio node) low same high)
    (fresh : node ∉ low ++ (same ++ high)) {fuel : Nat}
    (enough : (low ++ (same ++ high)).length < fuel) :
    ∃ head', plistAdd fuel node head = some head' ∧ head'.prio = head.prio ∧
      Rep head' (low ++ (same ++ node :: high)) := by
  have sorted := sorted_insert rep.sorted groups rfl
  have fresh' : node ∉ (low ++ same) ++ high := by rwa [append_assoc]
  have rep' : Rep head ((low ++ same) ++ high) := by rwa [append_assoc]
  have distinct := distinct_insert rep'.distinct fresh'
  have tail := addTail_nodes rep' fresh'
  have groups' : Groups head.prio (head.prio node) low (same ++ [node]) high :=
    ⟨groups.low, by simpa [or_imp, forall_and] using groups.same, groups.high⟩
  have new_firsts := groups'.firsts_eq
  rw [append_assoc, singleton_append] at new_firsts
  rw [append_assoc] at tail distinct
  rw [plistAdd, rep.next_head]
  cases start : (low ++ (same ++ high)).head? with
  | none =>
    obtain ⟨rfl, rfl, rfl⟩ : low = [] ∧ same = [] ∧ high = [] := by
      simpa [head?_eq_none_iff] using start
    refine ⟨_, rfl, rfl, tail, ?_, distinct, sorted⟩
    rw [rep.prioList]
    exact ring_nil
  | some first => ?_
  have prio_ring := rep.prioList
  have prio_distinct := rep.distinct_firsts
  have prio_start := firsts_head head.prio (low ++ (same ++ high))
  have prio_fresh : node ∉ firsts head.prio (low ++ (same ++ high)) :=
    fun mem => fresh ((firsts_sublist _ _).subset mem)
  have short := (firsts_sublist head.prio (low ++ (same ++ high))).length_le
  rw [start] at prio_start
  rw [groups.firsts_eq, ← append_assoc] at prio_ring prio_distinct prio_start prio_fresh short
  have past : ∀ a ∈ firsts head.prio low ++ same.take 1, ¬head.prio node < head.prio a := by
    intro a mem
    rcases mem_append.mp mem with below | eq
    · have := groups.low_firsts a below
      omega
    have := groups.same a (mem_of_mem_take eq)
    omega
  have fuel_enough : (firsts head.prio low ++ same.take 1).length < fuel := by
    have total :=
      (sublist_append_left (firsts head.prio low ++ same.take 1) (firsts head.prio high)).length_le
    omega
  have looped :=
    addLoop_eq [] _ _ prio_ring prio_distinct prio_start past groups.high_firsts prio_start
      fuel_enough
  rw [getLast?_nil, nil_append] at looped
  simp only [looped, Option.bind_eq_bind, Option.bind_some]
  refine ⟨_, rfl, rfl, by rw [firsts_head]; exact tail, ?_, distinct, sorted⟩
  rw [new_firsts, prio_ring]
  cases same with
  | nil =>
    have lower : ((firsts head.prio low ++ [].take 1).getLast?.all
        fun prev => head.prio prev ≠ head.prio node) = true := by
      rw [Option.all_eq_true]
      intro prev last
      have := groups.low_firsts prev (by simpa using mem_of_getLast? last)
      simp
      omega
    rw [if_pos lower, addTail_rest prio_distinct prio_fresh prio_start]
    simp
  | cons s rest => ?_
  have eq : ((firsts head.prio low ++ (s :: rest).take 1).getLast?.all
      fun prev => head.prio prev ≠ head.prio node) = false := by
    simp [groups.same s (.head _)]
  rw [eq, if_neg (by simp)]
  simp

end

section

variable {low later high : List Node}

/-- The first nodes after a deletion. -/
theorem passOn_delInit (rep : Rep head (low ++ (node :: later ++ high)))
    (groups : Groups head.prio (head.prio node) low (node :: later) high)
    (several : head.prioList.empty node = false) :
    (passOn node head).delInit node =
      ring (firsts head.prio low ++ (later.take 1 ++ firsts head.prio high)) := by
  have prio_ring := rep.prioList
  have prio_distinct := rep.distinct_firsts
  have inside := firsts_sublist head.prio (low ++ (node :: later ++ high))
  have next : head.nodeList.next (some node) = (later ++ high).head? := rep.next_node
  rw [groups.firsts_eq, take_succ_cons, take_zero,
    singleton_append] at prio_ring prio_distinct inside
  rw [passOn, next]
  cases later with
  | cons x later =>
    have gone : x ∉ firsts head.prio low ++ node :: firsts head.prio high := by
      intro mem
      have distinct := rep.distinct
      have eq := groups.same x (by simp)
      rcases mem_append.mp mem with below | rest
      · have := groups.low_firsts x below
        omega
      rcases mem_cons.mp rest with rfl | above
      · simp [nodup_append] at distinct
      have := groups.high_firsts x above
      omega
    have alone : head.prioList.empty x = true := by
      rw [prio_ring, empty_ring prio_distinct]
      exact fun mem => absurd mem gone
    simp only [cons_append, head?_cons]
    rw [if_pos alone, prio_ring, add_ring prio_distinct gone]
    refine delInit_ring ?_
    have moved : (firsts head.prio low ++ node :: x :: firsts head.prio high) =
        (firsts head.prio low ++ [node]) ++ x :: firsts head.prio high := by simp
    rw [moved]
    refine distinct_insert (by simpa using prio_distinct) (by simpa using gone)
  | nil => ?_
  rw [nil_append]
  cases high with
  | nil =>
    rw [head?_nil, prio_ring]
    exact delInit_ring prio_distinct
  | cons b high => ?_
  have mem : b ∈ firsts head.prio low ++ node :: firsts head.prio (b :: high) := by
    have := mem_of_head? ((firsts_head head.prio (b :: high)).trans head?_cons)
    simp [this]
  have shared : head.prioList.empty b ≠ true := by
    rw [prio_ring, Ne, empty_ring prio_distinct]
    intro only
    have alone := only mem
    have eq : node = b := by
      have : node ∈ [b] :=
        alone ▸ (by simp : node ∈ firsts head.prio low ++ node :: firsts head.prio (b :: high))
      exact mem_singleton.mp this
    have := groups.high b (.head _)
    rw [eq] at this
    exact lt_irrefl _ this
  simp only [head?_cons]
  rw [if_neg shared, prio_ring]
  exact delInit_ring prio_distinct

/-- `plist_del` takes a node out of both rings. -/
theorem del (rep : Rep head (before ++ node :: after)) :
    Rep (plistDel node head) (before ++ after) := by
  have sublist : (before ++ after).Sublist (before ++ node :: after) :=
    Sublist.append_left (sublist_cons_self node after) before
  refine ⟨?_, ?_, rep.distinct.sublist sublist, rep.sorted.sublist sublist⟩
  · have distinct := distinct_ring rep.distinct
    have shape : none :: (before ++ node :: after).map some =
        (none :: before.map some) ++ some node :: after.map some := by simp
    rw [plistDel, rep.nodeList]
    rw [shape] at distinct ⊢
    rw [delInit_ring distinct]
    simp
  obtain ⟨low, earlier, later, high, rfl, rfl, groups⟩ := groups_around rep.sorted
  have shape : low ++ earlier ++ node :: (later ++ high) =
      low ++ ((earlier ++ node :: later) ++ high) := by
    simp
  rw [shape] at rep
  have fewer : Groups head.prio (head.prio node) low (earlier ++ later) high :=
    ⟨groups.low, fun a mem => groups.same a (by
      rcases mem_append.mp mem with left | right
      · simp [left]
      simp [right]), groups.high⟩
  have new_firsts := fewer.firsts_eq
  have old_ring := rep.prioList
  have prio_distinct := rep.distinct_firsts
  rw [groups.firsts_eq] at old_ring prio_distinct
  have joined : low ++ earlier ++ (later ++ high) = low ++ ((earlier ++ later) ++ high) := by simp
  simp only [plistDel]
  rw [joined, new_firsts]
  cases earlier with
  | cons x earlier =>
    have gone : node ∉
        firsts head.prio low ++
          ((x :: earlier ++ node :: later).take 1 ++ firsts head.prio high) := by
      intro mem
      rcases mem_append.mp mem with below | rest
      · have := groups.low_firsts node below
        omega
      rcases mem_append.mp rest with here | above
      · obtain rfl : node = x := by simpa using here
        have distinct := rep.distinct
        simp [nodup_append] at distinct
      have := groups.high_firsts node above
      omega
    have alone : head.prioList.empty node = true := by
      rw [old_ring, empty_ring prio_distinct]
      exact fun mem => absurd mem gone
    rw [if_pos alone, old_ring]
    rfl
  | nil => ?_
  by_cases alone : head.prioList.empty node = true
  · rw [if_pos alone]
    rw [old_ring, empty_ring prio_distinct] at alone
    have only := alone (by simp)
    obtain ⟨below, above⟩ : firsts head.prio low = [] ∧ firsts head.prio high = [] := by
      have length := congrArg length only
      simp only
        [nil_append, take_succ_cons, take_zero, length_append, length_cons, length_nil] at length
      exact ⟨length_eq_zero_iff.mp (by omega), length_eq_zero_iff.mp (by omega)⟩
    rw [old_ring, below, above]
    cases later with
    | nil => exact ring_nil.symm
    | cons x later => exact ring_nil.symm.trans ring_nil
  rw [if_neg alone]
  exact passOn_delInit rep groups (by simpa using alone)

end

section

variable {low later high : List Node}

theorem prev_head (rep : Rep head nodes) : head.nodeList.prev none = nodes.getLast? := by
  have around : head.nodeList.next nodes.getLast? = none := by
    rcases eq_nil_or_concat nodes with rfl | ⟨front, last, rfl⟩
    · rw [getLast?_nil, rep.next_head]
      rfl
    rw [concat_eq_append] at rep ⊢
    rw [getLast?_concat, rep.next_node]
    rfl
  rw [rep.nodeList] at around ⊢
  change Equiv.symm _ _ = _
  rw [Equiv.symm_apply_eq]
  exact around.symm

theorem requeueLoop_eq {iter : Node} (rep : Rep head (before ++ iter :: (todo ++ rest)))
    (past : ∀ a ∈ todo, head.prio a = head.prio node)
    (stops : ∀ a ∈ rest, head.prio node < head.prio a) (enough : todo.length < fuel) :
    requeueLoop head node fuel iter = some rest.head? := by
  induction todo generalizing before iter fuel with
  | nil =>
    obtain _ | fuel := fuel
    · omega
    rw [requeueLoop, rep.next_node]
    cases rest with
    | nil => rfl
    | cons b rest => ?_
    have ne := (stops b (.head _)).ne
    simp only [nil_append, head?_cons]
    rw [if_pos ne]
  | cons a todo ih => ?_
  obtain _ | fuel := fuel
  · omega
  have eq := past a (.head _)
  rw [requeueLoop, rep.next_node]
  simp only [cons_append, head?_cons]
  rw [if_neg (not_not.mpr eq.symm)]
  have rep' : Rep head ((before ++ [iter]) ++ a :: (todo ++ rest)) := by simpa using rep
  exact ih rep' (fun b mem => past b (.tail _ mem)) (Nat.lt_of_succ_lt_succ enough)

/-- `plist_requeue` moves a node behind those of its priority. -/
theorem requeue (rep : Rep head ((low ++ earlier) ++ node :: (later ++ high)))
    (groups : Groups head.prio (head.prio node) low (earlier ++ node :: later) high) {fuel : Nat}
    (enough : later.length < fuel) :
    ∃ head', plistRequeue fuel node head = some head' ∧ head'.prio = head.prio ∧
      Rep head' (low ++ ((earlier ++ later) ++ node :: high)) := by
  have not_empty : ¬(plistHeadEmpty head = true ∨ plistNodeEmpty head node = true) := by
    rintro (none | alone)
    · rw [plistHeadEmpty, empty, decide_eq_true_eq, rep.next_head] at none
      simp at none
    exact rep.nodeEmpty.mp alone (by simp)
  rw [plistRequeue, if_neg not_empty, rep.prev_head, rep.next_node]
  cases later with
  | nil =>
    have same : low ++ ((earlier ++ []) ++ node :: high) =
        (low ++ earlier) ++ node :: ([] ++ high) := by
      simp
    rw [same]
    refine ⟨head, ?_, rfl, rep⟩
    cases high with
    | nil => simp
    | cons b high => ?_
    have ne := (groups.high b (.head _)).ne
    simp [ne]
  | cons x later => ?_
  have eq : head.prio x = head.prio node := groups.same x (by simp)
  have not_last : ((low ++ earlier) ++ node :: (x :: later ++ high)).getLast? ≠ some node := by
    have distinct := rep.distinct
    intro last
    have mem : node ∈ x :: later ++ high := by
      rw [getLast?_append_cons, cons_append, getLast?_cons_cons] at last
      exact mem_of_getLast? last
    have parts := (nodup_append.mp distinct).2.1
    exact (nodup_cons.mp parts).1 mem
  have deleted := rep.del
  have prio_eq : (plistDel node head).prio = head.prio := rfl
  have looped : requeueLoop (plistDel node head) node fuel x = some high.head? :=
    requeueLoop_eq deleted (fun a mem => groups.same a (by simp [mem])) groups.high
      (Nat.lt_of_succ_lt enough)
  rw [if_neg not_last]
  simp only [cons_append, head?_cons]
  rw [if_neg (not_not.mpr eq.symm)]
  simp only [looped, Option.bind_eq_bind, Option.bind_some]
  have fewer : Groups head.prio (head.prio node) low (earlier ++ x :: later) high :=
    ⟨groups.low, fun a mem => groups.same a (by
      rcases mem_append.mp mem with left | right
      · simp [left]
      simp [mem_cons.mp right]), groups.high⟩
  have more : Groups head.prio (head.prio node) low ((earlier ++ x :: later) ++ [node]) high :=
    ⟨groups.low, by simpa [or_imp, forall_and] using fewer.same, groups.high⟩
  have grouped : (low ++ earlier) ++ (x :: later ++ high) =
      low ++ ((earlier ++ x :: later) ++ high) := by
    simp
  have prefixed : (low ++ earlier) ++ (x :: later ++ high) =
      (low ++ (earlier ++ x :: later)) ++ high := by
    simp
  have fresh : node ∉ (low ++ (earlier ++ x :: later)) ++ high := by
    rw [← prefixed]
    exact (nodup_cons.mp ((perm_middle.nodup_iff).mp rep.distinct)).1
  have firsts_eq : firsts head.prio (low ++ ((earlier ++ x :: later) ++ node :: high)) =
      firsts head.prio (low ++ ((earlier ++ x :: later) ++ high)) := by
    have added := more.firsts_eq
    rw [append_assoc (earlier ++ x :: later), singleton_append] at added
    rw [added, fewer.firsts_eq]
    cases earlier with
    | nil => rfl
    | cons y earlier => rfl
  have sorted := sorted_insert (grouped ▸ deleted.sorted) fewer rfl
  rw [prefixed] at deleted
  have tail := addTail_nodes deleted fresh
  have distinct := distinct_insert deleted.distinct fresh
  rw [append_assoc] at tail distinct
  refine ⟨_, rfl, rfl, tail, ?_, distinct, sorted⟩
  rw [deleted.prioList, prio_eq, firsts_eq, append_assoc]

end

end Rep

end TinyKernel.Plist
