import Mathlib.Data.Nat.SuccPred
import TinyKernel.Plist.Sorted

/-! Priority lists over whole runs: sorted, stable, and with the first node of each priority
linked. -/

namespace TinyKernel.Plist

open Lib RingLinks List Function Option Nat

variable {Node : Type} [DecidableEq Node] {head head' : PlistHead Node} {node : Node}

theorem addLoop_mono {iter : Node} {prev : Option Node} {more : Nat}
    {result : Option Node × Node × Option Node} (enough : fuel ≤ more)
    (returned : addLoop head node first fuel prev iter = some result) :
    addLoop head node first more prev iter = some result := by
  induction fuel generalizing more prev iter with
  | zero => cases returned
  | succ fuel ih => ?_
  obtain _ | more := more
  · omega
  rw [addLoop] at returned ⊢
  split
  · next stop => rwa [if_pos stop] at returned
  rename_i go
  rw [if_neg go] at returned
  simp only at returned ⊢
  split
  · next last => rwa [if_pos last] at returned
  rename_i inner
  rw [if_neg inner] at returned
  exact ih (le_of_succ_le_succ enough) returned

omit [DecidableEq Node] in
theorem requeueLoop_mono {iter : Node} {fuel more : Nat} {result : Option Node}
    (enough : fuel ≤ more) (returned : requeueLoop head node fuel iter = some result) :
    requeueLoop head node more iter = some result := by
  induction fuel generalizing more iter with
  | zero => cases returned
  | succ fuel ih => ?_
  obtain _ | more := more
  · omega
  rw [requeueLoop] at returned ⊢
  cases following : head.nodeList.next (some iter) with
  | none => simpa [following] using returned
  | some next => ?_
  simp only [following] at returned ⊢
  split
  · next stop => rwa [if_pos stop] at returned
  rename_i go
  rw [if_neg go] at returned
  exact ih (le_of_succ_le_succ enough) returned

section

variable {fuel more : Nat} (enough : fuel ≤ more)
include enough

theorem plistAdd_mono (returned : plistAdd fuel node head = some head') :
    plistAdd more node head = some head' := by
  rw [plistAdd] at returned ⊢
  cases start : head.nodeList.next none with
  | none => simpa [start] using returned
  | some first => ?_
  simp only [start] at returned ⊢
  obtain ⟨result, looped, rest⟩ := bind_eq_some_iff.mp returned
  exact bind_eq_some_iff.mpr ⟨result, addLoop_mono enough looped, rest⟩

theorem plistRequeue_mono (returned : plistRequeue fuel node head = some head') :
    plistRequeue more node head = some head' := by
  rw [plistRequeue] at returned ⊢
  split at returned
  · cases returned
  rename_i alive
  rw [if_neg alive]
  split at returned
  · next last => rwa [if_pos last]
  rename_i inner
  rw [if_neg inner]
  cases following : head.nodeList.next (some node) with
  | none => simp [following] at returned
  | some iter => ?_
  simp only [following] at returned ⊢
  split at returned
  · next ne => rwa [if_pos ne]
  rename_i eq
  rw [if_neg eq]
  obtain ⟨result, looped, rest⟩ := bind_eq_some_iff.mp returned
  exact bind_eq_some_iff.mpr ⟨result, requeueLoop_mono enough looped, rest⟩

/-- What a step returns does not depend on the fuel. -/
theorem step_mono (returned : step fuel head event = some head') :
    step more head event = some head' := by
  cases event with
  | add node prio =>
    rw [step] at returned ⊢
    split at returned
    · next alone => rw [if_pos alone]; exact plistAdd_mono enough returned
    cases returned
  | del node => exact returned
  | requeue node => ?_
  rw [step] at returned ⊢
  split at returned
  · cases returned
  · next there => rw [if_neg there]; exact plistRequeue_mono enough returned

end

/-- When the nodes on the list came behind those of their priority: when they were added, or
requeued. -/
def Event.stamp (time : Nat) (stamp : Node → Option Nat) : Event Node → Node → Option Nat
  | .add node _ => update stamp node (some time)
  | .del node => update stamp node none
  | .requeue node => update stamp node (some time)

/-- The lists that some number of steps makes of an empty one. -/
inductive Reached : PlistHead Node → (Node → Option Nat) → Nat → Prop
  | init (prio : Node → Int) : Reached (PlistHead.init prio) (fun _ => none) 0
  | step {head head' : PlistHead Node} {stamp : Node → Option Nat} {time : Nat} (fuel : Nat)
      (event : Event Node) (reached : Reached head stamp time)
          (returned : step fuel head event = some head') :
      Reached head' (event.stamp time stamp) (time + 1)

/-- Nodes with one priority stand in the order of their stamps. -/
structure Stable (head : PlistHead Node) (stamp : Node → Option Nat) (time : Nat)
    (nodes : List Node) : Prop where
  rep : Rep head nodes
  stamped : ∀ node, node ∈ nodes ↔ stamp node ≠ none
  past : ∀ node t, stamp node = some t → t < time
  ordered : nodes.Pairwise fun a b => head.prio a = head.prio b → stamp a < stamp b
  short : nodes.length ≤ time

namespace Rep

omit [DecidableEq Node] in
theorem firsts_congr {prio prio' : Node → Int} {nodes : List Node}
    (same : ∀ a ∈ nodes, prio a = prio' a) : firsts prio nodes = firsts prio' nodes := by
  cases nodes with
  | nil => rfl
  | cons first rest => ?_
  rw [firsts, firsts, destutter_cons', destutter_cons']
  induction rest generalizing first with
  | nil => rfl
  | cons second rest ih => ?_
  have eq : (prio first ≠ prio second) = (prio' first ≠ prio' second) := by
    rw [same first (by simp), same second (by simp)]
  rw [destutter'_cons, destutter'_cons]
  simp only [eq]
  rw [ih second fun a mem => same a (.tail _ mem), ih first fun a mem => ?_]
  rcases mem_cons.mp mem with rfl | later
  · exact same a (by simp)
  exact same a (by simp [later])

/-- A node on no list may get another priority. -/
theorem nodeInit (rep : Rep head nodes) (fresh : node ∉ nodes) (prio : Int) :
    Rep (plistNodeInit head node prio) nodes := by
  have same : ∀ a ∈ nodes, head.prio a = update head.prio node prio a := by
    intro a mem
    have ne : a ≠ node := by
      rintro rfl
      exact fresh mem
    rw [update_of_ne ne]
  refine ⟨?_, ?_, rep.distinct, ?_⟩
  · rw [plistNodeInit, rep.nodeList]
    exact init_ring (by simpa using fresh)
  · rw [plistNodeInit, rep.prioList]
    rw [← firsts_congr same]
    exact init_ring fun mem => fresh ((firsts_sublist _ _).subset mem)
  refine rep.sorted.imp_of_mem fun {a b} left right below => ?_
  simp only [plistNodeInit]
  rwa [← same a left, ← same b right]

end Rep

namespace Stable

variable {stamp : Node → Option Nat} {time fuel : Nat} {nodes before after : List Node}

theorem init (prio : Node → Int) : Stable (PlistHead.init prio) (fun _ => none) 0 [] where
  rep := Rep.init prio
  stamped := by simp
  past := by simp
  ordered := Pairwise.nil
  short := le_refl 0

theorem del (stable : Stable head stamp time (before ++ node :: after)) :
    Stable (plistDel node head) (update stamp node none) (time + 1) (before ++ after) := by
  have fresh : node ∉ before ++ after :=
    (nodup_cons.mp ((perm_middle.nodup_iff).mp stable.rep.distinct)).1
  have sublist : (before ++ after).Sublist (before ++ node :: after) :=
    Sublist.append_left (sublist_cons_self node after) before
  refine ⟨stable.rep.del, fun other => ?_, fun other t => ?_, ?_, ?_⟩
  · by_cases same : other = node
    · subst same
      simpa using fresh
    rw [update_of_ne same, ← stable.stamped]
    simp [same]
  · by_cases same : other = node
    · subst same
      simp
    rw [update_of_ne same]
    exact fun stamped => lt_succ_of_lt (stable.past other t stamped)
  · refine (stable.ordered.sublist sublist).imp_of_mem fun {a b} left right earlier eq => ?_
    have old (a : Node) (mem : a ∈ before ++ after) : a ≠ node := by
      rintro rfl
      exact fresh mem
    rw [update_of_ne (old a left), update_of_ne (old b right)]
    exact earlier eq
  have := sublist.length_le
  have := stable.short
  omega

/-- A node behind those of its priority, with the newest stamp. -/
theorem insert (rep : Rep head' (low ++ (same ++ node :: high)))
    (groups : Groups head'.prio (head'.prio node) low same high)
    (prio_eq : ∀ a ∈ low ++ (same ++ high), head'.prio a = head.prio a)
    (ordered :
      (low ++ (same ++ high)).Pairwise fun a b => head.prio a = head.prio b → stamp a < stamp b)
    (stamped : ∀ other, other ≠ node → (other ∈ low ++ (same ++ high) ↔ stamp other ≠ none))
    (past : ∀ other t, stamp other = some t → t < time)
    (short : (low ++ (same ++ high)).length ≤ time) :
    Stable head' (update stamp node (some time)) (time + 1) (low ++ (same ++ node :: high)) := by
  have shape : low ++ (same ++ node :: high) = (low ++ same) ++ node :: high := by simp
  have shape' : low ++ (same ++ high) = (low ++ same) ++ high := by simp
  have fresh : node ∉ (low ++ same) ++ high := by
    have nodup := rep.distinct
    rw [shape] at nodup
    exact (nodup_cons.mp ((perm_middle.nodup_iff).mp nodup)).1
  have old (a : Node) (mem : a ∈ (low ++ same) ++ high) : a ≠ node := by
    rintro rfl
    exact fresh mem
  rw [shape'] at prio_eq ordered stamped short
  have kept : ((low ++ same) ++ high).Pairwise fun a b => head'.prio a = head'.prio b →
      update stamp node (some time) a < update stamp node (some time) b := by
    refine ordered.imp_of_mem fun {a b} left right earlier eq => ?_
    rw [update_of_ne (old a left), update_of_ne (old b right)]
    rw [prio_eq a left, prio_eq b right] at eq
    exact earlier eq
  obtain ⟨first, second, across⟩ := pairwise_append.mp kept
  refine ⟨rep, fun other => ?_, fun other t => ?_, ?_, ?_⟩
  · by_cases eq : other = node
    · subst eq
      simp
    rw [update_of_ne eq, ← stamped other eq, shape]
    simp [eq]
  · by_cases eq : other = node
    · subst eq
      simp only [update_self, some.injEq]
      omega
    rw [update_of_ne eq]
    exact fun found => lt_succ_of_lt (past other t found)
  · rw [shape]
    refine pairwise_append.mpr ⟨first, pairwise_cons.mpr ⟨fun b right eq => ?_, second⟩, ?_⟩
    · have := groups.high b right
      omega
    intro a left b right eq
    rcases mem_cons.mp right with rfl | later
    · have mem : a ∈ (low ++ same) ++ high := mem_append_left _ left
      have some_stamp := (stamped a (old a mem)).mp mem
      obtain ⟨t, found⟩ := ne_none_iff_exists'.mp some_stamp
      rw [update_of_ne (old a mem), update_self, found]
      exact past a t found
    exact across a left b later eq
  simp only [length_append, length_cons] at short ⊢
  omega

theorem add (stable : Stable head stamp time nodes) (fresh : node ∉ nodes) (prio : Int)
    (enough : time < fuel) :
    ∃ head' nodes', step fuel head (.add node prio) = some head' ∧
      Stable head' (update stamp node (some time)) (time + 1) nodes' := by
  have rep := stable.rep.nodeInit fresh prio
  obtain ⟨low, same, high, rfl, groups⟩ :=
    exists_groups rep.sorted ((plistNodeInit head node prio).prio node)
  have long := lt_of_le_of_lt stable.short enough
  obtain ⟨head', returned, prio_eq, rep'⟩ := rep.add groups fresh long
  rw [step, if_pos (stable.rep.nodeEmpty.mpr fresh)]
  refine ⟨head', _, returned, insert rep' (prio_eq ▸ groups) (fun a mem => ?_) stable.ordered
    (fun other _ => stable.stamped other) stable.past stable.short⟩
  have ne : a ≠ node := by
    rintro rfl
    exact fresh mem
  rw [prio_eq, plistNodeInit]
  simp only
  rw [update_of_ne ne]

theorem requeue (stable : Stable head stamp time nodes) (mem : node ∈ nodes)
    (enough : time < fuel) :
    ∃ head' nodes', step fuel head (.requeue node) = some head' ∧
      plistAdd fuel node (plistDel node head) = some head' ∧
      Stable head' (update stamp node (some time)) (time + 1) nodes' := by
  obtain ⟨before, after, rfl⟩ := append_of_mem mem
  obtain ⟨low, earlier, later, high, rfl, rfl, groups⟩ := groups_around stable.rep.sorted
  have deleted := stable.del
  have joined : low ++ earlier ++ (later ++ high) = low ++ ((earlier ++ later) ++ high) := by simp
  have fewer : Groups head.prio (head.prio node) low (earlier ++ later) high :=
    ⟨groups.low, fun a inside => groups.same a (by
      rcases mem_append.mp inside with left | right
      · simp [left]
      simp [right]), groups.high⟩
  rw [joined] at deleted
  have fresh : node ∉ low ++ ((earlier ++ later) ++ high) := by
    rw [deleted.stamped]
    simp
  have sublist : (low ++ ((earlier ++ later) ++ high)).Sublist
      (low ++ earlier ++ node :: (later ++ high)) := by
    rw [← joined]
    exact Sublist.append_left (sublist_cons_self node _) _
  have short := le_trans sublist.length_le stable.short
  have rest_short : later.length < fuel := by
    simp only [length_append] at short
    omega
  obtain ⟨head', returned, prio_eq, rep'⟩ := stable.rep.requeue groups rest_short
  obtain ⟨other, added, other_prio, other_rep⟩ :=
    deleted.rep.add fewer fresh (lt_of_le_of_lt short enough)
  have eq : other = head' := other_rep.unique rep' (other_prio.trans prio_eq.symm)
  have there : ¬plistNodeEmpty head node = true := by
    rw [stable.rep.nodeEmpty]
    simp
  rw [step, if_neg there]
  refine ⟨head', _, returned, eq ▸ added, insert rep' (prio_eq ▸ fewer) (fun a _ => by rw [prio_eq])
    (stable.ordered.sublist sublist) (fun a ne => ?_) stable.past short⟩
  rw [← stable.stamped, ← joined]
  simp [ne]

/-- Every step keeps the order. -/
theorem step (stable : Stable head stamp time nodes)
    (returned : Plist.step fuel head event = some head') :
    ∃ nodes', Stable head' (event.stamp time stamp) (time + 1) nodes' := by
  have enough : time < max fuel (time + 1) := by omega
  replace returned := step_mono (le_max_left fuel (time + 1)) returned
  cases event with
  | add node prio =>
    have fresh : node ∉ nodes := by
      rw [← stable.rep.nodeEmpty]
      by_contra there
      rw [Plist.step, if_neg there] at returned
      cases returned
    obtain ⟨result, nodes', added, stable'⟩ := stable.add fresh prio enough
    obtain rfl : result = head' := some.inj (added.symm.trans returned)
    exact ⟨nodes', stable'⟩
  | del node =>
    rw [Plist.step] at returned
    split at returned
    · cases returned
    rename_i there
    obtain rfl := some.inj returned
    rw [stable.rep.nodeEmpty, not_not] at there
    obtain ⟨before, after, rfl⟩ := append_of_mem there
    exact ⟨before ++ after, stable.del⟩
  | requeue node => ?_
  have mem : node ∈ nodes := by
    rw [← not_not (a := node ∈ nodes), ← stable.rep.nodeEmpty]
    intro alone
    rw [Plist.step, if_pos alone] at returned
    cases returned
  obtain ⟨result, nodes', moved, -, stable'⟩ := stable.requeue mem enough
  obtain rfl : result = head' := some.inj (moved.symm.trans returned)
  exact ⟨nodes', stable'⟩

end Stable

theorem Reached.stable (reached : Reached head stamp time) :
    ∃ nodes, Stable head stamp time nodes := by
  induction reached with
  | init prio => exact ⟨[], Stable.init prio⟩
  | step fuel event _ returned ih => ?_
  obtain ⟨nodes, stable⟩ := ih
  exact stable.step returned

omit [DecidableEq Node] in
/-- The first nodes of a sorted list have ascending priorities. -/
theorem firsts_ascending {prio : Node → Int} {nodes : List Node} (sorted : Sorted prio nodes) :
    (firsts prio nodes).Pairwise fun a b => prio a < prio b := by
  cases nodes with
  | nil => exact Pairwise.nil
  | cons first rest => ?_
  rw [firsts, destutter_cons']
  induction rest generalizing first with
  | nil => simp
  | cons second rest ih => ?_
  obtain ⟨behind, sorted_rest⟩ := pairwise_cons.mp sorted
  rw [destutter'_cons]
  split
  · next ne =>
    refine pairwise_cons.mpr ⟨fun b mem => ?_, ih second sorted_rest⟩
    have inside : b ∈ second :: rest := (firsts_sublist prio (second :: rest)).subset mem
    have first_le := behind second (.head _)
    rcases mem_cons.mp inside with rfl | later
    · exact lt_of_le_of_ne first_le ne
    have second_le := (pairwise_cons.mp sorted_rest).1 b later
    omega
  exact ih first (sorted.sublist (Sublist.cons_cons first (sublist_cons_self second rest)))

omit [DecidableEq Node] in
theorem mem_firsts {prio : Node → Int} {before after : List Node} {node : Node}
    (sorted : Sorted prio (before ++ node :: after)) (nodup : (before ++ node :: after).Nodup) :
    node ∈ firsts prio (before ++ node :: after) ↔ ∀ a ∈ before, prio a ≠ prio node := by
  obtain ⟨low, earlier, later, high, rfl, rfl, groups⟩ := groups_around sorted
  have shape : low ++ earlier ++ node :: (later ++ high) =
      low ++ ((earlier ++ node :: later) ++ high) := by
    simp
  rw [shape] at nodup ⊢
  rw [groups.firsts_eq]
  cases earlier with
  | nil =>
    refine iff_of_true (by simp) fun a mem => ?_
    exact (groups.low a (by simpa using mem)).ne
  | cons x earlier => ?_
  have eq := groups.same x (by simp)
  refine iff_of_false (fun mem => ?_) fun others => others x (by simp) eq
  rcases mem_append.mp mem with below | rest
  · exact lt_irrefl _ (groups.low_firsts node below)
  rcases mem_append.mp rest with here | above
  · obtain rfl : node = x := by simpa using here
    simp [nodup_append] at nodup
  exact lt_irrefl _ (groups.high_firsts node above)

/-- The first node of a priority is the one with the oldest stamp. -/
theorem Stable.mem_firsts (stable : Stable head stamp time nodes) :
    node ∈ firsts head.prio nodes ↔
      node ∈ nodes ∧
        ∀ other ∈ nodes, other ≠ node → head.prio other = head.prio node →
          stamp node < stamp other := by
  constructor
  · intro first
    have mem := (firsts_sublist head.prio nodes).subset first
    refine ⟨mem, fun other inside ne eq => ?_⟩
    obtain ⟨before, after, rfl⟩ := append_of_mem mem
    have none_before := (Plist.mem_firsts stable.rep.sorted stable.rep.distinct).mp first
    have behind := (pairwise_cons.mp (pairwise_append.mp stable.ordered).2.1).1
    rcases mem_append.mp inside with earlier | later
    · exact absurd eq (none_before other earlier)
    rcases mem_cons.mp later with rfl | later
    · exact absurd rfl ne
    exact behind other later eq.symm
  rintro ⟨mem, oldest⟩
  obtain ⟨before, after, rfl⟩ := append_of_mem mem
  refine (Plist.mem_firsts stable.rep.sorted stable.rep.distinct).mpr fun a earlier eq => ?_
  have apart : a ≠ node := by
    rintro rfl
    exact (nodup_append.mp stable.rep.distinct).2.2 a earlier a (.head _) rfl
  have newer := oldest a (mem_append_left _ earlier) apart eq
  have older := (pairwise_append.mp stable.ordered).2.2 a earlier node (.head _) eq
  generalize stamp a = s at newer older
  generalize stamp node = t at newer older
  cases s with
  | none => exact not_lt_none newer
  | some s => ?_
  cases t with
  | none => exact not_lt_none older
  | some t => exact lt_asymm (some_lt_some.mp newer) (some_lt_some.mp older)

/-- After any run the nodes of `node_list` ascend, with equal priorities in the order in which they
were added or requeued, and `prio_list` has the first of each priority. A requeued node is deleted
and added. -/
theorem plist_sorted_stable {stamp : Node → Option Nat} {time : Nat}
    (reached : Reached head stamp time) :
    ∃ nodes firsts : List Node, (∀ node, node ∈ nodes ↔ stamp node ≠ none) ∧
      head.nodeList = ring (none :: nodes.map some) ∧
      nodes.Pairwise
        (fun a b => head.prio a < head.prio b ∨ head.prio a = head.prio b ∧ stamp a < stamp b) ∧
      head.prioList = ring firsts ∧ firsts.Pairwise (fun a b => head.prio a < head.prio b) ∧
      (∀ node, node ∈ firsts ↔
        node ∈ nodes ∧
          ∀ other ∈ nodes, other ≠ node → head.prio other = head.prio node →
            stamp node < stamp other) ∧ (∀ node, node ∉ firsts → head.prioList.empty node = true) ∧
      ∀ fuel, time < fuel →
        (∀ node prio, node ∉ nodes → (step fuel head (.add node prio)).isSome = true) ∧
          (∀ node ∈ nodes, (step fuel head (.del node)).isSome = true) ∧
          ∀ node ∈ nodes, (step fuel head (.requeue node)).isSome = true ∧
            step fuel head (.requeue node) = plistAdd fuel node (plistDel node head) := by
  obtain ⟨nodes, stable⟩ := reached.stable
  refine ⟨nodes, firsts head.prio nodes, stable.stamped, stable.rep.nodeList, ?_,
    stable.rep.prioList, firsts_ascending stable.rep.sorted, fun node => stable.mem_firsts,
    fun node missing => ?_, ?_⟩
  · refine (stable.rep.sorted.and stable.ordered).imp fun {a b} both => ?_
    rcases lt_or_eq_of_le both.1 with below | equal
    · exact .inl below
    exact .inr ⟨equal, both.2 equal⟩
  · rw [stable.rep.prioList, empty_ring stable.rep.distinct_firsts]
    exact fun member => absurd member missing
  intro fuel enough
  refine ⟨fun node prio fresh => ?_, fun node member => ?_, fun node member => ?_⟩
  · obtain ⟨head', _, returned, -⟩ := stable.add fresh prio enough
    rw [returned]
    rfl
  · have there : ¬plistNodeEmpty head node = true := by rwa [stable.rep.nodeEmpty, not_not]
    rw [step, if_neg there]
    rfl
  obtain ⟨head', _, returned, added, -⟩ := stable.requeue member enough
  rw [returned, added]
  exact ⟨rfl, rfl⟩

/-- Three nodes with two priorities, one of which is requeued. -/
theorem plist_sorted_stable_three :
    ∃ (head : PlistHead (Fin 3)) (stamp : Fin 3 → Option Nat) (time : Nat),
      Reached head stamp time ∧ time = 4 ∧
        ∃ nodes firsts : List (Fin 3), (∀ node, node ∈ nodes ↔ stamp node ≠ none) ∧
          head.nodeList = ring (none :: nodes.map some) ∧ head.prioList = ring firsts := by
  have first := Reached.step 5 (.add 0 7) (Reached.init fun _ : Fin 3 => 0) rfl
  have second := Reached.step 5 (.add 1 3) first rfl
  have third := Reached.step 5 (.add 2 7) second rfl
  have last := Reached.step 5 (.requeue 0) third rfl
  obtain ⟨nodes, firsts, stamped, links, -, prio_links, -⟩ := plist_sorted_stable last
  exact ⟨_, _, _, last, rfl, nodes, firsts, stamped, links, prio_links⟩

/-- After any run, deleting a node that was just added restores every link. -/
theorem plist_del_add (reached : Reached head stamp time) (fresh : stamp node = none)
    (enough : time < fuel) :
    ∃ head', plistAdd fuel node head = some head' ∧ plistDel node head' = head := by
  obtain ⟨nodes, stable⟩ := reached.stable
  obtain ⟨low, same, high, rfl, groups⟩ := exists_groups stable.rep.sorted (head.prio node)
  have missing : node ∉ low ++ (same ++ high) := fun mem => (stable.stamped node).mp mem fresh
  obtain ⟨head', added, prio, rep⟩ := stable.rep.add groups missing (stable.short.trans_lt enough)
  rw [← append_assoc] at rep
  exact ⟨head', added, rep.del.unique (append_assoc low same high ▸ stable.rep) prio⟩

/-- A node whose priority stands between the two that are on the list. -/
theorem plist_del_add_between :
    ∃ (head : PlistHead (Fin 4)) (stamp : Fin 4 → Option Nat), Reached head stamp 4 ∧
      [0, 1, 2, 3].map head.prio = [7, 3, 7, 5] ∧
      [0, 1, 2, 3].map stamp = [some 2, some 1, some 3, none] ∧
      ∃ head', plistAdd 5 3 head = some head' ∧ plistDel 3 head' = head := by
  have first := Reached.step 5 (.add 2 7) (Reached.init fun _ : Fin 4 => 5) rfl
  have second := Reached.step 5 (.add 1 3) first rfl
  have third := Reached.step 5 (.add 0 7) second rfl
  have last := Reached.step 5 (.requeue 2) third rfl
  exact ⟨_, _, last, rfl, rfl, plist_del_add last rfl (by decide)⟩

end TinyKernel.Plist
