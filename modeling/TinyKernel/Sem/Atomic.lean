import Mathlib.Algebra.BigOperators.Group.Finset.Basic
import Mathlib.Algebra.Order.Ring.Int
import Mathlib.Algebra.Star.Basic
import Mathlib.Data.Nat.Cast.Order.Ring
import Mathlib.Order.ConditionallyCompleteLattice.Defs
import Mathlib.Order.ConditionallyCompletePartialOrder.Defs
import TinyKernel.Sem.Code

/-! The operations of a call are all done or none is. -/

namespace TinyKernel.Sem

open List Function Int

/-- What operations add to a semaphore. -/
def moved (sops : List Sembuf) (num : Nat) : Int :=
  ((sops.filter fun sop => sop.semNum = num).map Sembuf.semOp).sum

@[simp] theorem moved_nil (num : Nat) : moved [] num = 0 := rfl

theorem moved_append (sops more : List Sembuf) (num : Nat) :
    moved (sops ++ more) num = moved sops num + moved more num := by
  simp [moved]

theorem moved_singleton (sop : Sembuf) (num : Nat) :
    moved [sop] num = if sop.semNum = num then sop.semOp else 0 := by
  by_cases same : sop.semNum = num <;> simp [moved, same]

/-- The operations with `SEM_UNDO`, and those without. -/
def withUndo (sops : List Sembuf) : List Sembuf := sops.filter Sembuf.undo

def withoutUndo (sops : List Sembuf) : List Sembuf := sops.filter fun sop => !sop.undo

theorem moved_split (sops : List Sembuf) (num : Nat) :
    moved sops num = moved (withUndo sops) num + moved (withoutUndo sops) num := by
  induction sops with
  | nil => rfl
  | cons sop sops ih => ?_
  have head : moved (sop :: sops) num = moved [sop] num + moved sops num :=
    moved_append [sop] sops num
  rw [head, ih]
  cases undo : sop.undo with
  | true =>
    have split : withUndo (sop :: sops) = [sop] ++ withUndo sops := by simp [withUndo, undo]
    have other : withoutUndo (sop :: sops) = withoutUndo sops := by simp [withoutUndo, undo]
    rw [split, other, moved_append, add_assoc]
  | false => ?_
  have split : withoutUndo (sop :: sops) = [sop] ++ withoutUndo sops := by simp [withoutUndo, undo]
  have other : withUndo (sop :: sops) = withUndo sops := by simp [withUndo, undo]
  rw [split, other, moved_append]
  omega

variable {Process : Type} [DecidableEq Process] {sems : Sems Process} {sop : Sembuf}
  {sops before : List Sembuf}

/-- The semaphores once operations have been applied one after another. -/
def Sems.after (sems : Sems Process) (un : Process) (sops : List Sembuf) : Sems Process where
  semval num := sems.semval num + moved sops num
  sempid := sems.sempid
  semadj := update sems.semadj un fun num => sems.semadj un num - moved (withUndo sops) num

theorem Sems.after_nil (sems : Sems Process) (un : Process) : sems.after un [] = sems := by
  simp [Sems.after, withUndo]

/-- The values and undo entries are in range. -/
structure Valid (un : Process) (sems : Sems Process) : Prop where
  semval : ∀ num, 0 ≤ sems.semval num ∧ sems.semval num ≤ semvmx
  semadj : ∀ num, -semaem - 1 ≤ sems.semadj un num ∧ sems.semadj un num ≤ semaem

/-- An operation may follow the ones before it. -/
structure Allowed (un : Process) (sems : Sems Process) (before : List Sembuf) (sop : Sembuf) :
    Prop where
  zero : sop.semOp = 0 → (sems.after un before).semval sop.semNum = 0
  lower : 0 ≤ (sems.after un (before ++ [sop])).semval sop.semNum
  upper : (sems.after un (before ++ [sop])).semval sop.semNum ≤ semvmx
  undo : sop.undo = true → -semaem - 1 ≤ (sems.after un (before ++ [sop])).semadj un sop.semNum ∧
    (sems.after un (before ++ [sop])).semadj un sop.semNum ≤ semaem

/-- Every operation may follow the ones before it. -/
def Permitted (un : Process) (sems : Sems Process) (sops : List Sembuf) : Prop :=
  ∀ before sop after, sops = before ++ sop :: after → Allowed un sems before sop

theorem short_eq (lower : -semaem - 1 ≤ value) (upper : value ≤ semaem) : short value = value := by
  simp only [semaem, semvmx] at lower upper
  exact bmod_eq_of_le (by omega) (by omega)

theorem after_semval_append (sems : Sems Process) (un : Process) (before : List Sembuf)
    (sop : Sembuf) (num : Nat) :
    (sems.after un (before ++ [sop])).semval num =
      (sems.after un before).semval num + if sop.semNum = num then sop.semOp else 0 := by
  simp only [Sems.after, moved_append, moved_singleton, add_assoc]

theorem after_semadj_append (sems : Sems Process) (un : Process) (before : List Sembuf)
    (sop : Sembuf) (num : Nat) :
    (sems.after un (before ++ [sop])).semadj un num =
      (sems.after un before).semadj un num -
        if sop.undo ∧ sop.semNum = num then sop.semOp else 0 := by
  cases undo : sop.undo with
  | true => simp [Sems.after, withUndo, moved_append, moved_singleton, undo, sub_sub]
  | false => simp [Sems.after, withUndo, moved_append, undo]

theorem setSemval_after (sems : Sems Process) (un : Process) (before : List Sembuf) (sop : Sembuf) :
    (sems.after un (before ++ [sop])).semval =
      update (sems.after un before).semval sop.semNum
        ((sems.after un before).semval sop.semNum + sop.semOp) := by
  funext num
  rw [after_semval_append]
  by_cases same : sop.semNum = num
  · subst same
    rw [if_pos rfl, update_self]
  rw [if_neg same, add_zero, update_of_ne (Ne.symm same)]

theorem setSemadj_after (sems : Sems Process) (un : Process) (before : List Sembuf)
    (undo : sop.undo = true) :
    (sems.after un (before ++ [sop])).semadj =
      update (sems.after un before).semadj un (update ((sems.after un before).semadj un) sop.semNum
        ((sems.after un before).semadj un sop.semNum - sop.semOp)) := by
  funext process num
  by_cases same : process = un
  · subst same
    rw [after_semadj_append, update_self]
    by_cases eq : sop.semNum = num
    · subst eq
      rw [if_pos ⟨undo, rfl⟩, update_self]
    rw [if_neg fun both => eq both.2, sub_zero, update_of_ne (Ne.symm eq)]
  simp only [Sems.after, update_of_ne same]

/-- The operation goes through exactly when it is allowed. -/
theorem doSop_spec (un : Process) (sems : Sems Process) (before : List Sembuf) (sop : Sembuf) :
    (Allowed un sems before sop ∧
        doSop un (sems.after un before) sop = .ok (sems.after un (before ++ [sop]))) ∨
      (¬Allowed un sems before sop ∧
        ∃ failure, doSop un (sems.after un before) sop = .error failure) := by
  have value := after_semval_append sems un before sop sop.semNum
  have adjusted := after_semadj_append sems un before sop sop.semNum
  rw [if_pos rfl] at value
  rw [doSop]
  dsimp only
  rw [← value]
  by_cases zero : sop.semOp = 0 ∧ (sems.after un before).semval sop.semNum ≠ 0
  · exact .inr ⟨fun allowed => zero.2 (allowed.zero zero.1), _, if_pos zero⟩
  rw [if_neg zero]
  by_cases lower : (sems.after un (before ++ [sop])).semval sop.semNum < 0
  · exact .inr ⟨fun allowed => absurd allowed.lower (not_le.mpr lower), _, if_pos lower⟩
  rw [if_neg lower]
  by_cases upper : (sems.after un (before ++ [sop])).semval sop.semNum > semvmx
  · exact .inr ⟨fun allowed => absurd allowed.upper (not_le.mpr upper), _, if_pos upper⟩
  rw [if_neg upper]
  have zero' : sop.semOp = 0 → (sems.after un before).semval sop.semNum = 0 := fun none => by
    by_contra ne
    exact zero ⟨none, ne⟩
  cases undo : sop.undo with
  | false =>
    rw [if_neg Bool.false_ne_true]
    refine .inl ⟨⟨zero', by omega, by omega, fun set => by rw [undo] at set; cases set⟩, ?_⟩
    congr 1
    apply Sems.ext
    · exact (value ▸ setSemval_after sems un before sop).symm
    · rfl
    funext process num
    by_cases same : process = un
    · subst same
      rw [after_semadj_append, undo, if_neg (by simp), sub_zero]
      rfl
    simp only [Sems.after, Sems.setSemval, update_of_ne same]
  | true => ?_
  rw [if_pos rfl]
  rw [if_pos ⟨undo, rfl⟩] at adjusted
  rw [← adjusted]
  split
  · next out =>
    refine .inr ⟨fun allowed => ?_, _, rfl⟩
    have range := allowed.undo undo
    omega
  have range : -semaem - 1 ≤ (sems.after un (before ++ [sop])).semadj un sop.semNum ∧
      (sems.after un (before ++ [sop])).semadj un sop.semNum ≤ semaem := by omega
  refine .inl ⟨⟨zero', by omega, by omega, fun _ => range⟩, ?_⟩
  congr 1
  apply Sems.ext
  · exact (value ▸ setSemval_after sems un before sop).symm
  · rfl
  have target := setSemadj_after sems un before undo
  rw [← adjusted] at target
  simp only [Sems.setSemval, Sems.setSemadj, short_eq range.1 range.2]
  exact target.symm

theorem Allowed.valid (allowed : Allowed un sems before sop)
    (valid : Valid un (sems.after un before)) : Valid un (sems.after un (before ++ [sop])) := by
  constructor
  · intro num
    by_cases same : sop.semNum = num
    · subst same
      exact ⟨allowed.lower, allowed.upper⟩
    rw [after_semval_append, if_neg same, add_zero]
    exact valid.semval num
  intro num
  by_cases both : sop.undo = true ∧ sop.semNum = num
  · obtain ⟨undo, rfl⟩ := both
    exact allowed.undo undo
  rw [after_semadj_append, if_neg both, sub_zero]
  exact valid.semadj num

/-- What was done is undone. -/
theorem undoSop_after (valid : Valid un (sems.after un before)) (sop : Sembuf) :
    undoSop un (sems.after un (before ++ [sop])) sop = sems.after un before := by
  have value := setSemval_after sems un before sop
  have restored : update (sems.after un (before ++ [sop])).semval sop.semNum
        ((sems.after un (before ++ [sop])).semval sop.semNum - sop.semOp) =
      (sems.after un before).semval := by
    rw [value, update_self, Int.add_sub_cancel, update_idem, update_eq_self]
  rw [undoSop]
  cases undo : sop.undo with
  | false =>
    rw [if_neg Bool.false_ne_true]
    apply Sems.ext
    · exact restored
    · rfl
    funext process num
    by_cases same : process = un
    · subst same
      have kept := after_semadj_append sems process before sop num
      rw [undo, if_neg (by simp), sub_zero] at kept
      exact kept
    simp only [Sems.after, Sems.setSemval, update_of_ne same]
  | true => ?_
  rw [if_pos rfl]
  have range := valid.semadj sop.semNum
  apply Sems.ext
  · exact restored
  · rfl
  simp only [Sems.setSemval, Sems.setSemadj, setSemadj_after sems un before undo, update_self,
    sub_add_cancel, short_eq range.1 range.2, update_idem, update_eq_self]

/-- The loop goes to the end when all operations are allowed, and else back to where it started. -/
theorem doSops_spec (un : Process) (sems : Sems Process) (sops : List Sembuf)
    (valid : Valid un (sems.after un before))
    (undone : before.reverse.foldl (undoSop un) (sems.after un before) = sems) :
    ((∀ mid sop rest, sops = mid ++ sop :: rest → Allowed un sems (before ++ mid) sop) ∧
        Valid un (sems.after un (before ++ sops)) ∧
        doSops un sops before.reverse (sems.after un before) =
          (sems.after un (before ++ sops), none)) ∨
      ((¬∀ mid sop rest, sops = mid ++ sop :: rest → Allowed un sems (before ++ mid) sop) ∧
        ∃ failure,
          doSops un sops before.reverse (sems.after un before) = (sems, some failure)) := by
  induction sops generalizing before with
  | nil =>
    left
    rw [append_nil]
    exact ⟨fun mid sop rest split => by simp at split, valid, rfl⟩
  | cons sop sops ih => ?_
  rcases doSop_spec un sems before sop with ⟨allowed, ran⟩ | ⟨refused, failure, ran⟩
  · have valid' := allowed.valid valid
    have undone' : (before ++ [sop]).reverse.foldl (undoSop un) (sems.after un (before ++ [sop])) =
        sems := by
      rw [reverse_append, reverse_singleton, singleton_append, foldl_cons, undoSop_after valid,
        undone]
    have all : (∀ mid other rest, sop :: sops = mid ++ other :: rest →
          Allowed un sems (before ++ mid) other) ↔
        ∀ mid other rest, sops = mid ++ other :: rest →
          Allowed un sems (before ++ [sop] ++ mid) other := by
      constructor
      · intro whole mid other rest split
        have := whole (sop :: mid) other rest (by rw [split, cons_append])
        rwa [append_assoc]
      intro rest_allowed mid other rest split
      cases mid with
      | nil =>
        obtain ⟨rfl, -⟩ := cons.inj split
        rwa [append_nil]
      | cons first mid => ?_
      obtain ⟨rfl, tail⟩ := cons.inj split
      have := rest_allowed mid other rest tail
      rwa [append_assoc] at this
    have reversed : sop :: before.reverse = (before ++ [sop]).reverse := by simp
    have order : before ++ sop :: sops = before ++ [sop] ++ sops := append_cons ..
    rw [all, doSops, ran]
    rw [reversed, order]
    exact ih valid' undone'
  right
  refine ⟨fun whole => refused ?_, (failure, sop, before.reverse.length), ?_⟩
  · have := whole [] sop sops rfl
    rwa [append_nil] at this
  rw [doSops, ran]
  rw [undone]

omit [DecidableEq Process] in
theorem setSempids_eq (sems : Sems Process) (sops : List Sembuf) (pid : Int) :
    ∃ sempid,
      sops.foldl (fun sems sop => sems.setSempid sop.semNum pid) sems = { sems with sempid } := by
  induction sops generalizing sems with
  | nil => exact ⟨sems.sempid, rfl⟩
  | cons sop sops ih => ?_
  obtain ⟨sempid, ran⟩ := ih (sems.setSempid sop.semNum pid)
  exact ⟨sempid, ran⟩

/-- The value of a semaphore and what processes would give back to it. -/
def total (sems : Sems Process) (processes : Finset Process) (num : Nat) : Int :=
  sems.semval num + ∑ process ∈ processes, sems.semadj process num

theorem total_after (sems : Sems Process) (mem : un ∈ processes) (sops : List Sembuf) (num : Nat) :
    total (sems.after un sops) processes num =
      total sems processes num + moved (withoutUndo sops) num := by
  have changed : ∑ process ∈ processes, (sems.after un sops).semadj process num =
      ∑ process ∈ processes, sems.semadj process num - moved (withUndo sops) num := by
    rw [← Finset.add_sum_erase _ _ mem,
      ← Finset.add_sum_erase _ (fun process => sems.semadj process num) mem]
    have others : ∑ process ∈ processes.erase un, (sems.after un sops).semadj process num =
        ∑ process ∈ processes.erase un, sems.semadj process num := by
      refine Finset.sum_congr rfl fun process other => ?_
      simp only [Sems.after, update_of_ne (Finset.ne_of_mem_erase other)]
    rw [others]
    simp only [Sems.after, update_self]
    omega
  have split := moved_split sops num
  rw [total, changed, total]
  simp only [Sems.after]
  omega

/-- All operations are applied one after another, if each of them can be; else nothing changes. -/
theorem semop_all_or_nothing (sems : Sems Process) (q : Queue Process)
    (values : ∀ num, 0 ≤ sems.semval num ∧ sems.semval num ≤ semvmx)
    (undos : ∀ num, -semaem - 1 ≤ sems.semadj q.undo num ∧ sems.semadj q.undo num ≤ semaem) :
    let result := performAtomicSemop sems q
    (result.2.2 = 0 ↔ Permitted q.undo sems q.sops) ∧
      (result.2.2 = 0 → result.1.semval = (sems.after q.undo q.sops).semval ∧
        result.1.semadj = (sems.after q.undo q.sops).semadj) ∧
      (result.2.2 ≠ 0 → result.2.2 ∈ ({1, -11, -34} : Finset Int) ∧ result.1 = sems) ∧
      (∀ num, 0 ≤ result.1.semval num ∧ result.1.semval num ≤ semvmx) ∧
      ∀ processes : Finset Process, q.undo ∈ processes → ∀ num,
        total result.1 processes num = total sems processes num +
          if result.2.2 = 0 then moved (withoutUndo q.sops) num else 0 := by
  have valid : Valid q.undo (sems.after q.undo []) := by
    rw [Sems.after_nil]
    exact ⟨values, undos⟩
  have undone : ([] : List Sembuf).reverse.foldl (undoSop q.undo) (sems.after q.undo []) = sems :=
    Sems.after_nil sems q.undo
  have loop := doSops_spec q.undo sems q.sops valid undone
  rw [Sems.after_nil, reverse_nil] at loop
  simp only [nil_append] at loop
  rcases loop with ⟨permitted, valid', ran⟩ | ⟨refused, ⟨failure, sop, place⟩, ran⟩
  · obtain ⟨sempid, pids⟩ := setSempids_eq (sems.after q.undo q.sops) q.sops.reverse q.pid
    have result : performAtomicSemop sems q = ({ sems.after q.undo q.sops with sempid }, q, 0) := by
      rw [performAtomicSemop, ran]
      dsimp only
      rw [pids]
    rw [result]
    refine ⟨iff_of_true rfl permitted, fun _ => ⟨rfl, rfl⟩, fun nonzero => absurd rfl nonzero,
      valid'.semval, fun processes member num => ?_⟩
    exact total_after sems member q.sops num
  obtain ⟨queue, code, result, nonzero, listed⟩ : ∃ queue code, performAtomicSemop sems q =
        (sems, queue, code) ∧ code ≠ 0 ∧ code ∈ ({1, -11, -34} : Finset Int) := by
    rw [performAtomicSemop, ran]
    cases failure with
    | outOfRange => exact ⟨q, -34, rfl, by decide, by decide⟩
    | wouldBlock =>
      refine ⟨_, _, rfl, ?_, ?_⟩ <;> cases sop.nowait <;> decide
  rw [result]
  refine ⟨iff_of_false nonzero refused, fun zero => absurd zero nonzero, fun _ => ⟨listed, rfl⟩,
    values, fun processes member num => ?_⟩
  rw [if_neg nonzero, add_zero]

theorem semop_all_or_nothing_two :
    (performAtomicSemop (⟨fun _ => 1, fun _ => 0, fun _ _ => 0⟩ : Sems Unit)
          ⟨[⟨0, 1, 0x1000⟩, ⟨0, -3, 0x1800⟩], (), 7, none⟩).1 =
        ⟨fun _ => 1, fun _ => 0, fun _ _ => 0⟩ ∧
      (performAtomicSemop (⟨fun _ => 1, fun _ => 0, fun _ _ => 0⟩ : Sems Unit)
          ⟨[⟨0, 1, 0x1000⟩, ⟨0, -3, 0x1800⟩], (), 7, none⟩).2.2 = -11 := by
  have blocked : (performAtomicSemop (⟨fun _ => 1, fun _ => 0, fun _ _ => 0⟩ : Sems Unit)
      ⟨[⟨0, 1, 0x1000⟩, ⟨0, -3, 0x1800⟩], (), 7, none⟩).2.2 = -11 := by decide
  obtain ⟨-, -, failed, -⟩ :=
    semop_all_or_nothing (⟨fun _ => 1, fun _ => 0, fun _ _ => 0⟩ : Sems Unit)
      ⟨[⟨0, 1, 0x1000⟩, ⟨0, -3, 0x1800⟩], (), 7, none⟩ (fun _ => by simp [semvmx])
      (fun _ => by simp [semaem, semvmx])
  exact ⟨(failed (by rw [blocked]; decide)).2, blocked⟩

end TinyKernel.Sem
