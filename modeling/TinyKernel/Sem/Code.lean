import Mathlib.Algebra.Group.Nat.Defs
import Mathlib.Tactic.Common

/-! `perform_atomic_semop` of `ipc/sem.c`: the operations of a call on the semaphores of an array,
in place. -/

namespace TinyKernel.Sem

def semvmx : Int := 32767

def semaem : Int := semvmx

/-- `struct sembuf`. -/
structure Sembuf where
  semNum : Nat
  semOp : Int
  semFlg : Nat

/-- `SEM_UNDO`. -/
def Sembuf.undo (sop : Sembuf) : Bool := sop.semFlg.testBit 12

/-- `IPC_NOWAIT`. -/
def Sembuf.nowait (sop : Sembuf) : Bool := sop.semFlg.testBit 11

/-- The semaphores of an array, and what each process has in its undo list for them. -/
@[ext] structure Sems (Process : Type) where
  semval : Nat → Int
  sempid : Nat → Int
  semadj : Process → Nat → Int

/-- `struct sem_queue`; `blocking` is the place of an operation in `sops`. -/
structure Queue (Process : Type) where
  sops : List Sembuf
  undo : Process
  pid : Int
  blocking : Option Nat

/-- What is stored in a `short`. -/
def short (value : Int) : Int := value.bmod (2 ^ 16)

inductive Failure where
  | wouldBlock
  | outOfRange
  deriving DecidableEq

variable {Process : Type} [DecidableEq Process]

namespace Sems

def setSemval (sems : Sems Process) (num : Nat) (value : Int) : Sems Process :=
  { sems with semval := Function.update sems.semval num value }

def setSempid (sems : Sems Process) (num : Nat) (pid : Int) : Sems Process :=
  { sems with sempid := Function.update sems.sempid num pid }

def setSemadj (sems : Sems Process) (un : Process) (num : Nat) (value : Int) : Sems Process :=
  { sems with
    semadj := Function.update sems.semadj un (Function.update (sems.semadj un) num (short value)) }

end Sems

section

variable (un : Process)

/-- The body of the loop. -/
def doSop (sems : Sems Process) (sop : Sembuf) : Except Failure (Sems Process) :=
  let result := sems.semval sop.semNum
  if sop.semOp = 0 ∧ result ≠ 0 then .error .wouldBlock
  else
    let result := result + sop.semOp
    if result < 0 then .error .wouldBlock
    else if result > semvmx then .error .outOfRange
    else if sop.undo then
      let undo := sems.semadj un sop.semNum - sop.semOp
      if undo < -semaem - 1 ∨ undo > semaem then .error .outOfRange
      else .ok ((sems.setSemadj un sop.semNum undo).setSemval sop.semNum result)
    else .ok (sems.setSemval sop.semNum result)

/-- The body of the loop at `undo`. -/
def undoSop (sems : Sems Process) (sop : Sembuf) : Sems Process :=
  let sems := sems.setSemval sop.semNum (sems.semval sop.semNum - sop.semOp)
  if sop.undo then sems.setSemadj un sop.semNum (sems.semadj un sop.semNum + sop.semOp) else sems

/-- The loop, with the operations that are done, the last one first. -/
def doSops :
    List Sembuf → List Sembuf → Sems Process → Sems Process × Option (Failure × Sembuf × Nat)
  | [], _, sems => (sems, none)
  | sop :: sops, done, sems =>
    match doSop un sems sop with
    | .ok sems => doSops sops (sop :: done) sems
    | .error failure => (done.foldl (undoSop un) sems, some (failure, sop, done.length))

end

/-- The semaphores, the queue entry and the result. -/
def performAtomicSemop (sems : Sems Process) (q : Queue Process) :
    Sems Process × Queue Process × Int :=
  match doSops q.undo q.sops [] sems with
  | (sems, none) =>
    (q.sops.reverse.foldl (fun sems sop => sems.setSempid sop.semNum q.pid) sems, q, 0)
  | (sems, some (.outOfRange, _, _)) => (sems, q, -34)
  | (sems, some (.wouldBlock, sop, place)) =>
    (sems, { q with blocking := some place }, if sop.nowait then -11 else 1)

end TinyKernel.Sem
