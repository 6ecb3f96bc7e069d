import TinyKernel.Lib.Ring

/-! The priority lists of `lib/plist.c`. A node has two links: `node_list` with all nodes and the
head, and `prio_list` with the first node of each priority. -/

namespace TinyKernel.Plist

open Lib

variable {Node : Type} [DecidableEq Node]

/-- A `plist_head`, which is `none` in the links, and all nodes. -/
structure PlistHead (Node : Type) where
  prio : Node → Int
  nodeList : RingLinks (Option Node)
  prioList : RingLinks Node

/-- An empty list, with all nodes as `plist_node_init` leaves them. -/
def PlistHead.init (prio : Node → Int) : PlistHead Node := ⟨prio, ⟨id, id⟩, ⟨id, id⟩⟩

def plistHeadEmpty (head : PlistHead Node) : Bool := head.nodeList.empty none

def plistNodeEmpty (head : PlistHead Node) (node : Node) : Bool := head.nodeList.empty (some node)

/-- `plist_node_init` for a node that is on no list. -/
def plistNodeInit (head : PlistHead Node) (node : Node) (prio : Int) : PlistHead Node :=
  ⟨Function.update head.prio node prio, head.nodeList.init (some node), head.prioList.init node⟩

/-- The `do` loop of `plist_add`: `prev`, `iter` and `node_next` at its end. -/
def addLoop (head : PlistHead Node) (node first : Node) :
    (fuel : Nat) → Option Node → Node → Option (Option Node × Node × Option Node)
  | 0, _, _ => none
  | fuel + 1, prev, iter =>
    if head.prio node < head.prio iter then some (prev, iter, some iter)
    else
      let next := head.prioList.next iter
      if next = first then some (some iter, next, none)
      else addLoop head node first fuel (some iter) next

def plistAdd (fuel : Nat) (node : Node) (head : PlistHead Node) : Option (PlistHead Node) :=
  match head.nodeList.next none with
  | none => some { head with nodeList := head.nodeList.addTail (some node) none }
  | some first => do
    let (prev, iter, nodeNext) ← addLoop head node first fuel none first
    let prioList := if prev.all fun prev => head.prio prev ≠ head.prio node then
      head.prioList.addTail node iter else head.prioList
    return { head with prioList, nodeList := head.nodeList.addTail (some node) nodeNext }

/-- The next node takes the place of a deleted one in `prio_list`. -/
def passOn (node : Node) (head : PlistHead Node) : RingLinks Node :=
  match head.nodeList.next (some node) with
  | none => head.prioList
  | some next => if head.prioList.empty next then head.prioList.add next node else head.prioList

def plistDel (node : Node) (head : PlistHead Node) : PlistHead Node :=
  { head with
    prioList := if head.prioList.empty node then head.prioList else (passOn node head).delInit node
    nodeList := head.nodeList.delInit (some node) }

/-- The `plist_for_each_continue` loop of `plist_requeue`: `node_next` at its end. -/
def requeueLoop (head : PlistHead Node) (node : Node) : (fuel : Nat) → Node → Option (Option Node)
  | 0, _ => none
  | fuel + 1, iter =>
    match head.nodeList.next (some iter) with
    | none => some none
    | some next =>
      if head.prio node ≠ head.prio next then some (some next)
      else requeueLoop head node fuel next

/-- `plist_requeue`; nothing after a failed `BUG_ON`. -/
def plistRequeue (fuel : Nat) (node : Node) (head : PlistHead Node) : Option (PlistHead Node) :=
  if plistHeadEmpty head ∨ plistNodeEmpty head node then none
  else if head.nodeList.prev none = some node then some head
  else
    match head.nodeList.next (some node) with
    | none => none
    | some iter =>
      if head.prio node ≠ head.prio iter then some head
      else do
        let head := plistDel node head
        let nodeNext ← requeueLoop head node fuel iter
        return { head with nodeList := head.nodeList.addTail (some node) nodeNext }

/-- What is done with nodes: a new priority is given to those on no list only. -/
inductive Event (Node : Type) where
  | add (node : Node) (prio : Int)
  | del (node : Node)
  | requeue (node : Node)

/-- Nodes on no list are added, those on the list are deleted or requeued. -/
def step (fuel : Nat) (head : PlistHead Node) : Event Node → Option (PlistHead Node)
  | .add node prio =>
    if plistNodeEmpty head node then plistAdd fuel node (plistNodeInit head node prio) else none
  | .del node => if plistNodeEmpty head node then none else some (plistDel node head)
  | .requeue node => if plistNodeEmpty head node then none else plistRequeue fuel node head

end TinyKernel.Plist
