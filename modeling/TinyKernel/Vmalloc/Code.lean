import TinyKernel.Lib.Ring
import TinyKernel.Rbtree.Neighbours
import TinyKernel.Rbtree.Ops

/-! The address areas of `mm/vmalloc.c`, for an `unsigned long` of some number of bits. The loops
get a number of rounds that is large enough. -/

namespace TinyKernel.Vmalloc

open Lib Rbtree

structure VmapArea where
  vaStart : Nat
  vaEnd : Nat
  deriving DecidableEq

/-- The arguments of `alloc_vmap_area`. -/
structure Request where
  size : Nat
  align : Nat
  vstart : Nat
  vend : Nat
  deriving DecidableEq

/-- All areas in a tree and in a list, whose head is `none`, and what the searches leave behind. -/
structure Areas where
  tree : Mem VmapArea Unit
  list : RingLinks (Option Id)
  freeVmapCache : Option Id
  cachedHoleSize : Nat
  cachedVstart : Nat
  cachedAlign : Nat

def Areas.init : Areas where
  tree := ⟨none, fun _ => ⟨.black, ⟨0, 0⟩, ()⟩, fun _ => none, fun _ _ => none⟩
  list := ⟨id, id⟩
  freeVmapCache := none
  cachedHoleSize := 0
  cachedVstart := 0
  cachedAlign := 0

/-- A failed `BUG_ON`, or a walk through the tree that does not end well. -/
inductive Stop where
  | bug
  | walk (fault : Fault)
  deriving DecidableEq

def walk {Result : Type} : Except Fault Result → Except Stop Result
  | .ok result => .ok result
  | .error fault => .error (.walk fault)

/-- The loop of `__insert_vmap_area`: the child slot for the new area. -/
def insertSlot (tree : Mem VmapArea Unit) (va : VmapArea) :
    Nat → Option (Id × Side) → Option Id → Except Stop (Option (Id × Side))
  | 0, _, _ => .error (.walk .endless)
  | _ + 1, link, none => .ok link
  | rounds + 1, _, some parent =>
    let tmp := dataOf tree parent
    if va.vaStart < tmp.vaEnd then
      insertSlot tree va rounds (some (parent, .left)) (tree.child .left parent)
    else if tmp.vaStart < va.vaEnd then
      insertSlot tree va rounds (some (parent, .right)) (tree.child .right parent)
    else .error .bug

def insertVmapArea (rounds : Nat) (va : Id) (areas : Areas) : Except Stop Areas := do
  let link ← insertSlot areas.tree (dataOf areas.tree va) rounds none areas.tree.root
  let tree ← walk (rbInsertColor rounds (rbLinkNode areas.tree va link) va)
  let tmp ← walk (rbPrev rounds tree va)
  return { areas with tree, list := areas.list.add (some va) tmp }

section

variable (bits : Nat)

def plus (a b : Nat) : Nat := (a + b) % 2 ^ bits

def minus (a b : Nat) : Nat := (a + 2 ^ bits - b) % 2 ^ bits

/-- `ALIGN`. -/
def align (x a : Nat) : Nat :=
  let sum := plus bits x (a - 1)
  sum - (sum &&& (a - 1))

/-- The way down to the first area that ends at `addr` or above. -/
def findFirst (tree : Mem VmapArea Unit) (addr : Nat) :
    Nat → Option Id → Option Id → Except Stop (Option Id)
  | 0, _, _ => .error (.walk .endless)
  | _ + 1, none, first => .ok first
  | rounds + 1, some tmp, first =>
    if addr ≤ (dataOf tree tmp).vaEnd then
      if (dataOf tree tmp).vaStart ≤ addr then .ok (some tmp)
      else findFirst tree addr rounds (tree.child .left tmp) (some tmp)
    else findFirst tree addr rounds (tree.child .right tmp) first

/-- The loop of `__find_vmap_area`. -/
def findVmapArea (tree : Mem VmapArea Unit) (addr : Nat) : Nat → Option Id → Except Stop (Option Id)
  | 0, _ => .error (.walk .endless)
  | _ + 1, none => .ok none
  | rounds + 1, some va =>
    if addr < (dataOf tree va).vaStart then findVmapArea tree addr rounds (tree.child .left va)
    else if (dataOf tree va).vaEnd ≤ addr then findVmapArea tree addr rounds (tree.child .right va)
    else .ok (some va)

/-- What is done at `nocache`. -/
def nocache (areas : Areas) : Areas := { areas with cachedHoleSize := 0, freeVmapCache := none }

/-- The cache is dropped for a request with more permissive parameters; they are recorded. -/
def checkCache (request : Request) (areas : Areas) : Areas :=
  let areas :=
    if areas.freeVmapCache = none ∨ request.size < areas.cachedHoleSize ∨
      request.vstart < areas.cachedVstart ∨ request.align < areas.cachedAlign then nocache areas
    else areas
  { areas with cachedVstart := request.vstart, cachedAlign := request.align }

/-- A starting point without the cache: the address and the first area to look at. Nothing on
overflow. -/
def startBelow (rounds : Nat) (request : Request) (tree : Mem VmapArea Unit) :
    Except Stop (Option (Nat × Option Id)) :=
  let addr := align bits request.vstart request.align
  if plus bits addr request.size < addr then .ok none
  else do
    let first ← findFirst tree addr rounds tree.root none
    return some (addr, first)

def startingPoint (rounds : Nat) (request : Request) (areas : Areas) :
    Except Stop (Areas × Option (Nat × Option Id)) :=
  match areas.freeVmapCache with
  | none => do return (areas, ← startBelow bits rounds request areas.tree)
  | some first =>
    let addr := align bits (dataOf areas.tree first).vaEnd request.align
    if addr < request.vstart then do
      return (nocache areas, ← startBelow bits rounds request areas.tree)
    else if plus bits addr request.size < addr then .ok (areas, none)
    else .ok (areas, some (addr, some first))

/-- The walk over the areas: the hole noticed last, and the address unless there was an overflow. -/
def scan (request : Request) (tree : Mem VmapArea Unit) (rounds : Nat) :
    Nat → Nat → Nat → Id → Except Stop (Nat × Option Nat)
  | 0, _, _, _ => .error (.walk .endless)
  | fuel + 1, hole, addr, first =>
    let area := dataOf tree first
    if area.vaStart < plus bits addr request.size ∧ plus bits addr request.size ≤ request.vend then
      let hole := if plus bits addr hole < area.vaStart then minus bits area.vaStart addr else hole
      let addr := align bits area.vaEnd request.align
      if plus bits addr request.size < addr then .ok (hole, none)
      else do
        match ← walk (rbNext rounds tree first) with
        | some next => scan request tree rounds fuel hole addr next
        | none => return (hole, some addr)
    else .ok (hole, some addr)

/-- From `retry` to `found`: the address of a hole, if there is one. -/
def search (rounds : Nat) (request : Request) (areas : Areas) : Except Stop (Areas × Option Nat) :=
  do
  let fits (addr : Nat) : Bool := plus bits addr request.size ≤ request.vend
  match ← startingPoint bits rounds request (checkCache request areas) with
  | (areas, none) => return (areas, none)
  | (areas, some (addr, none)) => return (areas, (some addr).filter fits)
  | (areas, some (addr, some first)) => do
    let (hole, addr) ← scan bits request areas.tree rounds rounds areas.cachedHoleSize addr first
    return ({ areas with cachedHoleSize := hole }, addr.filter fits)

def setData (tree : Mem VmapArea Unit) (va : Id) (data : VmapArea) : Mem VmapArea Unit :=
  tree.setInfo va { tree.info va with data }

/-- What `alloc_vmap_area` does under the lock: whether there was room for the new area. -/
def attempt (rounds : Nat) (request : Request) (va : Id) (areas : Areas) :
    Except Stop (Areas × Bool) := do
  let (areas, addr) ← search bits rounds request areas
  match addr with
  | none => return (areas, false)
  | some addr =>
    let tree := setData areas.tree va ⟨addr, plus bits addr request.size⟩
    let areas ← insertVmapArea rounds va { areas with tree }
    if addr &&& (request.align - 1) ≠ 0 ∨ addr < request.vstart ∨
      request.vend < plus bits addr request.size then .error .bug
    else return ({ areas with freeVmapCache := some va }, true)

end

/-- The cache after an area is freed. -/
def moveCache (rounds : Nat) (areas : Areas) (va : Id) : Except Stop (Option Id) :=
  match areas.freeVmapCache with
  | none => .ok none
  | some cache =>
    if (dataOf areas.tree va).vaEnd < areas.cachedVstart then .ok none
    else if (dataOf areas.tree va).vaStart ≤ (dataOf areas.tree cache).vaStart then
      walk (rbPrev rounds areas.tree va)
    else .ok (some cache)

/-- `__free_vmap_area`. The area is freed, so its own pointers are lost; in the list it points to
itself. -/
def freeVmapArea (rounds : Nat) (areas : Areas) (va : Id) : Except Stop Areas :=
  if rbEmptyNode areas.tree va then .error .bug
  else do
    let freeVmapCache ← moveCache rounds areas va
    let tree ← walk (rbErase rounds areas.tree va)
    return { areas with
      tree := rbClearNode tree va
      list := areas.list.delInit (some va)
      freeVmapCache }

inductive Result where
  | area (va : Id)
  | enomem
  | ebusy
  deriving DecidableEq

def isPowerOf2 (n : Nat) : Bool := n ≠ 0 ∧ n &&& (n - 1) = 0

/-- `alloc_vmap_area` with a new area from `kmalloc_node`, if there is one. Without room it purges
some areas and tries again. -/
def allocVmapArea (bits pageShift rounds : Nat) (request : Request) (va : Option Id)
    (purge : List Id) (areas : Areas) : Except Stop (Areas × Result) := do
  if request.size = 0 ∨ request.size % 2 ^ pageShift ≠ 0 ∨ ¬isPowerOf2 request.align then
    .error .bug
  else
    match va with
    | none => return (areas, .enomem)
    | some va => do
      let (areas, room) ← attempt bits rounds request va areas
      if room then return (areas, .area va)
      else do
        let areas ← purge.foldlM (freeVmapArea rounds) areas
        let (areas, room) ← attempt bits rounds request va areas
        if room then return (areas, .area va) else return (areas, .ebusy)

end TinyKernel.Vmalloc
