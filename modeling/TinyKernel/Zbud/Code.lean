import Mathlib.Algebra.Group.Nat.Defs
import Mathlib.Tactic.Common

/-! The compressed pages of `mm/zbud.c`: two allocations, buddies, share a page. Pages are frame
numbers. What is done under the pool's lock is one step; callers and reclaimers take their steps in
any order. -/

namespace TinyKernel.Zbud

open Function

inductive Buddy where
  | first
  | last
  deriving DecidableEq

section

def nchunksOrder : Nat := 6

/-- `CHUNK_SHIFT` is the parameter here; a page has `2 ^ NCHUNKS_ORDER` chunks. -/
def chunkSize (chunkShift : Nat) : Nat := 2 ^ chunkShift

def pageSize (chunkShift : Nat) : Nat := 2 ^ (chunkShift + nchunksOrder)

/-- All chunks of a page but the one of its header. -/
def nchunks : Nat := 63

variable (chunkShift : Nat)

def sizeToChunks (size : Nat) : Nat := (size + chunkSize chunkShift - 1) / 2 ^ chunkShift

structure Header where
  firstChunks : Nat
  lastChunks : Nat
  underReclaim : Bool
  deriving DecidableEq

def Header.chunks (header : Header) : Buddy → Nat
  | .first => header.firstChunks
  | .last => header.lastChunks

def Header.setChunks (header : Header) : Buddy → Nat → Header
  | .first, chunks => { header with firstChunks := chunks }
  | .last, chunks => { header with lastChunks := chunks }

def encodeHandle (header : Header) (page : Nat) : Buddy → Nat
  | .first => page * pageSize chunkShift + chunkSize chunkShift
  | .last => page * pageSize chunkShift + (pageSize chunkShift - header.lastChunks * 2 ^ chunkShift)

def handleToZbudHeader (handle : Nat) : Nat := handle / pageSize chunkShift

/-- The buddy that `zbud_free` takes a handle for. -/
def handleBuddy (handle : Nat) : Buddy :=
  if (handle - chunkSize chunkShift) % pageSize chunkShift ≠ 0 then .last else .first

def numFreeChunks (header : Header) : Nat := nchunks - header.firstChunks - header.lastChunks

end

/-- `struct zbud_pool` and the headers of its pages. `pages` are those it has from `alloc_page`. -/
structure Pool where
  header : Nat → Header
  unbuddied : Nat → List Nat
  buddied : List Nat
  lru : List Nat
  pagesNr : Nat
  pages : List Nat

namespace Pool

def setHeader (pool : Pool) (page : Nat) (header : Header) : Pool :=
  { pool with header := update pool.header page header }

/-- `list_del(&zhdr->buddy)`, for a page that is on a list. -/
def delBuddy (pool : Pool) (page : Nat) : Option Pool :=
  if page ∈ pool.buddied ∨ ∃ i < nchunks, page ∈ pool.unbuddied i then
    some { pool with
      unbuddied := fun i => (pool.unbuddied i).erase page
      buddied := pool.buddied.erase page }
  else none

/-- `list_del(&zhdr->lru)`, for a page that is on the list. -/
def delLru (pool : Pool) (page : Nat) : Option Pool :=
  if page ∈ pool.lru then some { pool with lru := pool.lru.erase page } else none

def addUnbuddied (pool : Pool) (page : Nat) : Option Pool :=
  let freechunks := numFreeChunks (pool.header page)
  if freechunks < nchunks then
    some { pool with
      unbuddied := update pool.unbuddied freechunks (page :: pool.unbuddied freechunks) }
  else none

def addBuddy (pool : Pool) (page : Nat) : Option Pool :=
  let header := pool.header page
  if header.firstChunks = 0 ∨ header.lastChunks = 0 then pool.addUnbuddied page
  else some { pool with buddied := page :: pool.buddied }

/-- `free_zbud_page`, for a page of the pool, and `pages_nr--`. -/
def freeZbudPage (pool : Pool) (page : Nat) : Option Pool :=
  if page ∈ pool.pages then
    some { pool with pages := pool.pages.erase page, pagesNr := pool.pagesNr - 1 }
  else none

end Pool

section

variable (chunkShift : Nat)

/-- The first page with enough free chunks, and the buddy that is free in it. -/
def findUnbuddied (pool : Pool) (chunks : Nat) : Option (Nat × Buddy) := do
  let i ← ((List.range nchunks).drop chunks).find? fun i => pool.unbuddied i ≠ []
  let page ← (pool.unbuddied i).head?
  return (page, if (pool.header page).firstChunks = 0 then .first else .last)

/-- `zbud_alloc` from `found` on: the handle. -/
def place (pool : Pool) (page : Nat) (bud : Buddy) (chunks : Nat) : Option (Pool × Nat) := do
  let pool := pool.setHeader page ((pool.header page).setChunks bud chunks)
  let pool ← pool.addBuddy page
  let pool := { pool with lru := page :: pool.lru.erase page }
  return (pool, encodeHandle chunkShift (pool.header page) page bud)

/-- `zbud_alloc` with a page from one of the lists. -/
def allocOld (pool : Pool) (page : Nat) (bud : Buddy) (chunks : Nat) : Option (Pool × Nat) := do
  let pool ← pool.delBuddy page
  place chunkShift pool page bud chunks

/-- `zbud_alloc` with a new page. -/
def allocNew (pool : Pool) (page : Nat) (chunks : Nat) : Option (Pool × Nat) :=
  let pool := { pool with pagesNr := pool.pagesNr + 1, pages := page :: pool.pages }
  place chunkShift (pool.setHeader page ⟨0, 0, false⟩) page .first chunks

def zbudFree (pool : Pool) (handle : Nat) : Option Pool :=
  let page := handleToZbudHeader chunkShift handle
  let header := (pool.header page).setChunks (handleBuddy chunkShift handle) 0
  let pool := pool.setHeader page header
  if header.underReclaim then some pool
  else do
    let pool ← pool.delBuddy page
    if header.firstChunks = 0 ∧ header.lastChunks = 0 then
      let pool ← pool.delLru page
      pool.freeZbudPage page
    else pool.addUnbuddied page

/-- The handles that a reclaimer has to evict, the rounds it has left, and where it is. -/
structure Reclaim where
  page : Nat
  firstHandle : Nat
  lastHandle : Nat
  retries : Nat
  deriving DecidableEq

/-- A round of `zbud_reclaim_page` up to the callbacks. -/
def beginRound (pool : Pool) (retries : Nat) : Option (Pool × Reclaim) := do
  let page ← pool.lru.getLast?
  let pool ← pool.delLru page
  let pool ← pool.delBuddy page
  let header := pool.header page
  let firstHandle :=
    if header.firstChunks ≠ 0 then encodeHandle chunkShift header page .first else 0
  let lastHandle := if header.lastChunks ≠ 0 then encodeHandle chunkShift header page .last else 0
  return (pool.setHeader page { header with underReclaim := true },
    ⟨page, firstHandle, lastHandle, retries⟩)

/-- A round after the callbacks; the flag says that the page was freed. -/
def endRound (pool : Pool) (page : Nat) : Option (Pool × Bool) :=
  let pool := pool.setHeader page { pool.header page with underReclaim := false }
  let header := pool.header page
  if header.firstChunks = 0 ∧ header.lastChunks = 0 then do
    let pool ← pool.freeZbudPage page
    return (pool, true)
  else do
    let pool ← pool.addBuddy page
    return ({ pool with lru := page :: pool.lru }, false)

end

/-- What a thread is doing, at a moment when nobody has the lock. -/
inductive Local where
  | idle
  | allocating (size : Nat)
  | evictFirst (reclaim : Reclaim)
  | evictLast (reclaim : Reclaim)
  | evicted (reclaim : Reclaim)
  deriving DecidableEq

structure State (Thread : Type) where
  pool : Pool
  threads : Thread → Local
  live : Nat → Option Nat

/-- The steps of the threads. `free` is by anybody, also by an eviction callback; what a callback
returns is in `evict`. -/
inductive Event (Thread : Type) where
  | alloc (thread : Thread) (size : Nat) (highmem : Bool)
  | allocPage (thread : Thread) (page : Option Nat)
  | free (handle : Nat)
  | reclaim (thread : Thread) (retries : Nat)
  | evict (thread : Thread) (ret : Int)
  | endRound (thread : Thread)

variable {Thread : Type} [DecidableEq Thread]

def State.init : State Thread where
  pool := ⟨fun _ => ⟨0, 0, false⟩, fun _ => [], [], [], 0, []⟩
  threads := fun _ => .idle
  live := fun _ => none

def State.setThread (state : State Thread) (thread : Thread) (now : Local) : State Thread :=
  { state with threads := update state.threads thread now }

/-- One step; nothing after an access to a list that the page is not on, or outside of an array. Who
may not take the step does nothing: live handles are freed, once each, and `alloc_page` has new
pages only. -/
def step (chunkShift : Nat) (state : State Thread) : Event Thread → Option (State Thread)
  | .alloc thread size highmem =>
    if state.threads thread ≠ .idle ∨ size = 0 ∨ highmem ∨
      pageSize chunkShift - chunkSize chunkShift - chunkSize chunkShift < size then some state
    else
      let chunks := sizeToChunks chunkShift size
      match findUnbuddied state.pool chunks with
      | some (page, bud) => do
        let (pool, handle) ← allocOld chunkShift state.pool page bud chunks
        return { state with pool, live := update state.live handle (some size) }
      | none => some (state.setThread thread (.allocating size))
  | .allocPage thread page =>
    match state.threads thread, page with
    | .allocating _, none => some (state.setThread thread .idle)
    | .allocating size, some page =>
      if page ∈ state.pool.pages then some state
      else do
        let (pool, handle) ← allocNew chunkShift state.pool page (sizeToChunks chunkShift size)
        let state := { state with pool, live := update state.live handle (some size) }
        return state.setThread thread .idle
    | _, _ => some state
  | .free handle =>
    if state.live handle = none then some state
    else do
      let pool ← zbudFree chunkShift state.pool handle
      return { state with pool, live := update state.live handle none }
  | .reclaim thread retries =>
    if state.threads thread ≠ .idle ∨ state.pool.lru = [] ∨ retries = 0 then some state
    else do
      let (pool, reclaim) ← beginRound chunkShift state.pool (retries - 1)
      return { state with pool }.setThread thread (.evictFirst reclaim)
  | .evict thread ret =>
    match state.threads thread with
    | .evictFirst reclaim =>
      some (state.setThread thread
        (if reclaim.firstHandle ≠ 0 ∧ ret ≠ 0 then .evicted reclaim else .evictLast reclaim))
    | .evictLast reclaim => some (state.setThread thread (.evicted reclaim))
    | _ => some state
  | .endRound thread =>
    match state.threads thread with
    | .evicted reclaim => do
      let (pool, freed) ← endRound state.pool reclaim.page
      if freed ∨ reclaim.retries = 0 then return { state with pool }.setThread thread .idle
      else do
        let (pool, reclaim) ← beginRound chunkShift pool (reclaim.retries - 1)
        return { state with pool }.setThread thread (.evictFirst reclaim)
    | _ => some state

def run (chunkShift : Nat) (state : State Thread) (events : List (Event Thread)) :
    Option (State Thread) :=
  events.foldlM (step chunkShift) state

end TinyKernel.Zbud
