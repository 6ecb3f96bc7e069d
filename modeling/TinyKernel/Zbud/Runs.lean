import Mathlib.Data.List.Nodup
import TinyKernel.Zbud.Pool

/-! Nothing overlaps and nothing is lost, whatever the order of the steps. -/

namespace TinyKernel.Zbud

open Function Option

variable {Thread : Type} {shift : Nat} {state : State Thread} {thread : Thread}

def Local.reclaims : Local → Option Nat
  | .evictFirst reclaim => some reclaim.page
  | .evictLast reclaim => some reclaim.page
  | .evicted reclaim => some reclaim.page
  | _ => none

structure Consistent (chunkShift : Nat) (state : State Thread) : Prop where
  sound : Sound state.pool
  reclaimed : ∀ page ∈ state.pool.pages, state.pool.under page →
    ∃ thread, (state.threads thread).reclaims = some page
  reclaiming : ∀ thread page, (state.threads thread).reclaims = some page →
    page ∈ state.pool.pages ∧ state.pool.under page
  alone : ∀ thread thread' page, (state.threads thread).reclaims = some page →
    (state.threads thread').reclaims = some page → thread = thread'
  allocating : ∀ thread size, state.threads thread = .allocating size → Storable chunkShift size
  owned : Owned chunkShift state.pool state.live

theorem Consistent.init : Consistent shift (State.init : State Thread) where
  sound := by
    refine ⟨⟨?_, ?_, ?_, List.nodup_nil⟩, ?_, List.nodup_nil, ⟨List.nodup_nil, rfl⟩, ?_, ?_⟩ <;>
      simp [State.init]
  reclaimed := by simp [State.init]
  reclaiming := by simp [State.init, Local.reclaims]
  alone := by simp [State.init, Local.reclaims]
  allocating := by simp [State.init]
  owned := ⟨by simp [State.init], by simp [State.init]⟩

/-- A step or run ends in a consistent pool. -/
abbrev Kept (chunkShift : Nat) (next : Option (State Thread)) : Prop :=
  ∃ state, next = some state ∧ Consistent chunkShift state

variable [DecidableEq Thread]

namespace Consistent

/-- A thread goes on without a page to reclaim. -/
theorem setThread (valid : Consistent shift state) (now : Local)
    (same : now.reclaims = (state.threads thread).reclaims)
    (fits : ∀ size, now = .allocating size → Storable shift size) :
    Consistent shift (state.setThread thread now) := by
  have reclaims_eq (other : Thread) : ((state.setThread thread now).threads other).reclaims =
      (state.threads other).reclaims := by
    simp only [State.setThread]
    by_cases eq : other = thread
    · subst eq
      rw [update_self, same]
    rw [update_of_ne eq]
  refine ⟨valid.sound, fun page mem under => ?_, fun other page found => ?_,
    fun one two page first second => ?_, fun other size found => ?_, valid.owned⟩
  · obtain ⟨other, found⟩ := valid.reclaimed page mem under
    exact ⟨other, (reclaims_eq other).trans found⟩
  · rw [reclaims_eq] at found
    exact valid.reclaiming other page found
  · rw [reclaims_eq] at first second
    exact valid.alone one two page first second
  simp only [State.setThread] at found
  by_cases eq : other = thread
  · subst eq
    rw [update_self] at found
    exact fits size found
  rw [update_of_ne eq] at found
  exact valid.allocating other size found

omit [DecidableEq Thread] in
/-- Another pool with the same pages under reclaim. -/
theorem setPool (valid : Consistent shift state) {pool : Pool} {live : Nat → Option Nat}
    (sound : Sound pool) (owned : Owned shift pool live)
    (same : ∀ q, q ∈ pool.pages ∧ pool.under q ↔ q ∈ state.pool.pages ∧ state.pool.under q) :
    Consistent shift { state with pool, live } where
  sound := sound
  reclaimed page mem under := by
    obtain ⟨member', under'⟩ := (same page).mp ⟨mem, under⟩
    exact valid.reclaimed page member' under'
  reclaiming other page found := (same page).mpr (valid.reclaiming other page found)
  alone := valid.alone
  allocating := valid.allocating
  owned := owned

section

variable (valid : Consistent shift state)
include valid

theorem alloc (size : Nat) (highmem : Bool) :
    Kept shift (step shift state (.alloc thread size highmem)) := by
  rw [step]
  split
  · exact ⟨state, rfl, valid⟩
  rename_i accepted
  have idle : state.threads thread = .idle := by
    by_contra busy
    exact accepted (.inl busy)
  have fits : Storable shift size := by
    constructor
    · intro zero
      exact accepted (.inr (.inl zero))
    by_contra large
    exact accepted (.inr (.inr (.inr (by omega))))
  obtain ⟨pos, small, -⟩ := fits.chunks
  cases search : findUnbuddied state.pool (sizeToChunks shift size) with
  | none =>
    simp only [search]
    refine ⟨_, rfl, valid.setThread _ (by rw [idle]; rfl) fun size' same => ?_⟩
    cases same
    exact fits
  | some found => ?_
  obtain ⟨page, bud⟩ := found
  obtain ⟨mem, here, free, used⟩ := findUnbuddied_spec valid.sound pos small search
  obtain ⟨unbuddied, buddied, deleted, holding⟩ := valid.sound.delBuddy mem here
  obtain ⟨unbuddied', buddied', lru, placed, sound⟩ := place_spec shift holding here used
  have owned := valid.owned.give free mem fits rfl
  simp only [search, allocOld, deleted, bind, Option.bind, placed]
  refine ⟨_, rfl,
    valid.setPool sound ⟨owned.buddy, owned.owned⟩ fun q => and_congr_right fun _ => ?_⟩
  by_cases same : q = page
  · subst same
    simp [Pool.under, Pool.setHeader]
  simp only [Pool.under, Pool.setHeader, update_of_ne same]

theorem allocPage (page : Option Nat) : Kept shift (step shift state (.allocPage thread page)) := by
  cases busy : state.threads thread with
  | allocating size =>
    cases page with
    | none =>
      simp only [step, busy]
      exact ⟨_, rfl, valid.setThread _ (by rw [busy]; rfl) fun _ same => by cases same⟩
    | some page => ?_
    simp only [step, busy]
    split
    · exact ⟨state, rfl, valid⟩
    rename_i fresh
    obtain ⟨pool, handle, ran, sound, owned, same⟩ :=
      allocNew_spec valid.sound valid.owned fresh (valid.allocating thread size busy)
    simp only [bind, ran]
    refine ⟨_, rfl,
      Consistent.setThread (valid.setPool sound owned same) _ ?_ fun _ same => by cases same⟩
    rw [busy]
    rfl
  | _ =>
    simp only [step, busy]
    exact ⟨state, rfl, valid⟩

theorem free (handle : Nat) : Kept shift (step shift state (.free handle)) := by
  rw [step]
  split
  · exact ⟨state, rfl, valid⟩
  rename_i alive
  obtain ⟨size, found⟩ := ne_none_iff_exists'.mp alive
  obtain ⟨fits, page, mem, bud, rfl, chunks⟩ := valid.owned.buddy handle size found
  have occupied : (state.pool.header page).chunks bud ≠ 0 := by
    rw [chunks]
    exact fits.chunks.1
  obtain ⟨pool, freed, sound, owned, same⟩ := zbudFree_spec valid.sound valid.owned mem occupied
  simp only [bind, freed]
  exact ⟨_, rfl, valid.setPool sound owned same⟩

/-- A thread takes a page for reclaim. -/
theorem beginRound (idle : (state.threads thread).reclaims = none) (some_page : state.pool.lru ≠ [])
    (retries : Nat) :
    ∃ pool reclaim, Zbud.beginRound shift state.pool retries = some (pool, reclaim) ∧
      Consistent shift ({ state with pool }.setThread thread (.evictFirst reclaim)) := by
  obtain ⟨pool, reclaim, ran, sound, owned, pages_eq, mem, here, under_eq⟩ :=
    beginRound_spec valid.sound valid.owned some_page retries
  have taken (other : Thread) (page : Nat) : ((({ state with pool }.setThread thread
            (.evictFirst reclaim)).threads other).reclaims = some page ↔
      (state.threads other).reclaims = some page ∨ other = thread ∧ page = reclaim.page) := by
    simp only [State.setThread]
    by_cases eq : other = thread
    · subst eq
      rw [update_self, idle]
      simp [Local.reclaims, eq_comm]
    simp [eq]
  refine ⟨pool, reclaim, ran, sound, fun page inside under => ?_, fun other page found => ?_,
    fun one two page first second => ?_, fun other size found => ?_, owned⟩
  · rcases (under_eq page).mp under with old | rfl
    · obtain ⟨other, found⟩ := valid.reclaimed page (pages_eq ▸ inside) old
      exact ⟨other, (taken other page).mpr (.inl found)⟩
    exact ⟨thread, (taken thread _).mpr (.inr ⟨rfl, rfl⟩)⟩
  · rcases (taken other page).mp found with old | ⟨rfl, rfl⟩
    · obtain ⟨inside, under⟩ := valid.reclaiming other page old
      exact ⟨pages_eq ▸ inside, (under_eq page).mpr (.inl under)⟩
    exact ⟨pages_eq ▸ mem, (under_eq _).mpr (.inr rfl)⟩
  · rcases (taken one page).mp first with old | ⟨rfl, rfl⟩
    · rcases (taken two page).mp second with old' | ⟨rfl, rfl⟩
      · exact valid.alone one two page old old'
      exact absurd (valid.reclaiming one _ old).2 here
    rcases (taken two _).mp second with old' | ⟨rfl, -⟩
    · exact absurd (valid.reclaiming two _ old').2 here
    rfl
  simp only [State.setThread] at found
  by_cases eq : other = thread
  · subst eq
    rw [update_self] at found
    cases found
  rw [update_of_ne eq] at found
  exact valid.allocating other size found

/-- A thread gives its page back. -/
theorem endRound (busy : (state.threads thread).reclaims = some page) :
    ∃ pool freed, Zbud.endRound state.pool page = some (pool, freed) ∧
      Consistent shift ({ state with pool }.setThread thread .idle) ∧
      (freed = false → pool.lru ≠ []) := by
  obtain ⟨mem, gone⟩ := valid.reclaiming thread page busy
  obtain ⟨pool, freed, ran, sound, owned, others, here, listed⟩ :=
    endRound_spec valid.sound valid.owned mem gone
  have left (other : Thread) (q : Nat) :
      ((({ state with pool }.setThread thread .idle).threads other).reclaims = some q ↔
        (state.threads other).reclaims = some q ∧ other ≠ thread) := by
    simp only [State.setThread]
    by_cases eq : other = thread
    · subst eq
      simp [Local.reclaims]
    simp [eq]
  have apart (other : Thread) (q : Nat) (found : (state.threads other).reclaims = some q)
      (ne : other ≠ thread) : q ≠ page := by
    rintro rfl
    exact ne (valid.alone other thread q found busy)
  refine ⟨pool, freed, ran, ⟨sound, fun q inside under => ?_, fun other q found => ?_,
    fun one two q first second => ?_, fun other size found => ?_, owned⟩, listed⟩
  · have other_page : q ≠ page := by
      rintro rfl
      exact here under
    obtain ⟨pages_eq, under_eq⟩ := others q other_page
    obtain ⟨other, found⟩ := valid.reclaimed q (pages_eq.mp inside) (under_eq.mp under)
    refine ⟨other, (left other q).mpr ⟨found, ?_⟩⟩
    rintro rfl
    exact other_page (some.inj (found.symm.trans busy))
  · obtain ⟨old, ne⟩ := (left other q).mp found
    obtain ⟨pages_eq, under_eq⟩ := others q (apart other q old ne)
    obtain ⟨inside, under⟩ := valid.reclaiming other q old
    exact ⟨pages_eq.mpr inside, under_eq.mpr under⟩
  · exact valid.alone one two q ((left one q).mp first).1 ((left two q).mp second).1
  simp only [State.setThread] at found
  by_cases eq : other = thread
  · subst eq
    rw [update_self] at found
    cases found
  rw [update_of_ne eq] at found
  exact valid.allocating other size found

theorem reclaim (retries : Nat) : Kept shift (step shift state (.reclaim thread retries)) := by
  rw [step]
  split
  · exact ⟨state, rfl, valid⟩
  rename_i accepted
  have idle : (state.threads thread).reclaims = none := by
    have free : state.threads thread = .idle := by
      by_contra busy
      exact accepted (.inl busy)
    rw [free]
    rfl
  obtain ⟨pool, reclaim, ran, consistent'⟩ := valid.beginRound idle
    (fun empty => accepted (.inr (.inl empty))) (retries - 1)
  simp only [bind, ran]
  exact ⟨_, rfl, consistent'⟩

theorem evict (ret : Int) : Kept shift (step shift state (.evict thread ret)) := by
  rw [step]
  split
  · next reclaim busy =>
    refine ⟨_, rfl, valid.setThread _ ?_ fun _ same => ?_⟩
    · rw [busy]
      split <;> rfl
    split at same <;> cases same
  · next reclaim busy =>
    exact ⟨_, rfl, valid.setThread _ (by rw [busy]; rfl) fun _ same => by cases same⟩
  exact ⟨state, rfl, valid⟩

theorem endRoundStep : Kept shift (step shift state (.endRound thread)) := by
  rw [step]
  split
  · next reclaim busy =>
    obtain ⟨pool, freed, ran, consistent', listed⟩ := valid.endRound (by rw [busy]; rfl :
      (state.threads thread).reclaims = some reclaim.page)
    simp only [bind, Option.bind, ran]
    split
    · exact ⟨_, rfl, consistent'⟩
    rename_i more
    have unfreed : freed = false := by
      by_contra is_freed
      exact more (.inl (by simpa using is_freed))
    have idle : ((({ state with pool } : State Thread).setThread thread .idle).threads
          thread).reclaims = none := by
      simp [State.setThread, Local.reclaims]
    obtain ⟨pool', reclaim', ran', consistent''⟩ :=
      consistent'.beginRound idle (listed unfreed) (reclaim.retries - 1)
    have ran'' : Zbud.beginRound shift pool (reclaim.retries - 1) = some (pool', reclaim') := ran'
    simp only [ran'']
    refine ⟨_, rfl, ?_⟩
    simpa [State.setThread] using consistent''
  exact ⟨state, rfl, valid⟩

/-- Every step keeps the pool consistent. -/
theorem step (event : Event Thread) : Kept shift (Zbud.step shift state event) := by
  cases event with
  | alloc thread size highmem => exact valid.alloc size highmem
  | allocPage thread page => exact valid.allocPage page
  | free handle => exact valid.free handle
  | reclaim thread retries => exact valid.reclaim retries
  | evict thread ret => exact valid.evict ret
  | endRound thread => exact valid.endRoundStep

theorem run (events : List (Event Thread)) : Kept shift (Zbud.run shift state events) := by
  induction events generalizing state with
  | nil => exact ⟨state, rfl, valid⟩
  | cons event events ih => ?_
  obtain ⟨next, stepped, consistent'⟩ := valid.step event
  obtain ⟨last, ran, final⟩ := ih consistent'
  refine ⟨last, ?_, final⟩
  rw [Zbud.run, List.foldlM_cons, stepped]
  exact ran

end

end Consistent

/-- A live allocation: it is in a page of the pool, after the header, and `zbud_free` finds its
buddy. -/
structure Placed (chunkShift : Nat) (pool : Pool) (handle size : Nat) : Prop where
  held : handleToZbudHeader chunkShift handle ∈ pool.pages
  after_header :
    handleToZbudHeader chunkShift handle * pageSize chunkShift + chunkSize chunkShift ≤ handle
  inside :
    handle + size ≤ handleToZbudHeader chunkShift handle * pageSize chunkShift + pageSize chunkShift
  buddy : handle = encodeHandle chunkShift (pool.header (handleToZbudHeader chunkShift handle))
    (handleToZbudHeader chunkShift handle) (handleBuddy chunkShift handle)
  chunks : (pool.header (handleToZbudHeader chunkShift handle)).chunks
      (handleBuddy chunkShift handle) = sizeToChunks chunkShift size

/-- On the buddied list or on that of its free chunks, once, and on no other. -/
def OnOneList (pool : Pool) (page : Nat) : Prop :=
  (pool.buddied.count page = 1 ∧ ∀ i, page ∉ pool.unbuddied i) ∨
  (page ∉ pool.buddied ∧
    ∀ i, (pool.unbuddied i).count page = if i = numFreeChunks (pool.header page) then 1 else 0)

theorem Sound.onOneList (sound : Sound pool) (mem : page ∈ pool.pages) (here : ¬pool.under page) :
    OnOneList pool page := by
  by_cases both : (pool.header page).firstChunks ≠ 0 ∧ (pool.header page).lastChunks ≠ 0
  · left
    constructor
    · exact List.count_eq_one_of_mem sound.filed.buddied_distinct
        ((sound.filed.buddied page).mpr ⟨mem, here, both⟩)
    intro i listed
    obtain ⟨-, -, free, -⟩ := (sound.filed.unbuddied i page).mp listed
    exact free.elim both.1 both.2
  right
  constructor
  · intro listed
    exact both ((sound.filed.buddied page).mp listed).2.2
  intro i
  split
  · next same =>
    refine List.count_eq_one_of_mem (sound.filed.unbuddied_distinct i)
      ((sound.filed.unbuddied i page).mpr ⟨mem, here, ?_, same⟩)
    omega
  rename_i other
  refine List.count_eq_zero_of_not_mem fun listed => ?_
  exact other ((sound.filed.unbuddied i page).mp listed).2.2.2

omit [DecidableEq Thread] in
theorem Consistent.placed (valid : Consistent shift state) {handle size : Nat}
    (alive : state.live handle = some size) : Placed shift state.pool handle size := by
  obtain ⟨fits, page, mem, bud, rfl, chunks⟩ := valid.owned.buddy handle size alive
  have occupied : (state.pool.header page).chunks bud ≠ 0 := by
    rw [chunks]
    exact fits.chunks.1
  have used := (valid.sound.bounded page mem).used occupied
  have page_eq : handleToZbudHeader shift
      (encodeHandle shift (state.pool.header page) page bud) = page := handle_page used occupied
  have bud_eq : handleBuddy shift
      (encodeHandle shift (state.pool.header page) page bud) = bud := handle_buddy used occupied
  obtain ⟨lower, upper⟩ := handle_inside page used fits chunks
  constructor <;> rw [page_eq]
  · exact mem
  · exact lower
  · exact upper
  · rw [bud_eq]
  rw [bud_eq]
  exact chunks

omit [DecidableEq Thread] in
theorem Consistent.apart (valid : Consistent shift state) {handle handle' size size' : Nat}
    (alive : state.live handle = some size) (alive' : state.live handle' = some size')
    (ne : handle ≠ handle') : handle + size ≤ handle' ∨ handle' + size' ≤ handle := by
  obtain ⟨fits, page, mem, bud, rfl, chunks⟩ := valid.owned.buddy handle size alive
  obtain ⟨storable', page', member', bud', rfl, chunks'⟩ := valid.owned.buddy handle' size' alive'
  have used := (valid.sound.bounded page mem).used (by rw [chunks]; exact fits.chunks.1)
  have used' := (valid.sound.bounded page' member').used (by rw [chunks']; exact storable'.chunks.1)
  refine handles_apart used used' fits storable' chunks chunks' (fun same => by rw [same]) ?_
  by_contra eq
  obtain ⟨rfl, rfl⟩ : page = page' ∧ bud = bud' := by
    constructor
    · by_contra other
      exact eq (.inl other)
    by_contra other
    exact eq (.inr other)
  exact ne rfl

/-- Whatever the order of the steps, none goes wrong; live allocations are apart and where
`zbud_free` looks for them, and every page of the pool is either on its list with a buddy in use or
with one reclaimer. -/
theorem zbud_never_overlaps (chunkShift : Nat) (events : List (Event Thread)) :
    ∃ state, run chunkShift State.init events = some state ∧
      (∀ handle size, state.live handle = some size → Placed chunkShift state.pool handle size) ∧
      (∀ handle size handle' size', state.live handle = some size →
        state.live handle' = some size' → handle ≠ handle' →
        handle + size ≤ handle' ∨ handle' + size' ≤ handle) ∧
      (∀ page ∈ state.pool.pages, ∀ bud, (state.pool.header page).chunks bud ≠ 0 →
        state.live (encodeHandle chunkShift (state.pool.header page) page bud) ≠ none) ∧
      (∀ page ∈ state.pool.pages, ¬state.pool.under page →
        OnOneList state.pool page ∧ numFreeChunks (state.pool.header page) < nchunks ∧
          ∃ bud, (state.pool.header page).chunks bud ≠ 0) ∧
      (∀ page ∈ state.pool.pages, state.pool.under page →
        page ∉ state.pool.buddied ∧ (∀ i, page ∉ state.pool.unbuddied i) ∧
          ∃! thread, (state.threads thread).reclaims = some page) ∧
      (∀ i page, page ∈ state.pool.unbuddied i → i < nchunks ∧ page ∈ state.pool.pages) ∧
      (∀ page ∈ state.pool.buddied, page ∈ state.pool.pages) ∧ state.pool.pages.Nodup ∧
      state.pool.pagesNr = state.pool.pages.length := by
  have first : Consistent chunkShift (State.init : State Thread) := Consistent.init
  obtain ⟨state, ran, consistent⟩ := first.run events
  have sound := consistent.sound
  have used (page : Nat) (member : page ∈ state.pool.pages) (here : ¬state.pool.under page) :
      (state.pool.header page).Used := by
    have bounded := sound.bounded page member
    exact ⟨bounded.total, bounded.first, bounded.last, sound.nonempty page member here⟩
  refine ⟨state, ran, fun handle size alive => consistent.placed alive,
    fun handle size handle' size' alive alive' different => consistent.apart alive alive' different,
    consistent.owned.owned, fun page member here => ?_, fun page member gone => ?_,
    fun i page listed => ?_, fun page listed => ((sound.filed.buddied page).mp listed).1,
    sound.counted.1, sound.counted.2⟩
  · refine ⟨sound.onOneList member here, (used page member here).free_lt, ?_⟩
    rcases sound.nonempty page member here with first | last
    · exact ⟨.first, first⟩
    exact ⟨.last, last⟩
  · refine ⟨fun listed => ((sound.filed.buddied page).mp listed).2.1 gone,
      fun i listed => ((sound.filed.unbuddied i page).mp listed).2.1 gone, ?_⟩
    obtain ⟨thread, reclaims⟩ := consistent.reclaimed page member gone
    exact ⟨thread, reclaims, fun other found => consistent.alone other thread page found reclaims⟩
  obtain ⟨member, here, -, rfl⟩ := (sound.filed.unbuddied i page).mp listed
  exact ⟨(used page member here).free_lt, member⟩

end TinyKernel.Zbud
