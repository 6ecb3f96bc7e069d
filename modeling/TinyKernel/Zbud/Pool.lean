import Mathlib.Data.List.Basic
import Mathlib.Data.Nat.Cast.Order.Ring
import TinyKernel.Zbud.Handles

/-! What the calls do to the lists of a pool and to its live handles. -/

namespace TinyKernel.Zbud

open List Function Option

variable {shift : Nat}

/-- Every buddy in use belongs to one live handle, and every live handle to a buddy. -/
structure Owned (chunkShift : Nat) (pool : Pool) (live : Nat → Option Nat) : Prop where
  buddy : ∀ handle size, live handle = some size →
    Storable chunkShift size ∧
      ∃ page ∈ pool.pages, ∃ bud, handle = encodeHandle chunkShift (pool.header page) page bud ∧
        (pool.header page).chunks bud = sizeToChunks chunkShift size
  owned : ∀ page ∈ pool.pages, ∀ bud, (pool.header page).chunks bud ≠ 0 →
    live (encodeHandle chunkShift (pool.header page) page bud) ≠ none

section

variable {pool : Pool} {live : Nat → Option Nat}

variable {header : Header}

theorem setChunks_other (other : bud' ≠ bud) (chunks : Nat) :
    (header.setChunks bud chunks).chunks bud' = header.chunks bud' := by
  cases bud <;> cases bud' <;> first | rfl | exact absurd rfl other

@[simp] theorem setChunks_self (header : Header) (bud : Buddy) (chunks : Nat) :
    (header.setChunks bud chunks).chunks bud = chunks := by
  cases bud <;> rfl

@[simp] theorem setChunks_under (header : Header) (bud : Buddy) (chunks : Nat) :
    (header.setChunks bud chunks).underReclaim = header.underReclaim := by
  cases bud <;> rfl

/-- The handle of a buddy does not depend on the size of the other. -/
theorem encodeHandle_other (other : bud' ≠ bud) (chunks : Nat) :
    encodeHandle shift (header.setChunks bud chunks) page bud' =
      encodeHandle shift header page bud' := by
  cases bud <;> cases bud' <;> first | rfl | exact absurd rfl other

theorem encodeHandle_under (header : Header) (under : Bool) (bud : Buddy) :
    encodeHandle shift { header with underReclaim := under } page bud =
      encodeHandle shift header page bud := by
  cases bud <;> rfl

/-- A handle stands for one buddy. -/
theorem encodeHandle_injective (used : header.Used) (used' : header'.Used)
    (occupied : header.chunks bud ≠ 0) (occupied' : header'.chunks bud' ≠ 0)
    (same : encodeHandle shift header page bud = encodeHandle shift header' page' bud') :
    page = page' ∧ bud = bud' := by
  have page_eq : handleToZbudHeader shift (encodeHandle shift header page bud) = page :=
    handle_page used occupied
  have bud_eq : handleBuddy shift (encodeHandle shift header page bud) = bud :=
    handle_buddy used occupied
  rw [same] at page_eq bud_eq
  rw [handle_page used' occupied'] at page_eq
  rw [handle_buddy used' occupied'] at bud_eq
  exact ⟨page_eq.symm, bud_eq.symm⟩

/-- A buddy in use, with its handle and its size. -/
def InUse (chunkShift : Nat) (pool : Pool) (page : Nat) (bud : Buddy) (handle chunks : Nat) :
    Prop :=
  page ∈ pool.pages ∧ handle = encodeHandle chunkShift (pool.header page) page bud ∧
    (pool.header page).chunks bud = chunks ∧ chunks ≠ 0

theorem owned_iff :
    Owned shift pool live ↔
      (∀ handle size, live handle = some size →
          Storable shift size ∧
            ∃ page bud, InUse shift pool page bud handle (sizeToChunks shift size)) ∧
        ∀ page bud handle chunks, InUse shift pool page bud handle chunks → live handle ≠ none := by
  constructor
  · refine fun owned => ⟨fun handle size found => ?_, ?_⟩
    · obtain ⟨fits, page, mem, bud, handle_eq, chunks⟩ := owned.buddy handle size found
      exact ⟨fits, page, bud, mem, handle_eq, chunks, fits.chunks.1⟩
    rintro page bud _ _ ⟨mem, rfl, rfl, occupied⟩
    exact owned.owned page mem bud occupied
  rintro ⟨buddy, owned⟩
  refine ⟨fun handle size found => ?_, fun page mem bud occupied => ?_⟩
  · obtain ⟨fits, page, bud, mem, handle_eq, chunks, -⟩ := buddy handle size found
    exact ⟨fits, page, mem, bud, handle_eq, chunks⟩
  exact owned page bud _ _ ⟨mem, rfl, rfl, occupied⟩

/-- The same buddies are in use. -/
theorem Owned.congr (owned : Owned shift pool live)
    (same : ∀ page bud handle chunks, InUse shift pool' page bud handle chunks ↔
      InUse shift pool page bud handle chunks) : Owned shift pool' live := by
  simp only [owned_iff, same] at owned ⊢
  exact owned

/-- Another size for one buddy is nothing to the others. -/
theorem inUse_setChunks (other : page' = page → bud' ≠ bud) (count : Nat) :
    InUse shift (pool.setHeader page ((pool.header page).setChunks bud count)) page' bud' handle
        chunks ↔ InUse shift pool page' bud' handle chunks := by
  by_cases eq : page' = page
  · subst eq
    simp only [InUse, Pool.setHeader, update_self, encodeHandle_other (other rfl),
      setChunks_other (other rfl)]
  simp only [InUse, Pool.setHeader, update_of_ne eq]

section

variable (owned : Owned shift pool live)
include owned

/-- A free buddy is given out. -/
theorem Owned.give (free : (pool.header page).chunks bud = 0) (mem : page ∈ pool.pages)
    (fits : Storable shift size)
    (header_eq : header = (pool.header page).setChunks bud (sizeToChunks shift size)) :
    Owned shift (pool.setHeader page header)
      (update live (encodeHandle shift header page bud) (some size)) := by
  subst header_eq
  obtain ⟨buddy, owned⟩ := owned_iff.mp owned
  refine owned_iff.mpr ⟨fun handle size' found => ?_, fun page' bud' handle chunks used => ?_⟩
  · by_cases new : handle =
      encodeHandle shift ((pool.header page).setChunks bud (sizeToChunks shift size)) page bud
    · rw [new, update_self] at found
      obtain rfl := some.inj found
      refine ⟨fits, page, bud, mem, ?_, ?_, fits.chunks.1⟩
      · simpa only [Pool.setHeader, update_self] using new
      simp [Pool.setHeader]
    rw [update_of_ne new] at found
    obtain ⟨storable', page', bud', used⟩ := buddy handle size' found
    refine ⟨storable', page', bud', (inUse_setChunks ?_ _).mpr used⟩
    rintro rfl rfl
    exact used.2.2.2 (used.2.2.1.symm.trans free)
  rw [update_apply]
  split
  · simp
  rename_i old
  refine owned page' bud' handle chunks ((inUse_setChunks ?_ _).mp used)
  rintro rfl rfl
  refine old (used.2.1.trans ?_)
  simp [Pool.setHeader]

/-- A buddy is taken back. -/
theorem Owned.takeBack (bounded : ∀ q ∈ pool.pages, (pool.header q).Bounded)
    (mem : page ∈ pool.pages) (occupied : (pool.header page).chunks bud ≠ 0) :
    Owned shift (pool.setHeader page ((pool.header page).setChunks bud 0))
      (update live (encodeHandle shift (pool.header page) page bud) none) := by
  obtain ⟨buddy, owned⟩ := owned_iff.mp owned
  refine owned_iff.mpr ⟨fun handle size found => ?_, fun page' bud' handle chunks used => ?_⟩
  · rw [update_apply] at found
    split at found
    · cases found
    rename_i other
    obtain ⟨fits, page', bud', used⟩ := buddy handle size found
    refine ⟨fits, page', bud', (inUse_setChunks ?_ _).mpr used⟩
    rintro rfl rfl
    exact other used.2.1
  have other : page' = page → bud' ≠ bud := by
    rintro rfl rfl
    refine used.2.2.2 (used.2.2.1.symm.trans ?_)
    simp [Pool.setHeader]
  have old := (inUse_setChunks other _).mp used
  rw [update_of_ne]
  · exact owned page' bud' handle chunks old
  obtain ⟨member', rfl, rfl, occupied'⟩ := old
  intro same
  obtain ⟨pages, buds⟩ := encodeHandle_injective ((bounded page' member').used occupied')
    ((bounded page mem).used occupied) occupied' occupied same
  exact other pages buds

/-- Nothing is known of a page with both buddies free. -/
theorem Owned.removePage (fewer : ∀ q, q ∈ pages ↔ q ∈ pool.pages ∧ q ≠ page)
    (empty : ∀ bud, (pool.header page).chunks bud = 0) (pagesNr : Nat) :
    Owned shift { pool with pages, pagesNr } live := by
  refine owned.congr fun page' bud handle chunks => ?_
  simp only [InUse, fewer]
  refine ⟨fun used => ⟨used.1.1, used.2⟩, fun used => ⟨⟨used.1, ?_⟩, used.2⟩⟩
  rintro rfl
  exact used.2.2.2 (used.2.2.1.symm.trans (empty bud))

theorem Owned.newPage (fresh : page ∉ pool.pages) (pagesNr : Nat) :
    Owned shift ({ pool with pagesNr, pages := page :: pool.pages }.setHeader page ⟨0, 0, false⟩)
      live := by
  refine owned.congr fun page' bud handle chunks => ?_
  by_cases same : page' = page
  · subst same
    refine iff_of_false (fun used => used.2.2.2 (used.2.2.1.symm.trans ?_)) fun used => fresh used.1
    simp only [Pool.setHeader, update_self]
    cases bud <;> rfl
  simp [InUse, Pool.setHeader, same]

/-- The mark of a page has nothing to do with its buddies. -/
theorem Owned.mark (page : Nat) (under : Bool) :
    Owned shift (pool.setHeader page { pool.header page with underReclaim := under }) live := by
  refine owned.congr fun page' bud handle chunks => ?_
  by_cases same : page' = page
  · subst same
    simp only [InUse, Pool.setHeader, update_self, encodeHandle_under]
    cases bud <;> rfl
  simp only [InUse, Pool.setHeader, update_of_ne same]

end

end

section

variable {pool : Pool}

theorem place_spec (shift : Nat) (holding : Holding pool page) (here : ¬pool.under page)
    (used : ((pool.header page).setChunks bud chunks).Used) :
    ∃ unbuddied buddied lru, place shift pool page bud chunks =
        some ({ pool.setHeader page ((pool.header page).setChunks bud chunks) with
            unbuddied,
            buddied,
            lru }, encodeHandle shift ((pool.header page).setChunks bud chunks) page bud) ∧
      Sound { pool.setHeader page ((pool.header page).setChunks bud chunks) with
        unbuddied,
        buddied,
        lru } := by
  have changed := holding.setHeader ((pool.header page).setChunks bud chunks)
  have header_eq : (pool.setHeader page ((pool.header page).setChunks bud chunks)).header page =
      (pool.header page).setChunks bud chunks := update_self ..
  have free : ¬(pool.setHeader page ((pool.header page).setChunks bud chunks)).under page := by
    rw [under_setHeader_self, setChunks_under]
    exact here
  have missing : page ∉ pool.lru.erase page := holding.distinct.not_mem_erase
  obtain ⟨unbuddied, buddied, added, sound⟩ := changed.addBuddy free (header_eq.symm ▸ used)
    (nodup_cons.mpr ⟨missing, holding.distinct.erase page⟩) (.head _)
    (fun q other => by
      rw [mem_cons, holding.distinct.mem_erase_iff]
      simp only [other, false_or, ne_eq, not_false_eq_true, true_and]
      rfl)
  refine ⟨unbuddied, buddied, page :: pool.lru.erase page, ?_, sound⟩
  rw [place]
  simp only [added, bind, Option.bind]
  rw [header_eq]
  rfl

/-- `zbud_alloc` with a page that is new to the pool. -/
theorem allocNew_spec (sound : Sound pool) (owned : Owned shift pool live)
    (fresh : page ∉ pool.pages) (fits : Storable shift size) :
    ∃ pool' handle, allocNew shift pool page (sizeToChunks shift size) = some (pool', handle) ∧
      Sound pool' ∧ Owned shift pool' (update live handle (some size)) ∧
      (∀ q, q ∈ pool'.pages ∧ pool'.under q ↔ q ∈ pool.pages ∧ pool.under q) := by
  obtain ⟨pos, small, -⟩ := fits.chunks
  have holding := sound.newPage fresh ⟨0, 0, false⟩
  have owned' := owned.newPage fresh (pool.pagesNr + 1)
  obtain ⟨next, next_eq⟩ : ∃ next, next = ({ pool with
    pagesNr := pool.pagesNr + 1
    pages := page :: pool.pages } : Pool).setHeader page ⟨0, 0, false⟩ := ⟨_, rfl⟩
  rw [← next_eq] at holding owned'
  have header_eq : next.header page = ⟨0, 0, false⟩ := by
    rw [next_eq]
    exact update_self ..
  have here : ¬next.under page := by
    rw [Pool.under, header_eq]
    exact Bool.false_ne_true
  have used : ((next.header page).setChunks .first (sizeToChunks shift size)).Used := by
    rw [header_eq]
    exact ⟨by simpa [Header.setChunks] using small.le, small, by simp [Header.setChunks, nchunks],
      .inl pos⟩
  obtain ⟨unbuddied, buddied, lru, placed, sound'⟩ := place_spec shift holding here used
  have free : (next.header page).chunks .first = 0 := by
    rw [header_eq]
    rfl
  have mem : page ∈ next.pages := by
    rw [next_eq]
    exact .head _
  have given := owned'.give free mem fits rfl
  refine ⟨_, _, ?_, sound', ⟨given.buddy, given.owned⟩, fun q => ?_⟩
  · rw [allocNew]
    rw [← next_eq]
    exact placed
  by_cases same : q = page
  · subst same
    refine iff_of_false (fun both => here ?_) fun both => fresh both.1
    have gone := both.2
    simpa only [Pool.under, Pool.setHeader, update_self, setChunks_under] using gone
  simp only [next_eq, Pool.under, Pool.setHeader, update_of_ne same, mem_cons, same, false_or]

theorem findUnbuddied_spec (sound : Sound pool) (pos : chunks ≠ 0) (small : chunks < nchunks)
    (found : findUnbuddied pool chunks = some (page, bud)) :
    page ∈ pool.pages ∧ ¬pool.under page ∧ (pool.header page).chunks bud = 0 ∧
      ((pool.header page).setChunks bud chunks).Used := by
  obtain ⟨i, search, rest⟩ := bind_eq_some_iff.mp found
  obtain ⟨page', head, rest⟩ := bind_eq_some_iff.mp rest
  obtain ⟨rfl, rfl⟩ := Prod.mk.inj (some.inj rest)
  have range : i ∈ (range nchunks).drop chunks := mem_of_find?_eq_some search
  have enough : chunks ≤ i := by
    obtain ⟨n, at_n⟩ := mem_iff_getElem?.mp range
    rw [List.getElem?_drop] at at_n
    obtain ⟨bound, value⟩ := List.getElem?_eq_some_iff.mp at_n
    rw [List.getElem_range] at value
    omega
  obtain ⟨mem, here, free, i_eq⟩ := (sound.filed.unbuddied i page').mp (mem_of_head? head)
  refine ⟨mem, here, ?_, ?_⟩
  · split
    · next first => exact first
    · next first => exact free.resolve_left first
  obtain ⟨total, first, last⟩ := sound.bounded page' mem
  rw [i_eq, numFreeChunks] at enough
  split
  · next none =>
    refine ⟨?_, small, last, .inl pos⟩
    simp only [Header.setChunks]
    omega
  rename_i some_first
  refine ⟨?_, first, small, .inr pos⟩
  simp only [Header.setChunks]
  omega

theorem delBuddy_setHeader (pool : Pool) (page : Nat) (header : Header) :
    (pool.setHeader page header).delBuddy page =
      (pool.delBuddy page).map fun pool => pool.setHeader page header := by
  by_cases listed : page ∈ pool.buddied ∨ ∃ i < nchunks, page ∈ pool.unbuddied i
  · simp [Pool.delBuddy, Pool.setHeader, listed]
  simp [Pool.delBuddy, Pool.setHeader, listed]

section

variable (sound : Sound pool) {live : Nat → Option Nat} (owned : Owned shift pool live)
include sound owned

/-- `zbud_free` of a buddy in use. -/
theorem zbudFree_spec (mem : page ∈ pool.pages) (occupied : (pool.header page).chunks bud ≠ 0) :
    ∃ pool', zbudFree shift pool (encodeHandle shift (pool.header page) page bud) = some pool' ∧
      Sound pool' ∧
      Owned shift pool' (update live (encodeHandle shift (pool.header page) page bud) none) ∧
      (∀ q, q ∈ pool'.pages ∧ pool'.under q ↔ q ∈ pool.pages ∧ pool.under q) := by
  have bounded := sound.bounded page mem
  have used := bounded.used occupied
  have owned' := owned.takeBack sound.bounded mem occupied
  have fewer : ((pool.header page).setChunks bud 0).Bounded := by
    obtain ⟨total, first, last⟩ := bounded
    cases bud with
    | first =>
      exact ⟨by simp only [Header.setChunks]; omega, by simp [Header.setChunks, nchunks], last⟩
    | last =>
      exact ⟨by simp only [Header.setChunks]; omega, first, by simp [Header.setChunks, nchunks]⟩
  have under_eq (q : Nat) :
      (pool.setHeader page ((pool.header page).setChunks bud 0)).under q ↔ pool.under q := by
    by_cases same : q = page
    · subst same
      rw [under_setHeader_self, setChunks_under]
      rfl
    exact under_setHeader_other same _
  rw [zbudFree, handle_page used occupied, handle_buddy used occupied]
  by_cases gone : pool.under page
  · -- the reclaimer will see to the page
    have marked : ((pool.header page).setChunks bud 0).underReclaim = true := by
      rw [setChunks_under]
      exact gone
    have unlisted : page ∉ pool.lru := fun listed => ((sound.lru page).mp listed).2 gone
    refine ⟨_, if_pos marked, (sound.holding mem gone).mark unlisted _ fewer marked, owned',
      fun q => ?_⟩
    rw [under_eq]
    rfl
  have unmarked : ¬((pool.header page).setChunks bud 0).underReclaim = true := by
    rw [setChunks_under]
    exact gone
  obtain ⟨unbuddied, buddied, deleted, holding⟩ := sound.delBuddy mem gone
  have changed := holding.setHeader ((pool.header page).setChunks bud 0)
  have listed : page ∈ pool.lru := (sound.lru page).mpr ⟨mem, gone⟩
  have owned'' : Owned shift
      ({ pool with unbuddied, buddied }.setHeader page ((pool.header page).setChunks bud 0))
      (update live (encodeHandle shift (pool.header page) page bud) none) :=
    ⟨owned'.buddy, owned'.owned⟩
  have header_eq : ({ pool with unbuddied, buddied }.setHeader page
      ((pool.header page).setChunks bud 0)).header page = (pool.header page).setChunks bud 0 :=
    update_self ..
  simp only [if_neg unmarked, delBuddy_setHeader, deleted, Option.map_some, bind, Option.bind]
  split
  · next empty =>
    have dropped := changed.setLru (holding.distinct.erase page) fun q other => by
      simp [other, Pool.setHeader]
    have unlisted : page ∉ pool.lru.erase page := holding.distinct.not_mem_erase
    obtain ⟨pages, pagesNr, freed, sound', members⟩ := dropped.free unlisted
    have deleted_lru : ({ pool with unbuddied, buddied }.setHeader page
        ((pool.header page).setChunks bud 0)).delLru page = some
        { { pool with unbuddied, buddied }.setHeader page ((pool.header page).setChunks bud 0) with
          lru := pool.lru.erase page } := if_pos listed
    rw [deleted_lru]
    refine ⟨_, freed, sound', ?_, fun q => ?_⟩
    · have removed := owned''.removePage members (fun bud' => by
        rw [header_eq]
        cases bud' with
        | first => exact empty.1
        | last => exact empty.2) pagesNr
      exact ⟨removed.buddy, removed.owned⟩
    rw [members]
    constructor
    · rintro ⟨⟨inside, other⟩, under⟩
      exact ⟨inside, (under_eq q).mp under⟩
    rintro ⟨inside, under⟩
    refine ⟨⟨inside, ?_⟩, (under_eq q).mpr under⟩
    rintro rfl
    exact gone under
  rename_i other
  have free_eq : (({ pool with unbuddied, buddied }.setHeader page
      ((pool.header page).setChunks bud 0)).header page).firstChunks = 0 ∨
      (({ pool with unbuddied, buddied }.setHeader page
      ((pool.header page).setChunks bud 0)).header page).lastChunks = 0 := by
    rw [header_eq]
    cases bud with
    | first => exact .inl rfl
    | last => exact .inr rfl
  have used' : ((pool.header page).setChunks bud 0).Used :=
    ⟨fewer.total, fewer.first, fewer.last, by omega⟩
  have here : ¬({ pool with unbuddied, buddied }.setHeader page
        ((pool.header page).setChunks bud 0)).under page := by
    rw [under_setHeader_self]
    exact unmarked
  obtain ⟨unbuddied', buddied', added, sound'⟩ :=
    changed.addBuddy here (header_eq.symm ▸ used') changed.distinct listed fun q _ => Iff.rfl
  rw [Pool.addBuddy, if_pos free_eq] at added
  refine ⟨_, added, sound', ⟨owned''.buddy, owned''.owned⟩, fun q => ?_⟩
  exact and_congr_right fun _ => under_eq q

/-- The oldest page is taken for reclaim. -/
theorem beginRound_spec (some_page : pool.lru ≠ []) (retries : Nat) :
    ∃ pool' reclaim, beginRound shift pool retries = some (pool', reclaim) ∧ Sound pool' ∧
      Owned shift pool' live ∧ pool'.pages = pool.pages ∧ reclaim.page ∈ pool.pages ∧
      ¬pool.under reclaim.page ∧ ∀ q, pool'.under q ↔ pool.under q ∨ q = reclaim.page := by
  have last : pool.lru.getLast? = some (pool.lru.getLast some_page) :=
    getLast?_eq_getLast_of_ne_nil _
  have listed : pool.lru.getLast some_page ∈ pool.lru := getLast_mem some_page
  generalize pool.lru.getLast some_page = page at last listed
  obtain ⟨mem, here⟩ := (sound.lru page).mp listed
  obtain ⟨unbuddied, buddied, deleted, holding⟩ := sound.delBuddy mem here
  have unlisted : page ∉ pool.lru.erase page := sound.distinct.not_mem_erase
  have dropped := holding.setLru (sound.distinct.erase page) fun q other => by
    simp [other]
  have deleted' : { pool with lru := pool.lru.erase page }.delBuddy page =
      some { pool with unbuddied, buddied, lru := pool.lru.erase page } := by
    by_cases on_list : page ∈ pool.buddied ∨ ∃ i < nchunks, page ∈ pool.unbuddied i
    · rw [Pool.delBuddy, if_pos on_list] at deleted
      obtain ⟨rfl, rfl⟩ : _ ∧ _ := by simpa using some.inj deleted
      exact if_pos on_list
    rw [Pool.delBuddy, if_neg on_list] at deleted
    cases deleted
  have marked :=
    dropped.mark unlisted { pool.header page with underReclaim := true }
      ⟨(sound.bounded page mem).total, (sound.bounded page mem).first,
        (sound.bounded page mem).last⟩ rfl
  have owned' := owned.mark page true
  rw [beginRound, last]
  simp only [bind, Option.bind, Pool.delLru, if_pos listed, deleted']
  refine ⟨_, _, rfl, marked, ⟨owned'.buddy, owned'.owned⟩, rfl, mem, here, fun q => ?_⟩
  by_cases same : q = page
  · subst same
    exact iff_of_true ((under_setHeader_self _).mpr rfl) (.inr rfl)
  simp only [same, or_false]
  exact under_setHeader_other same _

/-- The page of a reclaimer is freed or listed again. -/
theorem endRound_spec (mem : page ∈ pool.pages) (gone : pool.under page) :
    ∃ pool' freed, endRound pool page = some (pool', freed) ∧ Sound pool' ∧ Owned shift pool' live ∧
      (∀ q, q ≠ page → (q ∈ pool'.pages ↔ q ∈ pool.pages) ∧ (pool'.under q ↔ pool.under q)) ∧
      ¬pool'.under page ∧ (freed = false → pool'.lru ≠ []) := by
  have bounded := sound.bounded page mem
  have unlisted : page ∉ pool.lru := fun listed => ((sound.lru page).mp listed).2 gone
  have holding := (sound.holding mem gone).setHeader { pool.header page with underReclaim := false }
  have owned' := owned.mark page false
  have here : ¬(pool.setHeader page { pool.header page with underReclaim := false }).under
      page := by
    rw [under_setHeader_self]
    simp
  have header_eq : (pool.setHeader page { pool.header page with underReclaim := false }).header
        page = { pool.header page with underReclaim := false } :=
    update_self ..
  rw [endRound]
  simp only [header_eq]
  split
  · next empty =>
    obtain ⟨pages, pagesNr, freed, sound', members⟩ := holding.free unlisted
    rw [freed]
    refine ⟨_, true, rfl, sound', owned'.removePage members (fun bud => ?_) pagesNr,
      fun q other => ⟨?_, ?_⟩, here, by simp⟩
    · rw [header_eq]
      cases bud with
      | first => exact empty.1
      | last => exact empty.2
    · simp only [members, other, ne_eq, not_false_eq_true, and_true]
      rfl
    exact under_setHeader_other other _
  have used : (({ pool.header page with underReclaim := false } : Header)).Used :=
    ⟨bounded.total, bounded.first, bounded.last, by simp only; omega⟩
  obtain ⟨unbuddied, buddied, added, sound'⟩ := holding.addBuddy here (header_eq.symm ▸ used)
    (nodup_cons.mpr ⟨unlisted, sound.distinct⟩) (.head _) (fun q other => by
      simp only [mem_cons, other, false_or]
      rfl)
  rw [added]
  refine ⟨_, false, rfl, sound', ⟨owned'.buddy, owned'.owned⟩, fun q other => ⟨Iff.rfl, ?_⟩, here,
    by simp⟩
  exact under_setHeader_other other _

end

end

end TinyKernel.Zbud
