import TinyKernel.Zbud.Code

/-! Where the pages of a pool are: on the list that their free chunks say, unless somebody has taken
them. -/

namespace TinyKernel.Zbud

open List Function

variable {pool : Pool} {page : Nat} {away : Nat → Prop}

/-- All pages but those that are away are on their list. -/
structure Filed (pool : Pool) (away : Nat → Prop) : Prop where
  unbuddied : ∀ i page, page ∈ pool.unbuddied i ↔ page ∈ pool.pages ∧ ¬away page ∧
    ((pool.header page).firstChunks = 0 ∨ (pool.header page).lastChunks = 0) ∧
    i = numFreeChunks (pool.header page)
  buddied : ∀ page, page ∈ pool.buddied ↔ page ∈ pool.pages ∧ ¬away page ∧
    (pool.header page).firstChunks ≠ 0 ∧ (pool.header page).lastChunks ≠ 0
  unbuddied_distinct : ∀ i, (pool.unbuddied i).Nodup
  buddied_distinct : pool.buddied.Nodup

/-- A page with something in it, as far as it goes. -/
structure Header.Used (header : Header) : Prop where
  total : header.firstChunks + header.lastChunks ≤ nchunks
  first : header.firstChunks < nchunks
  last : header.lastChunks < nchunks
  some : header.firstChunks ≠ 0 ∨ header.lastChunks ≠ 0

theorem Header.Used.free_lt (used : header.Used) : numFreeChunks header < nchunks := by
  have := used.some
  have := used.first
  rw [numFreeChunks]
  omega

namespace Filed

theorem congr (filed : Filed pool away) (same : ∀ page ∈ pool.pages, away' page ↔ away page) :
    Filed pool away' := by
  refine ⟨fun i page => ?_, fun page => ?_, filed.unbuddied_distinct, filed.buddied_distinct⟩
  · rw [filed.unbuddied]
    refine and_congr_right fun member => ?_
    rw [same page member]
  rw [filed.buddied]
  refine and_congr_right fun member => ?_
  rw [same page member]

theorem setHeader (filed : Filed pool away) (gone : away page) (header : Header) :
    Filed (pool.setHeader page header) away := by
  have other (q : Nat) (here : ¬away q) : update pool.header page header q = pool.header q := by
    rw [update_of_ne]
    rintro rfl
    exact here gone
  refine ⟨fun i q => ?_, fun q => ?_, filed.unbuddied_distinct, filed.buddied_distinct⟩
  · refine (filed.unbuddied i q).trans (and_congr_right fun _ => and_congr_right fun here => ?_)
    simp only [Pool.setHeader]
    rw [other q here]
  refine (filed.buddied q).trans (and_congr_right fun _ => and_congr_right fun here => ?_)
  simp only [Pool.setHeader]
  rw [other q here]

section

variable (filed : Filed pool away) (member : page ∈ pool.pages)
include filed member

theorem delBuddy (here : ¬away page) (used : (pool.header page).Used) :
    ∃ unbuddied buddied, pool.delBuddy page = some { pool with unbuddied, buddied } ∧
      Filed { pool with unbuddied, buddied } fun q => away q ∨ q = page := by
  have listed : page ∈ pool.buddied ∨ ∃ i < nchunks, page ∈ pool.unbuddied i := by
    by_cases both : (pool.header page).firstChunks ≠ 0 ∧ (pool.header page).lastChunks ≠ 0
    · exact .inl ((filed.buddied page).mpr ⟨member, here, both⟩)
    refine .inr ⟨_, used.free_lt, (filed.unbuddied _ page).mpr ⟨member, here, ?_, rfl⟩⟩
    omega
  rw [Pool.delBuddy, if_pos listed]
  refine ⟨_, _, rfl, ⟨fun i q => ?_, fun q => ?_, fun i => ?_, ?_⟩⟩
  · rw [(filed.unbuddied_distinct i).mem_erase_iff, filed.unbuddied]
    tauto
  · rw [filed.buddied_distinct.mem_erase_iff, filed.buddied]
    tauto
  · exact (filed.unbuddied_distinct i).erase page
  exact filed.buddied_distinct.erase page

theorem addUnbuddied (gone : away page) (used : (pool.header page).Used)
    (free : (pool.header page).firstChunks = 0 ∨ (pool.header page).lastChunks = 0) :
    ∃ unbuddied buddied, pool.addUnbuddied page = some { pool with unbuddied, buddied } ∧
      Filed { pool with unbuddied, buddied } fun q => away q ∧ q ≠ page := by
  rw [Pool.addUnbuddied, if_pos used.free_lt]
  refine ⟨_, pool.buddied, rfl, ⟨fun i q => ?_, fun q => ?_, fun i => ?_, filed.buddied_distinct⟩⟩
  · by_cases same : i = numFreeChunks (pool.header page)
    · subst same
      simp only [update_self, mem_cons, filed.unbuddied]
      by_cases eq : q = page
      · subst eq
        simp [member, free]
      simp [eq]
    simp only [update_of_ne same, filed.unbuddied]
    by_cases eq : q = page
    · subst eq
      simp [gone, same]
    simp [eq]
  · simp only [filed.buddied]
    by_cases eq : q = page
    · subst eq
      omega
    simp [eq]
  by_cases same : i = numFreeChunks (pool.header page)
  · subst same
    simp only [update_self]
    refine nodup_cons.mpr ⟨fun inside => ?_, filed.unbuddied_distinct _⟩
    exact ((filed.unbuddied _ page).mp inside).2.1 gone
  simp only [update_of_ne same]
  exact filed.unbuddied_distinct i

theorem addBuddy (gone : away page) (used : (pool.header page).Used) :
    ∃ unbuddied buddied, pool.addBuddy page = some { pool with unbuddied, buddied } ∧
      Filed { pool with unbuddied, buddied } fun q => away q ∧ q ≠ page := by
  rw [Pool.addBuddy]
  split
  · next free => exact filed.addUnbuddied member gone used free
  rename_i both
  refine ⟨pool.unbuddied, _, rfl, ⟨fun i q => ?_, fun q => ?_, filed.unbuddied_distinct, ?_⟩⟩
  · simp only [filed.unbuddied]
    by_cases eq : q = page
    · subst eq
      simp [gone, both]
    simp [eq]
  · simp only [mem_cons, filed.buddied]
    by_cases eq : q = page
    · subst eq
      simp only [true_or, member, not_and, not_not, implies_true, true_and, true_iff]
      omega
    simp [eq]
  refine nodup_cons.mpr ⟨fun inside => ?_, filed.buddied_distinct⟩
  exact ((filed.buddied page).mp inside).2.1 gone

end

end Filed

def Pool.under (pool : Pool) (page : Nat) : Prop := (pool.header page).underReclaim = true

structure Counted (pool : Pool) : Prop where
  distinct : pool.pages.Nodup
  count : pool.pagesNr = pool.pages.length

/-- No buddy is larger than the page allows. -/
structure Header.Bounded (header : Header) : Prop where
  total : header.firstChunks + header.lastChunks ≤ nchunks
  first : header.firstChunks < nchunks
  last : header.lastChunks < nchunks

theorem Header.Bounded.used {header : Header} (bounded : header.Bounded)
    (occupied : header.chunks bud ≠ 0) : header.Used := by
  refine ⟨bounded.total, bounded.first, bounded.last, ?_⟩
  cases bud with
  | first => exact .inl occupied
  | last => exact .inr occupied

/-- The lists of a pool while one page is taken off its list. -/
structure Holding (pool : Pool) (page : Nat) : Prop where
  member : page ∈ pool.pages
  filed : Filed pool fun q => pool.under q ∨ q = page
  lru : ∀ q, q ≠ page → (q ∈ pool.lru ↔ q ∈ pool.pages ∧ ¬pool.under q)
  distinct : pool.lru.Nodup
  counted : Counted pool
  bounded : ∀ q ∈ pool.pages, q ≠ page → (pool.header q).Bounded
  nonempty : ∀ q ∈ pool.pages, q ≠ page → ¬pool.under q →
    (pool.header q).firstChunks ≠ 0 ∨ (pool.header q).lastChunks ≠ 0

/-- The lists of a pool: all pages but those under reclaim have a buddy in use and are listed. -/
structure Sound (pool : Pool) : Prop where
  filed : Filed pool pool.under
  lru : ∀ q, q ∈ pool.lru ↔ q ∈ pool.pages ∧ ¬pool.under q
  distinct : pool.lru.Nodup
  counted : Counted pool
  bounded : ∀ q ∈ pool.pages, (pool.header q).Bounded
  nonempty : ∀ q ∈ pool.pages, ¬pool.under q →
    (pool.header q).firstChunks ≠ 0 ∨ (pool.header q).lastChunks ≠ 0

theorem under_setHeader_other (other : q ≠ page) (header : Header) :
    (pool.setHeader page header).under q ↔ pool.under q := by
  simp only [Pool.under, Pool.setHeader, update_of_ne other]

theorem under_setHeader_self (header : Header) :
    (pool.setHeader page header).under page ↔ header.underReclaim = true := by
  simp [Pool.under, Pool.setHeader]

theorem header_setHeader_other (other : q ≠ page) (header : Header) :
    (pool.setHeader page header).header q = pool.header q := update_of_ne other ..

namespace Holding

theorem setHeader (holding : Holding pool page) (header : Header) :
    Holding (pool.setHeader page header) page := by
  refine ⟨holding.member, ?_, fun q other => ?_, holding.distinct, ⟨holding.counted.distinct,
    holding.counted.count⟩, fun q inside other => ?_, fun q inside other here => ?_⟩
  · refine (holding.filed.setHeader (.inr rfl) header).congr fun q _ => ?_
    by_cases same : q = page
    · simp [same]
    rw [under_setHeader_other same]
  · rw [under_setHeader_other other]
    exact holding.lru q other
  · rw [header_setHeader_other other]
    exact holding.bounded q inside other
  rw [header_setHeader_other other]
  exact holding.nonempty q inside other (mt (under_setHeader_other other header).mpr here)

/-- Another list of all pages in which the page is at most added. -/
theorem setLru (holding : Holding pool page) {lru : List Nat} (distinct : lru.Nodup)
    (same : ∀ q, q ≠ page → (q ∈ lru ↔ q ∈ pool.lru)) : Holding { pool with lru } page :=
  ⟨holding.member,
    ⟨holding.filed.unbuddied, holding.filed.buddied, holding.filed.unbuddied_distinct,
      holding.filed.buddied_distinct⟩, fun q other => (same q other).trans (holding.lru q other),
    distinct, ⟨holding.counted.distinct, holding.counted.count⟩, holding.bounded, holding.nonempty⟩

theorem addBuddy (holding : Holding pool page) (here : ¬pool.under page)
    (used : (pool.header page).Used) {lru : List Nat} (distinct : lru.Nodup) (listed : page ∈ lru)
    (rest : ∀ q, q ≠ page → (q ∈ lru ↔ q ∈ pool.lru)) :
    ∃ unbuddied buddied, pool.addBuddy page = some { pool with unbuddied, buddied } ∧
      Sound { pool with unbuddied, buddied, lru } := by
  obtain ⟨unbuddied, buddied, added, filed⟩ := holding.filed.addBuddy holding.member (.inr rfl) used
  refine ⟨unbuddied, buddied, added, ?_, fun q => ?_, distinct, ⟨holding.counted.distinct,
    holding.counted.count⟩, fun q inside => ?_, fun q inside alive => ?_⟩
  · have filed' : Filed { pool with unbuddied, buddied, lru } fun q => (pool.under q ∨ q = page) ∧ q
        ≠ page :=
      ⟨filed.unbuddied, filed.buddied, filed.unbuddied_distinct, filed.buddied_distinct⟩
    refine filed'.congr fun q _ => ⟨fun gone => ⟨.inl gone, ?_⟩, ?_⟩
    · rintro rfl
      exact here gone
    rintro ⟨gone | eq, other⟩
    · exact gone
    exact absurd eq other
  · by_cases same : q = page
    · subst same
      exact iff_of_true listed ⟨holding.member, here⟩
    exact (rest q same).trans (holding.lru q same)
  · by_cases same : q = page
    · subst same
      exact ⟨used.total, used.first, used.last⟩
    exact holding.bounded q inside same
  by_cases same : q = page
  · subst same
    exact used.some
  exact holding.nonempty q inside same alive

/-- The page is marked as under reclaim. -/
theorem mark (holding : Holding pool page) (unlisted : page ∉ pool.lru) (header : Header)
    (bounded : header.Bounded) (under : header.underReclaim = true) :
    Sound (pool.setHeader page header) := by
  have marked : (pool.setHeader page header).under page := (under_setHeader_self header).mpr under
  have changed := holding.setHeader header
  refine ⟨changed.filed.congr fun q _ => ⟨.inl, ?_⟩, fun q => ?_, changed.distinct, changed.counted,
    fun q inside => ?_, fun q inside alive => ?_⟩
  · rintro (gone | rfl)
    · exact gone
    exact marked
  · by_cases same : q = page
    · subst same
      exact iff_of_false unlisted fun both => both.2 marked
    exact changed.lru q same
  · by_cases same : q = page
    · subst same
      rw [Pool.setHeader]
      simpa using bounded
    exact changed.bounded q inside same
  refine changed.nonempty q inside ?_ alive
  rintro rfl
  exact alive marked

/-- The page is freed. -/
theorem free (holding : Holding pool page) (unlisted : page ∉ pool.lru) :
    ∃ pages pagesNr, pool.freeZbudPage page = some { pool with pages, pagesNr } ∧
      Sound { pool with pages, pagesNr } ∧ ∀ q, q ∈ pages ↔ q ∈ pool.pages ∧ q ≠ page := by
  have distinct := holding.counted.distinct
  have member (q : Nat) : q ∈ pool.pages.erase page ↔ q ∈ pool.pages ∧ q ≠ page := by
    rw [distinct.mem_erase_iff, and_comm]
  refine ⟨pool.pages.erase page, pool.pagesNr -
    1, by rw [Pool.freeZbudPage, if_pos holding.member], ?_, member⟩
  refine ⟨⟨fun i q => ?_, fun q => ?_, holding.filed.unbuddied_distinct,
      holding.filed.buddied_distinct⟩, fun q => ?_, holding.distinct, ⟨distinct.erase page, ?_⟩,
    fun q inside => ?_, fun q inside alive => ?_⟩
  · simp only [member]
    rw [holding.filed.unbuddied]
    tauto
  · simp only [member]
    rw [holding.filed.buddied]
    tauto
  · simp only [member]
    by_cases same : q = page
    · subst same
      exact iff_of_false unlisted fun both => both.1.2 rfl
    simpa [same, Pool.under] using holding.lru q same
  · rw [holding.counted.count, length_erase_of_mem holding.member]
  · obtain ⟨old, other⟩ := (member q).mp inside
    exact holding.bounded q old other
  obtain ⟨old, other⟩ := (member q).mp inside
  exact holding.nonempty q old other alive

end Holding

namespace Sound

theorem used (sound : Sound pool) (member : page ∈ pool.pages) (here : ¬pool.under page) :
    (pool.header page).Used :=
  ⟨(sound.bounded page member).total, (sound.bounded page member).first,
    (sound.bounded page member).last, sound.nonempty page member here⟩

theorem delBuddy (sound : Sound pool) (member : page ∈ pool.pages) (here : ¬pool.under page) :
    ∃ unbuddied buddied, pool.delBuddy page = some { pool with unbuddied, buddied } ∧
      Holding { pool with unbuddied, buddied } page := by
  obtain ⟨unbuddied, buddied, deleted, filed⟩ :=
    sound.filed.delBuddy member here (sound.used member here)
  exact ⟨unbuddied, buddied, deleted, member, filed, fun q _ => sound.lru q, sound.distinct,
    ⟨sound.counted.distinct, sound.counted.count⟩, fun q inside _ => sound.bounded q inside,
    fun q inside _ => sound.nonempty q inside⟩

/-- A page under reclaim is on no list already. -/
theorem holding (sound : Sound pool) (member : page ∈ pool.pages) (gone : pool.under page) :
    Holding pool page := by
  refine ⟨member, sound.filed.congr fun q _ => ⟨?_, .inl⟩, fun q _ => sound.lru q, sound.distinct,
    sound.counted, fun q inside _ => sound.bounded q inside,
    fun q inside _ => sound.nonempty q inside⟩
  rintro (under | rfl)
  · exact under
  exact gone

/-- A new page. -/
theorem newPage (sound : Sound pool) (fresh : page ∉ pool.pages) (header : Header) :
    Holding
      ({ pool with pagesNr := pool.pagesNr + 1, pages := page :: pool.pages }.setHeader page header)
      page := by
  have held : Holding { pool with pagesNr := pool.pagesNr + 1, pages := page :: pool.pages }
      page := by
    refine ⟨.head _, ⟨fun i q => ?_, fun q => ?_, sound.filed.unbuddied_distinct,
      sound.filed.buddied_distinct⟩, fun q other => ?_, sound.distinct, ⟨nodup_cons.mpr ⟨fresh,
      sound.counted.distinct⟩, ?_⟩, fun q inside other => ?_, fun q inside other alive => ?_⟩
    · simp only [sound.filed.unbuddied, mem_cons, Pool.under]
      by_cases same : q = page
      · subst same
        simp [fresh]
      simp [same]
    · simp only [sound.filed.buddied, mem_cons, Pool.under]
      by_cases same : q = page
      · subst same
        simp [fresh]
      simp [same]
    · simpa [other, Pool.under] using sound.lru q
    · simp [sound.counted.count]
    · exact sound.bounded q ((mem_cons.mp inside).resolve_left other)
    exact sound.nonempty q ((mem_cons.mp inside).resolve_left other) alive
  exact held.setHeader header

end Sound

end TinyKernel.Zbud
