import Mathlib.Algebra.BigOperators.Group.Finset.Piecewise
import Mathlib.Algebra.Star.Basic
import Mathlib.Tactic.Linarith
import Mathlib.Tactic.Ring
import TinyKernel.Genalloc.Pool

/-! The invariant of all interleaved calls on a pool, and what it says about live allocations. -/

namespace TinyKernel.Genalloc

open Lib Function List Option

variable {pool : Pool}

/-- A call keeps to its range, and has not run into a `BUG_ON`. -/
def Call.Good (pool : Pool) : Call pool.count → Prop
  | .idle => True
  | .scan r _ => r.Accepted pool
  | .search r _ => r.Accepted pool
  | .set r c walk => r.Inside pool c ∧ walk.Sound .set ∧ r.startBit.toNat ≤ walk.lo ∧
      walk.size = r.startBit.toNat + pool.granules r.size
  | .undo r c walk => r.Inside pool c ∧ walk.Sound .clear
  | .sub r c => r.Inside pool c
  | .clear r c walk => r.Inside pool c ∧ walk.Sound .clear
  | .add r c => r.Inside pool c
  | .bug => False
  | .wild => False

/-- The bits that a call owns. -/
def Call.holds (pool : Pool) : Call pool.count → Set (Fin pool.count × Nat)
  | .set r c walk => span c r.startBit.toNat walk.lo
  | .undo _ c walk => span c walk.lo walk.size
  | .sub r c => span c r.startBit.toNat (r.startBit.toNat + pool.granules r.size)
  | .clear _ c walk => span c walk.lo walk.size
  | _ => ∅

/-- The bytes that a call will give back to the counter of a chunk. -/
def Call.charge (pool : Pool) (d : Fin pool.count) : Call pool.count → Int
  | .clear r c _ => if c = d then r.nbits * 2 ^ pool.order else 0
  | .add r c => if c = d then r.nbits * 2 ^ pool.order else 0
  | _ => 0

def Allocation.holds (pool : Pool) (a : Allocation) : Set (Fin pool.count × Nat) :=
  {cell | chunkOf pool a.addr = some cell.1 ∧ (startBitOf pool a.addr cell.1).toNat ≤ cell.2 ∧
    cell.2 < (startBitOf pool a.addr cell.1).toNat + pool.granules a.size}

/-- The bytes of a chunk that an allocation uses. -/
def Allocation.charge (pool : Pool) (d : Fin pool.count) (a : Allocation) : Int :=
  if chunkOf pool a.addr = some d then pool.granules a.size * 2 ^ pool.order else 0

section

variable {a : Allocation} {c : Fin pool.count} {start : Nat} (placed : a.Placed pool c start)
include placed

theorem Allocation.Placed.holds_eq :
    a.holds pool = span c start (start + pool.granules a.size) := by
  have bit : (startBitOf pool a.addr c).toNat = start := by
    rw [placed.startBit_eq]
    rfl
  ext ⟨d, place⟩
  simp only [Allocation.holds, Set.mem_ofPred_eq, mem_span, placed.chunk, some.injEq]
  constructor
  · rintro ⟨rfl, low, high⟩
    rw [bit] at low high
    exact ⟨rfl, low, high⟩
  rintro ⟨rfl, low, high⟩
  rw [bit]
  exact ⟨rfl, low, high⟩

theorem Allocation.Placed.nonempty : (c, start) ∈ a.holds pool := by
  rw [placed.holds_eq]
  exact ⟨rfl, le_rfl, Nat.lt_add_of_pos_right (Pool.granules_pos placed.some)⟩

end

variable {Context : Type} [DecidableEq Context]

section

/-- The owners are the calls and the live allocations. -/
def World.holds (world : World pool Context) : Context ⊕ Allocation → Set (Fin pool.count × Nat)
  | .inl t => (world.calls t).holds pool
  | .inr a => if a ∈ world.live then a.holds pool else ∅

variable [Fintype Context]

/-- The bytes that the counter of a chunk does not count. -/
def World.spent (world : World pool Context) (d : Fin pool.count) : Int :=
  ∑ t, (world.calls t).charge pool d + (world.live.map (Allocation.charge pool d)).sum

structure Inv (world : World pool Context) : Prop where
  good : ∀ t, (world.calls t).Good pool
  placed : ∀ a ∈ world.live, ∃ c start, a.Placed pool c start
  nodup : world.live.Nodup
  owned : Owned world.memory.taken world.holds
  avail : ∀ c, world.memory.avail c = toInt (chunkSize (pool.chunk c) - world.spent c)

omit [Fintype Context] in
theorem World.holds_update (world : World pool Context) (t : Context) (call : Call pool.count)
    (memory : Memory pool.count) :
    World.holds ⟨memory, update world.calls t call, world.live⟩ =
      update world.holds (.inl t) (call.holds pool) := by
  funext owner
  cases owner with
  | inl u =>
    by_cases same : u = t
    · subst same
      simp [World.holds]
    simp [World.holds, same]
  | inr a => simp [World.holds]

theorem World.spent_update (world : World pool Context) (t : Context) (call : Call pool.count)
    (memory : Memory pool.count) (d : Fin pool.count) :
    World.spent ⟨memory, update world.calls t call, world.live⟩ d =
      world.spent d - (world.calls t).charge pool d + call.charge pool d := by
  have changed : (fun u => (update world.calls t call u).charge pool d) =
      update (fun u => (world.calls u).charge pool d) t (call.charge pool d) := by
    funext u
    by_cases same : u = t
    · subst same
      simp
    simp [same]
  have before := Finset.sum_eq_add_sum_sdiff_singleton_of_mem (Finset.mem_univ t)
    (fun u => (world.calls u).charge pool d)
  simp only [World.spent, changed, Finset.sum_update_of_mem (Finset.mem_univ t)]
  rw [before]
  ring

/-- A step of one call. -/
theorem Inv.call (inv : Inv world) (t : Context) {call : Call pool.count} (good : call.Good pool)
    (owned : Owned memory.taken (update world.holds (.inl t) (call.holds pool)))
    (avail : ∀ c, memory.avail c =
      toInt (world.memory.avail c + ((world.calls t).charge pool c - call.charge pool c))) :
    Inv ⟨memory, update world.calls t call, world.live⟩ where
  good := by
    intro u
    by_cases same : u = t
    · subst same
      simpa using good
    simpa [same] using inv.good u
  placed := inv.placed
  nodup := inv.nodup
  owned := by rwa [World.holds_update]
  avail := by
    intro c
    rw [avail c, inv.avail c, toInt_toInt_add, World.spent_update]
    congr 1
    ring

omit [DecidableEq Context] [Fintype Context] in
theorem World.holds_inl (world : World pool Context) (t : Context) :
    world.holds (.inl t) = (world.calls t).holds pool := rfl

omit [DecidableEq Context] in
theorem Inv.avail_same {world : World pool Context} (inv : Inv world) (c : Fin pool.count) :
    world.memory.avail c = toInt (world.memory.avail c + 0) := by
  rw [inv.avail c, toInt_toInt_add, add_zero]

/-- A step that moves no bits. -/
theorem Inv.quiet (inv : Inv world) (t : Context) {call : Call pool.count} (good : call.Good pool)
    (holds : call.holds pool = (world.calls t).holds pool)
    (charge : ∀ c, call.charge pool c = (world.calls t).charge pool c) :
    Inv ⟨world.memory, update world.calls t call, world.live⟩ := by
  refine inv.call t good ?_ fun c => ?_
  · rw [holds, ← World.holds_inl, update_eq_self]
    exact inv.owned
  rw [charge c, sub_self]
  exact inv.avail_same c

/-- A step of a walk that sets or clears some bits. -/
theorem Inv.moves (inv : Inv world) (t : Context) {mode : Mode}
    {call : Call pool.count}
    (good : call.Good pool) (does : mode.Does world.memory.taken cells memory.taken)
    (avail : memory.avail = world.memory.avail)
    (holds : call.holds pool = match mode with
      | .set => (world.calls t).holds pool ∪ cells
      | .clear => (world.calls t).holds pool \ cells)
    (mine : mode = .clear → cells ⊆ (world.calls t).holds pool)
    (charge : ∀ c, call.charge pool c = (world.calls t).charge pool c) :
    Inv ⟨memory, update world.calls t call, world.live⟩ := by
  refine inv.call t good ?_ fun c => ?_
  · cases mode with
    | set =>
      rw [does.2, holds]
      exact inv.owned.take (.inl t) does.1
    | clear => ?_
    rw [does.2, holds]
    exact inv.owned.release (.inl t) (mine rfl)
  rw [charge c, sub_self, avail]
  exact inv.avail_same c

end

section

variable [Fintype Context] {world : World pool Context} {t : Context} {r : Request}
  {c : Fin pool.count} {walk : Walk}

theorem start_undo (some : remain ≠ 0) (inside : r.Inside pool c)
    (part : remain ≤ pool.granules r.size) :
    (afterSet pool r c (.done remain)).Good pool ∧
      (afterSet pool r c (.done remain)).holds pool =
        span c r.startBit.toNat (r.startBit.toNat + (pool.granules r.size - remain)) ∧
      ∀ d, (afterSet pool r c (.done remain)).charge pool d = 0 := by
  obtain ⟨rest, rfl⟩ := Nat.exists_eq_succ_of_ne_zero some
  rcases Walk.start_sound .clear r.startBit.toNat (pool.granules r.size - (rest + 1)) with
    ⟨none, done⟩ | ⟨walk, more, sound, low, high⟩
  · have again : afterSet pool r c (.done (rest + 1)) = .search r c := by
      simp [afterSet, inside.toNat, done]
    rw [again, none]
    exact ⟨inside.toAccepted, (span_empty c (le_rfl)).symm, fun _ => rfl⟩
  have undo : afterSet pool r c (.done (rest + 1)) = .undo r c walk := by
    simp [afterSet, inside.toNat, more]
  rw [undo]
  refine ⟨⟨inside, sound⟩, ?_, fun _ => rfl⟩
  rw [Call.holds, low, high]

theorem Inv.set (inv : Inv world) (at_set : world.calls t = .set r c walk)
    (reaches : Reaches .set c walk world.memory out) :
    Inv ⟨out.2, update world.calls t (afterSet pool r c out.1), world.live⟩ := by
  obtain ⟨inside, sound, low, size⟩ : (Call.set r c walk).Good pool := at_set ▸ inv.good t
  have holds : (world.calls t).holds pool = span c r.startBit.toNat walk.lo := by
    rw [at_set, Call.holds]
  have charge : ∀ d, (world.calls t).charge pool d = 0 := by
    intro d
    rw [at_set]
    rfl
  have nr := sound.inside
  have lo : walk.lo = walk.size - walk.nr := rfl
  have grows : span c r.startBit.toNat walk.lo ∪ span c walk.lo walk.hi =
      span c r.startBit.toNat walk.hi := span_union c low sound.lo_lt.le
  cases reaches with
  | refused _ =>
    obtain ⟨good, held, free⟩ := start_undo sound.some.ne' inside (by omega)
    refine inv.quiet t good ?_ fun d => (free d).trans (charge d).symm
    rw [held, holds]
    congr 1
    omega
  | read sound' size' lo' =>
    refine inv.quiet t ⟨inside, sound', lo' ▸ low, size'.trans size⟩ ?_ fun d => (charge d).symm
    rw [holds, afterSet, Call.holds, lo']
  | part does avail sound' size' lo' =>
    refine inv.moves t ⟨inside, sound', ?_, size'.trans size⟩ does avail ?_ nofun fun d =>
      (charge d).symm
    · rw [lo']
      exact low.trans sound.lo_lt.le
    rw [holds, afterSet, Call.holds, lo']
    exact grows.symm
  | whole does avail hi => ?_
  refine inv.moves t inside does avail ?_ nofun fun d => (charge d).symm
  rw [holds, afterSet, Call.holds]
  simp only
  rw [grows, hi, size]

/-- A walk that clears bits of its own call is never refused. -/
theorem Inv.clearing (inv : Inv world) {after : Walk.Outcome → Call pool.count}
    (sound : walk.Sound .clear) (holds : (world.calls t).holds pool = span c walk.lo walk.size)
    (more : ∀ walk', walk'.Sound .clear →
      (after (.more walk')).Good pool ∧
        (after (.more walk')).holds pool = span c walk'.lo walk'.size ∧
        ∀ d, (after (.more walk')).charge pool d = (world.calls t).charge pool d)
    (done : (after (.done 0)).Good pool ∧ (after (.done 0)).holds pool = ∅ ∧
      ∀ d, (after (.done 0)).charge pool d = (world.calls t).charge pool d)
    (reaches : Reaches .clear c walk world.memory out) :
    Inv ⟨out.2, update world.calls t (after out.1), world.live⟩ := by
  have mine : span c walk.lo walk.hi ⊆ (world.calls t).holds pool := by
    rw [holds]
    exact span_subset c sound.hi_le
  have shrinks : span c walk.lo walk.size \ span c walk.lo walk.hi = span c walk.hi walk.size :=
    span_diff c sound.lo_lt.le
  cases reaches with
  | refused busy =>
    exact absurd (mine.trans (inv.owned.subset (.inl t))) (busy rfl)
  | read sound' size lo =>
    obtain ⟨good, held, charge⟩ := more _ sound'
    refine inv.quiet t good ?_ charge
    rw [held, holds, size, lo]
  | part does avail sound' size lo =>
    obtain ⟨good, held, charge⟩ := more _ sound'
    refine inv.moves t good does avail ?_ (fun _ => mine) charge
    rw [held, holds, shrinks, size, lo]
  | whole does avail hi => ?_
  obtain ⟨good, held, charge⟩ := done
  refine inv.moves t good does avail ?_ (fun _ => mine) charge
  simp only
  rw [held, holds, shrinks, hi, span_empty c le_rfl]

theorem Inv.undo (inv : Inv world) (at_undo : world.calls t = .undo r c walk)
    {out : Walk.Outcome × Memory pool.count} (reaches : Reaches .clear c walk world.memory out) :
    Inv ⟨out.2, update world.calls t (afterUndo pool r c out.1), world.live⟩ := by
  obtain ⟨inside, sound⟩ : (Call.undo r c walk).Good pool := at_undo ▸ inv.good t
  refine inv.clearing sound (by rw [at_undo, Call.holds]) ?_ ?_ reaches
  · exact fun walk' sound' => ⟨⟨inside, sound'⟩, rfl, fun _ => by rw [at_undo]; rfl⟩
  exact ⟨inside.toAccepted, rfl, fun _ => by rw [at_undo]; rfl⟩

theorem Inv.clear (inv : Inv world) (at_clear : world.calls t = .clear r c walk)
    {out : Walk.Outcome × Memory pool.count} (reaches : Reaches .clear c walk world.memory out) :
    Inv ⟨out.2, update world.calls t (afterClear pool r c out.1), world.live⟩ := by
  obtain ⟨inside, sound⟩ : (Call.clear r c walk).Good pool := at_clear ▸ inv.good t
  refine inv.clearing sound (by rw [at_clear, Call.holds]) ?_ ?_ reaches
  · exact fun walk' sound' => ⟨⟨inside, sound'⟩, rfl, fun _ => by rw [at_clear]; rfl⟩
  exact ⟨inside, rfl, fun _ => by rw [at_clear]; rfl⟩

theorem avail_addAvail (memory : Memory pool.count) (c d : Fin pool.count) (amount : Int) :
    (memory.addAvail c amount).avail d =
      if d = c then toInt (memory.avail d + amount) else memory.avail d := by
  by_cases here : d = c
  · subst here
    simp [Memory.addAvail]
  simp [Memory.addAvail, here]

omit [Fintype Context] in
/-- The owners after a step of a call that makes or takes one allocation. -/
theorem World.holds_exchange (world : World pool Context) (memory : Memory pool.count) (t : Context)
    (call : Call pool.count) {live : List Allocation} (a : Allocation)
    (others : ∀ b, b ≠ a → (b ∈ live ↔ b ∈ world.live)) :
    World.holds ⟨memory, update world.calls t call, live⟩ =
      update (update world.holds (.inl t) (call.holds pool)) (.inr a)
        (if a ∈ live then a.holds pool else ∅) := by
  funext owner
  cases owner with
  | inl u =>
    by_cases here : u = t
    · subst here
      simp [World.holds]
    simp [World.holds, here]
  | inr b => ?_
  by_cases here : b = a
  · subst here
    simp [World.holds]
  simp [World.holds, here, others b here]

theorem good_update (inv : Inv world) (good : call.Good pool) (u : Context) :
    (update world.calls t call u).Good pool := by
  by_cases here : u = t
  · subst here
    simpa using good
  simpa [here] using inv.good u

/-- The range of a call becomes an allocation. -/
theorem Inv.sub (sound : pool.Sound) (inv : Inv world) (at_sub : world.calls t = .sub r c) :
    Inv ⟨world.memory.addAvail c (-toInt (r.nbits * 2 ^ pool.order)), update world.calls t .idle,
        ⟨addrOf pool r c, r.size⟩ :: world.live⟩ := by
  have inside : r.Inside pool c := by
    have good := inv.good t
    rwa [at_sub] at good
  have placed := inside.placed sound
  generalize same : (⟨addrOf pool r c, r.size⟩ : Allocation) = a at placed
  have size : a.size = r.size := same ▸ rfl
  have held : world.holds (.inl t) = a.holds pool := by
    rw [World.holds_inl, at_sub, placed.holds_eq, size]
    rfl
  have new : a ∉ world.live := by
    intro old
    have one : (c, r.startBit.toNat) ∈ world.holds (.inl t) := held ▸ placed.nonempty
    have two : (c, r.startBit.toNat) ∈ world.holds (.inr a) := by
      rw [World.holds, if_pos old]
      exact placed.nonempty
    cases inv.owned.unique one two
  refine ⟨good_update inv trivial, ?_, nodup_cons.mpr ⟨new, inv.nodup⟩, ?_, fun d => ?_⟩
  · intro b mem
    rcases mem_cons.mp mem with rfl | old
    · exact ⟨c, _, placed⟩
    exact inv.placed b old
  · rw [World.holds_exchange world _ t .idle a (by simp +contextual), if_pos (.head _), ← held]
    exact inv.owned.hand Sum.inl_ne_inr (if_neg new)
  have charge : a.charge pool d = if d = c then r.nbits * 2 ^ pool.order else 0 := by
    rw [Allocation.charge, placed.chunk, size, inside.nbits]
    simp [eq_comm]
  have spent : World.spent ⟨world.memory.addAvail c (-toInt (r.nbits * 2 ^ pool.order)),
      update world.calls t .idle, a :: world.live⟩ d = world.spent d + a.charge pool d := by
    have base := world.spent_update t .idle world.memory d
    rw [at_sub] at base
    simp only [World.spent, Call.charge, map_cons, sum_cons] at base ⊢
    linarith
  rw [spent, charge, avail_addAvail, inv.avail d]
  split
  next => rw [toInt_sub_toInt, sub_eq_add_neg (toInt _), toInt_toInt_add, ← sub_eq_add_neg, sub_sub]
  next => rw [add_zero]

theorem Inv.add (inv : Inv world) (at_add : world.calls t = .add r c) :
    Inv ⟨world.memory.addAvail c (toInt (r.nbits * 2 ^ pool.order)), update world.calls t .idle,
      world.live⟩ := by
  have nothing : world.holds (.inl t) = Call.holds pool .idle := by
    rw [World.holds_inl, at_add]
    rfl
  refine inv.call t trivial ?_ fun d => ?_
  · rw [← nothing, update_eq_self]
    exact inv.owned
  rw [at_add, avail_addAvail]
  split
  next here => simp [Call.charge, here, toInt_add_toInt]
  next away => simpa [Call.charge, Ne.symm away] using inv.avail_same d

theorem genPoolFree_clear {start nr : Nat} (chunk : chunkOf pool addr = some c)
    (fine : ¬(pool.chunk c).endAddr < (addr + size + (2 ^ 64 - 1)) % 2 ^ 64)
    (startBit : startBitOf pool addr c = start) (nbits : pool.nbits size = nr) :
    genPoolFree pool addr size = afterClear pool ⟨size, nr, start⟩ c (Walk.start start nr) := by
  have negative : ¬((start : Int) < 0 ∨ (nr : Int) < 0) := by omega
  rw [genPoolFree, chunk]
  simp only
  rw [if_neg fine, startBit, nbits, if_neg negative]
  rfl

/-- What `gen_pool_free` does first with an allocation in its place. -/
theorem genPoolFree_eq (sound : pool.Sound) {a : Allocation} (placed : a.Placed pool c start) :
    ∃ walk, genPoolFree pool a.addr a.size = .clear (a.request pool c) c walk ∧ walk.Sound .clear ∧
      walk.lo = start ∧ walk.size = start + pool.granules a.size := by
  have inside := placed.inside
  have bytes := inside.bytes sound
  have enough := pool.le_granules a.size
  have start_eq : (a.request pool c).startBit.toNat = start := by
    simp [Allocation.request, placed.startBit_eq]
  have size_eq : (a.request pool c).size = a.size := by simp only [Allocation.request]
  rw [start_eq, size_eq, ← placed.addr] at bytes
  have some := placed.some
  have fine : ¬(pool.chunk c).endAddr < (a.addr + a.size + (2 ^ 64 - 1)) % 2 ^ 64 := by omega
  have pos : 0 < pool.granules a.size := Pool.granules_pos some
  rcases Walk.start_sound .clear start (pool.granules a.size) with
    ⟨none, -⟩ | ⟨walk, more, order, low, high⟩
  · omega
  refine ⟨walk, ?_, order, low, high⟩
  rw [genPoolFree_clear placed.chunk fine placed.startBit_eq placed.fits.nbits_eq, more,
    Allocation.request, placed.startBit_eq, placed.fits.nbits_eq, afterClear]

/-- An allocation becomes the range of a call that clears it. -/
theorem Inv.free (sound : pool.Sound) (inv : Inv world) (at_idle : world.calls t = .idle)
    (mem : a ∈ world.live) :
    Inv ⟨world.memory, update world.calls t (genPoolFree pool a.addr a.size),
      world.live.erase a⟩ := by
  obtain ⟨c, start, placed⟩ := inv.placed a mem
  obtain ⟨walk, clear, order, low, high⟩ := genPoolFree_eq sound placed
  have inside := placed.inside
  rw [clear]
  have held : (Call.clear (a.request pool c) c walk).holds pool = world.holds (.inr a) := by
    rw [World.holds, if_pos mem, placed.holds_eq, Call.holds, low, high]
  have gone : a ∉ world.live.erase a := inv.nodup.not_mem_erase
  refine ⟨good_update inv ⟨inside, order⟩, fun b old => inv.placed b (mem_of_mem_erase old),
    inv.nodup.erase a, ?_, fun d => ?_⟩
  · rw [World.holds_exchange world _ t _ a fun b other => mem_erase_of_ne other, if_neg gone, held,
      update_comm Sum.inl_ne_inr]
    refine inv.owned.hand Sum.inr_ne_inl ?_
    rw [World.holds_inl, at_idle]
    rfl
  have charge : (Call.clear (a.request pool c) c walk).charge pool d = a.charge pool d := by
    rw [Call.charge, Allocation.charge, placed.chunk, inside.nbits]
    simp [Allocation.request]
  have spent : World.spent ⟨world.memory,
      update world.calls t (Call.clear (a.request pool c) c walk), world.live.erase a⟩ d =
      world.spent d := by
    have base := world.spent_update t (Call.clear (a.request pool c) c walk) world.memory d
    have erased := sum_map_erase (Allocation.charge pool d) mem
    rw [at_idle, charge] at base
    simp only [World.spent] at base ⊢
    have idle : Call.charge pool d .idle = 0 := rfl
    linarith
  rw [spent]
  exact inv.avail d

theorem Inv.search (sound : pool.Sound) (inv : Inv world) (at_search : world.calls t = .search r c)
    (views : Nat → Nat → Nat → Bool)
    (found : pool.algo.find views (toUlong (pool.endBit c)) (toUlong r.startBit) (toUint r.nbits) =
      place) :
    Inv ⟨world.memory, update world.calls t (tryPlace pool { r with startBit := toInt place } c),
      world.live⟩ := by
  have accepted : r.Accepted pool := by
    have good := inv.good t
    rwa [at_search] at good
  obtain ⟨value, range⟩ := accepted.place sound c views place found
  have accepted' : Request.Accepted pool { r with startBit := (place : Int) } :=
    ⟨accepted.some, accepted.fits, accepted.nbits⟩
  have pos : 0 < pool.granules r.size := Pool.granules_pos accepted.some
  have negative : ¬((place : Int) < 0 ∨ r.nbits < 0) := by
    rw [accepted.nbits]
    omega
  have quiet : ∀ call : Call pool.count, call.Good pool → call.holds pool = ∅ →
      (∀ d, call.charge pool d = 0) →
      Inv ⟨world.memory, update world.calls t call, world.live⟩ := by
    intro call good holds charge
    refine inv.quiet t good ?_ fun d => ?_
    · rw [holds, at_search]
      rfl
    rw [charge d, at_search]
    rfl
  rw [value, tryPlace, sound.endBit_eq]
  simp only
  split
  next => exact quiet _ accepted' rfl fun _ => rfl
  next within =>
    have high : place + pool.granules r.size ≤ pool.room c := by omega
    rw [accepted.toNat, Int.toNat_natCast]
    rcases Walk.start_sound .set place (pool.granules r.size) with
      ⟨none, -⟩ | ⟨walk, more, order, low, top⟩
    · omega
    rw [more]
    refine quiet _ ⟨⟨accepted', Int.natCast_nonneg _, high⟩, order, low.ge, top⟩ ?_ fun _ => rfl
    exact span_empty c low.le

theorem Inv.scan (inv : Inv world) {next : Nat} (at_scan : world.calls t = .scan r next)
    {call : Call pool.count}
    (after : (∃ next', call = .scan r next') ∨ (∃ c, call = .search r c) ∨ call = .idle) :
    Inv ⟨world.memory, update world.calls t call, world.live⟩ := by
  have accepted : r.Accepted pool := by
    have good := inv.good t
    rwa [at_scan] at good
  rcases after with ⟨next', rfl⟩ | ⟨c, rfl⟩ | rfl
  · exact inv.quiet t accepted (by rw [at_scan]; rfl) fun _ => by rw [at_scan]; rfl
  · exact inv.quiet t accepted (by rw [at_scan]; rfl) fun _ => by rw [at_scan]; rfl
  exact inv.quiet t trivial (by rw [at_scan]; rfl) fun _ => by rw [at_scan]; rfl

/-- Any step of a call keeps the invariant. -/
theorem Inv.advance (sound : pool.Sound) (inv : Inv world) {views : Nat → Nat → Nat → Bool}
    {call : Call pool.count}
    (moved : advance pool views world.memory (world.calls t) = some (call, memory, returned)) :
    Inv ⟨memory, update world.calls t call, returned.toList ++ world.live⟩ := by
  generalize state : world.calls t = before at moved
  have good : before.Good pool := state ▸ inv.good t
  cases before with
  | idle => cases moved
  | bug => cases moved
  | wild => cases moved
  | scan r next =>
    simp only [Genalloc.advance] at moved
    split at moved
    · split at moved
      · cases moved
        exact inv.scan state (.inl ⟨_, rfl⟩)
      cases moved
      exact inv.scan state (.inr (.inl ⟨_, rfl⟩))
    cases moved
    exact inv.scan state (.inr (.inr rfl))
  | search r c =>
    simp only [Genalloc.advance, some.injEq, Prod.mk.injEq] at moved
    obtain ⟨rfl, rfl, rfl⟩ := moved
    exact inv.search sound state views rfl
  | set r c walk =>
    simp only [Genalloc.advance, some.injEq, Prod.mk.injEq] at moved
    obtain ⟨rfl, rfl, rfl⟩ := moved
    exact inv.set state (world.memory.access_reaches c good.2.1)
  | undo r c walk =>
    simp only [Genalloc.advance, some.injEq, Prod.mk.injEq] at moved
    obtain ⟨rfl, rfl, rfl⟩ := moved
    exact inv.undo state (world.memory.access_reaches c good.2)
  | clear r c walk =>
    simp only [Genalloc.advance, some.injEq, Prod.mk.injEq] at moved
    obtain ⟨rfl, rfl, rfl⟩ := moved
    exact inv.clear state (world.memory.access_reaches c good.2)
  | sub r c =>
    have inside : r.Inside pool c := good
    have addr := inside.addr sound
    have start := sound.start c
    have some : addrOf pool r c ≠ 0 := by omega
    simp only [Genalloc.advance, if_neg some, Option.some.injEq, Prod.mk.injEq] at moved
    obtain ⟨rfl, rfl, rfl⟩ := moved
    exact inv.sub sound state
  | add r c => ?_
  simp only [Genalloc.advance, some.injEq, Prod.mk.injEq] at moved
  obtain ⟨rfl, rfl, rfl⟩ := moved
  exact inv.add state

theorem Inv.alloc (inv : Inv world) (at_idle : world.calls t = .idle) (fits : pool.Fits size) :
    Inv ⟨world.memory, update world.calls t (genPoolAlloc pool size), world.live⟩ := by
  rw [genPoolAlloc]
  split
  · exact inv.quiet t trivial (by rw [at_idle]) fun _ => by rw [at_idle]
  next some =>
    exact inv.quiet t (fits.accepted (Nat.pos_of_ne_zero some)) (by rw [at_idle]; rfl) fun _ => by
      rw [at_idle]; rfl

theorem Inv.step (sound : pool.Sound) (inv : Inv world)
    (fits : ∀ size, event = .alloc size → pool.Fits size) {after : World pool Context}
    (moved : step world t event = some after) : Inv after := by
  cases event with
  | alloc size =>
    simp only [Genalloc.step] at moved
    split at moved
    next idle =>
      cases moved
      exact inv.alloc idle (fits size rfl)
    next => cases moved
  | free a =>
    simp only [Genalloc.step] at moved
    split at moved
    next idle =>
      cases moved
      exact inv.free sound idle.1 idle.2
    next => cases moved
  | run views => ?_
  obtain ⟨⟨call, memory, returned⟩, done, rfl⟩ := map_eq_some_iff.mp moved
  exact inv.advance sound done

omit [DecidableEq Context] in
theorem Inv.fresh (pool : Pool) : Inv (World.fresh pool Context) where
  good := fun _ => trivial
  placed := by simp [World.fresh]
  nodup := nodup_nil
  owned := by
    constructor
    · intro cell
      simp [World.fresh, Pool.fresh, Memory.taken, World.holds, Call.holds]
    intro first second _
    cases first <;> simp [World.holds, World.fresh, Call.holds]
  avail := by
    intro c
    simp [World.fresh, Pool.fresh, World.spent, Call.charge]

end

/-- The worlds that steps of any contexts lead to, with requests of the allowed sizes. -/
inductive Reached (pool : Pool) (Context : Type) [DecidableEq Context] (allowed : Nat → Prop) :
    World pool Context → Prop
  | fresh : Reached pool Context allowed (World.fresh pool Context)
  | step {world after : World pool Context} (t : Context) (event : Event) :
      Reached pool Context allowed world → (∀ size, event = .alloc size → allowed size) →
      step world t event = some after → Reached pool Context allowed after

theorem Reached.inv [Fintype Context] (sound : pool.Sound)
    (there : Reached pool Context pool.Fits world) : Inv world := by
  induction there with
  | fresh => exact Inv.fresh pool
  | step t event _ fits moved ih => exact ih.step sound fits moved

end TinyKernel.Genalloc
