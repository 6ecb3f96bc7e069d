import Mathlib.Algebra.Order.Ring.Int
import Mathlib.Algebra.Order.Ring.Nat
import Mathlib.Algebra.Order.Sub.Basic
import Mathlib.Data.Nat.SuccPred
import TinyKernel.Filter.Classic
import TinyKernel.Lib.Results

/-! A filter that is accepted reads no cell of its scratch memory before it has written it. -/

namespace TinyKernel.Filter

open Lib List
open BitVec hiding getElem?_eq_getElem

section

/-- The instructions that a jump leads to. -/
inductive Jumps (pc : Nat) (f : SockFilter) : Nat → Prop
  | always : f.code = jaCode → Jumps pc f (pc + 1 + f.k.toNat)
  | taken : f.code ∈ condCodes → Jumps pc f (pc + 1 + f.jt.toNat)
  | other : f.code ∈ condCodes → Jumps pc f (pc + 1 + f.jf.toNat)

/-- The instruction is followed by the next one. -/
def Falls (f : SockFilter) : Prop := f.code ≠ jaCode ∧ f.code ∉ condCodes ∧ f.code ∉ retCodes

/-- The instruction that may come next, with any outcome of a comparison. -/
def Next (pc : Nat) (f : SockFilter) (pc' : Nat) : Prop := Jumps pc f pc' ∨ Falls f ∧ pc' = pc + 1

/-- A path of execution to an instruction, with the instructions before it, the last one first. -/
inductive Path (filter : List SockFilter) : List Nat → Nat → Prop
  | start : Path filter [] 0
  | step {before : List Nat} {pc pc' : Nat} {f : SockFilter} : Path filter before pc →
    filter[pc]? = some f →
      Next pc f pc' → Path filter (pc :: before) pc'

/-- One of the instructions stores to the cell. -/
def Stored (filter : List SockFilter) (before : List Nat) (k : Nat) : Prop :=
  ∃ pc ∈ before, ∃ f, filter[pc]? = some f ∧ f.code ∈ storeCodes ∧ f.k.toNat = k

/-- The cells of a mask are stored to. -/
def Within (filter : List SockFilter) (mask : BitVec 16) (before : List Nat) : Prop :=
  ∀ k, mask.getLsbD k = true → Stored filter before k

variable {filter : List SockFilter} {before : List Nat} {mask mask' : BitVec 16} {pc pc' : Nat}
    {f : SockFilter}

theorem Next.forward (next : Next pc f pc') : pc < pc' := by
  rcases next with jumps | ⟨-, rfl⟩
  · cases jumps <;> omega
  omega

theorem Within.and_left (within : Within filter mask before) :
    Within filter (mask &&& mask') before := by
  intro k set
  rw [getLsbD_and, Bool.and_eq_true] at set
  exact within k set.1

theorem Within.and_right (within : Within filter mask' before) :
    Within filter (mask &&& mask') before := by
  intro k set
  rw [getLsbD_and, Bool.and_eq_true] at set
  exact within k set.2

theorem Within.cons (within : Within filter mask before) : Within filter mask (pc :: before) := by
  intro k set
  obtain ⟨place, mem, stored⟩ := within k set
  exact ⟨place, .tail _ mem, stored⟩

theorem cellBit_iff (small : f.k.toNat < 16) (j : Nat) :
    (cellBit f.k).getLsbD j = true ↔ j = f.k.toNat := by
  rw [cellBit, getLsbD_shiftLeft]
  grind

/-- A store adds its cell. -/
theorem Within.store (within : Within filter mask before) (found : filter[pc]? = some f)
    (stores : f.code ∈ storeCodes) (small : f.k.toNat < 16) :
    Within filter (mask ||| cellBit f.k) (pc :: before) := by
  intro k set
  rw [getLsbD_or, Bool.or_eq_true] at set
  rcases set with old | new
  · exact within.cons k old
  obtain rfl := (cellBit_iff small k).mp new
  exact ⟨pc, .head _, f, found, stores, rfl⟩

end

section

variable {filter rest : List SockFilter} {masks masks' : List (BitVec 16)}
    {memvalid memvalid' : BitVec 16} {pc : Nat}
  {f : SockFilter}

/-- What the masks say at an instruction, of all paths through the instructions before it. -/
structure Marked (filter : List SockFilter) (pc : Nat) (masks : List (BitVec 16))
    (memvalid : BitVec 16) : Prop where
  length : masks.length = filter.length
  jumped : ∀ before p f target mask, Path filter before p → filter[p]? = some f → p < pc →
    pc ≤ target → Jumps p f target → masks[target]? = some mask → Within filter mask (p :: before)
  fallen : ∀ before p f, Path filter before p → filter[p]? = some f → p + 1 = pc → Falls f →
    Within filter memvalid (p :: before)
  start : pc = 0 → memvalid = 0

/-- The mask at an instruction stands for cells that are stored to on every path to it. -/
theorem Marked.within (marked : Marked filter pc masks memvalid) {mask : BitVec 16}
    (here : masks[pc]? = some mask) {before : List Nat} (path : Path filter before pc) :
    Within filter (memvalid &&& mask) before := by
  cases path with
  | start =>
    rw [marked.start rfl]
    intro k set
    simp at set
  | step path found next => ?_
  rcases next with jumps | ⟨falls, same⟩
  · have forward := Next.forward (.inl jumps)
    exact (marked.jumped _ _ _ _ _ path found forward le_rfl jumps here).and_right
  exact (marked.fallen _ _ _ path found same.symm falls).and_left

/-- Some masks have no bits that others do not have. -/
def Below (masks' masks : List (BitVec 16)) : Prop :=
  masks'.length = masks.length ∧ ∀ (i : Nat) (mask' : BitVec 16), masks'[i]? = some mask' →
    ∃ mask : BitVec 16, masks[i]? = some mask ∧ ∀ k, mask'.getLsbD k = true → mask.getLsbD k = true

theorem below_refl : Below masks masks := ⟨rfl, fun _ mask same => ⟨mask, same, fun _ => id⟩⟩

theorem Below.trans (first : Below masks'' masks') (second : Below masks' masks) :
    Below masks'' masks := by
  refine ⟨first.1.trans second.1, fun i mask'' found => ?_⟩
  obtain ⟨mask', found', less⟩ := first.2 i mask'' found
  obtain ⟨mask, found, less'⟩ := second.2 i mask' found'
  exact ⟨mask, found, fun k set => less' k (less k set)⟩

theorem andMask_spec (done : andMask masks i memvalid = .ok masks') :
    Below masks' masks ∧
      ∀ mask', masks'[i]? = some mask' →
        ∀ k, mask'.getLsbD k = true → memvalid.getLsbD k = true := by
  rw [andMask] at done
  cases found : masks[i]? with
  | none =>
    rw [found] at done
    cases done
  | some mask => ?_
  rw [found] at done
  cases done
  obtain ⟨bound, -⟩ := List.getElem?_eq_some_iff.mp found
  refine ⟨⟨List.length_set, fun j mask' found' => ?_⟩, fun mask' found' k set => ?_⟩
  · by_cases same : i = j
    · subst same
      rw [getElem?_set_self bound] at found'
      cases found'
      refine ⟨mask, found, fun k set => ?_⟩
      rw [getLsbD_and, Bool.and_eq_true] at set
      exact set.1
    rw [getElem?_set_ne same] at found'
    exact ⟨mask', found', fun _ => id⟩
  rw [getElem?_set_self bound] at found'
  cases found'
  rw [getLsbD_and, Bool.and_eq_true] at set
  exact set.2

/-- One instruction further: the masks of its targets are cut down to what holds at it. -/
theorem Marked.advance (marked : Marked filter pc masks memvalid) (found : filter[pc]? = some f)
    {here : BitVec 16} (within : ∀ before, Path filter before pc → Within filter here before)
    (below : Below masks' masks)
    (targets : ∀ target, Jumps pc f target →
      ∀ mask', masks'[target]? = some mask' → ∀ k, mask'.getLsbD k = true → here.getLsbD k = true)
    (falls : Falls f → ∀ before, Path filter before pc → Within filter memvalid' (pc :: before)) :
    Marked filter (pc + 1) masks' memvalid' where
  length := below.1.trans marked.length
  jumped := by
    intro before p g target mask' path found' less le jumps mask_eq
    rcases Nat.lt_or_eq_of_le (Nat.le_of_lt_succ less) with prev | rfl
    · obtain ⟨mask, found'', less'⟩ := below.2 target mask' mask_eq
      have old := marked.jumped before p g target mask path found' prev (by omega) jumps found''
      exact fun k set => old k (less' k set)
    rw [found] at found'
    cases found'
    exact fun k set => (within before path).cons k (targets target jumps mask' mask_eq k set)
  fallen := by
    intro before p g path found' same isFall
    obtain rfl : p = pc := by omega
    rw [found] at found'
    cases found'
    exact falls isFall before path
  start := by omega

theorem not_jumps_of_cell (cell : f.code ∈ loadCodes ++ storeCodes) :
    ∀ target, ¬Jumps pc f target := by
  intro target jumps
  have codes : ((loadCodes ++ storeCodes).all fun code => code ≠ jaCode ∧ code ∉ condCodes) =
      true := by
    decide +kernel
  have apart := of_decide_eq_true (all_eq_true.mp codes _ cell)
  cases jumps with
  | always ja => exact apart.1 ja
  | taken cond => exact apart.2 cond
  | other cond => exact apart.2 cond

/-- A step of the loop keeps the masks right, and a load that passes it is one of a cell that is
stored to. -/
theorem checkCell_marked {mask : BitVec 16} (marked : Marked filter pc masks memvalid)
    (here : masks[pc]? = some mask) (found : filter[pc]? = some f)
    (small : f.code ∈ loadCodes ++ storeCodes → f.k.toNat < bpfMemwords)
    (done : checkCell pc f masks (memvalid &&& mask) = .ok (masks', memvalid')) :
    Marked filter (pc + 1) masks' memvalid' ∧
      (f.code ∈ loadCodes → ∀ before, Path filter before pc → Stored filter before f.k.toNat) := by
  have within (before : List Nat) (path : Path filter before pc) := marked.within here path
  rw [checkCell] at done
  split at done
  · next stores =>
    cases done
    have codes : (storeCodes.all fun code => code ∉ loadCodes) = true := by decide +kernel
    have apart := of_decide_eq_true (all_eq_true.mp codes _ stores)
    refine ⟨marked.advance found within below_refl ?_ ?_, fun loads => absurd loads apart⟩
    · exact fun target jumps => absurd jumps (not_jumps_of_cell (mem_append_right _ stores) target)
    exact fun _ before path => (within before path).store found stores
      (small (mem_append_right _ stores))
  split at done
  · next loads =>
    split at done
    · cases done
    rename_i valid
    cases done
    refine ⟨marked.advance found within below_refl ?_ ?_, fun _ before path => ?_⟩
    · exact fun target jumps => absurd jumps (not_jumps_of_cell (mem_append_left _ loads) target)
    · exact fun _ before path => (within before path).cons
    apply within before path
    by_contra unset
    refine valid (eq_of_getLsbD_eq fun j _ => ?_)
    rw [getLsbD_and]
    by_cases same : j = f.k.toNat
    · rw [same, Bool.eq_false_of_not_eq_true unset]
      simp
    have other := mt (cellBit_iff (small (mem_append_left _ loads)) j).mp same
    simp [other]
  rename_i notLoad
  split at done
  · next ja =>
    obtain ⟨masks'', anded, rest⟩ := bind_eq_ok.mp done
    cases rest
    obtain ⟨below, target⟩ := andMask_spec anded
    refine ⟨marked.advance found within below ?_ fun isFall => absurd ja isFall.1,
      fun loads => absurd loads notLoad⟩
    have apart : jaCode ∉ condCodes := by decide +kernel
    intro place jumps
    cases jumps with
    | always => exact target
    | taken cond => exact absurd (ja ▸ cond) apart
    | other cond => exact absurd (ja ▸ cond) apart
  rename_i notJa
  split at done
  · next cond =>
    obtain ⟨first, anded, done⟩ := bind_eq_ok.mp done
    obtain ⟨second, anded', rest⟩ := bind_eq_ok.mp done
    cases rest
    obtain ⟨below, target⟩ := andMask_spec anded
    obtain ⟨below', target'⟩ := andMask_spec anded'
    refine ⟨marked.advance found within (below'.trans below) ?_ fun isFall => absurd cond
        isFall.2.1, fun loads => absurd loads notLoad⟩
    intro place jumps
    cases jumps with
    | always ja => exact absurd ja notJa
    | taken =>
      intro mask' found' k set
      obtain ⟨mask, found'', less⟩ := below'.2 _ mask' found'
      exact target mask found'' k (less k set)
    | other => exact target'
  rename_i notCond
  cases done
  refine ⟨marked.advance found within below_refl ?_ ?_, fun loads => absurd loads notLoad⟩
  · intro place jumps
    cases jumps with
    | always ja => exact absurd ja notJa
    | taken cond => exact absurd cond notCond
    | other cond => exact absurd cond notCond
  exact fun _ before path => (within before path).cons

/-- The cells that the first loop has checked are cells of the memory. -/
theorem checkCode_cell (checked : checkCode flen pc f = true)
    (cell : f.code ∈ loadCodes ++ storeCodes) : f.k.toNat < bpfMemwords := by
  have codes : ((loadCodes ++ storeCodes).all fun code =>
      code ∉ [bpfAlu ||| bpfDiv ||| bpfK, bpfAlu ||| bpfMod ||| bpfK] ∧
      code ∉ [bpfAlu ||| bpfLsh ||| bpfK, bpfAlu ||| bpfRsh ||| bpfK]) = true := by decide +kernel
  obtain ⟨divide, shift⟩ := of_decide_eq_true (all_eq_true.mp codes _ cell)
  rw [checkCode] at checked
  split at checked
  · cases checked
  exact of_decide_eq_true checked

/-- The targets that the first loop has checked are instructions of the filter. -/
theorem checkCode_jumps (checked : checkCode flen pc f = true) (jumps : Jumps pc f target) :
    target < flen := by
  have codes : ((jaCode :: condCodes).all fun code =>
      code ∉ [bpfAlu ||| bpfDiv ||| bpfK, bpfAlu ||| bpfMod ||| bpfK] ∧
      code ∉ [bpfAlu ||| bpfLsh ||| bpfK, bpfAlu ||| bpfRsh ||| bpfK] ∧
        code ∉ loadCodes ++ storeCodes) = true := by
    decide +kernel
  have other : (condCodes.all fun code => code ≠ jaCode) = true := by decide +kernel
  have mem : f.code ∈ jaCode :: condCodes := by
    cases jumps with
    | always ja => exact ja ▸ .head _
    | taken cond => exact .tail _ cond
    | other cond => exact .tail _ cond
  obtain ⟨divide, shift, cell⟩ := of_decide_eq_true (all_eq_true.mp codes _ mem)
  rw [checkCode] at checked
  split at checked
  · cases checked
  cases jumps with
  | always ja =>
    rw [if_pos ja] at checked
    have := of_decide_eq_true checked
    omega
  | taken cond =>
    rw [if_neg (of_decide_eq_true (all_eq_true.mp other _ cond)), if_pos cond] at checked
    have := of_decide_eq_true checked
    omega
  | other cond => ?_
  rw [if_neg (of_decide_eq_true (all_eq_true.mp other _ cond)), if_pos cond] at checked
  have := of_decide_eq_true checked
  omega

theorem checkCodes_at {flen : Nat} {start : Nat} (checked : checkCodes flen start filter = true)
    (found : filter[pc]? = some f) : checkCode flen (start + pc) f = true := by
  induction filter generalizing start pc with
  | nil => simp at found
  | cons g rest ih => ?_
  rw [checkCodes, Bool.and_eq_true] at checked
  cases pc with
  | zero =>
    cases found
    exact checked.1
  | succ pc => ?_
  have later := ih checked.2 found
  rwa [Nat.add_assoc, Nat.add_comm 1 pc] at later

/-- The whole loop, from an instruction on: every load behind it is of a cell that is stored to. -/
theorem checkCells_loads (split : filter = front ++ rest) (here : pc = front.length)
    (checked : checkCodes filter.length 0 filter = true) (marked : Marked filter pc masks memvalid)
    (done : checkCells pc rest masks memvalid = .ok ()) {place : Nat} (behind : pc ≤ place)
    (path : Path filter before place) (found : filter[place]? = some f)
    (loads : f.code ∈ loadCodes) : Stored filter before f.k.toNat := by
  induction rest generalizing front pc masks memvalid with
  | nil =>
    obtain ⟨bound, -⟩ := List.getElem?_eq_some_iff.mp found
    simp only [split, List.append_nil] at bound
    omega
  | cons g rest ih => ?_
  rw [checkCells] at done
  cases mask_eq : masks[pc]? with
  | none =>
    rw [mask_eq] at done
    cases done
  | some mask => ?_
  rw [mask_eq] at done
  obtain ⟨⟨masks', memvalid'⟩, one, others⟩ := bind_eq_ok.mp done
  have first : filter[pc]? = some g := by rw [split, here]; simp
  have small := checkCode_cell (checkCodes_at checked first)
  obtain ⟨marked', stored⟩ := checkCell_marked marked mask_eq first small one
  rcases Nat.lt_or_eq_of_le behind with later | rfl
  · refine ih (by simpa using split : filter = front ++ [g] ++ rest) ?_ marked' others later
    rw [length_append, length_singleton, here]
  rw [first] at found
  cases found
  exact stored loads before path

end

section

variable {filter : List SockFilter}

theorem marked_start : Marked filter 0 (replicate filter.length (allOnes 16)) 0 where
  length := length_replicate
  jumped := by
    intro _ _ _ _ _ _ _ less
    omega
  fallen := by
    intro _ _ _ _ _ same
    omega
  start := fun _ => rfl

variable {masks : List (BitVec 16)}

theorem andMask_inside (memvalid : BitVec 16) (bound : i < masks.length) :
    ∃ masks', andMask masks i memvalid = .ok masks' ∧ masks'.length = masks.length := by
  rw [andMask, getElem?_eq_getElem bound]
  exact ⟨_, rfl, length_set⟩

/-- A step of the loop whose targets are in the filter stays in `masks`. -/
theorem checkCell_inside (memvalid : BitVec 16)
    (targets : ∀ target, Jumps pc f target → target < masks.length) :
    checkCell pc f masks memvalid = .error .einval ∨
      ∃ masks' memvalid', checkCell pc f masks memvalid = .ok (masks', memvalid') ∧
        masks'.length = masks.length := by
  rw [checkCell]
  split
  · exact .inr ⟨_, _, rfl, rfl⟩
  split
  · split
    · exact .inl rfl
    exact .inr ⟨_, _, rfl, rfl⟩
  split
  · next ja =>
    obtain ⟨masks', done, length⟩ := andMask_inside memvalid (targets _ (.always ja))
    rw [done]
    exact .inr ⟨_, _, rfl, length⟩
  split
  · next cond =>
    obtain ⟨masks', done, length⟩ := andMask_inside memvalid (targets _ (.taken cond))
    obtain ⟨masks'', done', length'⟩ := andMask_inside memvalid (length ▸ targets _ (.other cond))
    rw [done]
    simp only [bind, Except.bind, done']
    exact .inr ⟨_, _, rfl, length'.trans length⟩
  exact .inr ⟨_, _, rfl, rfl⟩

theorem checkCells_inside {pc : Nat} (split : filter = front ++ rest) (here : pc = front.length)
    (checked : checkCodes filter.length 0 filter = true) (length : masks.length = filter.length)
    (i : Nat) : checkCells pc rest masks memvalid ≠ .error (.outside i) := by
  induction rest generalizing front pc masks memvalid with
  | nil => simp [checkCells]
  | cons f rest ih => ?_
  have bound : pc < masks.length := by
    rw [length, split, here]
    simp
  have found : filter[pc]? = some f := by rw [split, here]; simp
  have targets (target : Nat) (jumps : Jumps pc f target) : target < masks.length := by
    have code : checkCode filter.length pc f = true := Nat.zero_add pc ▸ checkCodes_at checked found
    rw [length]
    exact checkCode_jumps code jumps
  rw [checkCells, getElem?_eq_getElem bound]
  rcases checkCell_inside (memvalid &&& masks[pc]) targets with bad | ⟨masks', memvalid', done,
    length'⟩
  · simp only [bad, bind, Except.bind]
    simp
  simp only [done, bind, Except.bind]
  refine ih (by simpa using split : filter = front ++ [f] ++ rest) ?_ (length'.trans length)
  rw [length_append, length_singleton, here]

/-- On every path through an accepted filter, a load from a cell comes after a store to it; and no
index into `masks` is behind its end, whatever the filter. -/
theorem classic_loads_are_stored (filter : List SockFilter) (alloc : Bool) :
    (∀ i, bpfCheckClassic filter alloc ≠ .error (.outside i)) ∧
      (bpfCheckClassic filter alloc = .ok () →
        ∀ before pc f, Path filter before pc → filter[pc]? = some f →
          f.code ∈ [bpfLd ||| bpfMem, bpfLdx ||| bpfMem] →
          ∃ pc' ∈ before, ∃ g, filter[pc']? = some g ∧ g.code ∈ [bpfSt, bpfStx] ∧ g.k = f.k) := by
  rw [bpfCheckClassic]
  split
  · exact ⟨by simp, by simp⟩
  split
  · exact ⟨by simp, by simp⟩
  next checked =>
  have checked : checkCodes filter.length 0 filter = true := by simpa using checked
  split
  swap
  · exact ⟨by simp, by simp⟩
  split
  swap
  · exact ⟨by simp, by simp⟩
  rw [checkLoadAndStores]
  split
  swap
  · exact ⟨by simp, by simp⟩
  refine ⟨fun i => checkCells_inside (nil_append filter).symm rfl checked length_replicate i, ?_⟩
  intro done before pc f path found loads
  obtain ⟨pc', member, g, found', stores, same⟩ :=
    checkCells_loads (nil_append filter).symm rfl checked marked_start done (Nat.zero_le pc) path
      found loads
  exact ⟨pc', member, g, found', stores, UInt32.toNat_inj.mp same⟩

/-- A comparison, a store to cell 3 in each of its branches, and behind both of them a load from
it. -/
def storeInBranches : List SockFilter :=
  [⟨0x15, 0, 2, 1⟩, ⟨0x02, 0, 0, 3⟩, ⟨0x05, 0, 0, 1⟩, ⟨0x02, 0, 0, 3⟩, ⟨0x60, 0, 0, 3⟩,
    ⟨0x16, 0, 0, 0⟩]

theorem storeInBranches_paths :
    Path storeInBranches [2, 1, 0] 4 ∧ Path storeInBranches [3, 0] 4 := by
  have stores : Falls ⟨0x02, 0, 0, 3⟩ := ⟨by decide +kernel, by decide +kernel, by decide +kernel⟩
  have equal : Path storeInBranches [0] 1 := .step .start rfl (.inl (.taken (by decide +kernel)))
  have other : Path storeInBranches [0] 3 := .step .start rfl (.inl (.other (by decide +kernel)))
  have leaves : Path storeInBranches [1, 0] 2 := .step equal rfl (.inr ⟨stores, rfl⟩)
  exact ⟨.step leaves rfl (.inl (.always (by decide +kernel))),
    .step other rfl (.inr ⟨stores, rfl⟩)⟩

theorem classic_loads_are_stored_branches :
    bpfCheckClassic storeInBranches true = .ok () ∧
      (∃ pc' ∈ [2, 1, 0], ∃ g, storeInBranches[pc']? = some g ∧
        g.code ∈ [bpfSt, bpfStx] ∧ g.k = 3) ∧
      ∃ pc' ∈ [3, 0], ∃ g, storeInBranches[pc']? = some g ∧ g.code ∈ [bpfSt, bpfStx] ∧ g.k = 3 := by
  have accepted : bpfCheckClassic storeInBranches true = .ok () := by decide +kernel
  obtain ⟨equal, other⟩ := storeInBranches_paths
  have stored (before : List Nat) (path : Path storeInBranches before 4) :=
    (classic_loads_are_stored storeInBranches true).2 accepted before 4 ⟨0x60, 0, 0, 3⟩ path rfl
      (by decide +kernel)
  exact ⟨accepted, stored _ equal, stored _ other⟩

theorem bpfCheckClassic_ok {filter : List SockFilter}
    (accepted : bpfCheckClassic filter alloc = .ok ()) :
    checkCodes filter.length 0 filter = true ∧ ∃ last ∈ filter.getLast?, last.code ∈ retCodes := by
  rw [bpfCheckClassic] at accepted
  split at accepted
  · cases accepted
  split at accepted
  · cases accepted
  next checked =>
  split at accepted
  · next last found =>
    split at accepted
    · next returns => exact ⟨by simpa using checked, last, found, returns⟩
    cases accepted
  cases accepted

theorem next_or_returns (pc : Nat) (f : SockFilter) : f.code ∈ retCodes ∨ ∃ pc', Next pc f pc' := by
  by_cases always : f.code = jaCode
  · exact .inr ⟨_, .inl (.always always)⟩
  by_cases conditional : f.code ∈ condCodes
  · exact .inr ⟨_, .inl (.taken conditional)⟩
  by_cases returns : f.code ∈ retCodes
  · exact .inl returns
  exact .inr ⟨_, .inr ⟨⟨always, conditional, returns⟩, rfl⟩⟩

/-- Execution of an accepted filter goes forward inside the program until it meets a return. -/
theorem classic_paths_return {filter : List SockFilter}
    (accepted : bpfCheckClassic filter alloc = .ok ()) (path : Path filter before pc) :
    before.length ≤ pc ∧
      ∃ f, filter[pc]? = some f ∧ (f.code ∈ retCodes ∨ ∃ pc', Path filter (pc :: before) pc') := by
  obtain ⟨checked, last, isLast, returns⟩ := bpfCheckClassic_ok accepted
  have inside : before.length ≤ pc ∧ pc < filter.length := by
    induction path with
    | start => exact ⟨le_rfl, length_pos_of_mem (mem_of_mem_getLast? isLast)⟩
    | step path found next ih => ?_
    rename_i before pc pc' f
    refine ⟨ih.1.trans_lt next.forward, ?_⟩
    rcases next with jumps | ⟨falls, rfl⟩
    · exact checkCode_jumps (Nat.zero_add pc ▸ checkCodes_at checked found) jumps
    by_contra beyond
    have here : last = f := by
      rw [Option.mem_def, getLast?_eq_getElem?, show filter.length - 1 = pc by omega,
        found] at isLast
      exact (Option.some.inj isLast).symm
    exact falls.2.2 (here ▸ returns)
  obtain ⟨f, found⟩ : ∃ f, filter[pc]? = some f := ⟨_, getElem?_eq_getElem inside.2⟩
  refine ⟨inside.1, f, found, (next_or_returns pc f).imp_right ?_⟩
  rintro ⟨pc', next⟩
  exact ⟨pc', path.step found next⟩

theorem classic_paths_return_branches :
    ([2, 1, 0].length ≤ 4 ∧ ∃ f, storeInBranches[4]? = some f ∧
        (f.code ∈ retCodes ∨ ∃ pc', Path storeInBranches (4 :: [2, 1, 0]) pc')) ∧
      [3, 0].length ≤ 4 ∧ ∃ f, storeInBranches[4]? = some f ∧
        (f.code ∈ retCodes ∨ ∃ pc', Path storeInBranches (4 :: [3, 0]) pc') := by
  have accepted : bpfCheckClassic storeInBranches true = .ok () := by decide +kernel
  obtain ⟨equal, other⟩ := storeInBranches_paths
  exact ⟨classic_paths_return accepted equal, classic_paths_return accepted other⟩

end

end TinyKernel.Filter
