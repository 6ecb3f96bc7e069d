import TinyKernel.Rbtree.EraseColor

/-! The `propagate` callback: from a node upwards the augmented fields are made right again. -/

namespace TinyKernel.Rbtree

open Lib Bin Links

variable {Data Aug : Type} {path path' : RbPath Data Aug}
variable {count : Nat}

/-- Two frames that differ in the augmented field only. -/
structure Alike (frame frame' : Frame (Info Data Aug)) : Prop where
  side : frame'.side = frame.side
  id : frame'.id = frame.id
  color : frame'.info.color = frame.info.color
  sibling : frame'.sibling = frame.sibling

theorem Alike.refl (frame : Frame (Info Data Aug)) : Alike frame frame := ⟨rfl, rfl, rfl, rfl⟩

abbrev AlikePath (path path' : RbPath Data Aug) : Prop := List.Forall₂ Alike path path'

theorem AlikePath.refl (path : RbPath Data Aug) : AlikePath path path :=
  List.forall₂_same.mpr fun frame _ => Alike.refl frame

section

variable (alike : AlikePath path path')
include alike

theorem AlikePath.above (top : Option Id) : Path.aboveOr top path' = Path.aboveOr top path := by
  cases alike with
  | nil => rfl
  | cons frames _ => rw [Path.aboveOr, Path.aboveOr, frames.id]

theorem AlikePath.ids : Path.ids path' = Path.ids path := by
  induction alike with
  | nil => rfl
  | cons frames _ ih => rw [Path.ids_cons, Path.ids_cons, frames.id, frames.sibling, ih]

theorem AlikePath.before : Path.before path' = Path.before path := by
  induction alike with
  | nil => rfl
  | cons frames _ ih => rw [Path.before, Path.before, frames.side, frames.id, frames.sibling, ih]

theorem AlikePath.after : Path.after path' = Path.after path := by
  induction alike with
  | nil => rfl
  | cons frames _ ih => rw [Path.after, Path.after, frames.side, frames.id, frames.sibling, ih]

theorem AlikePath.rootOf (hole : Option Id) : Path.rootOf hole path' = Path.rootOf hole path := by
  induction alike generalizing hole with
  | nil => rfl
  | cons frames _ ih => rw [Path.rootOf, Path.rootOf, frames.id, ih]

end

/-- What a hole accepts depends on the colours and the subtrees beside the way to it. -/
theorem accepts_congr {color : Color}
    (same : List.Forall₂
      (fun frame frame' => frame'.info.color = frame.info.color ∧ frame'.sibling = frame.sibling)
      path path') (accepts : Accepts path count color) : Accepts path' count color := by
  induction same generalizing count color with
  | nil => exact accepts
  | @cons frame frame' path path' frames _ ih => ?_
  rw [Accepts] at accepts ⊢
  rw [frames.1, frames.2]
  refine ⟨accepts.1, ?_⟩
  cases shade : frame.info.color with
  | red =>
    rw [shade] at accepts
    exact ⟨accepts.2.1, accepts.2.2.1, ih accepts.2.2.2⟩
  | black => ?_
  rw [shade] at accepts
  exact ih accepts.2

theorem AlikePath.accepts (alike : AlikePath path path') {color : Color}
    (accepts : Accepts path count color) : Accepts path' count color :=
  accepts_congr (alike.imp fun _ _ frames => ⟨frames.color, frames.sibling⟩) accepts

/-- Only the field of the first node may be out of date, those above it go with it as it is. -/
def Stale (f : Compute Data Aug) : RbPath Data Aug → Prop
  | [] => True
  | frame :: path => Augmented f frame.sibling ∧ AugmentedPath f (some frame.info.aug) path

theorem AugmentedPath.stale (around : AugmentedPath f hole path) : Stale f path := by
  cases path with
  | nil => trivial
  | cons frame path => exact ⟨around.2.1, around.2.2⟩

theorem augmentedPath_append {inner : RbPath Data Aug} (here : AugmentedPath f hole inner)
    (t : RbTree Data Aug) (same : rootAug t = hole)
    (around : AugmentedPath f (rootAug (Path.fill inner t)) outer) :
    AugmentedPath f hole (inner ++ outer) := by
  induction inner generalizing hole t with
  | nil => exact same ▸ around
  | cons frame inner ih => ?_
  refine ⟨here.1, here.2.1, ih here.2.2 (frame.fill t) ?_ around⟩
  rw [Frame.fill, rootAug_on]

/-- What `propagate` leaves alone. -/
structure Kept (m m' : Mem Data Aug) (path : RbPath Data Aug) : Prop where
  root : m'.root = m.root
  same : ∀ id, (∀ frame ∈ path, frame.id ≠ id) → Same m m' id

theorem propagate_spec [DecidableEq Aug] (seg : RepSeg m hole path stop)
    (below : hole.map (fun id => (m.info id).aug) = value) (nodup : (Path.ids path).Nodup)
    (out : ∀ id, hole = some id → id ∉ Path.ids path) (apart : ∀ frame ∈ path, some frame.id ≠ stop)
    (stale : Stale f path) (enough : path.length < rounds) :
    ∃ m' path', propagate f rounds m (Path.aboveOr stop path) stop = .ok m' ∧ AlikePath path path' ∧
      RepSeg m' hole path' stop ∧ AugmentedPath f value path' ∧ Kept m m' path := by
  induction path generalizing m hole value rounds with
  | nil =>
    cases rounds with
    | zero => cases enough
    | succ rounds =>
      exact ⟨m, [], if_pos rfl, .nil, trivial, trivial, rfl, fun id _ => Same.refl m id⟩
  | cons frame path ih => ?_
  cases rounds with
  | zero => cases enough
  | succ rounds => ?_
  obtain ⟨side, id, info, sib⟩ := frame
  obtain ⟨holds, up, down, across, sibling, outer⟩ := seg
  obtain ⟨siblingAug, pathAug⟩ := stale
  have computed : rbCompute f m id = computeOn f side info.data value (rootAug sib) := by
    rw [rbCompute_on f side, holds, down, across, below, rootAug_of_rep sibling]
  have first : some id ≠ stop := apart ⟨side, id, info, sib⟩ (.head _)
  rw [Path.aboveOr, propagate, if_neg first]
  simp only [computed, holds, up]
  by_cases cur : info.aug = computeOn f side info.data value (rootAug sib)
  · rw [if_pos cur]
    exact ⟨m, _, rfl, .refl _, ⟨holds, up, down, across, sibling, outer⟩,
      ⟨cur, siblingAug, pathAug⟩, rfl, fun id _ => Same.refl m id⟩
  rw [if_neg cur]
  generalize fresh : computeOn f side info.data value (rootAug sib) = aug
  simp only [Path.ids_cons, List.nodup_cons, List.mem_append, not_or] at nodup
  obtain ⟨⟨notSibling, notPath⟩, unique⟩ := nodup
  obtain ⟨_, pathNodup, separate⟩ := List.nodup_append.mp unique
  have changed (x : Id) (other : x ≠ id) : Same m (setAug m id aug) x :=
    ⟨if_neg other, rfl, fun _ => rfl⟩
  have written : (setAug m id aug).info id = { info with aug } := by
    rw [setAug, setInfo_info, if_pos rfl, holds]
  have below' : (some id).map (fun x => ((setAug m id aug).info x).aug) = some aug := by
    rw [Option.map_some, written]
  obtain ⟨m', path', ran, alike, seg, around, kept⟩ := ih
    (outer.congr fun x mem => changed x fun same => notPath (same ▸ mem)) below' pathNodup
    (fun x same => Option.some.inj same ▸ notPath)
    (fun frame mem => apart frame (.tail _ mem)) pathAug.stale
    (Nat.lt_of_succ_lt_succ enough)
  have untouched (x : Id) (notAbove : x ∉ Path.ids path) : Same (setAug m id aug) m' x :=
    kept.same x fun frame mem same => notAbove (same ▸ Path.id_mem_ids mem)
  have here := untouched id notPath
  refine ⟨m', ⟨side, id, { info with aug }, sib⟩ :: path', ran,
    .cons ⟨rfl, rfl, rfl, rfl⟩ alike, ?_, ⟨fresh.symm, siblingAug, around⟩, kept.root, ?_⟩
  · refine ⟨here.info.trans written, ?_, (here.child side).trans down, (here.child _).trans across,
      ?_, seg⟩
    · rw [alike.above]
      exact here.parent.trans up
    refine sibling.congr fun x mem => (changed x ?_).trans (untouched x ?_)
    · exact fun same => notSibling (same ▸ mem)
    exact fun above => separate x mem x above rfl
  intro x away
  refine (changed x fun same => ?_).trans (kept.same x fun frame mem => ?_)
  · exact away ⟨side, id, info, sib⟩ (.head _) same.symm
  exact away frame (.tail _ mem)

end TinyKernel.Rbtree
