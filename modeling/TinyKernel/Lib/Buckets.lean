import Mathlib.Tactic.Common

/-! Lists kept per key, seen as one list up to permutation. -/

namespace TinyKernel.Lib

variable {Key Item : Type*} [BEq Key] [LawfulBEq Key]

/-- One key's list can be brought to the front. -/
theorem flatMap_split {keys : List Key} {key : Key} (mem : key ∈ keys) (bucket : Key → List Item) :
    (keys.flatMap bucket).Perm (bucket key ++ (keys.erase key).flatMap bucket) := by
  have front := (List.perm_cons_erase mem).flatMap_right bucket
  simpa using front

/-- The other keys' lists do not see a change at `key`. -/
theorem flatMap_erase_congr {keys : List Key} (nodup : keys.Nodup)
    (frame : ∀ other, other ≠ key → after other = before other) :
    (keys.erase key).flatMap after = (keys.erase key).flatMap before := by
  rw [List.flatMap_def, List.flatMap_def]
  congr 1
  apply List.map_congr_left
  intro other mem
  exact frame other ((nodup.mem_erase_iff).mp mem).1

end TinyKernel.Lib
