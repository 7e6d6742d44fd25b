import Mathlib

/-!
Locks and the list each of their owners keeps of those it holds.

Owns: what it means that a table of holders and the owners' lists agree, and that
acquiring and releasing keep it.

Does not own: who the owners are, and when they acquire.
-/

namespace Xv6.Lib

open Function

variable {Lock Owner : Type*} {holder : Lock → Option Owner} {locks : Owner → List Lock}
  {c : Owner} {lock : Lock} {after : List Lock}

/-- The holder of a lock is the one owner that lists it, once. -/
structure Holds (holder : Lock → Option Owner) (locks : Owner → List Lock) : Prop where
  iff : ∀ lock c, holder lock = some c ↔ lock ∈ locks c
  nodup : ∀ c, (locks c).Nodup

namespace Holds

variable [DecidableEq Owner]

/-- An owner lists the same locks in another order. -/
theorem perm (holds : Holds holder locks) (same : after.Perm (locks c)) :
    Holds holder (update locks c after) := by
  refine ⟨fun lock => ?_, ?_⟩
  · exact (forall_update_iff locks fun c list => holder lock = some c ↔ lock ∈ list).mpr
      ⟨(holds.iff lock c).trans same.mem_iff.symm, fun c' _ => holds.iff lock c'⟩
  · exact (forall_update_iff locks fun _ list => list.Nodup).mpr
      ⟨same.nodup_iff.mpr (holds.nodup c), fun c' _ => holds.nodup c'⟩

variable [DecidableEq Lock]

/-- A free lock is taken. -/
theorem acquire (holds : Holds holder locks) (free : holder lock = none)
    (more : after.Perm (lock :: locks c)) :
    Holds (update holder lock (some c)) (update locks c after) := by
  have fresh (c' : Owner) : lock ∉ locks c' := by
    intro listed
    rw [(holds.iff lock c').mpr listed] at free
    cases free
  have iff := holds.iff
  constructor
  · intro other c'
    grind [more.mem_iff]
  · exact (forall_update_iff locks fun _ list => list.Nodup).mpr
      ⟨more.nodup_iff.mpr (List.nodup_cons.mpr ⟨fresh c, holds.nodup c⟩),
        fun c' _ => holds.nodup c'⟩

/-- A held lock is given back. -/
theorem release (holds : Holds holder locks) (fewer : (lock :: after).Perm (locks c)) :
    Holds (update holder lock none) (update locks c after) := by
  have held : lock ∈ locks c := fewer.mem_iff.mp List.mem_cons_self
  have once := List.nodup_cons.mp (fewer.nodup_iff.mpr (holds.nodup c))
  have iff := holds.iff
  constructor
  · intro other c'
    grind [fewer.mem_iff]
  · exact (forall_update_iff locks fun _ list => list.Nodup).mpr
      ⟨once.2, fun c' _ => holds.nodup c'⟩

end Holds

end Xv6.Lib
