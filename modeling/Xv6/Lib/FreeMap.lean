import Mathlib

/-!
Free maps: one bit per resource against the references that hold resources.

Owns: exactness of a free map for references from any set of slots, with number
0 standing for no reference, and its preservation when a free resource is given
to an empty slot or a slot gives its resource back.

Does not own: where bits and references are stored.
-/

namespace Xv6.Lib

open Function

universe u

variable {Slot : Type u} {size : Nat} {reserved : Nat → Prop} {used : Nat → Bool}
  {refs : Slot → Nat}

/-- References are to unreserved resources, no two slots hold the same one, and
exactly the reserved and the referenced resources are marked. -/
structure Exact (size : Nat) (reserved : Nat → Prop) (used : Nat → Bool) (refs : Slot → Nat) :
    Prop where
  zero : reserved 0
  bounded : ∀ slot, refs slot ≠ 0 → refs slot < size ∧ ¬ reserved (refs slot)
  injective : ∀ slot slot', refs slot ≠ 0 → refs slot = refs slot' → slot = slot'
  exact : ∀ b < size, (used b = true ↔ reserved b ∨ ∃ slot, refs slot = b)

namespace Exact

/-- Two slots that hold something hold different things. -/
theorem ne (exact : Exact size reserved used refs) {slot slot' : Slot} (held : refs slot ≠ 0)
    (different : slot ≠ slot') : refs slot ≠ refs slot' :=
  fun same => different (exact.injective slot slot' held same)

theorem marked (exact : Exact size reserved used refs) {slot : Slot} (held : refs slot ≠ 0) :
    used (refs slot) = true :=
  (exact.exact _ (exact.bounded slot held).1).mpr (.inr ⟨slot, rfl⟩)

/-- An unmarked resource is neither reserved nor referenced. -/
theorem unmarked (exact : Exact size reserved used refs) {b : Nat} (bound : b < size)
    (clear : used b = false) : ¬ reserved b ∧ ∀ slot, refs slot ≠ b := by
  have unheld : ¬ (reserved b ∨ ∃ slot, refs slot = b) := by
    rw [← exact.exact b bound, clear]
    exact Bool.false_ne_true
  rw [not_or, not_exists] at unheld
  exact unheld

theorem unmarked_ne_zero (exact : Exact size reserved used refs) {b : Nat} (bound : b < size)
    (clear : used b = false) : b ≠ 0 :=
  fun isZero => (exact.unmarked bound clear).1 (isZero ▸ exact.zero)

/-- A resource is marked exactly when it is reserved or held exactly once. -/
theorem marked_iff (exact : Exact size reserved used refs) {b : Nat} (bound : b < size) :
    used b = true ↔ reserved b ∨ ∃! slot, refs slot = b := by
  rw [exact.exact b bound]
  constructor
  · rintro (isReserved | ⟨slot, holds⟩)
    · exact .inl isReserved
    · by_cases isZero : b = 0
      · exact .inl (isZero ▸ exact.zero)
      · refine .inr ⟨slot, holds, fun other alsoHolds => ?_⟩
        exact (exact.injective slot other (holds ▸ isZero) (holds.trans alsoHolds.symm)).symm
  · rintro (isReserved | ⟨slot, holds, _⟩)
    · exact .inl isReserved
    · exact .inr ⟨slot, holds⟩

/-- Exactness depends on the bits below the size only. -/
theorem congr (exact : Exact size reserved used refs) {used' : Nat → Bool}
    (same : ∀ b < size, used' b = used b) : Exact size reserved used' refs where
  zero := exact.zero
  bounded := exact.bounded
  injective := exact.injective
  exact := by
    intro b bound
    rw [same b bound]
    exact exact.exact b bound

variable [DecidableEq Slot]

/-- Give a free resource to an empty slot. -/
theorem alloc (exact : Exact size reserved used refs) {b : Nat} (bound : b < size)
    (clear : used b = false) {slot : Slot} (empty : refs slot = 0) :
    Exact size reserved (fun x => used x || decide (x = b)) (update refs slot b) := by
  obtain ⟨unreserved, unheld⟩ := exact.unmarked bound clear
  refine ⟨exact.zero, ?_, ?_, ?_⟩
  · exact (forall_update_iff refs fun _ b => b ≠ 0 → b < size ∧ ¬ reserved b).mpr
      ⟨fun _ => ⟨bound, unreserved⟩, fun other _ => exact.bounded other⟩
  · intro first second held same
    have injective := exact.injective first second
    grind
  · intro x xBound
    rw [Bool.or_eq_true, decide_eq_true_iff, exact.exact x xBound]
    constructor
    · rintro ((isReserved | ⟨other, holds⟩) | isNew)
      · exact .inl isReserved
      · by_cases isSlot : other = slot
        · have isZero : x = 0 := by rw [← holds, isSlot, empty]
          exact .inl (isZero ▸ exact.zero)
        · exact .inr ⟨other, by rw [update_of_ne isSlot, holds]⟩
      · exact .inr ⟨slot, by rw [update_self, isNew]⟩
    · rintro (isReserved | ⟨other, holds⟩)
      · exact .inl (.inl isReserved)
      · grind

/-- Take a resource back from the slot that holds it. -/
theorem free (exact : Exact size reserved used refs) {slot : Slot} (held : refs slot ≠ 0) :
    Exact size reserved (fun x => used x && !decide (x = refs slot))
      (update refs slot 0) := by
  obtain ⟨bound, unreserved⟩ := exact.bounded slot held
  refine ⟨exact.zero, ?_, ?_, ?_⟩
  · exact (forall_update_iff refs fun _ b => b ≠ 0 → b < size ∧ ¬ reserved b).mpr
      ⟨fun held => absurd rfl held, fun other _ => exact.bounded other⟩
  · intro first second firstHeld same
    have injective := exact.injective first second
    grind
  · intro x xBound
    rw [Bool.and_eq_true, Bool.not_eq_true', decide_eq_false_iff_not, exact.exact x xBound]
    constructor
    · rintro ⟨isReserved | ⟨other, holds⟩, notFreed⟩
      · exact .inl isReserved
      · have isOther : other ≠ slot := fun isSlot => notFreed (by rw [← holds, isSlot])
        exact .inr ⟨other, by rw [update_of_ne isOther, holds]⟩
    · rintro (isReserved | ⟨other, holds⟩)
      · exact ⟨.inl isReserved, fun isFreed => unreserved (isFreed ▸ isReserved)⟩
      · by_cases isSlot : other = slot
        · rw [isSlot, update_self] at holds
          exact ⟨.inl (holds ▸ exact.zero), fun isFreed => held (isFreed ▸ holds.symm)⟩
        · rw [update_of_ne isSlot] at holds
          refine ⟨.inr ⟨other, holds⟩, fun isFreed => isSlot ?_⟩
          exact (exact.injective slot other held (isFreed.symm.trans holds.symm)).symm

end Exact

end Xv6.Lib
