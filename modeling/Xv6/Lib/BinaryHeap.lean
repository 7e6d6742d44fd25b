import Mathlib.Logic.Equiv.Basic
import Mathlib.Logic.Relation
import Mathlib.Order.Lattice

/-!
Binary heaps in an array.

Owns: the order of a heap, the two weaker orders in which one entry may be out of
place, and what exchanging that entry with its parent or with its smallest child
does to them.

Does not own: the loops that move an entry up or down.
-/

namespace Xv6.Lib.BinaryHeap

variable {K : Type*} [LinearOrder K]

/-- No entry is smaller than its parent. -/
def Ordered (key : Nat → K) (size : Nat) : Prop :=
  ∀ i, 0 < i → i < size → key ((i - 1) / 2) ≤ key i

variable {key : Nat → K} {size hole : Nat}

theorem ordered_congr {key' : Nat → K} (same : ∀ i < size, key' i = key i)
    (ordered : Ordered key size) : Ordered key' size := by
  intro i positive inside
  rw [same i inside, same _ (by omega)]
  exact ordered i positive inside

/-- The first entry is a smallest one. -/
theorem Ordered.root_le (ordered : Ordered key size) (i : Nat) (inside : i < size) :
    key 0 ≤ key i := by
  induction i using Nat.strong_induction_on with
  | _ i ih =>
    by_cases first : i = 0
    · rw [first]
    · exact (ih ((i - 1) / 2) (by omega) (by omega)).trans
        (ordered i (by omega) inside)

/-! ### Moving an entry up -/

/-- Ordered, but `hole` may be smaller than its parent. -/
structure UpTo (key : Nat → K) (size hole : Nat) : Prop where
  others : ∀ i, 0 < i → i < size → i ≠ hole → key ((i - 1) / 2) ≤ key i
  around : 0 < hole → ∀ i, 0 < i → i < size → (i - 1) / 2 = hole → key ((hole - 1) / 2) ≤ key i

theorem UpTo.ordered (upTo : UpTo key size hole)
    (stays : ¬ (0 < hole ∧ key hole < key ((hole - 1) / 2))) : Ordered key size := by
  intro i positive inside
  by_cases here : i = hole
  · subst here
    exact not_lt.mp fun smaller => stays ⟨positive, smaller⟩
  · exact upTo.others i positive inside here

/-- An entry smaller than its parent takes the parent's place. -/
theorem UpTo.exchange (upTo : UpTo key size hole) (positive : 0 < hole) (inside : hole < size)
    (smaller : key hole < key ((hole - 1) / 2)) :
    UpTo (key ∘ Equiv.swap hole ((hole - 1) / 2)) size ((hole - 1) / 2) := by
  have above : (hole - 1) / 2 < hole := by omega
  constructor
  · intro i iPositive iInside notParent
    simp only [Function.comp]
    rw [Equiv.swap_apply_def, Equiv.swap_apply_def hole ((hole - 1) / 2) i, if_neg notParent]
    by_cases here : i = hole
    · subst here
      rw [if_pos rfl, if_neg above.ne, if_pos rfl]
      exact smaller.le
    rw [if_neg here]
    by_cases below : (i - 1) / 2 = hole
    · rw [if_pos below]
      exact upTo.around positive i iPositive iInside below
    rw [if_neg below]
    by_cases sibling : (i - 1) / 2 = (hole - 1) / 2
    · rw [if_pos sibling]
      exact smaller.le.trans (sibling ▸ upTo.others i iPositive iInside here)
    · rw [if_neg sibling]
      exact upTo.others i iPositive iInside here
  · intro parentPositive i iPositive iInside below
    have grand := upTo.others _ parentPositive (by omega) above.ne
    simp only [Function.comp]
    rw [Equiv.swap_apply_of_ne_of_ne (by omega) (by omega)]
    by_cases here : i = hole
    · subst here
      rw [Equiv.swap_apply_left]
      exact grand
    · rw [Equiv.swap_apply_of_ne_of_ne here (by omega)]
      exact grand.trans (below ▸ upTo.others i iPositive iInside here)

/-! ### Moving an entry down -/

/-- Ordered, but `hole` may be larger than its children. -/
structure DownTo (key : Nat → K) (size hole : Nat) : Prop where
  others : ∀ i, 0 < i → i < size → (i - 1) / 2 ≠ hole → key ((i - 1) / 2) ≤ key i
  around : 0 < hole → ∀ i, 0 < i → i < size → (i - 1) / 2 = hole → key ((hole - 1) / 2) ≤ key i

/-- Entry `b` is below entry `a`. -/
def Below : Nat → Nat → Prop := Relation.TransGen fun a b => 0 < b ∧ a = (b - 1) / 2

/-- `hole` is the only entry with smaller ones below it. -/
theorem DownTo.of_below
    (others : ∀ a, a ≠ hole → ∀ b, Below a b → b < size → key a ≤ key b) :
    DownTo key size hole := by
  constructor
  · intro i positive inside notHole
    exact others _ notHole i (.single ⟨positive, rfl⟩) inside
  · intro holePositive i positive inside child
    have above : (hole - 1) / 2 ≠ hole := by omega
    exact others _ above i (.tail (.single ⟨holePositive, rfl⟩) ⟨positive, child.symm⟩) inside

theorem DownTo.ordered (downTo : DownTo key size hole)
    (stays : ∀ i, 0 < i → i < size → (i - 1) / 2 = hole → key hole ≤ key i) :
    Ordered key size := by
  intro i positive inside
  by_cases below : (i - 1) / 2 = hole
  · rw [below]
    exact stays i positive inside below
  · exact downTo.others i positive inside below

/-- An entry takes the place of its smallest child. -/
theorem DownTo.exchange (downTo : DownTo key size hole) {child : Nat} (positive : 0 < child)
    (inside : child < size) (isChild : (child - 1) / 2 = hole)
    (smallest : ∀ i, 0 < i → i < size → (i - 1) / 2 = hole → key child ≤ key i)
    (smaller : key child < key hole) :
    DownTo (key ∘ Equiv.swap hole child) size child := by
  have below : hole < child := by omega
  constructor
  · intro i iPositive iInside notChild
    simp only [Function.comp]
    by_cases sibling : (i - 1) / 2 = hole
    · rw [sibling, Equiv.swap_apply_left]
      by_cases here : i = child
      · rw [here, Equiv.swap_apply_right]
        exact smaller.le
      · rw [Equiv.swap_apply_of_ne_of_ne (by omega) here]
        exact smallest i iPositive iInside sibling
    rw [Equiv.swap_apply_of_ne_of_ne sibling notChild]
    by_cases here : i = hole
    · subst here
      rw [Equiv.swap_apply_left]
      exact downTo.around iPositive child positive inside isChild
    · rw [Equiv.swap_apply_of_ne_of_ne here (by omega)]
      exact downTo.others i iPositive iInside sibling
  · intro _ i iPositive iInside grandchild
    simp only [Function.comp]
    rw [isChild, Equiv.swap_apply_left, Equiv.swap_apply_of_ne_of_ne (by omega) (by omega)]
    exact grandchild ▸ downTo.others i iPositive iInside (by omega)

end Xv6.Lib.BinaryHeap
