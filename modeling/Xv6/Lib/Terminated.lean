import Mathlib

/-!
Sequences that end with a terminator.

Owns: the items from an index on, up to a terminator or a bound, where an item may be
missing; what such a reading depends on; and how it splits.

Does not own: what the items are.
-/

namespace Xv6.Lib

variable {Item : Type} [DecidableEq Item] {stop : Item} {found found' : Nat → Option Item}
  {n m i i' : Nat}

/-- At most `n` items from index `i` on, up to `stop`, and whether `stop` was met. A
missing item ends the reading. -/
def terminated (stop : Item) (found : Nat → Option Item) : Nat → Nat → List Item × Bool
  | 0, _ => ([], false)
  | n + 1, i =>
    match found i with
    | none => ([], false)
    | some item =>
      if item = stop then ([stop], true)
      else (item :: (terminated stop found n (i + 1)).1, (terminated stop found n (i + 1)).2)

theorem terminated_zero : terminated stop found 0 i = ([], false) := rfl

theorem terminated_none (missing : found i = none) : terminated stop found n i = ([], false) := by
  cases n with
  | zero => rfl
  | succ n => simp [terminated, missing]

theorem terminated_stop (here : found i = some stop) :
    terminated stop found (n + 1) i = ([stop], true) := by
  simp [terminated, here]

theorem terminated_cons {item : Item} (here : found i = some item) (other : item ≠ stop) :
    terminated stop found (n + 1) i =
      (item :: (terminated stop found n (i + 1)).1, (terminated stop found n (i + 1)).2) := by
  simp [terminated, here, other]

/-- The items up to the first terminator decide. -/
theorem terminated_congr
    (same : ∀ j < n, (∀ l < j, found (i + l) ≠ some stop) → found' (i' + j) = found (i + j)) :
    terminated stop found' n i' = terminated stop found n i := by
  induction n generalizing i i' with
  | zero => rfl
  | succ n ih =>
    have here := same 0 (Nat.succ_pos n) fun _ below => absurd below (Nat.not_lt_zero _)
    rw [Nat.add_zero, Nat.add_zero] at here
    cases isHere : found i with
    | none => rw [terminated_none isHere, terminated_none (here.trans isHere)]
    | some item =>
      by_cases last : item = stop
      · subst last
        rw [terminated_stop isHere, terminated_stop (here.trans isHere)]
      · have rest : terminated stop found' n (i' + 1) = terminated stop found n (i + 1) := by
          apply ih
          intro j less before
          have shifted := same (j + 1) (by omega) ?_
          · rwa [show i' + (j + 1) = i' + 1 + j by omega,
              show i + (j + 1) = i + 1 + j by omega] at shifted
          · intro l isBefore
            cases l with
            | zero => simp [isHere, last]
            | succ l =>
              rw [show i + (l + 1) = i + 1 + l by omega]
              exact before l (by omega)
        rw [terminated_cons isHere last, terminated_cons (here.trans isHere) last, rest]

theorem length_terminated : (terminated stop found n i).1.length ≤ n := by
  induction n generalizing i with
  | zero => exact Nat.le_refl 0
  | succ n ih =>
    cases isHere : found i with
    | none => simp [terminated_none isHere]
    | some item =>
      by_cases last : item = stop
      · subst last
        simp [terminated_stop isHere]
      · simp [terminated_cons isHere last, ih]

/-- A reading that meets neither the terminator nor a missing item is full. -/
theorem length_terminated_of_false (present : ∀ j < n, found (i + j) ≠ none)
    (unmet : (terminated stop found n i).2 = false) : (terminated stop found n i).1.length = n := by
  induction n generalizing i with
  | zero => rfl
  | succ n ih =>
    obtain ⟨item, isHere⟩ := Option.ne_none_iff_exists'.mp (present 0 (Nat.succ_pos n))
    rw [Nat.add_zero] at isHere
    by_cases last : item = stop
    · subst last
      simp [terminated_stop isHere] at unmet
    · rw [terminated_cons isHere last] at unmet ⊢
      rw [List.length_cons, ih _ unmet]
      intro j less
      rw [show i + 1 + j = i + (j + 1) by omega]
      exact present (j + 1) (by omega)

/-- A reading in two parts. -/
theorem terminated_add (present : ∀ j < n, found (i + j) ≠ none) :
    terminated stop found (n + m) i =
      if (terminated stop found n i).2 then terminated stop found n i
      else ((terminated stop found n i).1 ++ (terminated stop found m (i + n)).1,
        (terminated stop found m (i + n)).2) := by
  induction n generalizing i with
  | zero => simp [terminated_zero]
  | succ n ih =>
    obtain ⟨item, isHere⟩ := Option.ne_none_iff_exists'.mp (present 0 (Nat.succ_pos n))
    rw [Nat.add_zero] at isHere
    rw [show n + 1 + m = n + m + 1 by omega, show i + (n + 1) = i + 1 + n by omega]
    by_cases last : item = stop
    · subst last
      simp [terminated_stop isHere]
    · rw [terminated_cons isHere last, terminated_cons isHere last, ih]
      · by_cases met : (terminated stop found n (i + 1)).2 = true
        · simp [met]
        · simp [met]
      · intro j less
        rw [show i + 1 + j = i + (j + 1) by omega]
        exact present (j + 1) (by omega)

/-- What was read when the terminator was met. -/
theorem terminated_of_true (met : (terminated stop found n i).2 = true) :
    ∃ k < n, found (i + k) = some stop ∧
      (∀ j < k, found (i + j) ≠ none ∧ found (i + j) ≠ some stop) ∧
      (terminated stop found n i).1.length = k + 1 ∧
      ∀ j ≤ k, (terminated stop found n i).1[j]? = found (i + j) := by
  induction n generalizing i with
  | zero => exact absurd met Bool.false_ne_true
  | succ n ih =>
    cases isHere : found i with
    | none =>
      rw [terminated_none isHere] at met
      exact absurd met Bool.false_ne_true
    | some item =>
      by_cases last : item = stop
      · subst last
        refine ⟨0, Nat.succ_pos n, isHere, fun _ below => absurd below (Nat.not_lt_zero _), ?_, ?_⟩
        · simp [terminated_stop isHere]
        · intro j least
          rw [Nat.le_zero.mp least]
          simp [terminated_stop isHere, isHere]
      · rw [terminated_cons isHere last] at met ⊢
        obtain ⟨k, less, isStop, before, length, items⟩ := ih met
        have shift : ∀ j, i + (j + 1) = i + 1 + j := fun j => by omega
        refine ⟨k + 1, by omega, by rw [shift]; exact isStop, ?_, by simp [length], ?_⟩
        · intro j isBefore
          cases j with
          | zero => simp [isHere, last]
          | succ j =>
            rw [shift]
            exact before j (by omega)
        · intro j most
          cases j with
          | zero => simp [isHere]
          | succ j =>
            rw [List.getElem?_cons_succ, items j (by omega), shift j]

/-- The terminator is met if and only if it is there and nothing is missing before. -/
theorem terminated_iff : (terminated stop found n i).2 = true ↔
    ∃ k < n, found (i + k) = some stop ∧ ∀ j < k, found (i + j) ≠ none := by
  constructor
  · intro met
    obtain ⟨k, less, isStop, before, _⟩ := terminated_of_true met
    exact ⟨k, less, isStop, fun j isBefore => (before j isBefore).1⟩
  · rintro ⟨k, less, isStop, present⟩
    induction n generalizing i k with
    | zero => exact absurd less (Nat.not_lt_zero k)
    | succ n ih =>
      cases k with
      | zero =>
        rw [Nat.add_zero] at isStop
        rw [terminated_stop isStop]
      | succ k =>
        obtain ⟨item, isHere⟩ := Option.ne_none_iff_exists'.mp (present 0 (Nat.succ_pos k))
        rw [Nat.add_zero] at isHere
        have shift : ∀ j, i + (j + 1) = i + 1 + j := fun j => by omega
        by_cases last : item = stop
        · rw [terminated_stop (last ▸ isHere)]
        · rw [terminated_cons isHere last]
          refine ih k (by omega) (by rw [← shift]; exact isStop) ?_
          intro j isBefore
          rw [← shift]
          exact present (j + 1) (by omega)

end Xv6.Lib
