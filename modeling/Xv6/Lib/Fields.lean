import Mathlib.Data.List.TakeWhile

/-!
The fields of a list between separators.

Owns: the maximal nonempty parts of a list without the separator, in order, and
how a scan from the left finds them: separators are skipped, and then the first
field is the longest part without one.

Does not own: any bound on the length of a field.
-/

namespace Xv6.Lib

variable {α : Type*} [DecidableEq α]

/-- The maximal nonempty parts of a list that do not contain the separator. -/
def fields (sep : α) (list : List α) : List (List α) := (list.splitOn sep).filter (· ≠ [])

@[simp] theorem fields_nil (sep : α) : fields sep [] = [] := rfl

theorem fields_cons_sep (sep : α) (list : List α) : fields sep (sep :: list) = fields sep list := by
  rw [fields, List.splitOn, List.splitOnP_cons_eq_if_modifyHead, if_pos (beq_self_eq_true sep)]
  exact List.filter_cons_of_neg (by simp)

/-- Leading separators do not matter. -/
theorem fields_dropWhile (sep : α) (list : List α) :
    fields sep (list.dropWhile (· == sep)) = fields sep list := by
  induction list with
  | nil => rfl
  | cons head tail ih =>
    by_cases isSep : head = sep
    · rw [List.dropWhile_cons_of_pos (by simp [isSep]), ih, isSep,
        fields_cons_sep]
    · rw [List.dropWhile_cons_of_neg (by simp [isSep])]

theorem dropWhile_ne_sep (sep : α) (list : List α) :
    list.dropWhile (· != sep) = [] ∨ ∃ rest, list.dropWhile (· != sep) = sep :: rest := by
  induction list with
  | nil => exact .inl rfl
  | cons head tail ih =>
    by_cases isSep : head = sep
    · rw [List.dropWhile_cons_of_neg (by simp [isSep])]
      exact .inr ⟨tail, by rw [isSep]⟩
    · rw [List.dropWhile_cons_of_pos (by simp [isSep])]
      exact ih

theorem fields_cons {sep head : α} (notSep : head ≠ sep) (tail : List α) :
    fields sep (head :: tail) = (head :: tail).takeWhile (· != sep) ::
      fields sep ((head :: tail).dropWhile (· != sep)) := by
  have split : (head :: tail).takeWhile (· != sep) ++ (head :: tail).dropWhile (· != sep) =
      head :: tail := List.takeWhile_append_dropWhile
  have nonempty : (head :: tail).takeWhile (· != sep) ≠ [] := by
    rw [List.takeWhile_cons_of_pos (by simp [notSep])]
    exact List.cons_ne_nil _ _
  have free : ∀ x ∈ (head :: tail).takeWhile (· != sep), (x == sep) = false := by
    intro x member
    have other := List.mem_takeWhile_imp member
    simpa using other
  rcases dropWhile_ne_sep sep (head :: tail) with ended | ⟨rest, follows⟩
  · rw [ended, List.append_nil] at split
    rw [ended, fields_nil]
    rw [split] at free ⊢
    rw [fields, List.splitOn, List.splitOnP_eq_singleton free]
    exact List.filter_cons_of_pos (by simp)
  · rw [follows] at split ⊢
    have same := congrArg (fields sep) split
    rw [← same, fields, List.splitOn,
      List.splitOnP_append_cons_of_forall_mem free sep (beq_self_eq_true sep),
      List.filter_cons_of_pos (by simpa using nonempty), fields_cons_sep]
    rfl

/-- One step of a scan: the separators are skipped, and a field follows. -/
theorem fields_scan {sep : α} {list : List α} (more : list.dropWhile (· == sep) ≠ []) :
    fields sep list = (list.dropWhile (· == sep)).takeWhile (· != sep) ::
      fields sep ((list.dropWhile (· == sep)).dropWhile (· != sep)) := by
  have stopped := List.head_dropWhile_not (· == sep) more
  rw [← fields_dropWhile sep list]
  cases scan : list.dropWhile (· == sep) with
  | nil => exact absurd scan more
  | cons head tail =>
    refine fields_cons (fun isSep => ?_) tail
    simp [scan, isSep] at stopped

end Xv6.Lib
