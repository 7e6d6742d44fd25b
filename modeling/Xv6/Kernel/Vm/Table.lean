import Xv6.Kernel.Vm.Memory

/-!
Three-level page tables as maps from page numbers to entries.

Owns: the page-table page at the end of a path, the entry of a page number, and what
a store of an entry and a new page-table page do to them.

Does not own: who owns a page.
-/

namespace Xv6.Kernel.Vm

open Xv6.Lib Function

/-- The page an entry points to. -/
def child (pte : UInt64) : Option UInt64 := if pte &&& pteV ≠ 0 then some (pte2pa pte) else none

theorem child_of_valid {pte : UInt64} (valid : pte &&& pteV ≠ 0) : child pte = some (pte2pa pte) :=
  if_pos valid

theorem child_of_invalid {pte : UInt64} (invalid : pte &&& pteV = 0) : child pte = none :=
  if_neg fun valid => valid invalid

theorem child_pointer {page : UInt64} (aligned : Aligned page) :
    child (pointer page) = some page := by
  rw [child_of_valid (pointer_valid page), pointer_pte2pa aligned]

theorem junk_zero (i : Fin 512) : junk 0 i &&& pteV = 0 := by
  rw [junk]
  decide

/-- The page-table page at the end of a path. -/
def Phys.table (s : Phys) (root : UInt64) (path : List (Fin 512)) : Option UInt64 :=
  Radix.descend child s.mem root path

/-- The path to the last level. -/
def spine (vpn : Nat) : List (Fin 512) := [ix 2 vpn, ix 1 vpn]

theorem spine_length (vpn : Nat) : (spine vpn).length = 2 := rfl

/-- The entry of a page number, if it is valid. -/
def Phys.entry (s : Phys) (root : UInt64) (vpn : Nat) : Option UInt64 :=
  (s.table root (spine vpn)).bind fun low =>
    if s.mem low (ix 0 vpn) &&& pteV ≠ 0 then some (s.mem low (ix 0 vpn)) else none

section Frames

variable {s t : Phys} {root : UInt64}

/-- Memory that agrees on a table's pages has the same table. -/
theorem table_frame {depth : Nat} (same : ∀ path page, path.length ≤ depth →
    s.table root path = some page → t.mem page = s.mem page) {path : List (Fin 512)}
    (short : path.length ≤ depth) : t.table root path = s.table root path := by
  apply Radix.descend_congr
  intro front i page isPrefix reached
  have shorter : front.length ≤ depth := by
    have bound := isPrefix.length_le
    rw [List.length_append] at bound
    omega
  rw [same front page shorter reached]

theorem entry_frame (same : ∀ path page, path.length ≤ 2 → s.table root path = some page →
    t.mem page = s.mem page) (vpn : Nat) : t.entry root vpn = s.entry root vpn := by
  unfold Phys.entry
  rw [table_frame same (Nat.le_of_eq (spine_length vpn))]
  cases reached : s.table root (spine vpn) with
  | none => rfl
  | some low =>
    rw [Option.bind_some, Option.bind_some,
      same (spine vpn) low (Nat.le_of_eq (spine_length vpn)) reached]

end Frames

/-- One path to each page of a table. -/
def Separate (s : Phys) (root : UInt64) : Prop :=
  ∀ path other page, path.length ≤ 2 → other.length ≤ 2 → s.table root path = some page →
    s.table root other = some page → path = other

theorem put_self {s : Phys} {page pte : UInt64} {i : Fin 512} :
    (s.put (page, i) pte).mem page i = pte := Radix.store_self

theorem put_other {s : Phys} {page other pte : UInt64} {i j : Fin 512}
    (different : ¬(other = page ∧ j = i)) : (s.put (page, i) pte).mem other j = s.mem other j :=
  Radix.store_other different

theorem put_other_page {s : Phys} {page other pte : UInt64} {i : Fin 512}
    (different : other ≠ page) :
    (s.put (page, i) pte).mem other = s.mem other := Radix.store_other_node different

theorem setPage_self {s : Phys} {page : UInt64} {content : Page} :
    (s.setPage page content).mem page = content := by
  change update s.mem page content page = content
  rw [update_self]

theorem setPage_other {s : Phys} {page other : UInt64} {content : Page} (different : other ≠ page) :
    (s.setPage page content).mem other = s.mem other := by
  change update s.mem page content other = s.mem other
  rw [update_of_ne different]

section StoreLeaf

variable {s : Phys} {root low pte : UInt64} {vpn : Nat}

theorem table_put (separate : Separate s root) (reached : s.table root (spine vpn) = some low)
    {path : List (Fin 512)} (short : path.length ≤ 2) :
    (s.put (low, ix 0 vpn) pte).table root path = s.table root path := by
  apply Radix.descend_store
  intro front shorter isLow
  have same :=
    separate front (spine vpn) low (by omega) (Nat.le_of_eq (spine_length vpn)) isLow reached
  rw [same, spine_length] at shorter
  omega

/-- A store into the last level changes one entry. -/
theorem entry_put (separate : Separate s root) (reached : s.table root (spine vpn) = some low)
    (small : vpn < 512 ^ 3) {other : Nat} (otherSmall : other < 512 ^ 3) :
    (s.put (low, ix 0 vpn) pte).entry root other =
      if other = vpn then (if pte &&& pteV ≠ 0 then some pte else none)
      else s.entry root other := by
  unfold Phys.entry
  rw [table_put separate reached (Nat.le_of_eq (spine_length other))]
  by_cases same : other = vpn
  · subst same
    rw [reached, Option.bind_some, put_self, if_pos rfl]
  · rw [if_neg same]
    cases at_ : s.table root (spine other) with
    | none => rfl
    | some page =>
      have different : ¬(page = low ∧ ix 0 other = ix 0 vpn) := by
        rintro ⟨rfl, lowIndex⟩
        have spines := separate _ _ _ (Nat.le_of_eq (spine_length other))
          (Nat.le_of_eq (spine_length vpn)) at_ reached
        simp only [spine, List.cons.injEq, and_true] at spines
        exact same (ix_injective otherSmall small spines.1 spines.2 lowIndex)
      rw [Option.bind_some, Option.bind_some, put_other different]

end StoreLeaf

/-- The blank page `fresh` below entry `i` of `page`. -/
def Phys.grafted (s : Phys) (page : UInt64) (i : Fin 512) (fresh : UInt64) : Phys :=
  (s.setPage fresh (junk 0)).put (page, i) (pointer fresh)

section Graft

variable {s : Phys} {root page fresh : UInt64} {spot : List (Fin 512)} {i : Fin 512}

theorem grafted_other {other : UInt64} (notPage : other ≠ page) (notFresh : other ≠ fresh) :
    (s.grafted page i fresh).mem other = s.mem other := by
  rw [Phys.grafted, put_other_page notPage]
  exact setPage_other notFresh

theorem grafted_fresh (different : page ≠ fresh) : (s.grafted page i fresh).mem fresh = junk 0 := by
  rw [Phys.grafted, put_other_page different.symm]
  exact setPage_self

theorem table_graft (separate : Separate s root) (short : spot.length < 2)
    (reached : s.table root spot = some page) (vacant : s.mem page i &&& pteV = 0)
    (unreached : ∀ path, path.length ≤ 2 → s.table root path ≠ some fresh)
    (aligned : Aligned fresh) {path : List (Fin 512)} (isShort : path.length ≤ 2) :
    (s.grafted page i fresh).table root path =
      if path = spot ++ [i] then some fresh else s.table root path := by
  apply Radix.descend_graft reached (child_of_invalid vacant) _ unreached _ (child_pointer aligned)
    (fun j => child_of_invalid (junk_zero j)) path isShort
  · intro other otherShort isPage
    exact separate other spot page otherShort (by omega) isPage reached
  · intro same
    exact unreached spot (by omega) (same ▸ reached)

/-- A new page-table page maps nothing. -/
theorem entry_graft (separate : Separate s root) (short : spot.length < 2)
    (reached : s.table root spot = some page) (vacant : s.mem page i &&& pteV = 0)
    (unreached : ∀ path, path.length ≤ 2 → s.table root path ≠ some fresh)
    (aligned : Aligned fresh) (vpn : Nat) :
    (s.grafted page i fresh).entry root vpn = s.entry root vpn := by
  have differs : page ≠ fresh := by
    intro same
    exact unreached spot (by omega) (same ▸ reached)
  unfold Phys.entry
  rw [table_graft separate short reached vacant unreached aligned
    (Nat.le_of_eq (spine_length vpn))]
  by_cases new : spine vpn = spot ++ [i]
  · have before : s.table root (spine vpn) = none := by
      rw [new]
      unfold Phys.table at reached ⊢
      rw [Radix.descend_snoc, reached, Option.bind_some, child_of_invalid vacant]
    rw [if_pos new, before, Option.bind_some, Option.bind_none, grafted_fresh differs,
      if_neg fun valid => valid (junk_zero _)]
  · rw [if_neg new]
    cases at_ : s.table root (spine vpn) with
    | none => rfl
    | some low =>
      have notPage : low ≠ page := by
        rintro rfl
        have same := separate _ _ _ (Nat.le_of_eq (spine_length vpn)) (by omega) at_ reached
        have lengths := congrArg List.length same
        rw [spine_length] at lengths
        omega
      have notFresh : low ≠ fresh := by
        rintro rfl
        exact unreached _ (Nat.le_of_eq (spine_length vpn)) at_
      rw [Option.bind_some, Option.bind_some, grafted_other notPage notFresh]

end Graft

end Xv6.Kernel.Vm
