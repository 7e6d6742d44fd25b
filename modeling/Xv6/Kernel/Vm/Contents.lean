import Xv6.Kernel.Vm.Walk

/-!
The contents of user pages while their table changes.

Owns: that `kalloc`, `kfree`, `mappages` and `uvmunmap` leave the user pages alone
that stay mapped, and that new pages come from the free list. A page is handed to an
outside holder in the books; the effect of the call on held pages then says that it
does not change.

Does not own: the mappings themselves.
-/

namespace Xv6.Kernel.Vm

open Xv6.Lib Function

/-- The pages that the table owns at these page numbers have the same contents. -/
def Intact (root : UInt64) (which : Set Nat) (s : Phys) (b : Books) (t : Phys) : Prop :=
  ∀ v page, v ∈ which → Holds s b (.user root v) page → t.mem page = s.mem page

section Intact

variable {pages roots keep : Set UInt64} {root : UInt64} {which : Set Nat} {s t u : Phys}
  {b b' : Books} {space : Space} {k : Layout}

theorem Intact.refl : Intact root which s b s := fun _ _ _ _ => rfl

theorem Intact.mono {fewer : Set Nat} (intact : Intact root which s b t) (subset : fewer ⊆ which) :
    Intact root fewer s b t := fun v page member => intact v page (subset member)

theorem Intact.trans (first : Intact root which s b t) (second : Intact root which t b' u)
    (same : ∀ v ∈ which, b'.owned root v = b.owned root v) : Intact root which s b u := by
  intro v page member holds
  rw [second v page member ⟨holds.1, (same v member).trans holds.2⟩, first v page member holds]

/-- A table that maps a page number as before owns the same page there. -/
theorem Books.owned_agree (isSpace : b.spaces root = some space) {space' : Space} {v : Nat}
    (agree : space' v = space v) : (b.setSpace root space').owned root v = b.owned root v := by
  rw [Books.owned_of_space isSpace, Books.owned_of_space Books.setSpace_self, agree]

/-- The user pages of a table that is not concerned. -/
theorem Effect.intact (effect : Effect pages roots keep s b t b') (other : root ∉ roots) :
    Intact root which s b t :=
  fun v page _ holds => effect.mem (.user root v) page holds other

theorem wp_intact {Result : Type} {program : VmM Result} (ledger : Ledger pages s b)
    (isSpace : b.spaces root = some space)
    (run : ∀ v pte, v ∈ which → space v = some ⟨pte, true⟩ →
      Ledger pages s ((b.hold (pte2pa pte)).setSpace root
        (update space v (some ⟨pte, false⟩))) →
      wp program s (fun _ t => ∃ books, Effect pages {root} {pte2pa pte} s
        ((b.hold (pte2pa pte)).setSpace root (update space v (some ⟨pte, false⟩))) t books)
        fun _ _ => True) :
    wp program s (fun _ t => Intact root which s b t) fun _ _ => True := by
  refine wp_forall fun v => wp_forall fun page => wp_forall fun member => wp_forall fun holds => ?_
  obtain ⟨small, owned⟩ := holds
  rw [Books.owned_of_space isSpace] at owned
  obtain ⟨⟨pte, isOwned⟩, isLeaf, isPage⟩ := Option.bind_eq_some_iff.mp owned
  cases isOwned with
  | false => exact absurd isPage (Option.some_ne_none page).symm
  | true =>
    obtain rfl : pte2pa pte = page := Option.some.inj isPage
    obtain ⟨given, _⟩ := ledger.disown isSpace small isLeaf
    refine wp_mono (run v pte member isLeaf given) ?_ fun _ _ stopped => stopped
    rintro _ t ⟨books, effect⟩
    exact effect.mem .held _ (Set.mem_insert _ _) rfl

theorem wp_kalloc_free (s : Phys) :
    wp kalloc s (fun r t => t.freelist ⊆ s.freelist ∧ (r ≠ 0 → r ∈ s.freelist))
      fun _ _ => False := by
  unfold wp kalloc
  split_ifs
  · exact ⟨List.Subset.refl _, fun notZero => absurd rfl notZero⟩
  · cases free : s.freelist with
    | nil => exact ⟨free ▸ List.Subset.refl _, fun notZero => absurd rfl notZero⟩
    | cons r rest => exact ⟨List.subset_cons_self r rest, fun _ => List.mem_cons_self⟩

theorem wp_walkLoop_free {va : UInt64} {alloc : Bool} (level : Nat)
    (pagetable : UInt64) (s : Phys) :
    wp (walkLoop va alloc level pagetable) s (fun _ t => t.freelist ⊆ s.freelist)
      fun _ _ => True := by
  induction level generalizing pagetable s with
  | zero => exact List.Subset.refl s.freelist
  | succ level ih =>
    simp only [walkLoop, load, wp_bind, wp_get, wp_pure, wp_ite]
    split_ifs
    · exact ih _ s
    · refine wp_mono (wp_kalloc_free s) ?_ fun _ _ absurd => absurd.elim
      rintro page t ⟨subset, _⟩
      split_ifs
      · exact subset
      · simp only [setPage, put, wp_modify]
        exact wp_mono (ih page _) (fun _ _ later => List.Subset.trans later subset)
          fun _ _ stopped => stopped
    · exact List.Subset.refl s.freelist

theorem wp_mappages_free {va size pa perm : UInt64} (s : Phys) :
    wp (mappages root va size pa perm) s (fun _ t => t.freelist ⊆ s.freelist) fun _ _ => True := by
  have loop : ∀ count a pa s, wp (mappagesLoop root perm count a pa) s
      (fun _ t => t.freelist ⊆ s.freelist) fun _ _ => True := by
    intro count
    induction count with
    | zero => exact fun _ _ s => List.Subset.refl s.freelist
    | succ count ih =>
      intro a pa s
      simp only [mappagesLoop, walk, wp_bind, wp_ite, wp_throw, wp_pure]
      split_ifs
      refine wp_mono (wp_walkLoop_free 2 root s) ?_ fun _ _ stopped => stopped
      intro low t subset
      cases low with
      | none => exact subset
      | some low =>
        simp only [Option.map_some, load, put, wp_bind, wp_get, wp_pure, wp_ite, wp_throw,
          wp_modify]
        split_ifs
        exact wp_mono (ih _ _ _)
          (fun _ _ later => List.Subset.trans later subset) fun _ _ stopped => stopped
  unfold mappages
  simp only [wp_ite, wp_throw]
  split_ifs
  exact loop _ _ _ s

/-- `kalloc` and the user pages. -/
theorem wp_kalloc_intact (root : UInt64) (which : Set Nat) (roots : Set UInt64)
    (ledger : Ledger pages s b) (kept : keep ⊆ b.held) :
    wp kalloc s (fun r t => Intact root which s b t ∧ ((r = 0 ∧ Effect pages roots keep s b t b) ∨
      (r ≠ 0 ∧ r ∉ b.held ∧ Effect pages roots keep s b t (b.hold r) ∧
        t.freelist ⊆ s.freelist ∧ r ∈ s.freelist))) fun _ _ => False := by
  refine wp_mono (wp_inter (wp_kalloc_free s)
    (wp_inter (wp_kalloc roots ledger kept) (wp_kalloc ∅ ledger kept))) ?_
    fun _ _ stopped => stopped.1
  rintro r t ⟨⟨subset, isFree⟩, first, second⟩
  constructor
  · rcases second with ⟨_, effect, _⟩ | ⟨_, _, effect, _⟩
    · exact effect.intact (Set.notMem_empty root)
    · exact effect.intact (Set.notMem_empty root)
  · rcases first with ⟨isZero, effect, _⟩ | ⟨notZero, new, effect, _⟩
    · exact .inl ⟨isZero, effect⟩
    · exact .inr ⟨notZero, new, effect, subset, isFree notZero⟩

/-- `kfree` and the user pages. -/
theorem wp_kfree_intact {page : UInt64} (root : UInt64) (which : Set Nat) (roots : Set UInt64)
    (ledger : Ledger pages s b) (kept : keep ⊆ b.held) (managed : k.Managed page)
    (isHeld : page ∈ b.held) (notKept : page ∉ keep) :
    wp (kfree k page) s (fun _ t => Intact root which s b t ∧
      Effect pages roots keep s b t (b.drop page))
      fun _ _ => False := by
  refine wp_mono (wp_inter (wp_kfree roots ledger kept managed isHeld notKept)
    (wp_kfree ∅ ledger kept managed isHeld notKept)) ?_ fun _ _ stopped => stopped.1
  rintro r t ⟨⟨first, _⟩, second, _⟩
  exact ⟨second.intact (Set.notMem_empty root), first⟩

/-- A new page that the caller fills, and the user pages. -/
theorem Intact.fill {page : UInt64} (intact : Intact root which s b t)
    (ledger : Ledger pages t (b.hold page))
    (content : Page) : Intact root which s b (t.setPage page content) := by
  have filled := Effect.setPage ∅ ledger (Set.empty_subset _) (Set.mem_insert page b.held)
    (Set.notMem_empty page) content
  exact intact.trans (filled.intact (Set.notMem_empty root)) fun _ _ => rfl

/-- `mappages` of one page, the user pages, the pages that are held and the free list. -/
theorem wp_mapOne_intact {va pa perm : UInt64} (which : Set Nat) (ledger : Ledger pages s b)
    (isSpace : b.spaces root = some space) (aligned : Aligned va) (inside : va < maxVa)
    (unmapped : space (vpn va) = none) :
    wp (mappages root va pgSize pa perm) s
      (fun _ t => Intact root which s b t ∧ (∀ page ∈ b.held, t.mem page = s.mem page) ∧
        t.freelist ⊆ s.freelist) fun _ _ => True := by
  refine wp_and (wp_intact ledger isSpace fun v pte _ isLeaf given => ?_)
    (wp_and ?_ (wp_mappages_free s))
  · have elsewhere : vpn va ≠ v := by
      rintro rfl
      rw [unmapped] at isLeaf
      exact absurd isLeaf (Option.some_ne_none _).symm
    refine wp_mono (wp_mapOne given (Set.singleton_subset_iff.mpr (Set.mem_insert _ _))
      (Set.mem_singleton root) Books.setSpace_self aligned inside ?_) ?_
        fun _ _ stopped => stopped.elim
    · rw [update_of_ne elsewhere, unmapped]
    · rintro r t (⟨_, effect⟩ | ⟨_, effect⟩)
      · exact ⟨_, effect⟩
      · exact ⟨_, effect⟩
  · refine wp_mono
      (wp_mapOne ledger (Set.Subset.refl b.held) (Set.mem_singleton root) isSpace aligned
      inside unmapped) ?_ fun _ _ stopped => stopped.elim
    rintro r t (⟨_, effect⟩ | ⟨_, effect⟩) page isHeld
    · exact effect.mem .held page isHeld isHeld
    · exact effect.mem .held page isHeld isHeld

/-- `uvmunmap` and the user pages outside what it unmaps. -/
theorem wp_uvmunmap_intact {va npages : UInt64} {doFree : Bool} (which : Set Nat)
    (ledger : Ledger pages s b) (isSpace : b.spaces root = some space) (aligned : Aligned va)
    (room : va.toNat + npages.toNat * 4096 ≤ 2 ^ 38)
    (mapped : ∀ v, vpn va ≤ v → v < vpn va + npages.toNat →
      ∃ leaf, space v = some leaf ∧ Unmappable k doFree leaf)
    (apart : ∀ v ∈ which, v < vpn va ∨ vpn va + npages.toNat ≤ v) :
    wp (uvmunmap k root va npages doFree) s (fun _ t => Intact root which s b t)
      fun _ _ => True := by
  refine wp_intact ledger isSpace fun v pte member _ given => ?_
  refine wp_mono (wp_uvmunmap given (Set.singleton_subset_iff.mpr (Set.mem_insert _ _))
    (Set.mem_singleton root) Books.setSpace_self aligned room ?_) ?_ fun _ _ stopped => stopped.elim
  · intro w first last
    have outside := apart v member
    rw [update_of_ne (by omega)]
    exact mapped w first last
  · exact fun _ t effect => ⟨_, effect⟩

/-- The entries of a table and the contents of its pages are as before. -/
def Unchanged (root : UInt64) (which : Set Nat) (s : Phys) (b : Books) (t : Phys) : Prop :=
  (∀ v, v < 512 ^ 3 → t.entry root v = s.entry root v) ∧ Intact root which s b t

/-- A table with the same entry in the books has the same entries. -/
theorem Ledger.same_entries (before : Ledger pages s b) (after : Ledger pages t b')
    (isSpace : b.spaces root = some space) (same : b'.spaces root = some space) (v : Nat)
    (small : v < 512 ^ 3) : t.entry root v = s.entry root v := by
  rw [after.maps root space same v small, before.maps root space isSpace v small]

/-- A table that is not concerned. -/
theorem Effect.unchanged (effect : Effect pages roots keep s b t b') (ledger : Ledger pages s b)
    (isSpace : b.spaces root = some space) (other : root ∉ roots) :
    Unchanged root Set.univ s b t :=
  ⟨ledger.same_entries effect.ledger isSpace ((effect.spaces root other).trans isSpace),
    effect.intact other⟩

/-- Every page that was free is free, or a page of the table itself. -/
def Returned (root : UInt64) (s t : Phys) : Prop :=
  ∀ page ∈ s.freelist, page ∈ t.freelist ∨ ∃ path, path.length ≤ 2 ∧ t.table root path = some page

/-- With the same books, a page that was free can only have become part of the table. -/
theorem Effect.returned (effect : Effect pages {root} keep s b t b) (ledger : Ledger pages s b) :
    Returned root s t := by
  intro page member
  have isFree : Holds s b .free page := member
  obtain ⟨place, holds⟩ := effect.ledger.exists_place (ledger.isPage isFree)
  cases place with
  | free => exact .inl holds
  | table other path =>
    obtain ⟨live, short, reached⟩ := holds
    by_cases same : other = root
    · exact .inr ⟨path, short, same ▸ reached⟩
    · rw [table_frame (fun path' page' short' reached' =>
        effect.mem (.table other path') page' ⟨live, short', reached'⟩ same) short] at reached
      exact absurd ⟨live, short, reached⟩
        (ledger.only isFree (y := .table other path) Place.noConfusion)
  | user other v => exact absurd holds (ledger.only isFree (y := .user other v) Place.noConfusion)
  | held => exact absurd holds (ledger.only isFree (y := .held) Place.noConfusion)

end Intact

end Xv6.Kernel.Vm
