import Xv6.Kernel.Vm.User

/-!
Copying user memory to a new table.

Owns: what unmapping all user pages of a table leaves, and the specification of
`uvmcopy`.

Does not own: who calls it, and what becomes of the new table's interior pages.
-/

namespace Xv6.Kernel.Vm

open Xv6.Lib Function

section Free

variable {k : Layout} {roots keep : Set UInt64} {s : Phys} {b : Books} {root : UInt64}
  {space : Space} {n : Nat} {top : Nat → Option Leaf}

theorem wp_unmapUser {npages : UInt64} (sane : k.Sane) (ledger : Ledger k.pages s b)
    (kept : keep ⊆ b.held) (mine : root ∈ roots) (isSpace : b.spaces root = some space)
    (image : Image n top space) (isCount : npages.toNat = n) :
    wp (uvmunmap k root 0 npages true) s
      (fun _ t => Effect k.pages roots keep s b t (b.setSpace root (space.cleared 0 n)))
      fun _ _ => False := by
  have bound := image.bound sane ledger isSpace
  have room : n ≤ userLimit := by
    unfold userLimit
    omega
  have first : vpn 0 = 0 := rfl
  refine wp_mono (wp_uvmunmap ledger kept mine isSpace rfl ?_ ?_) ?_ fun _ _ absurd => absurd
  · rw [isCount]
    change 0 + n * 4096 ≤ 2 ^ 38
    omega
  · rw [isCount, first]
    intro v _ last
    exact image.unmappable ledger isSpace room (by omega)
  · rw [isCount, first]
    exact fun _ _ effect => effect

end Free

section Copy

variable {k : Layout} {roots keep : Set UInt64} {s : Phys} {b : Books} {old new : UInt64}
  {source space : Space} {n total : Nat} {top' : Nat → Option Leaf}

theorem pteFlags_small (pte : UInt64) : (pteFlags pte).toNat < 1024 := by
  rw [pteFlags_toNat]
  exact Nat.mod_lt _ (by decide)

theorem wp_uncopy {i : UInt64} (sane : k.Sane) (ledger : Ledger k.pages s b)
    (kept : keep ⊆ b.held) (mine : new ∈ roots) (isSpace : b.spaces new = some space)
    (image : Image n top' space) (isI : i.toNat = n * 4096) :
    wp (uvmunmap k new 0 (i / pgSize) true) s
      (fun _ t => Effect k.pages roots keep s b t (b.setSpace new (space.cleared 0 n)))
      fun _ _ => False := by
  apply wp_unmapUser sane ledger kept mine isSpace image
  rw [UInt64.toNat_div, isI]
  change n * 4096 / 4096 = n
  omega

/-- A page of the parent in the child: its flags and its contents in `t`, on a page that
was free in `s`. -/
def Duplicate (s t : Phys) (parent : Leaf) (child : Option Leaf) : Prop :=
  ∃ pte, child = some ⟨pte, true⟩ ∧ pteFlags pte = pteFlags parent.pte ∧
    pte2pa pte ∈ s.freelist ∧ t.mem (pte2pa pte) = s.mem (pte2pa parent.pte)

/-- The child has the pages from `first` to `last` of the parent. -/
def Copied (s t : Phys) (source space : Space) (first last : Nat) : Prop :=
  ∀ v parent, first ≤ v → v < last → source v = some parent → Duplicate s t parent (space v)

theorem or_one_of_odd {x : Nat} (odd : x % 2 = 1) : x ||| 1 = x := by
  apply Nat.eq_of_testBit_eq
  intro i
  rw [Nat.testBit_or]
  cases i with
  | zero => rw [Nat.testBit_zero, odd]; rfl
  | succ i => rw [Nat.testBit_succ 1, show 1 / 2 = 0 from rfl, Nat.zero_testBit, Bool.or_false]

theorem leafPte_pteFlags {pa pte : UInt64} (valid : pte &&& pteV ≠ 0) :
    pteFlags (leafPte pa (pteFlags pte)) = pteFlags pte := by
  have odd : (pteFlags pte).toNat % 2 = 1 := by
    rw [Ne, ← UInt64.toNat_inj, UInt64.toNat_and] at valid
    change ¬(pte.toNat &&& 1 = 0) at valid
    rw [Nat.and_one_is_mod] at valid
    rw [pteFlags_toNat]
    omega
  rw [leafPte_flags (pteFlags_small pte), ← UInt64.toNat_inj, UInt64.toNat_or]
  exact or_one_of_odd odd

theorem wp_uvmcopyLoop {i : UInt64} {count : Nat} (sane : k.Sane) (ledger : Ledger k.pages s b)
    (kept : keep ⊆ b.held) (theirs : old ∉ roots) (mine : new ∈ roots)
    (isSource : b.spaces old = some source) (whole : Mapped total source)
    (isSpace : b.spaces new = some space) (image : Image n top' space)
    (isI : i.toNat = n * 4096) (sum : n + count = total) :
    wp (uvmcopyLoop k old new count i) s
      (fun r t => (r = 0 ∧ ∃ space', Image total top' space' ∧
          (∀ v, v < n → space' v = space v) ∧ Intact new {v | v < n} s b t ∧
          Copied s t source space' n total ∧
          Effect k.pages roots keep s b t (b.setSpace new space')) ∨
        (r = -1 ∧ Effect k.pages roots keep s b t (b.setSpace new (space.cleared 0 n))))
      fun _ _ => False := by
  induction count generalizing s b space n i with
  | zero =>
    rw [uvmcopyLoop, wp_pure]
    refine .inl ⟨rfl, space, sum ▸ image, fun _ _ => rfl, Intact.refl,
      fun v _ first last => by omega, ?_⟩
    rw [Books.setSpace_same isSpace]
    exact Effect.refl ledger kept
  | succ count ih =>
    have bound := whole.bound sane ledger isSource
    have room : n < userLimit := by
      unfold userLimit
      omega
    have different : old ≠ new := by
      rintro rfl
      exact theirs mine
    have isVpn : vpn i = n := by
      unfold vpn
      omega
    have inside : i < maxVa := by
      rw [lt_maxVa_toNat]
      omega
    obtain ⟨leaf, isLeaf, _, valid⟩ := whole n (by omega)
    obtain ⟨low, reached, isPte, isValid⟩ := ledger.slot isSource (by omega) isLeaf
    have found := walk_lookup s old inside
    rw [isVpn, reached] at found
    rw [uvmcopyLoop, wp_bind, wp_ok found]
    simp only [Option.map_some, load, wp_bind, wp_get, wp_pure, isPte]
    rw [if_neg isValid, wp_bind]
    refine wp_mono (wp_kalloc_intact new Set.univ roots ledger kept) ?_ fun _ _ absurd => absurd
    rintro mem t ⟨given, ⟨isZero, effect⟩ | ⟨notZero, fresh, effect, fewer, isFree⟩⟩
    · rw [if_pos isZero, wp_bind]
      refine wp_mono (wp_uncopy sane effect.ledger kept mine isSpace image isI) ?_
        fun _ _ absurd => absurd
      intro _ u undone
      exact .inr ⟨rfl, effect.trans undone⟩
    · have isHeld : mem ∈ (b.hold mem).held := Set.mem_insert mem b.held
      have notKept : mem ∉ keep := fun isKept => fresh (kept isKept)
      have stored := Effect.setPage roots effect.ledger effect.kept isHeld notKept
        (t.mem (pte2pa leaf.pte))
      have ready := effect.trans stored
      have filled := given.fill effect.ledger (t.mem (pte2pa leaf.pte))
      have pageAligned := (ledger.aligned mem (effect.ledger.isPage (x := .held) isHeld)).2
      have isPage := leafPte_pte2pa pageAligned (pteFlags_small leaf.pte)
      have isLeafPerm : pteFlags leaf.pte &&& (pteR ||| pteW ||| pteX) ≠ 0 := by
        rw [← and_pteFlags (by decide)]
        exact valid.2
      rw [if_neg notZero]
      simp only [setPage, wp_bind, wp_get, wp_modify]
      refine wp_mono (wp_mapUser sane ready.ledger ready.kept mine isSpace image isI isHeld notKept
        (pteFlags_small leaf.pte) isLeafPerm) ?_ fun _ _ absurd => absurd
      rintro r u ⟨⟨intact, content, subset⟩, ⟨isZero, mapped, bigger⟩ | ⟨isFail, failed⟩⟩
      · rw [if_neg (not_not.mpr isZero)]
        rw [Books.drop_hold fresh] at mapped
        have all := ready.trans mapped
        have soFar : Intact new Set.univ s b u := filled.trans intact fun _ _ => rfl
        have equal : u.mem mem = s.mem (pte2pa leaf.pte) :=
          (content.trans setPage_self).trans (effect.mem (.user old n) _
            (whole.holds isSource (by omega) (by omega) isLeaf) theirs)
        obtain ⟨nextAddr, _⟩ := vpn_next (a := i) (by omega)
        refine wp_mono (ih all.ledger all.kept
          ((Books.setSpace_other different).trans isSource) Books.setSpace_self bigger
          (by rw [nextAddr]; omega) (by omega)) ?_ fun _ _ absurd => absurd
        rintro result v (⟨isZero, space', isImage, agree, later, copied, after⟩ | ⟨isFail, after⟩)
        · rw [Books.setSpace_setSpace] at after
          refine .inl ⟨isZero, space', isImage, ?_, ?_, ?_, all.trans after⟩
          · intro w below
            rw [agree w (by omega), update_of_ne (by omega)]
          · refine (soFar.mono (Set.subset_univ _)).trans
              (later.mono fun w below => Nat.lt_succ_of_lt below) fun w below => ?_
            exact Books.owned_agree isSpace (update_of_ne (Nat.ne_of_lt below) _ _)
          · intro w parent first last isParent
            by_cases here : w = n
            · subst here
              rw [isLeaf] at isParent
              obtain rfl := Option.some.inj isParent
              have isChild := agree w (Nat.lt_succ_self w)
              rw [update_self] at isChild
              refine ⟨_, isChild, leafPte_pteFlags valid.1, isPage.symm ▸ isFree, ?_⟩
              rw [isPage, later w mem (Nat.lt_succ_self w) ?_, equal]
              refine ⟨by omega, ?_⟩
              rw [Books.owned_of_space Books.setSpace_self, update_self,
                Option.bind_some, Leaf.page, if_pos rfl, isPage]
            · obtain ⟨pte, isChild, flags, wasFree, same⟩ :=
                copied w parent (by omega) last isParent
              refine ⟨pte, isChild, flags, fewer (subset wasFree), same.trans ?_⟩
              exact all.mem (.user old w) _ (whole.holds isSource (by omega) last isParent) theirs
        · rw [Books.setSpace_setSpace] at after
          have undone := image.cleared_push (Nat.zero_le n) room
            (some ⟨leafPte mem (pteFlags leaf.pte), true⟩)
          rw [Nat.sub_zero, Nat.sub_zero] at undone
          rw [undone] at after
          exact .inr ⟨isFail, all.trans after⟩
      · rw [if_pos (by rw [isFail]; decide), wp_bind]
        have all := ready.trans failed
        have managed : k.Managed mem := all.ledger.isPage (x := .held) isHeld
        refine wp_mono (wp_kfree roots all.ledger all.kept managed isHeld notKept) ?_
          fun _ _ absurd => absurd
        rintro _ v ⟨freed, _⟩
        rw [Books.drop_hold fresh] at freed
        have back := all.trans freed
        rw [wp_bind]
        refine wp_mono (wp_uncopy sane back.ledger kept mine isSpace image isI) ?_
          fun _ _ absurd => absurd
        intro _ w undone
        exact .inr ⟨rfl, back.trans undone⟩

/-- `uvmcopy` into a table without user pages: all pages, or none. -/
theorem wp_uvmcopy {sz : UInt64} (sane : k.Sane) (ledger : Ledger k.pages s b)
    (kept : keep ⊆ b.held) (theirs : old ∉ roots) (mine : new ∈ roots)
    (isSource : b.spaces old = some source) (whole : Mapped total source)
    (isSize : pagesOf sz = total) (isSpace : b.spaces new = some space)
    (image : Image 0 top' space) :
    wp (uvmcopy k old new sz) s
      (fun r t => (r = 0 ∧ ∃ space', Image total top' space' ∧ Copied s t source space' 0 total ∧
          Effect k.pages roots keep s b t (b.setSpace new space')) ∨
        (r = -1 ∧ Effect k.pages roots keep s b t b))
      fun _ _ => False := by
  have count : pagesBetween 0 sz = total := by
    rw [← isSize]
    unfold pagesBetween pagesOf
    split_ifs with positive
    · rw [UInt64.sub_zero]
    · rw [UInt64.lt_iff_toNat_lt] at positive
      change ¬0 < sz.toNat at positive
      omega
  unfold uvmcopy
  rw [count]
  refine wp_mono (wp_uvmcopyLoop sane ledger kept theirs mine isSource whole isSpace image rfl
    (Nat.zero_add total)) ?_ fun _ _ absurd => absurd
  rintro r t (⟨isZero, space', isImage, _, _, copied, effect⟩ | ⟨isFail, undone⟩)
  · exact .inl ⟨isZero, space', isImage, copied, effect⟩
  · rw [Space.cleared_zero, Books.setSpace_same isSpace] at undone
    exact .inr ⟨isFail, undone⟩

end Copy

end Xv6.Kernel.Vm
