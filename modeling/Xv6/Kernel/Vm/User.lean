import Xv6.Kernel.Vm.Contents

/-!
User memory: the pages from address 0 up to the size of a process.

Owns: the image of a process in its page table, the bound on its size, and the
specifications of `uvmcreate`, `uvmalloc` and `uvmdealloc`.

Does not own: the trampoline and trapframe pages above user memory, which are given.
-/

namespace Xv6.Kernel.Vm

open Xv6.Lib Function

/-- The kernel is loaded at `KERNBASE`. -/
structure Layout.Sane (k : Layout) : Prop where
  base : kernBase ≤ k.kernelEnd

/-- The pages of the allocator. -/
def Layout.pages (k : Layout) : Set UInt64 := {page | k.Managed page}

/-- The page number of `TRAPFRAME`, the first above user memory. -/
def userLimit : Nat := 2 ^ 26 - 2

/-- The first `n` pages are mapped, onto pages of the table's own. -/
def Mapped (n : Nat) (space : Space) : Prop :=
  ∀ v, v < n → ∃ leaf, space v = some leaf ∧ leaf.owned = true ∧ IsLeaf leaf.pte

/-- A page table with `n` user pages from address 0 on, and `top` above user
memory. -/
structure Image (n : Nat) (top : Nat → Option Leaf) (space : Space) : Prop where
  user : ∀ v, v < n → ∃ leaf, space v = some leaf ∧ leaf.owned = true ∧ IsLeaf leaf.pte
  gap : ∀ v, n ≤ v → v < userLimit → space v = none
  top : ∀ v, userLimit ≤ v → space v = top v

section Bounds

variable {k : Layout} {s : Phys} {b : Books} {root : UInt64} {space : Space} {n : Nat}
  {top : Nat → Option Leaf}

/-- The allocator has 32768 pages at most. -/
theorem managed_index (sane : k.Sane) {page : UInt64} (managed : k.Managed page) :
    2 ^ 31 ≤ page.toNat ∧ page.toNat < 2 ^ 31 + 2 ^ 27 ∧ page.toNat % 4096 = 0 := by
  obtain ⟨aligned, low, high⟩ := managed
  have base := sane.base
  rw [UInt64.le_iff_toNat_le] at low base
  rw [UInt64.lt_iff_toNat_lt] at high
  have isBase : kernBase.toNat = 2 ^ 31 := by decide +kernel
  have isTop : physTop.toNat = 2 ^ 31 + 2 ^ 27 := by decide +kernel
  exact ⟨by omega, by omega, mod_pgSize_eq_zero.mp aligned⟩

/-- An empty table. -/
theorem Image.blank : Image 0 (fun _ => none) fun _ => none :=
  ⟨fun _ absurd => (Nat.not_lt_zero _ absurd).elim, fun _ _ _ => rfl, fun _ _ => rfl⟩

/-- The table owns its user pages. -/
theorem Mapped.holds (mapped : Mapped n space) (isSpace : b.spaces root = some space) {v : Nat}
    (small : v < 512 ^ 3) (inside : v < n) {leaf : Leaf} (isLeaf : space v = some leaf) :
    Holds s b (.user root v) (pte2pa leaf.pte) := by
  obtain ⟨other, isOther, owned, _⟩ := mapped v inside
  obtain rfl : leaf = other := Option.some.inj (isLeaf.symm.trans isOther)
  refine ⟨small, ?_⟩
  rw [Books.owned_of_space isSpace, isLeaf, Option.bind_some, Leaf.page, if_pos owned]

/-- Each user page takes a page of memory. -/
theorem Mapped.bound (mapped : Mapped n space) (sane : k.Sane) (ledger : Ledger k.pages s b)
    (isSpace : b.spaces root = some space) : n ≤ 32768 := by
  by_contra many
  have found : ∀ v : Fin 32769, ∃ page, Holds s b (.user root v.val) page := by
    intro v
    have isLt := v.isLt
    obtain ⟨leaf, isLeaf, _⟩ := mapped v.val (by omega)
    exact ⟨_, mapped.holds isSpace (by omega) (by omega) isLeaf⟩
  choose page holds using found
  have inRange := fun v => managed_index sane (ledger.isPage (holds v))
  have index : ∀ v, ((page v).toNat - 2 ^ 31) / 4096 < 32768 := by
    intro v
    have bounds := inRange v
    omega
  have injective : Function.Injective fun v => (⟨_, index v⟩ : Fin 32768) := by
    intro v w same
    have value : ((page v).toNat - 2 ^ 31) / 4096 = ((page w).toNat - 2 ^ 31) / 4096 :=
      congrArg Fin.val same
    have first := inRange v
    have second := inRange w
    have samePage : page v = page w := by
      rw [← UInt64.toNat_inj]
      omega
    have places := ledger.unique (holds v) (samePage ▸ holds w)
    simp only [Place.user.injEq, true_and] at places
    exact Fin.ext places
  have cards := Fintype.card_le_of_injective _ injective
  rw [Fintype.card_fin, Fintype.card_fin] at cards
  omega

theorem Image.bound (image : Image n top space) (sane : k.Sane) (ledger : Ledger k.pages s b)
    (isSpace : b.spaces root = some space) : n ≤ 32768 :=
  Mapped.bound image.user sane ledger isSpace

theorem Image.cleared (image : Image n top space) {m : Nat} (fewer : m ≤ n) (room : n ≤ userLimit) :
    Image m top (space.cleared m (n - m)) := by
  refine ⟨?_, ?_, ?_⟩
  · intro v inside
    rw [Space.cleared, if_neg (by omega)]
    exact image.user v (by omega)
  · intro v outside below
    unfold Space.cleared
    split_ifs with between
    · rfl
    · exact image.gap v (by omega) below
  · intro v above
    rw [Space.cleared, if_neg (by omega)]
    exact image.top v above

theorem Image.push (image : Image n top space) (room : n < userLimit) {pte : UInt64}
    (leaf : IsLeaf pte) : Image (n + 1) top (update space n (some ⟨pte, true⟩)) := by
  refine ⟨?_, ?_, ?_⟩
  · intro v inside
    by_cases here : v = n
    · rw [here, update_self]
      exact ⟨_, rfl, rfl, leaf⟩
    · rw [update_of_ne here]
      exact image.user v (by omega)
  · intro v outside below
    rw [update_of_ne (by omega)]
    exact image.gap v (by omega) below
  · intro v above
    rw [update_of_ne (by omega)]
    exact image.top v above

/-- Taking back the last pages of a bigger image. -/
theorem Image.cleared_push (image : Image n top space) {m : Nat} (fewer : m ≤ n)
    (room : n < userLimit) (leaf : Option Leaf) :
    Space.cleared (update space n leaf) m (n + 1 - m) = space.cleared m (n - m) := by
  funext v
  unfold Space.cleared
  by_cases here : v = n
  · rw [here, if_pos (by omega), if_neg (by omega), image.gap n (Nat.le_refl n) room]
  · rw [update_of_ne here]
    by_cases between : m ≤ v ∧ v < m + (n - m)
    · rw [if_pos between, if_pos (by omega)]
    · rw [if_neg between, if_neg (by omega)]

end Bounds

section Grow

variable {k : Layout} {roots keep : Set UInt64} {s : Phys} {b : Books} {root : UInt64}
  {space : Space} {n : Nat} {top : Nat → Option Leaf}

/-- A held page becomes user page `n`. -/
theorem wp_mapUser {perm page : UInt64} {va : UInt64} (sane : k.Sane) (ledger : Ledger k.pages s b)
    (kept : keep ⊆ b.held) (mine : root ∈ roots) (isSpace : b.spaces root = some space)
    (image : Image n top space) (isVa : va.toNat = n * 4096) (isHeld : page ∈ b.held)
    (notKept : page ∉ keep) (small : perm.toNat < 1024)
    (leaf : perm &&& (pteR ||| pteW ||| pteX) ≠ 0) :
    wp (mappages root va pgSize page perm) s
      (fun r t => (Intact root Set.univ s b t ∧ t.mem page = s.mem page ∧ t.freelist ⊆ s.freelist) ∧
        ((r = 0 ∧ Effect k.pages roots keep s b t ((b.drop page).setSpace root
          (update space n (some ⟨leafPte page perm, true⟩))) ∧
          Image (n + 1) top (update space n (some ⟨leafPte page perm, true⟩))) ∨
        (r = -1 ∧ Effect k.pages roots keep s b t b)))
      fun _ _ => False := by
  have bound := image.bound sane ledger isSpace
  have room : n < userLimit := by
    unfold userLimit
    omega
  have isVpn : vpn va = n := by
    unfold vpn
    omega
  have aligned : Aligned va := by
    unfold Aligned
    omega
  have inside : va < maxVa := by
    rw [lt_maxVa_toNat]
    omega
  have holds : Holds s b .held page := isHeld
  have pageAligned := (ledger.aligned page (ledger.isPage holds)).2
  have isPage : pte2pa (leafPte page perm) = page := leafPte_pte2pa pageAligned small
  have isLeaf : IsLeaf (leafPte page perm) := leafPte_leaf small leaf
  have unmapped : space (vpn va) = none := by
    rw [isVpn]
    exact image.gap n (Nat.le_refl n) room
  refine wp_mono (wp_inter (wp_mapOne_intact Set.univ ledger isSpace aligned inside unmapped)
    (wp_mapOne ledger kept mine isSpace aligned inside unmapped)) ?_ fun _ _ stopped => stopped.2
  rintro r t ⟨⟨intact, others, subset⟩, outcome⟩
  refine ⟨⟨intact, others page isHeld, subset⟩, ?_⟩
  rcases outcome with ⟨isZero, effect⟩ | ⟨isFail, effect⟩
  · refine .inl ⟨isZero, ?_, image.push room isLeaf⟩
    rw [isVpn] at effect
    have isPlain : plain (leafPte page perm) = some ⟨leafPte page perm, false⟩ :=
      if_pos (leafPte_valid page perm)
    have owned := effect.ledger.own Books.setSpace_self (by omega)
      ((update_self n _ space).trans isPlain) (isPage.symm ▸ isHeld)
    rw [isPage, update_idem] at owned
    have books : ((b.setSpace root (update space n (plain (leafPte page perm)))).drop
        page).setSpace root (update space n (some ⟨leafPte page perm, true⟩)) =
        (b.drop page).setSpace root (update space n (some ⟨leafPte page perm, true⟩)) := by
      unfold Books.setSpace Books.drop
      rw [update_idem]
    rw [books] at owned
    refine ⟨owned, kept_drop kept notKept, ?_, effect.mem⟩
    intro other outside
    exact Books.setSpace_other fun same => outside (same ▸ mine)
  · exact .inr ⟨isFail, effect⟩

/-- The user pages can be unmapped and freed. -/
theorem Image.unmappable (image : Image n top space) (ledger : Ledger k.pages s b)
    (isSpace : b.spaces root = some space) (room : n ≤ userLimit) {v : Nat} (inside : v < n) :
    ∃ leaf, space v = some leaf ∧ Unmappable k true leaf := by
  obtain ⟨leaf, isLeaf, owned, valid⟩ := image.user v inside
  refine ⟨leaf, isLeaf, valid.flags, owned, fun _ => ?_⟩
  have small : v < 512 ^ 3 := by
    unfold userLimit at room
    omega
  exact ledger.isPage (Mapped.holds image.user isSpace small inside isLeaf)

theorem throughInt_small {x : UInt64} (small : x.toNat < 2 ^ 31) : throughInt x = x := by
  unfold throughInt
  rw [if_pos (by omega), Nat.mod_eq_of_lt (by omega)]
  exact UInt64.ofNat_toNat

/-- `uvmdealloc` -/
theorem wp_uvmdealloc {oldsz newsz : UInt64} (sane : k.Sane) (ledger : Ledger k.pages s b)
    (kept : keep ⊆ b.held) (mine : root ∈ roots) (isSpace : b.spaces root = some space)
    (image : Image n top space) (isOld : pagesOf oldsz = n) :
    wp (uvmdealloc k root oldsz newsz) s
      (fun r t => (oldsz ≤ newsz ∧ r = oldsz ∧ t = s) ∨
        (newsz < oldsz ∧ r = newsz ∧ Intact root {v | v < pagesOf newsz} s b t ∧
          Effect k.pages roots keep s b t
            (b.setSpace root (space.cleared (pagesOf newsz) (n - pagesOf newsz)))))
      fun _ _ => False := by
  have bound := image.bound sane ledger isSpace
  have room : n ≤ userLimit := by
    unfold userLimit
    omega
  unfold uvmdealloc
  by_cases grows : oldsz ≤ newsz
  · rw [if_pos grows, wp_pure]
    exact .inl ⟨grows, rfl, rfl⟩
  · have shrinks : newsz < oldsz := UInt64.not_le.mp grows
    have less : newsz.toNat < oldsz.toNat := UInt64.lt_iff_toNat_lt.mp shrinks
    have fewer : pagesOf newsz ≤ n := by
      rw [← isOld]
      unfold pagesOf
      omega
    have oldSmall : oldsz.toNat ≤ n * 4096 := by
      rw [← isOld]
      unfold pagesOf
      omega
    have up := pgRoundUp_toNat newsz (by omega)
    have upOld := pgRoundUp_toNat oldsz (by omega)
    rw [isOld] at upOld
    rw [if_neg grows, wp_ite]
    split_ifs with pagesLess
    · rw [wp_bind]
      rw [UInt64.lt_iff_toNat_lt, up, upOld] at pagesLess
      have count : ((pgRoundUp oldsz - pgRoundUp newsz) / pgSize).toNat = n - pagesOf newsz := by
        rw [UInt64.toNat_div, UInt64.toNat_sub_of_le _ _ (by
          rw [UInt64.le_iff_toNat_le, up, upOld]
          omega), up, upOld]
        change (n * 4096 - pagesOf newsz * 4096) / 4096 = _
        omega
      rw [throughInt_small (by omega)]
      have first : vpn (pgRoundUp newsz) = pagesOf newsz := by
        unfold vpn
        omega
      have aligned : Aligned (pgRoundUp newsz) := by
        unfold Aligned
        omega
      have fits : (pgRoundUp newsz).toNat +
          ((pgRoundUp oldsz - pgRoundUp newsz) / pgSize).toNat * 4096 ≤ 2 ^ 38 := by
        rw [count, up]
        omega
      have mapped : ∀ v, vpn (pgRoundUp newsz) ≤ v →
          v < vpn (pgRoundUp newsz) + ((pgRoundUp oldsz - pgRoundUp newsz) / pgSize).toNat →
          ∃ leaf, space v = some leaf ∧ Unmappable k true leaf := by
        rw [count, first]
        intro v _ last
        exact image.unmappable ledger isSpace room (by omega)
      refine wp_mono (wp_inter
        (wp_uvmunmap_intact {v | v < pagesOf newsz} ledger isSpace aligned fits mapped ?_)
        (wp_uvmunmap ledger kept mine isSpace aligned fits mapped)) ?_ fun _ _ stopped => stopped.2
      · intro v below
        rw [first]
        exact .inl below
      · rw [count, first]
        rintro _ t ⟨intact, effect⟩
        exact .inr ⟨shrinks, rfl, intact, effect⟩
    · rw [UInt64.lt_iff_toNat_lt, up, upOld] at pagesLess
      have same : n - pagesOf newsz = 0 := by omega
      rw [wp_pure]
      refine .inr ⟨shrinks, rfl, Intact.refl, ?_⟩
      rw [same, Space.cleared_zero, Books.setSpace_same isSpace]
      exact Effect.refl ledger kept

theorem wp_undo {a oldsz : UInt64} {m : Nat} (sane : k.Sane) (ledger : Ledger k.pages s b)
    (kept : keep ⊆ b.held) (mine : root ∈ roots) (isSpace : b.spaces root = some space)
    (image : Image n top space) (isA : a.toNat = n * 4096) (isOld : oldsz.toNat = m * 4096)
    (fewer : m ≤ n) :
    wp (uvmdealloc k root a oldsz) s
      (fun _ t => Intact root {v | v < m} s b t ∧
        Effect k.pages roots keep s b t (b.setSpace root (space.cleared m (n - m))))
      fun _ _ => False := by
  have pagesA : pagesOf a = n := by
    unfold pagesOf
    omega
  have pagesOld : pagesOf oldsz = m := by
    unfold pagesOf
    omega
  refine wp_mono (wp_uvmdealloc sane ledger kept mine isSpace image pagesA) ?_
    fun _ _ absurd => absurd
  rintro r t (⟨grows, _, rfl⟩ | ⟨_, _, intact, effect⟩)
  · rw [UInt64.le_iff_toNat_le] at grows
    have same : n - m = 0 := by omega
    rw [same, Space.cleared_zero, Books.setSpace_same isSpace]
    exact ⟨Intact.refl, Effect.refl ledger kept⟩
  · rw [pagesOld] at intact effect
    exact ⟨intact, effect⟩

/-- The pages from `first` to `last` are readable user pages with these permissions. -/
def Fresh (space : Space) (first last : Nat) (xperm : UInt64) : Prop :=
  ∀ v, first ≤ v → v < last →
    ∃ page, space v = some ⟨leafPte page (pteR ||| pteU ||| xperm), true⟩

/-- The pages from `first` to `last` are zero. -/
def Blank (t : Phys) (space : Space) (first last : Nat) : Prop :=
  ∀ v leaf, first ≤ v → v < last → space v = some leaf → t.mem (pte2pa leaf.pte) = junk 0

theorem wp_uvmallocLoop {oldsz newsz xperm a : UInt64} {m count : Nat} (sane : k.Sane)
    (ledger : Ledger k.pages s b) (kept : keep ⊆ b.held) (mine : root ∈ roots)
    (isSpace : b.spaces root = some space) (image : Image n top space)
    (isA : a.toNat = n * 4096) (isOld : oldsz.toNat = m * 4096) (fewer : m ≤ n)
    (small : xperm.toNat < 1024) :
    wp (uvmallocLoop k root oldsz newsz xperm count a) s
      (fun r t => (r = newsz ∧ ∃ space', Image (n + count) top space' ∧
          (∀ v, v < n → space' v = space v) ∧ Fresh space' n (n + count) xperm ∧
          Intact root {v | v < n} s b t ∧ Blank t space' n (n + count) ∧
          Effect k.pages roots keep s b t (b.setSpace root space')) ∨
        (r = 0 ∧ Intact root {v | v < m} s b t ∧
          Effect k.pages roots keep s b t (b.setSpace root (space.cleared m (n - m)))))
      fun _ _ => False := by
  induction count generalizing s b space n a with
  | zero =>
    rw [uvmallocLoop, wp_pure]
    refine .inl ⟨rfl, space, image, fun _ _ => rfl, fun v first last => by omega, Intact.refl,
      fun v _ first last => by omega, ?_⟩
    rw [Books.setSpace_same isSpace]
    exact Effect.refl ledger kept
  | succ count ih =>
    have bound := image.bound sane ledger isSpace
    have room : n < userLimit := by
      unfold userLimit
      omega
    rw [uvmallocLoop, wp_bind]
    refine wp_mono (wp_kalloc_intact root Set.univ roots ledger kept) ?_ fun _ _ absurd => absurd
    rintro mem t ⟨given, ⟨isZero, effect⟩ | ⟨notZero, new, effect, _⟩⟩
    · rw [if_pos isZero, wp_bind]
      refine wp_mono (wp_undo sane effect.ledger kept mine isSpace image isA isOld fewer) ?_
        fun _ _ absurd => absurd
      rintro _ u ⟨intact, undone⟩
      exact .inr ⟨rfl, (given.mono (Set.subset_univ _)).trans intact fun _ _ => rfl,
        effect.trans undone⟩
    · have isHeld : mem ∈ (b.hold mem).held := Set.mem_insert mem b.held
      have notKept : mem ∉ keep := fun isKept => new (kept isKept)
      have zeroed := Effect.setPage roots effect.ledger effect.kept isHeld notKept (junk 0)
      have ready := effect.trans zeroed
      have filled := given.fill effect.ledger (junk 0)
      have pageAligned := (ledger.aligned mem (effect.ledger.isPage (x := .held) isHeld)).2
      have isPage := leafPte_pte2pa pageAligned (readable_small small)
      rw [if_neg notZero, setPage, wp_bind, wp_modify, wp_bind]
      refine wp_mono (wp_mapUser sane ready.ledger ready.kept mine isSpace image isA isHeld notKept
        (readable_small small) (readable_leaf xperm)) ?_ fun _ _ absurd => absurd
      rintro r u ⟨⟨intact, content, _⟩, ⟨isZero, mapped, bigger⟩ | ⟨isFail, failed⟩⟩
      · rw [if_neg (not_not.mpr isZero)]
        rw [Books.drop_hold new] at mapped
        have all := ready.trans mapped
        have soFar : Intact root Set.univ s b u := filled.trans intact fun _ _ => rfl
        have blank : u.mem mem = junk 0 := content.trans setPage_self
        obtain ⟨nextAddr, _⟩ := vpn_next (a := a) (by omega)
        refine wp_mono (ih all.ledger all.kept Books.setSpace_self bigger
          (by rw [nextAddr]; omega) (Nat.le_succ_of_le fewer)) ?_ fun _ _ absurd => absurd
        rintro result v (⟨isNew, space', isImage, agree, fresh, later, zero, after⟩ |
          ⟨isFail, later, after⟩)
        · rw [Books.setSpace_setSpace] at after
          rw [show n + 1 + count = n + (count + 1) by omega] at isImage fresh zero
          refine .inl ⟨isNew, space', isImage, ?_, ?_, ?_, ?_, all.trans after⟩
          · intro w below
            rw [agree w (by omega), update_of_ne (by omega)]
          · intro w first last
            by_cases here : w = n
            · rw [here, agree n (Nat.lt_succ_self n), update_self]
              exact ⟨mem, rfl⟩
            · exact fresh w (by omega) last
          · refine (soFar.mono (Set.subset_univ _)).trans
              (later.mono fun w below => Nat.lt_succ_of_lt below) fun w below => ?_
            exact Books.owned_agree isSpace (update_of_ne (Nat.ne_of_lt below) _ _)
          · intro w leaf first last isLeaf
            by_cases here : w = n
            · rw [here, agree n (Nat.lt_succ_self n), update_self] at isLeaf
              obtain rfl := Option.some.inj isLeaf
              -- The page is the table's own from here on.
              have holds : Holds u (b.setSpace root (update space n
                  (some ⟨leafPte mem (pteR ||| pteU ||| xperm), true⟩))) (.user root n) mem := by
                refine ⟨by omega, ?_⟩
                rw [Books.owned_of_space Books.setSpace_self, update_self,
                  Option.bind_some, Leaf.page, if_pos rfl, isPage]
              rw [isPage, later n mem (Nat.lt_succ_self n) holds, blank]
            · exact zero w leaf (by omega) last isLeaf
        · rw [Books.setSpace_setSpace, image.cleared_push fewer room] at after
          refine .inr ⟨isFail, ?_, all.trans after⟩
          refine (soFar.mono (Set.subset_univ _)).trans later fun w below => ?_
          have less : w < n := Nat.lt_of_lt_of_le below fewer
          exact Books.owned_agree isSpace (update_of_ne (Nat.ne_of_lt less) _ _)
      · rw [if_pos (by rw [isFail]; decide), wp_bind]
        have all := ready.trans failed
        have soFar : Intact root Set.univ s b u := filled.trans intact fun _ _ => rfl
        have managed : k.Managed mem := all.ledger.isPage (x := .held) isHeld
        refine wp_mono (wp_kfree_intact root Set.univ roots all.ledger all.kept managed isHeld
          notKept) ?_ fun _ _ absurd => absurd
        rintro _ v ⟨kfreed, freed⟩
        rw [Books.drop_hold new] at freed
        have back := all.trans freed
        rw [wp_bind]
        refine wp_mono (wp_undo sane back.ledger kept mine isSpace image isA isOld fewer) ?_
          fun _ _ absurd => absurd
        rintro _ w ⟨undone, effect⟩
        have before : Intact root Set.univ s b v := soFar.trans kfreed fun _ _ => rfl
        exact .inr ⟨rfl, (before.mono (Set.subset_univ _)).trans undone fun _ _ => rfl,
          back.trans effect⟩

/-- `uvmalloc`: the image is as large as asked for, or as before. -/
theorem wp_uvmalloc {oldsz newsz xperm : UInt64} (sane : k.Sane) (ledger : Ledger k.pages s b)
    (kept : keep ⊆ b.held) (mine : root ∈ roots) (isSpace : b.spaces root = some space)
    (image : Image n top space) (isOld : pagesOf oldsz = n) (small : xperm.toNat < 1024) :
    wp (uvmalloc k root oldsz newsz xperm) s
      (fun r t => (r = 0 ∧ Intact root {v | v < n} s b t ∧ Effect k.pages roots keep s b t b) ∨
        ((r = if newsz < oldsz then oldsz else newsz) ∧ ∃ space', Image (pagesOf r) top space' ∧
          (∀ v, v < n → space' v = space v) ∧ Fresh space' n (pagesOf r) xperm ∧
          Intact root {v | v < n} s b t ∧ Blank t space' n (pagesOf r) ∧
          Effect k.pages roots keep s b t (b.setSpace root space')))
      fun _ _ => False := by
  have bound := image.bound sane ledger isSpace
  have oldSmall : oldsz.toNat ≤ n * 4096 := by
    rw [← isOld]
    unfold pagesOf
    omega
  have up := pgRoundUp_toNat oldsz (by omega)
  rw [isOld] at up
  unfold uvmalloc
  by_cases shrinks : newsz < oldsz
  · rw [if_pos shrinks, wp_pure]
    refine .inr ⟨(if_pos shrinks).symm, space, isOld ▸ image,
      fun _ _ => rfl, fun v first last => by omega, Intact.refl, fun v _ first last => by omega, ?_⟩
    rw [Books.setSpace_same isSpace]
    exact Effect.refl ledger kept
  · have grows : oldsz ≤ newsz := UInt64.not_lt.mp shrinks
    have more : oldsz.toNat ≤ newsz.toNat := UInt64.le_iff_toNat_le.mp grows
    have count : n + pagesBetween (pgRoundUp oldsz) newsz = pagesOf newsz := by
      have least : n = (oldsz.toNat + 4095) / 4096 := isOld.symm
      unfold pagesBetween pagesOf
      split_ifs with less
      · rw [UInt64.toNat_sub_of_le _ _ (UInt64.le_of_lt less), up]
        rw [UInt64.lt_iff_toNat_lt, up] at less
        omega
      · rw [UInt64.lt_iff_toNat_lt, up] at less
        omega
    rw [if_neg shrinks]
    refine wp_mono (wp_uvmallocLoop sane ledger kept mine isSpace image up up
      (Nat.le_refl n) small) ?_
      fun _ _ absurd => absurd
    rintro r t (⟨rfl, space', isImage, agree, fresh, intact, blank, effect⟩ |
      ⟨isZero, intact, effect⟩)
    · rw [count] at isImage fresh blank
      exact .inr ⟨(if_neg shrinks).symm, space', isImage, agree, fresh, intact, blank, effect⟩
    · rw [Nat.sub_self, Space.cleared_zero, Books.setSpace_same isSpace] at effect
      exact .inl ⟨isZero, intact, effect⟩

/-- `uvmcreate` -/
theorem wp_uvmcreate (roots : Set UInt64) (ledger : Ledger k.pages s b) (kept : keep ⊆ b.held) :
    wp uvmcreate s
      (fun r t => (r = 0 ∧ Effect k.pages roots keep s b t b) ∨
        (r ≠ 0 ∧ b.spaces r = none ∧
          Effect k.pages (insert r roots) keep s b t (b.setSpace r fun _ => none)))
      fun _ _ => False := by
  rw [uvmcreate, wp_bind]
  refine wp_mono (wp_kalloc roots ledger kept) ?_ fun _ _ absurd => absurd
  rintro r t (⟨isZero, effect, _⟩ | ⟨notZero, new, effect, _⟩)
  · rw [if_pos isZero]
    exact .inl ⟨rfl, effect⟩
  · have isHeld : r ∈ (b.hold r).held := Set.mem_insert r b.held
    have notKept : r ∉ keep := fun isKept => new (kept isKept)
    have zeroed := Effect.setPage roots effect.ledger effect.kept isHeld notKept (junk 0)
    obtain ⟨made, notRoot⟩ := zeroed.ledger.newRoot isHeld setPage_self
    rw [Books.drop_hold new] at made
    have booked : Effect k.pages (insert r roots) keep (t.setPage r (junk 0)) (b.hold r)
        (t.setPage r (junk 0)) (b.setSpace r fun _ => none) := by
      refine Effect.of_books made kept ?_
      intro other outside
      exact Books.setSpace_other fun same => outside (.inl same)
    rw [if_neg notZero, setPage, wp_bind, wp_modify]
    exact .inr ⟨notZero, notRoot,
      ((effect.trans zeroed).mono (Set.subset_insert r roots)).trans booked⟩

end Grow

end Xv6.Kernel.Vm
