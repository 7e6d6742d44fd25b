import Xv6.Kernel.Vm.User

/-!
The allocator after boot.

Owns: `freerange` and `kinit`, that `kinit` frees every page of the allocator once, and
so the first ledger.

Does not own: the lock of the allocator.
-/

namespace Xv6.Kernel.Vm

open Xv6.Lib

/-- The loop of `freerange` over `count` pages from `p` on. -/
def freerangeLoop (k : Layout) : Nat → UInt64 → VmM PUnit
  | 0, _ => pure ⟨⟩
  | count + 1, p => do
    kfree k p
    freerangeLoop k count (p + pgSize)

/-- `freerange`: the loop runs while `p + PGSIZE <= pa_end`. -/
def freerange (k : Layout) (paStart paEnd : UInt64) : VmM PUnit :=
  freerangeLoop k ((paEnd.toNat - (pgRoundUp paStart).toNat) / 4096) (pgRoundUp paStart)

/-- `kinit` -/
def kinit (k : Layout) : VmM PUnit := freerange k k.kernelEnd physTop

theorem Ledger.of_free {pages : Set UInt64} {s : Phys}
    (aligned : ∀ page ∈ pages, page ≠ 0 ∧ Aligned page) (nodup : s.freelist.Nodup)
    (all : ∀ page, page ∈ s.freelist ↔ page ∈ pages) :
    Ledger pages s ⟨fun _ => none, ∅⟩ := by
  refine ⟨aligned, nodup, ⟨fun _ => .free, fun place page => ?_⟩, ?_, ?_⟩
  · cases place with
    | free => exact (all page).trans (and_iff_left rfl).symm
    | table root path =>
      exact ⟨fun holds => absurd rfl holds.1, fun absurd => Place.noConfusion absurd.2⟩
    | user root v =>
      exact ⟨fun holds => absurd holds.2 (Option.some_ne_none page).symm,
        fun absurd => Place.noConfusion absurd.2⟩
    | held => exact ⟨fun holds => holds.elim, fun absurd => Place.noConfusion absurd.2⟩
  · exact fun _ space isSpace => absurd isSpace (Option.some_ne_none space).symm
  · exact fun _ _ _ _ live => absurd rfl live

section Boot

variable {k : Layout} {s : Phys}

theorem wp_freerangeLoop {count : Nat} {p : UInt64} (aligned : Aligned p)
    (above : k.kernelEnd ≤ p) (room : p.toNat + count * 4096 ≤ physTop.toNat)
    (nodup : s.freelist.Nodup) (below : ∀ page ∈ s.freelist, page < p) :
    wp (freerangeLoop k count p) s
      (fun _ t => t.freelist.Nodup ∧ t.refuse = s.refuse ∧ ∀ page, page ∈ t.freelist ↔
        page ∈ s.freelist ∨
          (Aligned page ∧ p.toNat ≤ page.toNat ∧ page.toNat < p.toNat + count * 4096))
      fun _ _ => False := by
  have isTop : physTop.toNat = 2 ^ 31 + 2 ^ 27 := by decide +kernel
  induction count generalizing s p with
  | zero =>
    rw [freerangeLoop, wp_pure]
    refine ⟨nodup, rfl, fun page => ⟨.inl, ?_⟩⟩
    rintro (member | ⟨_, low, high⟩)
    · exact member
    · omega
  | succ count ih =>
    have managed : k.Managed p :=
      ⟨mod_pgSize_eq_zero.mpr aligned, above, UInt64.lt_iff_toNat_lt.mpr (by omega)⟩
    have next : (p + pgSize).toNat = p.toNat + 4096 := by
      rw [UInt64.toNat_add]
      exact Nat.mod_eq_of_lt (by change p.toNat + 4096 < 2 ^ 64; omega)
    rw [freerangeLoop, wp_bind, kfree, if_pos managed, wp_modify]
    refine wp_mono (ih ?_ ?_ ?_ ?_ ?_) ?_ fun _ _ absurd => absurd
    · unfold Aligned at aligned ⊢
      omega
    · rw [UInt64.le_iff_toNat_le] at above ⊢
      omega
    · omega
    · exact List.nodup_cons.mpr ⟨fun member => UInt64.lt_irrefl p (below p member), nodup⟩
    · intro page member
      rw [UInt64.lt_iff_toNat_lt, next]
      rcases List.mem_cons.mp member with rfl | old
      · omega
      · have less := UInt64.lt_iff_toNat_lt.mp (below page old)
        omega
    · rintro _ t ⟨stillNodup, sameRefuse, members⟩
      refine ⟨stillNodup, sameRefuse, fun page => (members page).trans ?_⟩
      rw [next]
      change page ∈ p :: s.freelist ∨ _ ↔ _
      rw [List.mem_cons, or_assoc]
      unfold Aligned at aligned ⊢
      constructor
      · rintro (rfl | old | between)
        · exact .inr ⟨aligned, Nat.le_refl _, by omega⟩
        · exact .inl old
        · exact .inr ⟨between.1, by omega, by omega⟩
      · rintro (old | ⟨isAligned, low, high⟩)
        · exact .inr (.inl old)
        · by_cases here : page = p
          · exact .inl here
          · have different : page.toNat ≠ p.toNat := fun same => here (UInt64.toNat_inj.mp same)
            exact .inr (.inr ⟨isAligned, by omega, by omega⟩)

/-- `kinit` frees every page of the allocator, and each of them once. -/
theorem wp_kinit (sane : k.Sane) (fits : k.kernelEnd ≤ physTop) (empty : s.freelist = []) :
    wp (kinit k) s (fun _ t => t.refuse = s.refuse ∧ Ledger k.pages t ⟨fun _ => none, ∅⟩)
      fun _ _ => False := by
  have isTop : physTop.toNat = 2 ^ 31 + 2 ^ 27 := by decide +kernel
  rw [UInt64.le_iff_toNat_le] at fits
  have up := pgRoundUp_toNat k.kernelEnd (by omega)
  unfold pagesOf at up
  unfold kinit freerange
  refine wp_mono (wp_freerangeLoop ?_ ?_ ?_ ?_ ?_) ?_ fun _ _ absurd => absurd
  · unfold Aligned
    omega
  · rw [UInt64.le_iff_toNat_le]
    omega
  · omega
  · rw [empty]
    exact List.nodup_nil
  · rw [empty]
    exact fun page absurd => (List.not_mem_nil absurd).elim
  · rintro _ t ⟨nodup, sameRefuse, members⟩
    refine ⟨sameRefuse, Ledger.of_free ?_ nodup fun page => (members page).trans ?_⟩
    · intro page managed
      have bounds := managed_index sane managed
      refine ⟨?_, bounds.2.2⟩
      rintro rfl
      change 2 ^ 31 ≤ 0 ∧ _ at bounds
      omega
    · rw [empty]
      unfold Layout.pages Layout.Managed
      rw [Set.mem_ofPred_eq, mod_pgSize_eq_zero, UInt64.le_iff_toNat_le, UInt64.lt_iff_toNat_lt]
      unfold Aligned
      constructor
      · rintro (absurd | ⟨isAligned, low, high⟩)
        · exact (List.not_mem_nil absurd).elim
        · exact ⟨isAligned, by omega, by omega⟩
      · rintro ⟨isAligned, low, high⟩
        exact .inr ⟨isAligned, by omega, by omega⟩

end Boot

end Xv6.Kernel.Vm
