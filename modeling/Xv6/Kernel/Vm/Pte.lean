import Mathlib.Data.Nat.Bitwise
import Mathlib.Data.UInt
import Mathlib.Tactic

/-!
Page-table entries and virtual addresses, after riscv.h.

Owns: the flag bits, the macros that pack and unpack entries and round addresses,
and their arithmetic: what an entry built from a page and flags decodes to, and the
three indices of a page number.

Does not own: memory.
-/

namespace Xv6.Kernel.Vm

/-- `PGSIZE` -/
def pgSize : UInt64 := 4096

/-- `PGROUNDUP(sz)` -/
def pgRoundUp (sz : UInt64) : UInt64 := (sz + pgSize - 1) &&& ~~~(pgSize - 1)

/-- `PGROUNDDOWN(a)` -/
def pgRoundDown (a : UInt64) : UInt64 := a &&& ~~~(pgSize - 1)

/-- `PTE_V` -/
def pteV : UInt64 := 1

/-- `PTE_R` -/
def pteR : UInt64 := 2

/-- `PTE_W` -/
def pteW : UInt64 := 4

/-- `PTE_X` -/
def pteX : UInt64 := 8

/-- `PTE_U` -/
def pteU : UInt64 := 16

/-- `PA2PTE(pa)` -/
def pa2pte (pa : UInt64) : UInt64 := (pa >>> 12) <<< 10

/-- `PTE2PA(pte)` -/
def pte2pa (pte : UInt64) : UInt64 := (pte >>> 10) <<< 12

/-- `PTE_FLAGS(pte)` -/
def pteFlags (pte : UInt64) : UInt64 := pte &&& 0x3FF

theorem px_lt (word : UInt64) : (word &&& 0x1FF).toNat < 512 := by
  rw [UInt64.toNat_and]
  exact Nat.and_lt_two_pow (n := 9) _ (by decide)

/-- `PX(level, va)` -/
def px (level : Nat) (va : UInt64) : Fin 512 :=
  ⟨((va >>> UInt64.ofNat (12 + 9 * level)) &&& 0x1FF).toNat, px_lt _⟩

/-- `MAXVA` -/
def maxVa : UInt64 := (1 : UInt64) <<< 38

/-- A page address. -/
def Aligned (pa : UInt64) : Prop := pa.toNat % 4096 = 0

instance (pa : UInt64) : Decidable (Aligned pa) := inferInstanceAs (Decidable (_ = _))

theorem mod_pgSize_eq_zero {a : UInt64} : a % pgSize = 0 ↔ Aligned a := by
  rw [← UInt64.toNat_inj, UInt64.toNat_mod]
  exact Iff.rfl

theorem and_not_low_toNat (a : UInt64) : (a &&& ~~~(pgSize - 1)).toNat = a.toNat / 4096 * 4096 := by
  have bound := a.toNat_lt
  have mask : (~~~(pgSize - 1)).toNat = (2 ^ 52 - 1) * 2 ^ 12 := by decide +kernel
  rw [UInt64.toNat_and, mask]
  apply Nat.eq_of_testBit_eq
  intro i
  rw [Nat.testBit_and, Nat.testBit_mul_two_pow, show (4096 : Nat) = 2 ^ 12 from rfl,
    Nat.testBit_mul_two_pow, Nat.testBit_div_two_pow, Nat.testBit_two_pow_sub_one]
  by_cases low : 12 ≤ i
  · by_cases high : i < 64
    · simp [low, show i - 12 < 52 by omega]
    · have above : a.toNat.testBit i = false := by
        apply Nat.testBit_lt_two_pow
        exact bound.trans_le (Nat.pow_le_pow_right (by decide) (Nat.le_of_not_lt high))
      simp [low, above]
  · simp [low]

theorem pgRoundDown_toNat (a : UInt64) : (pgRoundDown a).toNat = a.toNat / 4096 * 4096 :=
  and_not_low_toNat a

/-- The pages `sz` bytes take. -/
def pagesOf (sz : UInt64) : Nat := (sz.toNat + 4095) / 4096

theorem pgRoundUp_toNat (sz : UInt64) (room : sz.toNat + 4096 < 2 ^ 64) :
    (pgRoundUp sz).toNat = pagesOf sz * 4096 := by
  have sum : (sz + pgSize - 1).toNat = sz.toNat + 4095 := by
    have isSum : (sz + pgSize).toNat = sz.toNat + 4096 := by
      rw [UInt64.toNat_add]
      change (sz.toNat + 4096) % 2 ^ 64 = _
      exact Nat.mod_eq_of_lt room
    rw [UInt64.toNat_sub_of_le _ _
      (by rw [UInt64.le_iff_toNat_le, isSum]; exact Nat.le_add_left _ _),
      isSum]
    rfl
  rw [pgRoundUp, and_not_low_toNat, sum]
  rfl

theorem pa2pte_toNat (pa : UInt64) : (pa2pte pa).toNat = pa.toNat / 4096 * 1024 := by
  have bound := pa.toNat_lt
  rw [pa2pte, UInt64.toNat_shiftLeft, UInt64.toNat_shiftRight]
  change pa.toNat >>> 12 <<< 10 % 2 ^ 64 = _
  rw [Nat.shiftRight_eq_div_pow, Nat.shiftLeft_eq]
  omega

theorem pte2pa_toNat (pte : UInt64) :
    (pte2pa pte).toNat = pte.toNat / 1024 * 4096 % 2 ^ 64 := by
  rw [pte2pa, UInt64.toNat_shiftLeft, UInt64.toNat_shiftRight]
  change pte.toNat >>> 10 <<< 12 % 2 ^ 64 = _
  rw [Nat.shiftRight_eq_div_pow, Nat.shiftLeft_eq]

theorem pte2pa_aligned (pte : UInt64) : Aligned (pte2pa pte) := by
  rw [Aligned, pte2pa_toNat]
  omega

theorem pteFlags_toNat (pte : UInt64) : (pteFlags pte).toNat = pte.toNat % 1024 := by
  rw [pteFlags, UInt64.toNat_and]
  exact Nat.and_two_pow_sub_one_eq_mod pte.toNat 10

theorem pa2pte_or_toNat {pa flags : UInt64} (small : flags.toNat < 1024) :
    (pa2pte pa ||| flags).toNat = pa.toNat / 4096 * 1024 + flags.toNat := by
  rw [UInt64.toNat_or, pa2pte_toNat, Nat.mul_comm]
  exact (Nat.two_pow_add_eq_or_of_lt (i := 10) small _).symm

theorem pte2pa_pa2pte {pa flags : UInt64} (aligned : Aligned pa) (small : flags.toNat < 1024) :
    pte2pa (pa2pte pa ||| flags) = pa := by
  have bound := pa.toNat_lt
  rw [Aligned] at aligned
  rw [← UInt64.toNat_inj, pte2pa_toNat, pa2pte_or_toNat small]
  omega

theorem pteFlags_pa2pte {pa flags : UInt64} (small : flags.toNat < 1024) :
    pteFlags (pa2pte pa ||| flags) = flags := by
  rw [← UInt64.toNat_inj, pteFlags_toNat, pa2pte_or_toNat small]
  omega

/-- A test of flag bits reads the flags only. -/
theorem and_pteFlags {mask : UInt64} (low : 0x3FF &&& mask = mask) (pte : UInt64) :
    pte &&& mask = pteFlags pte &&& mask := by
  rw [pteFlags, UInt64.and_assoc, low]

/-- An entry with one of the bits that make it a leaf. -/
def IsLeaf (pte : UInt64) : Prop := pte &&& pteV ≠ 0 ∧ pte &&& (pteR ||| pteW ||| pteX) ≠ 0

theorem IsLeaf.flags {pte : UInt64} (leaf : IsLeaf pte) : pteFlags pte ≠ pteV := by
  intro same
  apply leaf.2
  rw [and_pteFlags (by decide), same]
  decide

/-- An entry that points to a page-table page. -/
def pointer (page : UInt64) : UInt64 := pa2pte page ||| pteV

theorem pointer_pte2pa {page : UInt64} (aligned : Aligned page) : pte2pa (pointer page) = page :=
  pte2pa_pa2pte aligned (by decide)

theorem pointer_valid (page : UInt64) : pointer page &&& pteV ≠ 0 := by
  rw [and_pteFlags (by decide), pointer, pteFlags_pa2pte (by decide)]
  decide

theorem pointer_no_leaf (page : UInt64) : pointer page &&& (pteR ||| pteW ||| pteX) = 0 := by
  rw [and_pteFlags (by decide), pointer, pteFlags_pa2pte (by decide)]
  decide

/-- What `mappages` stores. -/
def leafPte (pa perm : UInt64) : UInt64 := pa2pte pa ||| perm ||| pteV

theorem leafPte_valid (pa perm : UInt64) : leafPte pa perm &&& pteV ≠ 0 := by
  intro zero
  have one := congrArg UInt64.toNat zero
  rw [leafPte, UInt64.toNat_and, UInt64.toNat_or] at one
  have bit := congrArg (Nat.testBit · 0) one
  simp [pteV] at bit

theorem or_pteV_small {perm : UInt64} (small : perm.toNat < 1024) :
    (perm ||| pteV).toNat < 1024 := by
  rw [UInt64.toNat_or]
  exact Nat.or_lt_two_pow (n := 10) small (by decide)

theorem leafPte_pte2pa {pa perm : UInt64} (aligned : Aligned pa) (small : perm.toNat < 1024) :
    pte2pa (leafPte pa perm) = pa := by
  rw [leafPte, UInt64.or_assoc]
  exact pte2pa_pa2pte aligned (or_pteV_small small)

theorem leafPte_flags {pa perm : UInt64} (small : perm.toNat < 1024) :
    pteFlags (leafPte pa perm) = perm ||| pteV := by
  rw [leafPte, UInt64.or_assoc]
  exact pteFlags_pa2pte (or_pteV_small small)

theorem ix_lt (level vpn : Nat) : vpn / 512 ^ level % 512 < 512 := Nat.mod_lt _ (by decide)

/-- `mappages` makes leaves of permissions with one of the leaf bits. -/
theorem leafPte_leaf {pa perm : UInt64} (small : perm.toNat < 1024)
    (leaf : perm &&& (pteR ||| pteW ||| pteX) ≠ 0) : IsLeaf (leafPte pa perm) := by
  refine ⟨leafPte_valid pa perm, ?_⟩
  rw [and_pteFlags (by decide), leafPte_flags small]
  intro zero
  apply leaf
  have absent : pteV.toNat &&& (pteR ||| pteW ||| pteX).toNat = 0 := by decide
  rw [← UInt64.toNat_inj, UInt64.toNat_and, UInt64.toNat_or, Nat.and_or_distrib_right, absent,
    Nat.or_zero] at zero
  rw [← UInt64.toNat_inj, UInt64.toNat_and]
  exact zero

/-- The permissions of user pages. -/
theorem readable_leaf (xperm : UInt64) :
    (pteR ||| pteU ||| xperm) &&& (pteR ||| pteW ||| pteX) ≠ 0 := by
  intro zero
  have bits := congrArg UInt64.toNat zero
  rw [UInt64.toNat_and, UInt64.toNat_or] at bits
  have bit : Nat.testBit _ 1 = Nat.testBit _ 1 := congrArg (Nat.testBit · 1) bits
  have isRead : (pteR ||| pteU).toNat.testBit 1 = true := by decide
  have inMask : (pteR ||| pteW ||| pteX).toNat.testBit 1 = true := by decide
  rw [Nat.testBit_and, Nat.testBit_or, isRead, inMask, Bool.true_or, Bool.true_and] at bit
  exact absurd bit (by decide)

theorem readable_small {xperm : UInt64} (small : xperm.toNat < 1024) :
    (pteR ||| pteU ||| xperm).toNat < 1024 := by
  rw [UInt64.toNat_or]
  exact Nat.or_lt_two_pow (n := 10) (by decide) small

/-- The index of a page number at a level of the tree. -/
def ix (level vpn : Nat) : Fin 512 := ⟨vpn / 512 ^ level % 512, ix_lt level vpn⟩

/-- The number of the page of an address. -/
def vpn (va : UInt64) : Nat := va.toNat / 4096

theorem px_eq_ix {level : Nat} (isLevel : level < 3) (va : UInt64) :
    px level va = ix level (vpn va) := by
  apply Fin.ext
  change ((va >>> UInt64.ofNat (12 + 9 * level)) &&& 0x1FF).toNat =
    va.toNat / 4096 / 512 ^ level % 512
  rw [UInt64.toNat_and, UInt64.toNat_shiftRight]
  have masked := fun n : Nat => Nat.and_two_pow_sub_one_eq_mod n 9
  interval_cases level
  · change (va.toNat >>> 12) &&& (2 ^ 9 - 1) = _
    rw [masked, Nat.shiftRight_eq_div_pow]
    omega
  · change (va.toNat >>> 21) &&& (2 ^ 9 - 1) = _
    rw [masked, Nat.shiftRight_eq_div_pow]
    omega
  · change (va.toNat >>> 30) &&& (2 ^ 9 - 1) = _
    rw [masked, Nat.shiftRight_eq_div_pow]
    omega

/-- Three indices determine a page number. -/
theorem ix_injective {a b : Nat} (aSmall : a < 512 ^ 3) (bSmall : b < 512 ^ 3)
    (high : ix 2 a = ix 2 b) (middle : ix 1 a = ix 1 b) (low : ix 0 a = ix 0 b) : a = b := by
  have highNat : a / 512 ^ 2 % 512 = b / 512 ^ 2 % 512 := congrArg Fin.val high
  have middleNat : a / 512 ^ 1 % 512 = b / 512 ^ 1 % 512 := congrArg Fin.val middle
  have lowNat : a / 512 ^ 0 % 512 = b / 512 ^ 0 % 512 := congrArg Fin.val low
  omega

end Xv6.Kernel.Vm
