import Mathlib

/-!
The two functions `memmove`, of `kernel/string.c` and of `user/ulib.c`.

Owns: both functions on a memory of bytes with 64-bit addresses, their two loops, and that
they copy as if all bytes were read before the first is written.

Does not own: which addresses are mapped.
-/

namespace Xv6.Memmove

open Function

abbrev Memory := UInt64 → UInt8

/-- `while(n-- > 0) *d++ = *s++;` -/
def copyUp (m : Memory) (d s : UInt64) : Nat → Memory
  | 0 => m
  | n + 1 => copyUp (update m d (m s)) (d + 1) (s + 1) n

/-- `while(n-- > 0) *--d = *--s;` -/
def copyDown (m : Memory) (d s : UInt64) : Nat → Memory
  | 0 => m
  | n + 1 => copyDown (update m (d - 1) (m (s - 1))) (d - 1) (s - 1) n

/-- `memmove` of the kernel: the value it returns, and the memory. -/
def kernelMemmove (m : Memory) (dst src : UInt64) (n : UInt32) : UInt64 × Memory :=
  if n = 0 then (dst, m)
  else if src < dst ∧ src + n.toUInt64 > dst then
    (dst, copyDown m (dst + n.toUInt64) (src + n.toUInt64) n.toNat)
  else (dst, copyUp m dst src n.toNat)

/-- `memmove` of the user library. A negative `n` moves nothing. -/
def userMemmove (m : Memory) (dst src : UInt64) (n : Int32) : UInt64 × Memory :=
  if src > dst then (dst, copyUp m dst src n.toInt.toNat)
  else (dst, copyDown m (dst + UInt64.ofInt n.toInt) (src + UInt64.ofInt n.toInt) n.toInt.toNat)

/-- The `n` bytes at `dst` are those that were at `src`, and the rest is as it was. -/
structure Copied (m : Memory) (dst src : UInt64) (n : Nat) (m' : Memory) : Prop where
  bytes : ∀ i < n, m' (dst + UInt64.ofNat i) = m (src + UInt64.ofNat i)
  others : ∀ a, (∀ i < n, a ≠ dst + UInt64.ofNat i) → m' a = m a

section Loops

variable {m m' : Memory} {dst src : UInt64} {n : Nat}

/-- There is only one such memory. -/
theorem Copied.unique (copied : Copied m dst src n m') {m'' : Memory}
    (again : Copied m dst src n m'') :
    m' = m'' := by
  funext a
  by_cases inside : ∃ i < n, a = dst + UInt64.ofNat i
  · obtain ⟨i, small, rfl⟩ := inside
    rw [copied.bytes i small, again.bytes i small]
  · have outside (i : Nat) (small : i < n) : a ≠ dst + UInt64.ofNat i :=
      fun same => inside ⟨i, small, same⟩
    rw [copied.others a outside, again.others a outside]

theorem succ_add_ofNat (a : UInt64) (i : Nat) :
    a + 1 + UInt64.ofNat i = a + UInt64.ofNat (i + 1) := by
  rw [UInt64.ofNat_add, UInt64.add_assoc, UInt64.add_comm 1]
  rfl

theorem add_ofNat_sub (a : UInt64) (n : Nat) :
    a + UInt64.ofNat (n + 1) - 1 = a + UInt64.ofNat n := by
  rw [← succ_add_ofNat, UInt64.add_assoc, UInt64.add_comm 1, ← UInt64.add_assoc]
  exact UInt64.add_sub_cancel _ _

/-- Without wrap-around, addresses are counted from the start. -/
theorem toNat_add_ofNat (fits : dst.toNat + n ≤ 2 ^ 64) {i : Nat} (small : i < n) :
    (dst + UInt64.ofNat i).toNat = dst.toNat + i := by
  rw [UInt64.toNat_add, UInt64.toNat_ofNat', Nat.mod_eq_of_lt (a := i) (by omega),
    Nat.mod_eq_of_lt (by omega)]

theorem ne_of_lt (fits : dst.toNat + n ≤ 2 ^ 64) {i j : Nat} (less : i < j) (small : j < n) :
    dst + UInt64.ofNat i ≠ dst + UInt64.ofNat j := by
  intro same
  have values := congrArg UInt64.toNat same
  rw [toNat_add_ofNat fits (less.trans small), toNat_add_ofNat fits small] at values
  omega

/-- The loop upwards is right if no byte is overwritten before it is read. -/
theorem copyUp_copied (apart : ∀ i j, i < j → j < n → dst + UInt64.ofNat i ≠ dst + UInt64.ofNat j)
    (unread : ∀ i j, i < j → j < n → dst + UInt64.ofNat i ≠ src + UInt64.ofNat j) :
    Copied m dst src n (copyUp m dst src n) := by
  induction n generalizing m dst src with
  | zero => exact ⟨fun i below => absurd below (Nat.not_lt_zero i), fun a _ => rfl⟩
  | succ n ih =>
    have first (a : UInt64) : a + UInt64.ofNat 0 = a := UInt64.add_zero a
    have later : Copied (update m dst (m src)) (dst + 1) (src + 1) n
        (copyUp m dst src (n + 1)) := by
      apply ih
      · intro i j less small
        rw [succ_add_ofNat, succ_add_ofNat]
        exact apart (i + 1) (j + 1) (by omega) (by omega)
      · intro i j less small
        rw [succ_add_ofNat, succ_add_ofNat]
        exact unread (i + 1) (j + 1) (by omega) (by omega)
    constructor
    · intro i small
      cases i with
      | zero =>
        rw [first, first, later.others, update_self]
        intro j inside
        have differs := apart 0 (j + 1) (by omega) (by omega)
        rwa [first, ← succ_add_ofNat] at differs
      | succ i =>
        rw [← succ_add_ofNat, later.bytes i (by omega), succ_add_ofNat]
        have differs := unread 0 (i + 1) (by omega) small
        rw [first] at differs
        exact update_of_ne differs.symm _ _
    · intro a outside
      rw [later.others]
      · exact update_of_ne (first dst ▸ outside 0 (by omega)) _ _
      · intro i small
        rw [succ_add_ofNat]
        exact outside (i + 1) (by omega)

theorem copyDown_copied (apart : ∀ i j, i < j → j < n → dst + UInt64.ofNat i ≠ dst + UInt64.ofNat j)
    (unread : ∀ i j, i < j → j < n → dst + UInt64.ofNat j ≠ src + UInt64.ofNat i) :
    Copied m dst src n (copyDown m (dst + UInt64.ofNat n) (src + UInt64.ofNat n) n) := by
  induction n generalizing m with
  | zero => exact ⟨fun i below => absurd below (Nat.not_lt_zero i), fun a _ => rfl⟩
  | succ n ih =>
    rw [copyDown, add_ofNat_sub, add_ofNat_sub]
    have earlier := ih (m := update m (dst + UInt64.ofNat n) (m (src + UInt64.ofNat n)))
      (fun i j less small => apart i j less (by omega))
        (fun i j less small => unread i j less (by omega))
    constructor
    · intro i small
      rcases Nat.lt_succ_iff_lt_or_eq.mp small with less | rfl
      · rw [earlier.bytes i less]
        exact update_of_ne (unread i n less (by omega)).symm _ _
      · rw [earlier.others, update_self]
        exact fun j less => (apart j i less small).symm
    · intro a outside
      rw [earlier.others a fun i small => outside i (by omega)]
      exact update_of_ne (outside n (by omega)) _ _

end Loops

section Functions

variable {m : Memory} {dst src : UInt64}

theorem kernelMemmove_copied {n : UInt32} (dstFits : dst.toNat + n.toNat ≤ 2 ^ 64)
    (srcFits : src.toNat + n.toNat ≤ 2 ^ 64) :
    (kernelMemmove m dst src n).1 = dst ∧
      Copied m dst src n.toNat (kernelMemmove m dst src n).2 := by
  have length : n.toUInt64 = UInt64.ofNat n.toNat := UInt64.toNat_inj.mp (by simp)
  unfold kernelMemmove
  split_ifs with absent overlap
  · rw [absent]
    exact ⟨rfl, fun i small => absurd small (Nat.not_lt_zero i), fun a _ => rfl⟩
  · rw [length]
    refine ⟨rfl, copyDown_copied (fun i j => ne_of_lt dstFits) fun i j less small same => ?_⟩
    have values := congrArg UInt64.toNat same
    rw [toNat_add_ofNat dstFits small, toNat_add_ofNat srcFits (less.trans small)] at values
    have below := UInt64.lt_iff_toNat_lt.mp overlap.1
    omega
  · refine ⟨rfl, copyUp_copied (fun i j => ne_of_lt dstFits) fun i j less small same => ?_⟩
    have values := congrArg UInt64.toNat same
    rw [toNat_add_ofNat dstFits (less.trans small), toNat_add_ofNat srcFits small] at values
    -- the bytes overlap from below, and the sum does not wrap
    refine overlap ⟨UInt64.lt_iff_toNat_lt.mpr (by omega), UInt64.lt_iff_toNat_lt.mpr ?_⟩
    rw [UInt64.toNat_add, UInt32.toNat_toUInt64, Nat.mod_eq_of_lt (by omega)]
    omega

theorem userMemmove_copied {n : Int32} (nonneg : 0 ≤ n.toInt)
    (dstFits : dst.toNat + n.toInt.toNat ≤ 2 ^ 64) (srcFits : src.toNat + n.toInt.toNat ≤ 2 ^ 64) :
    (userMemmove m dst src n).1 = dst ∧
      Copied m dst src n.toInt.toNat (userMemmove m dst src n).2 := by
  have length : UInt64.ofInt n.toInt = UInt64.ofNat n.toInt.toNat := by
    apply UInt64.toNat_inj.mp
    rw [UInt64.ofInt, UInt64.toNat_ofNat', UInt64.toNat_ofNat']
    omega
  unfold userMemmove
  split_ifs with above
  · refine ⟨rfl, copyUp_copied (fun i j => ne_of_lt dstFits) fun i j less small same => ?_⟩
    have values := congrArg UInt64.toNat same
    rw [toNat_add_ofNat dstFits (less.trans small), toNat_add_ofNat srcFits small] at values
    have below := UInt64.lt_iff_toNat_lt.mp above
    omega
  · rw [length]
    refine ⟨rfl, copyDown_copied (fun i j => ne_of_lt dstFits) fun i j less small same => ?_⟩
    have values := congrArg UInt64.toNat same
    rw [toNat_add_ofNat dstFits small, toNat_add_ofNat srcFits (less.trans small)] at values
    have notBelow := mt UInt64.lt_iff_toNat_lt.mpr above
    omega

/-- For every memory and every length, without wrap-around, both functions leave the bytes of the
source at the destination and everything else as it was, in whatever way the two overlap; so
they agree. -/
theorem memmove_as_if_at_once (m : Memory) (dst src : UInt64) :
    (∀ n : UInt32, dst.toNat + n.toNat ≤ 2 ^ 64 → src.toNat + n.toNat ≤ 2 ^ 64 →
      (kernelMemmove m dst src n).1 = dst ∧
        Copied m dst src n.toNat (kernelMemmove m dst src n).2) ∧
    (∀ n : Int32, 0 ≤ n.toInt → dst.toNat + n.toInt.toNat ≤ 2 ^ 64 →
      src.toNat + n.toInt.toNat ≤ 2 ^ 64 →
      (userMemmove m dst src n).1 = dst ∧
        Copied m dst src n.toInt.toNat (userMemmove m dst src n).2) ∧
    (∀ (n : UInt32) (k : Int32), k.toInt = n.toNat → dst.toNat + n.toNat ≤ 2 ^ 64 →
      src.toNat + n.toNat ≤ 2 ^ 64 → kernelMemmove m dst src n = userMemmove m dst src k) := by
  refine ⟨fun n => kernelMemmove_copied, fun n => userMemmove_copied, ?_⟩
  intro n k same dstFits srcFits
  have length : k.toInt.toNat = n.toNat := by omega
  obtain ⟨isDst, copied⟩ := @kernelMemmove_copied m dst src n dstFits srcFits
  obtain ⟨isDst', copied'⟩ :=
    @userMemmove_copied m dst src k (by omega) (by rwa [length]) (by rwa [length])
  rw [length] at copied'
  exact Prod.ext (isDst.trans isDst'.symm) (copied.unique copied')

end Functions

/-- Five bytes moved up by two, by both functions. -/
theorem memmove_as_if_at_once_overlap :
    Copied UInt64.toUInt8 102 100 5 (kernelMemmove UInt64.toUInt8 102 100 5).2 ∧
      kernelMemmove UInt64.toUInt8 102 100 5 = userMemmove UInt64.toUInt8 102 100 5 := by
  obtain ⟨kernel, _, agree⟩ := memmove_as_if_at_once UInt64.toUInt8 102 100
  exact ⟨(kernel 5 (by decide) (by decide)).2, agree 5 5 (by decide) (by decide) (by decide)⟩

end Xv6.Memmove
