import Xv6.Kernel.Proc.Growproc
import Xv6.Kernel.Vm.Strings

/-!
Fetching what a system call was given.

Owns: the registers that hold the arguments, `strlen` and `fetchstr`, and what
`copyinstr` and `fetchstr` deliver.

Does not own: which call is made.
-/

namespace Xv6.Kernel.Proc

open Xv6.Lib Xv6.Kernel.Vm

/-- The argument registers of a trapframe. -/
structure Trapframe where
  a0 : UInt64
  a1 : UInt64
  a2 : UInt64
  a3 : UInt64
  a4 : UInt64
  a5 : UInt64

/-- `argraw`, which panics for numbers that no call uses. -/
def argraw (trapframe : Trapframe) : Fin 6 → UInt64
  | 0 => trapframe.a0
  | 1 => trapframe.a1
  | 2 => trapframe.a2
  | 3 => trapframe.a3
  | 4 => trapframe.a4
  | 5 => trapframe.a5

/-- `argint`: an `int` takes the low half of a register. -/
def argint (trapframe : Trapframe) (n : Fin 6) : Int32 := (argraw trapframe n).toUInt32.toInt32

/-- `argaddr` -/
def argaddr (trapframe : Trapframe) (n : Fin 6) : UInt64 := argraw trapframe n

/-- There are argument registers, so a numeral names one. -/
instance neZeroSix : NeZero 6 := ⟨by decide⟩

/-- The loop of `strlen`, which looks at no more than `limit` bytes. -/
def strlenFrom (s : Mem) : Nat → Nat → Nat
  | 0, n => n
  | limit + 1, n => if s n = 0 then n else strlenFrom s limit (n + 1)

/-- `strlen` of a string in a buffer of `limit` bytes -/
def strlen (s : Mem) (limit : Nat) : Nat := strlenFrom s limit 0

/-- `fetchstr`; the bound is widened to the `uint64` that `copyinstr` takes. -/
def fetchstr (pagetable addr : UInt64) (buf : Mem) (max : Int32) : VmM (Int32 × Mem) := do
  let (ret, buf) ← copyinstr pagetable buf addr (widen max)
  if ret < 0 then pure (-1, buf)
  else pure (Int32.ofNat (strlen buf (widen max).toNat), buf)

section Strlen

variable {s : Mem}

theorem strlenFrom_eq {limit n k : Nat} (before : ∀ j < k, s (n + j) ≠ 0) (stops : s (n + k) = 0)
    (inside : k < limit) : strlenFrom s limit n = n + k := by
  induction k generalizing limit n with
  | zero =>
    obtain ⟨limit, rfl⟩ := Nat.exists_eq_succ_of_ne_zero (Nat.ne_of_gt inside)
    rw [Nat.add_zero] at stops
    rw [Nat.succ_eq_add_one, strlenFrom, if_pos stops, Nat.add_zero]
  | succ k ih =>
    obtain ⟨limit, rfl⟩ := Nat.exists_eq_succ_of_ne_zero (Nat.ne_of_gt (Nat.zero_lt_of_lt inside))
    have first : s n ≠ 0 := before 0 (Nat.succ_pos k)
    rw [Nat.succ_eq_add_one, strlenFrom, if_neg first, ih ?_ ?_ (by omega)]
    · omega
    · intro j less
      rw [show n + 1 + j = n + (j + 1) by omega]
      exact before (j + 1) (by omega)
    · rw [show n + 1 + k = n + (k + 1) by omega]
      exact stops

theorem strlen_eq {limit k : Nat} (before : ∀ j < k, s j ≠ 0) (stops : s k = 0)
    (inside : k < limit) : strlen s limit = k := by
  unfold strlen
  rw [strlenFrom_eq (k := k) ?_ ?_ inside, Nat.zero_add]
  · simpa using before
  · simpa using stops

end Strlen

section Fetchstr

variable {s : Phys} {root : UInt64}

theorem fetchstr_of_copyinstr {srcva : UInt64} {dst dst' : Mem} {limit : Int32}
    (run : copyinstr root dst srcva (widen limit) s = .ok (0, dst') s) :
    fetchstr root srcva dst limit s =
      .ok (Int32.ofNat (strlen dst' (widen limit).toNat), dst') s := by
  unfold fetchstr
  change EStateM.bind _ _ s = _
  unfold EStateM.bind
  rw [run]
  rfl

/-- `copyinstr` returns 0 if and only if a null byte follows within the bound through
readable pages; then the buffer holds the bytes before the first one and the null byte,
and `fetchstr` returns their number, as far as an `int` holds it. It writes below the
bound only, accesses no byte and no page behind the first null byte or the bound, and what
it does depends on none. -/
theorem copyinstr_copies_string (s : Phys) (root : UInt64) (dst : Mem) (srcva max : UInt64) :
    ∃ ret dst', copyinstr root dst srcva max s = .ok (ret, dst') s ∧
      (ret = 0 ∨ ret = -1) ∧
      (ret = 0 ↔ ∃ k < max.toNat, s.userByte root srcva k = some 0 ∧
        ∀ i < k, s.userByte root srcva i ≠ none) ∧
      (ret = 0 → ∃ k < max.toNat, s.userByte root srcva k = some 0 ∧
        (∀ i < k, s.userByte root srcva i ≠ some 0) ∧
        (∀ i ≤ k, s.userByte root srcva i = some (dst' i)) ∧ (∀ i > k, dst' i = dst i) ∧
        ∀ limit : Int32, max = widen limit →
          ∃ length, fetchstr root srcva dst limit s = .ok (length, dst') s ∧
            (k < 2 ^ 31 → length.toInt = k)) ∧
      (∀ i ≥ max.toNat, dst' i = dst i) ∧
      (∀ access ∈ copyinstrAccesses s root srcva max, ∃ i, s.Due root srcva max i ∧
        (access = .page (pgRoundDown (srcva + UInt64.ofNat i)) ∨
          access = .byte (srcva + UInt64.ofNat i))) ∧
      ∀ t : Phys, (∀ i < max.toNat, (∀ j < i, s.userByte root srcva j ≠ some 0) →
          t.userByte root srcva i = s.userByte root srcva i) →
        copyinstr root dst srcva max t = .ok (ret, dst') t := by
  refine ⟨_, _, copyinstr_run s root dst srcva max, ?_, ?_, ?_, ?_,
    fun access => copyinstrAccesses_due, ?_⟩
  · split_ifs
    · exact .inl rfl
    · exact .inr rfl
  · have iffMet := @terminated_iff UInt8 _ 0 (s.userByte root srcva) max.toNat 0
    simp only [Nat.zero_add] at iffMet
    rw [← iffMet]
    simp
  · intro zero
    have met : (terminated 0 (s.userByte root srcva) max.toNat 0).2 = true := by
      by_contra unmet
      simp [unmet] at zero
    obtain ⟨k, less, isNull, before, bytes, rest⟩ := copied_string dst met
    refine ⟨k, less, isNull, before, bytes, rest, ?_⟩
    intro limit isMax
    subst isMax
    have run := copyinstr_run s root dst srcva (widen limit)
    rw [if_pos met] at run
    refine ⟨_, fetchstr_of_copyinstr run, ?_⟩
    rw [strlen_eq ?_ ?_ less]
    · exact Int32.toInt_ofNat_of_lt
    · intro i isBefore null
      exact before i isBefore ((bytes i (Nat.le_of_lt isBefore)).trans (congrArg some null))
    · exact Option.some_inj.mp ((bytes k (Nat.le_refl k)).symm.trans isNull)
  · intro i outside
    have length := @length_terminated UInt8 _ 0 (s.userByte root srcva) max.toNat 0
    exact Mem.copy_outside dst (by omega)
  · intro t same
    have sameRead : terminated 0 (t.userByte root srcva) max.toNat 0 =
        terminated 0 (s.userByte root srcva) max.toNat 0 := by
      apply terminated_congr
      simpa using same
    rw [copyinstr_run, sameRead]

end Fetchstr

/-- A null byte in a page at address 0 that user code can read, and `copyinstr` cannot. -/
theorem copyinstr_refuses_page_zero :
    (leafTable 0x13).reach 0x80000000 readable 0 = some 0 ∧ (leafTable 0x13).byteAt 0 0 = 0 ∧
      copyinstr 0x80000000 (fun _ => 0) 0 1 (leafTable 0x13) =
        .ok (-1, fun _ => 0) (leafTable 0x13) := by
  have nowhere : (leafTable 0x13).userByte 0x80000000 0 0 = none := by decide +kernel
  refine ⟨by decide +kernel, by decide +kernel, ?_⟩
  · rw [copyinstr_run, terminated_none nowhere]
    rfl

end Xv6.Kernel.Proc
