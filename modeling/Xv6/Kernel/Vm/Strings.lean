import Xv6.Kernel.Vm.Transfer
import Xv6.Lib.Terminated

/-!
Strings from user memory.

Owns: that `copyinstr` reads the user string at an address as far as it is mapped, up to
its null byte or its bound, and which pages and bytes it accesses on the way.

Does not own: who passes the address.
-/

namespace Xv6.Kernel.Vm

open Xv6.Lib

/-- The byte at offset `i` from a user address, if the address leads to one. -/
def Phys.userByte (s : Phys) (root va : UInt64) (i : Nat) : Option UInt8 :=
  (s.source root (va + UInt64.ofNat i)).map fun page => s.byteAt page (va + UInt64.ofNat i)

section Copyinstr

variable {s : Phys} {root : UInt64}

theorem copy_singleton (dst : Mem) (pos : Nat) (byte : UInt8) :
    Function.update dst pos byte = dst.copy pos [byte] := by
  funext i
  by_cases same : i = pos
  · subst same
    rw [Function.update_self, Mem.copy_inside dst (Nat.le_refl i) (by simp)]
    simp
  · rw [Function.update_of_ne same, Mem.copy_outside dst (by simp; omega)]

theorem copyinstrPiece_eq (page : Page) (n p : Nat) (dst : Mem) (pos : Nat) :
    copyinstrPiece page n p dst pos =
      ((terminated 0 (fun q => some (page.byte q)) n p).2,
        dst.copy pos (terminated 0 (fun q => some (page.byte q)) n p).1) := by
  induction n generalizing p dst pos with
  | zero => simp [copyinstrPiece, terminated_zero]
  | succ n ih =>
    rw [copyinstrPiece]
    by_cases null : page.byte p = 0
    · rw [if_pos null, copy_singleton, terminated_stop (by rw [null])]
    · have first : (fun q => some (page.byte q)) p = some (page.byte p) := rfl
      rw [if_neg null, ih, copy_singleton, terminated_cons first null]
      exact congrArg (Prod.mk _) (Mem.copy_append dst pos [page.byte p] _).symm

theorem terminated_page {srcva page : UInt64} (found : s.source root srcva = some page) {n : Nat}
    (fits : srcva.toNat % 4096 + n ≤ 4096) :
    ∀ j < n, s.userByte root srcva j =
      some ((s.mem page).byte ((srcva - pgRoundDown srcva).toNat + j)) := by
  intro j less
  have low : srcva.toNat % 4096 + j < 4096 := by omega
  rw [Phys.userByte, source_congr (vpn_in_page low), found, Option.map_some, Phys.byteAt,
    mod_in_page low, sub_pgRoundDown_toNat]

theorem wp_copyinstrLoop (dst : Mem) (pos : Nat) (srcva max : UInt64) :
    wp (copyinstrLoop root dst pos srcva max) s
      (fun result t => t = s ∧ result =
        (if (terminated 0 (s.userByte root srcva) max.toNat 0).2
            then 0 else -1,
          dst.copy pos
            (terminated 0 (s.userByte root srcva) max.toNat 0).1))
      fun _ _ => False := by
  generalize remaining : max.toNat = left
  induction left using Nat.strong_induction_on generalizing dst pos srcva max with
  | _ left ih =>
    unfold copyinstrLoop
    by_cases more : 0 < max
    · obtain ⟨fits, sum, positive, next⟩ := pieceOf_cases srcva max
      rw [if_pos more, wp_bind, wp_ok (walkaddr_source s root (pgRoundDown srcva)),
        source_congr (vpn_pgRoundDown srcva)]
      cases found : s.source root srcva with
      | none =>
        have missing : s.userByte root srcva 0 = none := by
          rw [Phys.userByte, add_ofNat_zero, found]
          rfl
        rw [terminated_none missing]
        exact ⟨rfl, by simp⟩
      | some page =>
        have bytes := terminated_page found fits
        have present : ∀ j < (pieceOf srcva max).toNat,
            s.userByte root srcva (0 + j) ≠ none := by
          intro j less
          rw [Nat.zero_add, bytes j less]
          exact Option.some_ne_none _
        have piece : terminated 0 (fun q => some ((s.mem page).byte q)) (pieceOf srcva max).toNat
              (srcva - pgRoundDown srcva).toNat =
            terminated 0 (s.userByte root srcva) (pieceOf srcva max).toNat 0 := by
          apply terminated_congr
          intro j less _
          rw [Nat.zero_add, bytes j less]
        have split := @terminated_add UInt8 _ 0 (s.userByte root srcva) _
          (max - pieceOf srcva max).toNat 0 present
        have length := @length_terminated_of_false UInt8 _ 0 (s.userByte root srcva) _ 0 present
        have rest : terminated 0 (s.userByte root (pgRoundDown srcva + pgSize))
              (max - pieceOf srcva max).toNat 0 =
            terminated 0 (s.userByte root srcva) (max - pieceOf srcva max).toNat
              (0 + (pieceOf srcva max).toNat) := by
          apply terminated_congr
          intro j less _
          rw [Phys.userByte, next (by omega), ← add_ofNat_add, Nat.zero_add, Nat.zero_add]
          rfl
        have whole : left = (pieceOf srcva max).toNat + (max - pieceOf srcva max).toNat := by omega
        have smaller : (max - pieceOf srcva max).toNat < left := remaining ▸ sub_pieceOf_lt more
        rw [Option.getD_some, wp_ite, if_neg (source_ne_zero found)]
        simp only [wp_bind, wp_get, wp_ite, copyinstrPiece_eq, piece]
        rw [whole, split]
        generalize terminated 0 (s.userByte root srcva) (pieceOf srcva max).toNat 0 = read at length
        by_cases met : read.2 = true
        · simp [met, wp_pure]
        · have full := length (Bool.eq_false_of_not_eq_true met)
          rw [if_neg met, if_neg met]
          refine wp_mono (ih _ smaller (dst.copy pos read.1) _
            (pgRoundDown srcva + pgSize) (max - pieceOf srcva max) rfl) ?_ fun _ _ absurd => absurd
          rintro result t ⟨rfl, rfl⟩
          rw [rest, Mem.copy_append, full]
          exact ⟨rfl, rfl⟩
    · rw [if_neg more]
      have zero : left = 0 := by
        rw [UInt64.lt_iff_toNat_lt] at more
        change ¬ 0 < max.toNat at more
        omega
      rw [zero, terminated_zero]
      exact ⟨rfl, by simp⟩

theorem copyinstr_run (s : Phys) (root : UInt64) (dst : Mem) (srcva max : UInt64) :
    copyinstr root dst srcva max s =
      .ok (if (terminated 0 (s.userByte root srcva) max.toNat 0).2 then 0 else -1,
        dst.copy 0 (terminated 0 (s.userByte root srcva) max.toNat 0).1) s := by
  obtain ⟨result, t, run, isSame, isResult⟩ :=
    exists_ok_of_wp (@wp_copyinstrLoop s root dst 0 srcva max)
  subst isSame isResult
  exact run

/-- The string in the buffer after the null byte was met. -/
theorem copied_string {srcva : UInt64} {max : Nat} (dst : Mem)
    (met : (terminated 0 (s.userByte root srcva) max 0).2 = true) :
    ∃ k < max, s.userByte root srcva k = some 0 ∧ (∀ i < k, s.userByte root srcva i ≠ some 0) ∧
      (∀ i ≤ k, s.userByte root srcva i =
        some (dst.copy 0 (terminated 0 (s.userByte root srcva) max 0).1 i)) ∧
      ∀ i > k, dst.copy 0 (terminated 0 (s.userByte root srcva) max 0).1 i = dst i := by
  obtain ⟨k, less, isNull, before, length, items⟩ := terminated_of_true met
  simp only [Nat.zero_add] at isNull before items
  refine ⟨k, less, isNull, fun i isBefore => (before i isBefore).2, ?_, ?_⟩
  · intro i most
    rw [Mem.copy_inside dst (Nat.zero_le i) (by omega), Nat.sub_zero, ← items i most,
      List.getD_eq_getElem?_getD, List.getElem?_eq_getElem (by omega)]
    rfl
  · intro i above
    exact Mem.copy_outside dst (by omega)

end Copyinstr

/-! ### What is accessed -/

/-- The lookup of the page at `va0`, or the read of the byte at `va`. -/
inductive UserAccess where
  | page (va0 : UInt64)
  | byte (va : UInt64)

/-- The reads of the inner loop of `copyinstr`: `n` bytes from place `p` of the page at `va0`
on. -/
def copyinstrPieceAccesses (page : Page) (va0 : UInt64) : Nat → Nat → List UserAccess
  | 0, _ => []
  | n + 1, p =>
    .byte (va0 + UInt64.ofNat p) ::
      if page.byte p = 0 then [] else copyinstrPieceAccesses page va0 n (p + 1)

/-- The accesses of `copyinstr` to user memory, in order. -/
def copyinstrAccesses (s : Phys) (pagetable srcva max : UInt64) : List UserAccess :=
  if 0 < max then
    .page (pgRoundDown srcva) ::
      match s.source pagetable (pgRoundDown srcva) with
      | none => []
      | some pa0 =>
        let n := pieceOf srcva max
        let p := (srcva - pgRoundDown srcva).toNat
        copyinstrPieceAccesses (s.mem pa0) (pgRoundDown srcva) n.toNat p ++
          if (copyinstrPiece (s.mem pa0) n.toNat p (fun _ => 0) 0).1 then []
          else copyinstrAccesses s pagetable (pgRoundDown srcva + pgSize) (max - n)
  else []
termination_by max.toNat
decreasing_by exact sub_pieceOf_lt (by assumption)

/-- The byte at offset `i` is before the bound, and the bytes before it are there and not
null. -/
structure Phys.Due (s : Phys) (root srcva max : UInt64) (i : Nat) : Prop where
  inside : i < max.toNat
  before : ∀ j < i, ∃ byte ≠ 0, s.userByte root srcva j = some byte

section Accesses

variable {s : Phys} {root srcva max : UInt64}

theorem mem_copyinstrPieceAccesses {page : Page} {va0 : UInt64} {n p : Nat} {access : UserAccess}
    (member : access ∈ copyinstrPieceAccesses page va0 n p) :
    ∃ j < n, access = .byte (va0 + UInt64.ofNat (p + j)) ∧ ∀ l < j, page.byte (p + l) ≠ 0 := by
  induction n generalizing p with
  | zero => exact absurd member List.not_mem_nil
  | succ n ih =>
    rw [copyinstrPieceAccesses] at member
    rcases List.mem_cons.mp member with first | later
    · exact ⟨0, Nat.succ_pos n, first, fun l below => absurd below (Nat.not_lt_zero l)⟩
    · split_ifs at later with null
      · exact absurd later List.not_mem_nil
      · obtain ⟨j, less, here, before⟩ := ih later
        refine ⟨j + 1, by omega, by rw [here, Nat.add_assoc, Nat.add_comm 1 j], fun l below => ?_⟩
        cases l with
        | zero => exact null
        | succ l =>
          rw [Nat.add_comm l 1, ← Nat.add_assoc]
          exact before l (by omega)

/-- A piece in which the null byte was not met has none. -/
theorem byte_ne_zero_of_unmet {page : Page} {n p : Nat} {dst : Mem} {pos : Nat}
    (unmet : ¬ (copyinstrPiece page n p dst pos).1 = true) : ∀ j < n, page.byte (p + j) ≠ 0 := by
  rw [copyinstrPiece_eq, terminated_iff] at unmet
  intro j less null
  exact unmet ⟨j, less, congrArg some null, fun _ _ => Option.some_ne_none _⟩

theorem Phys.Due.shift {n i : Nat}
    (first : ∀ j < n, ∃ byte ≠ 0, s.userByte root srcva j = some byte)
    (sum : (max - UInt64.ofNat n).toNat + n = max.toNat)
    (due : s.Due root (srcva + UInt64.ofNat n) (max - UInt64.ofNat n) i) :
    s.Due root srcva max (n + i) := by
  obtain ⟨inside, before⟩ := due
  refine ⟨by omega, fun j below => ?_⟩
  by_cases early : j < n
  · exact first j early
  · obtain ⟨byte, other, read⟩ := before (j - n) (by omega)
    refine ⟨byte, other, ?_⟩
    rwa [Phys.userByte, ← add_ofNat_add, Nat.add_sub_cancel' (Nat.le_of_not_lt early)] at read

/-- Only bytes up to the first null byte and before the bound are read, and only their pages
are looked up. -/
theorem copyinstrAccesses_due {access : UserAccess}
    (member : access ∈ copyinstrAccesses s root srcva max) :
    ∃ i, s.Due root srcva max i ∧ (access = .page (pgRoundDown (srcva + UInt64.ofNat i)) ∨
      access = .byte (srcva + UInt64.ofNat i)) := by
  generalize remaining : max.toNat = left
  induction left using Nat.strong_induction_on generalizing srcva max with
  | _ left ih =>
    rw [copyinstrAccesses] at member
    split_ifs at member with more
    swap
    · exact absurd member List.not_mem_nil
    obtain ⟨fits, sum, positive, next⟩ := pieceOf_cases srcva max
    have least := positive more
    rcases List.mem_cons.mp member with lookup | later
    · refine ⟨0, ⟨by omega, fun j below => absurd below (Nat.not_lt_zero j)⟩, .inl ?_⟩
      rw [lookup, add_ofNat_zero]
    rw [source_congr (vpn_pgRoundDown srcva)] at later
    cases found : s.source root srcva with
    | none =>
      rw [found] at later
      exact absurd later List.not_mem_nil
    | some page =>
      have bytes := terminated_page found fits
      simp only [found] at later
      rcases List.mem_append.mp later with here | rest
      · obtain ⟨j, less, isByte, before⟩ := mem_copyinstrPieceAccesses here
        refine ⟨j, ⟨by omega, fun l below => ⟨_, before l below, bytes l (by omega)⟩⟩, .inr ?_⟩
        rw [isByte, add_ofNat_add, UInt64.ofNat_toNat, UInt64.add_comm (pgRoundDown srcva),
          UInt64.sub_add_cancel]
      · split_ifs at rest with met
        · exact absurd rest List.not_mem_nil
        have first : ∀ j < (pieceOf srcva max).toNat,
            ∃ byte ≠ 0, s.userByte root srcva j = some byte := fun j less =>
          ⟨_, byte_ne_zero_of_unmet met j less, bytes j less⟩
        obtain ⟨i, due, isAccess⟩ := ih _ (remaining ▸ sub_pieceOf_lt more) rest rfl
        rw [next (Nat.ne_of_gt (Nat.zero_lt_of_lt due.inside))] at due isAccess
        rw [← add_ofNat_add] at isAccess
        refine ⟨_, Phys.Due.shift first ?_ ?_, isAccess⟩
        · simpa only [UInt64.ofNat_toNat] using sum
        · simpa only [UInt64.ofNat_toNat] using due

end Accesses

end Xv6.Kernel.Vm
