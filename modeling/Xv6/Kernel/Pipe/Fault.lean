import Xv6.Kernel.Pipe.Buffer
import Xv6.Kernel.Vm.Transfer

/-!
`piperead` into user memory.

Owns: `piperead` with the `copyout` of each byte, what it leaves when a copy fails, and
for which destinations no byte is lost.

Does not own: the other end of the pipe.
-/

namespace Xv6.Kernel.Pipe

open Xv6.Lib Xv6.Kernel.Vm

/-- The copying loop of `piperead` from index `i`. -/
def pipereadCopy (pagetable addr : UInt64) (n i : Nat) (pi : Pipe) : VmM (Int × Pipe) :=
  if i < n then
    if pi.empty then pure (i, pi)
    else do
      let ret ← copyout pagetable (addr + UInt64.ofNat i) [pi.front]
      if ret = -1 then pure (i, pi.advance)
      else pipereadCopy pagetable addr n (i + 1) pi.advance
  else pure (i, pi)
termination_by n - i

/-- `piperead` from its start, or from where it slept. -/
def pipereadUser (pagetable addr : UInt64) (killed : Bool) (n : Int32) (pi : Pipe) :
    VmM (End × Pipe) :=
  if pi.empty ∧ pi.writeopen then
    if killed then pure (.returns (-1), pi) else pure (.sleeps, pi)
  else do
    let (ret, pi) ← pipereadCopy pagetable addr n.toNatClampNeg 0 pi
    pure (.returns ret, pi)

/-! ### User memory -/

section User

variable {s t : Phys} {root addr : UInt64} {n : Nat}

/-- The addresses that `copyout` can write. -/
def writableAt (s : Phys) (root addr : UInt64) (i : Nat) : Bool :=
  (s.target root (addr + UInt64.ofNat i)).isSome

theorem writableAt_iff {i : Nat} :
    writableAt s root addr i = true ↔ s.target root (addr + UInt64.ofNat i) ≠ none := by
  unfold writableAt
  exact Option.isSome_iff_ne_none

theorem wp_copyout_byte (unaliased : Unaliased t root) (va : UInt64) (byte : UInt8) :
    wp (copyout root va [byte]) t
      (fun ret u => (t.target root va = none ∧ ret = -1 ∧ CopiedOut t root va [byte] 0 u) ∨
        (t.target root va ≠ none ∧ ret = 0 ∧ CopiedOut t root va [byte] 1 u))
      fun _ _ => False := by
  refine wp_mono (wp_copyout_target unaliased va [byte]) ?_ fun _ _ absurd => absurd
  rintro ret u ⟨k, small, good, bad, isRet, copied⟩
  rw [List.length_singleton] at small bad isRet
  by_cases all : k = 1
  · subst all
    have first := good 0 Nat.one_pos
    rw [add_ofNat_zero] at first
    exact .inr ⟨first, isRet, copied⟩
  · have absent : k = 0 := by omega
    subst absent
    have first := bad Nat.one_pos
    rw [add_ofNat_zero] at first
    exact .inl ⟨first, isRet, copied⟩

theorem wp_pipereadCopy (unaliased : Unaliased s root) {src : List UInt8} {i : Nat} {pi : Pipe}
    (contents : pi.contents = src.drop i) (good : ∀ j < i, writableAt s root addr j = true)
    (copied : CopiedOut s root addr src i t) :
    wp (pipereadCopy root addr n i pi) t
      (fun result u =>
        .returns result.1 = (pipereadLoop (writableAt s root addr) n i pi).ending ∧
        result.2 = (pipereadLoop (writableAt s root addr) n i pi).pipe ∧
        CopiedOut s root addr src
          (i + (pipereadLoop (writableAt s root addr) n i pi).bytes.length) u)
      fun _ _ => False := by
  induction i, pi using pipereadLoop.induct (writableAt s root addr) n generalizing t with
  | case1 i pi more isEmpty =>
    rw [pipereadLoop, if_pos more, if_pos isEmpty, pipereadCopy, if_pos more, if_pos isEmpty]
    exact ⟨rfl, rfl, copied⟩
  | case2 i pi more notEmpty fault =>
    have nowhere : t.target root (addr + UInt64.ofNat i) = none := by
      rw [copied.target_eq unaliased]
      simpa [writableAt] using fault
    rw [pipereadLoop, if_pos more, if_neg notEmpty, if_pos fault, pipereadCopy, if_pos more,
      if_neg notEmpty, wp_bind]
    refine wp_mono (wp_copyout_byte (copied.unaliased unaliased) _ _) ?_ fun _ _ absurd => absurd
    rintro ret u (⟨_, rfl, same⟩ | ⟨somewhere, _⟩)
    · rw [if_pos rfl]
      exact ⟨rfl, rfl, copied.append unaliased (fun j less => writableAt_iff.mp (good j less)) same
        fun _ below => absurd below (Nat.not_lt_zero _)⟩
    · exact absurd nowhere somewhere
  | case3 i pi more notEmpty isWritable ih =>
    have isSome : pi.empty = false := Bool.eq_false_of_not_eq_true notEmpty
    have here := Bool.eq_true_of_not_eq_false isWritable
    have somewhere : t.target root (addr + UInt64.ofNat i) ≠ none := by
      rw [copied.target_eq unaliased]
      exact writableAt_iff.mp here
    have goodHere : ∀ j < i + 1, writableAt s root addr j = true := by
      intro j less
      rcases Nat.lt_succ_iff_lt_or_eq.mp less with before | rfl
      · exact good j before
      · exact here
    have front : pi.front :: pi.advance.contents = src.drop i :=
      (contents_advance isSome).symm.trans contents
    have first : [pi.front].getD 0 0 = src.getD i 0 := by
      have item := congrArg (fun list => list.getD 0 0) front
      simpa [List.getD_eq_getElem?_getD] using item
    have rest : pi.advance.contents = src.drop (i + 1) := by
      have items := congrArg List.tail front
      simpa using items
    rw [pipereadLoop, if_pos more, if_neg notEmpty, if_neg isWritable, pipereadCopy, if_pos more,
      if_neg notEmpty, wp_bind]
    refine wp_mono (wp_copyout_byte (copied.unaliased unaliased) _ _) ?_ fun _ _ absurd => absurd
    rintro ret u (⟨nowhere, _⟩ | ⟨_, rfl, byte⟩)
    · exact absurd nowhere somewhere
    · have more := copied.append unaliased (fun j less => writableAt_iff.mp (goodHere j less)) byte
        fun j less => by rw [Nat.lt_one_iff.mp less]; exact first
      rw [if_neg (by decide)]
      refine wp_mono (ih rest goodHere more) ?_ fun _ _ absurd => absurd
      rintro result v ⟨ending, pipe, delivered⟩
      refine ⟨ending, pipe, ?_⟩
      rw [List.length_cons, show ∀ length, i + (length + 1) = i + 1 + length from fun _ => by omega]
      exact delivered
  | case4 i pi done =>
    rw [pipereadLoop, if_neg done, pipereadCopy, if_neg done]
    exact ⟨rfl, rfl, copied⟩

/-- A call that returns has advanced `nread` by what it returns, which is the number of
bytes it delivered; the next byte in the pipe is the first one not delivered. -/
def LosesNothing (s : Phys) (root addr : UInt64) (killed : Bool) (n : Int32) (pi : Pipe) : Prop :=
  wp (pipereadUser root addr killed n pi) s
    (fun result t => result.1 = .sleeps ∨ ∃ k : Nat, result.1 = .returns k ∧
      result.2.nread = pi.nread + UInt32.ofNat k ∧ result.2.contents = pi.contents.drop k ∧
      CopiedOut s root addr pi.contents k t)
    fun _ _ => False

theorem pipereadCopy_loses_nothing_iff (unaliased : Unaliased s root) (addr : UInt64) (n : Nat)
    (pi : Pipe) :
    wp (pipereadCopy root addr n 0 pi) s
      (fun result t => ∃ k : Nat, result.1 = k ∧ result.2.nread = pi.nread + UInt32.ofNat k ∧
        result.2.contents = pi.contents.drop k ∧ CopiedOut s root addr pi.contents k t)
      (fun _ _ => False) ↔
      ∀ i < min n pi.count, s.target root (addr + UInt64.ofNat i) ≠ none := by
  obtain ⟨result, t, run, isRet, isPipe, copied⟩ := exists_ok_of_wp
    (@wp_pipereadCopy s s root addr n unaliased pi.contents 0 pi (List.drop_zero).symm
      (fun _ below => absurd below (Nat.not_lt_zero _)) CopiedOut.refl)
  obtain ⟨k, most, copies, bytes, ending, ends⟩ :=
    pipereadLoop_cases (writableAt s root addr) n 0 pi
  have length : pi.contents.length = pi.count := by simp [Pipe.contents]
  rw [ending, Nat.zero_add, End.returns.injEq] at isRet
  rw [bytes, List.length_take, Nat.zero_add, length, show min k pi.count = k by omega] at copied
  simp only [Nat.sub_zero, Nat.zero_add] at copies ends
  rw [wp_ok run, isPipe]
  rcases ends with ⟨all, pipe⟩ | ⟨less, fault, pipe⟩
  · constructor
    · intro _ i inside
      exact writableAt_iff.mp (copies i (by omega))
    · intro _
      rw [pipe]
      exact ⟨k, isRet, rfl, contents_skip (by omega), copied⟩
  · constructor
    · rintro ⟨other, isOther, advanced, _⟩
      have same : other = k := Int.ofNat_inj.mp (isOther.symm.trans isRet)
      rw [pipe, same] at advanced
      have one : UInt32.ofNat (k + 1) = UInt32.ofNat k := UInt32.add_right_inj _ |>.mp advanced
      simp [UInt32.ofNat_add] at one
    · intro every
      have isWritable := writableAt_iff.mpr (every k less)
      rw [fault] at isWritable
      contradiction

/-- `piperead` loses nothing if and only if it can write every byte that it takes out of
the pipe, and is not killed while the pipe is empty. -/
theorem piperead_loses_nothing_iff (unaliased : Unaliased s root) (addr : UInt64) (killed : Bool)
    (n : Int32) (pi : Pipe) :
    LosesNothing s root addr killed n pi ↔
      ((pi.empty = true → pi.writeopen = true → killed = false) ∧
        ∀ i < min n.toNatClampNeg pi.count, s.target root (addr + UInt64.ofNat i) ≠ none) := by
  unfold LosesNothing pipereadUser
  by_cases waits : pi.empty = true ∧ pi.writeopen = true
  · have absent := empty_iff.mp waits.1
    rw [if_pos waits]
    cases killed with
    | true => simp [wp_pure, waits]
    | false => simp [wp_pure, absent]
  · rw [if_neg waits, wp_bind, ← pipereadCopy_loses_nothing_iff unaliased addr n.toNatClampNeg pi]
    have notKilled : pi.empty = true → pi.writeopen = true → killed = false :=
      fun isEmpty isOpen => absurd ⟨isEmpty, isOpen⟩ waits
    rw [and_iff_right notKilled]
    simp [wp_pure]

end User

/-- A pipe with one byte in it. -/
def oneByte : Pipe := ⟨fun _ => 97, 0, 1, true, true⟩

theorem onePage_unaliased : Unaliased (leafTable 0x20000C17) 0x80000000 :=
  leafTable_unaliased (by decide +kernel)

/-- The byte is delivered to the start of the page. -/
theorem piperead_loses_nothing_page :
    LosesNothing (leafTable 0x20000C17) 0x80000000 0 false 1 oneByte := by
  apply (piperead_loses_nothing_iff onePage_unaliased 0 false 1 oneByte).mpr
  exact ⟨fun _ _ => rfl, by decide +kernel⟩

/-- Behind the page nothing is mapped: the call returns 0, and the byte is gone. -/
theorem piperead_loses_byte :
    ∃ t, pipereadUser 0x80000000 4096 false 1 oneByte (leafTable 0x20000C17) =
        .ok (.returns 0, oneByte.advance) t ∧
      oneByte.advance.nread = oneByte.nread + 1 ∧ oneByte.advance.contents = [] := by
  have nowhere : writableAt (leafTable 0x20000C17) 0x80000000 4096 0 = false := by decide +kernel
  have notEmpty : ¬ oneByte.empty = true := by decide
  have loop : pipereadLoop (writableAt (leafTable 0x20000C17) 0x80000000 4096) 1 0 oneByte =
      ⟨oneByte.advance, [], .returns 0⟩ := by
    rw [pipereadLoop, if_pos Nat.one_pos, if_neg notEmpty, if_pos nowhere]
    rfl
  obtain ⟨⟨ret, pi⟩, t, run, isRet, isPipe, _⟩ := exists_ok_of_wp
    (@wp_pipereadCopy (leafTable 0x20000C17) (leafTable 0x20000C17) 0x80000000 4096 1
      onePage_unaliased oneByte.contents 0 oneByte (List.drop_zero).symm
      (fun _ below => absurd below (Nat.not_lt_zero _)) CopiedOut.refl)
  rw [loop] at isRet isPipe
  rw [End.returns.injEq] at isRet
  subst isRet isPipe
  refine ⟨t, ?_, rfl, rfl⟩
  unfold pipereadUser
  rw [if_neg fun waits => notEmpty waits.1]
  change EStateM.bind (pipereadCopy 0x80000000 4096 1 0 oneByte) _ _ = _
  unfold EStateM.bind
  rw [run]
  rfl

end Xv6.Kernel.Pipe
