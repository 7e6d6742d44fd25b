import Xv6.Kernel.Proc.Info

/-!
What the records of `sys_ps` and `sys_pinfo` hold.

Owns: the bytes that each call delivers, which of them come from the stack, and when
none does.

Does not own: which processes a call reports.
-/

namespace Xv6.Kernel.Proc

open Xv6.Lib Xv6.Kernel.Vm Xv6.Kernel.Sched

/-! ### A record byte by byte -/

section Record

variable {s pi : Mem} {procs : Procs} {p : ProcPtr} {i : Nat}

theorem safestrcpyLoop_below (t : Mem) {n pos k : Nat} (below : i < pos) :
    safestrcpyLoop t n s pos k i = s i := by
  induction n generalizing s pos k with
  | zero => exact Mem.copy_outside s (.inl below)
  | succ n ih =>
    unfold safestrcpyLoop
    split_ifs with null
    · rw [Mem.copy_outside _ (.inl (by omega)), Mem.copy_outside s (.inl below)]
    · rw [ih (by omega), Mem.copy_outside s (.inl below)]

theorem setName_below {name : Mem} (below : i < 24) : setName pi name i = pi i :=
  safestrcpyLoop_below name below

theorem setSz_below {sz : UInt64} (below : i < 16) : setSz pi sz i = pi i :=
  Mem.copy_outside pi (.inl below)

theorem fillPs_pid (inside : i < 4) :
    procs.fillPs p pi i = (Mem.bytes32 (procs.table p).pid.toUInt32).getD i 0 := by
  unfold Procs.fillPs
  rw [setName_below (by omega), setSz_below (by omega), setState,
    Mem.copy_outside _ (.inl (by omega)),
    setPid, Mem.copy_inside _ (Nat.zero_le i) (by rw [Mem.length_bytes32]; omega), Nat.sub_zero]

theorem fillPs_ppid : procs.fillPs p pi 4 = pi 4 := by
  unfold Procs.fillPs
  rw [setName_below (by decide), setSz_below (by decide), setState,
    Mem.copy_outside _ (.inl (by decide)), setPid, Mem.copy_outside _ (.inr (by simp))]

theorem fillPinfo_congr (pi' : Mem) (inside : i < 12) :
    procs.fillPinfo p pi i = procs.fillPinfo p pi' i := by
  unfold Procs.fillPinfo
  simp only [setName_below (show i < 24 by omega), setSz_below (show i < 16 by omega), setState,
    setPpid, setPid, Mem.copy, Mem.length_bytes32]
  split_ifs with inState inPpid inPid
  · rfl
  · rfl
  · rfl
  · omega

theorem fillPinfo_padding : procs.fillPinfo p pi 12 = pi 12 := by
  unfold Procs.fillPinfo
  rw [setName_below (by decide), setSz_below (by decide), setState,
    Mem.copy_outside _ (.inr (by simp)), setPpid, Mem.copy_outside _ (.inr (by simp)), setPid,
    Mem.copy_outside _ (.inr (by simp))]

end Record

/-! ### What is delivered -/

/-- The bytes of `src` up to the first address that leads nowhere are at `dstva`. -/
structure Delivered (s : Phys) (root dstva : UInt64) (src : List UInt8) (k : Nat) (t : Phys) : Prop
    where
  small : k ≤ src.length
  good : ∀ i < k, s.target root (dstva + UInt64.ofNat i) ≠ none
  bad : k < src.length → s.target root (dstva + UInt64.ofNat k) = none
  copied : CopiedOut s root dstva src k t

section Delivered

variable {s t t' : Phys} {root dstva : UInt64} {src src' : List UInt8} {k k' : Nat}

/-- How far a copy gets does not depend on the bytes. -/
theorem Delivered.count_eq (first : Delivered s root dstva src k t)
    (second : Delivered s root dstva src' k' t') (length : src.length = src'.length) : k = k' := by
  have firstSmall := first.small
  have secondSmall := second.small
  rcases Nat.lt_trichotomy k k' with less | same | more
  · exact absurd (first.bad (by omega)) (second.good k less)
  · exact same
  · exact absurd (second.bad (by omega)) (first.good k' more)

theorem Delivered.eq_iff (first : Delivered s root dstva src k t)
    (second : Delivered s root dstva src' k' t') (length : src.length = src'.length) :
    t = t' ↔ ∀ i < k, src.getD i 0 = src'.getD i 0 := by
  obtain rfl := first.count_eq second length
  exact first.copied.eq_iff first.good second.copied

theorem Delivered.lt_iff (delivered : Delivered s root dstva src k t) {n : Nat} :
    n < k ↔ n < src.length ∧ ∀ i < n + 1, s.target root (dstva + UInt64.ofNat i) ≠ none := by
  have small := delivered.small
  constructor
  · intro less
    exact ⟨by omega, fun i inside => delivered.good i (by omega)⟩
  · rintro ⟨inside, good⟩
    by_contra most
    exact good k (by omega) (delivered.bad (by omega))

end Delivered

/-- The bytes that `sys_ps` copies out. -/
def Procs.psRecords (procs : Procs) (max : Int32) : List ProcPtr → Nat → Mem → List UInt8
  | [], _, _ => []
  | p :: rest, count, pi =>
    if (count : Int) < max.toInt then
      if (procs.table p).state ≠ .unused then
        (procs.fillPs p pi).read 0 sizeofProcinfo ++
          procs.psRecords max rest (count + 1) (procs.fillPs p pi)
      else procs.psRecords max rest count pi
    else []

section Ps

variable {s t : Phys} {root uProcinfo : UInt64} {procs : Procs} {max : Int32}

theorem length_psRecords (procs : Procs) (max : Int32) (left : List ProcPtr) (count : Nat)
    (pi pi' : Mem) :
    (procs.psRecords max left count pi).length = (procs.psRecords max left count pi').length := by
  induction left generalizing count pi pi' with
  | nil => rfl
  | cons p rest ih =>
    unfold Procs.psRecords
    split_ifs with more
    · rw [List.length_append, List.length_append, Mem.length_read, Mem.length_read,
        ih (count + 1) (procs.fillPs p pi) (procs.fillPs p pi')]
    · exact ih count pi pi'
    · rfl

theorem psRecords_cases (procs : Procs) (max : Int32) (left : List ProcPtr) :
    (¬ (0 < max.toInt ∧ ∃ p ∈ left, (procs.table p).state ≠ .unused) ∧
      ∀ pi, procs.psRecords max left 0 pi = []) ∨
    (0 < max.toInt ∧ (∃ p ∈ left, (procs.table p).state ≠ .unused) ∧
      ∃ p rest, ∀ pi, procs.psRecords max left 0 pi =
        (procs.fillPs p pi).read 0 sizeofProcinfo ++
          procs.psRecords max rest 1 (procs.fillPs p pi)) := by
  induction left with
  | nil =>
    left
    simp [Procs.psRecords]
  | cons p rest ih =>
    simp only [Procs.psRecords, Nat.cast_zero]
    by_cases more : 0 < max.toInt
    · by_cases used : (procs.table p).state = .unused
      · simpa [more, used] using ih
      · right
        refine ⟨more, ⟨p, List.mem_cons_self, used⟩, p, rest, ?_⟩
        simp [more, used]
    · left
      simp [more]

theorem wp_sysPsLoop (unaliased : Unaliased s root) (left : List ProcPtr) {count : Nat} {pi : Mem}
    {done : List UInt8} (length : done.length = sizeofProcinfo * count)
    (good : ∀ i < done.length, s.target root (uProcinfo + UInt64.ofNat i) ≠ none)
    (copied : CopiedOut s root uProcinfo (done ++ procs.psRecords max left count pi)
      done.length t) :
    wp (sysPsLoop procs root uProcinfo max left count pi) t
      (fun ret u => ∃ k,
        Delivered s root uProcinfo (done ++ procs.psRecords max left count pi) k u ∧
        ret = if k = (done ++ procs.psRecords max left count pi).length then
          UInt64.ofNat (k / sizeofProcinfo) else -1)
      fun _ _ => False := by
  have number : done.length / sizeofProcinfo = count := by
    rw [length, Nat.mul_div_cancel_left _ (by decide)]
  induction left generalizing count pi done t with
  | nil =>
    rw [Procs.psRecords, List.append_nil] at copied ⊢
    refine ⟨done.length, ⟨Nat.le_refl _, good, fun less => absurd less (Nat.lt_irrefl _), copied⟩,
      ?_⟩
    rw [if_pos rfl, number]
  | cons p rest ih =>
    unfold sysPsLoop
    unfold Procs.psRecords at copied ⊢
    split_ifs at copied ⊢ with more
    · rename_i used
      generalize isRecord : (procs.fillPs p pi).read 0 sizeofProcinfo = record at copied ⊢
      have size : record.length = sizeofProcinfo := by rw [← isRecord, Mem.length_read]
      rw [wp_bind, isRecord, ← length]
      refine wp_mono (wp_copyout_target (copied.unaliased unaliased) _ record) ?_
        fun _ _ absurd => absurd
      rintro ret u ⟨k, small, goodMore, bad, isRet, copiedMore⟩
      have goodAll : ∀ i < done.length + k, s.target root (uProcinfo + UInt64.ofNat i) ≠ none := by
        intro i less
        by_cases early : i < done.length
        · exact good i early
        · have later := goodMore (i - done.length) (by omega)
          rw [← add_ofNat_add, Nat.add_sub_cancel' (Nat.le_of_not_lt early),
            copied.target_eq unaliased] at later
          exact later
      have copiedAll := copied.append unaliased goodAll copiedMore (by
        intro i less
        have inRecord : i < record.length := by omega
        rw [List.getD_append_right _ _ _ _ (Nat.le_add_right _ _), Nat.add_sub_cancel_left,
          List.getD_append _ _ _ _ inRecord])
      by_cases all : k = record.length
      · rw [if_pos all] at isRet
        subst isRet all
        rw [if_neg (by decide), ← List.append_assoc]
        rw [← List.append_assoc, ← List.length_append] at copiedAll
        rw [← List.length_append] at goodAll
        refine ih ?_ goodAll copiedAll ?_
        · rw [List.length_append, length, size, Nat.mul_succ]
        · rw [List.length_append, length, size, ← Nat.mul_succ,
            Nat.mul_div_cancel_left _ (by decide)]
      · rw [if_neg all] at isRet
        subst isRet
        have nowhere := bad (by omega)
        rw [copied.target_eq unaliased, ← add_ofNat_add] at nowhere
        rw [if_pos (by decide), wp_pure]
        refine ⟨done.length + k, ⟨?_, goodAll, fun _ => nowhere, copiedAll⟩, ?_⟩
        · simp only [List.length_append]
          omega
        · rw [if_neg]
          simp only [List.length_append]
          omega
    · exact ih length good copied number
    · rw [List.append_nil] at copied ⊢
      refine ⟨done.length, ⟨Nat.le_refl _, good, fun less => absurd less (Nat.lt_irrefl _), copied⟩,
        ?_⟩
      rw [if_pos rfl, number]

theorem sysPs_run (unaliased : Unaliased s root) (procs : Procs)
    (trapframe : Trapframe) (pi : Mem) :
    ∃ k t, Delivered s root (argaddr trapframe 0)
        (procs.psRecords (argint trapframe 1) slots 0 pi) k t ∧
      sysPs procs root trapframe pi s =
        .ok (if k = (procs.psRecords (argint trapframe 1) slots 0 pi).length then
          UInt64.ofNat (k / sizeofProcinfo) else -1) t := by
  obtain ⟨ret, t, run, k, delivered, isRet⟩ := exists_ok_of_wp
    (@wp_sysPsLoop s s root (argaddr trapframe 0) procs (argint trapframe 1) unaliased slots 0 pi []
      rfl (fun _ below => absurd below (Nat.not_lt_zero _)) CopiedOut.refl)
  exact ⟨k, t, delivered, isRet ▸ run⟩

end Ps

section Pinfo

variable {s : Phys} {root : UInt64} {procs : Procs} {trapframe : Trapframe}

theorem sysPinfo_none (missing : procs.findPid (argint trapframe 0) = none) (pi : Mem) :
    sysPinfo procs root trapframe pi s = .ok (-1) s := by
  unfold sysPinfo
  rw [missing]
  rfl

theorem sysPinfo_some (unaliased : Unaliased s root) {p : ProcPtr}
    (found : procs.findPid (argint trapframe 0) = some p) (pi : Mem) :
    ∃ k t, Delivered s root (argaddr trapframe 1)
        ((procs.fillPinfo p pi).read 0 sizeofProcinfo) k t ∧
      sysPinfo procs root trapframe pi s = .ok (if k = sizeofProcinfo then 0 else -1) t := by
  obtain ⟨ret, t, run, k, small, good, bad, isRet, copied⟩ := exists_ok_of_wp
    (wp_copyout_target unaliased (argaddr trapframe 1)
      ((procs.fillPinfo p pi).read 0 sizeofProcinfo))
  refine ⟨k, t, ⟨small, good, bad, copied⟩, ?_⟩
  unfold sysPinfo
  rw [found]
  change EStateM.bind _ _ s = _
  unfold EStateM.bind
  rw [run, isRet, Mem.length_read]
  by_cases all : k = sizeofProcinfo
  · rw [if_pos all, if_pos all]
    rfl
  · rw [if_neg all, if_neg all]
    rfl

end Pinfo

/-! ### The stack shows -/

section Leak

variable {s : Phys} {root : UInt64}

theorem sysPs_eq_iff (unaliased : Unaliased s root) (procs : Procs) (trapframe : Trapframe) :
    (∀ pi pi', sysPs procs root trapframe pi s = sysPs procs root trapframe pi' s) ↔
      ¬ (0 < (argint trapframe 1).toInt ∧ (∃ p, (procs.table p).state ≠ .unused) ∧
        ∀ i < 5, s.target root (argaddr trapframe 0 + UInt64.ofNat i) ≠ none) := by
  have runs := sysPs_run unaliased procs trapframe
  have length := length_psRecords procs (argint trapframe 1) slots 0
  rcases psRecords_cases procs (argint trapframe 1) slots with
    ⟨nothing, empty⟩ | ⟨more, ⟨p, _, used⟩, first, rest, records⟩
  · constructor
    · rintro _ ⟨more, ⟨p, used⟩, _⟩
      exact nothing ⟨more, p, mem_slots p, used⟩
    · intro _ pi pi'
      obtain ⟨k, t, delivered, run⟩ := runs pi
      obtain ⟨k', t', delivered', run'⟩ := runs pi'
      have zero : k = 0 := by simpa [empty] using delivered.small
      have sameMemory := (delivered.eq_iff delivered' (length pi pi')).mpr (by simp [zero])
      rw [run, run', delivered.count_eq delivered' (length pi pi'), length pi pi', sameMemory]
  · have inRecord : ∀ pi, ∀ i < 5,
        (procs.psRecords (argint trapframe 1) slots 0 pi).getD i 0 = procs.fillPs first pi i := by
      intro pi i less
      have inside : i < sizeofProcinfo := by
        unfold sizeofProcinfo
        omega
      rw [records, List.getD_append _ _ _ _ (by rw [Mem.length_read]; exact inside),
        Mem.getD_read _ _ inside, Nat.zero_add]
    constructor
    · rintro same ⟨_, _, good⟩
      obtain ⟨k, t, delivered, run⟩ := runs fun _ => 0
      obtain ⟨k', t', delivered', run'⟩ := runs fun _ => 1
      have long : 4 < (procs.psRecords (argint trapframe 1) slots 0 fun _ => 0).length := by
        rw [records, List.length_append, Mem.length_read]
        unfold sizeofProcinfo
        omega
      have reached : 4 < k := delivered.lt_iff.mpr ⟨long, good⟩
      have results := same (fun _ => 0) fun _ => 1
      rw [run, run', EStateM.Result.ok.injEq] at results
      have byte := (delivered.eq_iff delivered' (length _ _)).mp results.2 4 reached
      rw [inRecord _ 4 (by decide), inRecord _ 4 (by decide), fillPs_ppid, fillPs_ppid] at byte
      contradiction
    · intro short pi pi'
      obtain ⟨k, t, delivered, run⟩ := runs pi
      obtain ⟨k', t', delivered', run'⟩ := runs pi'
      have few : k ≤ 4 := by
        by_contra many
        exact short ⟨more, ⟨p, used⟩, (delivered.lt_iff.mp (Nat.not_le.mp many)).2⟩
      have sameMemory := (delivered.eq_iff delivered' (length pi pi')).mpr (by
        intro i less
        rw [inRecord pi i (by omega), inRecord pi' i (by omega), fillPs_pid (by omega),
          fillPs_pid (by omega)])
      rw [run, run', delivered.count_eq delivered' (length pi pi'), length pi pi', sameMemory]

theorem sysPinfo_eq_iff (unaliased : Unaliased s root) (procs : Procs) (trapframe : Trapframe) :
    (∀ pi pi', sysPinfo procs root trapframe pi s = sysPinfo procs root trapframe pi' s) ↔
      ¬ ((∃ p, (procs.table p).pid = argint trapframe 0) ∧
        ∀ i < 13, s.target root (argaddr trapframe 1 + UInt64.ofNat i) ≠ none) := by
  cases found : procs.findPid (argint trapframe 0) with
  | none =>
    constructor
    · rintro _ ⟨⟨p, isPid⟩, _⟩
      have other := List.find?_eq_none.mp found p (mem_slots p)
      simp [isPid] at other
    · intro _ pi pi'
      rw [sysPinfo_none found, sysPinfo_none found]
  | some p =>
    have isPid : (procs.table p).pid = argint trapframe 0 := by
      simpa using List.find?_some found
    have runs := sysPinfo_some unaliased found
    have length : ∀ pi pi' : Mem, ((procs.fillPinfo p pi).read 0 sizeofProcinfo).length =
        ((procs.fillPinfo p pi').read 0 sizeofProcinfo).length := by simp
    have inRecord : ∀ pi, ∀ i < 13,
        ((procs.fillPinfo p pi).read 0 sizeofProcinfo).getD i 0 = procs.fillPinfo p pi i := by
      intro pi i less
      rw [Mem.getD_read _ _ (by unfold sizeofProcinfo; omega), Nat.zero_add]
    constructor
    · rintro same ⟨_, good⟩
      obtain ⟨k, t, delivered, run⟩ := runs fun _ => 0
      obtain ⟨k', t', delivered', run'⟩ := runs fun _ => 1
      have reached : 12 < k := by
        refine delivered.lt_iff.mpr ⟨?_, good⟩
        rw [Mem.length_read]
        decide
      have results := same (fun _ => 0) fun _ => 1
      rw [run, run', EStateM.Result.ok.injEq] at results
      have byte := (delivered.eq_iff delivered' (length _ _)).mp results.2 12 reached
      rw [inRecord _ 12 (by decide), inRecord _ 12 (by decide), fillPinfo_padding,
        fillPinfo_padding] at byte
      contradiction
    · intro short pi pi'
      obtain ⟨k, t, delivered, run⟩ := runs pi
      obtain ⟨k', t', delivered', run'⟩ := runs pi'
      have few : k ≤ 12 := by
        by_contra many
        exact short ⟨⟨p, isPid⟩, (delivered.lt_iff.mp (Nat.not_le.mp many)).2⟩
      have sameMemory := (delivered.eq_iff delivered' (length pi pi')).mpr (by
        intro i less
        rw [inRecord pi i (by omega), inRecord pi' i (by omega), fillPinfo_congr pi' (by omega)])
      rw [run, run', delivered.count_eq delivered' (length pi pi'), sameMemory]

/-- What the stack held where `pi` is shows in user memory as soon as `sys_ps` copies the
second field of a record, which it does not set, and `sys_pinfo` the padding. -/
theorem records_show_no_stack_iff (unaliased : Unaliased s root) (procs : Procs)
    (trapframe : Trapframe) :
    ((∀ pi pi', sysPs procs root trapframe pi s = sysPs procs root trapframe pi' s) ↔
      ¬ (0 < (argint trapframe 1).toInt ∧ (∃ p, (procs.table p).state ≠ .unused) ∧
        ∀ i < 5, s.target root (argaddr trapframe 0 + UInt64.ofNat i) ≠ none)) ∧
    ((∀ pi pi', sysPinfo procs root trapframe pi s = sysPinfo procs root trapframe pi' s) ↔
      ¬ ((∃ p, (procs.table p).pid = argint trapframe 0) ∧
        ∀ i < 13, s.target root (argaddr trapframe 1 + UInt64.ofNat i) ≠ none)) :=
  ⟨sysPs_eq_iff unaliased procs trapframe, sysPinfo_eq_iff unaliased procs trapframe⟩

end Leak

/-- The process table after `userinit`, with the name `"initcode"`. -/
def initOnly : Procs where
  table := fun p =>
    if p = initproc then { Sched.Proc.freed with state := .runnable, pid := 1 }
    else Sched.Proc.freed
  sz := fun p => if p = initproc then 4096 else 0
  name := fun p k => if p = initproc then [105, 110, 105, 116, 99, 111, 100, 101].getD k 0 else 0

/-- The arguments of a call with two. -/
def twoArguments (a0 a1 : UInt64) : Trapframe := ⟨a0, a1, 0, 0, 0, 0⟩

/-- A table with one page of user memory. -/
theorem userPage_unaliased : Unaliased (leafTable 0x20000C17) 0x80000000 :=
  leafTable_unaliased (by decide +kernel)

/-- Behind the page `sys_ps` copies nothing, and `sys_pinfo` neither. -/
theorem records_show_no_stack_fault :
    (∀ pi pi', sysPs initOnly 0x80000000 (twoArguments 4096 1) pi (leafTable 0x20000C17) =
        sysPs initOnly 0x80000000 (twoArguments 4096 1) pi' (leafTable 0x20000C17)) ∧
      ∀ pi pi', sysPinfo initOnly 0x80000000 (twoArguments 1 4096) pi (leafTable 0x20000C17) =
        sysPinfo initOnly 0x80000000 (twoArguments 1 4096) pi' (leafTable 0x20000C17) := by
  have nowhere : (leafTable 0x20000C17).target 0x80000000 (4096 + UInt64.ofNat 0) = none :=
    by decide +kernel
  constructor
  · apply (records_show_no_stack_iff userPage_unaliased initOnly _).1.mpr
    rintro ⟨_, _, good⟩
    exact good 0 (by decide) nowhere
  · apply (records_show_no_stack_iff userPage_unaliased initOnly _).2.mpr
    rintro ⟨_, good⟩
    exact good 0 (by decide) nowhere

/-- The stack shows in two runs that differ in nothing else. -/
theorem records_show_stack :
    (∃ t t', sysPs initOnly 0x80000000 (twoArguments 0 1) (fun _ => 0) (leafTable 0x20000C17) =
        .ok 1 t ∧
      sysPs initOnly 0x80000000 (twoArguments 0 1) (fun _ => 1) (leafTable 0x20000C17) = .ok 1 t' ∧
      (t.mem 0x80003000).byte 4 = 0 ∧ (t'.mem 0x80003000).byte 4 = 1) ∧
    ∃ t t', sysPinfo initOnly 0x80000000 (twoArguments 1 0) (fun _ => 0) (leafTable 0x20000C17) =
        .ok 0 t ∧
      sysPinfo initOnly 0x80000000 (twoArguments 1 0) (fun _ => 1)
        (leafTable 0x20000C17) = .ok 0 t' ∧
      (t.mem 0x80003000).byte 12 = 0 ∧ (t'.mem 0x80003000).byte 12 = 1 := by
  have ps : ∀ byte ∈ [(0 : UInt8), 1],
      wp (sysPs initOnly 0x80000000 (twoArguments 0 1) fun _ => byte) (leafTable 0x20000C17)
        (fun ret t => ret = 1 ∧ (t.mem 0x80003000).byte 4 = byte) fun _ _ => False := by
    decide +kernel
  have pinfo : ∀ byte ∈ [(0 : UInt8), 1],
      wp (sysPinfo initOnly 0x80000000 (twoArguments 1 0) fun _ => byte) (leafTable 0x20000C17)
        (fun ret t => ret = 0 ∧ (t.mem 0x80003000).byte 12 = byte) fun _ _ => False := by
    decide +kernel
  obtain ⟨t, psRun, psByte⟩ := exists_ok_eq (ps 0 (by decide))
  obtain ⟨t', psRun', psByte'⟩ := exists_ok_eq (ps 1 (by decide))
  obtain ⟨u, pinfoRun, pinfoByte⟩ := exists_ok_eq (pinfo 0 (by decide))
  obtain ⟨u', pinfoRun', pinfoByte'⟩ := exists_ok_eq (pinfo 1 (by decide))
  exact ⟨⟨t, t', psRun, psRun', psByte, psByte'⟩, u, u', pinfoRun, pinfoRun', pinfoByte, pinfoByte'⟩

end Xv6.Kernel.Proc
