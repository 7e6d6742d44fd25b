import Xv6.Kernel.Proc.Records
import Xv6.Kernel.Sched.FreeSlots

/-!
Which process a pid names.

Owns: the process tables that can be reached, that `sys_pinfo` and `sys_getmemusage`
report on the same live process, and for which pid they do not.

Does not own: the bytes of a record.
-/

namespace Xv6.Kernel.Proc

open Xv6.Lib Xv6.Kernel.Vm Xv6.Kernel.Sched

/-! ### Reachable tables -/

/-- A free slot has no pid. -/
def Numbered (table : Table) : Prop := ∀ p, (table p).state = .unused → (table p).pid = 0

theorem Numbered.write {v : View} (numbered : Numbered v.table) {frame : Frame} {next : List Frame}
    {q : ProcPtr} {proc : Sched.Proc} (acts : Acts v frame (.write q proc next)) :
    proc.state = .unused → proc.pid = 0 := by
  intro free
  cases acts with
  | quiet isQuiet => cases isQuiet
  | setkilled mine | sleepTidy mine | forkParent mine | reparent mine child => exact numbered q free
  | wakeup =>
    unfold Sched.Proc.woken at free ⊢
    split_ifs at free ⊢
    exact numbered q free
  | kill same =>
    change (if (v.table q).state = .sleeping then .runnable else (v.table q).state) =
      .unused at free
    split_ifs at free
    exact numbered q free
  | forkFree => rfl
  | reap dead => rfl
  | _ => cases free

variable {Cpu : Type} [DecidableEq Cpu]

theorem numbered_of_runs {steps : List (Machine Cpu × Cpu × Action)} {s : Machine Cpu}
    (run : Machine.Runs steps s) : Numbered s.table := by
  refine Run.invariant (fun s : Machine Cpu => Numbered s.table) ?_ ?_ run
  · rintro _ rfl p free
    change (if p = initproc then _ else _ : Sched.Proc).state = _ at free
    change (if p = initproc then _ else _ : Sched.Proc).pid = 0
    split_ifs at free ⊢
    rfl
  · intro s label s' numbered stepped
    obtain ⟨frame, rest, took⟩ := Machine.exists_took stepped
    have acts := instr_acts (s.view label.1) frame rest label.2
    rw [took.table]
    generalize (s.view label.1).instr frame rest label.2 = instr at *
    intro p free
    cases instr with
    | write q proc next =>
      by_cases same : p = q
      · rw [same, Instr.table_write_self] at free ⊢
        exact Numbered.write numbered acts free
      · rw [Instr.table_write_of_ne same] at free ⊢
        exact numbered p free
    | _ => exact numbered p free

/-- Some machine has this table, and the user memory of each process ends below `MAXVA`. -/
structure Reachable (procs : Procs) : Prop where
  table : ∃ (Cpu : Type) (_ : DecidableEq Cpu) (steps : List (Machine Cpu × Cpu × Action))
    (s : Machine Cpu), Machine.Runs steps s ∧ s.table = procs.table
  sizes : ∀ p, procs.sz p ≤ maxVa

theorem Reachable.numbered {procs : Procs} (reachable : Reachable procs) :
    Numbered procs.table := by
  obtain ⟨_, _, _, s, run, same⟩ := reachable.table
  rw [← same]
  exact numbered_of_runs run

theorem Reachable.size_ne {procs : Procs} (reachable : Reachable procs) (p : ProcPtr) :
    procs.sz p ≠ -1 := by
  intro all
  have small := reachable.sizes p
  rw [all] at small
  exact absurd small (by decide)

/-! ### The first slot with a pid -/

section Find

variable {procs : Procs} {pid : Int32} {p : ProcPtr}

theorem findPid_eq_none : procs.findPid pid = none ↔ ∀ p, (procs.table p).pid ≠ pid := by
  unfold Procs.findPid
  simp [mem_slots]

theorem first_of_findPid (found : procs.findPid pid = some p) :
    (procs.table p).pid = pid ∧ ∀ q < p, (procs.table q).pid ≠ pid := by
  obtain ⟨isPid, before, after, split, others⟩ := List.find?_eq_some_iff_append.mp found
  refine ⟨by simpa using isPid, ?_⟩
  intro q less
  have sorted : slots.Pairwise (· < ·) := List.pairwise_lt_finRange nProc
  have listed := mem_slots q
  rw [split] at sorted listed
  rcases List.mem_append.mp listed with early | later
  · simpa using others q early
  · rcases List.mem_cons.mp later with rfl | behind
    · exact absurd less (lt_irrefl _)
    · have ordered := (List.pairwise_cons.mp (List.pairwise_append.mp sorted).2.1).1 q behind
      exact absurd less (lt_asymm ordered)

end Find

/-! ### Both calls -/

/-- A process that is not free has this pid. -/
def Live (procs : Procs) (pid : Int32) : Prop :=
  ∃ p, (procs.table p).state ≠ .unused ∧ (procs.table p).pid = pid

/-- Both calls succeed if and only if the pid is that of a live process, and then they
report on one such process. -/
def Agree (procs : Procs) (s : Phys) (root : UInt64) (trapframe : Trapframe) (pi : Mem) : Prop :=
  wp (sysPinfo procs root trapframe pi) s
    (fun ret t =>
      (ret = 0 ↔ Live procs (argint trapframe 0)) ∧
      (sysGetmemusage procs trapframe ≠ -1 ↔ Live procs (argint trapframe 0)) ∧
      (Live procs (argint trapframe 0) → ∃ p, (procs.table p).state ≠ .unused ∧
        (procs.table p).pid = argint trapframe 0 ∧ sysGetmemusage procs trapframe = procs.sz p ∧
        CopiedOut s root (argaddr trapframe 1) ((procs.fillPinfo p pi).read 0 sizeofProcinfo)
          sizeofProcinfo t))
    fun _ _ => False

section Agree

variable {procs : Procs} {s : Phys} {root : UInt64} {trapframe : Trapframe} {p : ProcPtr}

theorem fillPinfo_state (pi : Mem) :
    procs.fillPinfo p pi 8 = (Mem.bytes32 (stateCode (procs.table p).state)).getD 0 0 := by
  unfold Procs.fillPinfo
  rw [setName_below (by decide), setSz_below (by decide), setState,
    Mem.copy_inside _ (Nat.le_refl 8) (by simp)]

theorem stateByte_eq_zero {state : ProcState} :
    (Mem.bytes32 (stateCode state)).getD 0 0 = 0 ↔ state = .unused := by
  cases state <;> decide

/-- No pid but 0 is that of a free slot, and 0 is that of every one. -/
theorem introspection_agrees_iff (reachable : Reachable procs) (unaliased : Unaliased s root)
    (valid : ∀ i < sizeofProcinfo, s.target root (argaddr trapframe 1 + UInt64.ofNat i) ≠ none)
    (pi : Mem) :
    Agree procs s root trapframe pi ↔
      (argint trapframe 0 = 0 → ∀ p, (procs.table p).state = .unused →
        ∃ q < p, (procs.table q).state ≠ .unused ∧ (procs.table q).pid = 0) := by
  have numbered := reachable.numbered
  unfold Agree
  cases found : procs.findPid (argint trapframe 0) with
  | none =>
    have others := findPid_eq_none.mp found
    have dead : ¬ Live procs (argint trapframe 0) := by
      rintro ⟨p, _, isPid⟩
      exact others p isPid
    have nothing : sysGetmemusage procs trapframe = -1 := by
      unfold sysGetmemusage
      rw [found]
    rw [wp_ok (sysPinfo_none found pi), nothing]
    have failed : (-1 : UInt64) ≠ 0 := by decide
    simp only [dead, failed, not_true, iff_self, ne_eq, false_imp_iff, true_and, true_iff]
    intro zero p free
    exact absurd ((numbered p free).trans zero.symm) (others p)
  | some p =>
    obtain ⟨isPid, first⟩ := first_of_findPid found
    obtain ⟨k, t, delivered, run⟩ := sysPinfo_some unaliased found pi
    have size : sysGetmemusage procs trapframe = procs.sz p := by
      unfold sysGetmemusage
      rw [found]
    have all : k = sizeofProcinfo := by
      by_contra short
      have small := delivered.small
      rw [Mem.length_read] at small
      refine valid k (by omega) (delivered.bad ?_)
      rw [Mem.length_read]
      omega
    subst all
    rw [wp_ok run, if_pos rfl, size]
    have sized := reachable.size_ne p
    by_cases free : (procs.table p).state = .unused
    · have zero : argint trapframe 0 = 0 := isPid.symm.trans (numbered p free)
      constructor
      · rintro ⟨succeeded, _, describes⟩
        obtain ⟨q, used, _, _, copied⟩ := describes (succeeded.mp rfl)
        -- the record says that the process is free
        have bytes := (delivered.copied.eq_iff delivered.good copied).mp rfl 8 (by decide)
        rw [Mem.getD_read _ _ (by decide), Mem.getD_read _ _ (by decide), Nat.zero_add,
          fillPinfo_state, fillPinfo_state, free] at bytes
        exact absurd (stateByte_eq_zero.mp bytes.symm) used
      · intro covered
        obtain ⟨q, less, _, same⟩ := covered zero p free
        exact absurd (same.trans zero.symm) (first q less)
    · have live : Live procs (argint trapframe 0) := ⟨p, free, isPid⟩
      refine iff_of_true ⟨?_, ?_, ?_⟩ ?_
      · exact iff_of_true rfl live
      · exact iff_of_true sized live
      · exact fun _ => ⟨p, free, isPid, rfl, delivered.copied⟩
      · intro zero q unused
        have samePid : (procs.table q).pid = argint trapframe 0 :=
          (numbered q unused).trans zero.symm
        have different : p ≠ q := by
          rintro rfl
          exact free unused
        have notLess : ¬ q < p := fun less => first q less samePid
        exact ⟨p, lt_of_le_of_ne (not_lt.mp notLess) different, free, isPid.trans zero⟩

end Agree

theorem initOnly_reachable : Reachable initOnly where
  table := ⟨Fin 1, inferInstance, [], Machine.booted, .start rfl, rfl⟩
  sizes := by
    intro p
    change (if p = initproc then 4096 else 0 : UInt64) ≤ maxVa
    split_ifs <;> decide

theorem userPage_valid : ∀ i < sizeofProcinfo,
    (leafTable 0x20000C17).target 0x80000000 (0 + UInt64.ofNat i) ≠ none := by
  decide +kernel

theorem introspection_agrees_one :
    Agree initOnly (leafTable 0x20000C17) 0x80000000 (twoArguments 1 0) fun _ => 0 := by
  apply (@introspection_agrees_iff initOnly _ _ (twoArguments 1 0) initOnly_reachable
    userPage_unaliased userPage_valid _).mpr
  intro zero
  exact absurd zero (by decide)

/-- No process has pid 0, and both calls find one: a free slot. -/
theorem introspection_finds_free :
    Reachable initOnly ∧ ¬ Live initOnly 0 ∧ sysGetmemusage initOnly (twoArguments 0 0) = 0 ∧
      ∃ t, sysPinfo initOnly 0x80000000 (twoArguments 0 0) (fun _ => 0) (leafTable 0x20000C17) =
        .ok 0 t := by
  refine ⟨initOnly_reachable, ?_, by decide +kernel, ?_⟩
  · rintro ⟨p, used, isPid⟩
    change (if p = initproc then _ else _ : Sched.Proc).state ≠ _ at used
    change (if p = initproc then _ else _ : Sched.Proc).pid = 0 at isPid
    split_ifs at used isPid
    · exact absurd isPid (by decide)
    · exact used rfl
  · have known : wp (sysPinfo initOnly 0x80000000 (twoArguments 0 0) fun _ => 0)
        (leafTable 0x20000C17) (fun ret _ => ret = 0) fun _ _ => False := by decide +kernel
    obtain ⟨_, t, run, rfl⟩ := exists_ok_of_wp known
    exact ⟨t, run⟩

end Xv6.Kernel.Proc
