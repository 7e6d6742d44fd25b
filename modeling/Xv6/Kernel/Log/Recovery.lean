import Xv6.Kernel.Log.Invariant

/-!
Crash atomicity of the log.

Owns: that an operation's writes stay in one group, what every completed recovery
leaves on the disk, and that `recoverFromLog` changes nothing of it.

Does not own: how much each operation may log.
-/

namespace Xv6.Kernel.Log

open Xv6.Lib

/-! ### Operations and groups -/

/-- Two groups without a common operation. -/
def Apart (first second : List OpWrite) : Prop :=
  ∀ w ∈ first, ∀ w' ∈ second, w.op ≠ w'.op

/-- Operation numbers are handed out in order, and an operation that wrote in an
earlier group has ended. -/
structure History (s : System) : Prop where
  activeOld : ∀ op ∈ s.active, op < s.nextOp
  currentOld : ∀ w ∈ s.current, w.op < s.nextOp
  groupsOld : ∀ group ∈ s.groups, ∀ w ∈ group, w.op < s.nextOp
  ended : ∀ group ∈ s.groups, ∀ w ∈ group, w.op ∉ s.active
  apart : (s.groups ++ [s.current]).Pairwise Apart

namespace History

variable {g : Geometry} {s t : System}

theorem fresh (history : History s) : s.nextOp ∉ s.active :=
  fun member => Nat.lt_irrefl _ (history.activeOld _ member)

/-- Steps of a commit or a recovery do not touch the history. -/
theorem congr (history : History s) (active : t.active = s.active) (nextOp : t.nextOp = s.nextOp)
    (groups : t.groups = s.groups) (current : t.current = s.current) : History t := by
  refine ⟨?_, ?_, ?_, ?_, ?_⟩
  · rw [active, nextOp]
    exact history.activeOld
  · rw [current, nextOp]
    exact history.currentOld
  · rw [groups, nextOp]
    exact history.groupsOld
  · rw [groups, active]
    exact history.ended
  · rw [groups, current]
    exact history.apart

/-- A boot or a crash forgets the current writes. -/
theorem restart (history : History s) (nextOp : t.nextOp = s.nextOp) (active : t.active = ∅)
    (groups : t.groups <+: s.groups) (current : t.current = []) : History t := by
  have kept : ∀ group ∈ t.groups, group ∈ s.groups := fun group member => groups.subset member
  refine ⟨?_, ?_, ?_, ?_, ?_⟩
  · simp [active]
  · simp [current]
  · intro group member
    rw [nextOp]
    exact history.groupsOld group (kept group member)
  · simp [active]
  · rw [current]
    refine List.pairwise_append.mpr ⟨?_, List.pairwise_singleton _ _, ?_⟩
    · exact (List.pairwise_append.mp history.apart).1.sublist groups.sublist
    · intro group _ last isLast w _ w' member
      rw [List.mem_singleton.mp isLast] at member
      exact absurd member List.not_mem_nil

theorem begun (history : History s) (log : Log) : History (s.begun log) := by
  refine ⟨?_, ?_, ?_, ?_, history.apart⟩
  · intro op member
    rcases Finset.mem_insert.mp member with new | old
    · exact Nat.lt_succ_of_le (Nat.le_of_eq new)
    · exact Nat.lt_succ_of_lt (history.activeOld op old)
  · exact fun w member => Nat.lt_succ_of_lt (history.currentOld w member)
  · exact fun group inGroups w member =>
      Nat.lt_succ_of_lt (history.groupsOld group inGroups w member)
  · intro group inGroups w member active
    rcases Finset.mem_insert.mp active with new | old
    · exact absurd new (Nat.ne_of_lt (history.groupsOld group inGroups w member))
    · exact history.ended group inGroups w member old

theorem logWrite (history : History s) {op b : Nat} (data : Block) (member : op ∈ s.active) :
    History (s.logWrite g op b data) := by
  unfold System.logWrite
  cases Log.logWrite g s.log b with
  | error panic => exact history.congr rfl rfl rfl rfl
  | ok log =>
    refine ⟨history.activeOld, ?_, history.groupsOld, history.ended, ?_⟩
    · intro w inCurrent
      rcases List.mem_append.mp inCurrent with old | new
      · exact history.currentOld w old
      · rw [List.mem_singleton.mp new]
        exact history.activeOld op member
    · obtain ⟨groups, single, apart⟩ := List.pairwise_append.mp history.apart
      refine List.pairwise_append.mpr ⟨groups, List.pairwise_singleton _ _, ?_⟩
      intro group inGroups last isLast w inGroup w' inLast
      rw [List.mem_singleton.mp isLast] at inLast
      rcases List.mem_append.mp inLast with old | new
      · exact apart group inGroups s.current (List.mem_singleton_self _) w inGroup w' old
      · rw [List.mem_singleton.mp new]
        exact fun same => history.ended group inGroups w inGroup (same ▸ member)

theorem endOp (history : History s) (counted : s.log.outstanding = s.active.card) {op : Nat}
    (member : op ∈ s.active) : History (s.endOp op) := by
  unfold System.endOp
  cases ended : Log.endOp s.log with
  | error panic => exact history.congr rfl rfl rfl rfl
  | ok log =>
    obtain ⟨idle, rfl⟩ := endOp_ok ended
    have fewer : ∀ other, other ∈ s.active.erase op → other ∈ s.active :=
      fun other inErase => Finset.mem_of_mem_erase inErase
    dsimp only
    by_cases last : decide (s.log.outstanding - 1 = 0) = true
    · rw [if_pos last]
      -- the group is closed only when no other operation is active
      have absent : s.active.erase op = ∅ := by
        rw [decide_eq_true_iff, counted, ← Finset.card_erase_of_mem member,
          Finset.card_eq_zero] at last
        exact last
      refine ⟨?_, by simp, ?_, ?_, ?_⟩
      · exact fun other inErase => history.activeOld other (fewer other inErase)
      · intro group inGroups w inGroup
        rcases List.mem_append.mp inGroups with old | new
        · exact history.groupsOld group old w inGroup
        · rw [List.mem_singleton.mp new] at inGroup
          exact history.currentOld w inGroup
      · intro group _ w _
        change w.op ∉ s.active.erase op
        rw [absent]
        exact Finset.notMem_empty _
      · refine List.pairwise_append.mpr ⟨history.apart, List.pairwise_singleton _ _, ?_⟩
        intro group _ empty isEmpty w _ w' inEmpty
        rw [List.mem_singleton.mp isEmpty] at inEmpty
        exact absurd inEmpty List.not_mem_nil
    · rw [if_neg last]
      refine ⟨?_, history.currentOld, history.groupsOld, ?_, history.apart⟩
      · exact fun other inErase => history.activeOld other (fewer other inErase)
      · exact fun group inGroups w inGroup active =>
          history.ended group inGroups w inGroup (fewer _ active)

theorem advance (history : History s) (inv : Inv g s) : History (s.advance g) := by
  have phase := inv.phase
  unfold System.advance
  cases which : s.phase with
  | running | panicked _ => exact history
  | writeLog tail | installTrans tail | recover tail =>
    dsimp only
    split_ifs <;> exact history.congr rfl rfl rfl rfl
  | committed | readHead => exact history.congr rfl rfl rfl rfl
  | recovered =>
    rw [which] at phase
    exact history.restart rfl phase.active List.nil_prefix rfl

theorem crash (history : History s) : History s.crash :=
  history.restart rfl rfl (List.prefix_refl _) rfl

theorem step (history : History s) (inv : Inv g s) {action : Action} (step : Step g s action t) :
    History t := by
  cases step with
  | beginOp live admitted => exact history.begun _
  | logWrite live member home word => exact history.logWrite _ member
  | endOp live member => exact history.endOp inv.counted member
  | advance => exact history.advance inv
  | crash => exact history.crash

theorem boot (disk : Disk) : History (System.boot disk) := by
  refine ⟨?_, ?_, ?_, ?_, ?_⟩ <;> simp [System.boot]

end History

/-- The invariants hold at the end of every run. -/
theorem LogRun.inv {g : Geometry} {steps : List (System × Action)} {s : System}
    (run : LogRun g steps s) : Inv g s ∧ History s := by
  refine run.invariant (fun s => Inv g s ∧ History s) ?_ ?_
  · rintro s ⟨disk, erased, rfl⟩
    exact ⟨Inv.boot erased, History.boot disk⟩
  · rintro s action s' ⟨inv, history⟩ step
    exact ⟨inv.step history.fresh step, history.step inv step⟩

/-! ### Recovery as a whole -/

theorem recoverFromLog_of_erased {g : Geometry} {disk : Disk} (erased : Erased (disk g.start)) :
    recoverFromLog g disk = disk := by
  have nothing : readHead (disk g.start) = [] := readHead_of_erased erased
  rw [recoverFromLog, nothing, installAll, writeHead_of_erased erased, Function.update_eq_self]

/-- Whenever recovery completes, after any run with any crashes, the home blocks
are those of some prefix of the groups, which includes every group whose
`commit()` returned; no operation has writes in two groups; and a further
recovery leaves the whole disk as it is. -/
theorem recovered_prefix_of_groups {g : Geometry} {steps : List (System × Action)} {s : System}
    (run : LogRun g steps s) (recovered : s.phase = .recovered) :
    (∃ k, s.returned ≤ k ∧ k ≤ s.groups.length ∧
      ∀ b, g.Home b →
        s.disk b = applyGroups s.base ((s.groups.take k).map (List.map OpWrite.write)) b) ∧
    s.groups.Pairwise (fun first second => ∀ w ∈ first, ∀ w' ∈ second, w.op ≠ w'.op) ∧
    recoverFromLog g s.disk = s.disk := by
  obtain ⟨inv, history⟩ := run.inv
  have phase := inv.phase
  rw [recovered] at phase
  refine ⟨phase.restored, ?_, recoverFromLog_of_erased phase.erased⟩
  exact (List.pairwise_append.mp history.apart).1

/-- One operation logs block 100, its `end_op` writes the log block and the
header, and power is lost before the first installation. -/
def interrupted : System :=
  ((((((System.boot fun _ => default).advance mkfsGeometry).begun ⟨1, false, []⟩).logWrite
    mkfsGeometry 0 100 (Buffer.fill 7)).endOp 0).advance mkfsGeometry).advance mkfsGeometry

/-- Recovery after this crash installs the group although `commit()` did not
return. -/
theorem recovered_prefix_of_groups_interrupted :
    ∃ steps s, LogRun mkfsGeometry steps s ∧ s.phase = .recovered ∧ s.returned = 0 ∧
      s.groups.length = 1 ∧ s.disk 100 = Buffer.fill 7 ∧
      recoverFromLog mkfsGeometry s.disk = s.disk := by
  have booted : LogRun mkfsGeometry [] (System.boot fun _ => default) :=
    .start ⟨_, by decide, rfl⟩
  obtain ⟨steps, committed⟩ : ∃ steps, LogRun mkfsGeometry steps interrupted :=
    ⟨_, .snoc (.snoc (.snoc (.snoc (.snoc (.snoc booted .advance) (.beginOp rfl rfl))
      (.logWrite rfl (by decide) (by decide) (by decide))) (.endOp rfl (by decide))) .advance)
      .advance⟩
  have run := ((((committed.snoc .crash).snoc .advance).snoc .advance).snoc .advance)
  have phase : ((((interrupted.crash).advance mkfsGeometry).advance mkfsGeometry).advance
    mkfsGeometry).phase = .recovered := by decide +kernel
  obtain ⟨_, _, again⟩ := recovered_prefix_of_groups run phase
  exact ⟨_, _, run, phase, rfl, rfl, rfl, again⟩

end Xv6.Kernel.Log
