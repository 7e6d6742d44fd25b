import Xv6.Kernel.Log.Recovery

/-!
Log space: what `begin_op` reserves against what `log_write` accepts.

Owns: the blocks logged since the last commit and by each operation, when
exactly a run reaches the panic of `log_write`, and the reservation that keeps
operations of at most `MAXOPBLOCKS - 1` blocks away from it.

Does not own: crash recovery.
-/

namespace Xv6.Kernel.Log

open Xv6.Lib

/-- The blocks logged since the last commit. -/
def System.logged (s : System) : Finset Nat := (s.current.map OpWrite.block).toFinset

/-- The blocks that one operation has logged. -/
def System.loggedBy (s : System) (op : Nat) : Finset Nat :=
  ((s.current.filter fun w => w.op = op).map OpWrite.block).toFinset

/-- The operation of this step stays within `budget` distinct blocks. -/
def WithinBudget (budget : Nat) (s : System) : Action → Prop
  | .logWrite op b _ => (insert b (s.loggedBy op)).card ≤ budget
  | _ => True

/-- A `log_write` is called with fewer than `LOGSIZE - 1` blocks logged. -/
def RoomLeft (s : System) : Action → Prop
  | .logWrite _ _ _ => s.logged.card < logSize - 1
  | _ => True

/-- The entries count the distinct blocks of the writes. -/
theorem Entries.length_eq {g : Geometry} {s : System} (entries : Entries g s.log.blocks s.current) :
    s.log.n = s.logged.card := by
  have same : s.log.blocks.toFinset = s.logged := by
    ext b
    rw [System.logged, List.mem_toFinset, List.mem_toFinset]
    exact entries.named b
  rw [← same, List.toFinset_card_of_nodup entries.nodup]
  rfl

theorem Inv.running_phase {g : Geometry} {s : System} (inv : Inv g s)
    (which : s.phase = .running) : Running g s := by
  have phase := inv.phase
  rwa [which] at phase

theorem logWrite_tooBig_iff {s : System} (inv : Inv mkfsGeometry s) (live : s.phase.live)
    {op b : Nat} (data : Block) (member : op ∈ s.active) :
    (s.logWrite mkfsGeometry op b data).phase = .panicked .tooBig ↔
      ¬ s.logged.card < logSize - 1 := by
  have which := inv.running_of_active live member
  have count := (inv.running_phase which).entries.length_eq
  have admitted : ¬ s.log.outstanding < 1 := by
    have positive : 0 < s.active.card := Finset.card_pos.mpr ⟨op, member⟩
    rw [inv.counted]
    omega
  have limit : (s.log.n ≥ logSize ∨ s.log.n ≥ mkfsGeometry.size - 1) ↔
      ¬ s.logged.card < logSize - 1 := by
    rw [count]
    simp only [mkfsGeometry, logSize, maxOpBlocks]
    omega
  unfold System.logWrite Log.logWrite
  by_cases full : s.log.n ≥ logSize ∨ s.log.n ≥ mkfsGeometry.size - 1
  · rw [if_pos full]
    exact ⟨fun _ => limit.mp full, fun _ => rfl⟩
  · rw [if_neg full, if_neg admitted]
    constructor
    · intro panicked
      change s.phase = _ at panicked
      rw [which] at panicked
      contradiction
    · exact fun noRoom => absurd (limit.mpr noRoom) full

theorem phase_ne_tooBig_of_step {s s' : System} {action : Action}
    (inv : Inv mkfsGeometry s) (fine : s.phase ≠ .panicked .tooBig) (room : RoomLeft s action)
    (step : Step mkfsGeometry s action s') : s'.phase ≠ .panicked .tooBig := by
  cases step with
  | beginOp live admitted => exact fine
  | logWrite live member home word =>
    rw [Ne, logWrite_tooBig_iff inv live _ member]
    exact not_not.mpr room
  | endOp live member =>
    unfold System.endOp
    cases ended : Log.endOp s.log with
    | error panic =>
      have which : panic = .committing := by
        unfold Log.endOp at ended
        split_ifs at ended
        exact (Except.error.inj ended).symm
      rw [which]
      exact fun same => by cases same
    | ok log =>
      dsimp only
      split_ifs
      · exact fun same => by cases same
      · exact fun same => by cases same
      · exact fine
  | advance =>
    unfold System.advance
    cases which : s.phase with
    | running | panicked _ => exact fine
    | writeLog tail | installTrans tail | recover tail =>
      dsimp only
      split_ifs <;> exact fun same => by cases same
    | committed | readHead | recovered => exact fun same => by cases same
  | crash => exact fun same => by cases same

/-! ### Reservations -/

/-- What an operation may still log with `MAXOPBLOCKS - 1` blocks as its budget. -/
def System.remaining (s : System) (op : Nat) : Nat := maxOpBlocks - 1 - (s.loggedBy op).card

/-- Between commits, what is logged and what the active operations may still log
stay below the limit of `log_write`, and a group without active operations is
empty. -/
structure Reserved (s : System) : Prop where
  within : ∀ op, (s.loggedBy op).card ≤ maxOpBlocks - 1
  space : s.logged.card + ∑ op ∈ s.active, s.remaining op < logSize - 1
  fresh : s.active = ∅ → s.current = []

section Reserved

variable {s t : System}

theorem loggedBy_append (s : System) (w : OpWrite) (op : Nat) (t : System)
    (current : t.current = s.current ++ [w]) :
    t.loggedBy op = if w.op = op then insert w.block (s.loggedBy op) else s.loggedBy op := by
  rw [System.loggedBy, current, List.filter_append]
  by_cases same : w.op = op
  · ext b
    simp [same, System.loggedBy]
  · simp [same, System.loggedBy]

theorem logged_append (s : System) (w : OpWrite) (t : System)
    (current : t.current = s.current ++ [w]) : t.logged = insert w.block s.logged := by
  ext b
  simp [System.logged, current]

theorem loggedBy_subset (s : System) (op : Nat) : s.loggedBy op ⊆ s.logged := by
  intro b member
  simp only [System.loggedBy, System.logged, List.mem_toFinset, List.mem_map, List.mem_filter] at *
  obtain ⟨w, ⟨inCurrent, _⟩, same⟩ := member
  exact ⟨w, inCurrent, same⟩

/-- Nothing is reserved in an empty group. -/
theorem Reserved.empty (active : s.active = ∅) (current : s.current = []) : Reserved s where
  within := by simp [System.loggedBy, current]
  space := by
    simp [System.logged, active, current]
    decide
  fresh := fun _ => current

/-- An admitted operation gets a whole budget. -/
theorem Reserved.begun (reserved : Reserved s) {log : Log} (new : s.nextOp ∉ s.active)
    (admitted : s.logged.card + (s.active.card + 1) * maxOpBlocks ≤ logSize) :
    Reserved (s.begun log) := by
  refine ⟨reserved.within, ?_, fun absent => absurd absent (Finset.insert_ne_empty _ _)⟩
  have each : ∑ op ∈ insert s.nextOp s.active, s.remaining op ≤
      (s.active.card + 1) * (maxOpBlocks - 1) := by
    rw [← Finset.card_insert_of_notMem new, ← smul_eq_mul]
    exact Finset.sum_le_card_nsmul _ _ _ fun op _ => Nat.sub_le _ _
  change s.logged.card + ∑ op ∈ insert s.nextOp s.active, s.remaining op < logSize - 1
  rcases Finset.eq_empty_or_nonempty s.active with absent | present
  · -- the first operation of a group finds it empty
    have nothing : s.logged.card = 0 := by simp [System.logged, reserved.fresh absent]
    rw [absent, Finset.card_empty] at each
    rw [absent]
    simp only [logSize, maxOpBlocks] at *
    omega
  · have positive := Finset.card_pos.mpr present
    simp only [logSize, maxOpBlocks] at *
    omega

/-- A `log_write` within the budget takes at most what was reserved. -/
theorem Reserved.logWrite (reserved : Reserved s) {w : OpWrite} (member : w.op ∈ s.active)
    (budget : (insert w.block (s.loggedBy w.op)).card ≤ maxOpBlocks - 1)
    (active : t.active = s.active) (current : t.current = s.current ++ [w]) : Reserved t := by
  have own : t.loggedBy w.op = insert w.block (s.loggedBy w.op) := by
    rw [loggedBy_append s w w.op t current, if_pos rfl]
  have others : ∑ op ∈ s.active.erase w.op, t.remaining op =
      ∑ op ∈ s.active.erase w.op, s.remaining op := by
    refine Finset.sum_congr rfl fun op inErase => ?_
    rw [System.remaining, System.remaining, loggedBy_append s w op t current,
      if_neg (Finset.ne_of_mem_erase inErase).symm]
  refine ⟨?_, ?_, ?_⟩
  · intro op
    rw [loggedBy_append s w op t current]
    split_ifs with same
    · exact same ▸ budget
    · exact reserved.within op
  · have space := reserved.space
    rw [← Finset.add_sum_erase _ _ member] at space
    rw [active, ← Finset.add_sum_erase _ _ member, others,
      logged_append s w t current, System.remaining, own]
    rw [System.remaining] at space
    have within := reserved.within w.op
    by_cases known : w.block ∈ s.logged
    · have more : (s.loggedBy w.op).card ≤ (insert w.block (s.loggedBy w.op)).card :=
        Finset.card_le_card (Finset.subset_insert _ _)
      rw [Finset.insert_eq_of_mem known]
      omega
    · have new : w.block ∉ s.loggedBy w.op := fun old => known (loggedBy_subset s w.op old)
      rw [Finset.card_insert_of_notMem new] at budget
      rw [Finset.card_insert_of_notMem known, Finset.card_insert_of_notMem new]
      omega
  · intro absent
    rw [active] at absent
    rw [absent] at member
    exact absurd member (Finset.notMem_empty _)

/-- An operation that ends gives back what it did not use. -/
theorem Reserved.ended (reserved : Reserved s) {op : Nat} (active : t.active = s.active.erase op)
    (more : t.active ≠ ∅) (current : t.current = s.current) : Reserved t := by
  have logged : t.logged = s.logged := by rw [System.logged, current, System.logged]
  have loggedBy : ∀ op, t.loggedBy op = s.loggedBy op := by
    intro op
    rw [System.loggedBy, current, System.loggedBy]
  refine ⟨?_, ?_, fun absent => absurd absent more⟩
  · intro op
    rw [loggedBy]
    exact reserved.within op
  · have fewer : ∑ op ∈ s.active.erase op, s.remaining op ≤ ∑ op ∈ s.active, s.remaining op :=
      Finset.sum_le_sum_of_subset (Finset.erase_subset _ _)
    have remaining : ∀ op, t.remaining op = s.remaining op := by
      intro op
      rw [System.remaining, System.remaining, loggedBy]
    rw [logged, active, Finset.sum_congr rfl fun op _ => remaining op]
    exact Nat.lt_of_le_of_lt (Nat.add_le_add_left fewer _) reserved.space

/-- A step within the budget keeps the reservation between commits. -/
theorem Reserved.step {g : Geometry} {action : Action} (inv : Inv g s) (history : History s)
    (reserved : s.phase = .running → Reserved s)
    (budget : WithinBudget (maxOpBlocks - 1) s action) (step : Step g s action t)
    (running : t.phase = .running) : Reserved t := by
  cases step with
  | beginOp live admitted =>
    obtain ⟨_, space, _⟩ := beginOp_some admitted
    rw [(inv.running_phase running).entries.length_eq, inv.counted] at space
    exact (reserved running).begun history.fresh space
  | @logWrite op b data live member home word =>
    have which := inv.running_of_active live member
    cases written : Log.logWrite g s.log b with
    | error panic => simp [System.logWrite, written] at running
    | ok log =>
      have active : (s.logWrite g op b data).active = s.active := by
        simp [System.logWrite, written]
      have current : (s.logWrite g op b data).current = s.current ++ [⟨op, b, data⟩] := by
        simp [System.logWrite, written]
      exact @Reserved.logWrite _ _ (reserved which) ⟨op, b, data⟩ member budget active current
  | @endOp op live member =>
    have which := inv.running_of_active live member
    unfold System.endOp at running ⊢
    cases ended : Log.endOp s.log with
    | error panic => simp [ended] at running
    | ok log =>
      obtain ⟨_, rfl⟩ := endOp_ok ended
      rw [ended] at running
      dsimp only at running ⊢
      by_cases last : decide (s.log.outstanding - 1 = 0) = true
      · rw [if_pos last] at running
        split_ifs at running
      · rw [if_neg last]
        refine (reserved which).ended rfl (fun absent => last ?_) rfl
        change s.active.erase op = ∅ at absent
        rw [decide_eq_true_iff, inv.counted, ← Finset.card_erase_of_mem member, absent,
          Finset.card_empty]
  | advance =>
    have phase := inv.phase
    unfold System.advance at running ⊢
    cases which : s.phase with
    | running => exact reserved which
    | panicked panic => simp [which] at running
    | writeLog tail | installTrans tail | recover tail =>
      rw [which] at running
      dsimp only at running
      split_ifs at running
    | readHead => simp [which] at running
    | committed =>
      rw [which] at phase
      exact Reserved.empty phase.active phase.current
    | recovered =>
      rw [which] at phase
      exact Reserved.empty phase.active rfl
  | crash => cases running

end Reserved

/-! ### Whole runs -/

/-- No state of the run is in `panic("too big a transaction")`. -/
def NeverTooBig (steps : List (System × Action)) (s : System) : Prop :=
  (∀ before ∈ steps, before.1.phase ≠ .panicked .tooBig) ∧ s.phase ≠ .panicked .tooBig

theorem neverTooBig_iff_roomLeft {steps : List (System × Action)} {s : System}
    (run : LogRun mkfsGeometry steps s) :
    NeverTooBig steps s ↔ ∀ before ∈ steps, RoomLeft before.1 before.2 := by
  induction run with
  | start initial =>
    obtain ⟨disk, _, rfl⟩ := initial
    exact ⟨fun _ before member => absurd member List.not_mem_nil,
      fun _ => ⟨fun before member => absurd member List.not_mem_nil, fun same => by cases same⟩⟩
  | @snoc steps s s' action earlier next ih =>
    have inv := (LogRun.inv earlier).1
    constructor
    · rintro ⟨before, last⟩
      have never : NeverTooBig steps s :=
        ⟨fun state member => before state (List.mem_append_left _ member),
          before _ (List.mem_append_right _ (List.mem_singleton_self _))⟩
      intro state member
      rcases List.mem_append.mp member with old | new
      · exact ih.mp never state old
      · rw [List.mem_singleton.mp new]
        cases next with
        | logWrite live isActive home word =>
          rw [Ne, logWrite_tooBig_iff inv live _ isActive, not_not] at last
          exact last
        | beginOp | endOp | advance | crash => trivial
    · intro room
      obtain ⟨before, last⟩ := ih.mpr fun state member =>
        room state (List.mem_append_left _ member)
      refine ⟨?_, phase_ne_tooBig_of_step inv last
        (room _ (List.mem_append_right _ (List.mem_singleton_self _))) next⟩
      intro state member
      rcases List.mem_append.mp member with old | new
      · exact before state old
      · rw [List.mem_singleton.mp new]
        exact last

theorem roomLeft_of_withinBudget {steps : List (System × Action)} {s : System}
    (run : LogRun mkfsGeometry steps s)
    (budget : ∀ before ∈ steps, WithinBudget (maxOpBlocks - 1) before.1 before.2) :
    (s.phase = .running → Reserved s) ∧ ∀ before ∈ steps, RoomLeft before.1 before.2 := by
  induction run with
  | start initial =>
    obtain ⟨disk, _, rfl⟩ := initial
    refine ⟨fun running => ?_, fun before member => absurd member List.not_mem_nil⟩
    cases running
  | @snoc steps s s' action earlier next ih =>
    obtain ⟨inv, history⟩ := LogRun.inv earlier
    obtain ⟨reserved, room⟩ := ih fun state member =>
      budget state (List.mem_append_left _ member)
    have small := budget _ (List.mem_append_right _ (List.mem_singleton_self (s, action)))
    refine ⟨Reserved.step inv history reserved small next, ?_⟩
    intro state member
    rcases List.mem_append.mp member with old | new
    · exact room state old
    · rw [List.mem_singleton.mp new]
      cases next with
      | logWrite live isActive home word =>
        have space := (reserved (inv.running_of_active live isActive)).space
        exact Nat.lt_of_le_of_lt (Nat.le_add_right _ _) space
      | beginOp | endOp | advance | crash => trivial

/-- A run never reaches the panic exactly when every `log_write` in it finds
fewer than `LOGSIZE - 1` blocks logged, which holds of every run whose
operations each log at most `MAXOPBLOCKS - 1` distinct blocks. -/
theorem neverTooBig_characterised {steps : List (System × Action)} {s : System}
    (run : LogRun mkfsGeometry steps s) :
    (NeverTooBig steps s ↔ ∀ before ∈ steps, RoomLeft before.1 before.2) ∧
    ((∀ before ∈ steps, WithinBudget (maxOpBlocks - 1) before.1 before.2) →
      NeverTooBig steps s) := by
  refine ⟨neverTooBig_iff_roomLeft run, fun budget => ?_⟩
  exact (neverTooBig_iff_roomLeft run).mpr (roomLeft_of_withinBudget run budget).2

/-- Three admitted operations and the first `count` writes of theirs, ten to each,
all to different blocks. -/
def threeOps : Nat → System
  | 0 => ((((System.boot fun _ => default).advance mkfsGeometry).begun ⟨1, false, []⟩).begun
      ⟨2, false, []⟩).begun ⟨3, false, []⟩
  | count + 1 => (threeOps count).logWrite mkfsGeometry (count / 10) (100 + count) default

theorem threeOps_run {count : Nat} (small : count ≤ 30) :
    ∃ steps, LogRun mkfsGeometry steps (threeOps count) ∧
      (∀ before ∈ steps, WithinBudget maxOpBlocks before.1 before.2) ∧
      (count ≤ 29 → ∀ before ∈ steps, RoomLeft before.1 before.2) := by
  induction count with
  | zero =>
    refine ⟨_, .snoc (.snoc (.snoc (.snoc (.start ⟨fun _ => default, by decide, rfl⟩) .advance)
      (.beginOp rfl rfl)) (.beginOp rfl rfl)) (.beginOp rfl rfl), ?_⟩
    simp [WithinBudget, RoomLeft]
  | succ count ih =>
    obtain ⟨steps, run, budget, room⟩ := ih (by omega)
    have ready : ∀ i < 30, (threeOps i).phase.live ∧ i / 10 ∈ (threeOps i).active ∧
        (insert (100 + i) ((threeOps i).loggedBy (i / 10))).card ≤ maxOpBlocks ∧
        (threeOps i).logged.card = i := by
      decide +kernel
    obtain ⟨live, member, own, logged⟩ := ready count (by omega)
    have home : mkfsGeometry.Home (100 + count) := by
      simp only [Geometry.Home, Geometry.InLog, mkfsGeometry, logSize, maxOpBlocks]
      omega
    refine ⟨_, .snoc run (.logWrite live member home (by omega)), ?_, ?_⟩
    · intro state inSteps
      rcases List.mem_append.mp inSteps with old | new
      · exact budget state old
      · rw [List.mem_singleton.mp new]
        exact own
    · intro below state inSteps
      rcases List.mem_append.mp inSteps with old | new
      · exact room (by omega) state old
      · rw [List.mem_singleton.mp new]
        exact logged.trans_lt (Nat.lt_of_succ_le below)

/-- The last of their thirty reserved blocks is refused. -/
theorem threeOps_tooBig :
    ∃ steps s, LogRun mkfsGeometry steps s ∧
      (∀ before ∈ steps, WithinBudget maxOpBlocks before.1 before.2) ∧
      s.phase = .panicked .tooBig := by
  obtain ⟨steps, run, budget, _⟩ := threeOps_run (Nat.le_refl 30)
  exact ⟨steps, threeOps 30, run, budget, by decide +kernel⟩

/-- Their first twenty-nine writes do not panic. -/
theorem neverTooBig_characterised_threeOps :
    ∃ steps, LogRun mkfsGeometry steps (threeOps 29) ∧ (threeOps 29).log.n = 29 ∧
      NeverTooBig steps (threeOps 29) := by
  obtain ⟨steps, run, _, room⟩ := threeOps_run (show 29 ≤ 30 by decide)
  refine ⟨steps, run, by decide +kernel, ?_⟩
  exact (neverTooBig_characterised run).1.mpr (room (Nat.le_refl 29))

end Xv6.Kernel.Log
