import Xv6.Kernel.Sched.Preserved

/-!
The checks of `sched`.

Owns: that `yield`, `sleep` and `exit` call `sched` with `p->lock` and no other lock.

Does not own: the locks that code outside `proc.c` holds when it calls these; see
`Call.instr`.
-/

namespace Xv6.Kernel.Sched

open Xv6.Lib Function

variable {me : Option ProcPtr} {v : View} {frame : Frame} {rest : List Frame}

/-- The frame of a call of `sched` belongs to a process, and holds its lock only. -/
theorem locks_of_suspend {next : List Frame} (shaped : Shaped me (frame :: rest))
    (calls : v.code true frame = .suspend next) :
    me ≠ none ∧ locksOf me (frame :: rest) = me.toList.map .proc ∧ frame.state ≠ .running := by
  have acts := code_acts v true frame
  rw [calls] at acts
  obtain ⟨above, below⟩ := shaped
  have called (isRest : rest = [.kernel []]) : me ≠ none ∧ locksOf me rest = [] := by
    subst isRest
    exact ⟨below.1.2, rfl⟩
  cases acts with
  | quiet isQuiet => cases isQuiet
  | yieldSched mine => simp [above.2, Frame.locks, Frame.state]
  | @sleepSched p' caller released mine =>
    cases caller with
    | kernel n => simp [above.1, above.2, Frame.locks, Frame.state]
    | wait addr => simp [called above, Frame.locks, Frame.state]
  | exitSched mine => simp [called above, Frame.locks, Frame.state]

namespace Machine

variable {Cpu : Type} {s s' : Machine Cpu} {c : Cpu}

variable [DecidableEq Cpu]

/-- In every reachable state, a CPU that is about to call `sched` passes its checks: it holds
the lock of its process and no other, and the process is not `RUNNING`. The runs are those in
which other code calls `sleep` with the lock it passes and no other, and `exit`, `wait`,
`fork`, `kill` and `setkilled` with none. -/
theorem sched_checks_hold {steps : List (Machine Cpu × Cpu × Action)} (run : Runs steps s)
    {next : List Frame} (top : s.stack (s.running c) = frame :: rest)
    (calls : (s.view c).code true frame = .suspend next) :
    ∃ p, s.current c = some p ∧ (∀ lock, s.holder lock = some c ↔ lock = .proc p) ∧
      (s.table p).state ≠ .running := by
  have coherent := run.coherent
  have shaped := coherent.shaped (s.running c)
  have holds (lock : Lock) := coherent.holds.iff lock c
  unfold locks at holds
  rw [top] at shaped holds
  obtain ⟨someone, own, changed⟩ := locks_of_suspend shaped calls
  cases coherent.cpu c with
  | scheduler running => exact absurd (congrArg Thread.me running) someone
  | @process p _ _ _ running stack current state =>
    rw [running] at top own holds
    obtain ⟨rfl, -⟩ := List.cons.inj (stack.symm.trans top)
    refine ⟨p, current, fun lock => (holds lock).trans ?_, state ▸ changed⟩
    rw [own]
    exact List.mem_singleton

/-- A timer interrupt makes `initproc` yield. -/
theorem sched_checks_hold_yield :
    ∃ (steps : List (Machine (Fin 1) × Fin 1 × Action)) (s : Machine (Fin 1)), Runs steps s ∧
    s.stack (s.running theCpu) = [.yield .sched, .kernel []] ∧
    ∃ p, s.current theCpu = some p ∧ (∀ lock, s.holder lock = some theCpu ↔ lock = .proc p) ∧
      (s.table p).state ≠ .running := by
  have played : (Run.play Machine.step booted
      (List.replicate 5 (theCpu, .run) ++ [(theCpu, .timer), (theCpu, .run), (theCpu, .run)])).map
      (fun s => (s.stack (s.running theCpu), s.current theCpu)) =
        some ([.yield .sched, .kernel []], some initproc) := by
    decide +kernel
  obtain ⟨s, played, found⟩ := Option.map_eq_some_iff.mp played
  obtain ⟨top, current⟩ := Prod.mk.inj found
  obtain ⟨steps, -, run⟩ := exists_runs played
  have calls : (s.view theCpu).code true (.yield .sched) = .suspend [.yield .release] := by
    change (s.view theCpu).byProcess _ = _
    rw [View.byProcess, show (s.view theCpu).myproc = some initproc from current]
    rfl
  exact ⟨steps, s, run, top, sched_checks_hold run top calls⟩

end Machine

end Xv6.Kernel.Sched
