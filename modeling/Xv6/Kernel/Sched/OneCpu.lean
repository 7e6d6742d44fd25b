import Xv6.Kernel.Sched.Preserved

/-!
A process runs on at most one CPU.

Owns: the changes of `p->state` over whole runs, and the history of a switch: the CPU found
the process `RUNNABLE` under its lock, made it `RUNNING` and kept the lock up to `swtch`.

Does not own: sleeping and waking.
-/

namespace Xv6.Kernel.Sched

open Xv6.Lib Function

variable {Cpu : Type}

namespace Machine

variable {s s' : Machine Cpu} {c c' : Cpu} {p q : ProcPtr} {frame : Frame} {rest : List Frame}
  {action : Action} {steps : List (Machine Cpu × Cpu × Action)}

/-- The scheduler of `c` is about to switch to `p`. -/
def Picked (s : Machine Cpu) (c : Cpu) (p : ProcPtr) : Prop :=
  s.running c = .sched c ∧ ∃ frame rest, s.stack (.sched c) = frame :: rest ∧ frame.picked = some p

theorem Coherent.of_picked (coherent : s.Coherent) (picked : s.Picked c p) :
    (s.table p).state = .running ∧ s.holder (.proc p) = some c := by
  obtain ⟨home, frame, rest, stack, isPicked⟩ := picked
  have top : s.stack (s.running c) = frame :: rest := by rw [home, stack]
  refine ⟨(coherent.picked_top top home isPicked).1, coherent.holder_top top ?_⟩
  rw [Frame.locks_of_picked isPicked]
  exact List.mem_singleton_self _

variable [DecidableEq Cpu]

/-- Every change of a state is one of those listed. -/
theorem Coherent.edge (coherent : s.Coherent) (stepped : s.step (c, action) = some s')
    (p : ProcPtr) :
    (s'.table p).state = (s.table p).state ∨ Edge (s.table p).state (s'.table p).state := by
  obtain ⟨frame, rest, took⟩ := exists_took stepped
  have acts := instr_acts (s.view c) frame rest action
  rw [took.table]
  generalize (s.view c).instr frame rest action = instr at *
  cases instr with
  | write q proc next =>
    by_cases same : p = q
    · subst same
      rw [Instr.table_write_self]
      obtain ⟨-, top, lower, rfl, -, runs, turn⟩ := coherent.turn took.top acts
      cases turn with
      | same state => exact .inl state
      | own _ away _ _ edge =>
        rw [coherent.state_of_running away took.top, runs]
        exact .inr edge
      | other _ _ edge => exact .inr edge
    · rw [Instr.table_write_of_ne same]
      exact .inl rfl
  | _ => exact .inl rfl

theorem Coherent.picked_step (coherent : s.Coherent) (stepped : s.step (c', action) = some s')
    (picked : s'.Picked c p) :
    s.Picked c p ∨ (c' = c ∧ (s.table p).state = .runnable ∧ s.holder (.proc p) = some c) := by
  obtain ⟨frame, rest, took⟩ := exists_took stepped
  obtain ⟨home', top, lower, stack, isPicked⟩ := picked
  by_cases same : s.running c' = .sched c
  · -- the scheduler itself made the step: what is on top now followed the frame that was
    obtain rfl : c' = c := by
      by_contra other
      exact coherent.sched_ne (Ne.symm other) same.symm
    have before := coherent.shaped (s.running c')
    rw [took.top] at before
    have settles := instr_settles (coherent.mine took.top) before.1 action
    have self := took.stack_self fun np _ equal => by rw [same] at equal; cases equal
    rw [same, stack] at self
    have acts := instr_acts (s.view c') frame rest action
    generalize (s.view c').instr frame rest action = instr at *
    cases acts with
    | quiet isQuiet =>
      obtain ⟨top', lower', equal, settled⟩ := settles isQuiet (by rintro rfl; cases took.executes)
      rw [← self] at equal
      rw [(List.cons.inj equal).1, settled.picked] at isPicked
      cases isPicked
    | check ready =>
      rw [(List.cons.inj self).1] at isPicked
      cases isPicked
      exact .inr ⟨rfl, ready, coherent.holder_top took.top (List.mem_singleton_self _)⟩
    | assign =>
      rw [(List.cons.inj self).1] at isPicked
      cases isPicked
      have here := took.top
      rw [same] at here
      exact .inl ⟨same, _, _, here, rfl⟩
    | _ =>
      rw [(List.cons.inj self).1] at isPicked
      cases isPicked
  · -- the stack of the scheduler is as it was
    have unchanged := took.stack_of_ne (Ne.symm same) fun _ _ => nofun
    rw [unchanged] at stack
    cases coherent.cpu c with
    | scheduler home => exact .inl ⟨home, top, lower, stack, isPicked⟩
    | process _ _ _ _ back =>
      rw [back] at stack
      rw [← (List.cons.inj stack).1] at isPicked
      cases isPicked

/-- Before a switch to `p`, the CPU found `p` to be `RUNNABLE` under its lock, and since then
it has kept the lock, with `p` in state `RUNNING`. -/
theorem Runs.picked (run : Runs steps s) (picked : s.Picked c p) :
    ∃ earlier before later, steps = earlier ++ before :: later ∧ before.2.1 = c ∧
      (before.1.table p).state = .runnable ∧ before.1.holder (.proc p) = some c ∧
      ∀ between ∈ later, (between.1.table p).state = .running ∧
        between.1.holder (.proc p) = some c := by
  induction run with
  | start initial =>
    subst initial
    obtain ⟨-, frame, rest, stack, isPicked⟩ := picked
    cases stack
    cases isPicked
  | @snoc steps s s' label run stepped ih =>
    obtain old | ⟨rfl, ready, held⟩ := (Runs.coherent run).picked_step stepped picked
    · obtain ⟨earlier, before, later, rfl, mine, ready, held, kept⟩ := ih old
      refine ⟨earlier, before, later ++ [(s, label)], by simp, mine, ready, held, ?_⟩
      intro between member
      obtain member | last := List.mem_append.mp member
      · exact kept between member
      · rw [List.mem_singleton.mp last]
        exact (Runs.coherent run).of_picked old
    · exact ⟨steps, (s, label), [], rfl, rfl, ready, held, by simp⟩

theorem Coherent.picked_of_switch (coherent : s.Coherent) (stepped : s.step (c, action) = some s')
    (before : s.running c ≠ .proc p) (after : s'.running c = .proc p) : s.Picked c p := by
  obtain ⟨frame, rest, took⟩ := exists_took stepped
  have acts := instr_acts (s.view c) frame rest action
  generalize (s.view c).instr frame rest action = instr at *
  obtain ⟨top, executes⟩ := took
  cases executes with
  | resume =>
    cases acts with
    | quiet isQuiet => cases isQuiet
    | swtch =>
      change update s.running c (.proc _) c = .proc p at after
      rw [update_self] at after
      cases after
      have home := coherent.home_of_scheduler top
      rw [home] at top
      exact ⟨home, _, _, top, rfl⟩
  | suspend =>
    change update s.running c (.sched c) c = .proc p at after
    rw [update_self] at after
    cases after
  | _ => exact absurd after before

/-- No process is the current process of two CPUs; a CPU switches only to a process that it
found `RUNNABLE` under its lock and set `RUNNING`, with the lock held up to the switch; and
the states of processes change along the listed edges only. -/
theorem one_cpu (run : Runs steps s) :
    (∀ c c' p, s.current c = some p → s.current c' = some p → c = c') ∧
      (∀ c action s' p, s.step (c, action) = some s' → s.running c ≠ .proc p →
        s'.running c = .proc p →
        ∃ earlier before later, steps = earlier ++ before :: later ∧ before.2.1 = c ∧
          (before.1.table p).state = .runnable ∧ before.1.holder (.proc p) = some c ∧
          ∀ between ∈ later ++ [(s, c, action)],
            (between.1.table p).state = .running ∧ between.1.holder (.proc p) = some c) ∧
      ∀ label s' p, s.step label = some s' →
        (s'.table p).state = (s.table p).state ∨ Edge (s.table p).state (s'.table p).state := by
  have coherent := Runs.coherent run
  refine ⟨coherent.alone, ?_, fun label s' p stepped => coherent.edge stepped p⟩
  intro c action s' p stepped before after
  have picked := coherent.picked_of_switch stepped before after
  obtain ⟨earlier, found, later, split, mine, ready, held, kept⟩ := run.picked picked
  refine ⟨earlier, found, later, split, mine, ready, held, ?_⟩
  intro between member
  obtain member | last := List.mem_append.mp member
  · exact kept between member
  · rw [List.mem_singleton.mp last]
    exact coherent.of_picked picked

/-- The first of two CPUs has switched to `initproc`. -/
theorem one_cpu_init :
    ∃ (steps : List (Machine (Fin 2) × Fin 2 × Action)) (s : Machine (Fin 2)), Runs steps s ∧
      s.running 0 = .proc initproc ∧ ∀ c c' p, s.current c = some p →
        s.current c' = some p → c = c' := by
  have played : (Run.play Machine.step (booted : Machine (Fin 2))
      [(0, .run), (0, .run), (0, .run), (0, .run)]).map (fun s => s.running 0) =
        some (.proc initproc) := by
    decide +kernel
  obtain ⟨s, played, running⟩ := Option.map_eq_some_iff.mp played
  obtain ⟨steps, -, run⟩ := exists_runs played
  exact ⟨steps, s, run, running, (one_cpu run).1⟩

end Machine

end Xv6.Kernel.Sched
