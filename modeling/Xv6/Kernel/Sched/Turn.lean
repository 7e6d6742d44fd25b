import Xv6.Kernel.Sched.Coherent

/-!
What one step does to the table, to the stacks and to the states of processes.

Owns: the changes that `p->state` can go through, which of them each write makes in a
coherent machine and under which lock, and a step case by case.

Does not own: that steps keep the machine coherent.
-/

namespace Xv6.Kernel.Sched

open Function

variable {Cpu : Type}

namespace Machine

variable {s s' : Machine Cpu} {c c' : Cpu} {p q : ProcPtr} {frame : Frame}
  {rest stack next : List Frame}
  {action : Action}

/-- The changes of `p->state`. -/
inductive Edge : ProcState → ProcState → Prop where
  | allocate : Edge .unused .used
  | ready : Edge .used .runnable
  | run : Edge .runnable .running
  | yield : Edge .running .runnable
  | sleep : Edge .running .sleeping
  | exit : Edge .running .zombie
  | wake : Edge .sleeping .runnable
  | abort : Edge .used .unused
  | reap : Edge .zombie .unused

/-- How a write to the process `q` turns its state, where `c` goes on with `top`: not at all,
by the process itself, or by another that holds its lock. -/
inductive Turn (s : Machine Cpu) (c : Cpu) (top : Frame) (q : ProcPtr) (proc : Proc) : Prop where
  | same (state : proc.state = (s.table q).state) (runs : top.state = .running)
      (unpicked : top.picked = none)
  | own (held : s.holder (.proc q) = some c) (away : s.running c = .proc q)
      (state : proc.state = top.state) (unpicked : top.picked = none)
      (edge : Edge .running proc.state)
  | other (held : s.holder (.proc q) = some c) (stopped : (s.table q).state ≠ .running)
      (edge : Edge (s.table q).state proc.state) (runs : top.state = .running)
      (parks : s.Off q → Parked (s.table q).state (s.stack (.proc q)) →
        Parked proc.state (s.stack (.proc q)))
      (picked : ∀ p, top.picked = some p → p = q ∧ proc.state = .running)

/-- `wakeup` and `kill` turn the state of a sleeping process only. -/
theorem Turn.wake {top : Frame} {proc : Proc} (held : s.holder (.proc q) = some c)
    (asleep : (s.table q).state = .sleeping) (state : proc.state = .runnable)
    (runs : top.state = .running)
    (unpicked : top.picked = none) : Turn s c top q proc := by
  refine .other held ?_ ?_ runs ?_ ?_
  · simp [asleep]
  · rw [asleep, state]
    exact .wake
  · intro _ parked
    rw [asleep] at parked
    rw [state]
    exact parked.wake
  · intro p picked
    rw [unpicked] at picked
    cases picked

theorem Coherent.turn (coherent : s.Coherent) {proc : Proc}
    (top : s.stack (s.running c) = frame :: rest)
    (acts : Acts (s.view c) frame (.write q proc next)) :
    frame.chosen = none ∧ ∃ top' lower, next = top' :: lower ∧ top'.chosen = none ∧
      frame.state = .running ∧
      Turn s c top' q proc := by
  have held (member : .proc q ∈ frame.locks (s.running c).me) := coherent.holder_top top member
  have own (mine : (s.view c).myproc = some q) (unchosen : frame.chosen = none)
      (member : .proc q ∈ frame.locks (some q)) : s.holder (.proc q) = some c ∧
        s.running c = .proc q := by
    have away := coherent.running_of_mine top unchosen mine
    refine ⟨held ?_, away⟩
    rw [away]
    exact member
  cases acts with
  | quiet isQuiet => cases isQuiet
  | check ready =>
    change (s.table q).state = .runnable at ready
    refine ⟨rfl, _, _, rfl, rfl, rfl, .other (held (List.mem_singleton_self _)) ?_ ?_ rfl ?_ ?_⟩
    · simp [ready]
    · rw [ready]
      exact .run
    · intro _ parked
      rw [ready] at parked
      exact ⟨fun _ => parked.alive (.inl rfl), nofun, parked.parks⟩
    · intro p picked
      cases picked
      exact ⟨rfl, rfl⟩
  | yieldSet mine =>
    obtain ⟨locked, away⟩ := own mine rfl List.mem_cons_self
    exact ⟨rfl, _, _, rfl, rfl, rfl, .own locked away rfl rfl .yield⟩
  | setkilled mine | sleepTidy mine | forkParent mine | reparent mine child =>
    exact ⟨rfl, _, _, rfl, rfl, rfl, .same rfl rfl rfl⟩
  | sleepSet mine =>
    obtain ⟨locked, away⟩ := own mine rfl List.mem_cons_self
    exact ⟨rfl, _, _, rfl, rfl, rfl, .own locked away rfl rfl .sleep⟩
  | @wakeup _ chan =>
    refine ⟨rfl, _, _, rfl, rfl, rfl, ?_⟩
    by_cases asleep : (s.table q).state = .sleeping ∧ (s.table q).chan = chan
    · exact .wake (held (List.mem_singleton_self _)) asleep.1
        (congrArg Proc.state (if_pos asleep)) rfl rfl
    · exact .same (congrArg Proc.state (if_neg asleep)) rfl rfl
  | kill same =>
    refine ⟨rfl, _, _, rfl, rfl, rfl, ?_⟩
    by_cases asleep : (s.table q).state = .sleeping
    · exact .wake (held (List.mem_singleton_self _)) asleep (if_pos asleep) rfl rfl
    · exact .same (if_neg asleep) rfl rfl
  | forkUsed =>
    have free : (s.table q).state = .unused := coherent.slot_top top rfl
    refine ⟨rfl, _, _, rfl, rfl, rfl, .other (held (List.mem_singleton_self _)) ?_ ?_ rfl ?_ nofun⟩
    · simp [free]
    · rw [free]
      exact .allocate
    · exact fun _ parked => parked.of_stack ⟨nofun, nofun, nofun⟩
  | forkFree =>
    have used : (s.table q).state = .used := coherent.slot_top top rfl
    refine ⟨rfl, _, _, rfl, rfl, rfl, .other (held (List.mem_singleton_self _)) ?_ ?_ rfl ?_ nofun⟩
    · simp [used]
    · rw [used]
      exact .abort
    · exact fun _ parked => parked.of_stack ⟨nofun, nofun, nofun⟩
  | forkRunnable =>
    obtain ⟨used, start⟩ : s.Slot q .ready := coherent.slot_top top rfl
    refine ⟨rfl, _, _, rfl, rfl, rfl, .other (held (List.mem_singleton_self _)) ?_ ?_ rfl ?_ nofun⟩
    · simp [used]
    · rw [used]
      exact .ready
    · intro _ parked
      rw [start] at parked ⊢
      exact ⟨fun _ => ⟨_, _, rfl, nofun⟩, nofun, parked.parks⟩
  | zombie mine =>
    obtain ⟨locked, away⟩ := own mine rfl List.mem_cons_self
    exact ⟨rfl, _, _, rfl, rfl, rfl, .own locked away rfl rfl .exit⟩
  | reap dead =>
    change (s.table q).state = .zombie at dead
    refine ⟨rfl, _, _, rfl, rfl, rfl, .other (held List.mem_cons_self) ?_ ?_ rfl ?_ nofun⟩
    · simp [dead]
    · rw [dead]
      exact .reap
    · exact fun _ parked => parked.of_stack ⟨nofun, nofun, nofun⟩

/-- A thread that `allocproc` sets up is that of a slot it has made `USED`. -/
theorem Coherent.slot_of_fresh (coherent : s.Coherent) {instr : Instr}
    (top : s.stack (s.running c) = frame :: rest)
    (acts : Acts (s.view c) frame instr) (fresh : instr.fresh = some p) : s.Slot p .owned := by
  cases acts with
  | quiet isQuiet =>
    rw [Instr.fresh_of_quiet isQuiet] at fresh
    cases fresh
  | forkContext =>
    obtain rfl := Option.some.inj fresh
    exact coherent.slot_top top rfl
  | _ => cases fresh

variable [DecidableEq Cpu]

@[simp] theorem goOn_stack_self : (s.goOn c stack).stack (s.running c) = stack := update_self _ _ _

theorem goOn_stack_of_ne {t : Thread Cpu} (other : t ≠ s.running c) :
    (s.goOn c stack).stack t = s.stack t := update_of_ne other _ _

theorem goOn_stack_of_running {t : Thread Cpu} (running : s.running c = t) :
    (s.goOn c stack).stack t = stack := by
  rw [← running, goOn_stack_self]

/-- What an instruction does, case by case. -/
inductive Executes (s : Machine Cpu) (c : Cpu) (rest : List Frame) :
    Instr → Machine Cpu → Prop where
  | goto {next : List Frame} : Executes s c rest (.goto next) (s.goOn c (next ++ rest))
  | acquire {lock : Lock} {next : List Frame} (free : s.holder lock = none) :
      Executes s c rest (.acquire lock next)
        { s.goOn c (next ++ rest) with holder := update s.holder lock (some c) }
  | release {lock : Lock} {next : List Frame} :
      Executes s c rest (.release lock next)
        { s.goOn c (next ++ rest) with holder := update s.holder lock none }
  | write {q : ProcPtr} {proc : Proc} {next : List Frame} :
      Executes s c rest (.write q proc next)
        { s.goOn c (next ++ rest) with table := update s.table q proc }
  | takePid {next : List Frame} :
      Executes s c rest (.takePid next) { s.goOn c (next ++ rest) with nextpid := s.nextpid + 1 }
  | setProc {q : Option ProcPtr} {next : List Frame} :
      Executes s c rest (.setProc q next)
        { s.goOn c (next ++ rest) with current := update s.current c q }
  | context {np : ProcPtr} {next : List Frame} :
      Executes s c rest (.context np next)
        { s.goOn c (next ++ rest) with
          stack := update (s.goOn c (next ++ rest)).stack (.proc np) [.forkret] }
  | resume {q : ProcPtr} {next : List Frame} :
      Executes s c rest (.resume q next)
        { s.goOn c (next ++ rest) with running := update s.running c (.proc q) }
  | suspend {next : List Frame} :
      Executes s c rest (.suspend next)
        { s.goOn c (next ++ rest) with running := update s.running c (.sched c) }

theorem executes_of_exec {instr : Instr} (done : s.exec c rest instr = some s') :
    Executes s c rest instr s' := by
  cases instr with
  | stuck => cases done
  | acquire lock next =>
    change (if s.holder lock = none then _ else _) = _ at done
    split_ifs at done with free
    cases done
    exact .acquire free
  | goto next => cases done; exact .goto
  | release lock next => cases done; exact .release
  | write q proc next => cases done; exact .write
  | takePid next => cases done; exact .takePid
  | setProc q next => cases done; exact .setProc
  | context np next => cases done; exact .context
  | resume q next => cases done; exact .resume
  | suspend next => cases done; exact .suspend

/-- A step of `c` in the frame on top of the stack of the thread it runs. -/
structure Took (s : Machine Cpu) (c : Cpu) (frame : Frame) (rest : List Frame) (instr : Instr)
    (s' : Machine Cpu) : Prop where
  top : s.stack (s.running c) = frame :: rest
  executes : Executes s c rest instr s'

theorem exists_took (stepped : s.step (c, action) = some s') :
    ∃ frame rest, Took s c frame rest ((s.view c).instr frame rest action) s' := by
  unfold step at stepped
  split at stepped
  · cases stepped
  · rename_i frame rest top
    exact ⟨frame, rest, top, executes_of_exec stepped⟩

namespace Took

variable {instr : Instr}

theorem moves (took : Took s c frame rest instr s') : instr ≠ .stuck := by
  rintro rfl
  cases took.executes

theorem table (took : Took s c frame rest instr s') : s'.table = instr.table s.table := by
  obtain ⟨-, executes⟩ := took
  cases executes <;> rfl

theorem clock (took : Took s c frame rest instr s') : s'.clock = s.clock + 1 := by
  obtain ⟨-, executes⟩ := took
  cases executes <;> rfl

/-- Other threads are not touched, but for one that `allocproc` sets up. -/
theorem stack_of_ne (took : Took s c frame rest instr s') {t : Thread Cpu} (other : t ≠ s.running c)
    (old : ∀ np, instr.fresh = some np → t ≠ .proc np) : s'.stack t = s.stack t := by
  obtain ⟨-, executes⟩ := took
  cases executes with
  | context => exact (update_of_ne (old _ rfl) _ _).trans (goOn_stack_of_ne other)
  | _ => exact goOn_stack_of_ne other

theorem stack_fresh (took : Took s c frame rest instr s') (fresh : instr.fresh = some p) :
    s'.stack (.proc p) = [.forkret] := by
  obtain ⟨-, executes⟩ := took
  cases executes with
  | context =>
    cases fresh
    exact update_self _ _ _
  | _ => cases fresh

theorem stack_self (took : Took s c frame rest instr s')
    (old : ∀ np, instr.fresh = some np → s.running c ≠ .proc np) :
    s'.stack (s.running c) = instr.next ++ rest := by
  obtain ⟨-, executes⟩ := took
  cases executes with
  | context => exact (update_of_ne (old _ rfl) _ _).trans goOn_stack_self
  | _ => exact goOn_stack_self

/-- Where a frame of the stacks after a step comes from. -/
theorem mem_stack (took : Took s c frame rest instr s') {t : Thread Cpu} {g : Frame}
    (member : g ∈ s'.stack t) :
    (t = s.running c ∧ g ∈ instr.next) ∨ (g ∈ s.stack t ∧ (t = s.running c → g ∈ rest)) ∨
      g = .forkret := by
  by_cases fresh : ∃ np, instr.fresh = some np ∧ t = .proc np
  · obtain ⟨np, fresh, rfl⟩ := fresh
    rw [took.stack_fresh fresh] at member
    exact .inr (.inr (List.mem_singleton.mp member))
  · have old (np : ProcPtr) (isFresh : instr.fresh = some np) : t ≠ .proc np :=
      fun same => fresh ⟨np, isFresh, same⟩
    by_cases same : t = s.running c
    · subst same
      rw [took.stack_self old] at member
      obtain isNew | below := List.mem_append.mp member
      · exact .inl ⟨rfl, isNew⟩
      · refine .inr (.inl ⟨?_, fun _ => below⟩)
        rw [took.top]
        exact List.mem_cons_of_mem _ below
    · rw [took.stack_of_ne same old] at member
      exact .inr (.inl ⟨member, fun equal => absurd equal same⟩)

end Took

/-- The stack of the thread that made the step. -/
theorem Coherent.stack_running (coherent : s.Coherent) {instr : Instr}
    (took : Took s c frame rest instr s')
    (acts : Acts (s.view c) frame instr) : s'.stack (s.running c) = instr.next ++ rest :=
  took.stack_self fun _ fresh => coherent.off_of_slot (coherent.slot_of_fresh took.top acts fresh) c

/-- The stack of another thread stays, or it starts in `forkret`. -/
theorem Took.stack_other {instr : Instr} (took : Took s c frame rest instr s') {t : Thread Cpu}
    (other : t ≠ s.running c) : s'.stack t = s.stack t ∨ s'.stack t = [.forkret] := by
  by_cases fresh : ∃ np, instr.fresh = some np ∧ t = .proc np
  · obtain ⟨np, fresh, rfl⟩ := fresh
    exact .inr (took.stack_fresh fresh)
  · exact .inl (took.stack_of_ne other fun np isFresh same => fresh ⟨np, isFresh, same⟩)

end Machine

end Xv6.Kernel.Sched
