import Xv6.Kernel.Sched.Preserved

/-!
What a free slot of the process table looks like.

Owns: that `freeproc` leaves nothing behind that a later `fork` could inherit, as long as no
one calls `kill(0)`, and what `kill(0)` does.

Does not own: parents of live processes.
-/

namespace Xv6.Kernel.Sched

open Xv6.Lib

/-- Nothing of an earlier process is left in a free slot. -/
def Proc.Clean (proc : Proc) : Prop :=
  proc.state = .unused → proc.pid = 0 ∧ proc.killed = false ∧ proc.chan = none ∧ proc.parent = none

theorem Proc.freed_clean : Proc.freed.Clean := fun _ => ⟨rfl, rfl, rfl, rfl⟩

theorem Proc.Clean.of_state {proc : Proc} {state : ProcState} (same : proc.state = state)
    (used : state ≠ .unused) : proc.Clean := fun free => absurd (same.symm.trans free) used

theorem Proc.Clean.woken {proc : Proc} (clean : proc.Clean) (chan : Option Chan) :
    (proc.woken chan).Clean := by
  unfold Proc.woken
  split_ifs
  · exact nofun
  · exact clean

theorem one_lt_nProc : 1 < nProc := by decide

theorem instr_kill {v : View} {frame : Frame} {rest : List Frame} {action : Action}
    {pid : Int32} {pc : KillPc} (member : .kill pid pc ∈ (v.instr frame rest action).next) :
    (∃ pc', frame = .kill pid pc') ∨ action = .call (.kill pid) := by
  obtain ⟨ok, same⟩ | ⟨-, rfl | begins⟩ := instr_origin member
  · rw [same] at member
    have follows := code_follows v ok frame
    generalize (v.code ok frame).next = next at *
    cases follows with
    | kill =>
      cases List.mem_singleton.mp member
      exact .inl ⟨_, rfl⟩
    | exitCalls => rcases List.mem_pair.mp member with equal | equal <;> cases equal
    | @resume caller => cases caller <;> cases List.mem_singleton.mp member
    | pop => cases member
    | _ => cases List.mem_singleton.mp member
  · exact .inl ⟨pc, rfl⟩
  · cases begins
    exact .inr rfl

variable {Cpu : Type}

namespace Machine

variable {s s' : Machine Cpu} {c : Cpu} {p q : ProcPtr} {frame : Frame} {rest next : List Frame}
  {action : Action} {steps : List (Machine Cpu × Cpu × Action)}

/-- All free slots are clean, and no `kill(0)` is under way. -/
structure Clean (s : Machine Cpu) : Prop where
  coherent : s.Coherent
  table : ∀ p, (s.table p).Clean
  kill : ∀ t pid pc, .kill pid pc ∈ s.stack t → pid ≠ 0

theorem booted_clean : Clean (booted : Machine Cpu) where
  coherent := booted_coherent
  table := by
    intro p
    change (if p = initproc then _ else _ : Proc).Clean
    split_ifs
    · exact nofun
    · exact Proc.freed_clean
  kill := by
    rintro (c | p) pid pc member
    · cases List.mem_singleton.mp member
    · cases mem_booted member

/-- A write leaves free slots clean. -/
theorem Clean.write (clean : s.Clean) {proc : Proc} (top : s.stack (s.running c) = frame :: rest)
    (acts : Acts (s.view c) frame (.write q proc next)) : proc.Clean := by
  have coherent := clean.coherent
  have own (mine : (s.view c).myproc = some q) (unchosen : frame.chosen = none)
      (runs : frame.state = .running) : (s.table q).state = .running :=
    (coherent.state_of_running (coherent.running_of_mine top unchosen mine) top).trans runs
  cases acts with
  | quiet isQuiet => cases isQuiet
  | setkilled mine | sleepTidy mine => exact .of_state (own mine rfl rfl) nofun
  | wakeup => exact (clean.table q).woken _
  | @kill _ pid _ same =>
    intro free
    -- the process found has a pid, which a free slot has not
    have nonzero : pid ≠ 0 := clean.kill _ pid _ (by rw [top]; exact List.mem_cons_self)
    change (if (s.table q).state = .sleeping then .runnable else (s.table q).state) =
      .unused at free
    split_ifs at free
    exact absurd (same.symm.trans (clean.table q free).1) nonzero
  | forkFree => exact Proc.freed_clean
  | forkParent mine =>
    have used : s.Slot q .ready := coherent.slot_top top rfl
    exact .of_state used.1 nofun
  | reparent mine child =>
    intro free
    have orphan : (s.table q).parent = none := (clean.table q free).2.2.2
    exact absurd (orphan.symm.trans child) nofun
  | reap dead => exact Proc.freed_clean
  | _ => exact nofun

variable [DecidableEq Cpu]

theorem Clean.step (clean : s.Clean) (stepped : s.step (c, action) = some s')
    (nonzero : action ≠ .call (.kill 0)) : s'.Clean := by
  obtain ⟨frame, rest, took⟩ := exists_took stepped
  refine ⟨clean.coherent.step stepped, ?_, ?_⟩
  · intro p
    rw [took.table]
    have acts := instr_acts (s.view c) frame rest action
    generalize (s.view c).instr frame rest action = instr at *
    cases instr with
    | write q proc next =>
      by_cases same : p = q
      · rw [same, Instr.table_write_self]
        exact clean.write took.top acts
      · rw [Instr.table_write_of_ne same]
        exact clean.table p
    | _ => exact clean.table p
  · intro t pid pc member
    obtain ⟨-, isNew⟩ | ⟨old, -⟩ | equal := took.mem_stack member
    · obtain ⟨pc', rfl⟩ | rfl := instr_kill isNew
      · exact clean.kill _ pid pc' (by rw [took.top]; exact List.mem_cons_self)
      · rintro rfl
        exact nonzero rfl
    · exact clean.kill t pid pc old
    · cases equal

/-- In runs without `kill(0)`, free slots are clean in every state. -/
theorem Runs.clean (run : Runs steps s) (nonzero : ∀ before ∈ steps, before.2.2 ≠ .call (.kill 0)) :
    s.Clean := by
  refine Run.invariant_of (fun _ label => label.2 ≠ .call (.kill 0)) Clean ?_ ?_ run nonzero
  · rintro _ rfl
    exact booted_clean
  · exact fun _ _ _ clean nonzero stepped => clean.step stepped nonzero

theorem Coherent.killed_of_allocated (coherent : s.Coherent)
    (stepped : s.step (c, action) = some s')
    (free : (s.table p).state = .unused) (taken : (s'.table p).state ≠ .unused) :
    (s'.table p).killed = (s.table p).killed := by
  obtain ⟨frame, rest, took⟩ := exists_took stepped
  have acts := instr_acts (s.view c) frame rest action
  rw [took.table] at taken ⊢
  generalize (s.view c).instr frame rest action = instr at *
  cases instr with
  | write q proc next =>
    by_cases same : p = q
    · subst same
      rw [Instr.table_write_self] at taken ⊢
      by_cases others : ∀ stage, frame.slot ≠ some (p, stage)
      · exact absurd ((coherent.state_of_slot took.top acts others (.inl free)).trans free) taken
      · obtain ⟨stage, slot⟩ := not_forall_not.mp others
        cases acts with
        | quiet isQuiet => cases isQuiet
        | forkUsed => rfl
        | forkFree => exact absurd rfl taken
        | forkParent mine => rfl
        | forkRunnable => rfl
        | _ => cases slot
    · rw [Instr.table_write_of_ne same]
  | _ => rfl

theorem marked_of_found {pid : Int32} {left : List ProcPtr} (stepped : s.step (c, action) = some s')
    (top : s.stack (s.running c) = .kill pid (.check q left) :: rest)
    (found : s'.stack (s.running c) = .kill pid (.found q) :: rest) :
    (s.table q).pid = pid ∧ (s'.table q).killed = true := by
  obtain ⟨frame, rest', took⟩ := exists_took stepped
  obtain ⟨rfl, rfl⟩ := List.cons.inj (took.top.symm.trans top)
  have isNew :
      .kill pid (.found q) ∈ ((s.view c).instr (.kill pid (.check q left)) rest' action).next := by
    have acts := instr_acts (s.view c) (.kill pid (.check q left)) rest' action
    have old : ((s.view c).instr (.kill pid (.check q left)) rest' action).fresh = none := by
      generalize (s.view c).instr (.kill pid (.check q left)) rest' action = instr at *
      cases acts with
      | quiet isQuiet => exact Instr.fresh_of_quiet isQuiet
      | kill => rfl
    have onward := took.stack_self (by rw [old]; exact nofun)
    rw [found, ← List.singleton_append] at onward
    rw [← List.append_cancel_right onward]
    exact List.mem_singleton_self _
  obtain ⟨ok, same⟩ | ⟨-, equal | begins⟩ := instr_origin isNew
  · rw [same] at isNew took
    change .kill pid (.found q) ∈ ((s.view c).kill pid (.check q left)).next at isNew
    change Took s c _ _ ((s.view c).kill pid (.check q left)) s' at took
    simp only [View.kill] at isNew took
    split_ifs at isNew took with matches_
    · refine ⟨matches_, ?_⟩
      rw [took.table, Instr.table_write_self]
      rfl
    · cases List.mem_singleton.mp isNew
  · cases equal
  · cases begins

/-- In every run without `kill(0)`, each free slot is clean; a process that `fork` makes has
not been killed; and `kill` returns 0 only if it has marked a process that is there. -/
theorem free_slots_clean (run : Runs steps s)
    (nonzero : ∀ before ∈ steps, before.2.2 ≠ .call (.kill 0)) :
    (∀ p, (s.table p).state = .unused →
        (s.table p).pid = 0 ∧ (s.table p).killed = false ∧ (s.table p).chan = none ∧
          (s.table p).parent = none) ∧
      (∀ c action s' p, s.step (c, action) = some s' → (s.table p).state = .unused →
        (s'.table p).state ≠ .unused → (s'.table p).killed = false) ∧
      ∀ c action s' pid q left rest, s.step (c, action) = some s' →
        s.stack (s.running c) = .kill pid (.check q left) :: rest →
        s'.stack (s.running c) = .kill pid (.found q) :: rest →
        (s.table q).state ≠ .unused ∧ (s'.table q).killed = true := by
  have clean := Runs.clean run nonzero
  refine ⟨clean.table, ?_, ?_⟩
  · intro c action s' p stepped free taken
    rw [clean.coherent.killed_of_allocated stepped free taken]
    exact (clean.table p free).2.1
  · intro c action s' pid q left rest stepped top found
    obtain ⟨same, killed⟩ := marked_of_found stepped top found
    refine ⟨fun free => ?_, killed⟩
    exact clean.kill _ pid _ (top ▸ List.mem_cons_self) (same.symm.trans (clean.table q free).1)

/-- The slot after that of `initproc`. -/
def secondproc : ProcPtr := ⟨1, one_lt_nProc⟩

/-- `initproc` runs and calls `fork`, up to where the new process is `RUNNABLE`. -/
def firstFork : List (Fin 1 × Action) :=
  List.replicate 5 (theCpu, .run) ++ (theCpu, .call .fork) :: List.replicate 19 (theCpu, .run)

theorem free_slots_clean_after_fork :
    ∃ (steps : List (Machine (Fin 1) × Fin 1 × Action)) (s : Machine (Fin 1)), Runs steps s ∧
      (∀ before ∈ steps, before.2.2 ≠ .call (.kill 0)) ∧ (s.table secondproc).state = .runnable ∧
      ∀ p, (s.table p).state = .unused → (s.table p).pid = 0 ∧ (s.table p).killed = false ∧
        (s.table p).chan = none ∧ (s.table p).parent = none := by
  have played : (Run.play Machine.step booted firstFork).map (fun s => (s.table secondproc).state) =
      some .runnable := by
    decide +kernel
  obtain ⟨s, played, runnable⟩ := Option.map_eq_some_iff.mp played
  obtain ⟨steps, labels, run⟩ := exists_runs played
  have nonzero : ∀ before ∈ steps, before.2.2 ≠ .call (.kill 0) := by
    intro before member
    have listed : before.2 ∈ firstFork := labels ▸ List.mem_map_of_mem member
    simp only [firstFork, List.mem_append, List.mem_cons, List.mem_replicate] at listed
    obtain ⟨-, same⟩ | same | ⟨-, same⟩ := listed <;> rw [same] <;> exact nofun
  exact ⟨steps, s, run, nonzero, runnable, (free_slots_clean run nonzero).1⟩

/-- `initproc` runs, calls `kill(0)`, and then `fork`. -/
def killZero : List (Fin 1 × Action) :=
  List.replicate 5 (theCpu, .run) ++ (theCpu, .call (.kill 0)) :: List.replicate 7 (theCpu, .run) ++
    (theCpu, .call .fork) :: List.replicate 19 (theCpu, .run)

/-- `kill(0)` marks the first free slot, and the next process that `fork` makes starts
killed. -/
theorem kill_zero_marks :
    (∃ (steps : List (Machine (Fin 1) × Fin 1 × Action)) (s : Machine (Fin 1)), Runs steps s ∧
        steps.map Prod.snd = killZero.take 13 ∧ (s.table secondproc).state = .unused ∧
        (s.table secondproc).killed = true) ∧
      ∃ (steps : List (Machine (Fin 1) × Fin 1 × Action)) (s : Machine (Fin 1)), Runs steps s ∧
        steps.map Prod.snd = killZero ∧ (s.table secondproc).state = .runnable ∧
        (s.table secondproc).killed = true := by
  have witness {labels : List (Fin 1 × Action)} {state : ProcState}
      (played : (Run.play Machine.step booted labels).map
        (fun s => ((s.table secondproc).state, (s.table secondproc).killed)) = some (state, true)) :
      ∃ (steps : List (Machine (Fin 1) × Fin 1 × Action)) (s : Machine (Fin 1)), Runs steps s ∧
        steps.map Prod.snd = labels ∧ (s.table secondproc).state = state ∧
        (s.table secondproc).killed = true := by
    obtain ⟨s, played, same⟩ := Option.map_eq_some_iff.mp played
    obtain ⟨steps, labels, run⟩ := exists_runs played
    exact ⟨steps, s, run, labels, (Prod.mk.inj same).1, (Prod.mk.inj same).2⟩
  exact ⟨witness (by decide +kernel), witness (by decide +kernel)⟩

end Machine

end Xv6.Kernel.Sched
