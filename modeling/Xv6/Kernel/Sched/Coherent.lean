import Xv6.Kernel.Sched.Shape
import Xv6.Lib.Holders

/-!
What holds between the CPUs, the process table and the kernel stacks in every reachable
state.

Owns: the invariant that ties `c->proc`, who runs, who holds which lock and the states of
the processes together, and that every step keeps it.

Does not own: parents, channels and what `wakeup` guarantees.
-/

namespace Xv6.Kernel.Sched

open Xv6.Lib

/-- The process whose thread it is. -/
def Thread.me {Cpu : Type} : Thread Cpu → Option ProcPtr
  | .sched _ => none
  | .proc p => some p

/-- Where a process waits to be switched to, and where it ends. -/
def Frame.parks : Frame → Bool
  | .yield .release => true
  | .sleep _ (.tidy _) => true
  | .forkret => true
  | .exit _ .gone => true
  | _ => false

/-- The stack of a process that no CPU runs fits its state. -/
structure Parked (state : ProcState) (stack : List Frame) : Prop where
  alive : state = .runnable ∨ state = .running →
    ∃ frame rest, stack = frame :: rest ∧ ∀ status, frame ≠ .exit status .gone
  asleep : state = .sleeping → ∃ caller released rest,
    stack = .sleep caller (.tidy released) :: rest
  parks : ∀ frame rest, stack = frame :: rest → frame.parks = true

/-- A process that was found free or dead may have any stack that parks. -/
theorem Parked.of_stack {state state' : ProcState} {stack : List Frame}
    (parked : Parked state stack)
    (runs : state' ≠ .runnable ∧ state' ≠ .running ∧ state' ≠ .sleeping) : Parked state' stack :=
  ⟨fun alive => absurd alive (not_or.mpr ⟨runs.1, runs.2.1⟩),
    fun asleep => absurd asleep runs.2.2, parked.parks⟩

/-- A process that slept goes on after `sched` in `sleep`. -/
theorem Parked.wake {stack : List Frame} (parked : Parked .sleeping stack) :
    Parked .runnable stack := by
  obtain ⟨caller, released, rest, rfl⟩ := parked.asleep rfl
  exact ⟨fun _ => ⟨_, _, rfl, nofun⟩, nofun, parked.parks⟩

variable {Cpu : Type}

namespace Machine

/-- The locks that the frames of a thread hold. -/
def locks (s : Machine Cpu) (t : Thread Cpu) : List Lock := locksOf t.me (s.stack t)

/-- No CPU runs the process. -/
def Off (s : Machine Cpu) (p : ProcPtr) : Prop := ∀ c, s.running c ≠ .proc p

/-- What `fork` knows of its slot. -/
def Slot (s : Machine Cpu) (np : ProcPtr) : Stage → Prop
  | .taken => (s.table np).state = .unused
  | .owned => (s.table np).state = .used
  | .ready => (s.table np).state = .used ∧ s.stack (.proc np) = [.forkret]

/-- Every slot that `fork` works on is in the state it should be, and in one call only. -/
structure Slots (s : Machine Cpu) : Prop where
  slot : ∀ {p frame np stage}, frame ∈ s.stack (.proc p) → frame.slot = some (np, stage) →
    s.Slot np stage
  owner : ∀ {p p' frame frame' np stage stage'}, frame ∈ s.stack (.proc p) →
    frame' ∈ s.stack (.proc p') →
    frame.slot = some (np, stage) → frame'.slot = some (np, stage') → p = p'

/-- What a CPU does: it runs its scheduler, which may have picked a process, or it runs the
process that the scheduler switched to. -/
inductive OnCpu (s : Machine Cpu) (c : Cpu) : Prop where
  | scheduler {frame : Frame} {rest : List Frame} (running : s.running c = .sched c)
      (stack : s.stack (.sched c) = frame :: rest) (current : s.current c = frame.chosen)
      (picked : ∀ p, frame.picked = some p →
        (s.table p).state = .running ∧ ∀ c', s.current c' = some p → c' = c)
  | process {p : ProcPtr} {frame : Frame} {rest : List Frame} {left : List ProcPtr}
      (running : s.running c = .proc p) (stack : s.stack (.proc p) = frame :: rest)
      (current : s.current c = some p) (state : (s.table p).state = frame.state)
      (home : s.stack (.sched c) = [.scheduler (.back p left)])

/-- The invariant. -/
structure Coherent (s : Machine Cpu) : Prop where
  shaped : ∀ t, Shaped t.me (s.stack t)
  holds : Holds s.holder fun c => s.locks (s.running c)
  cpu : ∀ c, s.OnCpu c
  alone : ∀ c c' p, s.current c = some p → s.current c' = some p → c = c'
  parked : ∀ p, s.Off p → Parked (s.table p).state (s.stack (.proc p))
  slots : s.Slots

/-- Every CPU is in its scheduler, and every process has yet to run for the first time. -/
structure Fresh (s : Machine Cpu) : Prop where
  free : ∀ lock, s.holder lock = none
  idle : ∀ c, s.current c = none
  home : ∀ c, s.running c = .sched c
  scheduler : ∀ c, s.stack (.sched c) = [.scheduler (.scan slots)]
  process : ∀ p, ((s.table p).state = .runnable ∧ s.stack (.proc p) = [.forkret]) ∨
    ((s.table p).state = .unused ∧ s.stack (.proc p) = [])

theorem Fresh.mem_stack {s : Machine Cpu} (fresh : s.Fresh) {p : ProcPtr} {frame : Frame}
    (member : frame ∈ s.stack (.proc p)) : frame = .forkret := by
  rcases fresh.process p with ⟨_, stack⟩ | ⟨_, stack⟩ <;> rw [stack] at member
  · exact List.mem_singleton.mp member
  · exact absurd member List.not_mem_nil

theorem Fresh.coherent {s : Machine Cpu} (fresh : s.Fresh) : s.Coherent where
  shaped := by
    rintro (c | p)
    · rw [fresh.scheduler]
      exact ⟨⟨rfl, rfl⟩, trivial⟩
    · rcases fresh.process p with ⟨_, stack⟩ | ⟨_, stack⟩ <;> rw [stack]
      · exact ⟨⟨rfl, Option.some_ne_none _⟩, trivial⟩
      · trivial
  holds := by
    have absent (c : Cpu) : s.locks (s.running c) = [] := by
      rw [fresh.home, locks, fresh.scheduler]
      rfl
    refine ⟨fun lock c => ?_, fun c => ?_⟩
    · rw [fresh.free, absent]
      exact ⟨nofun, nofun⟩
    · rw [absent]
      exact List.nodup_nil
  cpu := fun c => .scheduler (fresh.home c) (fresh.scheduler c) (fresh.idle c) nofun
  alone := by
    intro c c' p current
    rw [fresh.idle] at current
    cases current
  parked := by
    intro p _
    rcases fresh.process p with ⟨state, stack⟩ | ⟨state, stack⟩ <;> rw [state, stack]
    · refine ⟨fun _ => ⟨_, _, rfl, nofun⟩, nofun, ?_⟩
      intro frame rest same
      cases same
      rfl
    · exact ⟨nofun, nofun, nofun⟩
  slots := by
    refine ⟨fun member slot => ?_, fun member _ slot => ?_⟩ <;>
    · rw [fresh.mem_stack member] at slot
      cases slot

theorem booted_fresh : Fresh (booted : Machine Cpu) where
  free := fun _ => rfl
  idle := fun _ => rfl
  home := fun _ => rfl
  scheduler := fun _ => rfl
  process := by
    intro p
    by_cases first : p = initproc <;> simp [booted, first, Proc.freed]

theorem mem_booted {p : ProcPtr} {frame : Frame}
    (member : frame ∈ (booted : Machine Cpu).stack (.proc p)) :
    frame = .forkret := booted_fresh.mem_stack member

theorem booted_coherent : Coherent (booted : Machine Cpu) := booted_fresh.coherent

variable {s s' : Machine Cpu} {c c' : Cpu} {p q : ProcPtr} {frame : Frame}
  {rest stack next : List Frame}
  {action : Action}

namespace Coherent

/-- The scheduler's own thread, or that of a process. -/
theorem running_cases (coherent : s.Coherent) (c : Cpu) :
    s.running c = .sched c ∨ ∃ p, s.running c = .proc p := by
  cases coherent.cpu c with
  | scheduler running => exact .inl running
  | process running => exact .inr ⟨_, running⟩

theorem current_of_running (coherent : s.Coherent) (away : s.running c = .proc p) :
    s.current c = some p := by
  cases coherent.cpu c with
  | scheduler running =>
    rw [away] at running
    cases running
  | process running _ current =>
    rw [away] at running
    rw [current, Thread.proc.inj running]

theorem state_of_running (coherent : s.Coherent) (away : s.running c = .proc p)
    (top : s.stack (s.running c) = frame :: rest) : (s.table p).state = frame.state := by
  cases coherent.cpu c with
  | scheduler running =>
    rw [away] at running
    cases running
  | process running stack _ state =>
    obtain rfl := Thread.proc.inj (away.symm.trans running)
    rw [running, stack] at top
    rw [state, (List.cons.inj top).1]

/-- `myproc()` is right where it is used. -/
theorem mine (coherent : s.Coherent) (top : s.stack (s.running c) = frame :: rest) :
    (s.view c).Mine (s.running c).me frame := by
  cases coherent.cpu c with
  | @scheduler frame' rest' running stack current =>
    rw [running] at top ⊢
    obtain ⟨rfl, rfl⟩ := List.cons.inj (top.symm.trans stack)
    by_cases chosen : frame.chosen = none
    · exact .inl (current.trans chosen)
    · exact .inr chosen
  | process running _ current =>
    rw [running]
    exact .inl current

/-- Where `myproc()` is used, the CPU runs that process. -/
theorem running_of_mine (coherent : s.Coherent) (top : s.stack (s.running c) = frame :: rest)
    (unchosen : frame.chosen = none) (mine : (s.view c).myproc = some q) :
    s.running c = .proc q := by
  have same := (coherent.mine top).resolve_right fun chosen => chosen unchosen
  rw [mine] at same
  obtain home | ⟨p, away⟩ := coherent.running_cases c
  · rw [home] at same
    cases same
  · rw [away] at same ⊢
    rw [Option.some.inj same]

/-- No two CPUs run the same thread. -/
theorem apart (coherent : s.Coherent) (same : s.running c = s.running c') : c = c' := by
  obtain home | ⟨p, away⟩ := coherent.running_cases c
  · obtain home' | ⟨p', away'⟩ := coherent.running_cases c'
    · rw [home, home'] at same
      exact Thread.sched.inj same
    · rw [home, away'] at same
      cases same
  · exact coherent.alone c c' p (coherent.current_of_running away)
      (coherent.current_of_running (same.symm.trans away))

theorem sched_ne (coherent : s.Coherent) (other : c' ≠ c) : Thread.sched c' ≠ s.running c := by
  intro same
  obtain home | ⟨p, away⟩ := coherent.running_cases c
  · rw [home] at same
    exact other (Thread.sched.inj same)
  · rw [away] at same
    cases same

/-- What the frame on top of a stack that runs holds, its CPU holds. -/
theorem holder_top (coherent : s.Coherent)
    (top : s.stack (s.running c) = frame :: rest) {lock : Lock}
    (member : lock ∈ frame.locks (s.running c).me) : s.holder lock = some c := by
  refine (coherent.holds.iff lock c).mpr ?_
  unfold locks
  rw [top]
  exact List.mem_append_left _ member

theorem exists_top (coherent : s.Coherent) (c : Cpu) :
    ∃ frame rest, s.stack (s.running c) = frame :: rest := by
  cases coherent.cpu c with
  | scheduler running stack | process running stack =>
    rw [running]
    exact ⟨_, _, stack⟩

/-- A process that runs is `RUNNING` for everyone else who holds its lock. -/
theorem running_of_holder (coherent : s.Coherent) (away : s.running c' = .proc q)
    (held : s.holder (.proc q) = some c) (other : c' ≠ c) : (s.table q).state = .running := by
  by_contra changed
  obtain ⟨frame, rest, top⟩ := coherent.exists_top c'
  rw [coherent.state_of_running away top] at changed
  have own : s.holder (.proc q) = some c' := by
    refine coherent.holder_top top ?_
    rw [away]
    exact Frame.own_lock changed
  exact other (Option.some.inj (own.symm.trans held))

/-- A CPU whose threads, `c->proc` and locked processes stay as they are. -/
theorem cpu_of_same (coherent : s.Coherent) (running : s'.running c' = s.running c')
    (stack : s'.stack (s.running c') = s.stack (s.running c'))
    (home : s'.stack (.sched c') = s.stack (.sched c')) (current : s'.current c' = s.current c')
    (state : ∀ q, s.running c' = .proc q ∨ s.holder (.proc q) = some c' →
      (s'.table q).state = (s.table q).state)
    (currents : ∀ c'' q, s.holder (.proc q) = some c' → s'.current c'' = some q →
      s.current c'' = some q) :
    s'.OnCpu c' := by
  cases coherent.cpu c' with
  | @scheduler frame rest atHome top chosen picked =>
    refine .scheduler (running.trans atHome) (home.trans top) (current.trans chosen) ?_
    intro p pick
    have held : s.holder (.proc p) = some c' := by
      refine coherent.holder_top (by rw [atHome, top]) ?_
      rw [Frame.locks_of_picked pick]
      exact List.mem_singleton_self _
    obtain ⟨isRunning, only⟩ := picked p pick
    exact ⟨(state p (.inr held)).trans isRunning,
      fun c'' isCurrent => only c'' (currents c'' p held isCurrent)⟩
  | @process p frame rest left away top isCurrent isState below =>
    rw [away] at stack
    exact .process (running.trans away) (stack.trans top) (current.trans isCurrent)
      ((state p (.inl away)).trans isState) (home.trans below)

/-- The CPU that made a step in a frame and goes on with `top` in the same thread. -/
theorem cpu_self (coherent : s.Coherent) (at_ : s.stack (s.running c) = frame :: rest)
    (unchosen : frame.chosen = none) {top : Frame} {lower : List Frame}
    (running : s'.running c = s.running c) (stack : s'.stack (s.running c) = top :: lower)
    (home : s.running c ≠ .sched c → s'.stack (.sched c) = s.stack (.sched c))
    (current : s'.current c = s.current c) (chosen : top.chosen = none)
    (picked : ∀ p, top.picked = some p → (s'.table p).state = .running ∧ ∀ c',
      s'.current c' = some p → c' = c)
    (state : ∀ p, s.running c = .proc p → (s'.table p).state = top.state) : s'.OnCpu c := by
  cases coherent.cpu c with
  | scheduler atHome below wasChosen =>
    rw [atHome] at at_ stack
    rw [below] at at_
    obtain ⟨rfl, rfl⟩ := List.cons.inj at_
    exact .scheduler (running.trans atHome) stack
      (current.trans (wasChosen.trans (unchosen.trans chosen.symm))) picked
  | process away _ isCurrent _ below =>
    have apart : s.running c ≠ .sched c := by
      rw [away]
      exact nofun
    rw [away] at stack
    exact .process (running.trans away) stack (current.trans isCurrent) (state _ away)
      ((home apart).trans below)

/-- Frames below the place where a process waits for a CPU hold no lock. -/
theorem locksOf_of_parks {me : Option ProcPtr} (parks : frame.parks = true)
    (above : frame.Above me rest) :
    locksOf me rest = [] := by
  unfold Frame.parks at parks
  split at parks
  · exact above.2.1
  · rename_i caller released
    cases caller with
    | kernel n =>
      rw [above.1]
      rfl
    | wait addr =>
      cases above
      rfl
  · rw [above.1]
    rfl
  · cases above
    rfl
  · cases parks

/-- A lock that `fork` holds is held by the CPU it runs on. -/
theorem exists_holder (coherent : s.Coherent) (member : frame ∈ s.stack (.proc p)) {lock : Lock}
    (held : lock ∈ frame.locks (some p)) (busy : frame.parks = false) :
    ∃ c, s.running c = .proc p ∧ s.holder lock = some c := by
  have listed : lock ∈ s.locks (.proc p) := List.mem_flatMap.mpr ⟨frame, member, held⟩
  by_cases off : s.Off p
  · obtain ⟨top, lower, stack⟩ := List.exists_cons_of_ne_nil (List.ne_nil_of_mem member)
    have parks := (coherent.parked p off).parks top lower stack
    have above := coherent.shaped (.proc p)
    rw [stack] at above member
    obtain rfl | below := List.mem_cons.mp member
    · rw [parks] at busy
      cases busy
    · have inside : lock ∈ locksOf (Thread.proc p : Thread Cpu).me lower :=
        List.mem_flatMap.mpr ⟨frame, below, held⟩
      rw [locksOf_of_parks parks above.1] at inside
      exact absurd inside List.not_mem_nil
  · obtain ⟨c, away⟩ := not_forall_not.mp off
    refine ⟨c, away, (coherent.holds.iff lock c).mpr ?_⟩
    rw [away]
    exact listed

/-- The thread that calls `fork` is that of a process, with nothing but other code below. -/
theorem fork_thread (coherent : s.Coherent) {pc : ForkPc}
    (top : s.stack (s.running c) = .fork pc :: rest) :
    rest = [.kernel []] ∧ ∃ p, s.running c = .proc p := by
  have shaped := coherent.shaped (s.running c)
  rw [top] at shaped
  obtain ⟨rfl, base⟩ := shaped
  refine ⟨rfl, ?_⟩
  obtain home | away := coherent.running_cases c
  · rw [home] at base
    exact absurd rfl base.1.2
  · exact away

variable {g : Frame} {np : ProcPtr} {stage : Stage} {proc : Proc}

/-- The writes that do not belong to `fork` leave free slots and those of `fork` alone. -/
theorem state_of_slot (coherent : s.Coherent) (top : s.stack (s.running c) = frame :: rest)
    (acts : Acts (s.view c) frame (.write q proc next))
    (others : ∀ stage, frame.slot ≠ some (q, stage))
    (free : (s.table q).state = .unused ∨ (s.table q).state = .used) :
    proc.state = (s.table q).state := by
  have own (mine : (s.view c).myproc = some q) (unchosen : frame.chosen = none)
      (runs : frame.state = .running) : proc.state = (s.table q).state := by
    have state := coherent.state_of_running (coherent.running_of_mine top unchosen mine) top
    rw [state, runs] at free
    simp at free
  have awake : (s.table q).state ≠ .sleeping := by
    intro asleep
    rw [asleep] at free
    simp at free
  cases acts with
  | quiet isQuiet => cases isQuiet
  | check ready =>
    change (s.table q).state = .runnable at ready
    rw [ready] at free
    simp at free
  | yieldSet mine | sleepSet mine | zombie mine => exact own mine rfl rfl
  | setkilled mine => rfl
  | sleepTidy mine => rfl
  | wakeup => exact congrArg Proc.state (if_neg fun asleep => awake asleep.1)
  | kill same => exact if_neg awake
  | forkUsed | forkFree | forkRunnable => exact absurd rfl (others _)
  | forkParent mine => rfl
  | reparent mine child => rfl
  | reap dead =>
    change (s.table q).state = .zombie at dead
    rw [dead] at free
    simp at free

theorem free_of_slot (slot : s.Slot np stage) :
    (s.table np).state = .unused ∨ (s.table np).state = .used := by
  cases stage with
  | taken => exact .inl slot
  | owned => exact .inr slot
  | ready => exact .inr slot.1

/-- No CPU runs a process that `fork` has not finished. -/
theorem off_of_slot (coherent : s.Coherent) (slot : s.Slot np stage) : s.Off np := by
  intro c away
  have free := free_of_slot slot
  obtain ⟨frame, rest, top⟩ := coherent.exists_top c
  rw [coherent.state_of_running away top] at free
  unfold Frame.state at free
  split at free <;> simp at free

/-- What a frame on top knows of its slot, its thread being that of a process. -/
theorem slot_top (coherent : s.Coherent) (top : s.stack (s.running c) = frame :: rest)
    (slot : frame.slot = some (np, stage)) : s.Slot np stage := by
  obtain ⟨pc, rfl⟩ : ∃ pc, frame = .fork pc := by
    cases frame with
    | fork pc => exact ⟨pc, rfl⟩
    | _ => cases slot
  obtain ⟨rfl, p, away⟩ := coherent.fork_thread top
  rw [away] at top
  exact coherent.slots.slot (by rw [top]; exact List.mem_cons_self) slot

/-- A free slot under a lock is no one else's. -/
theorem owner_of_found (coherent : s.Coherent) (away : s.running c = .proc p)
    (free : (s.table np).state = .unused) (held : s.holder (.proc np) = some c)
    (member : g ∈ s.stack (.proc q)) (slot : g.slot = some (np, stage)) : p = q := by
  have known := coherent.slots.slot member slot
  have isTaken : stage = .taken := by
    cases stage with
    | taken => rfl
    | owned =>
      rw [show (s.table np).state = .used from known] at free
      cases free
    | ready =>
      rw [known.1] at free
      cases free
  subst isTaken
  have listed : .proc np ∈ g.locks (some q) ∧ g.parks = false := by
    unfold Frame.slot at slot
    split at slot <;> cases slot <;> exact ⟨by simp [Frame.locks], rfl⟩
  obtain ⟨c', away', held'⟩ := coherent.exists_holder member listed.1 listed.2
  obtain rfl := Option.some.inj (held.symm.trans held')
  exact Thread.proc.inj (away.symm.trans away')

/-- The scheduler runs in its own thread, with nothing below. -/
theorem home_of_scheduler (coherent : s.Coherent) {pc : SchedulerPc}
    (top : s.stack (s.running c) = .scheduler pc :: rest) : s.running c = .sched c := by
  have shaped := coherent.shaped (s.running c)
  rw [top] at shaped
  obtain home | ⟨p, away⟩ := coherent.running_cases c
  · exact home
  · rw [away] at shaped
    exact absurd shaped.1.2 (Option.some_ne_none p)

theorem picked_top (coherent : s.Coherent) (top : s.stack (s.running c) = frame :: rest)
    (home : s.running c = .sched c) (picked : frame.picked = some q) :
    (s.table q).state = .running ∧ ∀ c', s.current c' = some q → c' = c := by
  cases coherent.cpu c with
  | scheduler _ stack _ isPicked =>
    rw [home, stack] at top
    obtain ⟨rfl, rfl⟩ := List.cons.inj top
    exact isPicked q picked
  | process away =>
    rw [home] at away
    cases away

theorem chosen_top (coherent : s.Coherent) (top : s.stack (s.running c) = frame :: rest)
    (home : s.running c = .sched c) (chosen : frame.chosen = some q) : s.current c = some q := by
  cases coherent.cpu c with
  | scheduler _ stack isCurrent =>
    rw [home, stack] at top
    obtain ⟨rfl, rfl⟩ := List.cons.inj top
    exact isCurrent.trans chosen
  | process away =>
    rw [home] at away
    cases away

/-- Where a process calls `sched`: it holds its own lock only, and is not `RUNNING`, as
`sched` checks. -/
theorem sched_ok (coherent : s.Coherent) (top : s.stack (s.running c) = frame :: rest)
    (acts : Acts (s.view c) frame (.suspend next)) :
    ∃ p, s.running c = .proc p ∧ s.locks (.proc p) = [.proc p] ∧
      Parked (s.table p).state (next ++ rest) := by
  have shaped := coherent.shaped (s.running c)
  rw [top] at shaped
  have finish {p : ProcPtr} (mine : (s.view c).myproc = some p) (unchosen : frame.chosen = none)
      (own : frame.locks (some p) = [.proc p]) (below : locksOf (s.running c).me rest = [])
      (parked : Parked frame.state (next ++ rest)) :
      ∃ p, s.running c = .proc p ∧ s.locks (.proc p) = [.proc p] ∧
        Parked (s.table p).state (next ++ rest) := by
    have away := coherent.running_of_mine top unchosen mine
    refine ⟨p, away, ?_, ?_⟩
    · unfold locks
      rw [away] at top below
      rw [top]
      change frame.locks (some p) ++ locksOf (some p) rest = _
      rw [own]
      exact congrArg _ below
    · rw [coherent.state_of_running away top]
      exact parked
  have parks {top' : Frame} {lower : List Frame} (parks : top'.parks = true) (frame : Frame)
      (rest : List Frame)
      (same : top' :: lower = frame :: rest) : frame.parks = true := by
    rw [← (List.cons.inj same).1]
    exact parks
  cases acts with
  | quiet isQuiet => cases isQuiet
  | yieldSched mine =>
    exact finish mine rfl rfl shaped.1.2.1 ⟨fun _ => ⟨_, _, rfl, nofun⟩, nofun, parks rfl⟩
  | @sleepSched _ caller _ mine =>
    refine finish mine rfl rfl ?_ ⟨nofun, fun _ => ⟨_, _, _, rfl⟩, parks rfl⟩
    cases caller with
    | kernel n =>
      rw [shaped.1.1]
      rfl
    | wait addr =>
      rw [show rest = [.kernel []] from shaped.1]
      rfl
  | exitSched mine =>
    refine finish mine rfl rfl ?_ ⟨nofun, nofun, parks rfl⟩
    rw [show rest = [.kernel []] from shaped.1]
    rfl

end Coherent

end Machine

end Xv6.Kernel.Sched
