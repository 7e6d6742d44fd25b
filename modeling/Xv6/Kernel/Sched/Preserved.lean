import Xv6.Kernel.Sched.Turn

/-!
Every step keeps the machine coherent.

Owns: the case of each kind of instruction, the slots that `fork` works on, and the
invariant over whole runs.

Does not own: what follows from it.
-/

namespace Xv6.Kernel.Sched

open Xv6.Lib Function

variable {Cpu : Type} [DecidableEq Cpu]

namespace Machine

variable {s s' : Machine Cpu} {c c' : Cpu} {p q : ProcPtr} {frame : Frame}
  {rest stack next : List Frame}
  {action : Action}

namespace Coherent

theorem locks_goOn (coherent : s.Coherent) (c : Cpu) (stack : List Frame) :
    (fun c' => (s.goOn c stack).locks (s.running c')) =
      update (fun c' => s.locks (s.running c')) c (locksOf (s.running c).me stack) := by
  funext c'
  unfold locks
  by_cases same : c' = c
  · rw [same, update_self, goOn_stack_self]
  · rw [update_of_ne same, goOn_stack_of_ne fun equal => same (coherent.apart equal)]

theorem holds_goOn (coherent : s.Coherent) (top : s.stack (s.running c) = frame :: rest)
    (next : List Frame) (balanced : locksOf (s.running c).me next = frame.locks (s.running c).me) :
    Holds s.holder fun c' => (s.goOn c (next ++ rest)).locks (s.running c') := by
  rw [coherent.locks_goOn]
  refine coherent.holds.perm (.of_eq ?_)
  unfold locks
  rw [top, locksOf_append, balanced, locksOf_cons]

theorem shaped_goOn (coherent : s.Coherent) (shaped : Shaped (s.running c).me stack)
    (t : Thread Cpu) :
    Shaped t.me ((s.goOn c stack).stack t) := by
  by_cases same : t = s.running c
  · rw [same, goOn_stack_self]
    exact shaped
  · rw [goOn_stack_of_ne same]
    exact coherent.shaped t

theorem stack_of_off (off : s.Off p) : (s.goOn c stack).stack (.proc p) = s.stack (.proc p) :=
  goOn_stack_of_ne fun same => off c same.symm

theorem parked_goOn (coherent : s.Coherent) (off : s.Off p) :
    Parked (s.table p).state ((s.goOn c stack).stack (.proc p)) := by
  rw [stack_of_off off]
  exact coherent.parked p off

theorem cpu_goOn_of_ne (coherent : s.Coherent) (other : c' ≠ c)
    (running : s'.running c' = s.running c')
    (onward : s'.stack = (s.goOn c stack).stack) (current : s'.current c' = s.current c')
    (state : ∀ q, s.running c' = .proc q ∨ s.holder (.proc q) = some c' →
      (s'.table q).state = (s.table q).state)
    (currents : ∀ c'' q, s.holder (.proc q) = some c' → s'.current c'' = some q →
      s.current c'' = some q) :
    s'.OnCpu c' := by
  refine coherent.cpu_of_same running ?_ ?_ current state currents
  · rw [onward]
    exact goOn_stack_of_ne fun equal => other (coherent.apart equal)
  · rw [onward]
    exact goOn_stack_of_ne (coherent.sched_ne other)

theorem eq_of_current (coherent : s.Coherent) (current : s.current c' = some q)
    (held : s.holder (.proc q) = some c) (stopped : (s.table q).state ≠ .running) : c' = c := by
  by_contra other
  cases coherent.cpu c' with
  | scheduler home stack chosen =>
    have locked : s.holder (.proc q) = some c' := by
      refine coherent.holder_top (by rw [home, stack]) ?_
      rw [Frame.locks_of_chosen (chosen.symm.trans current)]
      exact List.mem_singleton_self _
    exact other (Option.some.inj (locked.symm.trans held))
  | process away _ isCurrent =>
    obtain rfl := Option.some.inj (isCurrent.symm.trans current)
    exact stopped (coherent.running_of_holder away held other)

/-- A step that leaves the table, `c->proc` and who runs as they are. -/
theorem quiet (coherent : s.Coherent) (top : s.stack (s.running c) = frame :: rest)
    (unchosen : frame.chosen = none) (shaped : Shaped (s.running c).me stack)
    (settled : Settled (s.running c).me frame.state stack) {holder : Lock → Option Cpu}
    (holds : Holds holder
      (update (fun c' => s.locks (s.running c')) c (locksOf (s.running c).me stack)))
    (nextpid : Int32) (slots : Slots { s.goOn c stack with holder := holder, nextpid := nextpid }) :
    Coherent { s.goOn c stack with holder := holder, nextpid := nextpid } where
  shaped := coherent.shaped_goOn shaped
  holds := by
    rw [← coherent.locks_goOn] at holds
    exact holds
  cpu := by
    intro c'
    by_cases same : c' = c
    · subst same
      obtain ⟨top', lower, rfl, settled⟩ := settled
      refine coherent.cpu_self top unchosen rfl goOn_stack_self
        (fun away => goOn_stack_of_ne (Ne.symm away)) rfl settled.chosen ?_ ?_
      · intro p picked
        rw [settled.picked] at picked
        cases picked
      · intro p away
        refine (coherent.state_of_running away top).trans (settled.state ?_).symm
        rw [away]
        exact Option.some_ne_none p
    · exact coherent.cpu_goOn_of_ne same rfl rfl rfl (fun _ _ => rfl) fun _ _ _ => id
  alone := coherent.alone
  parked := fun p (off : s.Off p) => coherent.parked_goOn off
  slots := slots

variable {instr : Instr} {g : Frame} {np : ProcPtr} {stage : Stage}

theorem slot_of_same (coherent : s.Coherent) (took : Took s c frame rest instr s')
    (slot : s.Slot np stage)
    (same : (s'.table np).state = (s.table np).state) : s'.Slot np stage := by
  cases stage with
  | taken => exact same.trans slot
  | owned => exact same.trans slot
  | ready =>
    refine ⟨same.trans slot.1, ?_⟩
    by_cases fresh : instr.fresh = some np
    · exact took.stack_fresh fresh
    · refine (took.stack_of_ne ?_ ?_).trans slot.2
      · exact fun equal => coherent.off_of_slot slot c equal.symm
      · rintro np' fresh' equal
        cases equal
        exact fresh fresh'

theorem slot_of_old (coherent : s.Coherent) (took : Took s c frame rest instr s')
    (acts : Acts (s.view c) frame instr) (member : g ∈ s.stack (.proc p))
    (below : .proc p = s.running c → g ∈ rest) (slot : g.slot = some (np, stage)) :
    s'.Slot np stage := by
  have before := coherent.slots.slot member slot
  refine coherent.slot_of_same took before ?_
  rw [took.table]
  cases instr with
  | write q proc next =>
    by_cases same : np = q
    · subst same
      rw [Instr.table_write_self]
      refine coherent.state_of_slot took.top acts ?_ (free_of_slot before)
      -- the only frame with this slot is below, so the one on top has another or none
      intro stage' slot'
      obtain ⟨pc, rfl⟩ : ∃ pc, frame = .fork pc := by
        cases frame with
        | fork pc => exact ⟨pc, rfl⟩
        | _ => cases slot'
      obtain ⟨rfl, p', away⟩ := coherent.fork_thread took.top
      have inside : Frame.fork pc ∈ s.stack (.proc p') := by
        rw [← away, took.top]
        exact List.mem_cons_self
      obtain rfl := coherent.slots.owner member inside slot slot'
      obtain rfl := List.mem_singleton.mp (below away.symm)
      cases slot
    · rw [Instr.table_write_of_ne same]
  | _ => rfl

theorem slot_of_new (coherent : s.Coherent) (took : Took s c frame rest instr s')
    (advances : Advances (s.view c) frame instr np stage) : s'.Slot np stage := by
  have unchanged (isQuiet : instr.quiet = true) : (s'.table np).state = (s.table np).state := by
    rw [took.table, Instr.table_of_quiet isQuiet]
  cases advances with
  | same isQuiet slot =>
    exact coherent.slot_of_same took (coherent.slot_top took.top slot) (unchanged isQuiet)
  | fails isQuiet slot => exact (unchanged isQuiet).trans (coherent.slot_top took.top slot).1
  | found isQuiet free => exact (unchanged isQuiet).trans free
  | used =>
    change (s'.table np).state = .used
    rw [took.table, Instr.table_write_self]
  | context =>
    refine ⟨?_, took.stack_fresh rfl⟩
    rw [took.table]
    exact coherent.slot_top took.top rfl
  | parent =>
    refine coherent.slot_of_same took (coherent.slot_top took.top rfl) ?_
    rw [took.table, Instr.table_write_self]
    rfl

theorem slot_origin (coherent : s.Coherent) (took : Took s c frame rest instr s')
    (advances : ∀ {g np stage}, g ∈ instr.next → g.slot = some (np, stage) →
      Advances (s.view c) frame instr np stage)
    (member : g ∈ s'.stack (.proc p)) (slot : g.slot = some (np, stage)) :
    (∃ g' stage', g' ∈ s.stack (.proc p) ∧ g'.slot = some (np, stage')) ∨
      (s.running c = .proc p ∧ (s.table np).state = .unused ∧ s.holder (.proc np) = some c) := by
  obtain ⟨same, isNew⟩ | ⟨old, -⟩ | rfl := took.mem_stack member
  · have inside : frame ∈ s.stack (.proc p) := by
      rw [same, took.top]
      exact List.mem_cons_self
    cases advances isNew slot with
    | same _ slot' | fails _ slot' => exact .inl ⟨_, _, inside, slot'⟩
    | found _ free =>
      exact .inr ⟨same.symm, free, coherent.holder_top took.top (List.mem_singleton_self _)⟩
    | used | context | parent => exact .inl ⟨_, _, inside, rfl⟩
  · exact .inl ⟨_, _, old, slot⟩
  · cases slot

theorem slots_step (coherent : s.Coherent) (took : Took s c frame rest instr s')
    (acts : Acts (s.view c) frame instr)
    (advances : ∀ {g np stage}, g ∈ instr.next → g.slot = some (np, stage) →
      Advances (s.view c) frame instr np stage) : s'.Slots where
  slot := by
    intro p g np stage member slot
    obtain ⟨-, isNew⟩ | ⟨old, below⟩ | rfl := took.mem_stack member
    · exact coherent.slot_of_new took (advances isNew slot)
    · exact coherent.slot_of_old took acts old below slot
    · cases slot
  owner := by
    intro p p' g g' np stage stage' member member' slot slot'
    obtain ⟨f, _, old, oldSlot⟩ | ⟨away, free, held⟩ :=
      coherent.slot_origin took advances member slot
    · obtain ⟨f', _, old', oldSlot'⟩ | ⟨away, free, held⟩ :=
        coherent.slot_origin took advances member' slot'
      · exact coherent.slots.owner old old' oldSlot oldSlot'
      · exact (coherent.owner_of_found away free held old oldSlot).symm
    · obtain ⟨f', _, old', oldSlot'⟩ | ⟨away', -, -⟩ :=
        coherent.slot_origin took advances member' slot'
      · exact coherent.owner_of_found away free held old' oldSlot'
      · exact Thread.proc.inj (away.symm.trans away')

/-- A write to the table. -/
theorem write (coherent : s.Coherent) {proc : Proc}
    (took : Took s c frame rest (.write q proc next) s')
    (acts : Acts (s.view c) frame (.write q proc next))
    (shaped : Shaped (s.running c).me (next ++ rest))
    (balanced : locksOf (s.running c).me next = frame.locks (s.running c).me) (slots : s'.Slots) :
    s'.Coherent := by
  obtain ⟨unchosen, top', lower, rfl, chosen, wasRunning, turn⟩ := coherent.turn took.top acts
  have top := took.top
  have state_ne {p : ProcPtr} (other : p ≠ q) : (s'.table p).state = (s.table p).state := by
    rw [took.table, Instr.table_write_of_ne other]
  have state_self : (s'.table q).state = proc.state := by
    rw [took.table, Instr.table_write_self]
  obtain ⟨-, executes⟩ := took
  cases executes
  refine ⟨coherent.shaped_goOn shaped, coherent.holds_goOn top _ balanced, ?_,
    coherent.alone, ?_, slots⟩
  · intro c'
    by_cases same : c' = c
    · subst same
      refine coherent.cpu_self top unchosen rfl goOn_stack_self
        (fun away => goOn_stack_of_ne (Ne.symm away)) rfl chosen ?_ ?_
      · intro p picked
        cases turn with
        | same _ _ unpicked | own _ _ _ unpicked =>
          rw [unpicked] at picked
          cases picked
        | other held stopped _ _ _ isPicked =>
          obtain ⟨rfl, running⟩ := isPicked p picked
          exact ⟨state_self.trans running,
            fun c'' current => coherent.eq_of_current current held stopped⟩
      · intro p away
        have state := coherent.state_of_running away top
        by_cases equal : p = q
        · subst equal
          refine state_self.trans ?_
          cases turn with
          | same unchanged runs => rw [unchanged, state, wasRunning, runs]
          | own _ _ turned => exact turned
          | other _ stopped => exact absurd (state.trans wasRunning) stopped
        · refine (state_ne equal).trans ?_
          cases turn with
          | same _ runs | other _ _ _ runs => rw [state, wasRunning, runs]
          | own _ away' => exact absurd (Thread.proc.inj (away.symm.trans away')) equal
    · refine coherent.cpu_goOn_of_ne same rfl rfl rfl ?_ fun _ _ _ => id
      intro p involved
      by_cases equal : p = q
      · subst equal
        have excluded (held : s.holder (.proc p) = some c) : s.running c' = .proc p := by
          refine involved.resolve_right fun held' => ?_
          exact same (Option.some.inj (held'.symm.trans held))
        cases turn with
        | same unchanged => exact state_self.trans unchanged
        | own held away => exact absurd (coherent.apart ((excluded held).trans away.symm)) same
        | other held stopped =>
          exact absurd (coherent.running_of_holder (excluded held) held same) stopped
      · exact state_ne equal
  · intro p (off : s.Off p)
    change Parked _ ((s.goOn c _).stack (.proc p))
    rw [stack_of_off off]
    have parked := coherent.parked p off
    by_cases equal : p = q
    · subst equal
      rw [state_self]
      cases turn with
      | same unchanged =>
        rw [unchanged]
        exact parked
      | own _ away => exact absurd away (off c)
      | other _ _ _ _ parks => exact parks off parked
    · rw [state_ne equal]
      exact parked

/-- The scheduler makes the process it picked the current one. -/
theorem assign (coherent : s.Coherent) {left : List ProcPtr}
    (took : Took s c (.scheduler (.assign q left)) rest
      (.setProc (some q) [.scheduler (.swtch q left)]) s')
    (shaped : Shaped (s.running c).me ([.scheduler (.swtch q left)] ++ rest)) (slots : s'.Slots) :
    s'.Coherent := by
  have top := took.top
  have home := coherent.home_of_scheduler top
  have held : s.holder (.proc q) = some c := coherent.holder_top top (List.mem_singleton_self _)
  obtain ⟨running, only⟩ := coherent.picked_top top home rfl
  obtain ⟨-, executes⟩ := took
  cases executes
  have current_cases {c' : Cpu} {p : ProcPtr} (current : update s.current c (some q) c' = some p) :
      (c' = c ∧ p = q) ∨ s.current c' = some p := by
    by_cases same : c' = c
    · rw [same, update_self] at current
      exact .inl ⟨same, (Option.some.inj current).symm⟩
    · rw [update_of_ne same] at current
      exact .inr current
  refine ⟨coherent.shaped_goOn shaped, coherent.holds_goOn top _ rfl, ?_, ?_, ?_, slots⟩
  · intro c'
    by_cases same : c' = c
    · subst same
      refine .scheduler home (goOn_stack_of_running home) (update_self _ _ _) ?_
      intro p picked
      cases picked
      refine ⟨running, fun c'' current => ?_⟩
      obtain ⟨equal, -⟩ | current := current_cases current
      · exact equal
      · exact only c'' current
    · refine coherent.cpu_goOn_of_ne same rfl rfl (update_of_ne same _ _) (fun _ _ => rfl) ?_
      intro c'' p held' current
      obtain ⟨-, rfl⟩ | current := current_cases current
      · exact absurd (Option.some.inj (held'.symm.trans held)) same
      · exact current
  · intro c₁ c₂ p first second
    obtain ⟨rfl, rfl⟩ | before₁ := current_cases first
    · obtain ⟨rfl, -⟩ | before₂ := current_cases second
      · rfl
      · exact (only c₂ before₂).symm
    · obtain ⟨rfl, rfl⟩ | before₂ := current_cases second
      · exact only c₁ before₁
      · exact coherent.alone c₁ c₂ p before₁ before₂
  · exact fun p (off : s.Off p) => coherent.parked_goOn off

/-- The scheduler takes note that the process has stopped. -/
theorem back (coherent : s.Coherent) {left : List ProcPtr}
    (took : Took s c (.scheduler (.back q left)) rest
      (.setProc none [.scheduler (.unlock q left)]) s')
    (shaped : Shaped (s.running c).me ([.scheduler (.unlock q left)] ++ rest)) (slots : s'.Slots) :
    s'.Coherent := by
  have top := took.top
  have home := coherent.home_of_scheduler top
  obtain ⟨-, executes⟩ := took
  cases executes
  have current_of {c' : Cpu} {p : ProcPtr} (current : update s.current c none c' = some p) :
      s.current c' = some p := by
    by_cases same : c' = c
    · rw [same, update_self] at current
      cases current
    · rw [update_of_ne same] at current
      exact current
  refine ⟨coherent.shaped_goOn shaped, coherent.holds_goOn top _ rfl, ?_, ?_, ?_, slots⟩
  · intro c'
    by_cases same : c' = c
    · subst same
      exact .scheduler home (goOn_stack_of_running home) (update_self _ _ _) nofun
    · exact coherent.cpu_goOn_of_ne same rfl rfl (update_of_ne same _ _) (fun _ _ => rfl)
        fun _ _ _ => current_of
  · exact fun c₁ c₂ p first second => coherent.alone c₁ c₂ p (current_of first) (current_of second)
  · exact fun p (off : s.Off p) => coherent.parked_goOn off

theorem resumed {stack : List Frame} (parked : Parked .running stack)
    (shaped : Shaped (some q) stack) :
    locksOf (some q) stack = [.proc q] ∧ ∃ frame rest, stack = frame :: rest ∧
      frame.state = .running := by
  obtain ⟨frame, rest, rfl, alive⟩ := parked.alive (.inr rfl)
  have parks := parked.parks frame rest rfl
  have below := locksOf_of_parks parks shaped.1
  rw [locksOf_cons, below, List.append_nil]
  refine ⟨?_, frame, rest, rfl, ?_⟩
  all_goals
    unfold Frame.parks at parks
    split at parks
    case h_4 status => exact absurd rfl (alive status)
    case h_5 => cases parks
    all_goals rfl

theorem holds_switch (coherent : s.Coherent) (holder : s'.holder = s.holder)
    (onward : s'.stack = (s.goOn c stack).stack) {t : Thread Cpu} (running : s'.running c = t)
    (handed : s'.locks t = s.locks (s.running c))
    (others : ∀ c' ≠ c, s'.running c' = s.running c') :
    Holds s'.holder fun c' => s'.locks (s'.running c') := by
  have same : (fun c' => s'.locks (s'.running c')) = fun c' => s.locks (s.running c') := by
    funext c'
    by_cases same : c' = c
    · rw [same, running]
      exact handed
    · rw [others c' same]
      unfold locks
      rw [onward, goOn_stack_of_ne fun equal => same (coherent.apart equal)]
  rw [same, holder]
  exact coherent.holds

/-- The scheduler switches to the process it picked. -/
theorem resume (coherent : s.Coherent) {left : List ProcPtr}
    (took : Took s c (.scheduler (.swtch q left)) rest (.resume q [.scheduler (.back q left)]) s')
    (shaped : Shaped (s.running c).me ([.scheduler (.back q left)] ++ rest)) (slots : s'.Slots) :
    s'.Coherent := by
  have top := took.top
  have home := coherent.home_of_scheduler top
  obtain ⟨running, only⟩ := coherent.picked_top top home rfl
  have off : s.Off q := by
    intro c' away
    obtain rfl := only c' (coherent.current_of_running away)
    rw [home] at away
    cases away
  have current : s.current c = some q := coherent.chosen_top top home rfl
  have alone : rest = [] := by
    have before := coherent.shaped (s.running c)
    rw [top] at before
    exact before.1.1
  obtain ⟨-, executes⟩ := took
  cases executes
  subst alone
  have parked := coherent.parked q off
  rw [running] at parked
  obtain ⟨locks, frame, lower, stack, state⟩ := resumed parked (coherent.shaped (.proc q))
  refine ⟨coherent.shaped_goOn shaped, ?_, ?_, coherent.alone, ?_, slots⟩
  · -- the lock that the scheduler took is the one the process will release
    refine coherent.holds_switch rfl rfl (update_self _ _ _) ?_
      fun c' other => update_of_ne other _ _
    refine (congrArg (locksOf (some q)) (stack_of_off off)).trans (locks.trans ?_)
    unfold Machine.locks
    rw [top]
    rfl
  · intro c'
    by_cases same : c' = c
    · subst same
      exact .process (update_self _ _ _) ((stack_of_off off).trans stack) current
        (running.trans state.symm) (goOn_stack_of_running home)
    · exact coherent.cpu_goOn_of_ne same (update_of_ne same _ _) rfl rfl (fun _ _ => rfl)
        fun _ _ _ => id
  · intro p off'
    refine coherent.parked_goOn fun c' away => ?_
    by_cases same : c' = c
    · rw [same, home] at away
      cases away
    · exact off' c' ((update_of_ne same _ _).trans away)

/-- A process gives up its CPU. -/
theorem suspend (coherent : s.Coherent) (took : Took s c frame rest (.suspend next) s')
    (acts : Acts (s.view c) frame (.suspend next)) (shaped : Shaped (s.running c).me (next ++ rest))
    (slots : s'.Slots) : s'.Coherent := by
  obtain ⟨p, away, locks, parked⟩ := coherent.sched_ok took.top acts
  have current := coherent.current_of_running away
  obtain ⟨-, executes⟩ := took
  cases executes
  obtain ⟨left, home⟩ : ∃ left, s.stack (.sched c) = [.scheduler (.back p left)] := by
    cases coherent.cpu c with
    | scheduler home =>
      rw [away] at home
      cases home
    | process away' _ _ _ home =>
      obtain rfl := Thread.proc.inj (away.symm.trans away')
      exact ⟨_, home⟩
  have below : (s.goOn c (next ++ rest)).stack (.sched c) = [.scheduler (.back p left)] := by
    refine (goOn_stack_of_ne ?_).trans home
    rw [away]
    exact nofun
  refine ⟨coherent.shaped_goOn shaped, ?_, ?_, coherent.alone, ?_, slots⟩
  · refine coherent.holds_switch rfl rfl (update_self _ _ _) ?_
      fun c' other => update_of_ne other _ _
    refine (congrArg (locksOf none) below).trans ?_
    rw [away, locks]
    rfl
  · intro c'
    by_cases same : c' = c
    · subst same
      exact .scheduler (update_self _ _ _) below current nofun
    · exact coherent.cpu_goOn_of_ne same (update_of_ne same _ _) rfl rfl (fun _ _ => rfl)
        fun _ _ _ => id
  · intro p' off'
    by_cases same : p' = p
    · subst same
      change Parked _ ((s.goOn c _).stack (.proc p'))
      rw [goOn_stack_of_running away]
      exact parked
    · refine coherent.parked_goOn fun c' away' => ?_
      by_cases equal : c' = c
      · rw [equal, away] at away'
        exact same (Thread.proc.inj away').symm
      · exact off' c' ((update_of_ne equal _ _).trans away')

end Coherent

/-- The thread of a process that `fork` has not finished starts anew. -/
def restart (s : Machine Cpu) (np : ProcPtr) : Machine Cpu :=
  { s with stack := update s.stack (.proc np) [.forkret] }

theorem restart_stack_of_ne {np : ProcPtr} {t : Thread Cpu} (other : t ≠ .proc np) :
    (s.restart np).stack t = s.stack t := update_of_ne other _ _

theorem restart_stack_self {np : ProcPtr} : (s.restart np).stack (.proc np) = [.forkret] :=
  update_self _ _ _

theorem Slots.restart (slots : s.Slots) (np : ProcPtr) : (s.restart np).Slots := by
  have old {p : ProcPtr} {g : Frame} {q : ProcPtr} {stage : Stage}
      (member : g ∈ (s.restart np).stack (.proc p))
      (slot : g.slot = some (q, stage)) : g ∈ s.stack (.proc p) := by
    by_cases same : p = np
    · rw [same, restart_stack_self] at member
      rw [List.mem_singleton.mp member] at slot
      cases slot
    · rwa [restart_stack_of_ne fun equal => same (Thread.proc.inj equal)] at member
  constructor
  · intro p g q stage member slot
    have before := slots.slot (old member slot) slot
    cases stage with
    | taken => exact before
    | owned => exact before
    | ready =>
      refine ⟨before.1, ?_⟩
      by_cases same : q = np
      · rw [same, restart_stack_self]
      · rw [restart_stack_of_ne fun equal => same (Thread.proc.inj equal)]
        exact before.2
  · intro p p' g g' q stage stage' member member' slot slot'
    exact slots.owner (old member slot) (old member' slot') slot slot'

theorem Coherent.restart (coherent : s.Coherent) {np : ProcPtr} (used : (s.table np).state = .used)
    (off : s.Off np) : (s.restart np).Coherent where
  shaped := by
    intro t
    by_cases same : t = .proc np
    · rw [same, restart_stack_self]
      exact ⟨⟨rfl, Option.some_ne_none np⟩, trivial⟩
    · rw [restart_stack_of_ne same]
      exact coherent.shaped t
  holds := by
    have same : (fun c => (s.restart np).locks (s.running c)) = fun c => s.locks (s.running c) := by
      funext c
      unfold locks
      rw [restart_stack_of_ne (off c)]
    change Holds s.holder fun c => (s.restart np).locks (s.running c)
    rw [same]
    exact coherent.holds
  cpu := fun c => coherent.cpu_of_same rfl (restart_stack_of_ne (off c))
    (restart_stack_of_ne nofun) rfl
    (fun _ _ => rfl) fun _ _ _ => id
  alone := coherent.alone
  parked := by
    intro p (off' : s.Off p)
    by_cases same : p = np
    · rw [same, restart_stack_self]
      change Parked (s.table np).state _
      rw [used]
      refine ⟨nofun, nofun, ?_⟩
      rintro frame rest ⟨⟩
      rfl
    · rw [restart_stack_of_ne fun equal => same (Thread.proc.inj equal)]
      exact coherent.parked p off'
  slots := coherent.slots.restart np

/-- `allocproc` sets up the context of the process that `fork` makes. -/
theorem Coherent.context (coherent : s.Coherent) {np : ProcPtr} {pid : Int32}
    (took : Took s c (.fork (.context np pid)) rest (.context np [.fork (.copy np pid)]) s')
    (shaped : Shaped (s.running c).me ([.fork (.copy np pid)] ++ rest)) (slots : s'.Slots) :
    s'.Coherent := by
  have used : (s.table np).state = .used := coherent.slot_top took.top rfl
  have off := coherent.off_of_slot (show s.Slot np .owned from used)
  have top : (s.restart np).stack (s.running c) = .fork (.context np pid) :: rest := by
    rw [restart_stack_of_ne (off c)]
    exact took.top
  obtain ⟨-, executes⟩ := took
  cases executes
  have commuted : ({ s.goOn c ([.fork (.copy np pid)] ++ rest) with
        stack := update (s.goOn c ([.fork (.copy np pid)] ++ rest)).stack (.proc np) [.forkret] } :
      Machine Cpu) = (s.restart np).goOn c ([.fork (.copy np pid)] ++ rest) := by
    unfold goOn Machine.restart
    rw [update_comm (off c)]
  rw [commuted] at slots ⊢
  have again := coherent.restart used off
  refine again.quiet top rfl shaped ⟨_, _, rfl, rfl, rfl, fun _ => rfl⟩ ?_ _ slots
  have holds := again.holds_goOn top [.fork (.copy np pid)] rfl
  rw [again.locks_goOn] at holds
  exact holds

/-- Acquiring, releasing, or neither. -/
theorem Coherent.goOn (coherent : s.Coherent) {instr : Instr} (took : Took s c frame rest instr s')
    (isQuiet : instr.quiet = true) (unchosen : frame.chosen = none)
    (shaped : Shaped (s.running c).me (instr.next ++ rest))
    (balanced : instr.Balanced (s.running c).me frame)
    (settled : Settled (s.running c).me frame.state (instr.next ++ rest)) (slots : s'.Slots) :
    s'.Coherent := by
  have top := took.top
  have before : s.locks (s.running c) = frame.locks (s.running c).me ++
      locksOf (s.running c).me rest := by
    unfold locks
    rw [top, locksOf_cons]
  obtain ⟨-, executes⟩ := took
  cases executes with
  | goto | takePid =>
    refine coherent.quiet top unchosen shaped settled ?_ _ slots
    rw [← coherent.locks_goOn]
    exact coherent.holds_goOn top _ balanced
  | acquire free =>
    refine coherent.quiet top unchosen shaped settled (coherent.holds.acquire free ?_) _ slots
    rw [before, locksOf_append]
    exact balanced.append_right _
  | release =>
    refine coherent.quiet top unchosen shaped settled (coherent.holds.release ?_) _ slots
    rw [before, locksOf_append]
    exact balanced.append_right _
  | _ => cases isQuiet

/-- Every step keeps the machine coherent. -/
theorem Coherent.step (coherent : s.Coherent) (stepped : s.step (c, action) = some s') :
    s'.Coherent := by
  obtain ⟨frame, rest, took⟩ := exists_took stepped
  have mine := coherent.mine took.top
  have before := coherent.shaped (s.running c)
  rw [took.top] at before
  have shaped := instr_shaped mine before action
  have balanced := instr_balanced mine rest action
  have settles := instr_settles mine before.1 action
  have moves : (s.view c).instr frame rest action ≠ .stuck := by
    intro stuck
    have executes := took.executes
    rw [stuck] at executes
    cases executes
  have acts := instr_acts (s.view c) frame rest action
  have slots := coherent.slots_step took acts instr_advances
  have calm (isQuiet : ((s.view c).instr frame rest action).quiet = true) : s'.Coherent :=
    coherent.goOn took isQuiet (chosen_of_quiet isQuiet moves) shaped balanced
      (settles isQuiet moves) slots
  generalize (s.view c).instr frame rest action = instr at *
  cases instr with
  | write q proc next => exact coherent.write took acts shaped balanced slots
  | suspend next => exact coherent.suspend took acts shaped slots
  | setProc q next =>
    cases acts with
    | quiet isQuiet => cases isQuiet
    | assign => exact coherent.assign took shaped slots
    | back => exact coherent.back took shaped slots
  | resume q next =>
    cases acts with
    | quiet isQuiet => cases isQuiet
    | swtch => exact coherent.resume took shaped slots
  | context np next =>
    cases acts with
    | quiet isQuiet => cases isQuiet
    | forkContext => exact coherent.context took shaped slots
  | _ => exact calm rfl

/-- The invariant holds in every run. -/
theorem Runs.coherent {steps : List (Machine Cpu × Cpu × Action)} (run : Runs steps s) :
    s.Coherent := by
  refine Run.invariant Coherent ?_ ?_ run
  · rintro _ rfl
    exact booted_coherent
  · exact fun _ _ _ coherent stepped => coherent.step stepped

end Machine

end Xv6.Kernel.Sched
