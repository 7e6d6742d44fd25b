import Xv6.Kernel.Sched.Preserved

/-!
No wakeup is lost.

Owns: since when a process sleeps, what `wakeup` has done to the slots it has looked at, and
that a process still asleep when `wakeup` returns went to sleep after it was called.

Does not own: what processes wait for.
-/

namespace Xv6.Kernel.Sched

open Xv6.Lib

/-- The slots that `wakeup` has yet to deal with. -/
def WakeupPc.left : WakeupPc → List ProcPtr
  | .scan rest => rest
  | .check p rest => p :: rest
  | .unlock _ rest => rest

/-- When the sleep in a frame began, up to where the process goes on after it. -/
def Frame.asleepSince : Frame → Option Nat
  | .sleep _ (.set _ released) => some released
  | .sleep _ (.sched released) => some released
  | .sleep _ (.tidy released) => some released
  | _ => none

/-- How a frame comes to be that of a process asleep. -/
inductive FallsAsleep (v : View) : Frame → Instr → Frame → Prop where
  | stays {frame : Frame} {instr : Instr} (isQuiet : instr.quiet = true) :
      FallsAsleep v frame instr frame
  | release {caller : Caller} {chan : Chan} :
      FallsAsleep v (.sleep caller (.release chan))
        (.release caller.lk [.sleep caller (.set chan v.clock)]) (.sleep caller (.set chan v.clock))
  | set {p : ProcPtr} {caller : Caller} {chan : Chan} {released : Nat} (mine : v.myproc = some p) :
      FallsAsleep v (.sleep caller (.set chan released))
        (.write p { v.table p with chan := some chan, state := .sleeping }
          [.sleep caller (.sched released)])
        (.sleep caller (.sched released))
  | sched {caller : Caller} {released : Nat} :
      FallsAsleep v (.sleep caller (.sched released)) (.suspend [.sleep caller (.tidy released)])
        (.sleep caller (.tidy released))

section

variable {v : View} {frame g : Frame} {rest : List Frame} {action : Action} {ok : Bool}
  {released : Nat}

theorem sleep_fallsAsleep {p : ProcPtr} {caller : Caller} {pc : SleepPc} (mine : v.myproc = some p)
    (member : g ∈ (v.sleep p caller pc).next) (since : g.asleepSince = some released) :
    FallsAsleep v (.sleep caller pc) (v.sleep p caller pc) g := by
  cases pc with
  | reacquire =>
    cases List.mem_singleton.mp member
    cases caller <;> cases since
  | release chan =>
    cases List.mem_singleton.mp member
    exact .release
  | set chan released =>
    cases List.mem_singleton.mp member
    exact .set mine
  | sched released =>
    cases List.mem_singleton.mp member
    exact .sched
  | _ =>
    cases List.mem_singleton.mp member
    cases since

theorem code_fallsAsleep (member : g ∈ (v.code ok frame).next)
    (since : g.asleepSince = some released) :
    FallsAsleep v frame (v.code ok frame) g := by
  by_cases sleeps : ∃ caller pc, frame = .sleep caller pc
  · obtain ⟨caller, pc, rfl⟩ := sleeps
    revert member
    change g ∈ (v.byProcess fun p => v.sleep p caller pc).next → FallsAsleep v _ (v.byProcess _) g
    exact byProcess_cases (fun instr => g ∈ instr.next → FallsAsleep v _ instr g)
      (fun member => absurd member List.not_mem_nil) fun p mine member =>
        sleep_fallsAsleep mine member since
  · have follows := code_follows v ok frame
    generalize (v.code ok frame).next = next at *
    cases follows with
    | sleep | resume => exact absurd ⟨_, _, rfl⟩ sleeps
    | exitCalls =>
      rcases List.mem_pair.mp member with rfl | rfl <;> cases since
    | pop => exact absurd member List.not_mem_nil
    | _ =>
      cases List.mem_singleton.mp member
      cases since

theorem instr_fallsAsleep (member : g ∈ (v.instr frame rest action).next)
    (since : g.asleepSince = some released) :
    FallsAsleep v frame (v.instr frame rest action) g := by
  obtain ⟨ok, same⟩ | ⟨isQuiet, rfl | begins⟩ := instr_origin member
  · rw [same] at member ⊢
    exact code_fallsAsleep member since
  · exact .stays isQuiet
  · cases begins <;> cases since

theorem code_wakeup {chan : Option Chan} {called : Nat} {pc : WakeupPc}
    (member : .wakeup chan called pc ∈ (v.code ok frame).next) :
    (called = v.clock ∧ pc = .scan slots) ∨ ∃ pc', frame = .wakeup chan called pc' := by
  by_cases exits : ∃ status pc', frame = .exit status pc'
  · obtain ⟨status, pc', rfl⟩ := exits
    revert member
    refine byProcess_cases (fun instr => _ ∈ instr.next → _)
      (fun member => absurd member List.not_mem_nil)
      fun p _ => ?_
    fun_cases View.exit v p status pc' <;> intro member
    all_goals first
      | cases List.mem_singleton.mp member
      | (rcases List.mem_pair.mp member with same | same <;> cases same; exact .inl ⟨rfl, rfl⟩)
      | cases member
  · have follows := code_follows v ok frame
    generalize (v.code ok frame).next = next at *
    cases follows with
    | wakeup =>
      cases List.mem_singleton.mp member
      exact .inr ⟨_, rfl⟩
    | resume =>
      rename_i caller _
      cases caller <;> cases List.mem_singleton.mp member
    | exitCalls => exact absurd ⟨_, _, rfl⟩ exits
    | pop => exact absurd member List.not_mem_nil
    | _ => cases List.mem_singleton.mp member

theorem asleepSince_of_returns {g : Frame} {p : ProcPtr}
    (returns : Returns (some p) g (frame :: rest)) :
    frame.asleepSince = none := by
  have awake (free : .proc p ∉ frame.locks (some p) ∨ frame.callsWakeup = true) :
      frame.asleepSince = none := by
    unfold Frame.asleepSince
    split
    case h_4 => rfl
    all_goals simp [Frame.locks, Frame.callsWakeup] at free
  cases returns with
  | free nonempty unlocked =>
    rw [(List.append_eq_nil_iff.mp unlocked).1] at awake
    exact awake (.inl List.not_mem_nil)
  | wakeup calls => exact awake (.inr calls)

theorem sleeping_of_acts {q : ProcPtr} {proc : Proc} {next : List Frame}
    (acts : Acts v frame (.write q proc next))
    (other : v.myproc = some q → frame.chosen ≠ none) (asleep : proc.state = .sleeping) :
    (v.table q).state = .sleeping ∧ (v.table q).chan = proc.chan := by
  cases acts with
  | quiet isQuiet => cases isQuiet
  | yieldSet mine | setkilled mine | sleepSet mine | sleepTidy mine | zombie mine =>
    exact absurd rfl (other mine)
  | @wakeup _ chan =>
    by_cases woken : (v.table q).state = .sleeping ∧ (v.table q).chan = chan
    · rw [show (v.table q).woken chan = _ from if_pos woken] at asleep
      cases asleep
    · rw [show (v.table q).woken chan = _ from if_neg woken] at asleep ⊢
      exact ⟨asleep, rfl⟩
  | kill same =>
    change (if (v.table q).state = .sleeping then _ else _) = _ at asleep
    split_ifs at asleep with sleeping
    exact absurd asleep sleeping
  | forkParent mine => exact ⟨asleep, rfl⟩
  | reparent mine child => exact ⟨asleep, rfl⟩
  | _ => cases asleep

end

variable {Cpu : Type}

namespace Machine

/-- The process sleeps on `chan`, or has released the lock it gave to `sleep` and is about
to. -/
def Asleep (s : Machine Cpu) (q : ProcPtr) (chan : Option Chan) : Prop :=
  ((s.table q).state = .sleeping ∧ (s.table q).chan = chan) ∨
    ∃ caller c released rest, chan = some c ∧
      s.stack (.proc q) = .sleep caller (.set c released) :: rest

/-- The same, with the time at which the lock was released. -/
def AsleepSince (s : Machine Cpu) (q : ProcPtr) (chan : Option Chan) (released : Nat) : Prop :=
  s.Asleep q chan ∧ ∃ frame rest, s.stack (.proc q) = frame :: rest ∧
    frame.asleepSince = some released

variable {s s' : Machine Cpu} {c : Cpu} {p q : ProcPtr} {frame : Frame} {rest next : List Frame}
  {action : Action} {steps : List (Machine Cpu × Cpu × Action)} {chan : Option Chan}
  {released : Nat}

/-- Who sleeps has a time since when. -/
theorem Coherent.asleepSince (coherent : s.Coherent) (asleep : s.Asleep q chan) :
    ∃ released, s.AsleepSince q chan released := by
  have known := asleep
  obtain ⟨sleeping, -⟩ | ⟨caller, _, released, rest, -, stack⟩ := asleep
  · by_cases off : s.Off q
    · obtain ⟨caller, released, rest, stack⟩ := (coherent.parked q off).asleep sleeping
      exact ⟨released, known, _, _, stack, rfl⟩
    · obtain ⟨c, away⟩ := not_forall_not.mp off
      obtain ⟨frame, rest, top⟩ := coherent.exists_top c
      have state := coherent.state_of_running away top
      rw [sleeping] at state
      rw [away] at top
      unfold Frame.state at state
      split at state
      case h_2 released => exact ⟨released, known, _, _, top, rfl⟩
      all_goals cases state
  · exact ⟨released, known, _, _, stack, rfl⟩

theorem Coherent.sleeping_of_holder (coherent : s.Coherent) (asleep : s.Asleep q chan)
    (held : s.holder (.proc q) = some c) (other : s.running c ≠ .proc q) :
    (s.table q).state = .sleeping ∧ (s.table q).chan = chan := by
  obtain sleeping | ⟨caller, ch, released, rest, -, stack⟩ := asleep
  · exact sleeping
  · have member : Frame.sleep caller (.set ch released) ∈ s.stack (.proc q) := by
      rw [stack]
      exact List.mem_cons_self
    obtain ⟨c', away, held'⟩ := coherent.exists_holder member List.mem_cons_self rfl
    obtain rfl := Option.some.inj (held.symm.trans held')
    exact absurd away other

theorem Coherent.not_asleep (coherent : s.Coherent) (away : s.running c = .proc q)
    (top : s.stack (s.running c) = frame :: rest) (runs : frame.state = .running)
    (awake : frame.asleepSince = none) : ¬s.Asleep q chan := by
  rintro (⟨sleeping, -⟩ | ⟨caller, ch, released, lower, -, stack⟩)
  · rw [coherent.state_of_running away top, runs] at sleeping
    cases sleeping
  · rw [away, stack] at top
    obtain ⟨rfl, rfl⟩ := List.cons.inj top
    cases awake

variable [DecidableEq Cpu]

/-- Others cannot put a process to sleep. -/
theorem Coherent.asleep_of_other (coherent : s.Coherent) {instr : Instr}
    (took : Took s c frame rest instr s') (acts : Acts (s.view c) frame instr)
    (other : s.running c ≠ .proc q) (asleep : (s'.table q).state = .sleeping) :
    (s.table q).state = .sleeping ∧ (s.table q).chan = (s'.table q).chan := by
  rw [took.table] at asleep ⊢
  cases instr with
  | write p proc next =>
    by_cases same : p = q
    · subst same
      rw [Instr.table_write_self] at asleep ⊢
      refine sleeping_of_acts acts ?_ asleep
      exact fun mine unchosen => other (coherent.running_of_mine took.top unchosen mine)
    · rw [Instr.table_write_of_ne (Ne.symm same)] at asleep ⊢
      exact ⟨asleep, rfl⟩
  | _ => exact ⟨asleep, rfl⟩

theorem Coherent.asleep_step_of_other (coherent : s.Coherent) {instr : Instr}
    (took : Took s c frame rest instr s') (acts : Acts (s.view c) frame instr)
    (other : s.running c ≠ .proc q)
    (asleep : s'.AsleepSince q chan released) : s.AsleepSince q chan released := by
  obtain ⟨sleeps, top, lower, stack, since⟩ := asleep
  have same : s'.stack (.proc q) = s.stack (.proc q) := by
    refine (took.stack_other (Ne.symm other)).resolve_right fun fresh => ?_
    rw [stack] at fresh
    obtain ⟨rfl, -⟩ := List.cons.inj fresh
    cases since
  refine ⟨?_, top, lower, same.symm.trans stack, since⟩
  obtain ⟨sleeping, on⟩ | ⟨caller, ch, at_, below, on, soon⟩ := sleeps
  · obtain ⟨was, unchanged⟩ := coherent.asleep_of_other took acts other sleeping
    exact .inl ⟨was, unchanged.trans on⟩
  · exact .inr ⟨caller, ch, at_, below, on, same.symm.trans soon⟩

/-- How the thread that makes a step comes to be that of a process asleep. -/
theorem Coherent.fallsAsleep (coherent : s.Coherent)
    (took : Took s c frame rest ((s.view c).instr frame rest action) s')
    (away : s.running c = .proc q)
    {top : Frame} {lower : List Frame} (stack : s'.stack (.proc q) = top :: lower)
    (since : top.asleepSince = some released) :
    FallsAsleep (s.view c) frame ((s.view c).instr frame rest action) top := by
  have shaped := coherent.shaped (s.running c)
  have onward := coherent.stack_running took (instr_acts (s.view c) frame rest action)
  rw [took.top] at shaped
  rw [away] at shaped onward
  rw [stack] at onward
  suffices isNew : top ∈ ((s.view c).instr frame rest action).next from
      instr_fallsAsleep isNew since
  cases next : ((s.view c).instr frame rest action).next with
  | nil =>
    -- no function returns into a `sleep` that holds the lock of the process
    have returns := instr_returns shaped.1 took.moves next
    rw [next, List.nil_append] at onward
    rw [← onward] at returns
    rw [asleepSince_of_returns returns] at since
    cases since
  | cons head tail =>
    rw [next] at onward
    rw [(List.cons.inj onward).1]
    exact List.mem_cons_self

/-- A process falls asleep by releasing the lock it gave to `sleep`, and in no other way. -/
theorem Coherent.asleep_step (coherent : s.Coherent) (stepped : s.step (c, action) = some s')
    (asleep : s'.AsleepSince q chan released) :
    s.AsleepSince q chan released ∨
      (released = s.clock ∧ s.running c = .proc q ∧
        ∃ caller ch rest, chan = some ch ∧
          s.stack (.proc q) = .sleep caller (.release ch) :: rest) := by
  obtain ⟨frame, rest, took⟩ := exists_took stepped
  have acts := instr_acts (s.view c) frame rest action
  by_cases away : s.running c = .proc q
  case neg => exact .inl (coherent.asleep_step_of_other took acts away asleep)
  obtain ⟨sleeps, top, lower, stack, since⟩ := asleep
  have falls := coherent.fallsAsleep took away stack since
  have below := took.top
  rw [away] at below
  generalize (s.view c).instr frame rest action = instr at *
  cases falls with
  | stays isQuiet =>
    refine .inl ⟨?_, _, _, below, since⟩
    obtain sleeping | ⟨caller, ch, at_, rest', on, soon⟩ := sleeps
    · rw [took.table, Instr.table_of_quiet isQuiet] at sleeping
      exact .inl sleeping
    · rw [stack] at soon
      obtain ⟨rfl, -⟩ := List.cons.inj soon
      exact .inr ⟨caller, ch, at_, rest, on, below⟩
  | @release caller ch =>
    refine .inr ⟨(Option.some.inj since).symm, away, caller, ch, rest, ?_, below⟩
    obtain ⟨sleeping, -⟩ | ⟨_, _, _, _, on, soon⟩ := sleeps
    · rw [took.table, show Instr.table s.table (.release caller.lk _) = s.table from
        rfl] at sleeping
      rw [coherent.state_of_running away took.top] at sleeping
      cases sleeping
    · rw [stack] at soon
      cases (List.cons.inj soon).1
      exact on
  | @set p caller ch at_ mine =>
    obtain rfl : p = q := by
      have current := coherent.running_of_mine took.top rfl mine
      rw [away] at current
      exact (Thread.proc.inj current).symm
    refine .inl ⟨.inr ⟨caller, ch, at_, rest, ?_, below⟩, _, _, below, since⟩
    obtain ⟨-, on⟩ | ⟨_, _, _, _, _, soon⟩ := sleeps
    · rw [took.table, Instr.table_write_self] at on
      exact on.symm
    · rw [stack] at soon
      cases (List.cons.inj soon).1
  | sched =>
    refine .inl ⟨.inl ?_, _, _, below, since⟩
    obtain sleeping | ⟨_, _, _, _, _, soon⟩ := sleeps
    · rw [took.table] at sleeping
      exact sleeping
    · rw [stack] at soon
      cases (List.cons.inj soon).1

/-- `wakeup` leaves behind no slot whose process sleeps on the channel. -/
theorem Coherent.left_of_wakeup (coherent : s.Coherent) (coherent' : s'.Coherent) {called : Nat}
    {pc pc' : WakeupPc}
    (took : Took s c (.wakeup chan called pc) rest ((s.view c).wakeup chan called pc) s')
    (goesOn : .wakeup chan called pc' ∈ ((s.view c).wakeup chan called pc).next)
    (done : q ∉ pc'.left)
    (asleep : s.Asleep q chan) (asleep' : s'.Asleep q chan) : q ∉ pc.left := by
  have notSelf (away : s.running c = .proc q) : False :=
    coherent.not_asleep away took.top rfl rfl asleep
  cases pc with
  | scan slots =>
    cases slots with
    | nil => exact absurd goesOn List.not_mem_nil
    | cons p slots =>
      change _ ∈ (if (s.view c).myproc = some p then _ else _ : Instr).next at goesOn
      split_ifs at goesOn with mine
      · cases List.mem_singleton.mp goesOn
        refine List.not_mem_cons_of_ne_of_not_mem ?_ done
        rintro rfl
        exact notSelf (coherent.running_of_mine took.top rfl mine)
      · cases List.mem_singleton.mp goesOn
        exact done
  | check p slots =>
    cases List.mem_singleton.mp goesOn
    refine List.not_mem_cons_of_ne_of_not_mem ?_ done
    rintro rfl
    -- the lock of the process is held, so if it is asleep it has been switched away from
    have held : s.holder (.proc q) = some c :=
      coherent.holder_top took.top (List.mem_singleton_self _)
    have table : s'.table q = (s.table q).woken chan := by
      rw [took.table]
      exact Instr.table_write_self
    obtain ⟨-, executes⟩ := took
    cases executes
    obtain ⟨sleeping, on⟩ := coherent'.sleeping_of_holder asleep' held notSelf
    rw [table] at sleeping on
    unfold Proc.woken at sleeping on
    split_ifs at sleeping on with woken
    exact woken ⟨sleeping, on⟩
  | unlock p slots =>
    cases List.mem_singleton.mp goesOn
    exact done

/-- Whoever sleeps on the channel of a `wakeup` that has passed it fell asleep after the call. -/
def Swept (s : Machine Cpu) : Prop :=
  ∀ {t chan called pc}, .wakeup chan called pc ∈ s.stack t →
    called < s.clock ∧ ∀ q ∉ pc.left, ∀ released, s.AsleepSince q chan released → called < released

theorem Coherent.swept_of_old (coherent : s.Coherent) (stepped : s.step (c, action) = some s')
    (clock : s'.clock = s.clock + 1) {called : Nat} {pc pc' : WakeupPc}
    (swept : called < s.clock ∧ ∀ q ∉ pc.left, ∀ released, s.AsleepSince q chan released →
      called < released)
    (left : ∀ q ∉ pc'.left, s.Asleep q chan → s'.Asleep q chan → q ∉ pc.left) :
    called < s'.clock ∧ ∀ q ∉ pc'.left, ∀ released, s'.AsleepSince q chan released →
      called < released := by
  rw [clock]
  refine ⟨Nat.lt_succ_of_lt swept.1, fun q done released asleep => ?_⟩
  obtain before | ⟨rfl, -⟩ := coherent.asleep_step stepped asleep
  · exact swept.2 q (left q done before.1 asleep.1) released before
  · exact swept.1

theorem swept_step (coherent : s.Coherent) (swept : s.Swept)
    (stepped : s.step (c, action) = some s') :
    s'.Swept := by
  have coherent' := coherent.step stepped
  obtain ⟨frame, rest, took⟩ := exists_took stepped
  intro t chan called pc member
  have call (same : called = s.clock ∧ pc = .scan slots) :
      called < s'.clock ∧ ∀ q ∉ pc.left, ∀ released, s'.AsleepSince q chan released →
        called < released := by
    obtain ⟨rfl, rfl⟩ := same
    rw [took.clock]
    exact ⟨Nat.lt_succ_self _, fun q done => absurd (mem_slots q) done⟩
  obtain ⟨rfl, isNew⟩ | ⟨old, -⟩ | other := took.mem_stack member
  · have inside : frame ∈ s.stack (s.running c) := took.top ▸ List.mem_cons_self
    obtain ⟨ok, same⟩ | ⟨-, rfl | begins⟩ := instr_origin isNew
    · rw [same] at isNew took
      obtain begun | ⟨pc', rfl⟩ := code_wakeup isNew
      · exact call begun
      · exact coherent.swept_of_old stepped took.clock (swept inside) fun q =>
          coherent.left_of_wakeup coherent' took isNew
    · exact coherent.swept_of_old stepped took.clock (swept inside) fun q done _ _ => done
    · cases begins
      exact call ⟨rfl, rfl⟩
  · exact coherent.swept_of_old stepped took.clock (swept old) fun q done _ _ => done
  · cases other

theorem Runs.swept (run : Runs steps s) : s.Coherent ∧ s.Swept := by
  refine run.invariant (fun s => s.Coherent ∧ s.Swept) ?_ ?_
  · rintro s rfl
    refine ⟨booted_coherent, ?_⟩
    intro t chan called pc member
    cases t with
    | sched c => cases List.mem_singleton.mp member
    | proc p => cases mem_booted member
  · rintro s label s' ⟨coherent, swept⟩ stepped
    exact ⟨coherent.step stepped, swept_step coherent swept stepped⟩

/-- The step of a run in which a process, in `sleep` on `chan`, released the lock it gave. -/
def ReleasedIn (steps : List (Machine Cpu × Cpu × Action)) (q : ProcPtr) (chan : Option Chan)
    (n : Nat) : Prop :=
  ∃ before, steps[n]? = some before ∧ before.1.running before.2.1 = .proc q ∧
    ∃ caller ch rest, chan = some ch ∧
      before.1.stack (.proc q) = .sleep caller (.release ch) :: rest

/-- The step of a run in which a thread called `wakeup`. -/
def CalledIn (steps : List (Machine Cpu × Cpu × Action)) (t : Thread Cpu) (chan : Option Chan)
    (n : Nat) : Prop :=
  ∃ before after, steps[n]? = some before ∧ before.1.running before.2.1 = t ∧
    before.1.step before.2 = some after ∧ .wakeup chan n (.scan slots) ∈ after.stack t ∧
    .wakeup chan n (.scan slots) ∉ before.1.stack t

theorem getElem?_snoc_of_some {α : Type*} {steps : List α} {n : Nat} {before last : α}
    (found : steps[n]? = some before) : (steps ++ [last])[n]? = some before := by
  rw [List.getElem?_append_left (List.getElem?_eq_some_iff.mp found).1, found]

theorem Runs.clock (run : Runs steps s) : s.clock = steps.length := by
  induction run with
  | start initial =>
    rw [initial]
    rfl
  | snoc earlier stepped ih =>
    obtain ⟨frame, rest, took⟩ := exists_took stepped
    rw [took.clock, ih, List.length_append]
    rfl

theorem Runs.releasedIn (run : Runs steps s) (asleep : s.AsleepSince q chan released) :
    ReleasedIn steps q chan released := by
  induction run with
  | start initial =>
    obtain ⟨-, frame, rest, stack, since⟩ := asleep
    rw [initial] at stack
    have member : frame ∈ (booted : Machine Cpu).stack (.proc q) := by
      rw [stack]
      exact List.mem_cons_self
    rw [mem_booted member] at since
    cases since
  | @snoc steps s s' label earlier stepped ih =>
    obtain before | ⟨rfl, away, sleeps⟩ := (Runs.swept earlier).1.asleep_step stepped asleep
    · obtain ⟨before, found, facts⟩ := ih before
      exact ⟨before, getElem?_snoc_of_some found, facts⟩
    · rw [Runs.clock earlier]
      exact ⟨_, List.getElem?_concat_length, away, sleeps⟩

theorem Runs.calledIn (run : Runs steps s) {t : Thread Cpu} {called : Nat} {pc : WakeupPc}
    (member : .wakeup chan called pc ∈ s.stack t) : CalledIn steps t chan called := by
  induction run generalizing t pc with
  | start initial =>
    rw [initial] at member
    cases t with
    | sched c => cases List.mem_singleton.mp member
    | proc p => cases mem_booted member
  | @snoc steps s s' label earlier stepped ih =>
    obtain ⟨c, action⟩ := label
    have goesOn {pc' : WakeupPc} (member : .wakeup chan called pc' ∈ s.stack t) :
        CalledIn (steps ++ [(s, c, action)]) t chan called := by
      obtain ⟨before, after, found, facts⟩ := ih member
      exact ⟨before, after, getElem?_snoc_of_some found, facts⟩
    obtain ⟨frame, rest, took⟩ := exists_took stepped
    have call (same : t = s.running c) (begun : called = s.clock ∧ pc = .scan slots) :
        CalledIn (steps ++ [(s, c, action)]) t chan called := by
      obtain ⟨rfl, rfl⟩ := begun
      refine ⟨(s, c, action), s', ?_, same.symm, stepped, member, ?_⟩
      · rw [Runs.clock earlier]
        exact List.getElem?_concat_length
      · exact fun old => absurd ((Runs.swept earlier).2 old).1 (Nat.lt_irrefl _)
    obtain ⟨same, isNew⟩ | ⟨old, -⟩ | other := took.mem_stack member
    · have inside : frame ∈ s.stack t := by
        rw [same, took.top]
        exact List.mem_cons_self
      obtain ⟨ok, isCode⟩ | ⟨-, rfl | begins⟩ := instr_origin isNew
      · rw [isCode] at isNew
        obtain begun | ⟨pc', rfl⟩ := code_wakeup isNew
        · exact call same begun
        · exact goesOn inside
      · exact goesOn inside
      · cases begins
        exact call same ⟨rfl, rfl⟩
    · exact goesOn old
    · cases other

/-- No wakeup is lost: where a call of `wakeup` returns, every process that is `SLEEPING` on
its channel, or has released its lock in `sleep` and is about to be, did so after the call. -/
theorem no_lost_wakeup {called : Nat} (run : Runs steps s)
    (returns : s.stack (s.running c) = .wakeup chan called (.scan []) :: rest) :
    CalledIn steps (s.running c) chan called ∧
      ∀ q, s.Asleep q chan → ∃ released, called < released ∧ ReleasedIn steps q chan released := by
  obtain ⟨coherent, swept⟩ := Runs.swept run
  have member : .wakeup chan called (.scan []) ∈ s.stack (s.running c) := by
    rw [returns]
    exact List.mem_cons_self
  refine ⟨Runs.calledIn run member, fun q asleep => ?_⟩
  obtain ⟨released, since⟩ := coherent.asleepSince asleep
  exact ⟨released, (swept member).2 q List.not_mem_nil released since, Runs.releasedIn run since⟩

/-- `initproc` goes to sleep, and an interrupt on the idle CPU wakes it. -/
def sleepAndWake : List (Fin 1 × Action) :=
  List.replicate 5 (theCpu, .run) ++ [(theCpu, .take 3), (theCpu, .call (.sleep 7 3))] ++
    List.replicate 6 (theCpu, .run) ++
    [(theCpu, .interrupt), (theCpu, .call (.wakeup 7))] ++ List.replicate (3 * nProc) (theCpu, .run)

theorem no_lost_wakeup_after_interrupt :
    ∃ (steps : List (Machine (Fin 1) × Fin 1 × Action)) (s : Machine (Fin 1)) (rest : List Frame),
      Runs steps s ∧ s.stack (s.running theCpu) = .wakeup (some (.other 7)) 14 (.scan []) :: rest ∧
      ∀ q, s.Asleep q (some (.other 7)) → ∃ released, 14 < released ∧
        ReleasedIn steps q (some (.other 7)) released := by
  have played : (Run.play Machine.step booted sleepAndWake).map
      (fun s => s.stack (s.running theCpu)) =
      some [.wakeup (some (.other 7)) 14 (.scan []), .handler [],
        .scheduler (.scan slots.tail)] := by
    decide +kernel
  obtain ⟨s, played, returns⟩ := Option.map_eq_some_iff.mp played
  obtain ⟨steps, -, run⟩ := exists_runs played
  exact ⟨steps, s, _, run, returns, (no_lost_wakeup run returns).2⟩

end Machine

end Xv6.Kernel.Sched
