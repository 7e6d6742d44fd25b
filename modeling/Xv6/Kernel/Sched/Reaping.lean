import Xv6.Kernel.Sched.Wakeup
import Xv6.Kernel.Sched.Family
import Xv6.Kernel.Sched.FreeSlots

/-!
Dead children and those who wait for them.

Owns: that a process asleep in `wait` has no dead child once `wait_lock` is free, and that
every dead process is freed once, by the `wait` of its parent.

Does not own: how children come and go, and what `wakeup` does in general.
-/

namespace Xv6.Kernel.Sched

open Xv6.Lib

variable {me : Option ProcPtr} {v : View} {ok : Bool} {frame : Frame} {rest lower : List Frame}
  {action : Action} {chan : Option Chan} {called : Nat} {pc : WakeupPc} {status : Int32}
  {at_ : ExitPc}

/-- Whom `exit` wakes when it has called `wakeup`. -/
def ExitPc.wakes (table : Table) (p : ProcPtr) : ExitPc → Option ProcPtr
  | .reparent _ => some initproc
  | _ => (table p).parent

/-- Where the process is already dead. -/
def ExitPc.ended : ExitPc → Bool
  | .waitUnlock => true
  | .sched => true
  | .gone => true
  | _ => false

/-- Code outside `proc.c`, and handlers. -/
def Frame.isOuter : Frame → Bool
  | .kernel _ => true
  | .handler _ => true
  | _ => false

theorem instr_of_busy (busy : locksOf v.myproc (frame :: rest) ≠ []) (inner : frame.isOuter = false)
    (moves : v.instr frame rest action ≠ .stuck) :
    ∃ ok, v.instr frame rest action = v.code ok frame := by
  have noInterrupt : ¬interruptible v.myproc (frame :: rest) = true :=
    fun free => busy (locksOf_of_interruptible free)
  revert moves
  fun_cases View.instr v frame rest action
  case case1 => exact fun _ => ⟨true, rfl⟩
  case case2 => exact fun _ => ⟨false, rfl⟩
  case case14 free => exact absurd free noInterrupt
  case case16 free => exact absurd free.1 noInterrupt
  all_goals first
    | exact absurd inner Bool.noConfusion
    | exact fun moves => absurd rfl moves

theorem call_without_wait (call : Call) (locks : List Nat) :
    .wait ∉ locksOf me (call.instr v locks).next := by
  cases call <;> simp only [Call.instr] <;> try split_ifs
  all_goals simp [Instr.next, Frame.locks, Caller.lk]

theorem instr_of_wait (mine : v.myproc = me) (above : frame.Above me rest)
    (moves : v.instr frame rest action ≠ .stuck)
    (held : .wait ∈ locksOf me ((v.instr frame rest action).next ++ rest)) :
    ∃ ok, v.instr frame rest action = v.code ok frame := by
  have interrupted (free : interruptible v.myproc (frame :: rest) = true) :
      .wait ∉ locksOf me (frame :: rest) := by
    rw [← mine, locksOf_of_interruptible free]
    exact List.not_mem_nil
  revert moves held
  fun_cases View.instr v frame rest action
  case case1 => exact fun _ _ => ⟨true, rfl⟩
  case case2 => exact fun _ _ => ⟨false, rfl⟩
  case case11 call _ =>
    intro _ held
    rw [above.1, List.append_nil] at held
    exact absurd held (call_without_wait _ _)
  case case14 free => exact fun _ held => absurd held (interrupted free)
  case case16 free => exact fun _ held => absurd held (interrupted free.1)
  all_goals intro moves held
  all_goals first
    | exact absurd rfl moves
    | (rw [above.1] at held; simp [Instr.next, Frame.locks] at held)
    | simp [Instr.next, Frame.locks, above.2] at held

theorem exit_calls {p : ProcPtr} {from_ : ExitPc}
    (calls : (v.exit p status from_).next = [.wakeup chan called pc, .exit status at_]) :
    pc = .scan slots ∧ chan = (at_.wakes ((v.exit p status from_).table v.table) p).map .proc := by
  revert calls
  fun_cases View.exit v p status from_ <;> intro calls
  case case3 =>
    cases calls
    exact ⟨rfl, rfl⟩
  case case5 =>
    cases calls
    exact ⟨rfl, rfl⟩
  all_goals cases calls

theorem wait_mem_of_calls (calls : (Frame.exit status at_).callsWakeup = true) :
    .wait ∈ (Frame.exit status at_).locks me := by
  cases at_ <;> simp [Frame.callsWakeup] at calls <;> exact List.mem_singleton_self _

theorem byProcess_of_moves {act : ProcPtr → Instr} (moves : v.byProcess act ≠ .stuck) :
    ∃ p, v.myproc = some p ∧ v.byProcess act = act p := by
  revert moves
  exact byProcess_cases
    (fun instr => instr ≠ .stuck → ∃ p, v.myproc = some p ∧ instr = act p) (absurd rfl)
    fun p mine _ => ⟨p, mine, rfl⟩

/-- What returns to a frame with `wait_lock` is the `wakeup` that it called. -/
theorem wakeup_of_returns (above : frame.Above me rest) (moves : v.code ok frame ≠ .stuck)
    (next : (v.code ok frame).next = []) (held : .wait ∈ locksOf me rest) :
    (∃ chan called, frame = .wakeup chan called (.scan [])) ∧
      ∃ caller lower, rest = caller :: lower ∧ caller.callsWakeup = true := by
  cases code_returns above moves next with
  | free nonempty unlocked =>
    rw [unlocked] at held
    exact absurd held List.not_mem_nil
  | wakeup calls => exact ⟨⟨_, _, rfl⟩, _, _, rfl, calls⟩

theorem code_calls (above : frame.Above me rest) (moves : v.code ok frame ≠ .stuck)
    (calls : (Frame.exit status at_).callsWakeup = true)
    (onward : (v.code ok frame).next ++ rest =
      .wakeup chan called pc :: .exit status at_ :: lower) :
    (∃ pc', frame = .wakeup chan called pc' ∧ rest = .exit status at_ :: lower) ∨
      (pc = .scan slots ∧ ∃ p, v.myproc = some p ∧
        chan = (at_.wakes ((v.code ok frame).table v.table) p).map .proc) := by
  cases next : (v.code ok frame).next with
  | nil =>
    rw [next, List.nil_append] at onward
    subst onward
    obtain ⟨-, _, _, isRest, wakes⟩ := wakeup_of_returns above moves next
      (List.mem_append_right _ (List.mem_append_left _ (wait_mem_of_calls calls)))
    cases isRest
    cases wakes
  | cons head tail =>
    have follows := code_follows v ok frame
    rw [next] at follows onward
    obtain ⟨rfl, below⟩ := List.cons.inj onward
    cases frame with
    | wakeup chan' called' pc' =>
      cases follows
      exact .inl ⟨_, rfl, below⟩
    | exit status' from_ =>
      cases follows
      obtain ⟨same, rfl⟩ := List.cons.inj below
      cases same
      obtain ⟨p, mine, act⟩ := byProcess_of_moves moves
      have act : v.code ok (.exit status from_) = v.exit p status from_ := act
      rw [act] at next ⊢
      exact .inr ⟨(exit_calls next).1, p, mine, (exit_calls next).2⟩
    | sleep caller from_ => cases caller <;> cases follows
    | _ => cases follows

theorem code_leaves (above : frame.Above me rest) (moves : v.code ok frame ≠ .stuck)
    (late : at_ = .lock ∨ at_ = .zombie)
    (onward : (v.code ok frame).next ++ rest = .exit status at_ :: lower) :
    (at_ = .lock ∧ (∃ chan called, frame = .wakeup chan called (.scan [])) ∧
      rest = .exit status at_ :: lower) ∨
      (at_ = .zombie ∧ frame = .exit status .lock) := by
  cases next : (v.code ok frame).next with
  | nil =>
    rw [next, List.nil_append] at onward
    subst onward
    have held : .wait ∈ (Frame.exit status at_).locks me := by
      obtain rfl | rfl := late <;> simp [Frame.locks]
    obtain ⟨isWakeup, _, _, isRest, wakes⟩ :=
      wakeup_of_returns above moves next (List.mem_append_left _ held)
    cases isRest
    obtain rfl | rfl := late
    · exact .inl ⟨rfl, isWakeup, rfl⟩
    · cases wakes
  | cons head tail =>
    have follows := code_follows v ok frame
    rw [next] at follows onward
    obtain ⟨rfl, below⟩ := List.cons.inj onward
    cases frame with
    | exit status' from_ =>
      cases follows
      obtain ⟨p, mine, act⟩ := byProcess_of_moves moves
      have act : v.code ok (.exit status from_) = v.exit p status from_ := act
      rw [act] at next
      revert next
      fun_cases View.exit v p status from_ <;> intro next <;> cases next <;>
        obtain late | late := late <;> cases late
      exact .inr ⟨rfl, rfl⟩
    | sleep caller from_ => cases caller <;> cases follows
    | _ => cases follows

theorem parks_of_wait {p : ProcPtr} (held : .wait ∈ frame.locks (some p)) :
    frame.parks = false := by
  unfold Frame.parks
  split
  case h_5 => rfl
  all_goals simp [Frame.locks] at held

theorem xstate_of_acts {q : ProcPtr} {proc : Proc} {next : List Frame}
    (acts : Acts v frame (.write q proc next))
    (other : frame.state = .running → v.myproc ≠ some q ∨ frame.chosen ≠ none)
    (after : proc.state = .zombie) :
    proc.xstate = (v.table q).xstate := by
  cases acts with
  | quiet isQuiet => cases isQuiet
  | zombie mine =>
    obtain other | other := other rfl
    · exact absurd mine other
    · exact absurd rfl other
  | wakeup =>
    unfold Proc.woken at after ⊢
    split_ifs at after ⊢
    rfl
  | setkilled => rfl
  | sleepTidy => rfl
  | kill => rfl
  | forkParent => rfl
  | reparent => rfl
  | _ => cases after

theorem wakes_of_parent {table table' : Table} {p : ProcPtr}
    (same : (table' p).parent = (table p).parent) :
    at_.wakes table' p = at_.wakes table p := by
  cases at_ <;> first | rfl | exact same

variable {Cpu : Type}

namespace Machine

variable {s s' : Machine Cpu} {c : Cpu} {p q : ProcPtr} {g : Frame} {instr : Instr}
  {steps : List (Machine Cpu × Cpu × Action)}

theorem Coherent.wait_once (coherent : s.Coherent) (member : frame ∈ s.stack (.proc p))
    (held : .wait ∈ frame.locks (some p)) (member' : g ∈ s.stack (.proc q))
    (held' : .wait ∈ g.locks (some q)) :
    p = q ∧ frame = g := by
  obtain ⟨c, away, isHolder⟩ := coherent.exists_holder member held (parks_of_wait held)
  obtain ⟨c', away', isHolder'⟩ := coherent.exists_holder member' held' (parks_of_wait held')
  obtain rfl := Option.some.inj (isHolder.symm.trans isHolder')
  obtain rfl := Thread.proc.inj (away.symm.trans away')
  refine ⟨rfl, ?_⟩
  by_contra different
  have once := coherent.holds.nodup c
  rw [away] at once
  have symmetric :
      Std.Symm (Function.onFun List.Disjoint (Frame.locks (Thread.proc p : Thread Cpu).me)) :=
    ⟨fun _ _ => List.Disjoint.symm⟩
  have apart := (List.nodup_flatMap.mp once).2.forall member member' different
  exact apart held held'

/-- The process sleeps in `wait`, or is about to. -/
def Dozing (s : Machine Cpu) (p : ProcPtr) : Prop := s.Asleep p (some (.proc p))

/-- What holds of the dead and of those who wait for them. -/
structure Reaping (s : Machine Cpu) : Prop where
  family : s.Family
  woken : ∀ {p chan called pc status at_ rest},
    s.stack (.proc p) = .wakeup chan called pc :: .exit status at_ :: rest →
      chan = (at_.wakes s.table p).map .proc ∧
        ∀ p', at_.wakes s.table p = some p' → p' ∉ pc.left → ¬s.Dozing p'
  leaving : ∀ {p status at_ rest}, s.stack (.proc p) = .exit status at_ :: rest →
    at_ = .lock ∨ at_ = .zombie → ∀ p', (s.table p).parent = some p' → ¬s.Dozing p'
  waiting : ∀ {p addr pc rest}, s.stack (.proc p) = .sleep (.wait addr) pc :: rest →
    (s.table p).state = .sleeping → (s.table p).chan = some (.proc p)
  dead : ∀ {q}, (s.table q).state = .zombie → ∃ status at_ rest,
    s.stack (.proc q) = .exit status at_ :: rest ∧ at_.ended = true ∧ (s.table q).xstate = status
  pending : ∀ {p q}, s.Dozing p → (s.table q).parent = some p → (s.table q).state = .zombie →
    p = initproc ∧ ∃ p' chan called pc status left rest,
      s.stack (.proc p') = .wakeup chan called pc :: .exit status (.reparent left) :: rest

theorem booted_reaping : Reaping (booted : Machine Cpu) := by
  have top {p : ProcPtr} {frame : Frame} {rest : List Frame}
      (stack : (booted : Machine Cpu).stack (.proc p) = frame :: rest) : frame = .forkret := by
    have member : frame ∈ (booted : Machine Cpu).stack (.proc p) := by
      rw [stack]
      exact List.mem_cons_self
    exact mem_booted member
  refine ⟨booted_family, fun stack => ?_, fun stack => ?_, fun stack => ?_, fun {q} dead => ?_,
    fun {p q} _ child => ?_⟩
  · cases top stack
  · cases top stack
  · cases top stack
  · change (if q = initproc then _ else _ : Proc).state = _ at dead
    split_ifs at dead
    cases dead
  · change (if q = initproc then _ else _ : Proc).parent = _ at child
    split_ifs at child <;> cases child

variable [DecidableEq Cpu]

theorem Coherent.took_code (coherent : s.Coherent) (stepped : s.step (c, action) = some s')
    (away : s.running c = .proc p) (held : .wait ∈ locksOf (some p) (s'.stack (.proc p))) :
    ∃ ok frame rest, Took s c frame rest ((s.view c).code ok frame) s' ∧ frame.Above (some p) rest ∧
      s.stack (.proc p) = frame :: rest ∧
        s'.stack (.proc p) = ((s.view c).code ok frame).next ++ rest := by
  obtain ⟨frame, rest, took⟩ := exists_took stepped
  have onward := coherent.stack_running took (instr_acts (s.view c) frame rest action)
  have shaped := coherent.shaped (s.running c)
  have top := took.top
  rw [top] at shaped
  rw [away] at shaped onward top
  rw [onward] at held
  obtain ⟨ok, same⟩ := instr_of_wait (coherent.current_of_running away) shaped.1 took.moves held
  rw [same] at took onward
  exact ⟨ok, frame, rest, took, shaped.1, top, onward⟩

theorem Family.dozing_step (family : s.Family) (stepped : s.step (c, action) = some s')
    (dozing : s'.Dozing p) :
    s.Dozing p ∨ (s.running c = .proc p ∧
      ∃ addr rest, s.stack (.proc p) = .sleep (.wait addr) (.release (.proc p)) :: rest) := by
  obtain ⟨released, since⟩ := (family.coherent.step stepped).asleepSince dozing
  obtain before | ⟨-, away, caller, chan, rest, on, stack⟩ :=
    family.coherent.asleep_step stepped since
  · exact .inl before.1
  · cases Option.some.inj on
    have knows := family.knows (stack ▸ List.mem_cons_self)
    cases caller with
    | kernel n =>
      obtain ⟨_, same⟩ := knows.1 _ rfl
      cases same
    | wait addr => exact .inr ⟨away, addr, rest, stack⟩

theorem Family.dozing_of_locked (family : s.Family) (stepped : s.step (c, action) = some s')
    (member : g ∈ s.stack (.proc q)) (held : .wait ∈ g.locks (some q))
    (stays : g.dozesOff = false) (dozing : s'.Dozing p) : s.Dozing p := by
  obtain before | ⟨-, addr, rest, stack⟩ := family.dozing_step stepped dozing
  · exact before
  · have top : Frame.sleep (.wait addr) (.release (.proc p)) ∈ s.stack (.proc p) :=
      stack ▸ List.mem_cons_self
    obtain ⟨-, same⟩ := family.coherent.wait_once member held top List.mem_cons_self
    rw [same] at stays
    cases stays

theorem Family.sameFamily_of_other (family : s.Family)
    (took : Took s c frame rest ((s.view c).instr frame rest action) s')
    (other : s.running c ≠ .proc p) (member : g ∈ s.stack (.proc p))
    (held : .wait ∈ g.locks (some p)) : SameFamily s.table s'.table := by
  rw [took.table]
  refine family.sameFamily took.top (family.coherent.kin took.top (instr_acts _ frame rest action))
    fun inside => ?_
  obtain ⟨c', away, isHolder⟩ := family.coherent.exists_holder member held (parks_of_wait held)
  obtain rfl := Option.some.inj (isHolder.symm.trans (family.coherent.holder_top took.top inside))
  exact other away

namespace Reaping

theorem woken_step (reaping : s.Reaping) (stepped : s.step (c, action) = some s')
    (stack : s'.stack (.proc p) = .wakeup chan called pc :: .exit status at_ :: lower) :
    chan = (at_.wakes s'.table p).map .proc ∧
      ∀ p', at_.wakes s'.table p = some p' → p' ∉ pc.left → ¬s'.Dozing p' := by
  have family := reaping.family
  have coherent' := family.coherent.step stepped
  obtain ⟨frame, rest, took⟩ := exists_took stepped
  have calls : (Frame.exit status at_).callsWakeup = true := by
    have shaped := coherent'.shaped (.proc p)
    rw [stack] at shaped
    obtain ⟨below, _, same, calls⟩ := shaped.1
    rw [(List.cons.inj same).1]
    exact calls
  have held : .wait ∈ (Frame.exit status at_).locks (some p) := wait_mem_of_calls calls
  -- what is known of the call before the step, when the thread was already in it
  have goesOn {pc' : WakeupPc}
      (before : s.stack (.proc p) = .wakeup chan called pc' :: .exit status at_ :: lower)
      (same : SameFamily s.table s'.table)
      (left : ∀ p', at_.wakes s.table p = some p' → p' ∉ pc.left → s.Dozing p' → s'.Dozing p' →
        p' ∉ pc'.left) :
      chan = (at_.wakes s'.table p).map .proc ∧
        ∀ p', at_.wakes s'.table p = some p' → p' ∉ pc.left → ¬s'.Dozing p' := by
    obtain ⟨chan_eq, awake⟩ := reaping.woken before
    rw [wakes_of_parent (same.parent p)]
    refine ⟨chan_eq, fun p' wakes done dozing' => ?_⟩
    have member : Frame.exit status at_ ∈ s.stack (.proc p) := by
      rw [before]
      exact List.mem_cons_of_mem _ List.mem_cons_self
    have dozing := family.dozing_of_locked stepped member held rfl dozing'
    exact awake p' wakes (left p' wakes done dozing dozing') dozing
  by_cases away : s.running c = .proc p
  · obtain ⟨ok, frame, rest, took, above, before, onward⟩ :=
      family.coherent.took_code stepped away
        (stack ▸ List.mem_append_right _ (List.mem_append_left _ held))
    rw [stack] at onward
    obtain ⟨pc', rfl, rfl⟩ | ⟨rfl, p', mine, same⟩ := code_calls above took.moves calls onward.symm
    · have outside : .wait ∉ (Frame.wakeup chan called pc').locks (s.running c).me := by
        cases pc' <;> simp [Frame.locks]
      refine goesOn before ?_ fun p' wakes done dozing dozing' => ?_
      · rw [took.table]
        exact family.sameFamily took.top (family.coherent.kin took.top (code_acts _ ok _)) outside
      · have isNew :
            .wakeup chan called pc ∈ ((s.view c).code ok (.wakeup chan called pc')).next := by
          rw [← List.singleton_append] at onward
          rw [← List.append_cancel_right onward]
          exact List.mem_singleton_self _
        have on : chan = some (.proc p') := by
          rw [(reaping.woken before).1, wakes]
          rfl
        subst on
        exact family.coherent.left_of_wakeup coherent' took isNew done dozing dozing'
    · obtain rfl : p = p' :=
        Option.some.inj ((family.coherent.current_of_running away).symm.trans mine)
      rw [took.table]
      exact ⟨same, fun p' _ done => absurd (mem_slots p') done⟩
  · have before : s.stack (.proc p) = .wakeup chan called pc :: .exit status at_ :: lower := by
      obtain same | fresh := took.stack_other (Ne.symm away)
      · exact same.symm.trans stack
      · rw [stack] at fresh
        cases (List.cons.inj fresh).1
    refine goesOn before ?_ fun p' _ done _ _ => done
    refine family.sameFamily_of_other took away ?_ held
    rw [before]
    exact List.mem_cons_of_mem _ List.mem_cons_self

theorem leaving_step (reaping : s.Reaping) (stepped : s.step (c, action) = some s')
    (stack : s'.stack (.proc p) = .exit status at_ :: lower) (late : at_ = .lock ∨ at_ = .zombie)
    {p' : ProcPtr}
    (child : (s'.table p).parent = some p') : ¬s'.Dozing p' := by
  intro dozing'
  have family := reaping.family
  have held : .wait ∈ (Frame.exit status at_).locks (some p) := by
    obtain rfl | rfl := late <;> simp [Frame.locks]
  by_cases away : s.running c = .proc p
  · obtain ⟨ok, frame, rest, took, above, before, onward⟩ :=
      family.coherent.took_code stepped away (stack ▸ List.mem_append_left _ held)
    rw [stack] at onward
    have kin := family.coherent.kin took.top (code_acts _ ok _)
    obtain ⟨rfl, ⟨chan, called, rfl⟩, rfl⟩ | ⟨rfl, rfl⟩ :=
      code_leaves above took.moves late onward.symm
    · have same := family.sameFamily took.top kin List.not_mem_nil
      rw [took.table, same.parent] at child
      have member : Frame.exit status .lock ∈ s.stack (.proc p) := by
        rw [before]
        exact List.mem_cons_of_mem _ List.mem_cons_self
      exact (reaping.woken before).2 p' child List.not_mem_nil
        (family.dozing_of_locked stepped member held rfl dozing')
    · cases kin with
      | same life parent =>
        rw [took.table] at child
        have member : Frame.exit status .lock ∈ s.stack (.proc p) := before ▸ List.mem_cons_self
        exact reaping.leaving before (.inl rfl) p' ((parent p).symm.trans child)
          (family.dozing_of_locked stepped member (List.mem_singleton_self _) rfl dozing')
  · obtain ⟨frame, rest, took⟩ := exists_took stepped
    have before : s.stack (.proc p) = .exit status at_ :: lower := by
      obtain same | fresh := took.stack_other (Ne.symm away)
      · exact same.symm.trans stack
      · rw [stack] at fresh
        cases (List.cons.inj fresh).1
    have member : Frame.exit status at_ ∈ s.stack (.proc p) := before ▸ List.mem_cons_self
    rw [(family.sameFamily_of_other took away member held).parent] at child
    exact reaping.leaving before late p' child
      (family.dozing_of_locked stepped member held rfl dozing')

theorem waiting_step (reaping : s.Reaping) (stepped : s.step (c, action) = some s') {addr : UInt64}
    {pc : SleepPc} (stack : s'.stack (.proc p) = .sleep (.wait addr) pc :: lower)
    (asleep : (s'.table p).state = .sleeping) :
    (s'.table p).chan = some (.proc p) := by
  have coherent := reaping.family.coherent
  obtain ⟨frame, rest, took⟩ := exists_took stepped
  by_cases away : s.running c = .proc p
  · obtain ⟨released, -, top, below, stack', since⟩ :=
      (coherent.step stepped).asleepSince (.inl ⟨asleep, rfl⟩)
    obtain ⟨rfl, rfl⟩ := List.cons.inj (stack'.symm.trans stack)
    have falls := coherent.fallsAsleep took away stack since
    have before := took.top
    rw [away] at before
    generalize (s.view c).instr frame rest action = instr at *
    rw [took.table] at asleep ⊢
    cases falls with
    | stays isQuiet =>
      rw [Instr.table_of_quiet isQuiet] at asleep ⊢
      exact reaping.waiting before asleep
    | release =>
      have runs := coherent.state_of_running away took.top
      rw [show (s.table p).state = .sleeping from asleep] at runs
      cases runs
    | @set p' _ chan _ mine =>
      obtain rfl : p = p' := Option.some.inj ((coherent.current_of_running away).symm.trans mine)
      rw [Instr.table_write_self]
      exact congrArg some ((reaping.family.knows_top took.top away).1 chan rfl)
    | sched => exact reaping.waiting before asleep
  · have before : s.stack (.proc p) = .sleep (.wait addr) pc :: lower := by
      obtain same | fresh := took.stack_other (Ne.symm away)
      · exact same.symm.trans stack
      · rw [stack] at fresh
        cases (List.cons.inj fresh).1
    obtain ⟨was, same⟩ := coherent.asleep_of_other took (instr_acts _ frame rest action) away asleep
    rw [← same]
    exact reaping.waiting before was

theorem dead_of_dead (reaping : s.Reaping) (stepped : s.step (c, action) = some s')
    (before : (s.table q).state = .zombie) (after : (s'.table q).state = .zombie) :
    ∃ status at_ rest, s'.stack (.proc q) = .exit status at_ :: rest ∧ at_.ended = true ∧
      (s'.table q).xstate = status := by
  have coherent := reaping.family.coherent
  obtain ⟨status, at_, lower, stack, ended, rfl⟩ := reaping.dead before
  obtain ⟨frame, rest, took⟩ := exists_took stepped
  have acts := instr_acts (s.view c) frame rest action
  have xstate : (s'.table q).xstate = (s.table q).xstate := by
    rw [took.table] at after ⊢
    generalize (s.view c).instr frame rest action = instr at *
    cases instr with
    | write q' proc next =>
      rw [Instr.table_write] at after ⊢
      split_ifs at after ⊢ with same
      · subst same
        refine xstate_of_acts acts (fun runs => ?_) after
        by_contra mine
        obtain ⟨mine, unchosen⟩ := not_or.mp mine
        have state := coherent.state_of_running
          (coherent.running_of_mine took.top (not_not.mp unchosen) (not_not.mp mine)) took.top
        rw [before, runs] at state
        cases state
      · rfl
    | _ => rfl
  rw [xstate]
  by_cases away : s.running c = .proc q
  · have top := took.top
    have onward := coherent.stack_running took acts
    rw [away] at top onward
    obtain ⟨rfl, rfl⟩ := List.cons.inj (top.symm.trans stack)
    have current := coherent.current_of_running away
    have busy : locksOf (s.view c).myproc (.exit (s.table q).xstate at_ :: rest) ≠ [] := by
      rw [show (s.view c).myproc = some q from current]
      cases at_ <;> simp [ExitPc.ended] at ended <;> simp [Frame.locks]
    obtain ⟨ok, same⟩ := instr_of_busy busy rfl took.moves
    rw [same] at took onward
    obtain ⟨q', mine, act⟩ := byProcess_of_moves took.moves
    have act : (s.view c).code ok (.exit (s.table q).xstate at_) =
        (s.view c).exit q' (s.table q).xstate at_ := act
    rw [act] at took onward
    cases at_ <;> simp [ExitPc.ended] at ended
    · exact ⟨_, _, _, onward, rfl, rfl⟩
    · exact ⟨_, _, _, onward, rfl, rfl⟩
    · exact absurd rfl took.moves
  · refine ⟨_, at_, lower, (took.stack_of_ne (Ne.symm away) ?_).trans stack, ended, rfl⟩
    rintro np fresh same
    cases same
    have used : (s.table q).state = .used := coherent.slot_of_fresh took.top acts fresh
    rw [before] at used
    cases used

theorem dead_step (reaping : s.Reaping) (stepped : s.step (c, action) = some s')
    (after : (s'.table q).state = .zombie) :
    ∃ status at_ rest, s'.stack (.proc q) = .exit status at_ :: rest ∧ at_.ended = true ∧
      (s'.table q).xstate = status := by
  by_cases before : (s.table q).state = .zombie
  · exact reaping.dead_of_dead stepped before after
  · have coherent := reaping.family.coherent
    obtain ⟨frame, rest, took⟩ := exists_took stepped
    have acts := instr_acts (s.view c) frame rest action
    have onward := coherent.stack_running took acts
    rw [took.table] at after ⊢
    obtain ⟨status, rfl, mine, same⟩ := (coherent.kin took.top acts).zombie_of_new after before
    rw [coherent.running_of_mine took.top rfl mine, same] at onward
    rw [same, Instr.table_write_self]
    exact ⟨status, .waitUnlock, rest, onward, rfl, rfl⟩

theorem pending_step (reaping : s.Reaping) (stepped : s.step (c, action) = some s')
    (dozing : s'.Dozing p)
    (child : (s'.table q).parent = some p) (dead : (s'.table q).state = .zombie) :
    p = initproc ∧ ∃ p' chan called pc status left rest,
      s'.stack (.proc p') = .wakeup chan called pc :: .exit status (.reparent left) :: rest := by
  have family := reaping.family
  have coherent := family.coherent
  obtain ⟨frame, rest, took⟩ := exists_took stepped
  have acts := instr_acts (s.view c) frame rest action
  have kin := coherent.kin took.top acts
  have onward := coherent.stack_running took acts
  rw [took.table] at child dead
  have dozed : s.Dozing p := by
    refine (family.dozing_step stepped dozing).resolve_right ?_
    rintro ⟨away, addr, lower, stack⟩
    have top := took.top
    rw [away, stack] at top
    obtain ⟨rfl, rfl⟩ := List.cons.inj top
    -- `wait` has looked at all children
    have absent := (family.knows_top took.top away).2 rfl
    generalize (s.view c).instr _ _ action = instr at *
    cases kin with
    | same life parent =>
      refine absent q List.not_mem_nil ((parent q).symm.trans child) ((life q).symm.trans ?_)
      rw [show (instr.table (s.view c).table q).state = .zombie from dead]
      rfl
  by_cases was : (s.table q).state = .zombie
  case neg =>
    obtain ⟨status, rfl, mine, same⟩ := kin.zombie_of_new dead was
    have top := took.top
    rw [coherent.running_of_mine top rfl mine] at top
    rw [same, Instr.table_write_self] at child
    exact absurd dozed (reaping.leaving top (.inr rfl) p child)
  by_cases kid : (s.table q).parent = some p
  case neg =>
    obtain ⟨pid, rfl⟩ | ⟨rfl, status, left, rfl, next⟩ := kin.parent_of_new child kid
    · have used : (s.table q).state = .used := (coherent.slot_top took.top rfl : s.Slot q .ready).1
      rw [was] at used
      cases used
    · obtain ⟨-, me, away⟩ := family.alone took.top fun _ => id
      rw [away, next] at onward
      exact ⟨rfl, me, _, _, _, status, left, rest, onward⟩
  obtain ⟨rfl, p', chan, called, pc, status, left, lower, stack⟩ := reaping.pending dozed kid was
  refine ⟨rfl, p', chan, called, ?_⟩
  by_cases away : s.running c = .proc p'
  case neg =>
    refine ⟨pc, status, left, lower, (took.stack_of_ne (Ne.symm away) ?_).trans stack⟩
    rintro np fresh same
    cases same
    have member : Frame.exit status (.reparent left) ∈ s.stack (.proc p') := by
      rw [stack]
      exact List.mem_cons_of_mem _ List.mem_cons_self
    obtain ⟨c', away', -⟩ := coherent.exists_holder member (List.mem_singleton_self _) rfl
    exact coherent.off_of_slot (coherent.slot_of_fresh took.top acts fresh) c' away'
  have top := took.top
  rw [away] at top onward
  obtain ⟨rfl, rfl⟩ := List.cons.inj (top.symm.trans stack)
  have busy : locksOf (s.view c).myproc
      (.wakeup chan called pc :: .exit status (.reparent left) :: lower) ≠ [] := by
    cases pc <;> simp [Frame.locks]
  obtain ⟨ok, same⟩ := instr_of_busy busy rfl took.moves
  rw [same] at onward
  change _ = ((s.view c).wakeup chan called pc).next ++ _ at onward
  revert onward
  fun_cases View.wakeup (s.view c) chan called pc
  case case1 => exact absurd dozed ((reaping.woken stack).2 initproc rfl List.not_mem_nil)
  all_goals exact fun onward => ⟨_, status, left, lower, onward⟩

theorem step (reaping : s.Reaping) (stepped : s.step (c, action) = some s') : s'.Reaping where
  family := reaping.family.step stepped
  woken := reaping.woken_step stepped
  leaving := fun stack late _ child => reaping.leaving_step stepped stack late child
  waiting := reaping.waiting_step stepped
  dead := reaping.dead_step stepped
  pending := reaping.pending_step stepped

end Reaping

theorem Runs.reaping (run : Runs steps s) : s.Reaping := by
  refine run.invariant Reaping ?_ ?_
  · rintro s rfl
    exact booted_reaping
  · exact fun s label s' reaping stepped => reaping.step stepped

section Wait

variable {addr : UInt64} {pc : WaitPc}

omit [DecidableEq Cpu] in
theorem Coherent.code_wait (coherent : s.Coherent) (away : s.running c = .proc p)
    (top : s.stack (.proc p) = .wait addr pc :: rest) (ok : Bool) :
    (s.view c).code ok (.wait addr pc) = (s.view c).wait ok p addr pc := by
  have mine : (s.view c).myproc = some p := by
    rw [← away] at top
    have same := (coherent.mine top).resolve_right fun chosen => chosen rfl
    rwa [away] at same
  simp only [View.code, View.byProcess, mine]

/-- What the next step of a process in `wait` is, with and without a `copyout` that fails. -/
theorem Coherent.step_wait (coherent : s.Coherent) (away : s.running c = .proc p)
    (top : s.stack (.proc p) = .wait addr pc :: rest) :
    s.step (c, .run) = s.exec c rest ((s.view c).wait true p addr pc) ∧
      s.step (c, .fail) = s.exec c rest ((s.view c).wait false p addr pc) := by
  simp only [Machine.step, away, top, ← coherent.code_wait away top]
  exact ⟨rfl, rfl⟩

theorem wait_takes {left : List ProcPtr} {kids : Bool} (child : (v.table q).parent = some p) :
    v.wait ok p addr (.scan (q :: left) kids) = .goto [.wait addr (.child q left)] := by
  simp only [View.wait, if_pos child]

theorem wait_frees {left : List ProcPtr} (dead : (v.table q).state = .zombie)
    (copied : ¬ (addr ≠ 0 ∧ ok = false)) :
    v.wait ok p addr (.check q left) = .write q Proc.freed [.wait addr
      (.freed q (v.table q).pid (if addr = 0 then none else some (v.table q).xstate))] := by
  simp only [View.wait, if_pos dead, if_neg copied]

/-- While `wait` holds a lock, the CPU does nothing else. -/
theorem Coherent.wait_step (coherent : s.Coherent) (away : s.running c = .proc p)
    (top : s.stack (.proc p) = .wait addr pc :: rest)
    (busy : ∀ me, (Frame.wait addr pc).locks me ≠ [])
    (stepped : s.step (c, action) = some s') :
    ∃ ok, s'.stack (.proc p) = ((s.view c).wait ok p addr pc).next ++ rest := by
  obtain ⟨frame, rest', took⟩ := exists_took stepped
  have onward := coherent.stack_running took (instr_acts (s.view c) frame rest' action)
  obtain ⟨rfl, rfl⟩ := List.cons.inj (took.top.symm.trans ((congrArg _ away).trans top))
  obtain ⟨ok, same⟩ := instr_of_busy
    (fun empty => busy _ (List.append_eq_nil_iff.mp empty).1) rfl took.moves
  rw [same, coherent.code_wait away top, away] at onward
  exact ⟨ok, onward⟩

end Wait

theorem stack_goOn (away : s.running c = .proc p) (next : List Frame) :
    (s.goOn c next).stack (.proc p) = next := by
  rw [← away]
  exact goOn_stack_self

/-- The step to `s'` is the one in which the `wait(addr)` of `p` frees `q`: it keeps the pid to
return, and copies the exit status out unless `addr` is 0. -/
def Reaps (s s' : Machine Cpu) (p q : ProcPtr) (addr : UInt64) (rest : List Frame) : Prop :=
  s'.table q = Proc.freed ∧ s'.stack (.proc p) = .wait addr (.freed q (s.table q).pid
    (if addr = 0 then none else some (s.table q).xstate)) :: rest

/-- In every reachable state a process that has started has a parent that is alive; a dead
process is freed in one step, by the `wait` of its parent, which copies out the status that
the process gave to `exit` and returns its pid; the scan of `wait` takes up every child it
comes to, and a dead one is freed, unless `copyout` fails; and while no one holds `wait_lock`,
no process that sleeps in `wait` has a dead child. -/
theorem reaped_once (run : Runs steps s) :
    (∀ q, q ≠ initproc → (s.table q).state ≠ .unused → (s.table q).state ≠ .used →
        ∃ p, (s.table q).parent = some p ∧ (s.table p).state ≠ .unused ∧
          (s.table p).state ≠ .zombie) ∧
      (∀ q, (s.table q).state = .zombie → ∃ at_ rest,
        s.stack (.proc q) = .exit (s.table q).xstate at_ :: rest) ∧
      (∀ c action s' q, s.step (c, action) = some s' → (s.table q).state = .zombie →
        (s'.table q).state ≠ .zombie → ∃ p addr left rest, s.running c = .proc p ∧
          (s.table q).parent = some p ∧ s.stack (.proc p) = .wait addr (.check q left) :: rest ∧
          s.Reaps s' p q addr rest) ∧
      (∀ c p addr q left kids rest, s.running c = .proc p →
        s.stack (.proc p) = .wait addr (.scan (q :: left) kids) :: rest →
        (s.table q).parent = some p → ∃ s', s.step (c, .run) = some s' ∧
          s'.stack (.proc p) = .wait addr (.child q left) :: rest) ∧
      (∀ c p addr q left rest, s.running c = .proc p →
        s.stack (.proc p) = .wait addr (.child q left) :: rest → s.holder (.proc q) = none →
        ∃ s', s.step (c, .run) = some s' ∧
          s'.stack (.proc p) = .wait addr (.check q left) :: rest) ∧
      (∀ c p addr q left rest, s.running c = .proc p →
        s.stack (.proc p) = .wait addr (.check q left) :: rest → (s.table q).state = .zombie →
        ∃ s', s.step (c, .run) = some s' ∧ s.Reaps s' p q addr rest ∧
          (addr = 0 → s.step (c, .fail) = some s')) ∧
      (∀ c p addr q pid copied rest, s.running c = .proc p →
        s.stack (.proc p) = .wait addr (.freed q pid copied) :: rest →
        (s.step (c, .run)).isSome ∧ ∀ action s', s.step (c, action) = some s' →
          s'.stack (.proc p) = .wait addr (.done pid copied) :: rest) ∧
      (∀ c p addr pid copied rest, s.running c = .proc p →
        s.stack (.proc p) = .wait addr (.done pid copied) :: rest →
        (s.step (c, .run)).isSome ∧ ∀ action s', s.step (c, action) = some s' →
          s'.stack (.proc p) = .returned pid :: rest) ∧
      (s.holder .wait = none → ∀ p q, (s.table q).parent = some p →
        (s.table q).state = .zombie → (s.table p).state = .sleeping →
        (s.table p).chan ≠ some (.proc p) ∧
          ∀ addr pc rest, s.stack (.proc p) ≠ .sleep (.wait addr) pc :: rest) := by
  have reaping := Runs.reaping run
  have lineage := reaping.family.lineage
  have coherent := reaping.family.coherent
  refine ⟨fun q notInit used started => ?_, fun q dead => ?_,
    fun c action s' q stepped dead freed => ?_,
    fun c p addr q left kids rest away top child => ?_,
    fun c p addr q left rest away top free => ?_,
    fun c p addr q left rest away top dead => ?_,
    fun c p addr q pid copied rest away top => ⟨?_, fun action s' stepped => ?_⟩,
    fun c p addr pid copied rest away top => ⟨?_, fun action s' stepped => ?_⟩,
    fun free p q child dead asleep => ?_⟩
  · have life : (s.table q).state.life = .alive ∨ (s.table q).state.life = .dead := by
      cases state : (s.table q).state <;> simp_all [ProcState.life]
    obtain ⟨p, parent⟩ := Option.ne_none_iff_exists'.mp (lineage.born q notInit life)
    have alive := lineage.parents q p parent
    refine ⟨p, parent, ?_, ?_⟩ <;> intro state <;> rw [state] at alive <;> cases alive
  · obtain ⟨status, at_, rest, stack, -, rfl⟩ := reaping.dead dead
    exact ⟨at_, rest, stack⟩
  · obtain ⟨frame, rest, took⟩ := exists_took stepped
    have acts := instr_acts (s.view c) frame rest action
    have onward := coherent.stack_running took acts
    have top := took.top
    rw [took.table] at freed
    obtain ⟨p, addr, left, away, child, rfl, same⟩ :=
      reaping.family.reap_of_end took.top (coherent.kin took.top acts) dead freed
    rw [away] at top onward
    rw [same] at onward
    refine ⟨p, addr, left, rest, away, child, top, ?_, onward⟩
    rw [took.table, same]
    exact Instr.table_write_self
  · have stepped := (coherent.step_wait away top).1
    rw [wait_takes child] at stepped
    exact ⟨_, stepped, stack_goOn away _⟩
  · exact ⟨_, (coherent.step_wait away top).1.trans (if_pos free), stack_goOn away _⟩
  · obtain ⟨runs, fails⟩ := coherent.step_wait away top
    rw [wait_frees dead fun fault => Bool.noConfusion fault.2] at runs
    refine ⟨_, runs, ⟨Function.update_self _ _ _, stack_goOn away _⟩, fun null => ?_⟩
    rwa [wait_frees dead fun fault => fault.1 null] at fails
  · rw [(coherent.step_wait away top).1]
    rfl
  · obtain ⟨ok, onward⟩ := coherent.wait_step away top (fun _ => List.cons_ne_nil _ _) stepped
    exact onward
  · rw [(coherent.step_wait away top).1]
    rfl
  · obtain ⟨ok, onward⟩ := coherent.wait_step away top (fun _ => List.cons_ne_nil _ _) stepped
    exact onward
  · have awake (dozing : s.Dozing p) : False := by
      obtain ⟨-, p', chan, called, pc, status, left, rest, stack⟩ :=
        reaping.pending dozing child dead
      have member : Frame.exit status (.reparent left) ∈ s.stack (.proc p') := by
        rw [stack]
        exact List.mem_cons_of_mem _ List.mem_cons_self
      obtain ⟨c, -, held⟩ := coherent.exists_holder member (List.mem_singleton_self _) rfl
      rw [free] at held
      cases held
    exact ⟨fun on => awake (.inl ⟨asleep, on⟩),
      fun addr pc rest stack => awake (.inl ⟨asleep, reaping.waiting stack asleep⟩)⟩

/-- `initproc` calls `fork` and yields, its child exits with status 3, and `initproc` calls
`wait(8)`, up to where it looks at the child. -/
def firstWait : List (Fin 1 × Action) :=
  firstFork ++ [(theCpu, .run), (theCpu, .timer)] ++ List.replicate 10 (theCpu, .run) ++
    (theCpu, .call (.exit 3)) :: List.replicate (7 * nProc + 8) (theCpu, .run) ++
    (theCpu, .call (.wait 8)) :: List.replicate 4 (theCpu, .run)

theorem reaped_once_firstWait :
    ∃ (steps : List (Machine (Fin 1) × Fin 1 × Action)) (s s' : Machine (Fin 1)), Runs steps s ∧
      (s.table secondproc).state = .zombie ∧ s.step (theCpu, .run) = some s' ∧
      s'.table secondproc = Proc.freed ∧ s'.stack (.proc initproc) =
        [.wait 8 (.freed secondproc 2 (some 3)), .kernel []] := by
  have played : (Run.play Machine.step booted firstWait).map (fun s =>
      (s.running theCpu, s.stack (.proc initproc), s.table secondproc)) =
      some (.proc initproc, [.wait 8 (.check secondproc (slots.drop 2)), .kernel []],
        ⟨.zombie, none, false, 3, 2, some initproc⟩) := by
    decide +kernel
  obtain ⟨s, played, same⟩ := Option.map_eq_some_iff.mp played
  simp only [Prod.mk.injEq] at same
  obtain ⟨away, top, child⟩ := same
  obtain ⟨steps, -, run⟩ := exists_runs played
  obtain ⟨-, -, -, -, -, reaps, -⟩ := reaped_once run
  have dead : (s.table secondproc).state = .zombie := by rw [child]
  obtain ⟨s', stepped, ⟨freed, stack⟩, -⟩ := reaps theCpu _ _ _ _ _ away top dead
  rw [child] at stack
  exact ⟨steps, s, s', run, dead, stepped, freed, stack⟩

end Machine

end Xv6.Kernel.Sched
