import Xv6.Kernel.Sched.Machine

/-!
What every step of a frame keeps, whatever the rest of the machine looks like.

Owns: which frames may lie above which, that a frame's locks change only as it acquires
and releases them, the list of all writes to the process table, and the state a process
has while it runs a frame.

Does not own: what holds of several threads together.
-/

namespace Xv6.Kernel.Sched

variable {me : Option ProcPtr} {v : View} {ok : Bool} {frame : Frame} {rest next : List Frame}
  {action : Action}

@[simp] theorem locksOf_nil : locksOf me [] = [] := rfl

@[simp] theorem locksOf_cons : locksOf me (frame :: rest) = frame.locks me ++ locksOf me rest := rfl

@[simp] theorem locksOf_append : locksOf me (next ++ rest) = locksOf me next ++ locksOf me rest :=
  List.flatMap_append

/-- The frames that call `wakeup`. -/
def Frame.callsWakeup : Frame → Bool
  | .kernel _ => true
  | .handler _ => true
  | .exit _ (.reparent _) => true
  | .exit _ .lock => true
  | _ => false

/-- What may lie under a frame. Only `wakeup` is called with locks held, and a process is
interrupted only where it holds none. -/
def Frame.Above (me : Option ProcPtr) : Frame → List Frame → Prop
  | .scheduler _, rest => rest = [] ∧ me = none
  | .kernel _, rest => rest = [] ∧ me ≠ none
  | .forkret, rest => rest = [] ∧ me ≠ none
  | .sleep (.kernel _) _, rest => rest = [] ∧ me ≠ none
  | .handler _, rest => rest ≠ [] ∧ locksOf me rest = []
  | .yield _, rest => rest ≠ [] ∧ locksOf me rest = [] ∧ me ≠ none
  | .wakeup _ _ _, rest => ∃ below lower, rest = below :: lower ∧ below.callsWakeup = true
  | _, rest => rest = [.kernel []]

/-- A stack of a thread of `me`. -/
def Shaped (me : Option ProcPtr) : List Frame → Prop
  | [] => True
  | frame :: rest => frame.Above me rest ∧ Shaped me rest

@[simp] theorem shaped_cons : Shaped me (frame :: rest) ↔ frame.Above me rest ∧ Shaped me rest :=
  Iff.rfl

/-- The frames that may follow a frame of the same function, or of one that it calls or
returns from. -/
inductive Follows : Frame → List Frame → Prop where
  | scheduler {pc pc' : SchedulerPc} : Follows (.scheduler pc) [.scheduler pc']
  | yield {pc pc' : YieldPc} : Follows (.yield pc) [.yield pc']
  | setkilled {pc pc' : SetkilledPc} : Follows (.setkilled pc) [.setkilled pc']
  | sleep {caller : Caller} {pc pc' : SleepPc} : Follows (.sleep caller pc) [.sleep caller pc']
  | wakeup {chan : Option Chan} {called : Nat} {pc pc' : WakeupPc} :
      Follows (.wakeup chan called pc) [.wakeup chan called pc']
  | kill {pid : Int32} {pc pc' : KillPc} : Follows (.kill pid pc) [.kill pid pc']
  | fork {pc pc' : ForkPc} : Follows (.fork pc) [.fork pc']
  | exit {status : Int32} {pc pc' : ExitPc} : Follows (.exit status pc) [.exit status pc']
  | exitCalls {status : Int32} {pc pc' : ExitPc} {chan : Option Chan} {called : Nat}
      {scan : WakeupPc} (calls : (Frame.exit status pc').callsWakeup = true) :
      Follows (.exit status pc) [.wakeup chan called scan, .exit status pc']
  | wait {addr : UInt64} {pc pc' : WaitPc} : Follows (.wait addr pc) [.wait addr pc']
  | waitSleeps {addr : UInt64} {pc : WaitPc} {chan : Chan} :
      Follows (.wait addr pc) [.sleep (.wait addr) (.acquire chan)]
  | resume {caller : Caller} {pc : SleepPc} : Follows (.sleep caller pc) [caller.resume]
  | forkret : Follows .forkret [.kernel []]
  | killReturns {pid : Int32} {pc : KillPc} {value : Int32} :
      Follows (.kill pid pc) [.returned value]
  | forkReturns {pc : ForkPc} {value : Int32} : Follows (.fork pc) [.returned value]
  | waitReturns {addr : UInt64} {pc : WaitPc} {value : Int32} :
      Follows (.wait addr pc) [.returned value]
  | pop {frame : Frame} : Follows frame []

/-- A property of what a process does, whoever it is. -/
theorem byProcess_cases {act : ProcPtr → Instr} (motive : Instr → Prop) (stuck : motive .stuck)
    (process : ∀ p, v.myproc = some p → motive (act p)) : motive (v.byProcess act) := by
  unfold View.byProcess
  split
  · exact process _ (by assumption)
  · exact stuck

theorem code_follows (v : View) (ok : Bool) (frame : Frame) :
    Follows frame (v.code ok frame).next := by
  cases frame with
  | scheduler pc =>
    change Follows _ (v.scheduler pc).next
    fun_cases View.scheduler v pc <;> exact .scheduler
  | kernel locks => exact .pop
  | handler locks => exact .pop
  | returned value => exact .pop
  | yield pc =>
    refine byProcess_cases (fun instr => Follows _ instr.next) .pop fun p _ => ?_
    cases pc <;> first | exact .yield | exact .pop
  | forkret => exact byProcess_cases (fun instr => Follows _ instr.next) .pop fun p _ => .forkret
  | setkilled pc =>
    refine byProcess_cases (fun instr => Follows _ instr.next) .pop fun p _ => ?_
    cases pc <;> first | exact .setkilled | exact .pop
  | sleep caller pc =>
    refine byProcess_cases (fun instr => Follows _ instr.next) .pop fun p _ => ?_
    cases pc <;> first | exact .sleep | exact .resume
  | wakeup chan called pc =>
    change Follows _ (v.wakeup chan called pc).next
    fun_cases View.wakeup v chan called pc <;> first | exact .wakeup | exact .pop
  | kill pid pc =>
    change Follows _ (v.kill pid pc).next
    fun_cases View.kill v pid pc <;> first | exact .kill | exact .killReturns
  | fork pc =>
    refine byProcess_cases (fun instr => Follows _ instr.next) .pop fun p _ => ?_
    fun_cases View.fork v ok p pc <;> first | exact .fork | exact .forkReturns
  | exit status pc =>
    refine byProcess_cases (fun instr => Follows _ instr.next) .pop fun p _ => ?_
    fun_cases View.exit v p status pc <;> first | exact .exit | exact .exitCalls rfl | exact .pop
  | wait addr pc =>
    refine byProcess_cases (fun instr => Follows _ instr.next) .pop fun p _ => ?_
    fun_cases View.wait v ok p addr pc <;> first | exact .wait | exact .waitReturns | skip
    rename_i killed
    cases killed
    · exact .waitSleeps
    · exact .wait

/-- Frames that follow each other may lie above the same frames. -/
theorem Follows.shaped (follows : Follows frame next) (shaped : Shaped me (frame :: rest)) :
    Shaped me (next ++ rest) := by
  obtain ⟨above, below⟩ := shaped
  cases follows with
  | exitCalls calls => exact ⟨⟨_, _, rfl, calls⟩, above, below⟩
  | waitSleeps => exact ⟨above, below⟩
  | @resume caller pc | @sleep caller pc pc' => cases caller <;> exact ⟨above, below⟩
  | pop => exact below
  | _ => exact ⟨above, below⟩

/-- No lock is held where an interrupt is taken. -/
theorem locksOf_of_interruptible {stack : List Frame} (free : interruptible me stack = true) :
    locksOf me stack = [] :=
  List.isEmpty_iff.mp (Bool.and_eq_true_iff.mp free).1

/-- The process that is `c->proc` while the scheduler itself runs. -/
def Frame.chosen : Frame → Option ProcPtr
  | .scheduler (.swtch p _) => some p
  | .scheduler (.back p _) => some p
  | _ => none

theorem Frame.locks_of_chosen {p : ProcPtr} (chosen : frame.chosen = some p) (me : Option ProcPtr) :
    frame.locks me = [.proc p] := by
  unfold Frame.chosen at chosen
  split at chosen <;> cases chosen <;> rfl

/-- `myproc()` is the process whose thread it is, except for a while in the scheduler. -/
def View.Mine (v : View) (me : Option ProcPtr) (frame : Frame) : Prop :=
  v.myproc = me ∨ frame.chosen ≠ none

theorem View.Mine.of_interruptible (mine : v.Mine me frame)
    (free : interruptible v.myproc (frame :: rest) = true) : v.myproc = me := by
  obtain same | chosen := mine
  · exact same
  · obtain ⟨p, chosen⟩ := Option.ne_none_iff_exists'.mp chosen
    have empty := locksOf_of_interruptible free
    rw [locksOf_cons, Frame.locks_of_chosen chosen] at empty
    exact absurd empty (List.cons_ne_nil _ _)

theorem call_shaped {locks : List Nat} (call : Call) (shaped : Shaped me (.kernel locks :: rest)) :
    Shaped me ((call.instr v locks).next ++ rest) := by
  obtain ⟨⟨rfl, someone⟩, -⟩ := shaped
  have base : Shaped me [.kernel []] := ⟨⟨rfl, someone⟩, trivial⟩
  fun_cases Call.instr v locks call
  case case1 => exact ⟨⟨rfl, someone⟩, trivial⟩
  case case3 => exact ⟨⟨_, _, rfl, rfl⟩, ⟨rfl, someone⟩, trivial⟩
  all_goals first | exact ⟨rfl, base⟩ | exact trivial

/-- Every action keeps the shape of the stack. -/
theorem instr_shaped (mine : v.Mine me frame) (shaped : Shaped me (frame :: rest))
    (action : Action) :
    Shaped me ((v.instr frame rest action).next ++ rest) := by
  have below := shaped.2
  fun_cases View.instr v frame rest action
  case case1 => exact (code_follows v true frame).shaped shaped
  case case2 => exact (code_follows v false frame).shaped shaped
  case case11 => exact call_shaped _ shaped
  case case12 => exact ⟨⟨_, _, rfl, rfl⟩, shaped⟩
  case case14 free =>
    have same := mine.of_interruptible free
    exact ⟨⟨List.cons_ne_nil _ _, same ▸ locksOf_of_interruptible free⟩, shaped⟩
  case case16 free =>
    have same := mine.of_interruptible free.1
    refine ⟨⟨List.cons_ne_nil _ _, same ▸ locksOf_of_interruptible free.1, ?_⟩, shaped⟩
    rw [← same]
    exact Option.isSome_iff_ne_none.mp free.2
  all_goals first | exact below | exact ⟨shaped.1, below⟩

/-- How an instruction changes the locks of a thread. -/
def Instr.Balanced (me : Option ProcPtr) (frame : Frame) : Instr → Prop
  | .stuck => True
  | .acquire lock next => (locksOf me next).Perm (lock :: frame.locks me)
  | .release lock next => (lock :: locksOf me next).Perm (frame.locks me)
  | instr => locksOf me instr.next = frame.locks me

theorem byProcess_balanced {act : ProcPtr → Instr} (mine : v.Mine me frame)
    (unchosen : frame.chosen = none)
    (process : ∀ p, (act p).Balanced (some p) frame) : (v.byProcess act).Balanced me frame := by
  refine byProcess_cases (fun instr => instr.Balanced me frame) trivial fun p isMe => ?_
  obtain rfl : some p = me := isMe.symm.trans (mine.resolve_right fun chosen => chosen unchosen)
  exact process p

theorem code_balanced (mine : v.Mine me frame) (ok : Bool) :
    (v.code ok frame).Balanced me frame := by
  cases frame with
  | scheduler pc =>
    change (v.scheduler pc).Balanced me _
    fun_cases View.scheduler v pc <;> first | exact rfl | exact .refl _
  | kernel locks => trivial
  | handler locks => trivial
  | returned value => exact rfl
  | yield pc | setkilled pc =>
    refine byProcess_balanced mine rfl fun p => ?_
    cases pc <;> first | exact rfl | exact .refl _
  | forkret => exact byProcess_balanced mine rfl fun p => .refl _
  | sleep caller pc =>
    refine byProcess_balanced mine rfl fun p => ?_
    cases pc with
    | acquire chan => exact .swap _ _ _
    | reacquire => cases caller <;> exact .refl _
    | _ => first | exact rfl | exact .refl _
  | wakeup chan called pc =>
    change (v.wakeup chan called pc).Balanced me _
    fun_cases View.wakeup v chan called pc <;> first | exact rfl | exact .refl _
  | kill pid pc =>
    change (v.kill pid pc).Balanced me _
    fun_cases View.kill v pid pc <;> first | exact rfl | exact .refl _
  | fork pc =>
    refine byProcess_balanced mine rfl fun p => ?_
    cases ok <;> fun_cases View.fork v _ p pc <;> first | exact rfl | exact .refl _
  | exit status pc =>
    refine byProcess_balanced mine rfl fun p => ?_
    fun_cases View.exit v p status pc <;>
      first | exact rfl | exact .refl _ | exact .swap _ _ _ | trivial
  | wait addr pc =>
    refine byProcess_balanced mine rfl fun p => ?_
    fun_cases View.wait v ok p addr pc
    case case2 => split_ifs <;> exact rfl
    case case3 => split_ifs <;> exact rfl
    case case15 => split_ifs <;> exact .refl _
    all_goals first | exact rfl | exact .refl _

theorem call_balanced (call : Call) (locks : List Nat) :
    (call.instr v locks).Balanced me (.kernel locks) := by
  cases call with
  | sleep chan lock =>
    simp only [Call.instr]
    split_ifs with only
    · rw [only]
      exact rfl
    · trivial
  | wakeup chan => exact List.append_nil _
  | exit status =>
    simp only [Call.instr]
    split_ifs with free
    · rw [free.1]
      exact rfl
    · trivial
  | _ =>
    simp only [Call.instr]
    split_ifs with free
    · rw [free]
      exact rfl
    · trivial

theorem instr_balanced (mine : v.Mine me frame) (rest : List Frame) (action : Action) :
    (v.instr frame rest action).Balanced me frame := by
  have taken (lock : Nat) (locks : List Nat) :
      (((lock :: locks).map Lock.other) ++ []).Perm (.other lock :: locks.map .other) := by
    rw [List.append_nil, List.map_cons]
  have dropped {lock : Nat} {locks : List Nat} (member : lock ∈ locks) :
      (Lock.other lock :: ((locks.erase lock).map Lock.other ++ [])).Perm (locks.map .other) := by
    rw [List.append_nil, ← List.map_cons]
    exact (List.perm_cons_erase member).symm.map _
  fun_cases View.instr v frame rest action
  case case1 => exact code_balanced mine true
  case case2 => exact code_balanced mine false
  case case3 => exact taken _ _
  case case4 => exact taken _ _
  case case6 member => exact dropped member
  case case8 member => exact dropped member
  case case11 => exact call_balanced _ _
  case case12 => exact List.append_nil _
  case case14 => exact List.append_nil _
  case case16 => exact List.append_nil _
  all_goals trivial

/-- What an instruction makes of the table. -/
def Instr.table (table : Table) : Instr → Table
  | .write q proc _ => Function.update table q proc
  | _ => table

@[simp] theorem Instr.table_write_self {table : Table} {q : ProcPtr} {proc : Proc} :
    (Instr.write q proc next).table table q = proc := Function.update_self _ _ _

theorem Instr.table_write_of_ne {table : Table} {p q : ProcPtr} {proc : Proc} (other : p ≠ q) :
    (Instr.write q proc next).table table p = table p := Function.update_of_ne other _ _

/-- The process whose thread starts anew. -/
def Instr.fresh : Instr → Option ProcPtr
  | .context np _ => some np
  | _ => none

/-- Instructions that change nothing but locks, `nextpid` and the stack. -/
def Instr.quiet : Instr → Bool
  | .stuck => true
  | .goto _ => true
  | .acquire _ _ => true
  | .release _ _ => true
  | .takePid _ => true
  | _ => false

theorem Instr.table_of_quiet {instr : Instr} (isQuiet : instr.quiet = true) (table : Table) :
    instr.table table = table := by
  cases instr <;> first | rfl | cases isQuiet

theorem Instr.fresh_of_quiet {instr : Instr} (isQuiet : instr.quiet = true) :
    instr.fresh = none := by
  cases instr <;> first | rfl | cases isQuiet

/-- All that frames do to the table, to `c->proc` and to who runs. -/
inductive Acts (v : View) : Frame → Instr → Prop where
  | quiet {frame : Frame} {instr : Instr} (isQuiet : instr.quiet = true) : Acts v frame instr
  | check {p : ProcPtr} {rest : List ProcPtr} (ready : (v.table p).state = .runnable) :
      Acts v (.scheduler (.check p rest))
        (.write p { v.table p with state := .running } [.scheduler (.assign p rest)])
  | assign {p : ProcPtr} {rest : List ProcPtr} :
      Acts v (.scheduler (.assign p rest)) (.setProc (some p) [.scheduler (.swtch p rest)])
  | swtch {p : ProcPtr} {rest : List ProcPtr} :
      Acts v (.scheduler (.swtch p rest)) (.resume p [.scheduler (.back p rest)])
  | back {p : ProcPtr} {rest : List ProcPtr} :
      Acts v (.scheduler (.back p rest)) (.setProc none [.scheduler (.unlock p rest)])
  | yieldSet {p : ProcPtr} (mine : v.myproc = some p) :
      Acts v (.yield .set) (.write p { v.table p with state := .runnable } [.yield .sched])
  | yieldSched {p : ProcPtr} (mine : v.myproc = some p) :
      Acts v (.yield .sched) (.suspend [.yield .release])
  | setkilled {p : ProcPtr} (mine : v.myproc = some p) :
      Acts v (.setkilled .set) (.write p { v.table p with killed := true } [.setkilled .release])
  | sleepSet {p : ProcPtr} {caller : Caller} {chan : Chan} {released : Nat}
      (mine : v.myproc = some p) :
      Acts v (.sleep caller (.set chan released))
        (.write p { v.table p with chan := some chan, state := .sleeping }
          [.sleep caller (.sched released)])
  | sleepSched {p : ProcPtr} {caller : Caller} {released : Nat} (mine : v.myproc = some p) :
      Acts v (.sleep caller (.sched released)) (.suspend [.sleep caller (.tidy released)])
  | sleepTidy {p : ProcPtr} {caller : Caller} {released : Nat} (mine : v.myproc = some p) :
      Acts v (.sleep caller (.tidy released))
        (.write p { v.table p with chan := none } [.sleep caller .unlock])
  | wakeup {p : ProcPtr} {chan : Option Chan} {called : Nat} {rest : List ProcPtr} :
      Acts v (.wakeup chan called (.check p rest))
        (.write p ((v.table p).woken chan) [.wakeup chan called (.unlock p rest)])
  | kill {p : ProcPtr} {pid : Int32} {rest : List ProcPtr} (same : (v.table p).pid = pid) :
      Acts v (.kill pid (.check p rest)) (.write p (v.table p).marked [.kill pid (.found p)])
  | forkUsed {np : ProcPtr} {pid : Int32} :
      Acts v (.fork (.used np pid))
        (.write np { v.table np with pid := pid, state := .used } [.fork (.memory np pid)])
  | forkContext {np : ProcPtr} {pid : Int32} :
      Acts v (.fork (.context np pid)) (.context np [.fork (.copy np pid)])
  | forkFree {np : ProcPtr} : Acts v (.fork (.free np)) (.write np Proc.freed [.fork (.failed np)])
  | forkParent {p np : ProcPtr} {pid : Int32} (mine : v.myproc = some p) :
      Acts v (.fork (.parent np pid))
        (.write np { v.table np with parent := some p } [.fork (.waitUnlock np pid)])
  | forkRunnable {np : ProcPtr} {pid : Int32} :
      Acts v (.fork (.runnable np pid))
        (.write np { v.table np with state := .runnable } [.fork (.done np pid)])
  | reparent {p pp : ProcPtr} {status : Int32} {rest : List ProcPtr} (mine : v.myproc = some p)
      (child : (v.table pp).parent = some p) :
      Acts v (.exit status (.reparent (pp :: rest)))
        (.write pp { v.table pp with parent := some initproc }
          [.wakeup (some (.proc initproc)) v.clock (.scan slots), .exit status (.reparent rest)])
  | zombie {p : ProcPtr} {status : Int32} (mine : v.myproc = some p) :
      Acts v (.exit status .zombie)
        (.write p { v.table p with xstate := status, state := .zombie } [.exit status .waitUnlock])
  | exitSched {p : ProcPtr} {status : Int32} (mine : v.myproc = some p) :
      Acts v (.exit status .sched) (.suspend [.exit status .gone])
  | reap {pp : ProcPtr} {addr : UInt64} {rest : List ProcPtr}
      (dead : (v.table pp).state = .zombie) :
      Acts v (.wait addr (.check pp rest))
        (.write pp Proc.freed
          [.wait addr (.freed pp (v.table pp).pid
            (if addr = 0 then none else some (v.table pp).xstate))])

theorem code_acts (v : View) (ok : Bool) (frame : Frame) : Acts v frame (v.code ok frame) := by
  cases frame with
  | scheduler pc =>
    change Acts v _ (v.scheduler pc)
    fun_cases View.scheduler v pc
    case case3 ready => exact .check ready
    case case5 => exact .assign
    case case6 => exact .swtch
    case case7 => exact .back
    all_goals exact .quiet rfl
  | kernel locks | handler locks | returned value => exact .quiet rfl
  | yield pc =>
    refine byProcess_cases (Acts v _) (.quiet rfl) fun p mine => ?_
    cases pc with
    | set => exact .yieldSet mine
    | sched => exact .yieldSched mine
    | _ => exact .quiet rfl
  | forkret => exact byProcess_cases (Acts v _) (.quiet rfl) fun p mine => .quiet rfl
  | setkilled pc =>
    refine byProcess_cases (Acts v _) (.quiet rfl) fun p mine => ?_
    cases pc with
    | set => exact .setkilled mine
    | _ => exact .quiet rfl
  | sleep caller pc =>
    refine byProcess_cases (Acts v _) (.quiet rfl) fun p mine => ?_
    cases pc with
    | set chan released => exact .sleepSet mine
    | sched released => exact .sleepSched mine
    | tidy released => exact .sleepTidy mine
    | _ => exact .quiet rfl
  | wakeup chan called pc =>
    change Acts v _ (v.wakeup chan called pc)
    fun_cases View.wakeup v chan called pc
    case case4 => exact .wakeup
    all_goals exact .quiet rfl
  | kill pid pc =>
    change Acts v _ (v.kill pid pc)
    fun_cases View.kill v pid pc
    case case3 same => exact .kill same
    all_goals exact .quiet rfl
  | fork pc =>
    refine byProcess_cases (Acts v _) (.quiet rfl) fun p mine => ?_
    fun_cases View.fork v ok p pc
    all_goals first
      | exact .forkUsed | exact .forkContext | exact .forkFree | exact .forkParent mine
      | exact .forkRunnable | exact .quiet rfl
  | exit status pc =>
    refine byProcess_cases (Acts v _) (.quiet rfl) fun p mine => ?_
    fun_cases View.exit v p status pc
    case case3 child => exact .reparent mine child
    all_goals first | exact .zombie mine | exact .exitSched mine | exact .quiet rfl
  | wait addr pc =>
    refine byProcess_cases (Acts v _) (.quiet rfl) fun p mine => ?_
    fun_cases View.wait v ok p addr pc
    case case6 dead _ => exact .reap dead
    all_goals exact .quiet rfl

theorem call_quiet (call : Call) (locks : List Nat) : (call.instr v locks).quiet = true := by
  cases call <;> simp only [Call.instr] <;> first | rfl | (split_ifs <;> rfl)

theorem instr_acts (v : View) (frame : Frame) (rest : List Frame) (action : Action) :
    Acts v frame (v.instr frame rest action) := by
  fun_cases View.instr v frame rest action
  case case1 => exact code_acts v true frame
  case case2 => exact code_acts v false frame
  case case11 => exact .quiet (call_quiet _ _)
  all_goals exact .quiet rfl

/-- The state of a process that runs a frame. -/
def Frame.state : Frame → ProcState
  | .yield .sched => .runnable
  | .sleep _ (.sched _) => .sleeping
  | .exit _ .waitUnlock => .zombie
  | .exit _ .sched => .zombie
  | _ => .running

/-- The process that a scheduler is about to switch to. -/
def Frame.picked : Frame → Option ProcPtr
  | .scheduler (.assign p _) => some p
  | .scheduler (.swtch p _) => some p
  | _ => none

theorem Frame.locks_of_picked {p : ProcPtr} (picked : frame.picked = some p) (me : Option ProcPtr) :
    frame.locks me = [.proc p] := by
  unfold Frame.picked at picked
  split at picked <;> cases picked <;> rfl

/-- What a process has of its own when it is in any other state than `RUNNING`. -/
theorem Frame.own_lock {p : ProcPtr} (changed : frame.state ≠ .running) :
    .proc p ∈ frame.locks (some p) := by
  unfold Frame.state at changed
  split at changed
  case h_5 => exact absurd rfl changed
  all_goals exact List.mem_cons_self

/-- The frame on top is one that a quiet step may leave there. -/
structure Frame.Settled (me : Option ProcPtr) (state : ProcState) (top : Frame) : Prop where
  chosen : top.chosen = none
  picked : top.picked = none
  state : me ≠ none → top.state = state

theorem Frame.Settled.of_locks {top : Frame} (free : top.locks me = []) :
    top.Settled me .running := by
  refine ⟨?_, ?_, ?_⟩
  · by_contra chosen
    obtain ⟨p, chosen⟩ := Option.ne_none_iff_exists'.mp chosen
    rw [Frame.locks_of_chosen chosen] at free
    exact List.cons_ne_nil _ _ free
  · unfold Frame.picked
    split
    · exact absurd free (List.cons_ne_nil _ _)
    · exact absurd free (List.cons_ne_nil _ _)
    · rfl
  · intro someone
    obtain ⟨p, rfl⟩ := Option.ne_none_iff_exists'.mp someone
    by_contra changed
    have held := Frame.own_lock (p := p) changed
    rw [free] at held
    exact List.not_mem_nil held

theorem Frame.Settled.of_callsWakeup {top : Frame} (calls : top.callsWakeup = true) :
    top.Settled me .running := by
  unfold Frame.callsWakeup at calls
  split at calls
  case h_5 => cases calls
  all_goals exact ⟨rfl, rfl, fun _ => rfl⟩

/-- A stack with a settled frame on top. -/
def Settled (me : Option ProcPtr) (state : ProcState) (stack : List Frame) : Prop :=
  ∃ top lower, stack = top :: lower ∧ top.Settled me state

theorem Settled.of_locksOf {stack : List Frame} (nonempty : stack ≠ [])
    (free : locksOf me stack = []) :
    Settled me .running stack := by
  obtain ⟨top, lower, rfl⟩ := List.exists_cons_of_ne_nil nonempty
  exact ⟨top, lower, rfl, .of_locks (List.append_eq_nil_iff.mp free).1⟩

theorem Settled.of_above_wakeup {chan : Option Chan} {called : Nat} {pc : WakeupPc}
    (above : (Frame.wakeup chan called pc).Above me rest) : Settled me .running rest := by
  obtain ⟨below, lower, rfl, calls⟩ := above
  exact ⟨below, lower, rfl, .of_callsWakeup calls⟩

/-- A quiet step leaves a settled frame on top. -/
def Instr.Settles (me : Option ProcPtr) (state : ProcState) (rest : List Frame)
    (instr : Instr) : Prop :=
  instr.quiet = true → instr ≠ .stuck → Settled me state (instr.next ++ rest)

theorem Instr.Settles.stuck {state : ProcState} : Instr.stuck.Settles me state rest :=
  fun _ moves => absurd rfl moves

theorem code_settles (above : frame.Above me rest) :
    (v.code ok frame).Settles me frame.state rest := by
  cases frame with
  | scheduler pc =>
    change (v.scheduler pc).Settles me _ rest
    fun_cases View.scheduler v pc <;> intro isQuiet _
    all_goals first | exact ⟨_, _, rfl, rfl, rfl, fun _ => rfl⟩ | cases isQuiet
  | kernel locks => exact .stuck
  | handler locks => exact .stuck
  | returned value =>
    intro _ _
    cases above
    exact ⟨_, _, rfl, rfl, rfl, fun _ => rfl⟩
  | yield pc =>
    refine byProcess_cases (Instr.Settles me _ rest) .stuck fun p _ => ?_
    cases pc <;> intro isQuiet _
    all_goals first
      | exact ⟨_, _, rfl, rfl, rfl, fun _ => rfl⟩ | exact .of_locksOf above.1 above.2.1
      | cases isQuiet
  | forkret =>
    refine byProcess_cases (Instr.Settles me _ rest) .stuck fun p _ => ?_
    intro _ _
    exact ⟨_, _, rfl, rfl, rfl, fun _ => rfl⟩
  | setkilled pc =>
    refine byProcess_cases (Instr.Settles me _ rest) .stuck fun p _ => ?_
    cases above
    cases pc <;> exact fun _ _ => ⟨_, _, rfl, rfl, rfl, fun _ => rfl⟩
  | sleep caller pc =>
    refine byProcess_cases (Instr.Settles me _ rest) .stuck fun p _ => ?_
    cases pc <;> intro isQuiet _
    case reacquire => cases caller <;> exact ⟨_, _, rfl, rfl, rfl, fun _ => rfl⟩
    all_goals first | exact ⟨_, _, rfl, rfl, rfl, fun _ => rfl⟩ | cases isQuiet
  | wakeup chan called pc =>
    change (v.wakeup chan called pc).Settles me _ rest
    fun_cases View.wakeup v chan called pc <;> intro _ _
    case case1 => exact .of_above_wakeup above
    all_goals exact ⟨_, _, rfl, rfl, rfl, fun _ => rfl⟩
  | kill pid pc =>
    change (v.kill pid pc).Settles me _ rest
    fun_cases View.kill v pid pc <;> exact fun _ _ => ⟨_, _, rfl, rfl, rfl, fun _ => rfl⟩
  | fork pc =>
    refine byProcess_cases (Instr.Settles me _ rest) .stuck fun p _ => ?_
    fun_cases View.fork v ok p pc <;> exact fun _ _ => ⟨_, _, rfl, rfl, rfl, fun _ => rfl⟩
  | exit status pc =>
    refine byProcess_cases (Instr.Settles me _ rest) .stuck fun p _ => ?_
    fun_cases View.exit v p status pc <;> intro isQuiet moves
    all_goals first
      | exact ⟨_, _, rfl, rfl, rfl, fun _ => rfl⟩ | exact absurd rfl moves | cases isQuiet
  | wait addr pc =>
    refine byProcess_cases (Instr.Settles me _ rest) .stuck fun p _ => ?_
    fun_cases View.wait v ok p addr pc <;> intro _ _
    case case15 => split_ifs <;> exact ⟨_, _, rfl, rfl, rfl, fun _ => rfl⟩
    all_goals exact ⟨_, _, rfl, rfl, rfl, fun _ => rfl⟩

theorem call_settles (call : Call) (locks : List Nat) :
    (call.instr v locks).Settles me .running rest := by
  fun_cases Call.instr v locks call <;> intro _ moves
  all_goals first | exact ⟨_, _, rfl, rfl, rfl, fun _ => rfl⟩ | exact absurd rfl moves

theorem interrupted_state (mine : v.Mine me frame)
    (free : interruptible v.myproc (frame :: rest) = true)
    (someone : me ≠ none) : .running = frame.state := by
  obtain rfl := mine.of_interruptible free
  have idle := List.append_eq_nil_iff.mp (locksOf_of_interruptible free)
  exact ((Frame.Settled.of_locks idle.1).state someone).symm

theorem instr_settles (mine : v.Mine me frame) (above : frame.Above me rest) (action : Action) :
    (v.instr frame rest action).Settles me frame.state rest := by
  fun_cases View.instr v frame rest action
  case case1 => exact code_settles above
  case case2 => exact code_settles above
  case case11 => exact call_settles _ _
  case case14 free =>
    intro _ _
    exact ⟨_, _, rfl, rfl, rfl, interrupted_state mine free⟩
  case case16 free =>
    intro _ _
    exact ⟨_, _, rfl, rfl, rfl, interrupted_state mine free.1⟩
  case case18 =>
    intro _ _
    exact .of_locksOf above.1 above.2
  all_goals intro _ moves
  all_goals first | exact ⟨_, _, rfl, rfl, rfl, fun _ => rfl⟩ | exact absurd rfl moves

/-- Where a frame ends: with no lock left, or it was `wakeup`. -/
inductive Returns (me : Option ProcPtr) : Frame → List Frame → Prop where
  | free {frame : Frame} {rest : List Frame} (nonempty : rest ≠ [])
      (unlocked : locksOf me rest = []) :
      Returns me frame rest
  | wakeup {chan : Option Chan} {called : Nat} {below : Frame} {lower : List Frame}
      (calls : below.callsWakeup = true) :
        Returns me (.wakeup chan called (.scan [])) (below :: lower)

/-- What a function returns to. -/
theorem code_returns (above : frame.Above me rest) :
    v.code ok frame ≠ .stuck → (v.code ok frame).next = [] → Returns me frame rest := by
  have base (same : rest = [.kernel []]) : Returns me frame rest := by
    rw [same]
    exact .free (List.cons_ne_nil _ _) rfl
  cases frame with
  | scheduler pc =>
    change v.scheduler pc ≠ .stuck → (v.scheduler pc).next = [] → _
    fun_cases View.scheduler v pc <;> exact fun _ empty => absurd empty (List.cons_ne_nil _ _)
  | kernel locks | handler locks => exact fun moves _ => absurd rfl moves
  | returned value | setkilled pc | kill pid pc | fork pc | exit status pc | wait addr pc =>
    exact fun _ _ => base above
  | yield pc => exact fun _ _ => .free above.1 above.2.1
  | wakeup chan called pc =>
    obtain ⟨below, lower, rfl, calls⟩ := above
    change v.wakeup chan called pc ≠ .stuck → (v.wakeup chan called pc).next = [] → _
    fun_cases View.wakeup v chan called pc
    case case1 => exact fun _ _ => .wakeup calls
    all_goals exact fun _ empty => absurd empty (List.cons_ne_nil _ _)
  | sleep caller pc =>
    refine byProcess_cases (fun instr => instr ≠ .stuck → instr.next = [] → _)
      (fun moves _ => absurd rfl moves) fun p _ => ?_
    cases pc <;> exact fun _ empty => absurd empty (List.cons_ne_nil _ _)
  | forkret =>
    exact byProcess_cases (fun instr => instr ≠ .stuck → instr.next = [] → _)
      (fun moves _ => absurd rfl moves) fun p _ _ empty => absurd empty (List.cons_ne_nil _ _)

theorem call_next_ne (call : Call) (locks : List Nat) :
    call.instr v locks ≠ .stuck → (call.instr v locks).next ≠ [] := by
  cases call <;> simp only [Call.instr]
  case wakeup => exact fun _ => List.cons_ne_nil _ _
  all_goals
    split_ifs
    · exact fun _ => List.cons_ne_nil _ _
    · exact absurd rfl

theorem instr_returns (above : frame.Above me rest) :
    v.instr frame rest action ≠ .stuck → (v.instr frame rest action).next = [] →
      Returns me frame rest := by
  fun_cases View.instr v frame rest action
  case case1 => exact code_returns above
  case case2 => exact code_returns above
  case case11 => exact fun moves empty => absurd empty (call_next_ne _ _ moves)
  case case18 => exact fun _ _ => .free above.1 above.2
  all_goals
    intro moves empty
    first | exact absurd rfl moves | cases empty

/-- Only a frame without a choice made goes on quietly. -/
theorem chosen_of_quiet (isQuiet : (v.instr frame rest action).quiet = true)
    (moves : v.instr frame rest action ≠ .stuck) : frame.chosen = none := by
  by_contra chosen
  obtain ⟨p, chosen⟩ := Option.ne_none_iff_exists'.mp chosen
  have busy : interruptible v.myproc (frame :: rest) ≠ true := by
    intro free
    have empty := locksOf_of_interruptible free
    rw [locksOf_cons, Frame.locks_of_chosen chosen] at empty
    exact List.cons_ne_nil _ _ empty
  unfold Frame.chosen at chosen
  split at chosen
  case h_3 => cases chosen
  all_goals
    cases action with
    | interrupt =>
      unfold View.instr at moves
      exact moves (if_neg busy)
    | timer =>
      unfold View.instr at moves
      exact moves (if_neg fun free => busy free.1)
    | run => cases isQuiet
    | fail => cases isQuiet
    | _ => exact moves rfl

/-- How far `fork` has come with a slot: found free, made `USED`, and given a context. -/
inductive Stage where
  | taken
  | owned
  | ready
deriving DecidableEq

/-- The slot a call of `fork` works on. -/
def Frame.slot : Frame → Option (ProcPtr × Stage)
  | .fork (.pidLock np) => some (np, .taken)
  | .fork (.pidTake np) => some (np, .taken)
  | .fork (.pidUnlock np _) => some (np, .taken)
  | .fork (.used np _) => some (np, .taken)
  | .fork (.memory np _) => some (np, .owned)
  | .fork (.context np _) => some (np, .owned)
  | .fork (.free np) => some (np, .owned)
  | .fork (.copy np _) => some (np, .ready)
  | .fork (.unlock np _) => some (np, .ready)
  | .fork (.waitLock np _) => some (np, .ready)
  | .fork (.parent np _) => some (np, .ready)
  | .fork (.waitUnlock np _) => some (np, .ready)
  | .fork (.relock np _) => some (np, .ready)
  | .fork (.runnable np _) => some (np, .ready)
  | _ => none

/-- How a step of `fork` changes what it knows of its slot. -/
inductive Advances (v : View) : Frame → Instr → ProcPtr → Stage → Prop where
  | same {frame : Frame} {instr : Instr} {np : ProcPtr} {stage : Stage}
      (isQuiet : instr.quiet = true)
      (slot : frame.slot = some (np, stage)) : Advances v frame instr np stage
  | fails {frame : Frame} {instr : Instr} {np : ProcPtr} (isQuiet : instr.quiet = true)
      (slot : frame.slot = some (np, .ready)) : Advances v frame instr np .owned
  | found {np : ProcPtr} {left : List ProcPtr} {instr : Instr} (isQuiet : instr.quiet = true)
      (free : (v.table np).state = .unused) : Advances v (.fork (.check np left)) instr np .taken
  | used {np : ProcPtr} {pid : Int32} :
      Advances v (.fork (.used np pid))
        (.write np { v.table np with pid := pid, state := .used } [.fork (.memory np pid)]) np
          .owned
  | context {np : ProcPtr} {pid : Int32} :
      Advances v (.fork (.context np pid)) (.context np [.fork (.copy np pid)]) np .ready
  | parent {p np : ProcPtr} {pid : Int32} :
      Advances v (.fork (.parent np pid))
        (.write np { v.table np with parent := some p } [.fork (.waitUnlock np pid)]) np .ready

theorem fork_advances {p np : ProcPtr} {stage : Stage} {pc : ForkPc} {g : Frame}
    (member : g ∈ (v.fork ok p pc).next) (slot : g.slot = some (np, stage)) :
    Advances v (.fork pc) (v.fork ok p pc) np stage := by
  cases pc with
  | scan left => cases left <;> cases List.mem_singleton.mp member <;> cases slot
  | check np' left =>
    simp only [View.fork] at member ⊢
    split_ifs at member ⊢ with free
    · cases List.mem_singleton.mp member
      cases slot
      exact .found rfl free
    · cases List.mem_singleton.mp member
      cases slot
  | used np' pid =>
    cases List.mem_singleton.mp member
    cases slot
    exact .used
  | memory np' pid =>
    cases ok <;> cases List.mem_singleton.mp member <;> cases slot <;> exact .same rfl rfl
  | context np' pid =>
    cases List.mem_singleton.mp member
    cases slot
    exact .context
  | copy np' pid =>
    cases ok <;> cases List.mem_singleton.mp member <;> cases slot
    · exact .fails rfl rfl
    · exact .same rfl rfl
  | parent np' pid =>
    cases List.mem_singleton.mp member
    cases slot
    exact .parent
  | _ =>
    cases List.mem_singleton.mp member
    cases slot
    all_goals exact .same rfl rfl

/-- Only `fork` has a slot. -/
theorem Follows.slot {g : Frame} (follows : Follows frame next) (member : g ∈ next)
    (slotted : g.slot ≠ none) :
    ∃ pc, frame = .fork pc := by
  cases follows with
  | fork => exact ⟨_, rfl⟩
  | forkReturns => exact ⟨_, rfl⟩
  | exitCalls =>
    rcases List.mem_pair.mp member with rfl | rfl <;> exact absurd rfl slotted
  | resume =>
    rename_i caller _
    cases List.mem_singleton.mp member
    cases caller <;> exact absurd rfl slotted
  | pop => cases member
  | _ =>
    cases List.mem_singleton.mp member
    exact absurd rfl slotted

theorem code_advances {np : ProcPtr} {stage : Stage} {g : Frame}
    (member : g ∈ (v.code ok frame).next)
    (slot : g.slot = some (np, stage)) : Advances v frame (v.code ok frame) np stage := by
  obtain ⟨pc, rfl⟩ := (code_follows v ok frame).slot member (by simp [slot])
  revert member
  exact byProcess_cases (fun instr => g ∈ instr.next → Advances v _ instr np stage) nofun
    fun p _ member => fork_advances member slot

/-- The frames that calls from other code and interrupts start with. -/
inductive Begins (v : View) : Action → Frame → Frame → Prop where
  | kernel {action : Action} {frame : Frame} {locks : List Nat} :
      Begins v action frame (.kernel locks)
  | handler {action : Action} {frame : Frame} {locks : List Nat} :
      Begins v action frame (.handler locks)
  | yield {frame : Frame} : Begins v .timer frame (.yield .acquire)
  | wakeup {action : Action} {frame : Frame} {chan : Nat} :
      Begins v action frame (.wakeup (some (.other chan)) v.clock (.scan slots))
  | sleep {chan lock : Nat} :
      Begins v (.call (.sleep chan lock)) (.kernel [lock])
        (.sleep (.kernel lock) (.acquire (.other chan)))
  | kill {pid : Int32} : Begins v (.call (.kill pid)) (.kernel []) (.kill pid (.scan slots))
  | setkilled : Begins v (.call .setkilled) (.kernel []) (.setkilled .acquire)
  | fork : Begins v (.call .fork) (.kernel []) (.fork (.scan slots))
  | exit {status : Int32} (notInit : v.myproc ≠ some initproc) :
      Begins v (.call (.exit status)) (.kernel []) (.exit status .waitLock)
  | wait {addr : UInt64} : Begins v (.call (.wait addr)) (.kernel []) (.wait addr .lock)

theorem call_begins {locks : List Nat} {call : Call} {g : Frame}
    (member : g ∈ (call.instr v locks).next) :
    Begins v (.call call) (.kernel locks) g := by
  cases call with
  | sleep chan lock =>
    simp only [Call.instr] at member
    split_ifs at member with only
    · rw [List.mem_singleton.mp member, only]
      exact .sleep
    · cases member
  | wakeup chan => rcases List.mem_pair.mp member with rfl | rfl <;> constructor
  | exit status =>
    simp only [Call.instr] at member
    split_ifs at member with free
    · rw [free.1]
      rcases List.mem_pair.mp member with rfl | rfl
      · exact .exit free.2
      · exact .kernel
    · cases member
  | _ =>
    simp only [Call.instr] at member
    split_ifs at member with free
    · rw [free]
      rcases List.mem_pair.mp member with rfl | rfl <;> constructor
    · cases member

/-- Where a frame of a stack after a step comes from, unless it was there. -/
theorem instr_origin {g : Frame} (member : g ∈ (v.instr frame rest action).next) :
    (∃ ok, v.instr frame rest action = v.code ok frame) ∨
      (v.instr frame rest action).quiet = true ∧ (g = frame ∨ Begins v action frame g) := by
  revert member
  fun_cases View.instr v frame rest action
  case case1 => exact fun _ => .inl ⟨true, rfl⟩
  case case2 => exact fun _ => .inl ⟨false, rfl⟩
  case case11 => exact fun member => .inr ⟨call_quiet _ _, .inr (call_begins member)⟩
  case case12 =>
    intro member
    rcases List.mem_pair.mp member with rfl | rfl
    · exact .inr ⟨rfl, .inr .wakeup⟩
    · exact .inr ⟨rfl, .inr .handler⟩
  case case14 =>
    intro member
    rcases List.mem_pair.mp member with rfl | rfl
    · exact .inr ⟨rfl, .inr .handler⟩
    · exact .inr ⟨rfl, .inl rfl⟩
  case case16 =>
    intro member
    rcases List.mem_pair.mp member with rfl | rfl
    · exact .inr ⟨rfl, .inr .yield⟩
    · exact .inr ⟨rfl, .inl rfl⟩
  all_goals
    intro member
    first
      | (cases List.mem_singleton.mp member; exact .inr ⟨rfl, .inr .kernel⟩)
      | (cases List.mem_singleton.mp member; exact .inr ⟨rfl, .inr .handler⟩)
      | cases member

/-- A frame with a slot is one that was there, or the next of the same call. -/
theorem instr_advances {np : ProcPtr} {stage : Stage} {g : Frame}
    (member : g ∈ (v.instr frame rest action).next) (slot : g.slot = some (np, stage)) :
    Advances v frame (v.instr frame rest action) np stage := by
  obtain ⟨ok, same⟩ | ⟨isQuiet, rfl | begins⟩ := instr_origin member
  · rw [same] at member ⊢
    exact code_advances member slot
  · exact .same isQuiet slot
  · cases begins <;> cases slot

end Xv6.Kernel.Sched
