import Xv6.Kernel.Sched.Proc
import Xv6.Lib.Transition

/-!
The kernel threads of `proc.c` on any number of CPUs, one lock operation or one block
of statements between two of them at a time.

Owns: the frames of `scheduler`, `yield`, `forkret`, `sleep`, `wakeup`, `kill`,
`setkilled`, `fork`, `exit` and `wait`, with the local variables a frame still needs;
what each does next; and the machine that runs them, with interrupts at every point
where the CPU holds no lock.

Does not own: any property of its runs. Kernel code outside `proc.c` is a frame that
takes and releases locks of its own and calls the functions above. Copying memory and
files in `fork`, `copyout` in `wait` and allocation appear only as success or failure.
-/

namespace Xv6.Kernel.Sched

open Xv6.Lib Function

/-- `p->lock`, `wait_lock`, `pid_lock`, and the locks of other code. -/
inductive Lock where
  | proc (p : ProcPtr)
  | wait
  | pid
  | other (n : Nat)
deriving DecidableEq

/-- Who called `sleep`, and so with which lock, and what goes on after it. -/
inductive Caller where
  | kernel (n : Nat)
  | wait (addr : UInt64)
deriving DecidableEq

/-- The lock `sleep` was given. -/
def Caller.lk : Caller → Lock
  | .kernel n => .other n
  | .wait _ => .wait

/-- Where a CPU is in `scheduler`. A scan of the table keeps the slots it has yet to look
at, here and in the functions below. -/
inductive SchedulerPc where
  | scan (rest : List ProcPtr)
  | check (p : ProcPtr) (rest : List ProcPtr)
  | assign (p : ProcPtr) (rest : List ProcPtr)
  | swtch (p : ProcPtr) (rest : List ProcPtr)
  | back (p : ProcPtr) (rest : List ProcPtr)
  | unlock (p : ProcPtr) (rest : List ProcPtr)
deriving DecidableEq

inductive YieldPc where
  | acquire
  | set
  | sched
  | release
deriving DecidableEq

inductive SetkilledPc where
  | acquire
  | set
  | release
deriving DecidableEq

/-- `released` is when the lock given to `sleep` was released. -/
inductive SleepPc where
  | acquire (chan : Chan)
  | release (chan : Chan)
  | set (chan : Chan) (released : Nat)
  | sched (released : Nat)
  | tidy (released : Nat)
  | unlock
  | reacquire
deriving DecidableEq

inductive WakeupPc where
  | scan (rest : List ProcPtr)
  | check (p : ProcPtr) (rest : List ProcPtr)
  | unlock (p : ProcPtr) (rest : List ProcPtr)
deriving DecidableEq

inductive KillPc where
  | scan (rest : List ProcPtr)
  | check (p : ProcPtr) (rest : List ProcPtr)
  | skip (p : ProcPtr) (rest : List ProcPtr)
  | found (p : ProcPtr)
deriving DecidableEq

/-- Where a process is in `fork`, with `allocproc` and `allocpid`. -/
inductive ForkPc where
  | scan (rest : List ProcPtr)
  | check (np : ProcPtr) (rest : List ProcPtr)
  | skip (np : ProcPtr) (rest : List ProcPtr)
  | pidLock (np : ProcPtr)
  | pidTake (np : ProcPtr)
  | pidUnlock (np : ProcPtr) (pid : Int32)
  | used (np : ProcPtr) (pid : Int32)
  | memory (np : ProcPtr) (pid : Int32)
  | context (np : ProcPtr) (pid : Int32)
  | copy (np : ProcPtr) (pid : Int32)
  | free (np : ProcPtr)
  | failed (np : ProcPtr)
  | unlock (np : ProcPtr) (pid : Int32)
  | waitLock (np : ProcPtr) (pid : Int32)
  | parent (np : ProcPtr) (pid : Int32)
  | waitUnlock (np : ProcPtr) (pid : Int32)
  | relock (np : ProcPtr) (pid : Int32)
  | runnable (np : ProcPtr) (pid : Int32)
  | done (np : ProcPtr) (pid : Int32)
deriving DecidableEq

/-- Where a process is in `exit`, with `reparent`. -/
inductive ExitPc where
  | waitLock
  | reparent (rest : List ProcPtr)
  | wake
  | lock
  | zombie
  | waitUnlock
  | sched
  | gone
deriving DecidableEq

/-- Where a process is in `wait`, with the call of `killed`. -/
inductive WaitPc where
  | lock
  | scan (rest : List ProcPtr) (havekids : Bool)
  | child (pp : ProcPtr) (rest : List ProcPtr)
  | check (pp : ProcPtr) (rest : List ProcPtr)
  | next (pp : ProcPtr) (rest : List ProcPtr)
  | freed (pp : ProcPtr) (pid : Int32) (copied : Option Int32)
  | done (pid : Int32) (copied : Option Int32)
  | fault (pp : ProcPtr)
  | giveUp
  | killedLock
  | killedRead
  | killedUnlock (killed : Bool)
deriving DecidableEq

/-- A function that a kernel thread is in, with its arguments, and where in it. `called` is
when `wakeup` was called. -/
inductive Frame where
  | scheduler (pc : SchedulerPc)
  /-- Code outside `proc.c` and an interrupt handler, with the locks they hold. -/
  | kernel (locks : List Nat)
  | handler (locks : List Nat)
  | returned (value : Int32)
  | yield (pc : YieldPc)
  | forkret
  | setkilled (pc : SetkilledPc)
  | sleep (caller : Caller) (pc : SleepPc)
  | wakeup (chan : Option Chan) (called : Nat) (pc : WakeupPc)
  | kill (pid : Int32) (pc : KillPc)
  | fork (pc : ForkPc)
  | exit (status : Int32) (pc : ExitPc)
  | wait (addr : UInt64) (pc : WaitPc)
deriving DecidableEq

/-- Where `sleep` returns to: the loop of `wait`, or code that holds the lock again. -/
def Caller.resume : Caller → Frame
  | .kernel n => .kernel [n]
  | .wait addr => .wait addr (.scan slots false)

/-- What runs on a CPU: its scheduler, or the kernel thread of a process. -/
inductive Thread (Cpu : Type) where
  | sched (c : Cpu)
  | proc (p : ProcPtr)
deriving DecidableEq

/-- What a block of statements reads: the table, `nextpid`, `myproc()`, and the time. -/
structure View where
  table : Table
  nextpid : Int32
  myproc : Option ProcPtr
  clock : Nat

/-- What a frame does, and the frames that take its place. -/
inductive Instr where
  | stuck
  | goto (next : List Frame)
  | acquire (lock : Lock) (next : List Frame)
  | release (lock : Lock) (next : List Frame)
  /-- An assignment to fields of one process. -/
  | write (p : ProcPtr) (proc : Proc) (next : List Frame)
  /-- `nextpid = nextpid + 1` -/
  | takePid (next : List Frame)
  /-- `c->proc = p` -/
  | setProc (p : Option ProcPtr) (next : List Frame)
  /-- `np->context.ra = forkret` -/
  | context (np : ProcPtr) (next : List Frame)
  /-- `swtch` from the scheduler to a process, and from a process to the scheduler. -/
  | resume (p : ProcPtr) (next : List Frame)
  | suspend (next : List Frame)

/-- The frames that take the place of the one on top. -/
def Instr.next : Instr → List Frame
  | .stuck => []
  | .goto next => next
  | .acquire _ next => next
  | .release _ next => next
  | .write _ _ next => next
  | .takePid next => next
  | .setProc _ next => next
  | .context _ next => next
  | .resume _ next => next
  | .suspend next => next

namespace View

variable (v : View)

/-- `scheduler` -/
def scheduler : SchedulerPc → Instr
  | .scan [] => .goto [.scheduler (.scan slots)]
  | .scan (p :: rest) => .acquire (.proc p) [.scheduler (.check p rest)]
  | .check p rest =>
    if (v.table p).state = .runnable then
      .write p { v.table p with state := .running } [.scheduler (.assign p rest)]
    else .goto [.scheduler (.unlock p rest)]
  | .assign p rest => .setProc (some p) [.scheduler (.swtch p rest)]
  | .swtch p rest => .resume p [.scheduler (.back p rest)]
  | .back p rest => .setProc none [.scheduler (.unlock p rest)]
  | .unlock p rest => .release (.proc p) [.scheduler (.scan rest)]

/-- `yield`, called by `p` -/
def yield (p : ProcPtr) : YieldPc → Instr
  | .acquire => .acquire (.proc p) [.yield .set]
  | .set => .write p { v.table p with state := .runnable } [.yield .sched]
  | .sched => .suspend [.yield .release]
  | .release => .release (.proc p) []

/-- `setkilled(p)`, called by `p` -/
def setkilled (p : ProcPtr) : SetkilledPc → Instr
  | .acquire => .acquire (.proc p) [.setkilled .set]
  | .set => .write p { v.table p with killed := true } [.setkilled .release]
  | .release => .release (.proc p) []

/-- `sleep`, called by `p` -/
def sleep (p : ProcPtr) (caller : Caller) : SleepPc → Instr
  | .acquire chan => .acquire (.proc p) [.sleep caller (.release chan)]
  | .release chan => .release caller.lk [.sleep caller (.set chan v.clock)]
  | .set chan released =>
    .write p { v.table p with chan := some chan, state := .sleeping }
      [.sleep caller (.sched released)]
  | .sched released => .suspend [.sleep caller (.tidy released)]
  | .tidy _ => .write p { v.table p with chan := none } [.sleep caller .unlock]
  | .unlock => .release (.proc p) [.sleep caller .reacquire]
  | .reacquire => .acquire caller.lk [caller.resume]

/-- `wakeup` -/
def wakeup (chan : Option Chan) (called : Nat) : WakeupPc → Instr
  | .scan [] => .goto []
  | .scan (p :: rest) =>
    if v.myproc = some p then .goto [.wakeup chan called (.scan rest)]
    else .acquire (.proc p) [.wakeup chan called (.check p rest)]
  | .check p rest => .write p ((v.table p).woken chan) [.wakeup chan called (.unlock p rest)]
  | .unlock p rest => .release (.proc p) [.wakeup chan called (.scan rest)]

/-- `kill` -/
def kill (pid : Int32) : KillPc → Instr
  | .scan [] => .goto [.returned (-1)]
  | .scan (p :: rest) => .acquire (.proc p) [.kill pid (.check p rest)]
  | .check p rest =>
    if (v.table p).pid = pid then .write p (v.table p).marked [.kill pid (.found p)]
    else .goto [.kill pid (.skip p rest)]
  | .skip p rest => .release (.proc p) [.kill pid (.scan rest)]
  | .found p => .release (.proc p) [.returned 0]

/-- `fork`, called by `p`; `ok` says whether there is memory enough. -/
def fork (ok : Bool) (p : ProcPtr) : ForkPc → Instr
  | .scan [] => .goto [.returned (-1)]
  | .scan (np :: rest) => .acquire (.proc np) [.fork (.check np rest)]
  | .check np rest =>
    if (v.table np).state = .unused then .goto [.fork (.pidLock np)]
    else .goto [.fork (.skip np rest)]
  | .skip np rest => .release (.proc np) [.fork (.scan rest)]
  | .pidLock np => .acquire .pid [.fork (.pidTake np)]
  | .pidTake np => .takePid [.fork (.pidUnlock np v.nextpid)]
  | .pidUnlock np pid => .release .pid [.fork (.used np pid)]
  | .used np pid =>
    .write np { v.table np with pid := pid, state := .used } [.fork (.memory np pid)]
  | .memory np pid => .goto [.fork (if ok then .context np pid else .free np)]
  | .context np pid => .context np [.fork (.copy np pid)]
  | .copy np pid => .goto [.fork (if ok then .unlock np pid else .free np)]
  | .free np => .write np Proc.freed [.fork (.failed np)]
  | .failed np => .release (.proc np) [.returned (-1)]
  | .unlock np pid => .release (.proc np) [.fork (.waitLock np pid)]
  | .waitLock np pid => .acquire .wait [.fork (.parent np pid)]
  | .parent np pid => .write np { v.table np with parent := some p } [.fork (.waitUnlock np pid)]
  | .waitUnlock np pid => .release .wait [.fork (.relock np pid)]
  | .relock np pid => .acquire (.proc np) [.fork (.runnable np pid)]
  | .runnable np pid => .write np { v.table np with state := .runnable } [.fork (.done np pid)]
  | .done np pid => .release (.proc np) [.returned pid]

/-- `exit` and `reparent`, called by `p`; the end of `sched` is never reached. -/
def exit (p : ProcPtr) (status : Int32) : ExitPc → Instr
  | .waitLock => .acquire .wait [.exit status (.reparent slots)]
  | .reparent [] => .goto [.exit status .wake]
  | .reparent (pp :: rest) =>
    if (v.table pp).parent = some p then
      .write pp { v.table pp with parent := some initproc }
        [.wakeup (some (.proc initproc)) v.clock (.scan slots), .exit status (.reparent rest)]
    else .goto [.exit status (.reparent rest)]
  | .wake =>
    .goto [.wakeup ((v.table p).parent.map .proc) v.clock (.scan slots), .exit status .lock]
  | .lock => .acquire (.proc p) [.exit status .zombie]
  | .zombie =>
    .write p { v.table p with xstate := status, state := .zombie } [.exit status .waitUnlock]
  | .waitUnlock => .release .wait [.exit status .sched]
  | .sched => .suspend [.exit status .gone]
  | .gone => .stuck

/-- `wait`, called by `p`; `ok` says whether `copyout` succeeds. -/
def wait (ok : Bool) (p : ProcPtr) (addr : UInt64) : WaitPc → Instr
  | .lock => .acquire .wait [.wait addr (.scan slots false)]
  | .scan [] havekids => .goto [.wait addr (if havekids then .killedLock else .giveUp)]
  | .scan (pp :: rest) havekids =>
    .goto [.wait addr (if (v.table pp).parent = some p then .child pp rest
      else .scan rest havekids)]
  | .child pp rest => .acquire (.proc pp) [.wait addr (.check pp rest)]
  | .check pp rest =>
    if (v.table pp).state = .zombie then
      if addr ≠ 0 ∧ ok = false then .goto [.wait addr (.fault pp)]
      else .write pp Proc.freed
        [.wait addr (.freed pp (v.table pp).pid (if addr = 0 then none
          else some (v.table pp).xstate))]
    else .goto [.wait addr (.next pp rest)]
  | .next pp rest => .release (.proc pp) [.wait addr (.scan rest true)]
  | .freed pp pid copied => .release (.proc pp) [.wait addr (.done pid copied)]
  | .done pid _ => .release .wait [.returned pid]
  | .fault pp => .release (.proc pp) [.wait addr .giveUp]
  | .giveUp => .release .wait [.returned (-1)]
  | .killedLock => .acquire (.proc p) [.wait addr .killedRead]
  | .killedRead => .goto [.wait addr (.killedUnlock (v.table p).killed)]
  | .killedUnlock killed =>
    .release (.proc p)
      [if killed then .wait addr .giveUp else .sleep (.wait addr) (.acquire (.proc p))]

/-- What a process does when `myproc()` is not null, as it never is in its thread. -/
def byProcess (act : ProcPtr → Instr) : Instr :=
  match v.myproc with
  | some p => act p
  | none => .stuck

/-- The next step in a frame. -/
def code (ok : Bool) : Frame → Instr
  | .scheduler pc => v.scheduler pc
  | .kernel _ => .stuck
  | .handler _ => .stuck
  | .returned _ => .goto []
  | .yield pc => v.byProcess fun p => v.yield p pc
  | .forkret => v.byProcess fun p => .release (.proc p) [.kernel []]
  | .setkilled pc => v.byProcess fun p => v.setkilled p pc
  | .sleep caller pc => v.byProcess fun p => v.sleep p caller pc
  | .wakeup chan called pc => v.wakeup chan called pc
  | .kill pid pc => v.kill pid pc
  | .fork pc => v.byProcess fun p => v.fork ok p pc
  | .exit status pc => v.byProcess fun p => v.exit p status pc
  | .wait addr pc => v.byProcess fun p => v.wait ok p addr pc

end View

/-- The calls that code outside `proc.c` makes. -/
inductive Call where
  | sleep (chan : Nat) (lock : Nat)
  | wakeup (chan : Nat)
  | kill (pid : Int32)
  | setkilled
  | fork
  | exit (status : Int32)
  | wait (addr : UInt64)

/-- The call from code that holds `locks`. Callers are assumed to hold, at a call of `sleep`,
the one lock it gives up, at `wakeup` any, and at the others, which are system calls or the
end of one, none: with another lock held, `sched` panics. `exit` panics in `initproc`. -/
def Call.instr (v : View) (locks : List Nat) : Call → Instr
  | .sleep chan lock =>
    if locks = [lock] then .goto [.sleep (.kernel lock) (.acquire (.other chan))] else .stuck
  | .wakeup chan => .goto [.wakeup (some (.other chan)) v.clock (.scan slots), .kernel locks]
  | .kill pid => if locks = [] then .goto [.kill pid (.scan slots), .kernel []] else .stuck
  | .setkilled => if locks = [] then .goto [.setkilled .acquire, .kernel []] else .stuck
  | .fork => if locks = [] then .goto [.fork (.scan slots), .kernel []] else .stuck
  | .exit status =>
    if locks = [] ∧ v.myproc ≠ some initproc then .goto [.exit status .waitLock, .kernel []]
    else .stuck
  | .wait addr => if locks = [] then .goto [.wait addr .lock, .kernel []] else .stuck

/-- What a CPU does next: a step of the frame on top, in which an allocation or `copyout`
may fail, or something its code or a device decides. -/
inductive Action where
  | run
  | fail
  | take (lock : Nat)
  | drop (lock : Nat)
  | call (call : Call)
  | interrupt
  | timer
  | iret

/-- The locks a frame holds, in the thread of `me`. -/
def Frame.locks (me : Option ProcPtr) : Frame → List Lock
  | .scheduler (.scan _) => []
  | .scheduler (.check p _) => [.proc p]
  | .scheduler (.assign p _) => [.proc p]
  | .scheduler (.swtch p _) => [.proc p]
  | .scheduler (.back p _) => [.proc p]
  | .scheduler (.unlock p _) => [.proc p]
  | .kernel locks => locks.map .other
  | .handler locks => locks.map .other
  | .returned _ => []
  | .yield .acquire => []
  | .yield _ => me.toList.map .proc
  | .forkret => me.toList.map .proc
  | .setkilled .acquire => []
  | .setkilled _ => me.toList.map .proc
  | .sleep caller (.acquire _) => [caller.lk]
  | .sleep caller (.release _) => caller.lk :: me.toList.map .proc
  | .sleep _ .reacquire => []
  | .sleep _ _ => me.toList.map .proc
  | .wakeup _ _ (.scan _) => []
  | .wakeup _ _ (.check p _) => [.proc p]
  | .wakeup _ _ (.unlock p _) => [.proc p]
  | .kill _ (.scan _) => []
  | .kill _ (.check p _) => [.proc p]
  | .kill _ (.skip p _) => [.proc p]
  | .kill _ (.found p) => [.proc p]
  | .fork (.scan _) => []
  | .fork (.check np _) => [.proc np]
  | .fork (.skip np _) => [.proc np]
  | .fork (.pidLock np) => [.proc np]
  | .fork (.pidTake np) => [.pid, .proc np]
  | .fork (.pidUnlock np _) => [.pid, .proc np]
  | .fork (.used np _) => [.proc np]
  | .fork (.memory np _) => [.proc np]
  | .fork (.context np _) => [.proc np]
  | .fork (.copy np _) => [.proc np]
  | .fork (.free np) => [.proc np]
  | .fork (.failed np) => [.proc np]
  | .fork (.unlock np _) => [.proc np]
  | .fork (.waitLock _ _) => []
  | .fork (.parent _ _) => [.wait]
  | .fork (.waitUnlock _ _) => [.wait]
  | .fork (.relock _ _) => []
  | .fork (.runnable np _) => [.proc np]
  | .fork (.done np _) => [.proc np]
  | .exit _ .waitLock => []
  | .exit _ (.reparent _) => [.wait]
  | .exit _ .wake => [.wait]
  | .exit _ .lock => [.wait]
  | .exit _ .zombie => me.toList.map .proc ++ [.wait]
  | .exit _ .waitUnlock => me.toList.map .proc ++ [.wait]
  | .exit _ .sched => me.toList.map .proc
  | .exit _ .gone => me.toList.map .proc
  | .wait _ .lock => []
  | .wait _ (.scan _ _) => [.wait]
  | .wait _ (.child _ _) => [.wait]
  | .wait _ (.check pp _) => [.proc pp, .wait]
  | .wait _ (.next pp _) => [.proc pp, .wait]
  | .wait _ (.freed pp _ _) => [.proc pp, .wait]
  | .wait _ (.done _ _) => [.wait]
  | .wait _ (.fault pp) => [.proc pp, .wait]
  | .wait _ .giveUp => [.wait]
  | .wait _ .killedLock => [.wait]
  | .wait _ .killedRead => me.toList.map .proc ++ [.wait]
  | .wait _ (.killedUnlock _) => me.toList.map .proc ++ [.wait]

/-- The locks that the frames of a stack hold. -/
def locksOf (me : Option ProcPtr) (stack : List Frame) : List Lock := stack.flatMap (Frame.locks me)

/-- Whether a frame is a handler's, which runs with interrupts off. -/
def Frame.isHandler : Frame → Bool
  | .handler _ => true
  | _ => false

/-- Whether an interrupt can be taken: no lock is held, and no handler runs. -/
def interruptible (me : Option ProcPtr) (stack : List Frame) : Bool :=
  (locksOf me stack).isEmpty && stack.all fun frame => !frame.isHandler

/-- What `action` makes of the top `frame` of a stack. -/
def View.instr (v : View) (frame : Frame) (rest : List Frame) : Action → Instr
  | .run => v.code true frame
  | .fail => v.code false frame
  | .take lock =>
    match frame with
    | .kernel locks => .acquire (.other lock) [.kernel (lock :: locks)]
    | .handler locks => .acquire (.other lock) [.handler (lock :: locks)]
    | _ => .stuck
  | .drop lock =>
    match frame with
    | .kernel locks =>
      if lock ∈ locks then .release (.other lock) [.kernel (locks.erase lock)] else .stuck
    | .handler locks =>
      if lock ∈ locks then .release (.other lock) [.handler (locks.erase lock)] else .stuck
    | _ => .stuck
  | .call call =>
    match frame, call with
    | .kernel locks, call => call.instr v locks
    | .handler locks, .wakeup chan =>
      .goto [.wakeup (some (.other chan)) v.clock (.scan slots), .handler locks]
    | _, _ => .stuck
  | .interrupt => if interruptible v.myproc (frame :: rest) then
      .goto [.handler [], frame] else .stuck
  | .timer =>
    if interruptible v.myproc (frame :: rest) ∧ v.myproc.isSome then .goto [.yield .acquire, frame]
    else .stuck
  | .iret =>
    match frame with
    | .handler [] => .goto []
    | _ => .stuck

/-- The CPUs with the process table. `holder` is `lk->cpu` of a lock that is taken, `current`
is `c->proc`, and `running` says whose registers a CPU has. `clock`, the number of steps so
far, is kept for the frames of `sleep` and `wakeup` to record. -/
structure Machine (Cpu : Type) where
  table : Table
  nextpid : Int32
  holder : Lock → Option Cpu
  current : Cpu → Option ProcPtr
  running : Cpu → Thread Cpu
  stack : Thread Cpu → List Frame
  clock : Nat

namespace Machine

variable {Cpu : Type} [DecidableEq Cpu]

def view (s : Machine Cpu) (c : Cpu) : View := ⟨s.table, s.nextpid, s.current c, s.clock⟩

/-- The thread that `c` runs goes on with `stack`. -/
def goOn (s : Machine Cpu) (c : Cpu) (stack : List Frame) : Machine Cpu :=
  { s with
    stack := update s.stack (s.running c) stack
    clock := s.clock + 1 }

/-- `c` does `instr` in the frame above `rest`. -/
def exec (s : Machine Cpu) (c : Cpu) (rest : List Frame) : Instr → Option (Machine Cpu)
  | .stuck => none
  | .goto next => some (s.goOn c (next ++ rest))
  | .acquire lock next =>
    if s.holder lock = none then
      some { s.goOn c (next ++ rest) with holder := update s.holder lock (some c) }
    else none
  | .release lock next =>
    some { s.goOn c (next ++ rest) with holder := update s.holder lock none }
  | .write p proc next => some { s.goOn c (next ++ rest) with table := update s.table p proc }
  | .takePid next => some { s.goOn c (next ++ rest) with nextpid := s.nextpid + 1 }
  | .setProc p next => some { s.goOn c (next ++ rest) with current := update s.current c p }
  | .context np next =>
    some
      { s.goOn c (next ++ rest) with
        stack := update (s.goOn c (next ++ rest)).stack (.proc np) [.forkret] }
  | .resume p next =>
    some { s.goOn c (next ++ rest) with running := update s.running c (.proc p) }
  | .suspend next =>
    some { s.goOn c (next ++ rest) with running := update s.running c (.sched c) }

/-- One step of the CPU `label.1`. -/
def step (s : Machine Cpu) (label : Cpu × Action) : Option (Machine Cpu) :=
  match s.stack (s.running label.1) with
  | [] => none
  | frame :: rest => s.exec label.1 rest ((s.view label.1).instr frame rest label.2)

/-- After `procinit` and `userinit`: every CPU is in its scheduler, and `initproc` is the
only process. -/
def booted : Machine Cpu where
  table := fun p => if p = initproc then { Proc.freed with state := .runnable, pid := 1 }
    else Proc.freed
  nextpid := 2
  holder := fun _ => none
  current := fun _ => none
  running := .sched
  stack := fun
    | .sched _ => [.scheduler (.scan slots)]
    | .proc p => if p = initproc then [.forkret] else []
  clock := 0

/-- The machine's runs, with any number of CPUs. -/
abbrev Runs (steps : List (Machine Cpu × Cpu × Action)) (s : Machine Cpu) : Prop :=
  Run (fun s => s = booted) (fun s label s' => s.step label = some s') steps s

/-- The CPU of a machine that has one. -/
def theCpu : Fin 1 := ⟨0, Nat.one_pos⟩

/-- What is played from the start is a run. -/
theorem exists_runs {s : Machine Cpu} {labels : List (Cpu × Action)}
    (played : Run.play step booted labels = some s) :
    ∃ steps, steps.map Prod.snd = labels ∧ Runs steps s := by
  have start : Runs [] (booted : Machine Cpu) := .start rfl
  exact start.of_play id played

end Machine

end Xv6.Kernel.Sched
