import Mathlib
import Xv6.Kernel.Param

/-!
Processes as scheduling, waiting and killing see them.

Owns: the fields of `struct proc` that `proc.c` reads and writes under `p->lock` and
`wait_lock`, and what its functions do to one process.

Does not own: memory, open files and names of processes, and who runs when.
-/

namespace Xv6.Kernel.Sched

/-- `enum procstate` -/
inductive ProcState where
  | unused
  | used
  | sleeping
  | runnable
  | running
  | zombie
deriving DecidableEq

/-- An entry of `proc[NPROC]`. -/
abbrev ProcPtr := Fin nProc

theorem nProc_pos : 0 < nProc := by decide

/-- `initproc`: `userinit` takes the first slot. -/
def initproc : ProcPtr := ⟨0, nProc_pos⟩

/-- The slots in the order in which every scan takes them. -/
def slots : List ProcPtr := List.finRange nProc

theorem mem_slots (p : ProcPtr) : p ∈ slots := List.mem_finRange p

/-- What a process sleeps on: in `wait` a process, elsewhere some other address. -/
inductive Chan where
  | proc (p : ProcPtr)
  | other (address : Nat)
deriving DecidableEq

/-- `struct proc`; a null pointer is `none`. -/
structure Proc where
  state : ProcState
  chan : Option Chan
  killed : Bool
  xstate : Int32
  pid : Int32
  parent : Option ProcPtr
deriving DecidableEq

/-- What `freeproc` leaves. -/
def Proc.freed : Proc := ⟨.unused, none, false, 0, 0, none⟩

/-- What `wakeup(chan)` does to a process. -/
def Proc.woken (proc : Proc) (chan : Option Chan) : Proc :=
  if proc.state = .sleeping ∧ proc.chan = chan then { proc with state := .runnable } else proc

/-- What `kill` does to the process it looked for. -/
def Proc.marked (proc : Proc) : Proc :=
  { proc with
    killed := true
    state := if proc.state = .sleeping then .runnable else proc.state }

abbrev Table := ProcPtr → Proc

end Xv6.Kernel.Sched
