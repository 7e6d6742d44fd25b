import Xv6.Kernel.Proc.Fetch
import Xv6.Kernel.Sched.Proc

/-!
The calls that report on processes.

Owns: the process table as these calls read it, `struct procinfo` as bytes,
`sys_getmemusage`, `sys_ps` and `sys_pinfo`, and the bytes each copies out.

Does not own: how the table changes, and the lines `sys_pinfo` prints.
-/

namespace Xv6.Kernel.Proc

open Xv6.Lib Xv6.Kernel.Vm Xv6.Kernel.Sched

/-- The process table: what scheduling keeps of each process, and its size and name. -/
structure Procs where
  table : Table
  sz : ProcPtr → UInt64
  name : ProcPtr → Mem

/-- The loop of `safestrcpy` with room for `n` bytes and the null byte. -/
def safestrcpyLoop (t : Mem) : Nat → Mem → Nat → Nat → Mem
  | 0, s, pos, _ => s.copy pos [0]
  | n + 1, s, pos, k =>
    -- the null byte is copied, and the next byte cleared too
    if t k = 0 then (s.copy pos [t k]).copy (pos + 1) [0]
    else safestrcpyLoop t n (s.copy pos [t k]) (pos + 1) (k + 1)

/-- `safestrcpy(s + offset, t, n)` -/
def safestrcpy (s : Mem) (offset : Nat) (t : Mem) : Nat → Mem
  | 0 => s
  | n + 1 => safestrcpyLoop t n s offset 0

/-- The value of an `enum procstate`. -/
def stateCode : ProcState → UInt32
  | .unused => 0
  | .used => 1
  | .sleeping => 2
  | .runnable => 3
  | .running => 4
  | .zombie => 5

/-! ### `struct procinfo` -/

/-- `sizeof(struct procinfo)`: four bytes of padding align `sz`. -/
def sizeofProcinfo : Nat := 40

def setPid (pi : Mem) (pid : Int32) : Mem := pi.copy 0 (Mem.bytes32 pid.toUInt32)

def setPpid (pi : Mem) (ppid : Int32) : Mem := pi.copy 4 (Mem.bytes32 ppid.toUInt32)

def setState (pi : Mem) (state : ProcState) : Mem := pi.copy 8 (Mem.bytes32 (stateCode state))

def setSz (pi : Mem) (sz : UInt64) : Mem := pi.copy 16 (Mem.leBytes sz.toNat 8)

def setName (pi : Mem) (name : Mem) : Mem := safestrcpy pi 24 name 16

/-- The assignments of `sys_ps` to `pi`. -/
def Procs.fillPs (procs : Procs) (p : ProcPtr) (pi : Mem) : Mem :=
  let pi := setPid pi (procs.table p).pid
  let pi := setState pi (procs.table p).state
  let pi := setSz pi (procs.sz p)
  setName pi (procs.name p)

/-- `p->parent ? p->parent->pid : -1` -/
def Procs.ppid (procs : Procs) (p : ProcPtr) : Int32 :=
  ((procs.table p).parent.map fun parent => (procs.table parent).pid).getD (-1)

/-- The assignments of `sys_pinfo` to `pi`. -/
def Procs.fillPinfo (procs : Procs) (p : ProcPtr) (pi : Mem) : Mem :=
  let pi := setPid pi (procs.table p).pid
  let pi := setPpid pi (procs.ppid p)
  let pi := setState pi (procs.table p).state
  let pi := setSz pi (procs.sz p)
  setName pi (procs.name p)

/-! ### The calls -/

/-- The first slot with a pid. -/
def Procs.findPid (procs : Procs) (pid : Int32) : Option ProcPtr :=
  slots.find? fun p => (procs.table p).pid = pid

/-- `sys_getmemusage` -/
def sysGetmemusage (procs : Procs) (trapframe : Trapframe) : UInt64 :=
  match procs.findPid (argint trapframe 0) with
  | some p => procs.sz p
  | none => -1

/-- The loop of `sys_ps` over the slots left. In every round `pi` is the same piece of the
stack, with what the round before left in it. -/
def sysPsLoop (procs : Procs) (pagetable uProcinfo : UInt64) (max : Int32) :
    List ProcPtr → Nat → Mem → VmM UInt64
  | [], count, _ => pure (UInt64.ofNat count)
  | p :: rest, count, pi =>
    if (count : Int) < max.toInt then
      if (procs.table p).state ≠ .unused then do
        let pi := procs.fillPs p pi
        let ret ← copyout pagetable (uProcinfo + UInt64.ofNat (sizeofProcinfo * count))
          (pi.read 0 sizeofProcinfo)
        if ret < 0 then pure (-1)
        else sysPsLoop procs pagetable uProcinfo max rest (count + 1) pi
      else sysPsLoop procs pagetable uProcinfo max rest count pi
    else pure (UInt64.ofNat count)

/-- `sys_ps`, with what the stack holds where `pi` is. -/
def sysPs (procs : Procs) (pagetable : UInt64) (trapframe : Trapframe) (pi : Mem) : VmM UInt64 :=
  sysPsLoop procs pagetable (argaddr trapframe 0) (argint trapframe 1) slots 0 pi

/-- `sys_pinfo`, with what the stack holds where `pi` is. -/
def sysPinfo (procs : Procs) (pagetable : UInt64) (trapframe : Trapframe) (pi : Mem) : VmM UInt64 :=
  match procs.findPid (argint trapframe 0) with
  | some p => do
    let ret ← copyout pagetable (argaddr trapframe 1) ((procs.fillPinfo p pi).read 0 sizeofProcinfo)
    if ret < 0 then pure (-1) else pure 0
  | none => pure (-1)

end Xv6.Kernel.Proc
