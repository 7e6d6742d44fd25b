import Xv6.Kernel.Log.State

/-!
The running log: operations, the block writes of a commit and of a recovery one
at a time, and crashes between any two of them.

Owns: the system state, what each step does, the step relation, the record of
operations and groups since the last boot, and the recovery of a whole disk as
one function.

Does not own: the invariants of runs.
-/

namespace Xv6.Kernel.Log

open Xv6.Lib Function

/-- One `log_write` by operation `op`, with the data the buffer then held. -/
structure OpWrite where
  op : Nat
  block : Nat
  data : Block

def OpWrite.write (w : OpWrite) : Nat × Block := (w.block, w.data)

/-- Where the kernel is. `writeLog tail` is about to run iteration `tail` of
`write_log` (or its `write_head` after the last one), `installTrans tail` the
same for `install_trans(0)` and the second `write_head`, `recover tail` for the
loop of `recover_from_log`. -/
inductive Phase where
  | running
  | writeLog (tail : Nat)
  | installTrans (tail : Nat)
  | committed
  | panicked (panic : Panic)
  | readHead
  | recover (tail : Nat)
  | recovered
deriving DecidableEq, Repr

/-- The phases in which system calls can run: after recovery, until a panic. -/
def Phase.live : Phase → Bool
  | running | writeLog _ | installTrans _ | committed => true
  | panicked _ | readHead | recover _ | recovered => false

/-- The log with its disk and cache, and the history since the last boot: the
disk at that boot, the groups handed to `commit()`, how many of these calls have
returned, and the writes logged since. -/
structure System where
  disk : Disk
  cache : Disk
  log : Log
  phase : Phase
  active : Finset Nat
  nextOp : Nat
  base : Disk
  groups : List (List OpWrite)
  returned : Nat
  current : List OpWrite

namespace System

/-- `bwrite` of a buffer that now holds `data`. -/
def bwrite (s : System) (b : Nat) (data : Block) : System :=
  { s with disk := update s.disk b data, cache := update s.cache b data }

/-- `write_head` -/
def writeHead (g : Geometry) (s : System) : System :=
  s.bwrite g.start (Log.writeHead (s.cache g.start) s.log.blocks)

/-- One iteration of the loop of `write_log`. -/
def writeLog (g : Geometry) (s : System) (tail : Nat) : System :=
  s.bwrite (g.slot tail) (s.cache (s.log.blocks.getD tail 0))

/-- One iteration of the loop of `install_trans`. -/
def installTrans (g : Geometry) (s : System) (tail : Nat) : System :=
  s.bwrite (s.log.blocks.getD tail 0) (s.cache (g.slot tail))

/-- `log.lh.n = 0` -/
def clear (s : System) : System := { s with log := { s.log with blocks := [] } }

/-- Admit a new operation. -/
def begun (s : System) (log : Log) : System :=
  { s with log := log, active := insert s.nextOp s.active, nextOp := s.nextOp + 1 }

/-- An operation stores `data` in its buffer of block `b` and calls `log_write`. -/
def logWrite (g : Geometry) (s : System) (op b : Nat) (data : Block) : System :=
  match Log.logWrite g s.log b with
  | .error panic => { s with phase := .panicked panic }
  | .ok log =>
    { s with
      log := log
      cache := update s.cache b data
      current := s.current ++ [⟨op, b, data⟩] }

/-- `end_op` up to the first block write of `commit`, which returns at once when
nothing was logged. -/
def endOp (s : System) (op : Nat) : System :=
  match Log.endOp s.log with
  | .error panic => { s with phase := .panicked panic }
  | .ok log =>
    if log.committing then
      { s with
        log := log
        active := s.active.erase op
        phase := if 0 < log.n then .writeLog 0 else .committed
        groups := s.groups ++ [s.current]
        current := [] }
    else { s with log := log, active := s.active.erase op }

/-- The next step of the commit or recovery that is under way. -/
def advance (g : Geometry) (s : System) : System :=
  match s.phase with
  | .running | .panicked _ => s
  | .writeLog tail =>
    if tail < s.log.n then { s.writeLog g tail with phase := .writeLog (tail + 1) }
    else { s.writeHead g with phase := .installTrans 0 }
  | .installTrans tail =>
    if tail < s.log.n then { s.installTrans g tail with phase := .installTrans (tail + 1) }
    else { s.clear.writeHead g with phase := .committed }
  | .committed =>
    -- commit() returns and end_op clears log.committing
    { s with
      log := { s.log with committing := false }, phase := .running, returned := s.returned + 1 }
  | .readHead =>
    { s with log := { s.log with blocks := Log.readHead (s.cache g.start) }, phase := .recover 0 }
  | .recover tail =>
    if tail < s.log.n then { s.installTrans g tail with phase := .recover (tail + 1) }
    else { s.clear.writeHead g with phase := .recovered }
  | .recovered =>
    -- the first system call; a new history starts from the recovered disk
    { s with phase := .running, base := s.disk, groups := [], returned := 0, current := [] }

/-- Power loss and reboot: only the disk and the history survive. -/
def crash (s : System) : System :=
  { s with cache := s.disk, log := Log.boot, phase := .readHead, active := ∅, current := [] }

/-- A freshly booted system on a disk. -/
def boot (disk : Disk) : System where
  disk := disk
  cache := disk
  log := Log.boot
  phase := .recovered
  active := ∅
  nextOp := 0
  base := disk
  groups := []
  returned := 0
  current := []

end System

/-- What can happen next. -/
inductive Action where
  | beginOp
  | logWrite (op b : Nat) (data : Block)
  | endOp (op : Nat)
  | advance
  | crash

/-- The step relation. Operations log home blocks only, between their `begin_op`
and their `end_op`; everything else is decided by the code. -/
inductive Step (g : Geometry) : System → Action → System → Prop where
  | beginOp {s : System} {log : Log} (live : s.phase.live)
      (admitted : Log.beginOp s.log = some log) :
      Step g s .beginOp (s.begun log)
  | logWrite {s : System} {op b : Nat} {data : Block} (live : s.phase.live)
      (member : op ∈ s.active) (home : g.Home b) (word : b < 2 ^ 32) :
      Step g s (.logWrite op b data) (s.logWrite g op b data)
  | endOp {s : System} {op : Nat} (live : s.phase.live) (member : op ∈ s.active) :
      Step g s (.endOp op) (s.endOp op)
  | advance {s : System} : Step g s .advance (s.advance g)
  | crash {s : System} : Step g s .crash s.crash

/-- The systems a run starts from: booted on a disk with an empty log. -/
def Initial (g : Geometry) (s : System) : Prop :=
  ∃ disk : Disk, Erased (disk g.start) ∧ s = System.boot disk

/-- A run of the log, with the state before each of its steps. -/
abbrev LogRun (g : Geometry) := Run (Initial g) (Step g)

/-! ### Recovery of a whole disk -/

/-- The loop of `install_trans(1)` from entry `tail` on. -/
def installAll (g : Geometry) (disk : Disk) (tail : Nat) : List Nat → Disk
  | [] => disk
  | b :: rest => installAll g (update disk b (disk (g.slot tail))) (tail + 1) rest

/-- `recover_from_log`, run to its end. -/
def recoverFromLog (g : Geometry) (disk : Disk) : Disk :=
  let installed := installAll g disk 0 (Log.readHead (disk g.start))
  update installed g.start (Log.writeHead (installed g.start) [])

end Xv6.Kernel.Log
