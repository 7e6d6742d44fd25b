import Xv6.Kernel.Bio.Integrity
import Xv6.Kernel.Log.State

/-!
The log on top of the buffer cache, with every bread and brelse of its own.

Owns: the buffers' sleep-locks, where each process is in bget and brelse, the
program counter of the process in commit, and the step relation: each step is a
section under `bcache.lock`, `log.lock` or a sleep-lock.

Does not own: recovery and crashes; the cache a run starts from is any that has no
references, as recovery leaves it.
-/

namespace Xv6.Kernel.Log

open Xv6.Lib Xv6.Kernel.Bio Function

abbrev Proc := Fin nProc

/-- There are processes, so a numeral names one. -/
instance neZeroNProc : NeZero nProc := ⟨by decide⟩

/-- What a process does with the cache: nothing, waiting in the `acquiresleep` of
`bget`, or in `brelse` between `releasesleep` and `bcache.lock`. -/
inductive Doing where
  | running
  | waiting (b : BufPtr)
  | releasing (b : BufPtr)
deriving DecidableEq

/-- Where the process in `commit()` is: about to `bread` the log block, about to
`bread` the home block, about to copy and `bwrite`, (in `install_trans`) about to
`bunpin`, about to `brelse` the first and the second buffer; the same for
`write_head`, whose second call follows `log.lh.n = 0`. -/
inductive Pc where
  | writeLog (tail : Nat)
  | writeLogFrom (tail : Nat) (dst : BufPtr)
  | writeLogCopy (tail : Nat) (dst src : BufPtr)
  | writeLogFreeFrom (tail : Nat) (dst src : BufPtr)
  | writeLogFreeTo (tail : Nat) (dst : BufPtr)
  | writeHead (erase : Bool)
  | writeHeadPut (erase : Bool) (buf : BufPtr)
  | writeHeadFree (erase : Bool) (buf : BufPtr)
  | install (tail : Nat)
  | installTo (tail : Nat) (lbuf : BufPtr)
  | installCopy (tail : Nat) (lbuf dbuf : BufPtr)
  | installUnpin (tail : Nat) (lbuf dbuf : BufPtr)
  | installFreeFrom (tail : Nat) (lbuf dbuf : BufPtr)
  | installFreeTo (tail : Nat) (dbuf : BufPtr)
  | committed

/-- How many entries `install_trans` has unpinned. -/
def Pc.installed : Pc → Nat
  | install tail | installTo tail _ | installCopy tail _ _ | installUnpin tail _ _ => tail
  | installFreeFrom tail _ _ | installFreeTo tail _ => tail + 1
  | _ => 0

/-- The machine. The last three components record, for each buffer, the calls of
`bpin` and `bunpin` the log made, and for each block the data last stored in its
buffer. -/
structure Machine where
  cache : BCache
  disk : Disk
  lock : BufPtr → Option Proc
  doing : Proc → Doing
  inOp : Proc → Bool
  log : Log
  commit : Option (Proc × Pc)
  taken : BufPtr → Nat
  dropped : BufPtr → Nat
  modified : Nat → Block

namespace Machine

/-- `bget` returned `b` up to its `acquiresleep`. -/
def get (s : Machine) (p : Proc) (b : BufPtr) (cache : BCache) : Machine :=
  { s with cache := cache, doing := update s.doing p (.waiting b) }

/-- `acquiresleep(&b->lock)` -/
def acquire (s : Machine) (p : Proc) (b : BufPtr) : Machine :=
  { s with
    lock := update s.lock b (some p), doing := update s.doing p .running }

/-- The disk read of `bread`. -/
def fill (s : Machine) (b : BufPtr) : Machine :=
  { s with
    cache := s.cache.setBuf b { s.cache.buf b with
      valid := true, data := s.disk (s.cache.buf b).blockno.toNat } }

/-- A store of `data` into `b->data`. -/
def store (s : Machine) (b : BufPtr) (data : Block) : Machine :=
  { s with
    cache := s.cache.setBuf b { s.cache.buf b with data := data }
    modified := update s.modified (s.cache.buf b).blockno.toNat data }

/-- `bwrite(b)` -/
def bwrite (s : Machine) (b : BufPtr) : Machine :=
  { s with
    disk := update s.disk (s.cache.buf b).blockno.toNat (s.cache.buf b).data }

/-- `brelse(b)` up to `bcache.lock`. -/
def unlock (s : Machine) (p : Proc) (b : BufPtr) : Machine :=
  { s with
    lock := update s.lock b none
    doing := update s.doing p (.releasing b) }

/-- The rest of `brelse(b)`. -/
def release (s : Machine) (p : Proc) (b : BufPtr) : Machine :=
  { s with cache := brelse s.cache b, doing := update s.doing p .running }

/-- `bpin(b)` from `log_write`. -/
def pin (s : Machine) (b : BufPtr) : Machine :=
  { s with
    cache := bpin s.cache b, taken := update s.taken b (s.taken b + 1) }

/-- `bunpin(b)` from `install_trans`. -/
def unpin (s : Machine) (b : BufPtr) : Machine :=
  { s with
    cache := bunpin s.cache b, dropped := update s.dropped b (s.dropped b + 1) }

/-- The process in `commit()` goes on at `pc`. -/
def goto (s : Machine) (p : Proc) (pc : Pc) : Machine := { s with commit := some (p, pc) }

/-- `log_write(b)` after its checks: the entry for the block, and a pin if it is
new. -/
def logged (s : Machine) (b : BufPtr) (log : Log) : Machine :=
  let noted := { s with
    log := log
    modified := update s.modified (s.cache.buf b).blockno.toNat (s.cache.buf b).data }
  if (s.cache.buf b).blockno.toNat ∈ s.log.blocks then noted else noted.pin b

/-- `bread(log.dev, block)` by the process in `commit()`, which then goes on at the
counter `next` gives for the buffer. -/
def commitGet (s : Machine) (dev : UInt32) (p : Proc) (block : Nat) (next : BufPtr → Pc) :
    Option Machine :=
  (Bio.bget s.cache dev (UInt32.ofNat block)).map fun got =>
    (s.get p got.1 got.2).goto p (next got.1)

/-- The next step of `commit()`. The process has returned from its last `bread`, so
the buffers it copies are valid. -/
def commitStep (g : Geometry) (dev : UInt32) (s : Machine) (p : Proc) : Pc → Option Machine
  | .writeLog tail =>
    if tail < s.log.n then s.commitGet dev p (g.slot tail) (.writeLogFrom tail)
    else some (s.goto p (.writeHead false))
  | .writeLogFrom tail dst =>
    s.commitGet dev p (s.log.blocks.getD tail 0) (.writeLogCopy tail dst)
  | .writeLogCopy tail dst src =>
    let copied := s.store dst (s.cache.buf src).data
    some ((copied.bwrite dst).goto p (.writeLogFreeFrom tail dst src))
  | .writeLogFreeFrom tail dst src => some ((s.unlock p src).goto p (.writeLogFreeTo tail dst))
  | .writeLogFreeTo tail dst => some ((s.unlock p dst).goto p (.writeLog (tail + 1)))
  | .writeHead erase => s.commitGet dev p g.start (.writeHeadPut erase)
  | .writeHeadPut erase buf =>
    let stored := s.store buf (Log.writeHead (s.cache.buf buf).data s.log.blocks)
    some ((stored.bwrite buf).goto p (.writeHeadFree erase buf))
  | .writeHeadFree erase buf =>
    some ((s.unlock p buf).goto p (if erase then .committed else .install 0))
  | .install tail =>
    if tail < s.log.n then s.commitGet dev p (g.slot tail) (.installTo tail)
    else some ({ s with log := { s.log with blocks := [] } }.goto p (.writeHead true))
  | .installTo tail lbuf =>
    s.commitGet dev p (s.log.blocks.getD tail 0) (.installCopy tail lbuf)
  | .installCopy tail lbuf dbuf =>
    let copied := s.store dbuf (s.cache.buf lbuf).data
    some ((copied.bwrite dbuf).goto p (.installUnpin tail lbuf dbuf))
  | .installUnpin tail lbuf dbuf => some ((s.unpin dbuf).goto p (.installFreeFrom tail lbuf dbuf))
  | .installFreeFrom tail lbuf dbuf => some ((s.unlock p lbuf).goto p (.installFreeTo tail dbuf))
  | .installFreeTo tail dbuf => some ((s.unlock p dbuf).goto p (.install (tail + 1)))
  | .committed =>
    -- commit() has returned; end_op clears log.committing
    some { s with log := { s.log with committing := false }, commit := none }

end Machine

/-- What can happen next. -/
inductive CacheAction where
  | get (p : Proc) (block : UInt32)
  | acquire (p : Proc)
  | fill (p : Proc) (b : BufPtr)
  | store (p : Proc) (b : BufPtr) (data : Block)
  | unlock (p : Proc) (b : BufPtr)
  | release (p : Proc)
  | beginOp (p : Proc)
  | logWrite (p : Proc) (b : BufPtr)
  | endOp (p : Proc)
  | commit (p : Proc)

/-- The process is not inside `commit()`. -/
def Machine.Outside (s : Machine) (p : Proc) : Prop := ∀ pc, s.commit ≠ some (p, pc)

/-- The step relation. Outside `commit()` a process gets any block, and stores into,
logs and releases buffers it has locked and that `bread` has made valid. -/
inductive CacheStep (g : Geometry) (dev : UInt32) : Machine → CacheAction → Machine → Prop where
  | get {s : Machine} {p : Proc} {block : UInt32} {b : BufPtr} {cache : BCache}
      (outside : s.Outside p) (idle : s.doing p = .running)
      (got : bget s.cache dev block = some (b, cache)) :
      CacheStep g dev s (.get p block) (s.get p b cache)
  | acquire {s : Machine} {p : Proc} {b : BufPtr} (waits : s.doing p = .waiting b)
      (free : s.lock b = none) :
      CacheStep g dev s (.acquire p) (s.acquire p b)
  | fill {s : Machine} {p : Proc} {b : BufPtr} (locked : s.lock b = some p)
      (idle : s.doing p = .running) (invalid : (s.cache.buf b).valid = false) :
      CacheStep g dev s (.fill p b) (s.fill b)
  | store {s : Machine} {p : Proc} {b : BufPtr} {data : Block} (outside : s.Outside p)
      (locked : s.lock b = some p) (idle : s.doing p = .running)
      (valid : (s.cache.buf b).valid = true) :
      CacheStep g dev s (.store p b data) (s.store b data)
  | unlock {s : Machine} {p : Proc} {b : BufPtr} (outside : s.Outside p)
      (locked : s.lock b = some p) (idle : s.doing p = .running)
      (valid : (s.cache.buf b).valid = true) :
      CacheStep g dev s (.unlock p b) (s.unlock p b)
  | release {s : Machine} {p : Proc} {b : BufPtr} (releases : s.doing p = .releasing b) :
      CacheStep g dev s (.release p) (s.release p b)
  | beginOp {s : Machine} {p : Proc} {log : Log} (outside : s.Outside p)
      (idle : s.doing p = .running) (notYet : s.inOp p = false)
      (admitted : Log.beginOp s.log = some log) :
      CacheStep g dev s (.beginOp p)
        { s with log := log, inOp := update s.inOp p true }
  | logWrite {s : Machine} {p : Proc} {b : BufPtr} {log : Log} (outside : s.Outside p)
      (locked : s.lock b = some p) (idle : s.doing p = .running)
      (valid : (s.cache.buf b).valid = true)
      (written : Log.logWrite g s.log (s.cache.buf b).blockno.toNat = .ok log) :
      CacheStep g dev s (.logWrite p b) (s.logged b log)
  | endOp {s : Machine} {p : Proc} {log : Log} (outside : s.Outside p)
      (idle : s.doing p = .running) (inside : s.inOp p = true)
      (ended : Log.endOp s.log = .ok log) :
      CacheStep g dev s (.endOp p)
        { s with
          log := log
          inOp := update s.inOp p false
          commit := if log.committing then
              some (p, if 0 < log.n then .writeLog 0 else .committed)
            else s.commit }
  | commit {s t : Machine} {p : Proc} {pc : Pc} (inside : s.commit = some (p, pc))
      (idle : s.doing p = .running)
      (valid : ∀ b, s.lock b = some p → (s.cache.buf b).valid = true)
      (advances : s.commitStep g dev p pc = some t) :
      CacheStep g dev s (.commit p) t

/-- The steps of a machine in which no process is in `commit()`, as a function. -/
def Machine.next (g : Geometry) (dev : UInt32) (s : Machine) (action : CacheAction) :
    Option Machine :=
  if s.commit.isSome then none
  else
    match action with
    | .get p block =>
      if s.doing p = .running then (bget s.cache dev block).map fun got =>
        s.get p got.1 got.2 else none
    | .acquire p =>
      match s.doing p with
      | .waiting b => if s.lock b = none then some (s.acquire p b) else none
      | _ => none
    | .fill p b =>
      if s.lock b = some p ∧ s.doing p = .running ∧ (s.cache.buf b).valid = false then
        some (s.fill b) else none
    | .unlock p b =>
      if s.lock b = some p ∧ s.doing p = .running ∧ (s.cache.buf b).valid = true then
        some (s.unlock p b)
      else none
    | .release p =>
      match s.doing p with
      | .releasing b => some (s.release p b)
      | _ => none
    | .beginOp p =>
      if s.doing p = .running ∧ s.inOp p = false then
        (Log.beginOp s.log).map fun log => { s with log := log, inOp := update s.inOp p true }
      else none
    | .logWrite p b =>
      if s.lock b = some p ∧ s.doing p = .running ∧ (s.cache.buf b).valid = true then
        (Log.logWrite g s.log (s.cache.buf b).blockno.toNat).toOption.map (s.logged b)
      else none
    | _ => none

theorem Machine.next_step {g : Geometry} {dev : UInt32} {s t : Machine} {action : CacheAction}
    (stepped : s.next g dev action = some t) : CacheStep g dev s action t := by
  unfold next at stepped
  split_ifs at stepped with committing
  have outside {p : Proc} : s.Outside p := by
    intro pc inside
    rw [inside] at committing
    exact committing rfl
  cases action with
  | get p block =>
    obtain ⟨idle, stepped⟩ := Option.ite_none_right_eq_some.mp stepped
    obtain ⟨⟨b, cache⟩, got, rfl⟩ := Option.map_eq_some_iff.mp stepped
    exact .get outside idle got
  | acquire p =>
    cases doing : s.doing p with
    | waiting b =>
      simp only [doing] at stepped
      obtain ⟨free, stepped⟩ := Option.ite_none_right_eq_some.mp stepped
      cases stepped
      exact .acquire doing free
    | running => simp [doing] at stepped
    | releasing b => simp [doing] at stepped
  | fill p b =>
    obtain ⟨⟨locked, idle, invalid⟩, stepped⟩ := Option.ite_none_right_eq_some.mp stepped
    cases stepped
    exact .fill locked idle invalid
  | unlock p b =>
    obtain ⟨⟨locked, idle, valid⟩, stepped⟩ := Option.ite_none_right_eq_some.mp stepped
    cases stepped
    exact .unlock outside locked idle valid
  | release p =>
    cases doing : s.doing p with
    | releasing b =>
      simp only [doing] at stepped
      cases stepped
      exact .release doing
    | running => simp [doing] at stepped
    | waiting b => simp [doing] at stepped
  | beginOp p =>
    obtain ⟨⟨idle, notYet⟩, stepped⟩ := Option.ite_none_right_eq_some.mp stepped
    obtain ⟨log, admitted, rfl⟩ := Option.map_eq_some_iff.mp stepped
    exact .beginOp outside idle notYet admitted
  | logWrite p b =>
    obtain ⟨⟨locked, idle, valid⟩, stepped⟩ := Option.ite_none_right_eq_some.mp stepped
    cases written : Log.logWrite g s.log (s.cache.buf b).blockno.toNat with
    | error => simp [written, Except.toOption] at stepped
    | ok log =>
      rw [written] at stepped
      cases stepped
      exact .logWrite outside locked idle valid written
  | store p b data | endOp p | commit p => simp at stepped

/-- The machine once the log is initialised: nobody has a buffer, nothing is
logged. -/
structure Machine.Idle (s : Machine) : Prop where
  order : ∃ order, Ordered s.cache order
  unique : Unique s.cache
  unused : ∀ b, (s.cache.buf b).refcnt = 0
  unlocked : ∀ b, s.lock b = none
  running : ∀ p, s.doing p = .running
  log : s.log = Log.boot
  commit : s.commit = none
  pins : ∀ b, s.taken b = 0 ∧ s.dropped b = 0

end Xv6.Kernel.Log
