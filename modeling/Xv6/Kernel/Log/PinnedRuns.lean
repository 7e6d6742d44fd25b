import Xv6.Kernel.Log.Pinned
import Xv6.Lib.Transition

/-!
Logged buffers stay pinned in every run.

Owns: the buffers the process in commit has a reference to at each of its program
counters, the invariant of the whole machine, and the theorem about runs.

Does not own: the counting of references in single sections.
-/

namespace Xv6.Kernel.Log

open Xv6.Lib Xv6.Kernel.Bio Function

/-- The logged blocks that are not installed yet. -/
def Machine.pending (s : Machine) : List Nat :=
  match s.commit with
  | none => s.log.blocks
  | some (_, pc) => s.log.blocks.drop pc.installed

/-- Process `p` has locked the buffer of a block, or waits for it. -/
structure Has (dev : UInt32) (s : Machine) (p : Proc) (b : BufPtr) (block : Nat) : Prop where
  isBuf : b ≠ head
  device : (s.cache.buf b).dev = dev
  number : (s.cache.buf b).blockno = UInt32.ofNat block
  mine : s.lock b = some p ∨ s.doing p = .waiting b

/-- The buffers are different, or the process waits for ever for a lock it holds. -/
def Distinct (s : Machine) (p : Proc) (a b : BufPtr) : Prop :=
  a = b → s.lock a = some p ∧ s.doing p = .waiting a

/-- The buffers the process in `commit()` has, and where the log is empty. -/
def PcFacts (g : Geometry) (dev : UInt32) (s : Machine) (p : Proc) : Pc → Prop
  | .writeLog _ | .install _ => True
  | .writeLogFrom tail dst => tail < s.log.n ∧ Has dev s p dst (g.slot tail)
  | .writeLogCopy tail dst src | .writeLogFreeFrom tail dst src =>
    tail < s.log.n ∧ Has dev s p dst (g.slot tail) ∧
      Has dev s p src (s.log.blocks.getD tail 0) ∧ Distinct s p dst src
  | .writeLogFreeTo tail dst => Has dev s p dst (g.slot tail)
  | .writeHead erase => erase = true → s.log.blocks = []
  | .writeHeadPut erase buf | .writeHeadFree erase buf =>
    (erase = true → s.log.blocks = []) ∧ Has dev s p buf g.start
  | .installTo tail lbuf => tail < s.log.n ∧ Has dev s p lbuf (g.slot tail)
  | .installCopy tail lbuf dbuf | .installUnpin tail lbuf dbuf | .installFreeFrom tail lbuf dbuf =>
    tail < s.log.n ∧ Has dev s p lbuf (g.slot tail) ∧
      Has dev s p dbuf (s.log.blocks.getD tail 0) ∧ Distinct s p lbuf dbuf
  | .installFreeTo tail dbuf => Has dev s p dbuf (s.log.blocks.getD tail 0)
  | .committed => s.log.blocks = []

/-- A step that takes nothing from process `p`. -/
structure Frame (s t : Machine) (p : Proc) : Prop where
  identity : ∀ b, s.users b ≠ 0 → (t.cache.buf b).dev = (s.cache.buf b).dev ∧
    (t.cache.buf b).blockno = (s.cache.buf b).blockno
  lock : ∀ b, s.lock b = some p → t.lock b = some p
  waiting : ∀ b, s.doing p = .waiting b → t.lock b = some p ∨ t.doing p = .waiting b
  stuck : ∀ b, s.lock b = some p → s.doing p = .waiting b → t.doing p = .waiting b

section Frames

variable {g : Geometry} {dev : UInt32} {s t : Machine} {todo : List Nat} {p q : Proc} {b : BufPtr}
  {block : Nat}

theorem users_of_lock (locked : s.lock b = some p) : s.users b ≠ 0 := by
  unfold Machine.users
  rw [locked]
  exact Nat.succ_ne_zero _

theorem users_of_waiting (waits : s.doing p = .waiting b) : s.users b ≠ 0 := by
  have moved := onCount_update s.doing p .running b
  rw [waits, Doing.running_on, Doing.waiting_on, if_pos rfl] at moved
  unfold Machine.users
  omega

theorem Has.users (has : Has dev s p b block) : s.users b ≠ 0 := by
  rcases has.mine with locked | waits
  · exact users_of_lock locked
  · exact users_of_waiting waits

theorem Has.frame (has : Has dev s p b block) (frame : Frame s t p) : Has dev t p b block := by
  obtain ⟨sameDev, sameBlock⟩ := frame.identity b has.users
  refine ⟨has.isBuf, sameDev.trans has.device, sameBlock.trans has.number, ?_⟩
  rcases has.mine with locked | waits
  · exact .inl (frame.lock b locked)
  · exact frame.waiting b waits

theorem Distinct.frame {a : BufPtr} (apart : Distinct s p a b) (frame : Frame s t p) :
    Distinct t p a b := by
  intro same
  obtain ⟨locked, waits⟩ := apart same
  exact ⟨frame.lock a locked, frame.stuck a locked waits⟩

theorem PcFacts.frame {pc : Pc} (facts : PcFacts g dev s p pc) (frame : Frame s t p)
    (blocks : t.log.blocks = s.log.blocks) : PcFacts g dev t p pc := by
  have count : t.log.n = s.log.n := congrArg List.length blocks
  cases pc with
  | writeLog tail => trivial
  | install tail => trivial
  | writeLogFrom tail dst | installTo tail lbuf =>
    obtain ⟨inside, has⟩ := facts
    exact ⟨count ▸ inside, has.frame frame⟩
  | writeLogCopy tail dst src | writeLogFreeFrom tail dst src | installCopy tail lbuf dbuf
  | installUnpin tail lbuf dbuf | installFreeFrom tail lbuf dbuf =>
    obtain ⟨inside, first, second, apart⟩ := facts
    rw [PcFacts, count, blocks]
    exact ⟨inside, first.frame frame, second.frame frame, apart.frame frame⟩
  | writeLogFreeTo tail dst => exact Has.frame facts frame
  | writeHead erase | committed =>
    rw [PcFacts, blocks]
    exact facts
  | writeHeadPut erase buf | writeHeadFree erase buf =>
    rw [PcFacts, blocks]
    exact ⟨facts.1, facts.2.frame frame⟩
  | installFreeTo tail dbuf =>
    rw [PcFacts, blocks]
    exact Has.frame facts frame

/-- `bget` recycles no buffer that has a reference. -/
theorem bget_identity {c cache : BCache} {order : List BufPtr} (ordered : Ordered c order)
    {number : UInt32} (got : bget c dev number = some (b, cache)) {other : BufPtr}
    (used : (c.buf other).refcnt ≠ 0) :
    (cache.buf other).dev = (c.buf other).dev ∧
      (cache.buf other).blockno = (c.buf other).blockno := by
  obtain ⟨_, ⟨_, rfl⟩ | ⟨_, unused, rfl⟩⟩ := bget_cases ordered got
  · exact setRefcnt_identity _ _ _ other
  · have different : other ≠ b := by
      rintro rfl
      exact used (by simpa [BCache.unused] using unused)
    rw [BCache.recycle, BCache.setBuf_other _ different]
    exact ⟨rfl, rfl⟩

/-- The buffer `bget` returns holds the block. -/
theorem bget_holds {c cache : BCache} {order : List BufPtr} (ordered : Ordered c order)
    {number : UInt32} (got : bget c dev number = some (b, cache)) :
    b ≠ head ∧ (cache.buf b).dev = dev ∧ (cache.buf b).blockno = number := by
  obtain ⟨isBuf, ⟨held, rfl⟩ | ⟨_, _, rfl⟩⟩ := bget_cases ordered got
  · obtain ⟨sameDev, sameBlock⟩ := setRefcnt_identity c b ((c.buf b).refcnt + 1) b
    simp only [BCache.holds, Bool.and_eq_true, beq_iff_eq] at held
    exact ⟨isBuf, sameDev.trans held.1, sameBlock.trans held.2⟩
  · rw [BCache.recycle, BCache.setBuf_self]
    exact ⟨isBuf, rfl, rfl⟩

theorem Core.frame_get (core : Core dev s todo) (idle : s.doing q = .running) {number : UInt32}
    {cache : BCache} (got : bget s.cache dev number = some (b, cache)) :
    Frame s (s.get q b cache) p := by
  have still : ∀ other, s.doing p = .waiting other →
      (s.get q b cache).doing p = .waiting other := by
    intro other waits
    have different : p ≠ q := by
      rintro rfl
      rw [idle] at waits
      contradiction
    exact (update_of_ne different _ _).trans waits
  obtain ⟨order, ordered⟩ := core.order
  exact ⟨fun other used => bget_identity ordered got fun absent => used (core.unused absent).1,
    fun _ locked => locked, fun other waits => .inr (still other waits), fun other _ waits =>
      still other waits⟩

theorem frame_acquire (waits : s.doing q = .waiting b) (free : s.lock b = none) :
    Frame s (s.acquire q b) p := by
  have keeps : ∀ other, s.lock other = some p → (s.acquire q b).lock other = some p := by
    intro other locked
    have different : other ≠ b := by
      rintro rfl
      rw [free] at locked
      contradiction
    exact (update_of_ne different _ _).trans locked
  refine ⟨fun _ _ => ⟨rfl, rfl⟩, keeps, ?_, ?_⟩
  · intro other isWaiting
    by_cases same : p = q
    · subst same
      rw [waits] at isWaiting
      injection isWaiting with isB
      rw [← isB]
      exact .inl (update_self b _ s.lock)
    · exact .inr ((update_of_ne same _ _).trans isWaiting)
  · intro other locked isWaiting
    by_cases same : p = q
    · subst same
      rw [waits] at isWaiting
      injection isWaiting with isB
      rw [← isB, free] at locked
      contradiction
    · exact (update_of_ne same _ _).trans isWaiting

/-- A change of the cache alone. -/
theorem frame_cache (identity : ∀ b, (t.cache.buf b).dev = (s.cache.buf b).dev ∧
    (t.cache.buf b).blockno = (s.cache.buf b).blockno) (lock : t.lock = s.lock)
    (doing : t.doing = s.doing) : Frame s t p := by
  refine ⟨fun b _ => identity b, ?_, ?_, ?_⟩
  · rw [lock]
    exact fun _ locked => locked
  · rw [doing]
    exact fun _ waits => .inr waits
  · rw [doing]
    exact fun _ _ waits => waits

theorem frame_unlock (locked : s.lock b = some q) (different : p ≠ q) :
    Frame s (s.unlock q b) p := by
  refine ⟨fun _ _ => ⟨rfl, rfl⟩, ?_, ?_, ?_⟩
  · intro other held
    have notB : other ≠ b := by
      rintro rfl
      rw [locked] at held
      exact different (Option.some.inj held).symm
    exact (update_of_ne notB _ _).trans held
  · exact fun other waits => .inr ((update_of_ne different _ _).trans waits)
  · exact fun other _ waits => (update_of_ne different _ _).trans waits

theorem frame_release (releases : s.doing q = .releasing b) : Frame s (s.release q b) p := by
  have still : ∀ other, s.doing p = .waiting other → (s.release q b).doing p = .waiting other := by
    intro other waits
    have different : p ≠ q := by
      rintro rfl
      rw [releases] at waits
      contradiction
    exact (update_of_ne different _ _).trans waits
  refine ⟨fun other _ => ?_, fun _ held => held, fun other waits => .inr (still other waits),
    fun other _ waits => still other waits⟩
  change ((brelse s.cache b).buf other).dev = _ ∧ ((brelse s.cache b).buf other).blockno = _
  rw [brelse_buf]
  exact setRefcnt_identity _ _ _ other

end Frames

/-- The invariant of the machine. -/
structure Machine.Sound (g : Geometry) (dev : UInt32) (s : Machine) : Prop where
  core : Core dev s s.pending
  nodup : s.log.blocks.Nodup
  words : ∀ block ∈ s.log.blocks, block < 2 ^ 32
  idle : s.commit = none → s.log.committing = false
  busy : ∀ p pc, s.commit = some (p, pc) →
    s.log.outstanding = 0 ∧ s.log.committing = true ∧ PcFacts g dev s p pc

section Outside

variable {g : Geometry} {dev : UInt32} {s t : Machine} {p : Proc} {b : BufPtr}

theorem pending_idle (idle : s.commit = none) : s.pending = s.log.blocks := by
  rw [Machine.pending, idle]

theorem pending_at {pc : Pc} (inside : s.commit = some (p, pc)) :
    s.pending = s.log.blocks.drop pc.installed := by
  rw [Machine.pending, inside]

/-- A step that leaves the log and the process in `commit()` alone. -/
theorem Machine.Sound.frame (sound : s.Sound g dev) (core : Core dev t s.pending)
    (log : t.log = s.log) (commit : t.commit = s.commit)
    (frame : ∀ p pc, s.commit = some (p, pc) → Frame s t p) : t.Sound g dev := by
  have pending : t.pending = s.pending := by
    unfold Machine.pending
    rw [log, commit]
  refine ⟨pending ▸ core, ?_, ?_, ?_, ?_⟩
  · rw [log]
    exact sound.nodup
  · rw [log]
    exact sound.words
  · rw [log, commit]
    exact sound.idle
  · rw [log, commit]
    intro p pc inside
    obtain ⟨outstanding, committing, facts⟩ := sound.busy p pc inside
    exact ⟨outstanding, committing, facts.frame (frame p pc inside) (by rw [log])⟩

/-- Outside `commit()` with nobody in it, only the log changes. -/
theorem Machine.Sound.relog (sound : s.Sound g dev) (idle : s.commit = none) {log : Log}
    {inOp : Proc → Bool} (blocks : log.blocks = s.log.blocks)
    (committing : log.committing = false) :
    Machine.Sound g dev { s with log := log, inOp := inOp } := by
  have core := sound.core
  rw [pending_idle idle] at core
  have pending : Machine.pending { s with log := log, inOp := inOp } = s.log.blocks := by
    rw [Machine.pending, idle]
    exact blocks
  refine ⟨?_, ?_, ?_, fun _ => committing, ?_⟩
  · rw [pending]
    exact ⟨core.order, core.unique, core.onBuf, core.lockBuf, core.device, core.counted, core.pins,
      fun block member => by
        obtain ⟨found, buffered⟩ := core.logged block member
        exact ⟨found, buffered.congr (.inl rfl) rfl⟩⟩
  · exact blocks ▸ sound.nodup
  · exact blocks ▸ sound.words
  · intro p pc inside
    rw [idle] at inside
    contradiction

theorem Machine.Sound.idle_of_outstanding (sound : s.Sound g dev)
    (present : 0 < s.log.outstanding) :
    s.commit = none := by
  cases inside : s.commit with
  | none => rfl
  | some at_ =>
    have absent := (sound.busy at_.1 at_.2 inside).1
    omega

theorem Machine.Sound.idle_of_committing (sound : s.Sound g dev) (no : s.log.committing = false) :
    s.commit = none := by
  cases inside : s.commit with
  | none => rfl
  | some at_ =>
    have yes := (sound.busy at_.1 at_.2 inside).2.1
    rw [no] at yes
    contradiction

theorem logWrite_outstanding {log log' : Log} {block : Nat}
    (written : Log.logWrite g log block = .ok log') : 0 < log.outstanding := by
  unfold Log.logWrite at written
  split_ifs at written with full outside
  omega

theorem Machine.Sound.logged (sound : s.Sound g dev) (device : dev ≠ 0) {log : Log}
    (locked : s.lock b = some p) (valid : (s.cache.buf b).valid = true)
    (written : Log.logWrite g s.log (s.cache.buf b).blockno.toNat = .ok log) :
    (s.logged b log).Sound g dev := by
  have idle := sound.idle_of_outstanding (logWrite_outstanding written)
  have core := sound.core
  rw [pending_idle idle] at core
  obtain ⟨_, isLog⟩ := Log.logWrite_ok written
  have blocks : log.blocks = absorb (s.cache.buf b).blockno.toNat s.log.blocks := by rw [isLog]
  have committing : log.committing = false := by
    rw [isLog]
    exact sound.idle idle
  have nodup : log.blocks.Nodup := by
    rw [blocks]
    exact absorb_nodup sound.nodup
  have words : ∀ block ∈ log.blocks, block < 2 ^ 32 := by
    intro block member
    rw [blocks, mem_absorb] at member
    rcases member with old | new
    · exact sound.words block old
    · rw [new]
      exact UInt32.toNat_lt _
  have same : (s.logged b log).log = log ∧ (s.logged b log).commit = none := by
    unfold Machine.logged
    split_ifs
    · exact ⟨rfl, idle⟩
    · exact ⟨rfl, idle⟩
  refine ⟨?_, ?_, ?_, ?_, ?_⟩
  · rw [pending_idle same.2, same.1, blocks]
    unfold Machine.logged
    by_cases old : (s.cache.buf b).blockno.toNat ∈ s.log.blocks
    · rw [if_pos old, absorb_of_mem old]
      exact core.logAgain device locked log
    · rw [if_neg old, absorb_of_notMem old]
      exact core.logNew device locked valid old log
  · rw [same.1]
    exact nodup
  · rw [same.1]
    exact words
  · rw [same.1]
    exact fun _ => committing
  · intro p pc inside
    rw [same.2] at inside
    contradiction

theorem Machine.Sound.endOp (sound : s.Sound g dev) {log : Log} {inOp : Proc → Bool}
    (ended : Log.endOp s.log = .ok log) :
    Machine.Sound g dev { s with
      log := log
      inOp := inOp
      commit := if log.committing then
          some (p, if 0 < log.n then .writeLog 0 else .committed)
        else s.commit } := by
  obtain ⟨notYet, isLog⟩ := Log.endOp_ok ended
  have idle := sound.idle_of_committing notYet
  have core := sound.core
  rw [pending_idle idle] at core
  have blocks : log.blocks = s.log.blocks := by rw [isLog]
  by_cases last : log.committing = true
  · have outstanding : log.outstanding = 0 := by
      rw [isLog] at last ⊢
      exact of_decide_eq_true last
    simp only [last, if_true]
    have pending : Machine.pending { s with
        log := log, inOp := inOp,
        commit := some (p, if 0 < log.n then Pc.writeLog 0 else .committed) } = s.log.blocks := by
      unfold Machine.pending
      dsimp only
      split_ifs
      · rw [← blocks]
        rfl
      · rw [← blocks]
        rfl
    refine ⟨?_, blocks ▸ sound.nodup, blocks ▸ sound.words, ?_, ?_⟩
    · rw [pending]
      exact ⟨core.order, core.unique, core.onBuf, core.lockBuf, core.device, core.counted,
        core.pins, fun block member => by
          obtain ⟨found, buffered⟩ := core.logged block member
          exact ⟨found, buffered.congr (.inl rfl) rfl⟩⟩
    · intro absent
      exact absurd absent (Option.some_ne_none _)
    · intro q pc inside
      simp only [Option.some.injEq, Prod.mk.injEq] at inside
      obtain ⟨rfl, rfl⟩ := inside
      refine ⟨outstanding, last, ?_⟩
      split_ifs with present
      · trivial
      · change log.blocks = []
        exact List.eq_nil_of_length_eq_zero (Nat.eq_zero_of_not_pos present)
  · have stays : log.committing = false := Bool.eq_false_of_not_eq_true last
    simp only [stays, Bool.false_eq_true, if_false]
    exact sound.relog idle blocks stays

end Outside

end Xv6.Kernel.Log
