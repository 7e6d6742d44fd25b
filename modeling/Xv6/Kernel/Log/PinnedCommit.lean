import Xv6.Kernel.Log.PinnedRuns

/-!
What commit does with pinned buffers, and the theorem about runs.

Owns: one lemma for each program counter of the process in commit, the invariant of
every run, and what it says about the log's pins and the blocks on disk.

Does not own: the sections of the other processes.
-/

namespace Xv6.Kernel.Log

open Xv6.Lib Xv6.Kernel.Bio
open Function (update update_of_ne update_self)

section Commit

variable {g : Geometry} {dev : UInt32} {s t : Machine} {p : Proc} {pc next : Pc} {b : BufPtr}
  {block : Nat}

/-- A section of the process in `commit()`, which goes on at `next`. -/
theorem Machine.Sound.goto (sound : s.Sound g dev) (inside : s.commit = some (p, pc))
    (core : Core dev t (s.log.blocks.drop next.installed)) (log : t.log = s.log)
    (facts : PcFacts g dev (t.goto p next) p next) : (t.goto p next).Sound g dev := by
  have sameLog : (t.goto p next).log = s.log := log
  have at_ : (t.goto p next).commit = some (p, next) := rfl
  obtain ⟨outstanding, committing, _⟩ := sound.busy p pc inside
  refine ⟨?_, ?_, ?_, ?_, ?_⟩
  · rw [pending_at at_, sameLog]
    exact ⟨core.order, core.unique, core.onBuf, core.lockBuf, core.device, core.counted, core.pins,
      fun block member => by
        obtain ⟨found, buffered⟩ := core.logged block member
        exact ⟨found, buffered.congr (.inl rfl) rfl⟩⟩
  · rw [sameLog]
    exact sound.nodup
  · rw [sameLog]
    exact sound.words
  · intro absent
    exact absurd absent (Option.some_ne_none _)
  · intro q other now
    rw [at_, Option.some.injEq, Prod.mk.injEq] at now
    obtain ⟨rfl, rfl⟩ := now
    rw [sameLog]
    exact ⟨outstanding, committing, facts⟩

theorem Frame.goto (frame : Frame s t p) : Frame s (t.goto p next) p :=
  ⟨frame.identity, frame.lock, frame.waiting, frame.stuck⟩

/-- Once it runs again, the process in `commit()` has the lock it waited for. -/
theorem Has.locked (has : Has dev s p b block) (idle : s.doing p = .running) :
    s.lock b = some p := by
  rcases has.mine with locked | waits
  · exact locked
  · rw [idle] at waits
    contradiction

theorem Distinct.ne {a : BufPtr} (distinct : Distinct s p a b) (idle : s.doing p = .running) :
    a ≠ b := by
  intro same
  have waits := (distinct same).2
  rw [idle] at waits
  contradiction

/-- A `bread` of the process in `commit()`. -/
theorem Machine.Sound.commitGet (sound : s.Sound g dev) (inside : s.commit = some (p, pc))
    (idle : s.doing p = .running) {after : BufPtr → Pc}
    (got : s.commitGet dev p block after = some t)
    (installed : ∀ b, (after b).installed = pc.installed)
    (facts : ∀ b u, Frame s u p → u.log = s.log → Has dev u p b block →
      (∀ a, s.lock a = some p → Distinct u p a b) → PcFacts g dev u p (after b)) :
    t.Sound g dev := by
  have core := sound.core
  rw [pending_at inside] at core
  obtain ⟨⟨b, cache⟩, found, isT⟩ := Option.map_eq_some_iff.mp got
  subst isT
  have moved := core.get idle found
  have frame : Frame s ((s.get p b cache).goto p (after b)) p := (core.frame_get idle found).goto
  have waits : ((s.get p b cache).goto p (after b)).doing p = .waiting b :=
    update_self p _ s.doing
  obtain ⟨order, ordered⟩ := core.order
  have holds := bget_holds ordered found
  have has : Has dev ((s.get p b cache).goto p (after b)) p b block :=
    ⟨holds.1, holds.2.1, holds.2.2, .inr waits⟩
  refine sound.goto inside ?_ rfl (facts b _ frame rfl has ?_)
  · rw [installed b]
    exact moved
  · intro a held same
    subst same
    exact ⟨held, waits⟩

theorem store_identity (s : Machine) (stored : BufPtr) (data : Block) (other : BufPtr) :
    ((s.store stored data).cache.buf other).dev = (s.cache.buf other).dev ∧
      ((s.store stored data).cache.buf other).blockno = (s.cache.buf other).blockno :=
  setBuf_identity s.cache stored { s.cache.buf stored with data := data } rfl rfl other

theorem Machine.Sound.commitPut (sound : s.Sound g dev) (device : dev ≠ 0)
    (inside : s.commit = some (p, pc)) (locked : s.lock b = some p) (data : Block)
    (installed : next.installed = pc.installed)
    (facts : ∀ u, Frame s u p → u.log = s.log → PcFacts g dev u p next) :
    (((s.store b data).bwrite b).goto p next).Sound g dev := by
  have core := sound.core
  rw [pending_at inside] at core
  have stored := core.store device locked data
  have frame : Frame s ((s.store b data).bwrite b) p :=
    frame_cache (store_identity s b data) rfl rfl
  refine sound.goto inside ?_ rfl (facts _ frame.goto rfl)
  rw [installed]
  exact ⟨stored.order, stored.unique, stored.onBuf, stored.lockBuf, stored.device, stored.counted,
    stored.pins, fun block member => by
      obtain ⟨found, buffered⟩ := stored.logged block member
      exact ⟨found, buffered.congr (.inl rfl) rfl⟩⟩

theorem Machine.Sound.commitFree (sound : s.Sound g dev) (inside : s.commit = some (p, pc))
    (idle : s.doing p = .running) (locked : s.lock b = some p)
    (installed : next.installed = pc.installed)
    (facts : PcFacts g dev ((s.unlock p b).goto p next) p next) :
    ((s.unlock p b).goto p next).Sound g dev := by
  have core := sound.core
  rw [pending_at inside] at core
  refine sound.goto inside ?_ rfl facts
  rw [installed]
  exact core.unlock locked idle

/-- The other buffer stays locked. -/
theorem Has.unlock {a : BufPtr} (has : Has dev s p a block) (idle : s.doing p = .running)
    (different : a ≠ b) : Has dev ((s.unlock p b).goto p next) p a block :=
  ⟨has.isBuf, has.device, has.number,
    .inl ((update_of_ne different _ _).trans (has.locked idle))⟩

theorem Machine.Sound.commitUnpin {tail : Nat} {lbuf dbuf : BufPtr} (sound : s.Sound g dev)
    (device : dev ≠ 0) (inside : s.commit = some (p, .installUnpin tail lbuf dbuf)) :
    ((s.unpin dbuf).goto p (.installFreeFrom tail lbuf dbuf)).Sound g dev := by
  obtain ⟨_, _, facts⟩ := sound.busy _ _ inside
  have inList : tail < s.log.blocks.length := facts.1
  have second := facts.2.2.1
  have core := sound.core
  rw [pending_at inside] at core
  have entry : s.log.blocks.getD tail 0 = s.log.blocks[tail] := by
    rw [List.getD_eq_getElem?_getD, List.getElem?_eq_getElem inList, Option.getD_some]
  have front : s.log.blocks.drop tail = s.log.blocks[tail] :: s.log.blocks.drop (tail + 1) :=
    List.drop_eq_getElem_cons inList
  have word : s.log.blocks[tail] < 2 ^ 32 := sound.words _ (List.getElem_mem inList)
  have number : (s.cache.buf dbuf).blockno.toNat = s.log.blocks[tail] := by
    rw [second.number, entry]
    exact UInt32.toNat_ofNat_of_lt' word
  have new : s.log.blocks[tail] ∉ s.log.blocks.drop (tail + 1) := by
    have nodup : (s.log.blocks.drop tail).Nodup := sound.nodup.drop
    rw [front, List.nodup_cons] at nodup
    exact nodup.1
  change Core dev s (s.log.blocks.drop tail) at core
  rw [front] at core
  refine sound.goto inside (core.unpin device second.isBuf second.device number new) rfl ?_
  have frame : Frame s (s.unpin dbuf) p :=
    frame_cache (fun other => setRefcnt_identity _ _ _ other) rfl rfl
  exact facts.frame frame.goto rfl

/-- Every section of `commit()`. -/
theorem Machine.Sound.commitStep (sound : s.Sound g dev) (device : dev ≠ 0)
    (inside : s.commit = some (p, pc)) (idle : s.doing p = .running)
    (advances : s.commitStep g dev p pc = some t) : t.Sound g dev := by
  have core := sound.core
  rw [pending_at inside] at core
  obtain ⟨outstanding, committing, facts⟩ := sound.busy p pc inside
  cases pc with
  | writeLog tail =>
    change (if tail < s.log.n then _ else _) = _ at advances
    split_ifs at advances with more
    · apply sound.commitGet inside idle advances (fun _ => rfl)
      intro b u frame log has _
      exact ⟨log ▸ more, has⟩
    · cases advances
      exact sound.goto inside core rfl (fun erase => Bool.noConfusion erase)
  | writeLogFrom tail dst =>
    obtain ⟨inList, first⟩ := facts
    apply sound.commitGet inside idle advances (fun _ => rfl)
    intro b u frame log has distinct
    rw [PcFacts, log]
    exact ⟨inList, first.frame frame, has, distinct dst (first.locked idle)⟩
  | writeLogCopy tail dst src =>
    cases advances
    refine sound.commitPut device inside (facts.2.1.locked idle) _ rfl ?_
    intro u frame log
    exact facts.frame frame (by rw [log])
  | writeLogFreeFrom tail dst src =>
    obtain ⟨_, first, second, distinct⟩ := facts
    cases advances
    refine sound.commitFree inside idle (second.locked idle) rfl ?_
    exact first.unlock idle (distinct.ne idle)
  | writeLogFreeTo tail dst | installFreeTo tail dbuf =>
    cases advances
    exact sound.commitFree inside idle (Has.locked facts idle) rfl trivial
  | writeHead erase =>
    apply sound.commitGet inside idle advances (fun _ => rfl)
    intro b u frame log has _
    rw [PcFacts, log]
    exact ⟨facts, has⟩
  | writeHeadPut erase buf =>
    cases advances
    refine sound.commitPut device inside (facts.2.locked idle) _ rfl ?_
    intro u frame log
    exact facts.frame frame (by rw [log])
  | writeHeadFree erase buf =>
    cases advances
    cases erase with
    | false => exact sound.commitFree inside idle (facts.2.locked idle) rfl trivial
    | true => exact sound.commitFree inside idle (facts.2.locked idle) rfl (facts.1 rfl)
  | install tail =>
    change (if tail < s.log.n then _ else _) = _ at advances
    split_ifs at advances with more
    · apply sound.commitGet inside idle advances (fun _ => rfl)
      intro b u frame log has _
      exact ⟨log ▸ more, has⟩
    · cases advances
      -- every entry is installed, so emptying the list drops no pending block
      have absent : s.log.blocks.drop tail = [] := List.drop_eq_nil_of_le (Nat.le_of_not_lt more)
      change Core dev s (s.log.blocks.drop tail) at core
      rw [absent] at core
      refine ⟨?_, List.nodup_nil, ?_, ?_, ?_⟩
      · exact ⟨core.order, core.unique, core.onBuf, core.lockBuf, core.device, core.counted,
          core.pins, fun block member => absurd member List.not_mem_nil⟩
      · exact fun block member => absurd member List.not_mem_nil
      · exact fun absent => absurd absent (Option.some_ne_none _)
      · intro q other now
        rw [Machine.goto, Option.some.injEq, Prod.mk.injEq] at now
        obtain ⟨rfl, rfl⟩ := now
        exact ⟨outstanding, committing, fun _ => rfl⟩
  | installTo tail lbuf =>
    obtain ⟨inList, first⟩ := facts
    apply sound.commitGet inside idle advances (fun _ => rfl)
    intro b u frame log has distinct
    rw [PcFacts, log]
    exact ⟨inList, first.frame frame, has, distinct lbuf (first.locked idle)⟩
  | installCopy tail lbuf dbuf =>
    cases advances
    refine sound.commitPut device inside (facts.2.2.1.locked idle) _ rfl ?_
    intro u frame log
    exact facts.frame frame (by rw [log])
  | installUnpin tail lbuf dbuf =>
    cases advances
    exact sound.commitUnpin device inside
  | installFreeFrom tail lbuf dbuf =>
    obtain ⟨_, first, second, distinct⟩ := facts
    cases advances
    refine sound.commitFree inside idle (first.locked idle) rfl ?_
    exact second.unlock idle (Ne.symm (distinct.ne idle))
  | committed =>
    cases advances
    change s.log.blocks = [] at facts
    have pending : Machine.pending { s with
        log := { s.log with committing := false }, commit := none } = [] := facts
    rw [facts] at core
    refine ⟨?_, sound.nodup, sound.words, fun _ => rfl, ?_⟩
    · rw [pending]
      exact ⟨core.order, core.unique, core.onBuf, core.lockBuf, core.device, core.counted,
        core.pins, fun block member => absurd member List.not_mem_nil⟩
    · exact fun q other now => absurd now.symm (Option.some_ne_none _)

end Commit

section Runs

variable {g : Geometry} {dev : UInt32} {s t : Machine} {p : Proc} {b : BufPtr} {block : Nat}
  {action : CacheAction}

theorem Machine.Idle.sound (idle : s.Idle) : s.Sound g dev := by
  have absent : s.pending = [] := by
    rw [pending_idle idle.commit, idle.log]
    rfl
  have users : ∀ b, s.users b = 0 := by
    intro b
    unfold Machine.users onCount
    rw [idle.unlocked b]
    simp only [idle.running, Doing.running_on, Finset.sum_const_zero]
    rfl
  have noPins : ∀ b, pinCount dev s.cache [] b = 0 := by
    intro b
    exact if_neg fun holds => absurd holds.2.2 List.not_mem_nil
  refine ⟨?_, ?_, ?_, ?_, ?_⟩
  · rw [absent]
    refine ⟨idle.order, idle.unique, ?_, ?_, ?_, ?_, ?_, ?_⟩
    · intro p b on
      rw [idle.running p] at on
      contradiction
    · exact fun b locked => absurd (idle.unlocked b) locked
    · exact fun b used => absurd (users b) used
    · intro b
      rw [idle.unused b, users b, noPins b]
      rfl
    · intro b
      rw [(idle.pins b).1, (idle.pins b).2, noPins b]
    · exact fun block member => absurd member List.not_mem_nil
  · rw [idle.log]
    exact List.nodup_nil
  · rw [idle.log]
    exact fun block member => absurd member List.not_mem_nil
  · rw [idle.log]
    exact fun _ => rfl
  · intro p pc inside
    rw [idle.commit] at inside
    contradiction

theorem Machine.Outside.ne {q : Proc} {pc : Pc} (outside : s.Outside q)
    (inside : s.commit = some (p, pc)) : p ≠ q := by
  rintro rfl
  exact outside pc inside

theorem Machine.Sound.step (sound : s.Sound g dev) (device : dev ≠ 0)
    (step : CacheStep g dev s action t) : t.Sound g dev := by
  cases step with
  | get outside idle got =>
    exact sound.frame (sound.core.get idle got) rfl rfl fun _ _ _ => sound.core.frame_get idle got
  | acquire waits free =>
    exact sound.frame (sound.core.acquire waits free) rfl rfl fun _ _ _ => frame_acquire waits free
  | fill locked idle invalid =>
    refine sound.frame (sound.core.fill invalid) rfl rfl fun _ _ _ => ?_
    exact frame_cache (setBuf_identity _ _ _ rfl rfl) rfl rfl
  | store outside locked idle valid =>
    refine sound.frame (sound.core.store device locked _) rfl rfl fun _ _ _ => ?_
    exact frame_cache (store_identity _ _ _) rfl rfl
  | unlock outside locked idle valid =>
    exact sound.frame (sound.core.unlock locked idle) rfl rfl fun _ _ inside =>
      frame_unlock locked (outside.ne inside)
  | release releases =>
    exact sound.frame (sound.core.release releases) rfl rfl fun _ _ _ => frame_release releases
  | beginOp outside idle notYet admitted =>
    obtain ⟨isIdle, _, isLog⟩ := Log.beginOp_some admitted
    refine sound.relog (sound.idle_of_committing isIdle) ?_ ?_
    · rw [isLog]
    · rw [isLog]
      exact isIdle
  | logWrite outside locked idle valid written => exact sound.logged device locked valid written
  | endOp outside idle inside ended => exact sound.endOp ended
  | commit inside idle valid advances => exact sound.commitStep device inside idle advances

/-- A logged block that is not installed has one buffer, with one pin. -/
theorem Machine.Sound.pinned (sound : s.Sound g dev) (member : block ∈ s.pending)
    (buffered : Buffered dev s block b) :
    (s.cache.buf b).refcnt = UInt32.ofNat (s.users b + 1) ∧ (s.cache.buf b).refcnt ≠ 0 ∧
      s.taken b = s.dropped b + 1 := by
  have one : pinCount dev s.cache s.pending b = 1 := buffered.pinned member
  have counted := sound.core.counted b
  have pins := sound.core.pins b
  rw [one] at counted pins
  refine ⟨counted, ?_, pins⟩
  intro zero
  have absent := (sound.core.unused zero).2
  omega

theorem commitGet_identity {order : List BufPtr} (ordered : Ordered s.cache order)
    {next : BufPtr → Pc} (got : s.commitGet dev p block next = some t)
    (used : (s.cache.buf b).refcnt ≠ 0) :
    (t.cache.buf b).dev = (s.cache.buf b).dev ∧
      (t.cache.buf b).blockno = (s.cache.buf b).blockno := by
  obtain ⟨⟨found, cache⟩, isGot, isT⟩ := Option.map_eq_some_iff.mp got
  subst isT
  exact bget_identity ordered isGot used

/-- No step recycles a buffer that has a reference. -/
theorem CacheStep.identity (step : CacheStep g dev s action t) {order : List BufPtr}
    (ordered : Ordered s.cache order) (used : (s.cache.buf b).refcnt ≠ 0) :
    (t.cache.buf b).dev = (s.cache.buf b).dev ∧
      (t.cache.buf b).blockno = (s.cache.buf b).blockno := by
  cases step with
  | get outside idle got => exact bget_identity ordered got used
  | fill locked idle invalid =>
    apply setBuf_identity
    · rfl
    · rfl
  | store outside locked idle valid => exact store_identity _ _ _ b
  | release releases =>
    simp only [Machine.release, brelse_buf]
    exact setRefcnt_identity _ _ _ b
  | logWrite outside locked idle valid written =>
    unfold Machine.logged
    split_ifs
    · exact ⟨rfl, rfl⟩
    · exact setRefcnt_identity _ _ _ b
  | acquire waits free | unlock outside locked idle valid | beginOp outside idle notYet admitted
  | endOp outside idle inside ended =>
    exact ⟨rfl, rfl⟩
  | commit inside idle valid advances =>
    rename_i pc
    cases pc with
    | writeLog tail | install tail =>
      change (if tail < s.log.n then _ else _) = _ at advances
      split_ifs at advances with more
      · exact commitGet_identity ordered advances used
      · cases advances
        exact ⟨rfl, rfl⟩
    | writeLogFrom tail dst | writeHead erase | installTo tail lbuf =>
      exact commitGet_identity ordered advances used
    | writeLogCopy tail dst src | writeHeadPut erase buf | installCopy tail lbuf dbuf =>
      cases advances
      exact store_identity _ _ _ b
    | installUnpin tail lbuf dbuf =>
      cases advances
      exact setRefcnt_identity _ _ _ b
    | _ =>
      cases advances
      exact ⟨rfl, rfl⟩

/-- `write_log` copies the data last stored for the block. -/
theorem Machine.Sound.copied (sound : s.Sound g dev) (device : dev ≠ 0) {tail : Nat}
    {dst src : BufPtr} (inside : s.commit = some (p, .writeLogCopy tail dst src))
    (step : CacheStep g dev s (.commit p) t) :
    t.disk (UInt32.ofNat (g.slot tail)).toNat = s.modified (s.log.blocks.getD tail 0) := by
  cases step with
  | commit now idle valid advances =>
    rw [inside, Option.some.injEq, Prod.mk.injEq] at now
    obtain ⟨_, rfl⟩ := now
    obtain ⟨_, _, inList, first, second, distinct⟩ := sound.busy _ _ inside
    cases advances
    have core := sound.core
    rw [pending_at inside] at core
    have inBlocks : tail < s.log.blocks.length := inList
    have entry : s.log.blocks.getD tail 0 = s.log.blocks[tail] := by
      rw [List.getD_eq_getElem?_getD, List.getElem?_eq_getElem inBlocks, Option.getD_some]
    have member : s.log.blocks.getD tail 0 ∈ s.log.blocks := by
      rw [entry]
      exact List.getElem_mem inBlocks
    obtain ⟨found, buffered⟩ := core.logged _ member
    have number : (s.cache.buf src).blockno.toNat = s.log.blocks.getD tail 0 := by
      rw [second.number]
      exact UInt32.toNat_ofNat_of_lt' (sound.words _ member)
    have isSrc := core.same_buffer device buffered second.isBuf second.device number
    rw [isSrc] at buffered
    let copied := { s.cache.buf dst with data := (s.cache.buf src).data }
    change update s.disk ((s.cache.setBuf dst copied).buf dst).blockno.toNat
      ((s.cache.setBuf dst copied).buf dst).data _ = _
    rw [BCache.setBuf_self, first.number, update_self]
    exact buffered.data

/-- In every run the log's entries are distinct. Each entry that is not installed has
one buffer, which holds the data last stored for the block and one pin of the log;
no step gives that buffer to another block, and `write_log` copies that data. After
`commit()` the log is empty and every pin is dropped. -/
theorem logged_stay_pinned (device : dev ≠ 0) {steps : List (Machine × CacheAction)}
    (run : Run Machine.Idle (CacheStep g dev) steps s) :
    s.log.blocks.Nodup ∧
      (∀ block ∈ s.pending, ∃ b, Buffered dev s block b ∧
        (∀ other, Buffered dev s block other → other = b) ∧
        (s.cache.buf b).refcnt = UInt32.ofNat (s.users b + 1) ∧ s.taken b = s.dropped b + 1 ∧
        ∀ action t, CacheStep g dev s action t →
          (t.cache.buf b).dev = dev ∧ (t.cache.buf b).blockno.toNat = block) ∧
      (∀ b, ¬HoldsOne dev s.cache s.pending b → s.taken b = s.dropped b) ∧
      (∀ p tail dst src t, s.commit = some (p, .writeLogCopy tail dst src) →
        CacheStep g dev s (.commit p) t →
        t.disk (UInt32.ofNat (g.slot tail)).toNat = s.modified (s.log.blocks.getD tail 0)) ∧
      ∀ p, s.commit = some (p, .committed) →
        s.log.n = 0 ∧ ∀ b, s.taken b = s.dropped b := by
  have sound : s.Sound g dev := run.invariant (Machine.Sound g dev)
    (fun _ idle => idle.sound) fun _ _ _ before step => before.step device step
  refine ⟨sound.nodup, ?_, ?_, ?_, ?_⟩
  · intro block member
    obtain ⟨b, buffered⟩ := sound.core.logged block member
    obtain ⟨counted, used, pins⟩ := sound.pinned member buffered
    refine ⟨b, buffered, ?_, counted, pins, ?_⟩
    · intro other also
      exact sound.core.same_buffer device also buffered.isBuf buffered.device buffered.number
    · intro action t step
      obtain ⟨order, ordered⟩ := sound.core.order
      obtain ⟨sameDev, sameBlock⟩ := step.identity ordered used
      rw [sameDev, sameBlock]
      exact ⟨buffered.device, buffered.number⟩
  · intro b holdsNone
    rw [sound.core.pins b, pinCount, if_neg holdsNone, Nat.add_zero]
  · exact fun p tail dst src t inside step => sound.copied device inside step
  · intro p inside
    obtain ⟨_, _, empty⟩ := sound.busy p _ inside
    change s.log.blocks = [] at empty
    have core := sound.core
    rw [pending_at inside, empty] at core
    refine ⟨by rw [Log.n, empty]; rfl, ?_⟩
    intro b
    rw [core.pins b, pinCount, if_neg fun holds => absurd holds.2.2 List.not_mem_nil, Nat.add_zero]

end Runs

/-- The machine after boot, over a disk of zeros. -/
def bootedMachine : Machine where
  cache := binit staticCache
  disk := fun _ => Buffer.fill 0
  lock := fun _ => none
  doing := fun _ => .running
  inOp := fun _ => false
  log := Log.boot
  commit := none
  taken := fun _ => 0
  dropped := fun _ => 0
  modified := fun _ => Buffer.fill 0

theorem bootedMachine_idle : bootedMachine.Idle where
  order := ⟨_, binit_ordered staticCache⟩
  unique := fun _ _ _ _ device => absurd rfl device
  unused := fun _ => rfl
  unlocked := fun _ => rfl
  running := fun _ => rfl
  log := rfl
  commit := rfl
  pins := fun _ => ⟨rfl, rfl⟩

/-- `bread`, `log_write` and `brelse` of a block in buffer `b`, which does not hold it yet. -/
def logOne (p : Proc) (block : UInt32) (b : BufPtr) : List CacheAction :=
  [.get p block, .acquire p, .fill p b, .logWrite p b, .unlock p b, .release p]

/-- The first process logs block 100: its buffer has the log's pin besides the
references of processes. -/
theorem logged_stay_pinned_once :
    ∃ steps s, Run Machine.Idle (CacheStep ⟨2, 31, by decide⟩ 1) steps s ∧ s.pending = [100] ∧
      ∃ b, Buffered 1 s 100 b ∧ (s.cache.buf b).refcnt = UInt32.ofNat (s.users b + 1) ∧
        s.taken b = s.dropped b + 1 := by
  have ready :
      (Run.play (Machine.next ⟨2, 31, by decide⟩ 1) bootedMachine
        (.beginOp 0 :: logOne 0 100 0)).any
      (fun s => s.pending = [100]) = true := by
    decide +kernel
  obtain ⟨s, played, ready⟩ := (Option.any_eq_true _ _).mp ready
  have pending : s.pending = [100] := of_decide_eq_true ready
  obtain ⟨steps, _, run⟩ := (Run.start bootedMachine_idle).of_play Machine.next_step played
  obtain ⟨_, pinned, _⟩ := logged_stay_pinned (by decide) run
  rw [pending] at pinned
  obtain ⟨b, buffered, _, counted, pins, _⟩ := pinned 100 (List.mem_singleton_self 100)
  exact ⟨_, _, run, pending, b, buffered, counted, pins⟩

end Xv6.Kernel.Log
