import Xv6.Kernel.Log.PinnedCommit

/-!
Whether there are enough buffers.

Owns: operations with the blocks they have logged and the unpinned buffers they
hold, the buffers in use at any time, and that operations which log few enough
blocks never drive `bget` into its panic.

Does not own: processes that read files outside of an operation.
-/

namespace Xv6.Kernel.Log

open Xv6.Lib Xv6.Kernel.Bio
open Function (update update_of_ne update_self)

/-- The machine, with the blocks that each process has logged in its operation. -/
structure Ops where
  machine : Machine
  logged : Proc → Finset Nat

/-- Process `p` has a reference to buffer `b`: it has locked it, waits for it or is
about to give it up. -/
def Machine.Uses (s : Machine) (p : Proc) (b : BufPtr) : Prop :=
  s.lock b = some p ∨ (s.doing p).on b ≠ 0

instance (s : Machine) (p : Proc) (b : BufPtr) : Decidable (s.Uses p b) :=
  inferInstanceAs (Decidable (_ ∨ _))

/-- The buffers a process uses whose blocks are not logged. -/
def Machine.unpinned (s : Machine) (p : Proc) : Finset BufPtr :=
  Finset.univ.filter fun b => s.Uses p b ∧ (s.cache.buf b).blockno.toNat ∉ s.log.blocks

/-- What operations do: they get buffers only inside of an operation, hold two unpinned
ones at most, log `limit` blocks at most and end with all buffers released. -/
def Permitted (limit : Nat) (s : Ops) : CacheAction → Prop
  | .get p block => s.machine.inOp p = true ∧
      (block.toNat ∈ s.machine.log.blocks ∨ (s.machine.unpinned p).card < 2)
  | .logWrite p b => (insert (s.machine.cache.buf b).blockno.toNat (s.logged p)).card ≤ limit
  | .endOp p => ∀ b, s.machine.lock b ≠ some p
  | _ => True

/-- The blocks logged after a step. -/
def Ops.note (s : Ops) : CacheAction → Proc → Finset Nat
  | .beginOp p => update s.logged p ∅
  | .logWrite p b =>
    update s.logged p (insert (s.machine.cache.buf b).blockno.toNat (s.logged p))
  | _ => s.logged

/-- The steps of such operations and of `commit()`. -/
def OpStep (g : Geometry) (dev : UInt32) (limit : Nat) (s : Ops) (action : CacheAction) (t : Ops) :
    Prop :=
  Permitted limit s action ∧ CacheStep g dev s.machine action t.machine ∧ t.logged = s.note action

/-- No operation has begun. -/
structure Ops.Start (s : Ops) : Prop where
  idle : s.machine.Idle
  outside : ∀ p, s.machine.inOp p = false
  unlogged : ∀ p, s.logged p = ∅

/-- A process is about to run into "bget: no buffers", in an operation or in
`commit()`. -/
inductive NoBuffers (g : Geometry) (dev : UInt32) (limit : Nat) (s : Ops) : Prop where
  | get {p : Proc} {block : UInt32} (outside : s.machine.Outside p)
      (idle : s.machine.doing p = .running) (permitted : Permitted limit s (.get p block))
      (absent : bget s.machine.cache dev block = none)
  | commit {p : Proc} {pc : Pc} (inside : s.machine.commit = some (p, pc))
      (idle : s.machine.doing p = .running) (absent : s.machine.commitStep g dev p pc = none)

/-! ### What steps do to the buffers in use -/

/-- The buffers the process in `commit()` has locked or waits for. -/
def Pc.bufs : Pc → List BufPtr
  | writeLogFrom _ dst | writeLogFreeTo _ dst => [dst]
  | writeLogCopy _ dst src | writeLogFreeFrom _ dst src => [dst, src]
  | writeHeadPut _ buf | writeHeadFree _ buf => [buf]
  | installTo _ lbuf => [lbuf]
  | installCopy _ lbuf dbuf | installUnpin _ lbuf dbuf | installFreeFrom _ lbuf dbuf => [lbuf, dbuf]
  | installFreeTo _ dbuf => [dbuf]
  | writeLog _ | writeHead _ | install _ | committed => []

/-- The processes in an operation. -/
def Machine.active (s : Machine) : Finset Proc := Finset.univ.filter fun p => s.inOp p = true

/-- The logged blocks that no operation under way has logged. -/
def Ops.earlier (s : Ops) : Finset Nat :=
  s.machine.log.blocks.toFinset \ s.machine.active.biUnion s.logged

/-- The invariant: `begin_op` has room for `MAXOPBLOCKS` blocks of each operation under
way, besides the blocks of those that have ended. -/
structure Budget (limit : Nat) (s : Ops) : Prop where
  outstanding : s.machine.log.outstanding = s.machine.active.card
  mine : ∀ p b, s.machine.Uses p b →
    s.machine.inOp p = true ∨ ∃ pc, s.machine.commit = some (p, pc)
  committer : ∀ p pc, s.machine.commit = some (p, pc) →
    ∀ b, s.machine.lock b = some p ∨ s.machine.doing p = .waiting b → b ∈ pc.bufs
  within : ∀ p, (s.logged p).card ≤ limit
  held : ∀ p, s.machine.inOp p = true → (s.machine.unpinned p).card ≤ 2
  space : s.earlier.card + maxOpBlocks * s.machine.log.outstanding ≤ logSize
  room : s.machine.log.outstanding = 0 → s.machine.log.n + 2 ≤ logSize

section Uses

variable {g : Geometry} {dev : UInt32} {s t : Machine} {p q : Proc} {b : BufPtr}

theorem exists_on {doing : Proc → Doing} (present : onCount doing b ≠ 0) :
    ∃ p, (doing p).on b ≠ 0 := by
  unfold onCount at present
  obtain ⟨p, _, on⟩ := Finset.exists_ne_zero_of_sum_ne_zero present
  exact ⟨p, on⟩

theorem users_ne_zero_iff : s.users b ≠ 0 ↔ ∃ p, s.Uses p b := by
  constructor
  · intro used
    cases owner : s.lock b with
    | some p => exact ⟨p, .inl owner⟩
    | none =>
      have noOwner : ownerCount none = 0 := rfl
      rw [Machine.users, owner, noOwner, Nat.add_zero] at used
      obtain ⟨p, on⟩ := exists_on used
      exact ⟨p, .inr on⟩
  · rintro ⟨p, locked | on⟩
    · exact users_of_lock locked
    · have moved := onCount_update s.doing p .running b
      rw [Doing.running_on] at moved
      unfold Machine.users
      omega

/-- What a section of `commit()` does to the references. -/
structure CommitEffect (s t : Machine) (p : Proc) (pc : Pc) : Prop where
  inOp : t.inOp = s.inOp
  outstanding : t.log.outstanding = s.log.outstanding
  blocks : t.log.blocks = s.log.blocks ∨ t.log.blocks = []
  lock : ∀ b q, t.lock b = some q → s.lock b = some q
  doing : ∀ q, q ≠ p → t.doing q = s.doing q
  next : (t.commit = none ∧ pc.bufs = [] ∧ t.doing p = s.doing p) ∨
    ∃ next, t.commit = some (p, next) ∧ ∀ b, b ∈ pc.bufs ∧ t.lock b = some p ∨
      t.doing p = .waiting b → b ∈ next.bufs

theorem commitGet_effect {block : Nat} {pc : Pc} {next : BufPtr → Pc}
    (got : s.commitGet dev p block next = some t)
    (bufs : ∀ b, b ∈ (next b).bufs ∧ ∀ a ∈ pc.bufs, a ∈ (next b).bufs) :
    CommitEffect s t p pc := by
  obtain ⟨⟨b, cache⟩, _, isT⟩ := Option.map_eq_some_iff.mp got
  subst isT
  refine ⟨rfl, rfl, .inl rfl, fun _ _ locked => locked,
    fun q other => update_of_ne other _ _, .inr ⟨next b, rfl, ?_⟩⟩
  rintro a (⟨member, _⟩ | waits)
  · exact (bufs b).2 a member
  · have same : (update s.doing p (.waiting b)) p = .waiting a := waits
    rw [update_self] at same
    injection same with isA
    rw [← isA]
    exact (bufs b).1

theorem goto_effect {pc next : Pc} (idle : s.doing p = .running) (inOp : t.inOp = s.inOp)
    (outstanding : t.log.outstanding = s.log.outstanding)
    (blocks : t.log.blocks = s.log.blocks ∨ t.log.blocks = [])
    (lock : t.lock = s.lock) (doing : t.doing = s.doing) (bufs : ∀ a ∈ pc.bufs, a ∈ next.bufs) :
    CommitEffect s (t.goto p next) p pc := by
  refine ⟨inOp, outstanding, blocks, ?_, ?_, .inr ⟨next, rfl, ?_⟩⟩
  · intro b q locked
    rw [← lock]
    exact locked
  · exact fun q _ => congrFun doing q
  · rintro a (⟨member, _⟩ | waits)
    · exact bufs a member
    · have same : t.doing p = .waiting a := waits
      rw [doing, idle] at same
      contradiction

theorem unlock_lock {a : BufPtr} (locked : (s.unlock p b).lock a = some q) :
    a ≠ b ∧ s.lock a = some q := by
  change update s.lock b none a = some q at locked
  grind

theorem unlock_effect {pc next : Pc} (bufs : ∀ a ∈ pc.bufs, a ≠ b → a ∈ next.bufs) :
    CommitEffect s ((s.unlock p b).goto p next) p pc := by
  refine ⟨rfl, rfl, .inl rfl, fun a q locked => (@unlock_lock s p q b a locked).2,
    fun q other => update_of_ne other _ _, .inr ⟨next, rfl, ?_⟩⟩
  rintro a (⟨member, locked⟩ | waits)
  · exact bufs a member (@unlock_lock s p p b a locked).1
  · have same : (update s.doing p (.releasing b)) p = .waiting a := waits
    rw [update_self] at same
    contradiction

theorem commitStep_effect {pc : Pc} (idle : s.doing p = .running)
    (advances : s.commitStep g dev p pc = some t) : CommitEffect s t p pc := by
  cases pc with
  | writeLog tail =>
    change (if tail < s.log.n then _ else _) = _ at advances
    split_ifs at advances
    · exact commitGet_effect advances fun b => ⟨List.mem_singleton_self b, by simp [Pc.bufs]⟩
    · cases advances
      exact goto_effect idle rfl rfl (.inl rfl) rfl rfl (by simp [Pc.bufs])
  | writeLogFrom tail dst =>
    exact commitGet_effect advances fun b => by simp [Pc.bufs]
  | writeLogCopy tail dst src | writeHeadPut erase buf | installCopy tail lbuf dbuf
  | installUnpin tail lbuf dbuf =>
    cases advances
    exact goto_effect idle rfl rfl (.inl rfl) rfl rfl (by simp [Pc.bufs])
  | writeLogFreeFrom tail dst src | writeLogFreeTo tail dst | writeHeadFree erase buf
  | installFreeFrom tail lbuf dbuf | installFreeTo tail dbuf =>
    cases advances
    exact unlock_effect (by simp [Pc.bufs])
  | writeHead erase | installTo tail lbuf =>
    exact commitGet_effect advances fun b => by simp [Pc.bufs]
  | install tail =>
    change (if tail < s.log.n then _ else _) = _ at advances
    split_ifs at advances
    · exact commitGet_effect advances fun b => ⟨List.mem_singleton_self b, by simp [Pc.bufs]⟩
    · cases advances
      exact goto_effect idle rfl rfl (.inr rfl) rfl rfl (by simp [Pc.bufs])
  | committed =>
    cases advances
    exact ⟨rfl, rfl, .inl rfl, fun _ _ locked => locked, fun _ _ => rfl, .inl ⟨rfl, rfl, rfl⟩⟩

theorem CacheStep.uses_identity {action : CacheAction} (step : CacheStep g dev s action t)
    (sound : s.Sound g dev) (uses : s.Uses p b) :
    (t.cache.buf b).blockno = (s.cache.buf b).blockno := by
  obtain ⟨order, ordered⟩ := sound.core.order
  refine (step.identity ordered fun unused => ?_).2
  exact users_ne_zero_iff.mpr ⟨p, uses⟩ (sound.core.unused unused).1

theorem unpinned_subset (uses : ∀ b, t.Uses p b → s.Uses p b)
    (identity : ∀ b, s.Uses p b → (t.cache.buf b).blockno = (s.cache.buf b).blockno)
    (blocks : ∀ block ∈ s.log.blocks, block ∈ t.log.blocks) : t.unpinned p ⊆ s.unpinned p := by
  intro b member
  obtain ⟨_, used, notLogged⟩ := Finset.mem_filter.mp member
  refine Finset.mem_filter.mpr ⟨Finset.mem_univ b, uses b used, fun logged => notLogged ?_⟩
  rw [identity b (uses b used)]
  exact blocks _ logged

theorem doing_update {d : Doing} {a : BufPtr} (on : (update s.doing p d q).on a ≠ 0) :
    (q = p ∧ d.on a ≠ 0) ∨ (s.doing q).on a ≠ 0 := by
  grind

theorem acquire_lock {a : BufPtr} (locked : (s.acquire p b).lock a = some q) :
    (q = p ∧ a = b) ∨ s.lock a = some q := by
  change update s.lock b (some p) a = some q at locked
  grind

theorem doing_waiting {d : Doing} {a : BufPtr} (notWaiting : ∀ a, d ≠ .waiting a)
    (waits : update s.doing p d q = .waiting a) : s.doing q = .waiting a := by
  grind

/-- `log_write` changes the log, and the pins and contents of buffers. -/
theorem logged_same (s : Machine) (b : BufPtr) (log : Log) :
    (s.logged b log).log = log ∧ (s.logged b log).inOp = s.inOp ∧
      (s.logged b log).commit = s.commit ∧ (s.logged b log).lock = s.lock ∧
      (s.logged b log).doing = s.doing := by
  unfold Machine.logged
  split_ifs
  · exact ⟨rfl, rfl, rfl, rfl, rfl⟩
  · exact ⟨rfl, rfl, rfl, rfl, rfl⟩

theorem mem_active : p ∈ s.active ↔ s.inOp p = true := by
  simp [Machine.active]

end Uses

/-! ### The invariant -/

section Budget

variable {g : Geometry} {dev : UInt32} {limit : Nat} {s t : Ops} {u : Machine}

theorem Ops.Start.budget (start : s.Start) : Budget limit s where
  outstanding := by
    have absent : s.machine.active = ∅ := Finset.filter_eq_empty_iff.mpr fun p _ => by
      rw [start.outside p]
      exact Bool.noConfusion
    rw [absent, start.idle.log]
    rfl
  mine := by
    intro p b uses
    rcases uses with locked | on
    · rw [start.idle.unlocked b] at locked
      contradiction
    · rw [start.idle.running p] at on
      contradiction
  committer := by
    intro p pc inside
    rw [start.idle.commit] at inside
    contradiction
  within := by
    intro p
    rw [start.unlogged p]
    exact Nat.zero_le _
  held := by
    intro p inside
    rw [start.outside p] at inside
    contradiction
  space := by
    have absent : s.earlier = ∅ := by
      rw [Ops.earlier, start.idle.log]
      exact Finset.empty_sdiff _
    rw [absent, start.idle.log]
    decide
  room := by
    intro _
    rw [start.idle.log]
    decide

/-- A step that takes no reference and leaves the log alone. -/
theorem Budget.frame (budget : Budget limit s) (inOp : u.inOp = s.machine.inOp)
    (log : u.log = s.machine.log) (commit : u.commit = s.machine.commit)
    (uses : ∀ p b, u.Uses p b → s.machine.Uses p b)
    (identity : ∀ p b, s.machine.Uses p b →
      (u.cache.buf b).blockno = (s.machine.cache.buf b).blockno)
    (locks : ∀ p b, u.lock b = some p ∨ u.doing p = .waiting b →
      s.machine.lock b = some p ∨ s.machine.doing p = .waiting b) :
    Budget limit ⟨u, s.logged⟩ where
  outstanding := by
    rw [log, Machine.active, inOp]
    exact budget.outstanding
  mine := by
    rw [inOp, commit]
    exact fun p b used => budget.mine p b (uses p b used)
  committer := by
    rw [commit]
    exact fun p pc inside b has => budget.committer p pc inside b (locks p b has)
  within := budget.within
  held := by
    rw [inOp]
    intro p inside
    refine Nat.le_trans (Finset.card_le_card ?_) (budget.held p inside)
    exact unpinned_subset (uses p) (identity p) (by rw [log]; exact fun _ member => member)
  space := by
    rw [Ops.earlier, Machine.active, inOp, log]
    exact budget.space
  room := by
    rw [log]
    exact budget.room

/-- `bget` of an operation. -/
theorem Budget.get (budget : Budget limit s) (sound : s.machine.Sound g dev) {p : Proc} {b : BufPtr}
    {block : UInt32} {cache : BCache} (outside : s.machine.Outside p)
    (idle : s.machine.doing p = .running) (got : bget s.machine.cache dev block = some (b, cache))
    (permitted : Permitted limit s (.get p block)) :
    Budget limit ⟨s.machine.get p b cache, s.logged⟩ := by
  obtain ⟨order, ordered⟩ := sound.core.order
  obtain ⟨_, _, number⟩ := bget_holds ordered got
  obtain ⟨inside, fits⟩ := permitted
  have identity : ∀ q a, s.machine.Uses q a →
      (cache.buf a).blockno = (s.machine.cache.buf a).blockno :=
    fun q a => (@CacheStep.get g dev _ p block b cache outside idle got).uses_identity sound
  have uses : ∀ q a, (s.machine.get p b cache).Uses q a → s.machine.Uses q a ∨ (q = p ∧ a = b) := by
    rintro q a (locked | on)
    · exact .inl (.inl locked)
    · rcases doing_update on with ⟨same, isB⟩ | before
      · rw [Doing.waiting_on] at isB
        by_cases isA : b = a
        · exact .inr ⟨same, isA.symm⟩
        · rw [if_neg isA] at isB
          contradiction
      · exact .inl (.inr before)
  refine ⟨budget.outstanding, ?_, ?_, budget.within, ?_, budget.space, budget.room⟩
  · intro q a used
    rcases uses q a used with before | ⟨rfl, _⟩
    · exact budget.mine q a before
    · exact .inl inside
  · intro q pc committing a has
    have different : q ≠ p := outside.ne committing
    refine budget.committer q pc committing a ?_
    rcases has with locked | waits
    · exact .inl locked
    · change update s.machine.doing p (.waiting b) q = _ at waits
      rw [update_of_ne different] at waits
      exact .inr waits
  · intro q active
    have others : ∀ a ∈ (s.machine.get p b cache).unpinned q,
        a ∈ s.machine.unpinned q ∨ (q = p ∧ a = b ∧ block.toNat ∉ s.machine.log.blocks) := by
      intro a member
      obtain ⟨_, used, notLogged⟩ := Finset.mem_filter.mp member
      change (cache.buf a).blockno.toNat ∉ s.machine.log.blocks at notLogged
      rcases uses q a used with before | ⟨isP, rfl⟩
      · rw [identity q a before] at notLogged
        exact .inl (Finset.mem_filter.mpr ⟨Finset.mem_univ a, before, notLogged⟩)
      · rw [number] at notLogged
        exact .inr ⟨isP, rfl, notLogged⟩
    by_cases new : q = p ∧ block.toNat ∉ s.machine.log.blocks
    · have few : (s.machine.unpinned q).card < 2 := by
        rw [new.1]
        exact fits.resolve_left new.2
      have subset : (s.machine.get p b cache).unpinned q ⊆ insert b (s.machine.unpinned q) := by
        intro a member
        rcases others a member with before | ⟨_, isB, _⟩
        · exact Finset.mem_insert_of_mem before
        · exact isB ▸ Finset.mem_insert_self _ _
      have most := Finset.card_le_card subset
      have one := Finset.card_insert_le b (s.machine.unpinned q)
      change ((s.machine.get p b cache).unpinned q).card ≤ 2
      omega
    · refine Nat.le_trans (Finset.card_le_card fun a member => ?_) (budget.held q active)
      rcases others a member with before | ⟨isP, _, notLogged⟩
      · exact before
      · exact absurd ⟨isP, notLogged⟩ new

/-- `begin_op` -/
theorem Budget.beginOp (budget : Budget limit s) {p : Proc} {log : Log}
    (outside : s.machine.Outside p) (notYet : s.machine.inOp p = false)
    (admitted : Log.beginOp s.machine.log = some log) :
    Budget limit ⟨{ s.machine with log := log, inOp := update s.machine.inOp p true },
      update s.logged p ∅⟩ := by
  obtain ⟨_, fits, rfl⟩ := Log.beginOp_some admitted
  have absent : ∀ b, ¬ s.machine.Uses p b := by
    intro b uses
    rcases budget.mine p b uses with inside | ⟨pc, inside⟩
    · rw [notYet] at inside
      contradiction
    · exact outside pc inside
  have active (m : Machine) (inOp : m.inOp = update s.machine.inOp p true) :
      m.active = insert p s.machine.active := by
    ext q
    rw [Finset.mem_insert, mem_active, mem_active, inOp]
    grind
  have notActive : p ∉ s.machine.active := by
    rw [mem_active, notYet]
    exact Bool.noConfusion
  refine ⟨?_, ?_, budget.committer, ?_, ?_, ?_, ?_⟩
  · rw [active _ rfl, Finset.card_insert_of_notMem notActive, ← budget.outstanding]
  · intro q b uses
    refine (budget.mine q b uses).imp_left fun inside => ?_
    change update s.machine.inOp p true q = true
    grind
  · exact (Function.forall_update_iff s.logged fun _ logged => logged.card ≤ limit).mpr
      ⟨Nat.zero_le _, fun q _ => budget.within q⟩
  · have empty : s.machine.unpinned p = ∅ :=
      Finset.filter_eq_empty_iff.mpr fun b _ both => absent b both.1
    refine (Function.forall_update_iff s.machine.inOp fun q inside =>
      inside = true → (s.machine.unpinned q).card ≤ 2).mpr ⟨fun _ => ?_, fun q _ => budget.held q⟩
    rw [empty]
    exact Nat.zero_le _
  · rw [Nat.mul_comm]
    refine Nat.le_trans (Nat.add_le_add_right ?_ _) fits
    exact Nat.le_trans (Finset.card_le_card Finset.sdiff_subset) (List.toFinset_card_le _)
  · intro zero
    exact absurd zero (Nat.succ_ne_zero _)

/-- `log_write` -/
theorem Budget.logWrite (budget : Budget limit s) (sound : s.machine.Sound g dev) {p : Proc}
    {b : BufPtr} {log : Log} (outside : s.machine.Outside p) (locked : s.machine.lock b = some p)
    (idle : s.machine.doing p = .running) (valid : (s.machine.cache.buf b).valid = true)
    (written : Log.logWrite g s.machine.log (s.machine.cache.buf b).blockno.toNat = .ok log)
    (permitted : Permitted limit s (.logWrite p b)) :
    Budget limit ⟨s.machine.logged b log, s.note (.logWrite p b)⟩ := by
  have step : CacheStep g dev s.machine (.logWrite p b) (s.machine.logged b log) :=
    .logWrite outside locked idle valid written
  have positive := logWrite_outstanding written
  obtain ⟨_, isLog⟩ := Log.logWrite_ok written
  have active : p ∈ s.machine.active := by
    refine mem_active.mpr ((budget.mine p b (.inl locked)).resolve_right ?_)
    rintro ⟨pc, inside⟩
    exact outside pc inside
  obtain ⟨sameLog, sameOps, sameCommit, sameLock, sameDoing⟩ := logged_same s.machine b log
  have blocks : ∀ block, block ∈ log.blocks ↔
      block ∈ s.machine.log.blocks ∨ block = (s.machine.cache.buf b).blockno.toNat := by
    intro block
    rw [isLog]
    exact mem_absorb
  have count : log.outstanding = s.machine.log.outstanding := by rw [isLog]
  have uses : ∀ q a, (s.machine.logged b log).Uses q a ↔ s.machine.Uses q a := by
    intro q a
    unfold Machine.Uses
    rw [sameLock, sameDoing]
  refine ⟨?_, ?_, ?_, ?_, ?_, ?_, ?_⟩
  · rw [sameLog, count, Machine.active, sameOps]
    exact budget.outstanding
  · intro q a used
    rw [sameOps, sameCommit]
    exact budget.mine q a ((uses q a).mp used)
  · rw [sameCommit, sameLock, sameDoing]
    exact budget.committer
  · exact (Function.forall_update_iff s.logged fun _ logged => logged.card ≤ limit).mpr
      ⟨permitted, fun q _ => budget.within q⟩
  · intro q inside
    rw [sameOps] at inside
    refine Nat.le_trans (Finset.card_le_card ?_) (budget.held q inside)
    refine unpinned_subset (fun a => (uses q a).mp) (fun a => step.uses_identity sound) ?_
    rw [sameLog]
    exact fun block member => (blocks block).mpr (.inl member)
  · rw [sameLog, count]
    refine Nat.le_trans (Nat.add_le_add_right (Finset.card_le_card fun block member => ?_) _)
      budget.space
    -- a block that is new to the log belongs to `p`
    rw [Ops.earlier, Machine.active, sameOps, sameLog, Finset.mem_sdiff, List.mem_toFinset,
      Finset.mem_biUnion] at member
    obtain ⟨inLog, noOne⟩ := member
    have notNew : block ≠ (s.machine.cache.buf b).blockno.toNat := by
      intro isNew
      refine noOne ⟨p, active, ?_⟩
      change block ∈ update s.logged p _ p
      rw [update_self, isNew]
      exact Finset.mem_insert_self _ _
    rw [Ops.earlier, Finset.mem_sdiff, List.mem_toFinset, Finset.mem_biUnion]
    refine ⟨((blocks block).mp inLog).resolve_right notNew, ?_⟩
    rintro ⟨q, isActive, member⟩
    refine noOne ⟨q, isActive, ?_⟩
    change block ∈ update s.logged p _ q
    grind
  · rw [sameLog, count]
    exact fun zero => absurd zero (Nat.ne_of_gt positive)

/-- `end_op`: what the operation has logged stays, within what it had reserved. -/
theorem Budget.endOp (budget : Budget limit s) (sound : s.machine.Sound g dev)
    (small : limit + 2 ≤ maxOpBlocks) {p : Proc} {log : Log} (idle : s.machine.doing p = .running)
    (inside : s.machine.inOp p = true) (ended : Log.endOp s.machine.log = .ok log)
    (permitted : Permitted limit s (.endOp p)) :
    Budget limit ⟨{ s.machine with
      log := log
      inOp := update s.machine.inOp p false
      commit := if log.committing then some (p, if 0 < log.n then .writeLog 0 else .committed)
        else s.machine.commit }, s.logged⟩ := by
  obtain ⟨notYet, isLog⟩ := Log.endOp_ok ended
  have noCommit := sound.idle_of_committing notYet
  have absent : ∀ b, ¬ s.machine.Uses p b := by
    rintro b (locked | on)
    · exact permitted b locked
    · rw [idle] at on
      exact on rfl
  have isActive : p ∈ s.machine.active := mem_active.mpr inside
  have active (m : Machine) (inOp : m.inOp = update s.machine.inOp p false) :
      m.active = s.machine.active.erase p := by
    ext q
    rw [Finset.mem_erase, mem_active, mem_active, inOp]
    grind
  have count : log.outstanding = s.machine.log.outstanding - 1 := by rw [isLog]
  have blocks : log.blocks = s.machine.log.blocks := by rw [isLog]
  have positive : 0 < s.machine.active.card := Finset.card_pos.mpr ⟨p, isActive⟩
  have outstanding := budget.outstanding
  have space := budget.space
  have within := budget.within p
  have earlier : (log.blocks.toFinset \ (s.machine.active.erase p).biUnion s.logged).card ≤
      s.earlier.card + (s.logged p).card := by
    refine Nat.le_trans (Finset.card_le_card fun block member => ?_) (Finset.card_union_le _ _)
    rw [Finset.mem_sdiff, List.mem_toFinset, Finset.mem_biUnion] at member
    obtain ⟨inLog, noOne⟩ := member
    rw [Finset.mem_union, Ops.earlier, Finset.mem_sdiff, List.mem_toFinset, Finset.mem_biUnion]
    by_cases own : block ∈ s.logged p
    · exact .inr own
    · refine .inl ⟨blocks ▸ inLog, ?_⟩
      rintro ⟨q, qActive, logged⟩
      have different : q ≠ p := fun same => own (same ▸ logged)
      exact noOne ⟨q, Finset.mem_erase.mpr ⟨different, qActive⟩, logged⟩
  refine ⟨?_, ?_, ?_, budget.within, ?_, ?_, ?_⟩
  · rw [active _ rfl, Finset.card_erase_of_mem isActive, ← outstanding]
    exact count
  · intro q b uses
    have different : q ≠ p := fun same => absent b (same ▸ uses)
    rcases budget.mine q b uses with active | ⟨pc, committing⟩
    · exact .inl ((update_of_ne different ..).trans active)
    · rw [noCommit] at committing
      contradiction
  · intro q pc committing b has
    change (if log.committing then _ else _) = _ at committing
    by_cases last : log.committing = true
    · rw [if_pos last, Option.some.injEq, Prod.mk.injEq] at committing
      obtain ⟨rfl, _⟩ := committing
      rcases has with locked | waits
      · exact absurd locked (permitted b)
      · rw [idle] at waits
        contradiction
    · rw [if_neg last, noCommit] at committing
      contradiction
  · intro q active
    change update s.machine.inOp p false q = true at active
    by_cases same : q = p
    · rw [same, update_self] at active
      contradiction
    · rw [update_of_ne same] at active
      refine Nat.le_trans (Finset.card_le_card fun b member => ?_) (budget.held q active)
      obtain ⟨_, used, notLogged⟩ := Finset.mem_filter.mp member
      exact Finset.mem_filter.mpr ⟨Finset.mem_univ b, used,
        fun logged => notLogged (blocks ▸ logged)⟩
  · rw [Ops.earlier, active _ rfl]
    change (log.blocks.toFinset \ (s.machine.active.erase p).biUnion s.logged).card +
      maxOpBlocks * log.outstanding ≤ logSize
    rw [count]
    have step : maxOpBlocks * s.machine.log.outstanding =
        maxOpBlocks * (s.machine.log.outstanding - 1) + maxOpBlocks := by
      rw [← Nat.mul_succ]
      congr 1
      omega
    omega
  · intro zero
    change log.outstanding = 0 at zero
    change log.n + 2 ≤ logSize
    have one : s.machine.log.outstanding = 1 := by omega
    have last : s.machine.active.erase p = ∅ := by
      rw [← Finset.card_eq_zero, Finset.card_erase_of_mem isActive, ← outstanding, one]
    have nodup : log.blocks.Nodup := blocks ▸ sound.nodup
    rw [last, Finset.biUnion_empty, Finset.sdiff_empty,
      List.toFinset_card_of_nodup nodup] at earlier
    change log.n ≤ _ at earlier
    rw [one] at space
    omega

/-- A section of `commit()`. -/
theorem Budget.commit (budget : Budget limit s) (sound : s.machine.Sound g dev) {p : Proc} {pc : Pc}
    (inside : s.machine.commit = some (p, pc)) (idle : s.machine.doing p = .running)
    (effect : CommitEffect s.machine u p pc) : Budget limit ⟨u, s.logged⟩ := by
  have zero := (sound.busy p pc inside).1
  have noneActive : s.machine.active = ∅ := by
    rw [← Finset.card_eq_zero, ← budget.outstanding]
    exact zero
  have active : u.active = ∅ := by
    rw [Machine.active, effect.inOp]
    exact noneActive
  have few : u.log.n ≤ s.machine.log.n := by
    rcases effect.blocks with same | absent
    · exact Nat.le_of_eq (congrArg List.length same)
    · exact Nat.le_trans (Nat.le_of_eq (congrArg List.length absent)) (Nat.zero_le _)
  have room := budget.room zero
  refine ⟨?_, ?_, ?_, budget.within, ?_, ?_,
    fun _ => Nat.le_trans (Nat.add_le_add_right few 2) room⟩
  · rw [active, effect.outstanding, zero]
    rfl
  · intro q b uses
    by_cases same : q = p
    · subst same
      rcases effect.next with ⟨noCommit, noBufs, doing⟩ | ⟨next, committing, _⟩
      · rcases uses with locked | on
        · have member := budget.committer q pc inside b (.inl (effect.lock b q locked))
          rw [noBufs] at member
          exact absurd member List.not_mem_nil
        · rw [doing, idle] at on
          exact absurd rfl on
      · exact .inr ⟨next, committing⟩
    · have before : s.machine.Uses q b := by
        rcases uses with locked | on
        · exact .inl (effect.lock b q locked)
        · rw [effect.doing q same] at on
          exact .inr on
      rcases budget.mine q b before with isActive | ⟨pc', committing⟩
      · rw [← mem_active, noneActive] at isActive
        exact absurd isActive (Finset.notMem_empty q)
      · rw [inside, Option.some.injEq, Prod.mk.injEq] at committing
        exact absurd committing.1.symm same
  · intro q pc' committing b has
    rcases effect.next with ⟨noCommit, _⟩ | ⟨next, isNext, bufs⟩
    · rw [noCommit] at committing
      contradiction
    · rw [isNext, Option.some.injEq, Prod.mk.injEq] at committing
      obtain ⟨rfl, rfl⟩ := committing
      refine bufs b (has.imp_left fun locked => ⟨?_, locked⟩)
      exact budget.committer p pc inside b (.inl (effect.lock b p locked))
  · intro q isActive
    rw [← mem_active, active] at isActive
    exact absurd isActive (Finset.notMem_empty q)
  · have most : (Ops.earlier ⟨u, s.logged⟩).card ≤ u.log.n :=
      Nat.le_trans (Finset.card_le_card Finset.sdiff_subset) (List.toFinset_card_le _)
    change _ + maxOpBlocks * u.log.outstanding ≤ logSize
    rw [effect.outstanding, zero, Nat.mul_zero]
    omega

theorem Budget.step (budget : Budget limit s) (sound : s.machine.Sound g dev)
    (small : limit + 2 ≤ maxOpBlocks) {action : CacheAction}
    (step : OpStep g dev limit s action t) :
    Budget limit t := by
  obtain ⟨machine, logged⟩ := t
  obtain ⟨permitted, step, rfl⟩ := step
  have identity : ∀ p b, s.machine.Uses p b →
      (machine.cache.buf b).blockno = (s.machine.cache.buf b).blockno :=
    fun p b => step.uses_identity sound
  cases step with
  | get outside idle got => exact budget.get sound outside idle got permitted
  | @acquire p b waits free =>
    refine budget.frame rfl rfl rfl ?_ identity ?_
    · rintro q a (locked | on)
      · rcases acquire_lock locked with ⟨rfl, rfl⟩ | before
        · exact .inr (by simp [waits])
        · exact .inl before
      · rcases doing_update on with ⟨_, absurd⟩ | before
        · exact False.elim (absurd rfl)
        · exact .inr before
    · rintro q a (locked | waiting)
      · rcases acquire_lock locked with ⟨rfl, rfl⟩ | before
        · exact .inr waits
        · exact .inl before
      · exact .inr (doing_waiting (fun _ => Doing.noConfusion) waiting)
  | fill locked idle invalid | store outside locked idle valid =>
    exact budget.frame rfl rfl rfl (fun _ _ uses => uses) identity fun _ _ has => has
  | @unlock p b outside locked idle valid =>
    refine budget.frame rfl rfl rfl ?_ identity ?_
    · rintro q a (still | on)
      · exact .inl (unlock_lock still).2
      · rcases doing_update on with ⟨rfl, isB⟩ | before
        · rw [Doing.releasing_on] at isB
          by_cases same : b = a
          · exact .inl (same ▸ locked)
          · rw [if_neg same] at isB
            contradiction
        · exact .inr before
    · rintro q a (still | waiting)
      · exact .inl (unlock_lock still).2
      · exact .inr (doing_waiting (fun _ => Doing.noConfusion) waiting)
  | @release p b releases =>
    refine budget.frame rfl rfl rfl ?_ identity ?_
    · rintro q a (locked | on)
      · exact .inl locked
      · rcases doing_update on with ⟨_, absurd⟩ | before
        · exact False.elim (absurd rfl)
        · exact .inr before
    · rintro q a (locked | waiting)
      · exact .inl locked
      · exact .inr (doing_waiting (fun _ => Doing.noConfusion) waiting)
  | beginOp outside idle notYet admitted => exact budget.beginOp outside notYet admitted
  | logWrite outside locked idle valid written =>
    exact budget.logWrite sound outside locked idle valid written permitted
  | endOp outside idle inside ended => exact budget.endOp sound small idle inside ended permitted
  | commit inside idle valid advances =>
    exact budget.commit sound inside idle (commitStep_effect idle advances)

end Budget

/-! ### The buffers in use -/

/-- The buffers with a reference. -/
def inUse (c : BCache) : Finset BufPtr :=
  Finset.univ.filter fun b => b ≠ head ∧ (c.buf b).refcnt ≠ 0

/-- The buffers that hold one of the blocks. -/
def holding (dev : UInt32) (c : BCache) (todo : List Nat) : Finset BufPtr :=
  Finset.univ.filter fun b => HoldsOne dev c todo b

section InUse

variable {g : Geometry} {dev : UInt32} {limit : Nat} {s : Ops} {c : BCache} {todo : List Nat}

/-- With fewer in use than there are, `bget` finds a buffer. -/
theorem bget_of_few {order : List BufPtr} (ordered : Ordered c order)
    (few : (inUse c).card < nBuf) (block : UInt32) : bget c dev block ≠ none := by
  have all : (Finset.univ.erase head : Finset BufPtr).card = nBuf := by
    rw [Finset.card_erase_of_mem (Finset.mem_univ _), Finset.card_univ, Fintype.card_fin]
    rfl
  obtain ⟨b, isBuf, notUsed⟩ := Finset.exists_mem_notMem_of_card_lt_card (all.symm ▸ few)
  have notHead : b ≠ head := Finset.ne_of_mem_erase isBuf
  have unused : (c.buf b).refcnt = 0 := by
    by_contra used
    exact notUsed (Finset.mem_filter.mpr ⟨Finset.mem_univ b, notHead, used⟩)
  obtain ⟨found, cache, got⟩ := bget_of_unused ordered notHead unused dev block
  rw [got]
  exact Option.some_ne_none _

/-- No two buffers hold the same block. -/
theorem card_holding (unique : Unique c) (device : dev ≠ 0) :
    (holding dev c todo).card ≤ todo.toFinset.card := by
  refine Finset.card_le_card_of_injOn (fun b => (c.buf b).blockno.toNat) ?_ ?_
  · intro b member
    exact List.mem_toFinset.mpr (Finset.mem_filter.mp member).2.2.2
  · intro a aMember b bMember same
    obtain ⟨_, aBuf, aDev, _⟩ := Finset.mem_filter.mp aMember
    obtain ⟨_, bBuf, bDev, _⟩ := Finset.mem_filter.mp bMember
    refine unique a b aBuf bBuf ?_ ?_ (UInt32.toNat_inj.mp same)
    · rw [aDev]
      exact device
    · rw [aDev, bDev]

/-- A buffer in use is pinned or some process uses it. -/
theorem Core.inUse {m : Machine} (core : Core dev m todo) {b : BufPtr}
    (used : b ∈ inUse m.cache) : b ∈ holding dev m.cache todo ∨ ∃ p, m.Uses p b := by
  obtain ⟨_, _, count⟩ := Finset.mem_filter.mp used
  by_cases pinned : HoldsOne dev m.cache todo b
  · exact .inl (Finset.mem_filter.mpr ⟨Finset.mem_univ b, pinned⟩)
  · refine .inr (users_ne_zero_iff.mp fun absent => count ?_)
    rw [core.counted b, absent, pinCount, if_neg pinned]
    rfl

theorem Budget.inUse_card (budget : Budget limit s) (sound : s.machine.Sound g dev)
    (device : dev ≠ 0) (noCommit : s.machine.commit = none) :
    (inUse s.machine.cache).card ≤ s.earlier.card +
      ∑ p ∈ s.machine.active, ((s.logged p).card + (s.machine.unpinned p).card) := by
  have core := sound.core
  rw [pending_idle noCommit] at core
  have parts : inUse s.machine.cache ⊆ holding dev s.machine.cache s.machine.log.blocks ∪
      s.machine.active.biUnion s.machine.unpinned := by
    intro b used
    rw [Finset.mem_union, Finset.mem_biUnion]
    rcases core.inUse used with pinned | ⟨p, uses⟩
    · exact .inl pinned
    by_cases logged : (s.machine.cache.buf b).blockno.toNat ∈ s.machine.log.blocks
    · have isBuf := (Finset.mem_filter.mp used).2.1
      have isDev := core.device b (users_ne_zero_iff.mpr ⟨p, uses⟩)
      exact .inl (Finset.mem_filter.mpr ⟨Finset.mem_univ b, isBuf, isDev, logged⟩)
    · refine .inr ⟨p, mem_active.mpr ?_, Finset.mem_filter.mpr ⟨Finset.mem_univ b, uses, logged⟩⟩
      refine (budget.mine p b uses).resolve_right ?_
      rintro ⟨pc, inside⟩
      rw [noCommit] at inside
      contradiction
  have blocks : s.machine.log.blocks.toFinset ⊆ s.earlier ∪ s.machine.active.biUnion s.logged := by
    rw [Ops.earlier, Finset.sdiff_union_self_eq_union]
    exact Finset.subset_union_left
  calc (inUse s.machine.cache).card
      ≤ (holding dev s.machine.cache s.machine.log.blocks).card +
          (s.machine.active.biUnion s.machine.unpinned).card :=
        Nat.le_trans (Finset.card_le_card parts) (Finset.card_union_le _ _)
    _ ≤ (s.earlier.card + (s.machine.active.biUnion s.logged).card) +
          (s.machine.active.biUnion s.machine.unpinned).card :=
        Nat.add_le_add_right (Nat.le_trans (card_holding core.unique device)
          (Nat.le_trans (Finset.card_le_card blocks) (Finset.card_union_le _ _))) _
    _ ≤ (s.earlier.card + ∑ p ∈ s.machine.active, (s.logged p).card) +
          ∑ p ∈ s.machine.active, (s.machine.unpinned p).card :=
        Nat.add_le_add (Nat.add_le_add_left Finset.card_biUnion_le _) Finset.card_biUnion_le
    _ = s.earlier.card +
          ∑ p ∈ s.machine.active, ((s.logged p).card + (s.machine.unpinned p).card) := by
        rw [Finset.sum_add_distrib, Nat.add_assoc]

theorem Core.bget_ne_none {m : Machine} (core : Core dev m todo) {block : UInt32}
    (member : block.toNat ∈ todo) : bget m.cache dev block ≠ none := by
  obtain ⟨order, ordered⟩ := core.order
  obtain ⟨b, buffered⟩ := core.logged _ member
  have number : (m.cache.buf b).blockno = block := UInt32.toNat_inj.mp buffered.number
  have holds : m.cache.holds dev block b = true := by
    rw [BCache.holds, buffered.device, number]
    simp
  obtain ⟨found, _, _, got⟩ := bget_of_holds ordered buffered.isBuf holds
  rw [got]
  exact Option.some_ne_none _

theorem Budget.get_ne_none (budget : Budget limit s) (sound : s.machine.Sound g dev)
    (device : dev ≠ 0) (small : limit + 2 ≤ maxOpBlocks) {p : Proc} {block : UInt32}
    (permitted : Permitted limit s (.get p block)) : bget s.machine.cache dev block ≠ none := by
  obtain ⟨inside, fits⟩ := permitted
  have isActive : p ∈ s.machine.active := mem_active.mpr inside
  have positive : 0 < s.machine.log.outstanding := by
    rw [budget.outstanding]
    exact Finset.card_pos.mpr ⟨p, isActive⟩
  have noCommit := sound.idle_of_outstanding positive
  have core := sound.core
  rw [pending_idle noCommit] at core
  rcases fits with logged | few
  · exact core.bget_ne_none logged
  obtain ⟨order, ordered⟩ := core.order
  refine bget_of_few ordered ?_ block
  have count := budget.inUse_card sound device noCommit
  have space := budget.space
  -- the operation itself has a buffer left of the `MAXOPBLOCKS` it may use
  rw [← Finset.add_sum_erase _ _ isActive] at count
  have others : ∑ q ∈ s.machine.active.erase p,
      ((s.logged q).card + (s.machine.unpinned q).card) ≤
      (s.machine.active.erase p).card * maxOpBlocks := by
    refine Finset.sum_le_card_nsmul _ _ _ fun q member => ?_
    have within := budget.within q
    have held := budget.held q (mem_active.mp (Finset.mem_of_mem_erase member))
    omega
  have within := budget.within p
  rw [Finset.card_erase_of_mem isActive, ← budget.outstanding] at others
  have step : maxOpBlocks * s.machine.log.outstanding =
      (s.machine.log.outstanding - 1) * maxOpBlocks + maxOpBlocks := by
    rw [← Nat.succ_mul, Nat.mul_comm]
    congr 1
    omega
  have same : logSize = nBuf := rfl
  omega

theorem Budget.commitStep_ne_none (budget : Budget limit s) (sound : s.machine.Sound g dev)
    (device : dev ≠ 0) {p : Proc} {pc : Pc} (inside : s.machine.commit = some (p, pc))
    (idle : s.machine.doing p = .running) : s.machine.commitStep g dev p pc ≠ none := by
  obtain ⟨zero, _, facts⟩ := sound.busy p pc inside
  have core := sound.core
  rw [pending_at inside] at core
  have room := budget.room zero
  obtain ⟨order, ordered⟩ := core.order
  have noneActive : s.machine.active = ∅ := by
    rw [← Finset.card_eq_zero, ← budget.outstanding]
    exact zero
  -- where it holds nothing, only pinned buffers are in use
  have free : pc.bufs = [] → ∀ block next, s.machine.commitGet dev p block next ≠ none := by
    intro noBufs block next
    have few : (inUse s.machine.cache).card < nBuf := by
      have parts : inUse s.machine.cache ⊆
          holding dev s.machine.cache (s.machine.log.blocks.drop pc.installed) := by
        intro b used
        refine (core.inUse used).resolve_right ?_
        rintro ⟨q, uses⟩
        rcases budget.mine q b uses with isActive | ⟨pc', committing⟩
        · rw [← mem_active, noneActive] at isActive
          exact absurd isActive (Finset.notMem_empty q)
        · rw [inside, Option.some.injEq, Prod.mk.injEq] at committing
          obtain ⟨rfl, _⟩ := committing
          rcases uses with locked | on
          · have member := budget.committer p pc inside b (.inl locked)
            rw [noBufs] at member
            exact absurd member List.not_mem_nil
          · rw [idle] at on
            exact on rfl
      have most := Nat.le_trans (Finset.card_le_card parts) (card_holding core.unique device)
      have length := List.toFinset_card_le (s.machine.log.blocks.drop pc.installed)
      rw [List.length_drop] at length
      change s.machine.log.blocks.length + 2 ≤ nBuf at room
      omega
    intro absent
    exact bget_of_few ordered few _ (Option.map_eq_none_iff.mp absent)
  have cached : ∀ tail next, tail < s.machine.log.n → pc.installed ≤ tail →
      s.machine.commitGet dev p (s.machine.log.blocks.getD tail 0) next ≠ none := by
    intro tail next inList later absent
    have inBlocks : tail < s.machine.log.blocks.length := inList
    have entry : s.machine.log.blocks.getD tail 0 = s.machine.log.blocks[tail] := by
      rw [List.getD_eq_getElem?_getD, List.getElem?_eq_getElem inBlocks, Option.getD_some]
    refine core.bget_ne_none ?_ (Option.map_eq_none_iff.mp absent)
    have word := sound.words _ (List.getElem_mem inBlocks)
    rw [entry, UInt32.toNat_ofNat_of_lt' word]
    refine List.mem_iff_getElem.mpr ⟨tail - pc.installed, by rw [List.length_drop]; omega, ?_⟩
    rw [List.getElem_drop]
    congr 1
    omega
  cases pc with
  | writeLog tail | install tail =>
    change (if tail < s.machine.log.n then _ else _) ≠ _
    split_ifs
    · exact free rfl _ _
    · exact Option.some_ne_none _
  | writeLogFrom tail dst => exact cached tail _ facts.1 (Nat.zero_le tail)
  | writeHead erase => exact free rfl _ _
  | installTo tail lbuf => exact cached tail _ facts.1 (Nat.le_refl tail)
  | _ => exact Option.some_ne_none _

/-- Operations of at most `MAXOPBLOCKS - 2` blocks never run out of buffers. -/
theorem not_noBuffers (device : dev ≠ 0) (small : limit + 2 ≤ maxOpBlocks)
    {steps : List (Ops × CacheAction)} (run : Run Ops.Start (OpStep g dev limit) steps s) :
    ¬ NoBuffers g dev limit s := by
  have inv : s.machine.Sound g dev ∧ Budget limit s := by
    refine run.invariant (fun s => s.machine.Sound g dev ∧ Budget limit s) ?_ ?_
    · exact fun s start => ⟨start.idle.sound, start.budget⟩
    · exact fun s action t before step => ⟨before.1.step device step.2.1,
        before.2.step before.1 small step⟩
  rintro (⟨_, _, permitted, absent⟩ | ⟨inside, idle, absent⟩)
  · exact inv.2.get_ne_none inv.1 device small permitted absent
  · exact inv.2.commitStep_ne_none inv.1 device inside idle absent

end InUse

end Xv6.Kernel.Log
