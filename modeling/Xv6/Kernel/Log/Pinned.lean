import Xv6.Kernel.Log.Cached

/-!
Logged buffers stay pinned.

Owns: the count of references behind each buffer's `refcnt`, the invariant that
ties the pins to the entries still to be installed, and its preservation by each
section of the cache and the log.

Does not own: what the log's blocks on disk are worth after a crash.
-/

namespace Xv6.Kernel.Log

open Xv6.Lib Xv6.Kernel.Bio
open Function (comp_update update update_of_ne update_self)

/-- Whether a process has a reference besides the locks it holds. -/
def Doing.on (d : Doing) (b : BufPtr) : Nat := if d = .waiting b ∨ d = .releasing b then 1 else 0

@[simp] theorem Doing.running_on (b : BufPtr) : Doing.running.on b = 0 := rfl

@[simp] theorem Doing.waiting_on (a b : BufPtr) :
    (Doing.waiting a).on b = if a = b then 1 else 0 := by
  simp [Doing.on]

@[simp] theorem Doing.releasing_on (a b : BufPtr) :
    (Doing.releasing a).on b = if a = b then 1 else 0 := by
  simp [Doing.on]

/-- The processes waiting for a buffer or about to give up their reference. -/
@[irreducible] def onCount (doing : Proc → Doing) (b : BufPtr) : Nat := ∑ p, (doing p).on b

/-- The reference of the process that has the sleep-lock. -/
def ownerCount : Option Proc → Nat
  | none => 0
  | some _ => 1

/-- The references processes have to a buffer. -/
def Machine.users (s : Machine) (b : BufPtr) : Nat := onCount s.doing b + ownerCount (s.lock b)

/-- Whether a buffer holds one of the blocks. -/
def HoldsOne (dev : UInt32) (c : BCache) (todo : List Nat) (b : BufPtr) : Prop :=
  b ≠ head ∧ (c.buf b).dev = dev ∧ (c.buf b).blockno.toNat ∈ todo

instance (dev : UInt32) (c : BCache) (todo : List Nat) (b : BufPtr) :
    Decidable (HoldsOne dev c todo b) := inferInstanceAs (Decidable (_ ∧ _ ∧ _))

/-- The pins the log has on a buffer. -/
def pinCount (dev : UInt32) (c : BCache) (todo : List Nat) (b : BufPtr) : Nat :=
  if HoldsOne dev c todo b then 1 else 0

/-- The buffer of a logged block, with the data last stored in it. -/
structure Buffered (dev : UInt32) (s : Machine) (block : Nat) (b : BufPtr) : Prop where
  isBuf : b ≠ head
  device : (s.cache.buf b).dev = dev
  number : (s.cache.buf b).blockno.toNat = block
  valid : (s.cache.buf b).valid = true
  data : (s.cache.buf b).data = s.modified block

/-- The cache while the blocks `todo` are logged and not yet installed. -/
structure Core (dev : UInt32) (s : Machine) (todo : List Nat) : Prop where
  order : ∃ order, Ordered s.cache order
  unique : Unique s.cache
  onBuf : ∀ p b, (s.doing p).on b ≠ 0 → b ≠ head
  lockBuf : ∀ b, s.lock b ≠ none → b ≠ head
  device : ∀ b, s.users b ≠ 0 → (s.cache.buf b).dev = dev
  counted : ∀ b, (s.cache.buf b).refcnt = UInt32.ofNat (s.users b + pinCount dev s.cache todo b)
  pins : ∀ b, s.taken b = s.dropped b + pinCount dev s.cache todo b
  logged : ∀ block ∈ todo, ∃ b, Buffered dev s block b

section Counting

variable {dev : UInt32} {s : Machine} {todo : List Nat} {p : Proc} {b : BufPtr}

/-- One process does something else. -/
theorem onCount_update (doing : Proc → Doing) (p : Proc) (d : Doing) (b : BufPtr) :
    onCount (update doing p d) b + (doing p).on b = onCount doing b + d.on b := by
  have composed : (fun q => (update doing p d q).on b) =
      update (fun q => (doing q).on b) p (d.on b) :=
    comp_update (fun d : Doing => d.on b) doing p d
  have whole := Finset.add_sum_erase Finset.univ (fun q => (doing q).on b) (Finset.mem_univ p)
  unfold onCount
  rw [composed, Finset.sum_update_of_mem (Finset.mem_univ p), Finset.sdiff_singleton_eq_erase]
  omega

theorem Doing.on_le (d : Doing) (b : BufPtr) : d.on b ≤ 1 := by
  unfold Doing.on
  split_ifs
  · exact Nat.le_refl 1
  · exact Nat.zero_le 1

theorem onCount_le (doing : Proc → Doing) (b : BufPtr) : onCount doing b ≤ nProc := by
  unfold onCount
  calc ∑ q, (doing q).on b ≤ ∑ _q : Proc, 1 := Finset.sum_le_sum fun q _ => (doing q).on_le b
    _ = nProc := by rw [Finset.sum_const, Finset.card_univ, Fintype.card_fin, smul_eq_mul, mul_one]

theorem references_lt (dev : UInt32) (s : Machine) (todo : List Nat) (b : BufPtr) :
    s.users b + pinCount dev s.cache todo b < 2 ^ 32 := by
  have many := onCount_le s.doing b
  have procs : nProc + 2 < 2 ^ 32 := by decide
  have owner : ownerCount (s.lock b) ≤ 1 := by
    cases s.lock b with
    | none => exact Nat.zero_le 1
    | some p => exact Nat.le_refl 1
  unfold Machine.users pinCount
  split_ifs <;> omega

/-- An unused buffer has no references. -/
theorem Core.unused (core : Core dev s todo) (unused : (s.cache.buf b).refcnt = 0) :
    s.users b = 0 ∧ pinCount dev s.cache todo b = 0 := by
  rw [core.counted b] at unused
  have value := congrArg UInt32.toNat unused
  rw [UInt32.toNat_ofNat_of_lt' (references_lt dev s todo b)] at value
  change s.users b + pinCount dev s.cache todo b = 0 at value
  omega

theorem pinCount_congr {c c' : BCache}
    (same : (c'.buf b).dev = (c.buf b).dev ∧ (c'.buf b).blockno = (c.buf b).blockno) :
    pinCount dev c' todo b = pinCount dev c todo b := by
  apply if_congr _ rfl rfl
  unfold HoldsOne
  rw [same.1, same.2]

theorem Buffered.congr {block : Nat} {t : Machine} (buffered : Buffered dev s block b)
    (same : t.cache.buf b = s.cache.buf b ∨ ∃ count,
      t.cache.buf b = { s.cache.buf b with refcnt := count })
    (modified : t.modified block = s.modified block) : Buffered dev t block b := by
  obtain ⟨isBuf, isDev, isBlock, valid, data⟩ := buffered
  rcases same with same | ⟨count, same⟩
  · exact ⟨isBuf, by rw [same]; exact isDev, by rw [same]; exact isBlock,
      by rw [same]; exact valid, by rw [same, modified]; exact data⟩
  · exact ⟨isBuf, by rw [same]; exact isDev, by rw [same]; exact isBlock,
      by rw [same]; exact valid, by rw [same, modified]; exact data⟩

theorem Buffered.pinned {block : Nat} (buffered : Buffered dev s block b) (member : block ∈ todo) :
    pinCount dev s.cache todo b = 1 :=
  if_pos ⟨buffered.isBuf, buffered.device, by rw [buffered.number]; exact member⟩

end Counting

/-! ### What each section does to the cache -/

section Sections

variable {dev : UInt32} {s : Machine} {todo : List Nat} {p : Proc} {b : BufPtr}

/-- The buffers are the same but for their counts. -/
def SameBufs (c c' : BCache) : Prop :=
  ∀ b, c'.buf b = c.buf b ∨ ∃ count, c'.buf b = { c.buf b with refcnt := count }

theorem SameBufs.identity {c c' : BCache} (same : SameBufs c c') (b : BufPtr) :
    (c'.buf b).dev = (c.buf b).dev ∧ (c'.buf b).blockno = (c.buf b).blockno := by
  rcases same b with same | ⟨count, same⟩
  · rw [same]
    exact ⟨rfl, rfl⟩
  · rw [same]
    exact ⟨rfl, rfl⟩

theorem SameBufs.setRefcnt (c : BCache) (b : BufPtr) (count : UInt32) :
    SameBufs c (c.setRefcnt b count) := by
  intro other
  by_cases same : other = b
  · rw [same]
    exact .inr ⟨count, c.setBuf_self b _⟩
  · exact .inl (c.setBuf_other same _)

theorem Core.recount (core : Core dev s todo) (t : Machine) (order : ∃ order, Ordered t.cache order)
    (same : SameBufs s.cache t.cache) (onBuf : ∀ p b, (t.doing p).on b ≠ 0 → b ≠ head)
    (lockBuf : ∀ b, t.lock b ≠ none → b ≠ head)
    (device : ∀ b, t.users b ≠ 0 → (s.cache.buf b).dev = dev)
    (counted : ∀ b, (t.cache.buf b).refcnt =
      UInt32.ofNat (t.users b + pinCount dev s.cache todo b))
    (taken : t.taken = s.taken) (dropped : t.dropped = s.dropped)
    (modified : t.modified = s.modified) : Core dev t todo := by
  have pinsSame : ∀ b, pinCount dev t.cache todo b = pinCount dev s.cache todo b :=
    fun b => pinCount_congr (same.identity b)
  refine ⟨order, core.unique.congr same.identity, onBuf, lockBuf, ?_, ?_, ?_, ?_⟩
  · intro b used
    rw [(same.identity b).1]
    exact device b used
  · intro b
    rw [counted b, pinsSame b]
  · intro b
    rw [taken, dropped, core.pins b, pinsSame b]
  · intro block member
    obtain ⟨found, buffered⟩ := core.logged block member
    exact ⟨found, buffered.congr (same found) (by rw [modified])⟩

theorem Core.onBuf_update (core : Core dev s todo) {d : Doing}
    (next : ∀ other, d.on other ≠ 0 → other ≠ head) (q : Proc) (other : BufPtr)
    (on : (update s.doing p d q).on other ≠ 0) : other ≠ head := by
  have before := core.onBuf q other
  grind

theorem on_waiting {other : BufPtr} (isBuf : b ≠ head) (on : (Doing.waiting b).on other ≠ 0) :
    other ≠ head := by
  grind [Doing.waiting_on]

theorem on_releasing {other : BufPtr} (isBuf : b ≠ head) (on : (Doing.releasing b).on other ≠ 0) :
    other ≠ head := by
  grind [Doing.releasing_on]

theorem users_get (idle : s.doing p = .running) (cache : BCache) (other : BufPtr) :
    (s.get p b cache).users other = s.users other + if b = other then 1 else 0 := by
  have moved := onCount_update s.doing p (.waiting b) other
  rw [idle, Doing.running_on, Doing.waiting_on] at moved
  change onCount (update s.doing p (.waiting b)) other + ownerCount (s.lock other) =
    onCount s.doing other + ownerCount (s.lock other) + _
  omega

theorem Core.get_hit (core : Core dev s todo) (idle : s.doing p = .running) (isBuf : b ≠ head)
    (device : (s.cache.buf b).dev = dev) :
    Core dev (s.get p b (s.cache.setRefcnt b ((s.cache.buf b).refcnt + 1))) todo := by
  obtain ⟨order, ordered⟩ := core.order
  apply core.recount (s.get p b (s.cache.setRefcnt b _)) ⟨order, ordered.congr rfl⟩
    (SameBufs.setRefcnt _ _ _)
    (core.onBuf_update fun _ => on_waiting isBuf) core.lockBuf _ _ rfl rfl rfl
  · intro other used
    rw [users_get idle] at used
    by_cases same : b = other
    · exact same ▸ device
    · rw [if_neg same, Nat.add_zero] at used
      exact core.device other used
  · intro other
    rw [users_get idle]
    change ((s.cache.setRefcnt b _).buf other).refcnt = _
    rw [setRefcnt_refcnt]
    by_cases same : other = b
    · subst same
      rw [if_pos rfl, if_pos rfl, core.counted other, Nat.add_right_comm, UInt32.ofNat_add _ 1]
      rfl
    · rw [if_neg same, if_neg (Ne.symm same), core.counted other, Nat.add_zero]

theorem Core.get_miss (core : Core dev s todo) (idle : s.doing p = .running) (isBuf : b ≠ head)
    {block : UInt32} (missed : ∀ other, other ≠ head → s.cache.holds dev block other = false)
    (unused : s.cache.unused b = true) :
    Core dev (s.get p b (s.cache.recycle b dev block)) todo := by
  obtain ⟨order, ordered⟩ := core.order
  obtain ⟨noUsers, noPins⟩ := core.unused (b := b) (by simpa [BCache.unused] using unused)
  have newPins : pinCount dev (s.cache.recycle b dev block) todo b = 0 := by
    refine if_neg fun holds => ?_
    have member := holds.2.2
    rw [BCache.recycle, BCache.setBuf_self] at member
    obtain ⟨found, buffered⟩ := core.logged _ member
    have absent := missed found buffered.isBuf
    have number : (s.cache.buf found).blockno = block := UInt32.toNat_inj.mp buffered.number
    rw [BCache.holds, buffered.device, number] at absent
    simp at absent
  have others : ∀ other, other ≠ b → (s.cache.recycle b dev block).buf other = s.cache.buf other :=
    fun other different => s.cache.setBuf_other different _
  have pinsSame : ∀ other, pinCount dev (s.cache.recycle b dev block) todo other =
      pinCount dev s.cache todo other := by
    intro other
    by_cases same : other = b
    · rw [same, newPins, noPins]
    · exact pinCount_congr (by rw [others other same]; exact ⟨rfl, rfl⟩)
  refine ⟨⟨order, ordered.congr rfl⟩, core.unique.recycle missed,
    core.onBuf_update fun _ => on_waiting isBuf, core.lockBuf, ?_, ?_, ?_, ?_⟩
  · intro other used
    rw [users_get idle] at used
    change ((s.cache.recycle b dev block).buf other).dev = dev
    by_cases same : other = b
    · rw [same, BCache.recycle, BCache.setBuf_self]
    · rw [if_neg (Ne.symm same), Nat.add_zero] at used
      rw [others other same]
      exact core.device other used
  · intro other
    rw [users_get idle]
    change ((s.cache.recycle b dev block).buf other).refcnt =
      UInt32.ofNat (_ + pinCount dev (s.cache.recycle b dev block) todo other)
    rw [pinsSame other]
    by_cases same : other = b
    · subst same
      rw [if_pos rfl, noUsers, noPins, BCache.recycle, BCache.setBuf_self]
      rfl
    · rw [if_neg (Ne.symm same), others other same, core.counted other, Nat.add_zero]
  · intro other
    exact (core.pins other).trans (congrArg (s.dropped other + ·) (pinsSame other).symm)
  · intro block' member
    obtain ⟨found, buffered⟩ := core.logged block' member
    refine ⟨found, buffered.congr (.inl (others found fun same => ?_)) rfl⟩
    have pinned := buffered.pinned member
    rw [same, noPins] at pinned
    contradiction

theorem Core.get (core : Core dev s todo) (idle : s.doing p = .running) {block : UInt32}
    {cache : BCache} (got : bget s.cache dev block = some (b, cache)) :
    Core dev (s.get p b cache) todo := by
  obtain ⟨order, ordered⟩ := core.order
  obtain ⟨isBuf, ⟨found, rfl⟩ | ⟨missed, unused, rfl⟩⟩ := bget_cases ordered got
  · simp only [BCache.holds, Bool.and_eq_true, beq_iff_eq] at found
    exact core.get_hit idle isBuf found.1
  · exact core.get_miss idle isBuf missed unused

theorem users_acquire (waits : s.doing p = .waiting b) (free : s.lock b = none) (other : BufPtr) :
    (s.acquire p b).users other = s.users other := by
  have moved := onCount_update s.doing p .running other
  rw [waits, Doing.running_on, Doing.waiting_on] at moved
  change onCount (update s.doing p .running) other +
    ownerCount (update s.lock b (some p) other) =
      onCount s.doing other + ownerCount (s.lock other)
  grind [ownerCount]

theorem Core.acquire (core : Core dev s todo) (waits : s.doing p = .waiting b)
    (free : s.lock b = none) : Core dev (s.acquire p b) todo := by
  have isBuf : b ≠ head := core.onBuf p b (by rw [waits, Doing.waiting_on, if_pos rfl]; decide)
  apply core.recount (s.acquire p b) core.order (fun _ => .inl rfl)
    (core.onBuf_update fun _ on => absurd rfl on) _ _ _ rfl rfl rfl
  · exact (Function.forall_update_iff s.lock fun other owner => owner ≠ none → other ≠ head).mpr
      ⟨fun _ => isBuf, fun other _ => core.lockBuf other⟩
  · intro other used
    rw [users_acquire waits free] at used
    exact core.device other used
  · intro other
    rw [users_acquire waits free]
    exact core.counted other

theorem users_unlock (locked : s.lock b = some p) (idle : s.doing p = .running) (other : BufPtr) :
    (s.unlock p b).users other = s.users other := by
  have moved := onCount_update s.doing p (.releasing b) other
  rw [idle, Doing.running_on, Doing.releasing_on] at moved
  change onCount (update s.doing p (.releasing b)) other +
    ownerCount (update s.lock b none other) =
      onCount s.doing other + ownerCount (s.lock other)
  grind [ownerCount]

theorem Core.unlock (core : Core dev s todo) (locked : s.lock b = some p)
    (idle : s.doing p = .running) : Core dev (s.unlock p b) todo := by
  have isBuf : b ≠ head := core.lockBuf b (by rw [locked]; exact Option.some_ne_none p)
  apply core.recount (s.unlock p b) core.order (fun _ => .inl rfl)
    (core.onBuf_update fun _ => on_releasing isBuf) _ _ _ rfl rfl rfl
  · exact (Function.forall_update_iff s.lock fun other owner => owner ≠ none → other ≠ head).mpr
      ⟨fun _ => isBuf, fun other _ => core.lockBuf other⟩
  · intro other used
    rw [users_unlock locked idle] at used
    exact core.device other used
  · intro other
    rw [users_unlock locked idle]
    exact core.counted other

theorem users_release (releases : s.doing p = .releasing b) (other : BufPtr) :
    s.users other = (s.release p b).users other + if b = other then 1 else 0 := by
  have moved := onCount_update s.doing p .running other
  rw [releases, Doing.running_on, Doing.releasing_on] at moved
  change onCount s.doing other + ownerCount (s.lock other) =
    onCount (update s.doing p .running) other + ownerCount (s.lock other) + _
  omega

theorem Core.release (core : Core dev s todo) (releases : s.doing p = .releasing b) :
    Core dev (s.release p b) todo := by
  obtain ⟨order, ordered⟩ := core.order
  have isBuf : b ≠ head :=
    core.onBuf p b (by rw [releases, Doing.releasing_on, if_pos rfl]; decide)
  have same : SameBufs s.cache (brelse s.cache b) := by
    intro other
    rw [brelse_buf]
    exact SameBufs.setRefcnt _ _ _ other
  apply core.recount (s.release p b) (brelse_ordered ordered isBuf) same
    (core.onBuf_update fun _ on => absurd rfl on) core.lockBuf _ _ rfl rfl rfl
  · intro other used
    apply core.device other
    have count := users_release releases other
    omega
  · intro other
    change ((brelse s.cache b).buf other).refcnt = _
    rw [brelse_buf, setRefcnt_refcnt]
    by_cases here : other = b
    · subst here
      rw [if_pos rfl, core.counted other, users_release releases, if_pos rfl, Nat.add_right_comm,
        UInt32.ofNat_add _ 1]
      exact UInt32.add_sub_cancel _ _
    · rw [if_neg here, core.counted other, users_release releases, if_neg (Ne.symm here),
        Nat.add_zero]

theorem Core.setData (core : Core dev s todo) (t : Machine) {new : Buf}
    (cache : t.cache = s.cache.setBuf b new) (sameDev : new.dev = (s.cache.buf b).dev)
    (sameBlock : new.blockno = (s.cache.buf b).blockno)
    (sameCount : new.refcnt = (s.cache.buf b).refcnt) (doing : t.doing = s.doing)
    (lock : t.lock = s.lock) (taken : t.taken = s.taken) (dropped : t.dropped = s.dropped)
    (logged : ∀ block ∈ todo, ∃ b, Buffered dev t block b) : Core dev t todo := by
  obtain ⟨order, ordered⟩ := core.order
  have identity := setBuf_identity s.cache b new sameDev sameBlock
  have users : ∀ other, t.users other = s.users other := by
    intro other
    unfold Machine.users
    rw [doing, lock]
  rw [← cache] at identity
  refine ⟨⟨order, ordered.congr (by rw [cache]; rfl)⟩, core.unique.congr identity, ?_, ?_,
    ?_, ?_, ?_, logged⟩
  · rw [doing]
    exact core.onBuf
  · rw [lock]
    exact core.lockBuf
  · intro other used
    rw [(identity other).1]
    exact core.device other (users other ▸ used)
  · intro other
    rw [users other, pinCount_congr (identity other), ← core.counted other, cache]
    by_cases same : other = b
    · rw [same, BCache.setBuf_self, sameCount]
    · rw [s.cache.setBuf_other same]
  · intro other
    rw [taken, dropped, pinCount_congr (identity other)]
    exact core.pins other

theorem Core.fill (core : Core dev s todo) (invalid : (s.cache.buf b).valid = false) :
    Core dev (s.fill b) todo := by
  apply core.setData (s.fill b) rfl rfl rfl rfl rfl rfl rfl rfl
  intro block member
  obtain ⟨found, buffered⟩ := core.logged block member
  have other : found ≠ b := fun same => by
    have valid := buffered.valid
    rw [same, invalid] at valid
    contradiction
  exact ⟨found, buffered.congr (.inl (s.cache.setBuf_other other _)) rfl⟩

/-- A locked buffer is the buffer of its block. -/
theorem Core.same_buffer (core : Core dev s todo) (device : dev ≠ 0) {block : Nat} {found : BufPtr}
    (buffered : Buffered dev s block found) (isBuf : b ≠ head) (isDev : (s.cache.buf b).dev = dev)
    (isBlock : (s.cache.buf b).blockno.toNat = block) : found = b := by
  apply core.unique found b buffered.isBuf isBuf
  · rw [buffered.device]
    exact device
  · rw [buffered.device, isDev]
  · exact UInt32.toNat_inj.mp (buffered.number.trans isBlock.symm)

theorem Core.locked_buf (core : Core dev s todo) (locked : s.lock b = some p) :
    b ≠ head ∧ (s.cache.buf b).dev = dev := by
  have present : s.lock b ≠ none := by
    rw [locked]
    exact Option.some_ne_none p
  refine ⟨core.lockBuf b present, core.device b ?_⟩
  unfold Machine.users
  rw [locked]
  exact Nat.succ_ne_zero _

theorem Core.store (core : Core dev s todo) (device : dev ≠ 0) (locked : s.lock b = some p)
    (data : Block) : Core dev (s.store b data) todo := by
  obtain ⟨isBuf, isDev⟩ := core.locked_buf locked
  apply core.setData (s.store b data) rfl rfl rfl rfl rfl rfl rfl rfl
  intro block member
  obtain ⟨found, buffered⟩ := core.logged block member
  by_cases number : (s.cache.buf b).blockno.toNat = block
  · have same : found = b := core.same_buffer device buffered isBuf isDev number
    subst same
    have here : (s.store found data).cache.buf found = { s.cache.buf found with data := data } :=
      s.cache.setBuf_self found _
    refine ⟨found, isBuf, ?_, ?_, ?_, ?_⟩ <;> rw [here]
    · exact isDev
    · exact number
    · exact buffered.valid
    · exact number ▸ (update_self (s.cache.buf found).blockno.toNat data s.modified).symm
  · have other : found ≠ b := fun same => number (same ▸ buffered.number)
    refine ⟨found, buffered.congr (.inl (s.cache.setBuf_other other _)) ?_⟩
    exact update_of_ne (Ne.symm number) _ _

theorem pinCount_more (unique : Unique s.cache) (device : dev ≠ 0) (isBuf : b ≠ head)
    (isDev : (s.cache.buf b).dev = dev) {more : List Nat}
    (more_iff : ∀ block, block ∈ more ↔ block ∈ todo ∨ block = (s.cache.buf b).blockno.toNat)
    (new : (s.cache.buf b).blockno.toNat ∉ todo) (other : BufPtr) :
    pinCount dev s.cache more other =
      pinCount dev s.cache todo other + if other = b then 1 else 0 := by
  unfold pinCount
  by_cases same : other = b
  · subst same
    rw [if_pos ⟨isBuf, isDev, (more_iff _).mpr (.inr rfl)⟩, if_neg fun holds => new holds.2.2,
      if_pos rfl]
  · have iff : HoldsOne dev s.cache more other ↔ HoldsOne dev s.cache todo other := by
      unfold HoldsOne
      rw [more_iff]
      constructor
      · rintro ⟨otherBuf, otherDev, old | isNew⟩
        · exact ⟨otherBuf, otherDev, old⟩
        · refine absurd (unique other b otherBuf isBuf ?_ ?_ ?_) same
          · rw [otherDev]
            exact device
          · rw [otherDev, isDev]
          · exact UInt32.toNat_inj.mp isNew
      · exact fun holds => ⟨holds.1, holds.2.1, .inl holds.2.2⟩
    rw [if_neg same, Nat.add_zero]
    exact if_congr iff rfl rfl

/-- `log_write` of a block that is not in the log yet. -/
theorem Core.logNew (core : Core dev s todo) (device : dev ≠ 0) (locked : s.lock b = some p)
    (valid : (s.cache.buf b).valid = true)
    (new : (s.cache.buf b).blockno.toNat ∉ todo) (log : Log) :
    Core dev
      ({ s with
        log := log
        modified := update s.modified (s.cache.buf b).blockno.toNat
          (s.cache.buf b).data }.pin b)
      (todo ++ [(s.cache.buf b).blockno.toNat]) := by
  obtain ⟨isBuf, isDev⟩ := core.locked_buf locked
  obtain ⟨order, ordered⟩ := core.order
  have identity := setRefcnt_identity s.cache b ((s.cache.buf b).refcnt + 1)
  have more := @pinCount_more dev s todo b core.unique device isBuf isDev
    (todo ++ [(s.cache.buf b).blockno.toNat]) (by simp) new
  refine ⟨⟨order, ordered.congr rfl⟩, core.unique.congr identity, core.onBuf,
    core.lockBuf, ?_, ?_, ?_,
    ?_⟩
  · intro other used
    exact ((identity other).1).trans (core.device other used)
  · intro other
    change ((s.cache.setRefcnt b _).buf other).refcnt =
      UInt32.ofNat (s.users other + pinCount dev (s.cache.setRefcnt b _) _ other)
    rw [pinCount_congr (identity other), more, setRefcnt_refcnt]
    by_cases same : other = b
    · rw [if_pos same, if_pos same, ← Nat.add_assoc, same, core.counted b, UInt32.ofNat_add _ 1]
      rfl
    · rw [if_neg same, if_neg same, Nat.add_zero]
      exact core.counted other
  · intro other
    change update s.taken b (s.taken b + 1) other =
      s.dropped other + pinCount dev (s.cache.setRefcnt b _) _ other
    rw [pinCount_congr (identity other), more]
    by_cases same : other = b
    · rw [same, update_self, if_pos rfl, core.pins b, Nat.add_assoc]
    · rw [update_of_ne same, if_neg same, Nat.add_zero]
      exact core.pins other
  · intro block member
    rcases List.mem_append.mp member with old | isNew
    · obtain ⟨found, buffered⟩ := core.logged block old
      have other : block ≠ (s.cache.buf b).blockno.toNat := fun same => new (same ▸ old)
      refine ⟨found, buffered.congr (SameBufs.setRefcnt _ _ _ found) ?_⟩
      exact update_of_ne other _ _
    · rw [List.mem_singleton] at isNew
      subst isNew
      have here : (s.cache.setRefcnt b ((s.cache.buf b).refcnt + 1)).buf b =
          { s.cache.buf b with refcnt := (s.cache.buf b).refcnt + 1 } := s.cache.setBuf_self b _
      refine ⟨b, isBuf, (identity b).1.trans isDev, ?_, ?_, ?_⟩
      · exact congrArg UInt32.toNat (identity b).2
      · exact (congrArg Buf.valid here).trans valid
      · exact (congrArg Buf.data here).trans
          (update_self (s.cache.buf b).blockno.toNat (s.cache.buf b).data s.modified).symm

/-- `log_write` of a block that is in the log: absorption. -/
theorem Core.logAgain (core : Core dev s todo) (device : dev ≠ 0) (locked : s.lock b = some p)
    (log : Log) :
    Core dev
      { s with
        log := log
        modified := update s.modified (s.cache.buf b).blockno.toNat (s.cache.buf b).data }
      todo := by
  obtain ⟨isBuf, isDev⟩ := core.locked_buf locked
  refine ⟨core.order, core.unique, core.onBuf, core.lockBuf, core.device, core.counted,
    core.pins, ?_⟩
  intro block member
  obtain ⟨found, buffered⟩ := core.logged block member
  refine ⟨found, buffered.isBuf, buffered.device, buffered.number, buffered.valid, ?_⟩
  by_cases number : (s.cache.buf b).blockno.toNat = block
  · have same : found = b := core.same_buffer device buffered isBuf isDev number
    subst same
    change _ = update s.modified _ (s.cache.buf found).data block
    rw [number, update_self]
  · exact buffered.data.trans (update_of_ne (Ne.symm number) _ _).symm

/-- `bunpin` of the buffer of the next block. -/
theorem Core.unpin {block : Nat} (core : Core dev s (block :: todo)) (device : dev ≠ 0)
    (isBuf : b ≠ head) (isDev : (s.cache.buf b).dev = dev)
    (isBlock : (s.cache.buf b).blockno.toNat = block) (new : block ∉ todo) :
    Core dev (s.unpin b) todo := by
  obtain ⟨order, ordered⟩ := core.order
  have identity := setRefcnt_identity s.cache b ((s.cache.buf b).refcnt - 1)
  have more : ∀ other, pinCount dev s.cache (block :: todo) other =
      pinCount dev s.cache todo other + if other = b then 1 else 0 := by
    apply pinCount_more core.unique device isBuf isDev
    · intro other
      rw [List.mem_cons, isBlock, or_comm]
    · rw [isBlock]
      exact new
  refine ⟨⟨order, ordered.congr rfl⟩, core.unique.congr identity, core.onBuf,
    core.lockBuf, ?_, ?_, ?_,
    ?_⟩
  · intro other used
    exact ((identity other).1).trans (core.device other used)
  · intro other
    change ((s.cache.setRefcnt b _).buf other).refcnt =
      UInt32.ofNat (s.users other + pinCount dev (s.cache.setRefcnt b _) _ other)
    rw [pinCount_congr (identity other), setRefcnt_refcnt]
    by_cases same : other = b
    · rw [if_pos same, same, core.counted b, more, if_pos rfl, ← Nat.add_assoc,
        UInt32.ofNat_add _ 1]
      exact UInt32.add_sub_cancel _ _
    · rw [if_neg same, core.counted other, more, if_neg same, Nat.add_zero]
  · intro other
    change s.taken other = update s.dropped b (s.dropped b + 1) other +
      pinCount dev (s.cache.setRefcnt b _) _ other
    rw [pinCount_congr (identity other), core.pins other, more]
    by_cases same : other = b
    · rw [same, update_self, if_pos rfl]
      omega
    · rw [update_of_ne same, if_neg same, Nat.add_zero]
  · intro other member
    obtain ⟨found, buffered⟩ := core.logged other (List.mem_cons_of_mem _ member)
    exact ⟨found, buffered.congr (SameBufs.setRefcnt _ _ _ found) rfl⟩

end Sections

end Xv6.Kernel.Log
