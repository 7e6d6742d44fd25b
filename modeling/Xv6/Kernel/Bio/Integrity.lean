import Xv6.Kernel.Bio.Cache
import Xv6.Lib.Transition

/-!
The buffer cache over whole runs.

Owns: the users of the cache with the references they hold, the step relation
whose steps are the sections under `bcache.lock`, and what every reachable cache
looks like.

Does not own: who may touch a buffer's data when.
-/

namespace Xv6.Kernel.Bio

open Xv6.Lib

/-- The cache and its outstanding references: the buffers processes got and have
not released, and the pins. -/
structure Users where
  cache : BCache
  held : List (Nat × BufPtr)
  pins : List BufPtr

/-- What a process can do. `store` is the disk read of `bread` or any other store
into a buffer the process holds. -/
inductive Op where
  | bget (p : Nat) (dev blockno : UInt32)
  | store (p : Nat) (b : BufPtr) (data : Block)
  | brelse (p : Nat) (b : BufPtr)
  | bpin (b : BufPtr)
  | bunpin (b : BufPtr)

/-- The step relation. Devices are numbered from 1, and a release or an unpinning
matches an earlier get or pin. -/
inductive Users.Step : Users → Op → Users → Prop where
  | bget {s : Users} {p : Nat} {dev blockno : UInt32} {b : BufPtr} {c : BCache} (device : dev ≠ 0)
      (got : Bio.bget s.cache dev blockno = some (b, c)) :
      Step s (.bget p dev blockno) ⟨c, (p, b) :: s.held, s.pins⟩
  | store {s : Users} {p : Nat} {b : BufPtr} {data : Block} (member : (p, b) ∈ s.held) :
      Step s (.store p b data)
        { s with cache := s.cache.setBuf b { s.cache.buf b with valid := true, data := data } }
  | brelse {s : Users} {p : Nat} {b : BufPtr} (member : (p, b) ∈ s.held) :
      Step s (.brelse p b) ⟨Bio.brelse s.cache b, s.held.erase (p, b), s.pins⟩
  | bpin {s : Users} {b : BufPtr} (isBuf : b ≠ head) :
      Step s (.bpin b) ⟨Bio.bpin s.cache b, s.held, b :: s.pins⟩
  | bunpin {s : Users} {b : BufPtr} (member : b ∈ s.pins) :
      Step s (.bunpin b) ⟨Bio.bunpin s.cache b, s.held, s.pins.erase b⟩

/-- After `binit`: the statics were zero, and nobody has a reference. -/
def Users.Booted (s : Users) : Prop :=
  ∃ c : BCache, (∀ b, (c.buf b).dev = 0 ∧ (c.buf b).refcnt = 0) ∧ s = ⟨binit c, [], []⟩

/-- No two buffers hold the same block of a device. -/
def Unique (c : BCache) : Prop :=
  ∀ a b, a ≠ head → b ≠ head → (c.buf a).dev ≠ 0 → (c.buf a).dev = (c.buf b).dev →
    (c.buf a).blockno = (c.buf b).blockno → a = b

/-- The references to a buffer. -/
def Users.references (s : Users) (b : BufPtr) : Nat :=
  s.held.countP (fun ref => ref.2 = b) + s.pins.count b

/-- The invariant of the cache and its users. -/
structure Users.Sound (s : Users) : Prop where
  order : ∃ order, Ordered s.cache order
  unique : Unique s.cache
  heldBuf : ∀ ref ∈ s.held, ref.2 ≠ head
  pinBuf : ∀ b ∈ s.pins, b ≠ head
  counted : ∀ b, (s.cache.buf b).refcnt = UInt32.ofNat (s.references b)

section Steps

variable {c : BCache} {s : Users} {b : BufPtr}

/-- Identities decide uniqueness. -/
theorem Unique.congr (unique : Unique c) {c' : BCache}
    (same : ∀ b, (c'.buf b).dev = (c.buf b).dev ∧ (c'.buf b).blockno = (c.buf b).blockno) :
    Unique c' := by
  intro x y xBuf yBuf device sameDev sameBlock
  rw [(same x).1] at device
  rw [(same x).1, (same y).1] at sameDev
  rw [(same x).2, (same y).2] at sameBlock
  exact unique x y xBuf yBuf device sameDev sameBlock

theorem setBuf_identity (c : BCache) (b : BufPtr) (new : Buf) (dev : new.dev = (c.buf b).dev)
    (blockno : new.blockno = (c.buf b).blockno) (other : BufPtr) :
    ((c.setBuf b new).buf other).dev = (c.buf other).dev ∧
      ((c.setBuf b new).buf other).blockno = (c.buf other).blockno := by
  by_cases same : other = b
  · subst same
    rw [BCache.setBuf_self]
    exact ⟨dev, blockno⟩
  · rw [c.setBuf_other same]
    exact ⟨rfl, rfl⟩

theorem setRefcnt_identity (c : BCache) (b : BufPtr) (count : UInt32) (other : BufPtr) :
    ((c.setRefcnt b count).buf other).dev = (c.buf other).dev ∧
      ((c.setRefcnt b count).buf other).blockno = (c.buf other).blockno := by
  apply setBuf_identity
  · rfl
  · rfl

theorem setRefcnt_refcnt (c : BCache) (b : BufPtr) (count : UInt32) (other : BufPtr) :
    ((c.setRefcnt b count).buf other).refcnt = if other = b then count
      else (c.buf other).refcnt := by
  by_cases same : other = b
  · rw [if_pos same, same, BCache.setRefcnt, BCache.setBuf_self]
  · rw [if_neg same, BCache.setRefcnt, c.setBuf_other same]

/-- `brelse` counts down and keeps every identity. -/
theorem brelse_buf (c : BCache) (b : BufPtr) :
    (brelse c b).buf = (c.setRefcnt b ((c.buf b).refcnt - 1)).buf := by
  unfold brelse
  dsimp only
  split_ifs <;> rfl

theorem brelse_ordered {order : List BufPtr} (ordered : Ordered c order) (isBuf : b ≠ head) :
    ∃ order', Ordered (brelse c b) order' := by
  have released : Ordered (c.setRefcnt b ((c.buf b).refcnt - 1)) order := ordered.congr rfl
  unfold brelse
  dsimp only
  split_ifs
  · obtain ⟨front, back, rfl⟩ := List.append_of_mem (ordered.all b isBuf)
    exact ⟨_, released.moveFirst⟩
  · exact ⟨order, released⟩

/-- A recycled buffer holds a block nobody else holds. -/
theorem Unique.recycle (unique : Unique c) {dev blockno : UInt32}
    (missed : ∀ other, other ≠ head → c.holds dev blockno other = false) :
    Unique (c.recycle b dev blockno) := by
  have self : (c.recycle b dev blockno).buf b =
      { c.buf b with dev := dev, blockno := blockno, valid := false, refcnt := 1 } :=
    Function.update_self _ _ _
  have others : ∀ other, other ≠ b → (c.recycle b dev blockno).buf other = c.buf other :=
    fun other different => Function.update_of_ne different _ _
  -- no other buffer holds the block
  have clash : ∀ other, other ≠ head → (c.buf other).dev = dev →
      (c.buf other).blockno ≠ blockno := by
    intro other isBuf sameDev sameBlock
    have absent := missed other isBuf
    rw [BCache.holds, sameDev, sameBlock] at absent
    simp at absent
  intro x y xBuf yBuf device sameDev sameBlock
  by_cases xNew : x = b
  · by_cases yNew : y = b
    · exact xNew.trans yNew.symm
    · rw [xNew, self, others y yNew] at sameDev sameBlock
      exact absurd sameBlock.symm (clash y yBuf sameDev.symm)
  · by_cases yNew : y = b
    · rw [yNew, self, others x xNew] at sameDev sameBlock
      exact absurd sameBlock (clash x xBuf sameDev)
    · rw [others x xNew] at device
      rw [others x xNew, others y yNew] at sameDev sameBlock
      exact unique x y xBuf yBuf device sameDev sameBlock

theorem counted_succ (counted : ∀ b, (c.buf b).refcnt = UInt32.ofNat (s.references b)) {t : Users}
    (more : ∀ other, t.references other = s.references other + if other = b then 1 else 0)
    (other : BufPtr) :
    ((c.setRefcnt b ((c.buf b).refcnt + 1)).buf other).refcnt =
      UInt32.ofNat (t.references other) := by
  rw [setRefcnt_refcnt, more]
  by_cases same : other = b
  · rw [if_pos same, if_pos same, same, counted, UInt32.ofNat_add]
    rfl
  · rw [if_neg same, if_neg same, counted, Nat.add_zero]

theorem counted_pred (counted : ∀ b, (c.buf b).refcnt = UInt32.ofNat (s.references b)) {t : Users}
    (less : ∀ other, s.references other = t.references other + if other = b then 1 else 0)
    (other : BufPtr) :
    ((c.setRefcnt b ((c.buf b).refcnt - 1)).buf other).refcnt =
      UInt32.ofNat (t.references other) := by
  rw [setRefcnt_refcnt]
  by_cases same : other = b
  · rw [if_pos same, same, counted, less, if_pos rfl, UInt32.ofNat_add]
    exact UInt32.add_sub_cancel _ _
  · rw [if_neg same, counted, less, if_neg same, Nat.add_zero]

theorem references_get (p : Nat) (c : BCache) (b other : BufPtr) :
    Users.references ⟨c, (p, b) :: s.held, s.pins⟩ other =
      s.references other + if other = b then 1 else 0 := by
  unfold Users.references
  dsimp only
  by_cases same : other = b
  · rw [if_pos same, List.countP_cons_of_pos (by simp [same])]
    omega
  · rw [if_neg same, List.countP_cons_of_neg (by simpa using Ne.symm same)]
    rfl

theorem references_release {p : Nat} (member : (p, b) ∈ s.held) (c : BCache) (other : BufPtr) :
    s.references other =
      Users.references ⟨c, s.held.erase (p, b), s.pins⟩ other + if other = b then 1 else 0 := by
  have counts := (List.perm_cons_erase member).countP_eq fun ref => decide (ref.2 = other)
  unfold Users.references
  dsimp only
  rw [counts]
  by_cases same : other = b
  · rw [if_pos same, List.countP_cons_of_pos (by simp [same])]
    omega
  · rw [if_neg same, List.countP_cons_of_neg (by simpa using Ne.symm same)]
    rfl

theorem references_pin (c : BCache) (b other : BufPtr) :
    Users.references ⟨c, s.held, b :: s.pins⟩ other =
      s.references other + if other = b then 1 else 0 := by
  unfold Users.references
  dsimp only
  rw [List.count_cons, Nat.add_assoc]
  by_cases same : other = b
  · simp [same]
  · simp [same, Ne.symm same]

theorem references_unpin (member : b ∈ s.pins) (c : BCache) (other : BufPtr) :
    s.references other =
      Users.references ⟨c, s.held, s.pins.erase b⟩ other + if other = b then 1 else 0 := by
  have counts := (List.perm_cons_erase member).count_eq other
  unfold Users.references
  dsimp only
  rw [counts, List.count_cons]
  by_cases same : other = b
  · simp only [same, BEq.rfl, if_true]
    omega
  · simp [same, Ne.symm same]

theorem references_unused (sound : s.Sound) (unused : s.cache.unused b = true) :
    UInt32.ofNat (s.references b) = 0 := by
  rw [← sound.counted b]
  simpa [BCache.unused] using unused

theorem Users.Sound.bget (sound : s.Sound) {p : Nat} {dev blockno : UInt32} {c : BCache}
    (got : Bio.bget s.cache dev blockno = some (b, c)) :
    Users.Sound ⟨c, (p, b) :: s.held, s.pins⟩ := by
  obtain ⟨order, ordered⟩ := sound.order
  obtain ⟨isBuf, found | fresh⟩ := bget_cases ordered got
  · obtain ⟨_, rfl⟩ := found
    exact ⟨⟨order, ordered.congr rfl⟩, sound.unique.congr (setRefcnt_identity _ _ _),
      List.forall_mem_cons.mpr ⟨isBuf, sound.heldBuf⟩, sound.pinBuf,
      counted_succ sound.counted (references_get p _ b)⟩
  · obtain ⟨missed, unused, rfl⟩ := fresh
    refine ⟨⟨order, ordered.congr rfl⟩, sound.unique.recycle missed,
      List.forall_mem_cons.mpr ⟨isBuf, sound.heldBuf⟩, sound.pinBuf, ?_⟩
    intro other
    rw [references_get p _ b]
    by_cases same : other = b
    · rw [if_pos same, UInt32.ofNat_add, same, references_unused sound unused, BCache.recycle,
        BCache.setBuf_self]
      rfl
    · rw [if_neg same, Nat.add_zero, ← sound.counted other, BCache.recycle,
        BCache.setBuf_other _ same]

theorem Users.Sound.store (sound : s.Sound) (data : Block) :
    Users.Sound { s with
      cache := s.cache.setBuf b { s.cache.buf b with valid := true, data := data } } := by
  obtain ⟨order, ordered⟩ := sound.order
  refine ⟨⟨order, ordered.congr rfl⟩, sound.unique.congr ?_, sound.heldBuf, sound.pinBuf, ?_⟩
  · apply setBuf_identity
    · rfl
    · rfl
  intro other
  refine Eq.trans ?_ (sound.counted other)
  by_cases same : other = b
  · rw [same, BCache.setBuf_self]
  · rw [BCache.setBuf_other _ same]

theorem Users.Sound.brelse (sound : s.Sound) {p : Nat} (member : (p, b) ∈ s.held) :
    Users.Sound ⟨Bio.brelse s.cache b, s.held.erase (p, b), s.pins⟩ := by
  obtain ⟨order, ordered⟩ := sound.order
  refine ⟨brelse_ordered ordered (sound.heldBuf _ member), ?_, ?_, sound.pinBuf, ?_⟩
  · refine sound.unique.congr fun other => ?_
    rw [brelse_buf]
    exact setRefcnt_identity _ _ _ other
  · intro ref inside
    exact sound.heldBuf ref (List.mem_of_mem_erase inside)
  · intro other
    rw [brelse_buf]
    exact counted_pred sound.counted (references_release member _) other

theorem Users.Sound.bpin (sound : s.Sound) (isBuf : b ≠ head) :
    Users.Sound ⟨Bio.bpin s.cache b, s.held, b :: s.pins⟩ := by
  obtain ⟨order, ordered⟩ := sound.order
  exact ⟨⟨order, ordered.congr rfl⟩, sound.unique.congr (setRefcnt_identity _ _ _), sound.heldBuf,
    List.forall_mem_cons.mpr ⟨isBuf, sound.pinBuf⟩, counted_succ sound.counted (references_pin _ b)⟩

theorem Users.Sound.bunpin (sound : s.Sound) (member : b ∈ s.pins) :
    Users.Sound ⟨Bio.bunpin s.cache b, s.held, s.pins.erase b⟩ := by
  obtain ⟨order, ordered⟩ := sound.order
  refine ⟨⟨order, ordered.congr rfl⟩, sound.unique.congr (setRefcnt_identity _ _ _), sound.heldBuf,
    ?_, counted_pred sound.counted (references_unpin member _)⟩
  intro other inside
  exact sound.pinBuf other (List.mem_of_mem_erase inside)

theorem Users.Sound.step (sound : s.Sound) {op : Op} {t : Users} (step : s.Step op t) :
    t.Sound := by
  cases step with
  | bget _ got => exact sound.bget got
  | store _ => exact sound.store _
  | brelse member => exact sound.brelse member
  | bpin isBuf => exact sound.bpin isBuf
  | bunpin member => exact sound.bunpin member

theorem Users.Booted.sound (booted : s.Booted) : s.Sound := by
  obtain ⟨c, zero, rfl⟩ := booted
  refine ⟨⟨_, binit_ordered c⟩, ?_, ?_, ?_, fun b => (zero b).2⟩
  · intro a b _ _ device
    exact absurd (zero a).1 device
  · intro ref member
    exact absurd member List.not_mem_nil
  · intro b member
    exact absurd member List.not_mem_nil

/-- A buffer whose count is not zero keeps its block. -/
theorem Users.Sound.keeps (sound : s.Sound) {op : Op} {t : Users} (step : s.Step op t)
    (used : (s.cache.buf b).refcnt ≠ 0) :
    (t.cache.buf b).dev = (s.cache.buf b).dev ∧
      (t.cache.buf b).blockno = (s.cache.buf b).blockno := by
  cases step with
  | bget _ got =>
    obtain ⟨order, ordered⟩ := sound.order
    obtain ⟨isBuf, found | fresh⟩ := bget_cases ordered got
    · obtain ⟨_, rfl⟩ := found
      exact setRefcnt_identity _ _ _ b
    · obtain ⟨_, unused, rfl⟩ := fresh
      have other : b ≠ _ := fun same => used (by
        rw [same]
        simpa [BCache.unused] using unused)
      rw [BCache.recycle, BCache.setBuf_other _ other]
      exact ⟨rfl, rfl⟩
  | store _ =>
    apply setBuf_identity
    · rfl
    · rfl
  | brelse _ =>
    rw [brelse_buf]
    exact setRefcnt_identity _ _ _ b
  | bpin _ | bunpin _ => exact setRefcnt_identity _ _ _ b

end Steps

/-- In every reachable cache all buffers are linked in one ring, the links are
inverse to each other, no block has two buffers, a lookup of a cached block finds
its buffer, and no step gives a referenced buffer another block: neither one whose
count is not zero, nor one that fewer than `2^32` references are held to. -/
theorem bcache_integrity {steps : List (Users × Op)} {s : Users}
    (run : Run Users.Booted Users.Step steps s) :
    (∃ order, s.cache.links.Ring head order ∧ ∀ b, b ≠ head ↔ b ∈ order) ∧
    (∀ b, s.cache.links.next (s.cache.links.prev b) = b ∧
      s.cache.links.prev (s.cache.links.next b) = b) ∧
    Unique s.cache ∧
    (∀ dev blockno b, dev ≠ 0 → b ≠ head → s.cache.holds dev blockno b = true →
      ∃ c, bget s.cache dev blockno = some (b, c)) ∧
    ∀ op t b, s.Step op t →
      ((s.cache.buf b).refcnt ≠ 0 ∨ 0 < s.references b ∧ s.references b < 2 ^ 32) →
      (t.cache.buf b).dev = (s.cache.buf b).dev ∧
        (t.cache.buf b).blockno = (s.cache.buf b).blockno := by
  have sound : s.Sound :=
    run.invariant Users.Sound (fun _ booted => booted.sound) fun _ _ _ before step =>
      before.step step
  obtain ⟨order, ordered⟩ := sound.order
  refine ⟨⟨order, ordered.ring, fun b => ⟨ordered.all b, ordered.ne_head⟩⟩, ordered.inverse,
    sound.unique, ?_, ?_⟩
  · intro dev blockno b device isBuf cached
    obtain ⟨found, foundBuf, holds, got⟩ := bget_of_holds ordered isBuf cached
    have same : found = b := by
      simp only [BCache.holds, Bool.and_eq_true, beq_iff_eq] at holds cached
      apply sound.unique found b foundBuf isBuf
      · rw [holds.1]
        exact device
      · rw [holds.1, cached.1]
      · rw [holds.2, cached.2]
    rw [same] at got
    exact ⟨_, got⟩
  · intro op t b step referenced
    apply sound.keeps step
    rcases referenced with used | ⟨present, few⟩
    · exact used
    · rw [sound.counted b]
      intro zero
      have value := congrArg UInt32.toNat zero
      rw [UInt32.toNat_ofNat_of_lt' few] at value
      exact absurd value (Nat.ne_of_gt present)

/-- The statics before `binit`. -/
def staticCache : BCache :=
  ⟨⟨fun _ => head, fun _ => head⟩, fun _ => ⟨false, 0, 0, 0, Buffer.fill 0⟩⟩

/-- The first lookup of a block takes buffer 0, the second one finds it there. -/
theorem bcache_integrity_twice :
    ∃ c, bget (binit staticCache) 1 5 = some (0, c) ∧ Unique c ∧
      ∃ c', bget c 1 5 = some (0, c') := by
  have first : (bget (binit staticCache) 1 5).map (fun got => (got.1, got.2.holds 1 5 got.1)) =
      some (0, true) := by decide +kernel
  obtain ⟨got, found, taken⟩ := Option.map_eq_some_iff.mp first
  obtain ⟨b, c⟩ := got
  simp only [Prod.mk.injEq] at taken
  obtain ⟨rfl, cached⟩ := taken
  have booted : Users.Booted ⟨binit staticCache, [], []⟩ :=
    ⟨staticCache, fun _ => ⟨rfl, rfl⟩, rfl⟩
  obtain ⟨_, _, unique, lookup, _⟩ :=
    bcache_integrity ((Run.start booted).snoc (@Users.Step.bget _ 7 _ _ _ _ (by decide) found))
  exact ⟨c, found, unique, lookup 1 5 0 (by decide) (by decide) cached⟩

end Xv6.Kernel.Bio
