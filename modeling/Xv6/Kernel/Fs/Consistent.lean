import Xv6.Kernel.Fs.Refs

/-!
Consistency of bitmap and inodes, and what an allocation for one inode changes.

Owns: the consistency invariant, the relation between the states before and
after `bmap`, the number of free blocks and what an allocation takes of it, and
the specification of `bmap`.

Does not own: freeing, and the contents of files.
-/

namespace Xv6.Kernel.Fs

open Xv6.Lib Function

variable {c : Codec}

/-- All block references of a state. -/
def FsState.refs (sb : Superblock) (s : FsState c) (slot : Nat × Nat) : Nat :=
  Fs.refs sb s.disk s.itable slot

/-- A `balloc` that returned a block returned a data block that no inode held. -/
def GoodEvent (sb : Superblock) : Event → Prop
  | .balloc disk itable b =>
    b ≠ 0 → b < sb.size ∧ sb.dataStart ≤ b ∧ ∀ slot, Fs.refs sb disk itable slot ≠ b
  | .logWrite _ => True

/-- The bitmap is exact for the references of all inodes, the table has one entry
for each inode in use, and all calls of `balloc` so far were good. -/
structure Consistent (sb : Superblock) (s : FsState c) : Prop where
  exact : Exact sb.size (fun b => b < sb.dataStart) (marked sb s.disk) (s.refs sb)
  one : OneEntry s.itable
  range : ∀ ip < nInode, 0 < (s.itable ip).ref → (s.itable ip).inum.toNat < sb.ninodes
  allocs : ∀ event ∈ s.trace, GoodEvent sb event

/-- Entry `ip` holds the allocated inode `i`. -/
structure Held (s : FsState c) (ip i : Nat) : Prop where
  loaded : Loaded s.itable ip i
  live : (s.itable ip).type ≠ 0

/-- Block `b` cannot be changed by an allocation for inode `i`: it is no bitmap
block, not free and not the inode's indirect block. -/
structure Settled (sb : Superblock) (s : FsState c) (i b : Nat) : Prop where
  notMap : ∀ x < sb.size, b ≠ sb.bblock x
  notFree : b < sb.size → marked sb s.disk b = true
  notIndirect : b ≠ s.refs sb (i, ndirect) ∨ b = 0

/-- What allocations for inode `i` in entry `ip` may have changed between two
states. -/
structure Grows (sb : Superblock) (ip i : Nat) (s t : FsState c) : Prop where
  consistent : Consistent sb t
  kmem : t.kmem = s.kmem
  cache : t.cache = s.cache
  codec : t.codec = s.codec
  user : t.user = s.user
  entries : ∀ ip' ≠ ip, t.itable ip' = s.itable ip'
  node : t.itable ip = { s.itable ip with addrs := (t.itable ip).addrs }
  trace : s.trace <+: t.trace
  kept : ∀ slot, s.refs sb slot ≠ 0 → t.refs sb slot = s.refs sb slot
  foreign : ∀ slot, slot.1 ≠ i → t.refs sb slot = s.refs sb slot
  fresh : ∀ slot, s.refs sb slot = 0 → t.refs sb slot ≠ 0 →
    marked sb s.disk (t.refs sb slot) = false
  marks : ∀ b < sb.size, marked sb s.disk b = true → marked sb t.disk b = true
  zeroed : ∀ slot, slot.2 ≠ ndirect → s.refs sb slot = 0 → t.refs sb slot ≠ 0 →
    t.disk (t.refs sb slot) = Buffer.fill 0
  blocks : ∀ b, Settled sb s i b → t.disk b = s.disk b
  unused : ∀ b < sb.size, marked sb s.disk b = false → marked sb t.disk b = false →
    t.disk b = s.disk b

section Basics

variable {sb : Superblock} {s t : FsState c} {ip i : Nat}

/-- A held block is a data block: no bitmap block, no inode block, not free. -/
theorem Consistent.data (consistent : Consistent sb s) {slot : Nat × Nat}
    (held : s.refs sb slot ≠ 0) :
    s.refs sb slot < sb.size ∧ sb.dataStart ≤ s.refs sb slot ∧
      marked sb s.disk (s.refs sb slot) = true := by
  obtain ⟨bound, unreserved⟩ := consistent.exact.bounded slot held
  exact ⟨bound, Nat.le_of_not_lt unreserved, consistent.exact.marked held⟩

theorem Consistent.inside (consistent : Consistent sb s) (loaded : Loaded s.itable ip i) :
    i < sb.ninodes := by
  obtain ⟨bound, ref, _, number⟩ := loaded
  exact number ▸ consistent.range ip bound ref

theorem Held.inside (held : Held s ip i) (consistent : Consistent sb s) : i < sb.ninodes :=
  consistent.inside held.loaded

theorem Held.refs_eq (held : Held s ip i) (consistent : Consistent sb s) (k : Nat) :
    s.refs sb (i, k) = nodeRef s.disk (s.itable ip).toDinode k :=
  refs_of_loaded consistent.one held.loaded (held.inside consistent) held.live k

theorem Held.grows (held : Held s ip i) (grows : Grows sb ip i s t) : Held t ip i := by
  obtain ⟨bound, ref, valid, number⟩ := held.loaded
  refine ⟨⟨bound, ?_, ?_, ?_⟩, ?_⟩ <;> rw [grows.node]
  · exact ref
  · exact valid
  · exact number
  · exact held.live

/-- Data blocks, other than the inode's own indirect block, are settled. -/
theorem Consistent.settled (consistent : Consistent sb s) (valid : sb.Valid) {slot : Nat × Nat}
    (held : s.refs sb slot ≠ 0) (other : slot ≠ (i, ndirect)) :
    Settled sb s i (s.refs sb slot) := by
  obtain ⟨_, data, marked⟩ := consistent.data held
  refine ⟨fun x bound same => ?_, fun _ => marked, .inl ?_⟩
  · exact absurd (valid.bblock_meta x bound) (by omega)
  · exact consistent.exact.ne held other

theorem Grows.refl (consistent : Consistent sb s) : Grows sb ip i s s where
  consistent := consistent
  kmem := rfl
  cache := rfl
  codec := rfl
  user := rfl
  entries := fun _ _ => rfl
  node := rfl
  trace := List.prefix_refl _
  kept := fun _ _ => rfl
  foreign := fun _ _ => rfl
  fresh := fun _ absent present => absurd absent present
  marks := fun _ _ marked => marked
  zeroed := fun _ _ absent present => absurd absent present
  blocks := fun _ _ => rfl
  unused := fun _ _ _ _ => rfl

/-- What is settled stays settled. -/
theorem Grows.settled (grows : Grows sb ip i s t) {b : Nat} (settled : Settled sb s i b) :
    Settled sb t i b := by
  refine ⟨settled.notMap, fun bound => grows.marks b bound (settled.notFree bound), ?_⟩
  by_cases zero : b = 0
  · exact .inr zero
  · refine .inl fun same => ?_
    by_cases old : s.refs sb (i, ndirect) = 0
    · have present : t.refs sb (i, ndirect) ≠ 0 := fun absent => zero (same.trans absent)
      have free := grows.fresh (i, ndirect) old present
      have bound := (grows.consistent.data present).1
      rw [← same] at free bound
      rw [settled.notFree bound] at free
      contradiction
    · rw [grows.kept _ old] at same
      exact settled.notIndirect.elim (fun other => other same) zero

theorem Grows.trans {u : FsState c} (valid : sb.Valid) (first : Grows sb ip i s t)
    (second : Grows sb ip i t u) : Grows sb ip i s u where
  consistent := second.consistent
  kmem := second.kmem.trans first.kmem
  cache := second.cache.trans first.cache
  codec := second.codec.trans first.codec
  user := second.user.trans first.user
  entries := fun ip' other => (second.entries ip' other).trans (first.entries ip' other)
  node := by
    rw [second.node, first.node]
  trace := first.trace.trans second.trace
  kept := by
    intro slot present
    have same := first.kept slot present
    rw [second.kept slot (same ▸ present), same]
  foreign := fun slot other => (second.foreign slot other).trans (first.foreign slot other)
  fresh := by
    intro slot absent present
    by_cases middle : t.refs sb slot = 0
    · have free := second.fresh slot middle present
      have bound := (second.consistent.data present).1
      by_contra taken
      rw [Bool.not_eq_false] at taken
      rw [first.marks _ bound taken] at free
      contradiction
    · rw [second.kept slot middle]
      exact first.fresh slot absent middle
  marks := fun b bound marked => second.marks b bound (first.marks b bound marked)
  zeroed := by
    intro slot isData absent present
    by_cases middle : t.refs sb slot = 0
    · exact second.zeroed slot isData middle present
    · have other : slot ≠ (i, ndirect) := fun same => isData (by rw [same])
      rw [second.kept slot middle, second.blocks _ (first.consistent.settled valid middle other)]
      exact first.zeroed slot isData absent middle
  blocks := by
    intro b settled
    rw [second.blocks b (first.settled settled), first.blocks b settled]
  unused := by
    intro b bound free after
    have between : marked sb t.disk b = false := by
      by_contra taken
      rw [second.marks b bound (Bool.eq_true_of_not_eq_false taken)] at after
      contradiction
    rw [second.unused b bound between after, first.unused b bound free between]

end Basics

/-! ### One allocation -/

section Allocation

variable {sb : Superblock} {s t : FsState c} {ip i k r : Nat}

/-- An unmarked block is a data block that no inode holds. -/
theorem Consistent.unmarked (consistent : Consistent sb s) (bound : r < sb.size)
    (clear : marked sb s.disk r = false) :
    r ≠ 0 ∧ sb.dataStart ≤ r ∧ ∀ slot, s.refs sb slot ≠ r := by
  obtain ⟨unreserved, unheld⟩ := consistent.exact.unmarked bound clear
  exact ⟨consistent.exact.unmarked_ne_zero bound clear, Nat.le_of_not_lt unreserved, unheld⟩

theorem refs_allocated (valid : sb.Valid) (consistent : Consistent sb s) (bound : r < sb.size)
    (clear : marked sb s.disk r = false) :
    Fs.refs sb (allocated sb s.disk r) s.itable = s.refs sb := by
  obtain ⟨_, data, unheld⟩ := consistent.unmarked bound clear
  apply refs_disk
  · intro j inside
    apply dinode_congr
    apply allocated_other
    · exact fun same => absurd (valid.iblock_meta j inside) (by omega)
    · exact valid.iblock_ne_bblock j inside r bound
  · intro j present
    have isData := (@Consistent.data c sb s consistent (j, ndirect) present).2.1
    apply allocated_other
    · exact unheld (j, ndirect)
    · intro same
      have := valid.bblock_meta r bound
      have : sb.dataStart ≤ sb.bblock r := same ▸ isData
      omega

theorem Held.entries_zero (held : Held s ip i) (consistent : Consistent sb s)
    (absent : (s.itable ip).addrs indirectIndex = 0) {j : Nat} (inside : j < nindirect) :
    s.refs sb (i, ndirect + 1 + j) = 0 := by
  rw [held.refs_eq consistent, nodeRef_entry inside, if_pos absent]

theorem grows_of_alloc (valid : sb.Valid) (consistent : Consistent sb s) (bound : r < sb.size)
    (clear : marked sb s.disk r = false) (empty : s.refs sb (i, k) = 0)
    (refs : t.refs sb = update (s.refs sb) (i, k) r)
    (marks : ∀ b < sb.size, marked sb t.disk b = (marked sb s.disk b || decide (b = r)))
    (one : OneEntry t.itable)
    (range : ∀ ip < nInode, 0 < (t.itable ip).ref → (t.itable ip).inum.toNat < sb.ninodes)
    (kmem : t.kmem = s.kmem) (cache : t.cache = s.cache) (codec : t.codec = s.codec)
    (user : t.user = s.user) (entries : ∀ ip' ≠ ip, t.itable ip' = s.itable ip')
    (node : t.itable ip = { s.itable ip with addrs := (t.itable ip).addrs })
    (trace : s.trace <+: t.trace) (allocs : ∀ event ∈ t.trace, GoodEvent sb event)
    (zeroed : k ≠ ndirect → t.disk r = Buffer.fill 0)
    (blocks : ∀ b, (∀ x < sb.size, b ≠ sb.bblock x) → b ≠ s.refs sb (i, ndirect) ∨ b = 0 →
      b ≠ r → t.disk b = s.disk b) : Grows sb ip i s t := by
  have isNew : ∀ slot, s.refs sb slot = 0 → t.refs sb slot ≠ 0 → slot = (i, k) := by
    intro slot absent present
    by_contra other
    rw [refs, update_of_ne other] at present
    exact present absent
  refine ⟨⟨?_, one, range, allocs⟩, kmem, cache, codec, user, entries, node, trace, ?_, ?_, ?_, ?_,
    ?_, ?_, ?_⟩
  · rw [refs]
    exact (consistent.exact.alloc bound clear empty).congr marks
  · intro slot present
    have other : slot ≠ (i, k) := fun same => present (same ▸ empty)
    rw [refs, update_of_ne other]
  · intro slot other
    rw [refs, update_of_ne fun same => other (by rw [same])]
  · intro slot absent present
    rw [isNew slot absent present, refs, update_self]
    exact clear
  · intro b bBound isMarked
    rw [marks b bBound, isMarked, Bool.true_or]
  · intro slot isData absent present
    have same := isNew slot absent present
    rw [same, refs, update_self]
    exact zeroed (by rw [same] at isData; exact isData)
  · intro b settled
    refine blocks b settled.notMap settled.notIndirect fun same => ?_
    have isMarked := settled.notFree (same ▸ bound)
    rw [same, clear] at isMarked
    contradiction
  · intro b bBound free after
    obtain ⟨_, isData, unheld⟩ := consistent.unmarked bBound free
    refine blocks b (fun x xBound same => ?_) (.inl (unheld _).symm) fun same => ?_
    · exact absurd (valid.bblock_meta x xBound) (by omega)
    · rw [marks b bBound, decide_eq_true same, Bool.or_true] at after
      contradiction

theorem goodEvent_balloc (consistent : Consistent sb s) (bound : r < sb.size)
    (clear : marked sb s.disk r = false) : GoodEvent sb (.balloc s.disk s.itable r) := by
  obtain ⟨_, data, unheld⟩ := consistent.unmarked bound clear
  exact fun _ => ⟨bound, data, unheld⟩

theorem grows_of_full (consistent : Consistent sb s) :
    Grows sb ip i s { s with trace := s.trace ++ [.balloc s.disk s.itable 0] } := by
  refine { Grows.refl consistent with consistent := ?_, trace := List.prefix_append _ _ }
  refine ⟨consistent.exact, consistent.one, consistent.range, ?_⟩
  intro event member
  rcases List.mem_append.mp member with old | new
  · exact consistent.allocs event old
  · rw [List.mem_singleton.mp new]
    exact fun present => absurd rfl present

/-- Some `balloc` found no free block. -/
def OutOfBlocks (s : FsState c) : Prop := ∃ disk itable, .balloc disk itable 0 ∈ s.trace

/-- A `balloc` that found no free block. -/
def Event.failed : Event → Bool
  | balloc _ _ b => b == 0
  | logWrite _ => false

theorem exists_failed_iff {events : List Event} :
    (∃ event ∈ events, event.failed = true) ↔ ∃ disk itable, .balloc disk itable 0 ∈ events := by
  constructor
  · rintro ⟨event, member, failed⟩
    cases event with
    | balloc disk itable b => exact ⟨disk, itable, beq_iff_eq.mp failed ▸ member⟩
    | logWrite b => cases failed
  · rintro ⟨disk, itable, member⟩
    exact ⟨_, member, rfl⟩

instance : Decidable (OutOfBlocks s) := decidable_of_iff _ exists_failed_iff

end Allocation

/-! ### Free blocks -/

/-- The number of blocks whose bit is clear. -/
def freeBlocks (sb : Superblock) (disk : Disk) : Nat :=
  ((Finset.range sb.size).filter fun b => marked sb disk b = false).card

section FreeBlocks

variable {sb : Superblock} {disk disk' : Disk} {r : Nat}

theorem freeBlocks_congr (same : ∀ b < sb.size, marked sb disk' b = marked sb disk b) :
    freeBlocks sb disk' = freeBlocks sb disk := by
  unfold freeBlocks
  congr 1
  refine Finset.filter_congr fun b member => ?_
  rw [same b (Finset.mem_range.mp member)]

theorem freeBlocks_full (full : ∀ b < sb.size, marked sb disk b = true) :
    freeBlocks sb disk = 0 := by
  unfold freeBlocks
  rw [Finset.card_eq_zero]
  refine Finset.filter_eq_empty_iff.mpr fun b member => ?_
  rw [full b (Finset.mem_range.mp member)]
  exact Bool.noConfusion

theorem freeBlocks_allocated (valid : sb.Valid) (bound : r < sb.size) (data : sb.dataStart ≤ r)
    (clear : marked sb disk r = false) :
    freeBlocks sb (allocated sb disk r) + 1 = freeBlocks sb disk := by
  have member : r ∈ (Finset.range sb.size).filter fun b => marked sb disk b = false :=
    Finset.mem_filter.mpr ⟨Finset.mem_range.mpr bound, clear⟩
  have rest : ((Finset.range sb.size).filter fun b => marked sb (allocated sb disk r) b = false) =
      ((Finset.range sb.size).filter fun b => marked sb disk b = false).erase r := by
    ext b
    rw [Finset.mem_erase, Finset.mem_filter, Finset.mem_filter, Finset.mem_range]
    constructor
    · rintro ⟨inside, unmarked⟩
      rw [marked_allocated valid data inside, Bool.or_eq_false_iff, decide_eq_false_iff_not]
        at unmarked
      exact ⟨unmarked.2, inside, unmarked.1⟩
    · rintro ⟨other, inside, unmarked⟩
      refine ⟨inside, ?_⟩
      rw [marked_allocated valid data inside, unmarked, decide_eq_false other]
      rfl
  unfold freeBlocks
  rw [rest, Finset.card_erase_of_mem member]
  exact Nat.sub_add_cancel (Finset.card_pos.mpr ⟨r, member⟩)

end FreeBlocks

/-! ### Failed allocations -/

/-- Between two states of a call, some `balloc` found no free block. -/
def FailedSince (s t : FsState c) : Prop :=
  ∃ disk itable, .balloc disk itable 0 ∈ t.trace.drop s.trace.length

section FailedSince

variable {s t u : FsState c}

instance : Decidable (FailedSince s t) := decidable_of_iff _ exists_failed_iff

theorem failedSince_append {events : List Event} (trace : t.trace = s.trace ++ events) :
    FailedSince s t ↔ ∃ disk itable, .balloc disk itable 0 ∈ events := by
  unfold FailedSince
  rw [trace, List.drop_left]

theorem not_failedSince {events : List Event} (trace : t.trace = s.trace ++ events)
    (found : ∀ disk itable, .balloc disk itable 0 ∉ events) : ¬ FailedSince s t := by
  rw [failedSince_append trace]
  rintro ⟨disk, itable, member⟩
  exact found disk itable member

theorem failedSince_trans (first : s.trace <+: t.trace) (second : t.trace <+: u.trace) :
    FailedSince s u ↔ FailedSince s t ∨ FailedSince t u := by
  obtain ⟨early, isEarly⟩ := first
  obtain ⟨late, isLate⟩ := second
  have both : u.trace = s.trace ++ (early ++ late) := by rw [← List.append_assoc, isEarly, isLate]
  rw [failedSince_append both, failedSince_append isEarly.symm, failedSince_append isLate.symm]
  simp only [List.mem_append, exists_or]

theorem FailedSince.outOfBlocks (failed : FailedSince s t) : OutOfBlocks t := by
  obtain ⟨disk, itable, member⟩ := failed
  exact ⟨disk, itable, List.mem_of_mem_drop member⟩

theorem failedSince_logWrite {b : Nat} (first : s.trace <+: t.trace)
    (trace : u.trace = t.trace ++ [.logWrite b]) : FailedSince s u ↔ FailedSince s t := by
  rw [failedSince_trans first (trace ▸ List.prefix_append _ _), or_iff_left]
  exact not_failedSince trace fun disk itable member => by simp at member

end FailedSince

/-! ### `bmap` -/

/-- A call that needed `cost` blocks: it got them, or there were fewer and it
returned 0. -/
def Paid (sb : Superblock) (s : FsState c) (cost : Nat) (b : UInt32) (t : FsState c) : Prop :=
  (b ≠ 0 ∧ ¬ FailedSince s t ∧ freeBlocks sb t.disk + cost = freeBlocks sb s.disk) ∨
    (b = 0 ∧ FailedSince s t ∧ freeBlocks sb s.disk < cost)

/-- The blocks that inode `i` lacks for the blocks `blocks` of its file, the indirect
block among them. -/
def missing (refs : Nat × Nat → Nat) (i : Nat) (blocks : Finset Nat) : Nat :=
  (if (∃ bn ∈ blocks, ndirect ≤ bn) ∧ refs (i, ndirect) = 0 then 1 else 0) +
    (blocks.filter fun bn => refs (i, dataSlot bn) = 0).card

section Bmap

variable {sb : Superblock} {s t : FsState c} {ip i : Nat}

/-- What `bmap` and its parts promise for the reference `k` they return. -/
structure Provides (sb : Superblock) (ip i k : Nat) (s : FsState c) (b : UInt32) (t : FsState c) :
    Prop where
  grows : Grows sb ip i s t
  result : b.toNat = t.refs sb (i, k)
  failed : b = 0 → OutOfBlocks t
  only : ∀ slot, slot ≠ (i, k) → slot ≠ (i, ndirect) → t.refs sb slot = s.refs sb slot

theorem toNat_ofNat_of_lt_size (valid : sb.Valid) {r : Nat} (bound : r < sb.size) :
    (UInt32.ofNat r).toNat = r :=
  UInt32.toNat_ofNat_of_lt' (Nat.lt_of_lt_of_le bound (Nat.le_trans valid.small (by decide)))

theorem missing_single (refs : Nat × Nat → Nat) (bn : Nat) :
    missing refs i {bn} = (if ndirect ≤ bn ∧ refs (i, ndirect) = 0 then 1 else 0) +
      if refs (i, dataSlot bn) = 0 then 1 else 0 := by
  unfold missing
  rw [Finset.filter_singleton]
  simp only [Finset.mem_singleton, exists_eq_left]
  congr 1
  split_ifs <;> rfl

theorem balloc_paid (valid : sb.Valid) (consistent : Consistent sb s)
    (post : UInt32 → FsState c → Prop) (stop : Stop → FsState c → Prop)
    (found : ∀ r < sb.size, marked sb s.disk r = false → UInt32.ofNat r ≠ 0 →
      Paid sb s 1 (UInt32.ofNat r) { s with
        disk := allocated sb s.disk r
        trace := s.trace ++ [.logWrite (sb.bblock r)] ++ [.logWrite r] ++
          [.balloc s.disk s.itable r] } →
      post (UInt32.ofNat r) { s with
        disk := allocated sb s.disk r
        trace := s.trace ++ [.logWrite (sb.bblock r)] ++ [.logWrite r] ++
          [.balloc s.disk s.itable r] })
    (full : Paid sb s 1 0 { s with trace := s.trace ++ [.balloc s.disk s.itable 0] } →
      post 0 { s with trace := s.trace ++ [.balloc s.disk s.itable 0] }) :
    wp (balloc sb) s post stop := by
  refine balloc_spec valid.word _ _ ?_ ?_
  · intro r bound clear
    obtain ⟨notZero, data, _⟩ := consistent.unmarked bound clear
    have isSome : UInt32.ofNat r ≠ 0 := by
      intro zero
      have number := congrArg UInt32.toNat zero
      rw [toNat_ofNat_of_lt_size valid bound] at number
      exact notZero number
    have trace : s.trace ++ [.logWrite (sb.bblock r)] ++ [.logWrite r] ++
        [.balloc s.disk s.itable r] = s.trace ++ [.logWrite (sb.bblock r), .logWrite r,
          .balloc s.disk s.itable
            r] := by simp only [List.append_assoc, List.cons_append, List.nil_append]
    refine found r bound clear isSome (.inl ⟨isSome, ?_, ?_⟩)
    · refine not_failedSince trace fun disk itable member => ?_
      simp only [List.mem_cons, List.not_mem_nil, or_false, reduceCtorEq, false_or,
        Event.balloc.injEq] at member
      exact notZero member.2.2.symm
    · exact freeBlocks_allocated valid bound data clear
  · intro all
    refine full (.inr ⟨rfl, ?_, ?_⟩)
    · exact (failedSince_append rfl).mpr ⟨s.disk, s.itable, List.mem_singleton_self _⟩
    · rw [freeBlocks_full all]
      exact Nat.zero_lt_one

theorem Paid.failed {cost : Nat} {b : UInt32} (paid : Paid sb s cost b t) (zero : b = 0) :
    FailedSince s t := by
  obtain ⟨notZero, -⟩ | ⟨-, failed, -⟩ := paid
  · exact absurd zero notZero
  · exact failed

/-- A `log_write` outside the bitmap takes nothing. -/
theorem Paid.logWrite {cost e : Nat} {b : UInt32} {u : FsState c} (paid : Paid sb s cost b t)
    (marks : ∀ x < sb.size, marked sb u.disk x = marked sb t.disk x) (early : s.trace <+: t.trace)
    (trace : u.trace = t.trace ++ [.logWrite e]) : Paid sb s cost b u := by
  unfold Paid
  rw [failedSince_logWrite early trace, freeBlocks_congr marks]
  exact paid

/-- Two parts of a call, the second of which runs if the first got its blocks. -/
theorem Paid.trans {first second : Nat} {a b : UInt32} {u : FsState c}
    (before : Paid sb s first a t)
    (isSome : a ≠ 0) (after : Paid sb t second b u) (early : s.trace <+: t.trace)
    (late : t.trace <+: u.trace) : Paid sb s (first + second) b u := by
  rcases before with ⟨_, found, taken⟩ | ⟨isNone, _⟩
  · rcases after with ⟨present, alsoFound, alsoTaken⟩ | ⟨absent, failed, few⟩
    · refine .inl ⟨present, ?_, by omega⟩
      rw [failedSince_trans early late]
      exact not_or.mpr ⟨found, alsoFound⟩
    · refine .inr ⟨absent, ?_, by omega⟩
      rw [failedSince_trans early late]
      exact .inr failed
  · exact absurd isNone isSome

theorem allocs_append {events : List Event} (consistent : Consistent sb s)
    (good : ∀ event ∈ events, GoodEvent sb event) :
    ∀ event ∈ s.trace ++ events, GoodEvent sb event := by
  intro event member
  rcases List.mem_append.mp member with old | new
  · exact consistent.allocs event old
  · exact good event new

theorem grows_setAddr (valid : sb.Valid) (consistent : Consistent sb s) (held : Held s ip i)
    (k : Fin (ndirect + 1)) (empty : (s.itable ip).addrs k = 0) {r : Nat} (bound : r < sb.size)
    (clear : marked sb s.disk r = false) {events : List Event}
    (good : ∀ event ∈ events, GoodEvent sb event) :
    let t : FsState c := { s with
      disk := allocated sb s.disk r
      itable := update s.itable ip { s.itable ip with
        addrs := update (s.itable ip).addrs k (UInt32.ofNat r) }
      trace := s.trace ++ events }
    Provides sb ip i k s (UInt32.ofNat r) t ∧ ∀ slot ≠ (i, (k : Nat)),
      t.refs sb slot = s.refs sb slot := by
  obtain ⟨notZero, data, unheld⟩ := consistent.unmarked bound clear
  have number := toNat_ofNat_of_lt_size valid bound
  have inside := held.inside consistent
  have wasEmpty : s.refs sb (i, k) = 0 := by
    rw [held.refs_eq consistent, nodeRef_addrs, empty]
    rfl
  have sameRefs := refs_allocated valid consistent bound clear
  have newRefs : Fs.refs sb (allocated sb s.disk r) (update s.itable ip { s.itable ip with
        addrs := update (s.itable ip).addrs k (UInt32.ofNat r) }) =
      update (s.refs sb) (i, (k : Nat)) r := by
    funext slot
    have old : ∀ m, nodeRef (allocated sb s.disk r) (s.itable ip).toDinode m =
        s.refs sb (i, m) := by
      intro m
      rw [← congrFun sameRefs (i, m)]
      exact (refs_of_loaded consistent.one held.loaded inside held.live m).symm
    rw [refs_update consistent.one held.loaded inside held.live]
    · by_cases same : slot.1 = i
      · rw [if_pos same]
        have stored := @nodeRef_setAddr (allocated sb s.disk r)
          (s.itable ip).toDinode k (UInt32.ofNat r) (by
            intro isIndirect j jInside
            refine ⟨fun _ => ?_, ?_⟩
            · rw [number, allocated_self]
              exact entry_zero j
            · rw [old]
              exact held.entries_zero consistent (isIndirect ▸ empty) jInside) slot.2
        rw [number] at stored
        refine stored.trans ?_
        by_cases isK : slot.2 = k
        · rw [if_pos isK, show slot = (i, (k : Nat)) from Prod.ext same isK, update_self]
        · rw [if_neg isK, old, update_of_ne fun equal => isK (by rw [equal])]
          exact congrArg _ (Prod.ext same.symm rfl)
      · rw [if_neg same, update_of_ne fun equal => same (by rw [equal])]
        exact congrFun sameRefs slot
    all_goals rfl
  have others : ∀ slot ≠ (i, (k : Nat)), _ = s.refs sb slot := fun slot other =>
    (congrFun newRefs slot).trans (update_of_ne other _ _)
  refine ⟨⟨?_, ?_, ?_, fun slot other _ => others slot other⟩, others⟩
  · refine grows_of_alloc valid consistent bound clear wasEmpty newRefs ?_ ?_ ?_ rfl
      rfl rfl rfl ?_ ?_
      (List.prefix_append _ _) (allocs_append consistent good) (fun _ => allocated_self) ?_
    · exact fun b bBound => marked_allocated valid data bBound
    · exact consistent.one.update rfl rfl
    · intro ip' entry
      by_cases same : ip' = ip
      · rw [same]
        simp only [update_self]
        exact fun ref => consistent.range ip (same ▸ entry) ref
      · simp only [update_of_ne same]
        exact consistent.range ip' entry
    · exact fun ip' other => update_of_ne other _ _
    · simp only [update_self]
    · exact fun b notMap _ other => allocated_other other (notMap r bound)
  · rw [number]
    exact ((congrFun newRefs (i, (k : Nat))).trans (update_self _ _ _)).symm
  · intro zero
    exact absurd (number.symm.trans (congrArg UInt32.toNat zero)) notZero

theorem inodeAddr_spec (valid : sb.Valid) (consistent : Consistent sb s) (held : Held s ip i)
    (k : Fin (ndirect + 1)) :
    wp (inodeAddr sb ip k) s (fun b t => Provides sb ip i k s b t ∧
        Paid sb s (if s.refs sb (i, k) = 0 then 1 else 0) b t ∧
        ∀ slot ≠ (i, (k : Nat)), t.refs sb slot = s.refs sb slot) fun _ _ => False := by
  have isAddr : s.refs sb (i, k) = ((s.itable ip).addrs k).toNat := by
    rw [held.refs_eq consistent, nodeRef_addrs]
  unfold inodeAddr
  rw [wp_bind, wp_get, wp_ite]
  by_cases empty : (s.itable ip).addrs k = 0
  · have absent : s.refs sb (i, k) = 0 := by
      rw [isAddr, empty]
      rfl
    rw [if_pos empty, wp_bind, if_pos absent]
    refine balloc_paid valid consistent _ _ ?_ ?_
    · intro r bound clear notZero paid
      rw [wp_ite, if_neg notZero]
      simp only [modifyInode, wp_bind, wp_modify, wp_pure, List.append_assoc]
      refine (and_left_comm.mp ⟨?_, grows_setAddr valid consistent held k empty bound clear ?_⟩)
      · simp only [List.append_assoc] at paid
        exact paid
      · intro event member
        simp only [List.mem_append, List.mem_singleton] at member
        rcases member with rfl | rfl | rfl
        · trivial
        · trivial
        · exact goodEvent_balloc consistent bound clear
    · intro paid
      rw [wp_ite, if_pos rfl]
      exact ⟨⟨grows_of_full consistent, absent.symm,
        fun _ => ⟨s.disk, s.itable, List.mem_append_right _ (List.mem_singleton_self _)⟩,
        fun _ _ _ => rfl⟩, paid, fun _ _ => rfl⟩
  · rw [if_neg empty, if_neg (by rw [isAddr]; exact fun zero => empty (UInt32.toNat_inj.mp zero))]
    refine ⟨⟨Grows.refl consistent, isAddr.symm, fun zero => absurd zero empty, fun _ _ _ => rfl⟩,
      .inl ⟨empty, ?_, rfl⟩, fun _ _ => rfl⟩
    exact not_failedSince (List.append_nil _).symm fun _ _ => List.not_mem_nil

theorem grows_setEntry (valid : sb.Valid) (consistent : Consistent sb s) (held : Held s ip i)
    {j : Nat} (inside : j < nindirect) (present : s.refs sb (i, ndirect) ≠ 0)
    (empty : s.refs sb (i, ndirect + 1 + j) = 0) {r : Nat} (bound : r < sb.size)
    (clear : marked sb s.disk r = false) {events : List Event}
    (good : ∀ event ∈ events, GoodEvent sb event) :
    Provides sb ip i (ndirect + 1 + j) s (UInt32.ofNat r) { s with
      disk := update (allocated sb s.disk r) (s.refs sb (i, ndirect))
        ((s.disk (s.refs sb (i, ndirect))).set32 (4 * j) (UInt32.ofNat r))
      trace := s.trace ++ events } := by
  obtain ⟨notZero, data, unheld⟩ := consistent.unmarked bound clear
  obtain ⟨indirectBound, indirectData, indirectMarked⟩ := consistent.data present
  have number := toNat_ofNat_of_lt_size valid bound
  have iInside := held.inside consistent
  have indirectRef : s.refs sb (i, ndirect) = ((s.itable ip).addrs indirectIndex).toNat := by
    rw [held.refs_eq consistent, nodeRef_indirect]
  have notMap : ∀ x < sb.size, s.refs sb (i, ndirect) ≠ sb.bblock x := fun x xBound same =>
    absurd (valid.bblock_meta x xBound) (by omega)
  -- the state after `balloc`, before the entry is stored
  have sameRefs := refs_allocated valid consistent bound clear
  have unchanged : allocated sb s.disk r (s.refs sb (i, ndirect)) =
      s.disk (s.refs sb (i, ndirect)) :=
    allocated_other (unheld _) (notMap r bound)
  have newRefs : Fs.refs sb (update (allocated sb s.disk r) (s.refs sb (i, ndirect))
        ((s.disk (s.refs sb (i, ndirect))).set32 (4 * j) (UInt32.ofNat r))) s.itable =
      update (s.refs sb) (i, ndirect + 1 + j) r := by
    funext slot
    obtain ⟨j', k⟩ := slot
    by_cases same : j' = i
    · subst same
      rw [refs_of_loaded consistent.one held.loaded iInside held.live, ← unchanged, indirectRef,
        nodeRef_setEntry inside fun zero => present (by rw [indirectRef, zero]; rfl), number]
      by_cases isK : k = ndirect + 1 + j
      · rw [if_pos isK, isK, update_self]
      · rw [if_neg isK, update_of_ne fun equal => isK (congrArg Prod.snd equal),
          ← congrFun sameRefs (j', k)]
        exact (refs_of_loaded consistent.one held.loaded iInside held.live k).symm
    · rw [update_of_ne fun equal => same (congrArg Prod.fst equal),
        ← congrFun sameRefs (j', k)]
      refine refs_update_disk ?_ _ ?_ k
      · intro l lInside isInode
        have := valid.iblock_meta l lInside
        omega
      · rw [congrFun sameRefs (j', ndirect)]
        exact fun held' => consistent.exact.ne held' fun equal => same (congrArg Prod.fst equal)
  refine ⟨?_, ?_, ?_, ?_⟩
  · refine grows_of_alloc valid consistent bound clear empty newRefs ?_ consistent.one
      consistent.range
      rfl rfl rfl rfl (fun _ _ => rfl) rfl (List.prefix_append _ _)
      (allocs_append consistent good) ?_ ?_
    · intro b bBound
      rw [← marked_allocated valid data bBound]
      exact marked_congr (update_of_ne (notMap b bBound).symm _ _)
    · intro _
      exact (update_of_ne (unheld _).symm _ _).trans allocated_self
    · intro b isNoMap apart other
      have notIndirect : b ≠ s.refs sb (i, ndirect) := by
        rcases apart with different | zero
        · exact different
        · exact fun same => present (same.symm.trans zero)
      refine (update_of_ne notIndirect _ _).trans ?_
      exact allocated_other other (isNoMap r bound)
  · rw [number]
    exact ((congrFun newRefs _).trans (update_self _ _ _)).symm
  · intro zero
    exact absurd (number.symm.trans (congrArg UInt32.toNat zero)) notZero
  · intro slot other _
    exact (congrFun newRefs slot).trans (update_of_ne other _ _)

/-- `bmap` finds or allocates the block, or reports that there is none. -/
theorem bmap_paid (valid : sb.Valid) (consistent : Consistent sb s) (held : Held s ip i) {bn : Nat}
    (inside : bn < maxFile) :
    wp (bmap sb ip bn) s (fun b t => Provides sb ip i (dataSlot bn) s b t ∧
        Paid sb s (missing (s.refs sb) i {bn}) b t ∧
        (bn < ndirect → t.refs sb (i, ndirect) = s.refs sb (i, ndirect))) fun _ _ => False := by
  rw [missing_single]
  unfold bmap
  by_cases direct : bn < ndirect
  · have noIndirect : ¬ (ndirect ≤ bn ∧ s.refs sb (i, ndirect) = 0) := fun both =>
      absurd direct (Nat.not_lt.mpr both.1)
    rw [dif_pos direct, dataSlot, if_pos direct, if_neg noIndirect, Nat.zero_add]
    refine wp_mono (inodeAddr_spec valid consistent held ⟨bn, Nat.lt_succ_of_lt direct⟩) ?_
      fun _ _ absurd => absurd
    rintro b t ⟨provided, paid, others⟩
    exact ⟨provided, paid, fun _ => others _ fun same => Nat.ne_of_gt direct
      (congrArg Prod.snd same)⟩
  · have jInside : bn - ndirect < nindirect := by
      unfold maxFile at inside
      omega
    have past : ndirect ≤ bn := Nat.not_lt.mp direct
    rw [dif_neg direct, wp_ite, if_pos jInside, wp_bind, dataSlot_indirect direct]
    simp only [past, true_and, direct, false_implies, and_true]
    generalize bn - ndirect = j at *
    refine wp_mono (inodeAddr_spec valid consistent held indirectIndex) ?_ fun _ _ absurd => absurd
    rintro indirect t ⟨provided, paid, others⟩
    have grown := provided.grows
    have consistent' := grown.consistent
    have held' := held.grows grown
    have isIndirect : indirect.toNat = t.refs sb (i, ndirect) := provided.result
    have isAddr : t.refs sb (i, ndirect) = ((t.itable ip).addrs indirectIndex).toNat := by
      rw [held'.refs_eq consistent', nodeRef_indirect]
    have same : indirect = (t.itable ip).addrs indirectIndex :=
      UInt32.toNat_inj.mp (isIndirect.trans isAddr)
    have others' : ∀ slot, slot ≠ (i, ndirect + 1 + j) → slot ≠ (i, ndirect) →
        t.refs sb slot = s.refs sb slot := fun slot _ other => others slot other
    have sameEntry : t.refs sb (i, ndirect + 1 + j) = s.refs sb (i, ndirect + 1 + j) := by
      refine others _ fun equal => ?_
      have : ndirect + 1 + j = ndirect := congrArg Prod.snd equal
      omega
    rw [wp_ite]
    by_cases zero : indirect = 0
    · rw [if_pos zero, wp_pure]
      have isNone := held'.entries_zero consistent' (same ▸ zero) jInside
      refine ⟨⟨grown, isNone.symm, fun _ => provided.failed zero, others'⟩, ?_⟩
      rcases paid with ⟨present, _⟩ | ⟨_, failed, few⟩
      · exact absurd zero present
      · exact .inr ⟨rfl, failed, Nat.lt_of_lt_of_le few (Nat.le_add_right _ _)⟩
    · have present : t.refs sb (i, ndirect) ≠ 0 := by
        rw [← isIndirect]
        exact fun isZero => zero (UInt32.toNat_inj.mp isZero)
      have entryRef : t.refs sb (i, ndirect + 1 + j) =
          (entry (t.disk (t.refs sb (i, ndirect))) j).toNat := by
        rw [held'.refs_eq consistent' (ndirect + 1 + j), nodeRef_entry jInside,
          if_neg (same ▸ zero), isAddr]
      rw [if_neg zero, ← sameEntry]
      simp only [bread, wp_bind, wp_get, wp_pure, wp_ite]
      rw [isIndirect]
      by_cases empty : entry (t.disk (t.refs sb (i, ndirect))) j = 0
      · have wasEmpty : t.refs sb (i, ndirect + 1 + j) = 0 := by
          rw [entryRef, empty]
          rfl
        rw [if_pos empty, if_pos wasEmpty]
        refine balloc_paid valid consistent' _ _ ?_ ?_
        · intro r bound clear notZero after
          rw [if_neg notZero]
          simp only [logWrite, setBuffer, note, wp_bind, wp_modify, List.append_assoc] at after ⊢
          have good : ∀ event ∈ [.logWrite (sb.bblock r)] ++ ([.logWrite r] ++
              ([.balloc t.disk t.itable r] ++ [.logWrite (t.refs sb (i, ndirect))])),
              GoodEvent sb event := by
            intro event member
            simp only [List.mem_append, List.mem_singleton] at member
            rcases member with rfl | rfl | rfl | rfl
            · trivial
            · trivial
            · exact goodEvent_balloc consistent' bound clear
            · trivial
          have stored :=
            grows_setEntry valid consistent' held' jInside present wasEmpty bound clear good
          refine ⟨⟨grown.trans valid stored.grows, stored.result, stored.failed, ?_⟩,
            paid.trans zero (after.logWrite (e := t.refs sb (i, ndirect)) ?_
              (List.prefix_append _ _) ?_)
              grown.trace (List.prefix_append _ _)⟩
          · intro slot isOther notIndirect
            rw [stored.only slot isOther notIndirect, others slot notIndirect]
          · intro b bBound
            refine marked_congr (update_of_ne (fun isMap => ?_) _ _)
            have := valid.bblock_meta b bBound
            have := (consistent'.data present).2.1
            omega
          · simp only [List.append_assoc]
        · intro after
          rw [if_pos rfl]
          exact ⟨⟨grown.trans valid (grows_of_full consistent'), wasEmpty.symm, fun _ =>
            ⟨t.disk, t.itable, List.mem_append_right _ (List.mem_singleton_self _)⟩, others'⟩,
            paid.trans zero after grown.trace (List.prefix_append _ _)⟩
      · have wasSome : t.refs sb (i, ndirect + 1 + j) ≠ 0 := by
          rw [entryRef]
          exact fun isZero => empty (UInt32.toNat_inj.mp isZero)
        rw [if_neg empty, if_neg wasSome, Nat.add_zero]
        refine ⟨⟨grown, entryRef.symm, fun isZero => absurd isZero empty, others'⟩, ?_⟩
        rcases paid with ⟨_, found, taken⟩ | ⟨isNone, _⟩
        · exact .inl ⟨empty, found, taken⟩
        · exact absurd isNone zero

/-- A block that inode `i` does not hold then, it did not hold before. -/
theorem Grows.notOwn (grows : Grows sb ip i s t) {b : Nat}
    (notOwn : b = 0 ∨ ∀ k, b ≠ t.refs sb (i, k)) :
    b = 0 ∨ ∀ k, b ≠ s.refs sb (i, k) := by
  by_cases zero : b = 0
  · exact .inl zero
  · refine .inr fun k same => notOwn.resolve_left zero k ?_
    rw [grows.kept _ (same ▸ zero)]
    exact same

/-- A block that is no bitmap block, and that inode `i` does not hold then, is not changed. -/
theorem Grows.disk_eq (grows : Grows sb ip i s t) (consistent : Consistent sb s) {b : Nat}
    (notMap : ∀ x < sb.size, b ≠ sb.bblock x) (notOwn : b = 0 ∨ ∀ k, b ≠ t.refs sb (i, k)) :
    t.disk b = s.disk b := by
  by_cases free : b < sb.size ∧ marked sb s.disk b = false
  · obtain ⟨notZero, isData, unheld⟩ := consistent.unmarked free.1 free.2
    refine grows.unused b free.1 free.2 ?_
    by_contra taken
    obtain reserved | ⟨slot, holds⟩ :=
      (grows.consistent.exact.exact b free.1).mp (Bool.eq_true_of_not_eq_false taken)
    · omega
    · by_cases mine : slot.1 = i
      · exact (notOwn.resolve_left notZero) slot.2 (mine ▸ holds.symm)
      · rw [grows.foreign slot mine] at holds
        exact unheld slot holds
  · refine grows.blocks b ⟨notMap, fun bound => ?_, ?_⟩
    · exact Bool.eq_true_of_not_eq_false fun isFree => free ⟨bound, isFree⟩
    · exact (grows.notOwn notOwn).symm.imp_left fun foreign => foreign ndirect

theorem bmap_spec (valid : sb.Valid) (consistent : Consistent sb s) (held : Held s ip i) {bn : Nat}
    (inside : bn < maxFile) :
    wp (bmap sb ip bn) s (fun b t => Provides sb ip i (dataSlot bn) s b t) fun _ _ => False :=
  wp_mono (bmap_paid valid consistent held inside) (fun _ _ both => both.1) fun _ _ absurd => absurd

end Bmap

end Xv6.Kernel.Fs
