import Xv6.Kernel.Fs.Consistent
import Xv6.Kernel.Fs.Data

/-!
The plain write loop of `writei`.

Owns: the bytes of an inode through its block references, stores into data
blocks, `iupdate`, and what the loop has done after any number of pieces: the
bytes it wrote, the bytes it left alone, and consistency on every way out.

Does not own: reading, and the compressed representation.
-/

namespace Xv6.Kernel.Fs

open Xv6.Lib Function

variable {c : Codec}

/-- The block that holds byte `p` of inode `i`; 0 if there is none. -/
def FsState.blockOf (sb : Superblock) (s : FsState c) (i p : Nat) : Nat :=
  s.refs sb (i, dataSlot (p / bsize))

/-- Byte `p` of inode `i`. -/
def FsState.byteAt (sb : Superblock) (s : FsState c) (i p : Nat) : UInt8 :=
  (s.disk (s.blockOf sb i p)).mem (p % bsize)

/-- Two states between which one operation on inode `i` in entry `ip` is at work:
it may have allocated blocks for the inode and changed data blocks. -/
structure Stays (sb : Superblock) (ip i : Nat) (s t : FsState c) : Prop where
  consistent : Consistent sb t
  kmem : t.kmem = s.kmem
  cache : t.cache = s.cache
  codec : t.codec = s.codec
  user : t.user = s.user
  entries : ∀ ip' ≠ ip, t.itable ip' = s.itable ip'
  node : t.itable ip = { s.itable ip with addrs := (t.itable ip).addrs }
  trace : s.trace <+: t.trace
  kept : ∀ slot, s.refs sb slot ≠ 0 → t.refs sb slot = s.refs sb slot
  foreign : ∀ slot, slot.1 ≠ i → t.refs sb slot = s.refs sb slot
  inodes : ∀ j < sb.ninodes, dinode sb t.disk j = dinode sb s.disk j

section Stays

variable {sb : Superblock} {s t u : FsState c} {ip i : Nat}

theorem Stays.refl (consistent : Consistent sb s) : Stays sb ip i s s where
  consistent := consistent
  kmem := rfl
  cache := rfl
  codec := rfl
  user := rfl
  entries := fun _ _ => rfl
  node := rfl
  trace := List.prefix_refl _
  kept := fun _ _ => rfl
  foreign := fun _ _ => rfl
  inodes := fun _ _ => rfl

theorem Stays.trans (first : Stays sb ip i s t) (second : Stays sb ip i t u) :
    Stays sb ip i s u where
  consistent := second.consistent
  kmem := second.kmem.trans first.kmem
  cache := second.cache.trans first.cache
  codec := second.codec.trans first.codec
  user := second.user.trans first.user
  entries := fun ip' other => (second.entries ip' other).trans (first.entries ip' other)
  node := by rw [second.node, first.node]
  trace := first.trace.trans second.trace
  kept := by
    intro slot present
    have same := first.kept slot present
    rw [second.kept slot (same ▸ present), same]
  foreign := fun slot other => (second.foreign slot other).trans (first.foreign slot other)
  inodes := fun j inside => (second.inodes j inside).trans (first.inodes j inside)

theorem Held.stays (held : Held s ip i) (stays : Stays sb ip i s t) : Held t ip i := by
  obtain ⟨bound, ref, valid, number⟩ := held.loaded
  refine ⟨⟨bound, ?_, ?_, ?_⟩, ?_⟩ <;> rw [stays.node]
  · exact ref
  · exact valid
  · exact number
  · exact held.live

theorem Consistent.settled_iblock (consistent : Consistent sb s) (valid : sb.Valid) {j : Nat}
    (inside : j < sb.ninodes) : Settled sb s i (sb.iblock j) := by
  have isMeta := valid.iblock_meta j inside
  refine ⟨fun x bound => valid.iblock_ne_bblock j inside x bound, fun bound => ?_, .inl ?_⟩
  · exact (consistent.exact.exact _ bound).mpr (.inl isMeta)
  · intro same
    by_cases present : s.refs sb (i, ndirect) = 0
    · exact valid.iblock_ne_zero j inside (same.trans present)
    · have := (consistent.data present).2.1
      omega

theorem Grows.stays (grows : Grows sb ip i s t) (valid : sb.Valid) (consistent : Consistent sb s) :
    Stays sb ip i s t where
  consistent := grows.consistent
  kmem := grows.kmem
  cache := grows.cache
  codec := grows.codec
  user := grows.user
  entries := grows.entries
  node := grows.node
  trace := grows.trace
  kept := grows.kept
  foreign := grows.foreign
  inodes := fun _ inside => dinode_congr (grows.blocks _ (consistent.settled_iblock valid inside))

theorem OutOfBlocks.mono (out : OutOfBlocks s) (longer : s.trace <+: t.trace) : OutOfBlocks t := by
  obtain ⟨disk, itable, member⟩ := out
  exact ⟨disk, itable, longer.subset member⟩

end Stays

/-! ### Stores into data blocks -/

section SetData

variable {sb : Superblock} {s : FsState c} {ip i b : Nat}

/-- The store a piece of the loop makes: `log_write` or not. -/
def FsState.setBlock (s : FsState c) (b : Nat) (data : Block) (events : List Event) : FsState c :=
  { s with disk := update s.disk b data, trace := s.trace ++ events }

/-- A block whose contents only its holder's bytes depend on: block 0, to which
writes go when there is no space, or a data block of a file. -/
def IsData (sb : Superblock) (s : FsState c) (b : Nat) : Prop :=
  b = 0 ∨ ∃ slot : Nat × Nat, slot.2 ≠ ndirect ∧ s.refs sb slot ≠ 0 ∧ s.refs sb slot = b

/-- What `bmap` returned for block `bn` of a file is such a block. -/
theorem isData_of_dataSlot {bn : Nat} (isBlock : b = s.refs sb (i, dataSlot bn)) :
    IsData sb s b := by
  by_cases zero : b = 0
  · exact .inl zero
  · exact .inr ⟨(i, dataSlot bn), dataSlot_ne_indirect bn, isBlock ▸ zero, isBlock.symm⟩

theorem IsData.ne_meta (isData : IsData sb s b) (consistent : Consistent sb s) {m : Nat}
    (notZero : m ≠ 0) (isMeta : m < sb.dataStart) : m ≠ b := by
  rcases isData with zero | ⟨slot, _, present, same⟩
  · exact zero ▸ notZero
  · have := (consistent.data present).2.1
    omega

theorem IsData.ne_indirect (isData : IsData sb s b) (consistent : Consistent sb s) {j : Nat}
    (present : s.refs sb (j, ndirect) ≠ 0) : s.refs sb (j, ndirect) ≠ b := by
  rcases isData with zero | ⟨slot, notIndirect, _, same⟩
  · exact zero ▸ present
  · rw [← same]
    exact consistent.exact.ne present fun equal => notIndirect (by rw [← equal])

theorem setBlock_refs (valid : sb.Valid) (consistent : Consistent sb s) (isData : IsData sb s b)
    (data : Block) (events : List Event) : (s.setBlock b data events).refs sb = s.refs sb := by
  funext slot
  obtain ⟨j, k⟩ := slot
  refine refs_update_disk ?_ data ?_ k
  · exact fun l inside =>
      isData.ne_meta consistent (valid.iblock_ne_zero l inside) (valid.iblock_meta l inside)
  · exact fun present => isData.ne_indirect consistent present

theorem setBlock_stays (valid : sb.Valid) (consistent : Consistent sb s) (isData : IsData sb s b)
    (data : Block) {events : List Event} (good : ∀ event ∈ events, GoodEvent sb event) :
    Stays sb ip i s (s.setBlock b data events) := by
  have refs := setBlock_refs valid consistent isData data events
  refine ⟨⟨?_, consistent.one, consistent.range, allocs_append consistent good⟩, rfl, rfl, rfl, rfl,
    fun _ _ => rfl, rfl, List.prefix_append _ _, ?_, ?_, ?_⟩
  · rw [refs]
    refine consistent.exact.congr fun x bound => marked_congr (update_of_ne ?_ _ _)
    exact isData.ne_meta consistent (valid.bblock_ne_zero x bound) (valid.bblock_meta x bound)
  · exact fun slot _ => congrFun refs slot
  · exact fun slot _ => congrFun refs slot
  · intro j inside
    apply dinode_congr
    refine update_of_ne ?_ _ _
    exact isData.ne_meta consistent (valid.iblock_ne_zero j inside) (valid.iblock_meta j inside)

theorem setBlock_byteAt (valid : sb.Valid) (consistent : Consistent sb s) (isData : IsData sb s b)
    (data : Block) (events : List Event) (j p : Nat) :
    (s.setBlock b data events).byteAt sb j p =
      if s.blockOf sb j p = b then data.mem (p % bsize) else s.byteAt sb j p := by
  have refs := setBlock_refs valid consistent isData data events
  have place : (s.setBlock b data events).blockOf sb j p = s.blockOf sb j p := congrFun refs _
  rw [FsState.byteAt, place]
  change (update s.disk b data (s.blockOf sb j p)).mem (p % bsize) = _
  split_ifs with same
  · rw [same, update_self]
  · rw [update_of_ne same]
    rfl

end SetData

/-! ### The loop -/

/-- After the loop has gone through `tot` bytes at `off`. -/
structure Writes (sb : Superblock) (ip i off : Nat) (bytes : Mem) (s : FsState c) (tot : Nat)
    (t : FsState c) : Prop extends Stays sb ip i s t where
  outside : ∀ j p, s.blockOf sb j p ≠ 0 → ¬ (j = i ∧ off ≤ p ∧ p < off + tot) →
    t.byteAt sb j p = s.byteAt sb j p
  fresh : ∀ p, s.blockOf sb i p = 0 → t.blockOf sb i p ≠ 0 → ¬ (off ≤ p ∧ p < off + tot) →
    t.byteAt sb i p = 0
  written : ¬ FailedSince s t → ∀ p, off ≤ p → p < off + tot →
    t.blockOf sb i p ≠ 0 ∧ t.byteAt sb i p = bytes (p - off)
  blocks : ¬ FailedSince s t → ∀ b, (∀ x < sb.size, b ≠ sb.bblock x) →
    (b = 0 ∨ ∀ k, b ≠ t.refs sb (i, k)) → t.disk b = s.disk b

section Loop

variable {sb : Superblock} {s t u : FsState c} {ip i off tot : Nat} {bytes : Mem}

theorem Writes.zero (consistent : Consistent sb s) : Writes sb ip i off bytes s 0 s where
  toStays := Stays.refl consistent
  outside := fun _ _ _ _ => rfl
  fresh := fun _ absent present => absurd absent present
  written := fun _ p low high => absurd high (by omega)
  blocks := fun _ _ _ _ => rfl

theorem blockOf_eq {p bn : Nat} (same : p / bsize = bn) (s : FsState c) :
    s.blockOf sb i p = s.refs sb (i, dataSlot bn) := by
  rw [FsState.blockOf, same]

/-- Bytes in blocks that an allocation does not touch. -/
theorem Grows.byteAt (grows : Grows sb ip i t u) (valid : sb.Valid) (consistent : Consistent sb t)
    {j p : Nat} (present : t.blockOf sb j p ≠ 0) : u.byteAt sb j p = t.byteAt sb j p := by
  have other : (j, dataSlot (p / bsize)) ≠ (i, ndirect) := fun same =>
    dataSlot_ne_indirect _ (congrArg Prod.snd same)
  have same : u.blockOf sb j p = t.blockOf sb j p := grows.kept _ present
  rw [FsState.byteAt, FsState.byteAt, same, FsState.blockOf,
    grows.blocks _ (consistent.settled valid present other)]

/-- What has been written stays when a block is allocated for the next piece. -/
theorem Writes.grow (writes : Writes sb ip i off bytes s tot t) (valid : sb.Valid)
    (grows : Grows sb ip i t u) : Writes sb ip i off bytes s tot u := by
  have keep : ∀ j p, t.blockOf sb j p ≠ 0 → u.byteAt sb j p = t.byteAt sb j p :=
    fun j p present => grows.byteAt valid writes.consistent present
  have found (enough : ¬ FailedSince s u) : ¬ FailedSince s t := fun failed =>
    enough ((failedSince_trans writes.trace grows.trace).mpr (.inl failed))
  refine ⟨writes.toStays.trans (grows.stays valid writes.consistent), ?_, ?_, ?_, ?_⟩
  · intro j p present notHere
    have still : t.blockOf sb j p ≠ 0 := by
      rw [FsState.blockOf, writes.kept _ present]
      exact present
    rw [keep j p still]
    exact writes.outside j p present notHere
  · intro p absent present notHere
    by_cases middle : t.blockOf sb i p = 0
    · have block := grows.zeroed (i, dataSlot (p / bsize)) (dataSlot_ne_indirect _) middle present
      rw [FsState.byteAt, FsState.blockOf, block]
      exact Buffer.fill_zero_mem _
    · rw [keep i p middle]
      exact writes.fresh p absent middle notHere
  · intro enough p low high
    obtain ⟨present, value⟩ := writes.written (found enough) p low high
    have still : u.blockOf sb i p ≠ 0 := by
      rw [FsState.blockOf, grows.kept _ present]
      exact present
    exact ⟨still, by rw [keep i p present, value]⟩
  · intro enough b notMap notOwn
    rw [grows.disk_eq writes.consistent notMap notOwn,
      writes.blocks (found enough) b notMap (grows.notOwn notOwn)]

/-- A piece lies within one block. -/
theorem block_of_piece {start m p : Nat} (room : start % bsize + m ≤ bsize) (low : start ≤ p)
    (high : p < start + m) : p / bsize = start / bsize := by
  have within := (@div_mod_within bsize start (p - start) (by omega)).1
  rwa [Nat.add_sub_of_le low] at within

/-- A piece stored into its block changes the bytes of the piece and no others. -/
theorem setBlock_piece (valid : sb.Valid) (consistent : Consistent sb t) {m : Nat}
    (room : (off + tot) % bsize + m ≤ bsize) {b : UInt32}
    (isBlock : b.toNat = t.refs sb (i, dataSlot ((off + tot) / bsize))) (events : List Event)
    {j p : Nat} (present : t.blockOf sb j p ≠ 0) :
    (t.setBlock b.toNat ((t.disk b.toNat).copy ((off + tot) % bsize) (bytes.read tot m))
        events).byteAt sb j p =
      if j = i ∧ off + tot ≤ p ∧ p < off + tot + m then bytes (p - off) else t.byteAt sb j p := by
  have start := Nat.div_add_mod (off + tot) bsize
  have place := Nat.div_add_mod p bsize
  rw [setBlock_byteAt valid consistent (isData_of_dataSlot isBlock)]
  by_cases here : j = i ∧ off + tot ≤ p ∧ p < off + tot + m
  · have block := block_of_piece room here.2.1 here.2.2
    have isThis : t.blockOf sb j p = b.toNat := by rw [here.1, blockOf_eq block, isBlock]
    rw [block] at place
    rw [if_pos here, if_pos isThis, Buffer.copy_inside _ (by omega) (by rw [Mem.length_read]; omega)
      (by omega), Mem.getD_read _ _ (by omega)]
    congr 1
    omega
  · rw [if_neg here]
    split_ifs with same
    · have slots := consistent.exact.injective _ _ present (same.trans isBlock)
      rw [Prod.mk.injEq] at slots
      have notInside : ¬ (off + tot ≤ p ∧ p < off + tot + m) := fun inside => here ⟨slots.1, inside⟩
      rw [dataSlot_injective slots.2] at place
      rw [Buffer.copy_outside, FsState.byteAt, same]
      rw [Mem.length_read]
      omega
    · rfl

/-- The next piece, once its block is there. -/
theorem Writes.store (writes : Writes sb ip i off bytes s tot t) (valid : sb.Valid) {m : Nat}
    (room : (off + tot) % bsize + m ≤ bsize) {b : UInt32}
    (isBlock : b.toNat = t.refs sb (i, dataSlot ((off + tot) / bsize)))
    (failed : b = 0 → FailedSince s t) {events : List Event}
    (good : ∀ event ∈ events, GoodEvent sb event) :
    Writes sb ip i off bytes s (tot + m) (t.setBlock b.toNat
      ((t.disk b.toNat).copy ((off + tot) % bsize) (bytes.read tot m)) events) := by
  have consistent := writes.consistent
  have isData : IsData sb t b.toNat := isData_of_dataSlot isBlock
  have stays := @setBlock_stays c sb t ip i b.toNat valid consistent isData
    ((t.disk b.toNat).copy ((off + tot) % bsize) (bytes.read tot m)) events good
  have sameBlock : ∀ j p, (t.setBlock b.toNat
      ((t.disk b.toNat).copy ((off + tot) % bsize) (bytes.read tot m)) events).blockOf sb j p =
      t.blockOf sb j p := fun j p => congrFun (setBlock_refs valid consistent isData _ events) _
  have value : ∀ {j p}, t.blockOf sb j p ≠ 0 → _ :=
    @setBlock_piece c sb t i off tot bytes valid consistent m room b isBlock events
  have found (enough : ¬ FailedSince s (t.setBlock b.toNat
      ((t.disk b.toNat).copy ((off + tot) % bsize) (bytes.read tot m)) events)) :
      ¬ FailedSince s t := fun failed =>
    enough ((failedSince_trans writes.trace stays.trace).mpr (.inl failed))
  refine ⟨writes.toStays.trans stays, ?_, ?_, ?_, ?_⟩
  · intro j p present notHere
    have still : t.blockOf sb j p ≠ 0 := by
      rw [FsState.blockOf, writes.kept _ present]
      exact present
    rw [value still, if_neg fun here => notHere ⟨here.1, by omega, by omega⟩]
    exact writes.outside j p present fun here => notHere ⟨here.1, here.2.1, by omega⟩
  · intro p absent present notHere
    rw [sameBlock] at present
    rw [value present, if_neg fun here => notHere ⟨by omega, by omega⟩]
    exact writes.fresh p absent present fun here => notHere ⟨here.1, by omega⟩
  · intro enough p low high
    rw [sameBlock]
    by_cases old : p < off + tot
    · obtain ⟨present, isByte⟩ := writes.written (found enough) p low old
      exact ⟨present, by rw [value present, if_neg (by omega), isByte]⟩
    · have block := block_of_piece room (p := p) (by omega) (by omega)
      have present : t.blockOf sb i p ≠ 0 := by
        rw [blockOf_eq block, ← isBlock]
        exact fun zero => found enough (failed (UInt32.toNat_inj.mp zero))
      exact ⟨present, by rw [value present, if_pos ⟨rfl, by omega, by omega⟩]⟩
  · intro enough x notMap notOwn
    rw [setBlock_refs valid consistent isData] at notOwn
    have other : x ≠ b.toNat := by
      intro same
      obtain zero | foreign := notOwn
      · exact found enough (failed (UInt32.toNat_inj.mp (same.symm.trans zero)))
      · exact foreign _ (same.trans isBlock)
    exact (update_of_ne other _ _).trans (writes.blocks (found enough) x notMap notOwn)

/-- One piece of the loop: its bytes are stored, or the copy failed. -/
theorem writePiece_spec (valid : sb.Valid) (held : Held s ip i) (src : Source) {m : Nat}
    (inside : (off + tot) / bsize < maxFile) (room : (off + tot) % bsize + m ≤ bsize)
    (writes : Writes sb ip i off src.byte s tot t) :
    wp (writePiece sb ip src off tot m) t
      (fun continues u => if continues then Writes sb ip i off src.byte s (tot + m) u
        else Stays sb ip i s u ∧ ¬ ∀ x < m, src.valid (tot + x))
      fun _ _ => False := by
  unfold writePiece
  rw [wp_bind]
  refine wp_mono (bmap_paid valid writes.consistent (held.stays writes.toStays) inside) ?_
    fun _ _ absurd => absurd
  rintro b u ⟨provided, paid, -⟩
  have failed (zero : b = 0) : FailedSince s u :=
    (failedSince_trans writes.trace provided.grows.trace).mpr (.inr (paid.failed zero))
  have grown := writes.grow valid provided.grows
  simp only [bread, wp_bind, wp_get, wp_pure, wp_ite]
  by_cases short : (src.copyin tot m).length < m
  · rw [if_pos short]
    have isData : IsData sb u b.toNat := isData_of_dataSlot provided.result
    have stays := @setBlock_stays c sb u ip i b.toNat valid grown.consistent isData
      ((u.disk b.toNat).copy ((off + tot) % bsize) (src.copyin tot m)) [] (by simp)
    rw [FsState.setBlock, List.append_nil] at stays
    refine ⟨grown.toStays.trans stays, fun all => ?_⟩
    rw [Source.length_copyin, validLength_eq all] at short
    exact Nat.lt_irrefl m short
  · have whole : src.copyin tot m = src.byte.read tot m := by
      have most := validLength_le src.valid tot m
      rw [Source.length_copyin] at short
      rw [Source.copyin, show validLength src.valid tot m = m by omega]
    rw [if_neg short, whole]
    simp only [logWrite, setBuffer, note, wp_bind, wp_modify]
    have good : ∀ event ∈ [.logWrite b.toNat], GoodEvent sb event := by simp [GoodEvent]
    exact grown.store valid room provided.result failed good

/-- The whole loop. -/
theorem writeLoop_spec (valid : sb.Valid) (consistent : Consistent sb s) (held : Held s ip i)
    (src : Source) {n : Nat} (inside : off + n ≤ maxFile * bsize) :
    wp (chunkLoop bsize off n bsize_pos (writePiece sb ip src off) 0) s
      (fun tot t => (tot = n ∧ Writes sb ip i off src.byte s n t) ∨
        (tot < n ∧ Stays sb ip i s t ∧ ¬ ∀ x < n, src.valid x))
      fun _ _ => False := by
  refine wp_mono (wp_chunkLoop (fun tot t => Writes sb ip i off src.byte s tot t)
    (fun _ t => Stays sb ip i s t ∧ ¬ ∀ x < n, src.valid x) ?_ (Nat.zero_le n)
    (Writes.zero consistent)) (fun _ _ ended => ended) fun _ _ absurd => absurd
  intro tot m t _ positive within room _ writes
  have block : (off + tot) / bsize < maxFile :=
    Nat.div_lt_of_lt_mul (by rw [Nat.mul_comm]; omega)
  refine wp_mono (writePiece_spec valid held src block room writes) ?_ fun _ _ absurd => absurd
  intro continues u after
  cases continues with
  | true => exact after
  | false =>
    refine ⟨after.1, fun all => after.2 fun x inPiece => ?_⟩
    exact all (tot + x) (by omega)

end Loop

/-! ### `iupdate` -/

/-- The state after a change of inode `ip` that `iupdate` wrote to disk. -/
def FsState.save (sb : Superblock) (s : FsState c) (ip : Nat) (node : Inode) : FsState c :=
  { s with
    disk := putDinode sb s.disk node.inum.toNat node.toDinode
    itable := update s.itable ip node
    trace := s.trace ++ [.logWrite (sb.iblock node.inum.toNat)] }

theorem iupdate_modify (sb : Superblock) (s : FsState c) (ip : Nat) (change : Inode → Inode)
    (post : PUnit → FsState c → Prop) (stop : Stop → FsState c → Prop) :
    wp (do modifyInode ip change; iupdate sb ip) s post stop ↔
      post ⟨⟩ (s.save sb ip (change (s.itable ip))) := by
  simp only [modifyInode, iupdate, bread, logWrite, setBuffer, note, wp_bind, wp_modify, wp_get,
    wp_pure, update_self]
  rfl

/-- The same with the two calls apart. -/
theorem wp_modifyInode_iupdate (sb : Superblock) (s : FsState c) (ip : Nat)
    (change : Inode → Inode) (post : PUnit → FsState c → Prop) (stop : Stop → FsState c → Prop) :
    wp (modifyInode ip change) s (fun _ t => wp (iupdate sb ip) t post stop) stop ↔
      post ⟨⟩ (s.save sb ip (change (s.itable ip))) := by
  rw [← iupdate_modify sb s ip change post stop, wp_bind]

/-- The two copies of every inode in memory agree, and such inodes are
allocated. -/
structure FsInv (sb : Superblock) (s : FsState c) : Prop where
  consistent : Consistent sb s
  live : ∀ ip i, Loaded s.itable ip i → (s.itable ip).type ≠ 0
  synced : ∀ ip i, Loaded s.itable ip i → dinode sb s.disk i = (s.itable ip).toDinode

theorem FsInv.held {sb : Superblock} {s : FsState c} (inv : FsInv sb s) {ip i : Nat}
    (loaded : Loaded s.itable ip i) : Held s ip i := ⟨loaded, inv.live ip i loaded⟩

section Save

variable {sb : Superblock} {s t : FsState c} {ip i : Nat} {node : Inode}

theorem save_refs (valid : sb.Valid) (consistent : Consistent sb s) (held : Held s ip i)
    (inum : node.inum = (s.itable ip).inum) (ref : node.ref = (s.itable ip).ref)
    (isValid : node.valid = (s.itable ip).valid) (type : node.type = (s.itable ip).type)
    (addrs : node.addrs = (s.itable ip).addrs) : (s.save sb ip node).refs sb = s.refs sb := by
  have inside := held.inside consistent
  have number : node.inum.toNat = i := inum ▸ held.loaded.2.2.2
  have disk : (s.save sb ip node).disk = update s.disk (sb.iblock i)
      (Dinode.put (s.disk (sb.iblock i)) (i % ipb) node.toDinode) := by
    rw [FsState.save, putDinode, number]
  -- the inode block is no indirect block, and the inode itself is in memory
  have sameNode : ∀ k, nodeRef (s.save sb ip node).disk node.toDinode k = s.refs sb (i, k) := by
    intro k
    rw [held.refs_eq consistent]
    have keep : nodeRef (s.save sb ip node).disk node.toDinode k =
        nodeRef s.disk node.toDinode k := by
      refine nodeRef_disk fun present => ?_
      rw [disk]
      refine update_of_ne (fun same => ?_) _ _
      have isRef : s.refs sb (i, ndirect) = (node.addrs indirectIndex).toNat := by
        rw [held.refs_eq consistent, nodeRef_indirect, addrs]
      have held' : s.refs sb (i, ndirect) ≠ 0 := by
        rw [isRef]
        exact fun zero => present (UInt32.toNat_inj.mp zero)
      have := (consistent.data held').2.1
      have := valid.iblock_meta i inside
      omega
    rw [keep]
    unfold nodeRef
    rw [addrs]
  funext slot
  obtain ⟨j, k⟩ := slot
  change Fs.refs sb (s.save sb ip node).disk (update s.itable ip node) (j, k) = _
  rw [refs_update consistent.one held.loaded inside held.live inum ref isValid type]
  by_cases same : j = i
  · rw [if_pos same, sameNode, same]
  · rw [if_neg same, disk]
    refine refs_disk_at (fun _ => ?_) (fun present => ?_) k
    · have other := dinode_putDinode_other sb s.disk same node.toDinode
      rwa [putDinode] at other
    · refine update_of_ne (fun equal => ?_) _ _
      have isData := (@Consistent.data c sb s consistent (j, ndirect) present).2.1
      have isMeta := valid.iblock_meta i inside
      change sb.dataStart ≤ Fs.refs sb s.disk s.itable (j, ndirect) at isData
      omega

theorem save_consistent (valid : sb.Valid) (consistent : Consistent sb s) (held : Held s ip i)
    (inum : node.inum = (s.itable ip).inum) (ref : node.ref = (s.itable ip).ref)
    (isValid : node.valid = (s.itable ip).valid) (type : node.type = (s.itable ip).type)
    (addrs : node.addrs = (s.itable ip).addrs) : Consistent sb (s.save sb ip node) := by
  have inside := held.inside consistent
  have number : node.inum.toNat = i := inum ▸ held.loaded.2.2.2
  refine ⟨?_, consistent.one.update inum ref, ?_, allocs_append consistent (by simp [GoodEvent])⟩
  · rw [save_refs valid consistent held inum ref isValid type addrs]
    refine consistent.exact.congr fun x bound => marked_congr ?_
    rw [FsState.save, number]
    exact update_of_ne (valid.iblock_ne_bblock i inside x bound).symm _ _
  · intro ip' entry
    change 0 < (update s.itable ip node ip').ref →
      (update s.itable ip node ip').inum.toNat < sb.ninodes
    by_cases same : ip' = ip
    · rw [same, update_self, inum, ref]
      exact consistent.range ip (same ▸ entry)
    · rw [update_of_ne same]
      exact consistent.range ip' entry

/-- Saving the inode an operation worked on restores the invariant. -/
theorem save_inv (valid : sb.Valid) (inv : FsInv sb s) (held : Held s ip i)
    (consistent : Consistent sb t) (held' : Held t ip i)
    (entries : ∀ ip' ≠ ip, t.itable ip' = s.itable ip')
    (inodes : ∀ j < sb.ninodes, dinode sb t.disk j = dinode sb s.disk j)
    (inum : node.inum = (t.itable ip).inum) (ref : node.ref = (t.itable ip).ref)
    (isValid : node.valid = (t.itable ip).valid) (type : node.type = (t.itable ip).type)
    (addrs : node.addrs = (t.itable ip).addrs) : FsInv sb (t.save sb ip node) := by
  have number : node.inum.toNat = i := inum ▸ held'.loaded.2.2.2
  have loadedIff := fun ip' j => @Loaded.update t.itable ip node inum ref isValid ip' j
  have before : ∀ ip' j, ip' ≠ ip → Loaded t.itable ip' j → Loaded s.itable ip' j := by
    intro ip' j other loaded
    rwa [Loaded, entries ip' other] at loaded
  refine ⟨save_consistent valid consistent held' inum ref isValid type addrs, ?_, ?_⟩
  · intro ip' j loaded
    change (update t.itable ip node ip').type ≠ 0
    by_cases same : ip' = ip
    · rw [same, update_self, type]
      exact held'.live
    · rw [update_of_ne same, entries ip' same]
      exact inv.live ip' j (before ip' j same ((loadedIff ip' j).mp loaded))
  · intro ip' j loaded
    have loadedT := (loadedIff ip' j).mp loaded
    change dinode sb (putDinode sb t.disk node.inum.toNat node.toDinode) j =
      (update t.itable ip node ip').toDinode
    rw [number]
    by_cases same : ip' = ip
    · have isI : j = i := by
        rw [same] at loadedT
        exact loadedT.2.2.2.symm.trans held'.loaded.2.2.2
      rw [same, update_self, isI]
      exact dinode_putDinode sb t.disk i node.toDinode
    · have loadedS := before ip' j same loadedT
      have notI : j ≠ i := by
        intro isI
        exact same (inv.consistent.one.loaded_unique loadedS (isI ▸ held.loaded))
      rw [update_of_ne same, entries ip' same, dinode_putDinode_other _ _ notI,
        inodes j (inv.consistent.inside loadedS)]
      exact inv.synced ip' j loadedS

theorem Stays.save_inv (valid : sb.Valid) (inv : FsInv sb s) (held : Held s ip i)
    (stays : Stays sb ip i s t) (inum : node.inum = (t.itable ip).inum)
    (ref : node.ref = (t.itable ip).ref) (isValid : node.valid = (t.itable ip).valid)
    (type : node.type = (t.itable ip).type) (addrs : node.addrs = (t.itable ip).addrs) :
    FsInv sb (t.save sb ip node) :=
  Fs.save_inv valid inv held stays.consistent (held.stays stays) stays.entries stays.inodes inum ref
    isValid type addrs

/-- No byte of any file changes with it. -/
theorem save_byteAt (valid : sb.Valid) (consistent : Consistent sb s) (held : Held s ip i)
    (inum : node.inum = (s.itable ip).inum) (ref : node.ref = (s.itable ip).ref)
    (isValid : node.valid = (s.itable ip).valid) (type : node.type = (s.itable ip).type)
    (addrs : node.addrs = (s.itable ip).addrs) {j p : Nat} (present : s.blockOf sb j p ≠ 0) :
    (s.save sb ip node).byteAt sb j p = s.byteAt sb j p := by
  have number : node.inum.toNat = i := inum ▸ held.loaded.2.2.2
  have place : (s.save sb ip node).blockOf sb j p = s.blockOf sb j p :=
    congrFun (save_refs valid consistent held inum ref isValid type addrs) _
  have isData := (consistent.data present).2.1
  have isMeta := valid.iblock_meta i (held.inside consistent)
  have other : s.blockOf sb j p ≠ sb.iblock i := by
    change sb.dataStart ≤ s.blockOf sb j p at isData
    omega
  rw [FsState.byteAt, place, FsState.byteAt, FsState.save, number]
  exact congrArg (fun block : Block => block.mem (p % bsize)) (update_of_ne other _ _)

end Save

end Xv6.Kernel.Fs
