import Xv6.Kernel.Fs.Dir
import Xv6.Kernel.Fs.Raw

/-!
Running out of disk blocks in `writei`.

Owns: the number of blocks a write needs, that a `balloc` fails during the call
exactly if it needs more than are free, what the call would have to do then, and
what it does.

Does not own: whether the bytes of a write that finds its blocks are stored.
-/

namespace Xv6.Kernel.Fs

open Xv6.Lib Function

variable {c : Codec}

section FailedSince

variable {s t u : FsState c}

theorem SameFs.failedSince (same : SameFs s t) : FailedSince t u ↔ FailedSince s u := by
  unfold FailedSince
  rw [same.trace]

theorem SameFs.not_failedSince (same : SameFs s t) : ¬ FailedSince s t :=
  Fs.not_failedSince (same.trace.trans (List.append_nil _).symm) fun _ _ => List.not_mem_nil

end FailedSince

/-- The free list is sound: its pages are different, none is null and none is the
cached one. -/
structure PagesSane (s : FsState c) : Prop where
  nodup : s.kmem.freelist.Nodup
  noNull : 0 ∉ s.kmem.freelist
  owned : s.cache.buf ∉ s.kmem.freelist

theorem wp_kalloc_nil {s : FsState c} {post : Nat → FsState c → Prop}
    {stop : Stop → FsState c → Prop} (empty : s.kmem.freelist = []) :
    wp kalloc s post stop ↔ post 0 s := by
  unfold kalloc
  rw [wp_bind, wp_get, empty]
  rfl

/-! ### What the loop takes -/

/-- The blocks of a file that hold the bytes `[off, off + n)`. -/
def touched (off n : Nat) : Finset Nat := (Finset.range n).image fun x => (off + x) / bsize

/-- The blocks `blocks` are there, and nothing else was added to what `old` had. -/
structure Fills (old new : Nat × Nat → Nat) (i : Nat) (blocks : Finset Nat) : Prop where
  data : ∀ bn ∈ blocks, new (i, dataSlot bn) ≠ 0
  indirect : (∃ bn ∈ blocks, ndirect ≤ bn) → new (i, ndirect) ≠ 0
  sameData : ∀ bn ∉ blocks, new (i, dataSlot bn) = old (i, dataSlot bn)
  sameIndirect : ¬ (∃ bn ∈ blocks, ndirect ≤ bn) → new (i, ndirect) = old (i, ndirect)

section Touched

variable {old new : Nat × Nat → Nat} {i off tot m bn : Nat} {blocks more : Finset Nat}

theorem touched_piece (positive : 0 < m) (room : (off + tot) % bsize + m ≤ bsize) :
    touched off (tot + m) = insert ((off + tot) / bsize) (touched off tot) := by
  ext bn
  simp only [touched, Finset.mem_insert, Finset.mem_image, Finset.mem_range]
  constructor
  · rintro ⟨x, inside, rfl⟩
    by_cases before : x < tot
    · exact .inr ⟨x, before, rfl⟩
    · exact .inl (block_of_piece room (by omega) (by omega))
  · rintro (rfl | ⟨x, before, rfl⟩)
    · exact ⟨tot, by omega, rfl⟩
    · exact ⟨x, by omega, rfl⟩

theorem touched_mono {n : Nat} (less : tot ≤ n) : touched off tot ⊆ touched off n :=
  Finset.image_subset_image (Finset.range_subset_range.mpr less)

theorem missing_mono (refs : Nat × Nat → Nat) (subset : blocks ⊆ more) :
    missing refs i blocks ≤ missing refs i more := by
  have data := Finset.card_le_card (Finset.filter_subset_filter
    (fun bn => refs (i, dataSlot bn) = 0) subset)
  have indirect : (∃ bn ∈ blocks, ndirect ≤ bn) → ∃ bn ∈ more, ndirect ≤ bn := by
    rintro ⟨bn, member, past⟩
    exact ⟨bn, subset member, past⟩
  unfold missing
  refine Nat.add_le_add ?_ data
  by_cases needed : (∃ bn ∈ blocks, ndirect ≤ bn) ∧ refs (i, ndirect) = 0
  · rw [if_pos needed, if_pos ⟨indirect needed.1, needed.2⟩]
  · rw [if_neg needed]
    exact Nat.zero_le _

theorem Fills.empty (refs : Nat × Nat → Nat) : Fills refs refs i ∅ where
  data := fun _ member => absurd member (Finset.notMem_empty _)
  indirect := by
    rintro ⟨bn, member, _⟩
    exact absurd member (Finset.notMem_empty bn)
  sameData := fun _ _ => rfl
  sameIndirect := fun _ => rfl

theorem Fills.missing_insert (fills : Fills old new i blocks) (bn : Nat) :
    missing old i (insert bn blocks) = missing old i blocks + missing new i {bn} := by
  have data : ((insert bn blocks).filter fun b => old (i, dataSlot b) = 0).card =
      (blocks.filter fun b => old (i, dataSlot b) = 0).card +
        if new (i, dataSlot bn) = 0 then 1 else 0 := by
    by_cases member : bn ∈ blocks
    · rw [Finset.insert_eq_of_mem member, if_neg (fills.data bn member), Nat.add_zero]
    · rw [Finset.filter_insert, ← fills.sameData bn member]
      split_ifs with empty
      · exact Finset.card_insert_of_notMem fun inFilter =>
          member (Finset.mem_of_mem_filter _ inFilter)
      · rfl
  have indirect : (if (∃ b ∈ insert bn blocks, ndirect ≤ b) ∧ old (i, ndirect) = 0 then 1 else 0) =
      (if (∃ b ∈ blocks, ndirect ≤ b) ∧ old (i, ndirect) = 0 then 1 else 0) +
        if ndirect ≤ bn ∧ new (i, ndirect) = 0 then 1 else 0 := by
    simp only [Finset.exists_mem_insert]
    by_cases before : ∃ b ∈ blocks, ndirect ≤ b
    · have isSome : ¬ (ndirect ≤ bn ∧ new (i, ndirect) = 0) := fun both =>
        fills.indirect before both.2
      rw [if_neg isSome]
      simp only [before, or_true, Nat.add_zero]
    · rw [fills.sameIndirect before]
      simp only [before, or_false, false_and, if_false, Nat.zero_add]
  rw [missing_single, missing, missing, data, indirect]
  omega

/-- The state after that block was provided. -/
theorem Fills.insert {newer : Nat × Nat → Nat} (fills : Fills old new i blocks)
    (isSome : newer (i, dataSlot bn) ≠ 0) (isIndirect : ndirect ≤ bn → newer (i, ndirect) ≠ 0)
    (kept : ∀ slot, new slot ≠ 0 → newer slot = new slot)
    (only : ∀ slot, slot ≠ (i, dataSlot bn) → slot ≠ (i, ndirect) → newer slot = new slot)
    (direct : bn < ndirect → newer (i, ndirect) = new (i, ndirect)) :
    Fills old newer i (insert bn blocks) where
  data := by
    intro b member
    rcases Finset.mem_insert.mp member with rfl | before
    · exact isSome
    · have was := fills.data b before
      rw [kept _ was]
      exact was
  indirect := by
    rintro ⟨b, member, past⟩
    rcases Finset.mem_insert.mp member with rfl | before
    · exact isIndirect past
    · have was := fills.indirect ⟨b, before, past⟩
      rw [kept _ was]
      exact was
  sameData := by
    intro b notMember
    rw [Finset.mem_insert, not_or] at notMember
    rw [only, fills.sameData b notMember.2]
    · exact fun same => notMember.1 (dataSlot_injective (congrArg Prod.snd same))
    · exact fun same => dataSlot_ne_indirect b (congrArg Prod.snd same)
  sameIndirect := by
    intro absent
    rw [Finset.exists_mem_insert, not_or] at absent
    rw [direct (Nat.not_le.mp absent.1), fills.sameIndirect absent.2]

end Touched

/-- The inode was given the blocks `blocks` of its file, or there were too few and one of
them is missing. -/
def Spent (sb : Superblock) (i : Nat) (s : FsState c) (blocks : Finset Nat)
    (t : FsState c) : Prop :=
  (FailedSince s t ∧ freeBlocks sb s.disk < missing (s.refs sb) i blocks ∧
      ∃ bn ∈ blocks, t.refs sb (i, dataSlot bn) = 0) ∨
    (¬ FailedSince s t ∧
      freeBlocks sb t.disk + missing (s.refs sb) i blocks = freeBlocks sb s.disk ∧
      Fills (s.refs sb) (t.refs sb) i blocks)

/-- How many bytes `writei` copies up to the piece in which its source becomes unreadable. -/
def copiedBytes (src : Source) (off n : Nat) : Nat :=
  if validLength src.valid 0 n = n then n
  else (off + validLength src.valid 0 n) / bsize * bsize - off

section Loop

variable {sb : Superblock} {s t u : FsState c} {ip i off tot n : Nat} {blocks : Finset Nat}
  {src : Source}

theorem Spent.start : Spent sb i s ∅ s :=
  .inr ⟨(SameFs.refl s).not_failedSince, rfl, Fills.empty _⟩

theorem Spent.failed_iff (spent : Spent sb i s blocks t) :
    FailedSince s t ↔ freeBlocks sb s.disk < missing (s.refs sb) i blocks := by
  rcases spent with ⟨failed, few, _⟩ | ⟨found, taken, _⟩
  · exact iff_of_true failed few
  · exact iff_of_false found (by omega)

/-- `bmap` for the next piece. -/
theorem Spent.bmap (spent : Spent sb i s blocks t) (valid : sb.Valid) (consistent : Consistent sb t)
    (held : Held t ip i) (early : s.trace <+: t.trace) {bn : Nat} (inside : bn < maxFile)
    (new : bn ∉ blocks) :
    wp (bmap sb ip bn) t (fun b u => Provides sb ip i (dataSlot bn) t b u ∧
      Spent sb i s (insert bn blocks) u) fun _ _ => False := by
  refine wp_mono (bmap_paid valid consistent held inside) ?_ fun _ _ absurd => absurd
  rintro b u ⟨provided, paid, sameIndirect⟩
  refine ⟨provided, ?_⟩
  have held' := held.grows provided.grows
  have consistent' := provided.grows.consistent
  unfold Spent
  rw [failedSince_trans early provided.grows.trace]
  rcases spent with ⟨failed, few, lost, member, zero⟩ | ⟨found, taken, fills⟩
  · refine .inl ⟨.inl failed, Nat.lt_of_lt_of_le few (missing_mono _ (Finset.subset_insert _ _)),
      lost, Finset.mem_insert_of_mem member, ?_⟩
    rw [provided.only _ (fun same => ?_) fun same => ?_]
    · exact zero
    · exact new (dataSlot_injective (congrArg Prod.snd same) ▸ member)
    · exact dataSlot_ne_indirect lost (congrArg Prod.snd same)
  rw [fills.missing_insert bn]
  rcases paid with ⟨isSome, alsoFound, alsoTaken⟩ | ⟨isZero, failed, few⟩
  · have present : u.refs sb (i, dataSlot bn) ≠ 0 := by
      rw [← provided.result]
      exact fun zero => isSome (UInt32.toNat_inj.mp zero)
    refine .inr ⟨not_or.mpr ⟨found, alsoFound⟩, by omega, fills.insert present ?_
      provided.grows.kept provided.only sameIndirect⟩
    intro past absent
    have jInside : bn - ndirect < nindirect := by
      unfold maxFile at inside
      omega
    rw [held'.refs_eq consistent', nodeRef_indirect] at absent
    rw [dataSlot_indirect (Nat.not_lt.mpr past)] at present
    exact present (held'.entries_zero consistent' (UInt32.toNat_inj.mp absent) jInside)
  · refine .inl ⟨.inr failed, by omega, bn, Finset.mem_insert_self _ _, ?_⟩
    rw [← provided.result, isZero]
    rfl

/-- A store into a data block takes nothing. -/
theorem Spent.setBlock (spent : Spent sb i s blocks t) (valid : sb.Valid)
    (consistent : Consistent sb t) (early : s.trace <+: t.trace) {b : Nat} (isData : IsData sb t b)
    (data : Block) : Spent sb i s blocks (t.setBlock b data [.logWrite b]) := by
  have marks : freeBlocks sb (t.setBlock b data [.logWrite b]).disk = freeBlocks sb t.disk := by
    refine freeBlocks_congr fun x bound => marked_congr (update_of_ne ?_ _ _)
    exact isData.ne_meta consistent (valid.bblock_ne_zero x bound) (valid.bblock_meta x bound)
  unfold Spent
  rw [failedSince_logWrite early rfl, marks, setBlock_refs valid consistent isData]
  exact spent

/-- Pieces start at the start of the range or of a block, so each is in a block of its own. -/
theorem block_notMem_touched (aligned : tot = 0 ∨ (off + tot) % bsize = 0) :
    (off + tot) / bsize ∉ touched off tot := by
  intro member
  obtain ⟨x, before, same⟩ := Finset.mem_image.mp member
  rw [Finset.mem_range] at before
  have := Nat.div_add_mod (off + tot) bsize
  have := Nat.div_add_mod (off + x) bsize
  have := Nat.mod_lt (off + x) bsize_pos
  rw [← same] at *
  omega

/-- The loop stopped in the piece from byte `tot` on, for which `bmap` returned `b` in state
`u`; what could be read of the piece was copied, and nothing was logged. -/
structure Cut (sb : Superblock) (ip i : Nat) (s : FsState c) (src : Source) (off n tot : Nat)
    (b : UInt32) (before u t : FsState c) : Prop where
  place : tot = copiedBytes src off n
  new : (off + tot) / bsize ∉ touched off tot
  room : (off + tot) % bsize + (validLength src.valid 0 n - tot) < bsize
  writes : Writes sb ip i off src.byte s tot before
  spent : Spent sb i s (touched off tot) before
  provided : Provides sb ip i (dataSlot ((off + tot) / bsize)) before b u
  after : Spent sb i s (touched off (tot + 1)) u
  state : t = u.setBlock b.toNat ((u.disk b.toNat).copy ((off + tot) % bsize)
    (src.byte.read tot (validLength src.valid 0 n - tot))) []

/-- Where the source becomes unreadable inside the piece `[tot, tot + m)`. -/
theorem copiedBytes_eq {m : Nat} (aligned : tot = 0 ∨ (off + tot) % bsize = 0)
    (room : (off + tot) % bsize + m ≤ bsize) (within : tot + m ≤ n)
    (before : ∀ x < tot, src.valid x = true) (short : validLength src.valid tot m < m) :
    copiedBytes src off n = tot ∧ validLength src.valid 0 n = tot +
      validLength src.valid tot m := by
  obtain ⟨readable, stops⟩ := validLength_spec src.valid tot m
  have whole : validLength src.valid 0 n = tot + validLength src.valid tot m := by
    refine validLength_eq_of (by omega) (fun x below => ?_) fun _ => ?_
    · rw [Nat.zero_add]
      by_cases early : x < tot
      · exact before x early
      · have := readable (x - tot) (by omega)
        rwa [Nat.add_sub_cancel' (Nat.not_lt.mp early)] at this
    · rw [Nat.zero_add]
      exact stops short
  have place := block_of_piece (p := off + tot + validLength src.valid tot m) room (by omega)
    (by omega)
  refine ⟨?_, whole⟩
  rw [copiedBytes, if_neg (by omega), whole, ← Nat.add_assoc, place]
  have := Nat.div_add_mod (off + tot) bsize
  have := Nat.mod_lt off bsize_pos
  rw [Nat.mul_comm]
  omega

theorem writePiece_spent (valid : sb.Valid) (held : Held s ip i) (src : Source) {m : Nat}
    (positive : 0 < m) (within : tot + m ≤ n) (inside : (off + tot) / bsize < maxFile)
    (room : (off + tot) % bsize + m ≤ bsize) (aligned : tot = 0 ∨ (off + tot) % bsize = 0)
    (before : ∀ x < tot, src.valid x = true) (writes : Writes sb ip i off src.byte s tot t)
    (spent : Spent sb i s (touched off tot) t) :
    wp (writePiece sb ip src off tot m) t (fun continues v =>
        if continues then Spent sb i s (touched off (tot + m)) v ∧
          ∀ x < tot + m, src.valid x = true
        else ∃ b before u, Cut sb ip i s src off n tot b before u v)
      fun _ _ => False := by
  unfold writePiece
  rw [wp_bind, touched_piece positive room]
  refine wp_mono (spent.bmap valid writes.consistent (held.stays writes.toStays) writes.trace inside
    (block_notMem_touched aligned)) ?_ fun _ _ absurd => absurd
  rintro b u ⟨provided, after⟩
  simp only [bread, wp_bind, wp_get, wp_pure, wp_ite]
  rw [Source.length_copyin]
  by_cases short : validLength src.valid tot m < m
  · obtain ⟨place, whole⟩ := copiedBytes_eq aligned room within before short
    rw [if_pos short]
    refine ⟨b, t, u, place.symm,
      block_notMem_touched aligned, by omega, writes, spent, provided, ?_, ?_⟩
    · rw [touched_piece Nat.one_pos (by omega)]
      exact after
    · rw [whole, Nat.add_sub_cancel_left]
      simp only [FsState.setBlock, List.append_nil]
      rfl
  · rw [if_neg short]
    simp only [logWrite, setBuffer, note, wp_bind, wp_modify]
    refine ⟨after.setBlock valid provided.grows.consistent
      (writes.trace.trans provided.grows.trace) (isData_of_dataSlot provided.result) _,
      fun x below => ?_⟩
    by_cases early : x < tot
    · exact before x early
    · have most := validLength_le src.valid tot m
      have := (validLength_spec src.valid tot m).1 (x - tot) (by omega)
      rwa [Nat.add_sub_cancel' (Nat.not_lt.mp early)] at this

/-- The loop stores the whole range, or stops where the source becomes unreadable. -/
theorem writeLoop_spent (valid : sb.Valid) (consistent : Consistent sb s) (held : Held s ip i)
    (src : Source) (inside : off + n ≤ maxFile * bsize) :
    wp (chunkLoop bsize off n bsize_pos (writePiece sb ip src off) 0) s (fun tot t =>
        (tot = n ∧ s.trace <+: t.trace ∧ Spent sb i s (touched off n) t ∧
          ∀ x < n, src.valid x = true) ∨
        (tot < n ∧ ∃ b before u, Cut sb ip i s src off n tot b before u t))
      fun _ _ => False := by
  refine wp_mono (wp_chunkLoop
    (fun tot t => Writes sb ip i off src.byte s tot t ∧ Spent sb i s (touched off tot) t ∧
      (∀ x < tot, src.valid x = true) ∧ (tot = 0 ∨ tot = n ∨ (off + tot) % bsize = 0))
    (fun tot t => ∃ b before u, Cut sb ip i s src off n tot b before u t) ?_ (Nat.zero_le n)
    ⟨Writes.zero consistent, Spent.start, fun x low => absurd low (Nat.not_lt_zero x), .inl rfl⟩) ?_
    fun _ _ absurd => absurd
  · rintro tot m t more positive within room isM ⟨writes, spent, before, aligned⟩
    have block : (off + tot) / bsize < maxFile :=
      Nat.div_lt_of_lt_mul (by rw [Nat.mul_comm]; omega)
    have starts : tot = 0 ∨ (off + tot) % bsize = 0 := by omega
    refine wp_mono (wp_and (writePiece_spec valid held src block room writes)
      (writePiece_spent valid held src positive within block room starts before writes spent)) ?_
      fun _ _ absurd => absurd
    rintro continues u ⟨stored, took⟩
    cases continues with
    | true =>
      refine ⟨stored, took.1, took.2, ?_⟩
      have isSize : bsize = 1024 := rfl
      rw [isSize] at isM ⊢
      omega
    | false => exact took
  · rintro tot t (⟨rfl, writes, spent, before, _⟩ | ended)
    · exact .inl ⟨rfl, writes.trace, spent, before⟩
    · exact .inr ended

end Loop

/-! ### What `writei` takes -/

/-- `writei` goes on past its range checks. -/
structure Accepted (s : FsState c) (ip : Nat) (off n : UInt32) : Prop where
  start : ¬ ((s.itable ip).size < off ∨ off + n < off)
  fits : (off + n).toNat ≤ maxFile * bsize

/-- `writei` has two pages and makes the payload shorter. -/
def Compresses (s : FsState c) (src : Source) (n : UInt32) : Prop :=
  CompressionHeader.bytes < n.toNat ∧ 2 ≤ s.kmem.freelist.length ∧
    0 < (packed s src n).ret ∧ (packed s src n).ret < n.toNat

instance (s : FsState c) (src : Source) (n : UInt32) : Decidable (Compresses s src n) :=
  inferInstanceAs (Decidable (_ ∧ _))

/-- The blocks that the pieces lack which a write copies whole: block 0 for a payload that is
compressed, and none where `writei` gives up before, for want of a page or as the payload
leaves its page or cannot be read. -/
def blocksNeeded (sb : Superblock) (s : FsState c) (ip i : Nat) (src : Source) (off n : UInt32) :
    Nat :=
  if (s.itable ip).type = tFile ∧ off = 0 then
    if s.kmem.freelist = [] ∨ pgSize < n.toNat ∨ validLength src.valid 0 n.toNat < n.toNat then 0
    else if Compresses s src n then missing (s.refs sb) i {0}
    else missing (s.refs sb) i (touched 0 n.toNat)
  else missing (s.refs sb) i (touched off.toNat (copiedBytes src off.toNat n.toNat))

/-- Where the source becomes unreadable inside a piece and no block is left for the piece,
block 0 has the bytes already that are copied before the fault. -/
def CutHarmless (sb : Superblock) (s : FsState c) (ip i : Nat) (src : Source) (off n : UInt32) :
    Prop :=
  ¬ ((s.itable ip).type = tFile ∧ off = 0) → copiedBytes src off.toNat n.toNat < n.toNat →
    missing (s.refs sb) i (touched off.toNat (copiedBytes src off.toNat n.toNat + 1)) ≤
        freeBlocks sb s.disk ∨
      ∀ x, copiedBytes src off.toNat n.toNat ≤ x → x < validLength src.valid 0 n.toNat →
        src.byte x = (s.disk 0).mem ((off.toNat + x) % bsize)

/-- What the call would have to leave behind when a `balloc` found no block: a count
below `n` of the bytes stored, up to the first that has no block, a size that covers
no more, and no change outside the bitmap, the inode's block and the blocks it holds. -/
structure Contained (sb : Superblock) (s : FsState c) (ip i : Nat) (src : Source) (off n : UInt32)
    (ret : Int) (t : FsState c) : Prop where
  count : 0 ≤ ret
  short : ret < n.toNat
  stored : ∀ x < ret.toNat, t.blockOf sb i (off.toNat + x) ≠ 0 ∧
    t.byteAt sb i (off.toNat + x) = src.byte x
  here : t.blockOf sb i (off.toNat + ret.toNat) = 0
  size : (t.itable ip).size.toNat ≤ max (s.itable ip).size.toNat (off.toNat + ret.toNat)
  blocks : ∀ b, (∀ x < sb.size, b ≠ sb.bblock x) → b ≠ sb.iblock i →
    (b = 0 ∨ ∀ k, b ≠ t.refs sb (i, k)) → t.disk b = s.disk b

section Cut

variable {sb : Superblock} {s before u t : FsState c} {ip i tot : Nat} {src : Source}
  {off n : UInt32} {b : UInt32}

theorem Cut.isData (cut : Cut sb ip i s src off.toNat n.toNat tot b before u t) :
    IsData sb u b.toNat := isData_of_dataSlot cut.provided.result

theorem Cut.stays (cut : Cut sb ip i s src off.toNat n.toNat tot b before u t) (valid : sb.Valid) :
    Stays sb ip i s t := by
  have grown := cut.writes.grow valid cut.provided.grows
  rw [cut.state]
  exact grown.toStays.trans (setBlock_stays valid grown.consistent cut.isData _ (by simp))

theorem Cut.refs (cut : Cut sb ip i s src off.toNat n.toNat tot b before u t) (valid : sb.Valid)
    (held : Held s ip i) : (t.save sb ip ((t.itable ip).grown off tot)).refs sb = u.refs sb := by
  have stays := cut.stays valid
  rw [save_refs valid stays.consistent (held.stays stays) (by simp) (by simp) (by simp) (by simp)
    (by simp), cut.state, setBlock_refs valid cut.provided.grows.consistent cut.isData]

theorem Cut.failed_iff (cut : Cut sb ip i s src off.toNat n.toNat tot b before u t)
    (valid : sb.Valid) : FailedSince s (t.save sb ip ((t.itable ip).grown off tot)) ↔
      freeBlocks sb s.disk < missing (s.refs sb) i (touched off.toNat (tot + 1)) := by
  have stays := cut.stays valid
  rw [failedSince_logWrite stays.trace rfl, ← cut.after.failed_iff]
  have trace : t.trace = u.trace := by
    rw [cut.state]
    exact List.append_nil _
  unfold FailedSince
  rw [trace]

/-- Before the piece nothing but the blocks of the file changed. -/
theorem Cut.disk_eq (cut : Cut sb ip i s src off.toNat n.toNat tot b before u t)
    (found : ¬ FailedSince s before) {x : Nat} (notMap : ∀ y < sb.size, x ≠ sb.bblock y)
    (notOwn : x = 0 ∨ ∀ k, x ≠ u.refs sb (i, k)) : u.disk x = s.disk x := by
  have grows := cut.provided.grows
  rw [grows.disk_eq cut.writes.consistent notMap notOwn,
    cut.writes.blocks found x notMap (grows.notOwn notOwn)]

/-- Where the piece has no block, what is copied of it goes to block 0. -/
theorem Cut.disk_zero (cut : Cut sb ip i s src off.toNat n.toNat tot b before u t)
    (valid : sb.Valid) (found : ¬ FailedSince s before) (zero : b = 0) :
    t.disk 0 = (s.disk 0).copy ((off.toNat + tot) % bsize)
      (src.byte.read tot (validLength src.valid 0 n.toNat - tot)) := by
  have same :=
    cut.disk_eq found (x := 0) (fun y bound => (valid.bblock_ne_zero y bound).symm) (.inl rfl)
  rw [cut.state, zero, ← same]
  exact update_self (UInt32.toNat 0) _ u.disk

/-- So block 0 keeps its contents exactly if it had those bytes. -/
theorem Cut.disk_zero_iff (cut : Cut sb ip i s src off.toNat n.toNat tot b before u t)
    (valid : sb.Valid) (found : ¬ FailedSince s before) (zero : b = 0) :
    t.disk 0 = s.disk 0 ↔ ∀ x, tot ≤ x → x < validLength src.valid 0 n.toNat →
      src.byte x = (s.disk 0).mem ((off.toNat + x) % bsize) := by
  have room := cut.room
  rw [cut.disk_zero valid found zero]
  constructor
  · intro same x low high
    have place := (@div_mod_within bsize (off.toNat + tot) (x - tot) (by omega)).2
    rw [Nat.add_assoc, Nat.add_sub_cancel' low] at place
    rw [place, ← congrArg (fun block : Block => block.mem _) same]
    rw [Buffer.copy_inside _ (by omega) (by rw [Mem.length_read]; omega) (by omega),
      Mem.getD_read _ _ (by omega)]
    congr 1
    omega
  · intro has
    ext p inside
    by_cases here : (off.toNat + tot) % bsize ≤ p ∧
        p < (off.toNat + tot) % bsize + (validLength src.valid 0 n.toNat - tot)
    · have place :=
        (@div_mod_within bsize (off.toNat + tot) (p - (off.toNat + tot) % bsize) (by omega)).2
      rw [Nat.add_sub_cancel' here.1, Nat.add_assoc] at place
      have value := has (tot + (p - (off.toNat + tot) % bsize)) (by omega) (by omega)
      rw [place] at value
      rw [Buffer.copy_inside _ here.1 (by rw [Mem.length_read]; omega) inside,
        Mem.getD_read _ _ (by omega), value]
    · rw [Buffer.copy_outside]
      rw [Mem.length_read]
      omega

/-- The piece has no block where it could not be paid. -/
theorem Cut.zero_of_few (cut : Cut sb ip i s src off.toNat n.toNat tot b before u t)
    (found : ¬ FailedSince s before)
    (few : freeBlocks sb s.disk < missing (s.refs sb) i (touched off.toNat (tot + 1))) : b = 0 := by
  have fills : Fills (s.refs sb) (before.refs sb) i (touched off.toNat tot) := by
    rcases cut.spent with ⟨failed, _⟩ | ⟨_, _, fills⟩
    · exact absurd failed found
    · exact fills
  rcases cut.after with ⟨_, _, bn, member, isZero⟩ | ⟨_, taken, _⟩
  · have inBlock := Nat.mod_lt (off.toNat + tot) bsize_pos
    rw [touched_piece Nat.one_pos (by omega)] at member
    rcases Finset.mem_insert.mp member with rfl | early
    · exact UInt32.toNat_inj.mp (cut.provided.result.trans isZero)
    · have was := fills.data bn early
      rw [cut.provided.grows.kept _ was] at isZero
      exact absurd isZero was
  · omega

/-- A piece whose block was not found before leaves a byte without a block. -/
theorem Cut.lost (cut : Cut sb ip i s src off.toNat n.toNat tot b before u t)
    (failed : FailedSince s before) : ∃ x < tot, u.blockOf sb i (off.toNat + x) = 0 := by
  rcases cut.spent with ⟨_, _, bn, member, isZero⟩ | ⟨found, _⟩
  · obtain ⟨x, early, rfl⟩ := Finset.mem_image.mp member
    refine ⟨x, Finset.mem_range.mp early, ?_⟩
    rw [FsState.blockOf, cut.provided.only _ (fun same => ?_) fun same => ?_]
    · exact isZero
    · exact cut.new (dataSlot_injective (congrArg Prod.snd same) ▸ member)
    · exact dataSlot_ne_indirect _ (congrArg Prod.snd same)
  · exact absurd failed found

/-- A write that is cut in a piece without a block is contained but for block 0. -/
theorem Cut.contained (cut : Cut sb ip i s src off.toNat n.toNat tot b before u t)
    (valid : sb.Valid) (held : Held s ip i) (inside : off.toNat + n.toNat ≤ maxFile * bsize)
    (short : tot < n.toNat) (found : ¬ FailedSince s before) (zero : b = 0)
    (kept : t.disk 0 = s.disk 0) :
    Contained sb s ip i src off n tot (t.save sb ip ((t.itable ip).grown off tot)) := by
  have stays := cut.stays valid
  have heldT := held.stays stays
  have refs := cut.refs valid held
  have isInside := heldT.inside stays.consistent
  have number : ((t.itable ip).grown off tot).inum.toNat = i := by
    rw [Inode.grown_inum]
    exact heldT.loaded.2.2.2
  have uConsistent := cut.provided.grows.consistent
  refine ⟨Int.natCast_nonneg tot, Int.ofNat_lt.mpr short, fun x early => ?_, ?_, ?_, ?_⟩
  · obtain ⟨present, value⟩ := cut.writes.written found (off.toNat + x) (by omega)
      (Nat.add_lt_add_left early _)
    have presentU : u.blockOf sb i (off.toNat + x) ≠ 0 := by
      rw [FsState.blockOf, cut.provided.grows.kept _ present]
      exact present
    have sameT : t.blockOf sb i (off.toNat + x) = u.blockOf sb i (off.toNat + x) := by
      rw [cut.state]
      exact congrFun (setBlock_refs valid uConsistent cut.isData _ _) _
    refine ⟨by rw [FsState.blockOf, refs]; exact presentU, ?_⟩
    rw [save_byteAt valid stays.consistent heldT (by simp) (by simp) (by simp) (by simp) (by simp)
        (sameT ▸ presentU), cut.state, setBlock_byteAt valid uConsistent cut.isData, if_neg,
      cut.provided.grows.byteAt valid cut.writes.consistent present, value, Nat.add_sub_cancel_left]
    rw [zero]
    exact presentU
  · rw [FsState.blockOf, refs, Int.toNat_natCast, ← cut.provided.result, zero]
    rfl
  · change (update t.itable ip _ ip).size.toNat ≤ _
    rw [update_self, Inode.grown_size _ (by omega), stays.node, Int.toNat_natCast]
  · intro x notMap notInode notOwn
    rw [refs] at notOwn
    have saved : (t.save sb ip ((t.itable ip).grown off tot)).disk x = t.disk x := by
      rw [FsState.save, putDinode, number]
      exact update_of_ne notInode _ _
    rw [saved]
    by_cases isZero : x = 0
    · rw [isZero, kept]
    · rw [← cut.disk_eq found notMap notOwn, cut.state, zero]
      exact update_of_ne isZero _ _

/-- A write that is cut reports a missing block exactly if it lacks none before the piece, and
none for the piece or nothing new goes to block 0. -/
theorem Cut.reported_iff (cut : Cut sb ip i s src off.toNat n.toNat tot b before u t)
    (valid : sb.Valid) (held : Held s ip i) (inside : off.toNat + n.toNat ≤ maxFile * bsize)
    (short : tot < n.toNat) :
    (FailedSince s (t.save sb ip ((t.itable ip).grown off tot)) →
        Contained sb s ip i src off n tot (t.save sb ip ((t.itable ip).grown off tot))) ↔
      missing (s.refs sb) i (touched off.toNat tot) ≤ freeBlocks sb s.disk ∧
        (missing (s.refs sb) i (touched off.toNat (tot + 1)) ≤ freeBlocks sb s.disk ∨
          ∀ x, tot ≤ x → x < validLength src.valid 0 n.toNat →
            src.byte x = (s.disk 0).mem ((off.toNat + x) % bsize)) := by
  rw [cut.failed_iff valid]
  by_cases failed : FailedSince s before
  · have few := cut.spent.failed_iff.mp failed
    refine iff_of_false (fun reported => ?_) fun enough => absurd few (Nat.not_lt.mpr enough.1)
    have more :=
      missing_mono (i := i) (s.refs sb) (@touched_mono off.toNat tot _ (Nat.le_succ tot))
    obtain ⟨x, early, lost⟩ := cut.lost failed
    have stored := ((reported (Nat.lt_of_lt_of_le few more)).stored x early).1
    rw [FsState.blockOf, cut.refs valid held] at stored
    exact stored lost
  have enough := Nat.not_lt.mp (cut.spent.failed_iff.not.mp failed)
  by_cases few : freeBlocks sb s.disk < missing (s.refs sb) i (touched off.toNat (tot + 1))
  · have zero := cut.zero_of_few failed few
    have stays := cut.stays valid
    rw [← cut.disk_zero_iff valid failed zero]
    constructor
    · intro reported
      refine ⟨enough, .inr ?_⟩
      have isInside := (held.stays stays).inside stays.consistent
      have same := (reported few).blocks 0 (fun y bound => (valid.bblock_ne_zero y bound).symm)
        (valid.iblock_ne_zero i isInside).symm (.inl rfl)
      rw [← same, FsState.save, putDinode, Inode.grown_inum, (held.stays stays).loaded.2.2.2]
      exact (update_of_ne (valid.iblock_ne_zero i isInside).symm _ _).symm
    · rintro ⟨-, most | kept⟩
      · exact absurd few (Nat.not_lt.mpr most)
      · exact fun _ => cut.contained valid held inside short failed zero kept
  · exact iff_of_true (fun isFew => absurd isFew few) ⟨enough, .inl (Nat.not_lt.mp few)⟩

end Cut

section Writei

variable {sb : Superblock} {s t : FsState c} {ip i : Nat} {src : Source} {off n : UInt32}

theorem Accepted.inside (accepted : Accepted s ip off n) :
    off.toNat + n.toNat ≤ maxFile * bsize := by
  have start := accepted.start
  rw [not_or] at start
  rw [← toNat_add_of_not_lt start.2]
  exact accepted.fits

/-- The plain part stores the whole range, or is cut. -/
theorem writePlain_spent (valid : sb.Valid) (consistent : Consistent sb s) (held : Held s ip i)
    (src : Source) (inside : off.toNat + n.toNat ≤ maxFile * bsize) :
    wp (writePlain sb ip src off n) s (fun ret v =>
        ((∀ x < n.toNat, src.valid x = true) ∧ ret = n.toNat ∧ (FailedSince s v ↔
          freeBlocks sb s.disk < missing (s.refs sb) i (touched off.toNat n.toNat))) ∨
        ∃ tot b before u t, tot < n.toNat ∧ ret = tot ∧
          v = t.save sb ip ((t.itable ip).grown off tot) ∧
          Cut sb ip i s src off.toNat n.toNat tot b before u t)
      fun _ _ => False := by
  have isCount {tot : Nat} (most : tot ≤ n.toNat) : (UInt32.ofNat tot).toInt32.toInt = tot := by
    have : maxFile * bsize < 2 ^ 31 := by decide
    have number : (UInt32.ofNat tot).toNat = tot :=
      UInt32.toNat_ofNat_of_lt' (Nat.lt_of_le_of_lt most n.toNat_lt)
    rw [toInt_of_small (by omega), number]
  unfold writePlain
  rw [wp_bind]
  refine wp_mono (writeLoop_spent valid consistent held src inside) ?_ fun _ _ absurd => absurd
  intro tot t ended
  simp only [wp_bind, wp_pure]
  refine (wp_modifyInode_iupdate sb t ip (fun node => node.grown off tot) _ _).mpr ?_
  rcases ended with ⟨rfl, early, spent, readable⟩ | ⟨short, b, before, u, isCut⟩
  · rw [failedSince_logWrite early rfl]
    exact .inl ⟨readable, isCount (Nat.le_refl _), spent.failed_iff⟩
  · exact .inr ⟨tot, b, before, u, t, short, isCount (Nat.le_of_lt short), rfl, isCut⟩

theorem storeImage_spent (valid : sb.Valid) (consistent : Consistent sb s) (held : Held s ip i)
    (compBuf k : Nat) :
    wp (storeImage sb ip n compBuf k) s
      (fun _ t => FailedSince s t ↔ freeBlocks sb s.disk < missing (s.refs sb) i {0})
      fun _ t => FailedSince s t ↔ freeBlocks sb s.disk < missing (s.refs sb) i {0} := by
  unfold storeImage
  rw [wp_bind]
  refine wp_mono (Spent.start.bmap valid consistent held (List.prefix_refl _) (by decide)
    (Finset.notMem_empty 0)) ?_
    fun _ _ absurd => absurd.elim
  rintro b t ⟨provided, spent⟩
  have few := spent.failed_iff
  rw [insert_empty_eq] at few
  simp only [bread, wp_bind, wp_get, wp_pure, wp_ite]
  split_ifs
  · exact few
  · simp only [logWrite, setBuffer, note, wp_modify, wp_bind]
    refine (wp_modifyInode_iupdate sb _ ip _ _ _).mpr ?_
    have early := provided.grows.trace
    rw [failedSince_logWrite (early.trans (List.prefix_append _ _)) rfl,
      failedSince_logWrite early rfl]
    exact few

theorem writeCompressed_spent (valid : sb.Valid) (inv : FsInv sb s) (held : Held s ip i)
    (sane : PagesSane s) (readable : ∀ x < n.toNat, src.valid x = true) (short : n.toNat ≤ pgSize)
    (page : s.kmem.freelist ≠ []) :
    wp (writeCompressed sb ip src n) s
      (fun early t => early.elim (¬ Compresses s src n ∧ SameFs s t) fun ret =>
        Compresses s src n ∧ ret = n.toNat ∧
          (FailedSince s t ↔ freeBlocks sb s.disk < missing (s.refs sb) i {0}))
      fun _ t => Compresses s src n ∧
        (FailedSince s t ↔ freeBlocks sb s.disk < missing (s.refs sb) i {0}) := by
  have small : n.toNat < 2 ^ 31 := Nat.lt_of_le_of_lt short (by decide)
  have copied : src.copyin 0 n.toNat = src.byte.read 0 n.toNat :=
    Source.copyin_eq fun x low => by rw [Nat.zero_add]; exact readable x low
  have noNull := sane.noNull
  cases pages : s.kmem.freelist with
  | nil => exact absurd pages page
  | cons a rest =>
    have aSome : a ≠ 0 := fun zero => noNull (by rw [pages, zero]; exact List.mem_cons_self)
    by_cases long : CompressionHeader.bytes < n.toNat
    · cases rest with
      | nil =>
        unfold writeCompressed
        rw [wp_bind, wp_kalloc_cons pages, wp_ite, if_neg aSome, wp_bind, copied,
          wp_storePage (by rw [Mem.length_read, Nat.zero_add]; exact short), wp_ite,
          if_neg (by rw [Mem.length_read]; exact Nat.lt_irrefl _), wp_ite, if_neg (by omega),
          wp_bind, wp_kalloc_nil rfl, wp_ite, if_pos rfl, wp_bind, wp_kfree aSome]
        refine ⟨fun compresses => ?_, rfl, rfl, rfl⟩
        have two := compresses.2.1
        rw [pages, List.length_singleton] at two
        exact absurd two (by decide)
      | cons b rest =>
        have two : 2 ≤ s.kmem.freelist.length := by
          rw [pages]
          exact Nat.le_add_left 2 _
        have nodup := sane.nodup
        rw [pages] at nodup noNull
        have different : a ≠ b := fun same => by simp [same] at nodup
        have bSome : b ≠ 0 := fun zero => by simp [zero] at noNull
        refine writeCompressed_packs pages aSome bSome different readable long short ?_ ?_
        · intro t packs positive less
          have spent := storeImage_spent (n := n) valid (inv.consistent.same packs.same)
            (held.same packs.same) b (packed s src n).ret.toNat
          rw [packs.same.refs, packs.same.disk] at spent
          refine wp_mono spent ?_ ?_
          · intro _ u few
            rw [packs.same.failedSince] at few
            exact ⟨⟨long, two, positive, less⟩, toInt_of_small small, few⟩
          · intro _ u few
            rw [packs.same.failedSince] at few
            exact ⟨⟨long, two, positive, less⟩, few⟩
        · intro t packs useless
          exact ⟨fun compresses => useless compresses.2.2, packs.same.disk, packs.same.itable,
            packs.same.trace⟩
    · refine wp_mono (writeCompressed_declines (.inl ⟨Nat.not_lt.mp long, a, rest, pages, aSome⟩)
        readable short) ?_ fun _ _ absurd => absurd.elim
      rintro _ t ⟨rfl, same, _, _⟩
      exact ⟨fun compresses => long compresses.1, same⟩

theorem writeCompressed_gives_up (cause : s.kmem.freelist = [] ∨ pgSize < n.toNat ∨
      ¬ ∀ x < n.toNat, src.valid x = true) :
    wp (writeCompressed sb ip src n) s (fun early t => early = some (-1) ∧ SameFs s t)
      fun _ t => SameFs s t := by
  unfold writeCompressed
  rw [wp_bind]
  by_cases absent : s.kmem.freelist = []
  · rw [wp_kalloc_nil absent, wp_ite, if_pos rfl]
    exact ⟨rfl, SameFs.refl s⟩
  refine wp_mono (kalloc_same s) ?_ fun _ _ absurd => absurd.elim
  intro tempBuf t sameT
  rw [wp_ite]
  by_cases noPage : tempBuf = 0
  · rw [if_pos noPage]
    exact ⟨rfl, sameT⟩
  rw [if_neg noPage, wp_bind]
  by_cases readable : ∀ x < n.toNat, src.valid x = true
  · have large : pgSize < n.toNat :=
      (cause.resolve_left absent).resolve_right fun unreadable => unreadable readable
    have copied : src.copyin 0 n.toNat = src.byte.read 0 n.toNat :=
      Source.copyin_eq fun x low => by rw [Nat.zero_add]; exact readable x low
    unfold storePage
    rw [copied, wp_ite, if_pos (by rw [Mem.length_read, Nat.zero_add]; exact large)]
    exact sameT
  · have short : (src.copyin 0 n.toNat).length < n.toNat := by
      rw [Source.length_copyin]
      refine validLength_lt fun all => readable fun x inside => ?_
      have valid := all x inside
      rwa [Nat.zero_add] at valid
    refine wp_mono (storePage_same t _ _ _) ?_ fun _ _ stopped => sameT.trans stopped.1
    intro _ u sameU
    rw [wp_ite, if_pos short, wp_bind]
    refine wp_mono (kfree_same u tempBuf) ?_ fun _ _ stopped => sameT.trans (sameU.trans stopped.1)
    exact fun _ v sameV => ⟨rfl, sameT.trans (sameU.trans sameV)⟩

theorem wp_writei_plain (accepted : Accepted s ip off n)
    (notStart : ¬ ((s.itable ip).type = tFile ∧ off = 0)) {post : Int → FsState c → Prop}
    {stop : Stop → FsState c → Prop} :
    wp (writei sb ip src off n) s post stop ↔ wp (writePlain sb ip src off n) s post stop := by
  unfold writei
  rw [wp_bind, wp_get, wp_ite, if_neg accepted.start, wp_ite,
    if_neg (Nat.not_lt.mpr accepted.fits), wp_ite, if_neg notStart]

theorem copiedBytes_of_readable (readable : ∀ x < n.toNat, src.valid x = true) :
    validLength src.valid 0 n.toNat = n.toNat ∧ copiedBytes src off.toNat n.toNat = n.toNat := by
  have whole : validLength src.valid 0 n.toNat = n.toNat :=
    validLength_eq fun x below => by rw [Nat.zero_add]; exact readable x below
  exact ⟨whole, if_pos whole⟩

theorem Cut.unreadable {tot : Nat} {b : UInt32} {before u : FsState c}
    (cut : Cut sb ip i s src off.toNat n.toNat tot b before u t) (short : tot < n.toNat) :
    ¬ ∀ x < n.toNat, src.valid x = true := by
  intro readable
  have place := cut.place
  rw [(@copiedBytes_of_readable src off n readable).2] at place
  omega

/-- A write of a readable source runs out of blocks exactly if it needs more than are free, and
returns `n` then. -/
theorem writei_spent (valid : sb.Valid) (inv : FsInv sb s) (held : Held s ip i)
    (sane : PagesSane s) (accepted : Accepted s ip off n)
    (readable : ∀ x < n.toNat, src.valid x = true) :
    wp (writei sb ip src off n) s
      (fun ret t => (FailedSince s t ↔ freeBlocks sb s.disk < blocksNeeded sb s ip i src off n) ∧
        (FailedSince s t → ret = n.toNat))
      fun _ t => FailedSince s t ↔ freeBlocks sb s.disk < blocksNeeded sb s ip i src off n := by
  have inside := accepted.inside
  obtain ⟨whole, all⟩ := @copiedBytes_of_readable src off n readable
  have plain : ∀ t : FsState c, SameFs s t → wp (writePlain sb ip src off n) t (fun ret u =>
      (FailedSince s u ↔
        freeBlocks sb s.disk < missing (s.refs sb) i (touched off.toNat n.toNat)) ∧
        (FailedSince s u → ret = n.toNat)) fun _ _ => False := by
    intro t same
    have spent := writePlain_spent valid (inv.consistent.same same) (held.same same) src inside
    rw [same.refs, same.disk] at spent
    refine wp_mono spent ?_ fun _ _ absurd => absurd
    rintro ret u (⟨_, isN, failed⟩ | ⟨tot, b, before, w, t', short, _, _, isCut⟩)
    · rw [same.failedSince] at failed
      exact ⟨failed, fun _ => isN⟩
    · exact absurd readable (isCut.unreadable short)
  unfold blocksNeeded
  simp only [all, whole, Nat.lt_irrefl, or_false]
  by_cases atStart : (s.itable ip).type = tFile ∧ off = 0
  · obtain ⟨isFile, rfl⟩ := atStart
    rw [if_pos ⟨isFile, rfl⟩,
      wp_writei_file isFile (by rw [← UInt32.zero_add n]; exact accepted.fits)]
    by_cases givesUp : s.kmem.freelist = [] ∨ pgSize < n.toNat
    · rw [if_pos givesUp]
      have few : ∀ t : FsState c, SameFs s t → (FailedSince s t ↔ freeBlocks sb s.disk < 0) :=
        fun t same => iff_of_false same.not_failedSince (Nat.not_lt_zero _)
      refine wp_mono (writeCompressed_gives_up (givesUp.imp_right .inl)) ?_
        fun _ t same => few t same
      rintro _ t ⟨rfl, same⟩
      exact ⟨few t same, fun failed => absurd failed same.not_failedSince⟩
    rw [if_neg givesUp]
    rw [not_or] at givesUp
    refine wp_mono (writeCompressed_spent valid inv held sane readable (Nat.not_lt.mp givesUp.2)
      givesUp.1) ?_ ?_
    · intro early t ended
      cases early with
      | none =>
        rw [if_neg ended.1]
        exact wp_mono (plain t ended.2) (fun _ _ after => after) fun _ _ absurd => absurd.elim
      | some ret =>
        rw [if_pos ended.1]
        exact ⟨ended.2.2, fun _ => ended.2.1⟩
    · rintro _ t ⟨compresses, few⟩
      rw [if_pos compresses]
      exact few
  · rw [if_neg atStart, wp_writei_plain accepted atStart]
    exact wp_mono (plain s (SameFs.refl s)) (fun _ _ after => after) fun _ _ absurd => absurd.elim

/-- Whether running out of blocks is reported and contained, however the write ends. -/
theorem writei_reported (valid : sb.Valid) (inv : FsInv sb s) (held : Held s ip i)
    (sane : PagesSane s) (accepted : Accepted s ip off n) :
    wp (writei sb ip src off n) s
      (fun ret t => (FailedSince s t → Contained sb s ip i src off n ret t) ↔
        blocksNeeded sb s ip i src off n ≤ freeBlocks sb s.disk ∧ CutHarmless sb s ip i src off n)
      fun _ t => ¬ FailedSince s t ↔
        blocksNeeded sb s ip i src off n ≤ freeBlocks sb s.disk ∧
          CutHarmless sb s ip i src off n := by
  by_cases readable : ∀ x < n.toNat, src.valid x = true
  · have harmless : CutHarmless sb s ip i src off n := fun _ short =>
      absurd short (by rw [(copiedBytes_of_readable readable).2]; exact Nat.lt_irrefl _)
    simp only [harmless, and_true, ← Nat.not_lt]
    refine wp_mono (writei_spent valid inv held sane accepted readable) ?_
      fun _ _ failed => failed.not
    rintro ret t ⟨failed, isN⟩
    rw [← failed]
    refine ⟨fun reported out => ?_, fun found out => absurd out found⟩
    have short := (reported out).short
    rw [isN out] at short
    exact Int.lt_irrefl _ short
  have cut : validLength src.valid 0 n.toNat < n.toNat :=
    validLength_lt fun all => readable fun x below => by
      have := all x below
      rwa [Nat.zero_add] at this
  unfold blocksNeeded
  by_cases atStart : (s.itable ip).type = tFile ∧ off = 0
  · obtain ⟨isFile, rfl⟩ := atStart
    rw [if_pos ⟨isFile, rfl⟩, if_pos (.inr (.inr cut)),
      wp_writei_file isFile (by rw [← UInt32.zero_add n]; exact accepted.fits)]
    have fine : 0 ≤ freeBlocks sb s.disk ∧ CutHarmless sb s ip i src 0 n :=
      ⟨Nat.zero_le _, fun other => absurd ⟨isFile, rfl⟩ other⟩
    refine wp_mono (writeCompressed_gives_up (.inr (.inr readable))) ?_
      fun _ t same => iff_of_true same.not_failedSince fine
    rintro _ t ⟨rfl, same⟩
    exact iff_of_true (fun failed => absurd failed same.not_failedSince) fine
  · unfold CutHarmless
    rw [if_neg atStart, wp_writei_plain accepted atStart]
    refine wp_mono (writePlain_spent valid inv.consistent held src accepted.inside) ?_
      fun _ _ absurd => absurd.elim
    rintro ret v (⟨all, _⟩ | ⟨tot, b, before, u, t, short, rfl, rfl, isCut⟩)
    · exact absurd all readable
    · rw [isCut.reported_iff valid held accepted.inside short, isCut.place]
      have shortCopied : copiedBytes src off.toNat n.toNat < n.toNat := isCut.place ▸ short
      simp only [atStart, not_false_eq_true, shortCopied, true_implies]

end Writei

/-! ### What `writei` does about it -/

/-- A new name for a directory whose entries are all in use. -/
structure MustExtend (s : FsState c) (dp count : Nat) (name : Mem) : Prop where
  entries : HasEntries s dp count
  all : (s.itable dp).size.toNat = Dirent.bytes * count
  used : ∀ j < count, (dirEntry s.disk (s.itable dp).toDinode j).inum ≠ 0
  unnamed : ∀ j < count, ¬ Matches s.disk (s.itable dp).toDinode name j

/-- Running out of blocks is reported and contained in a write of `n` bytes of `src` at `off`,
and by `dirlink` where that is the write it makes. -/
structure SpaceReported (sb : Superblock) (s : FsState c) (ip i : Nat) (src : Source)
    (off n : UInt32) : Prop where
  writes : wp (writei sb ip src off n) s
    (fun ret t => FailedSince s t → Contained sb s ip i src off n ret t)
    fun _ t => ¬ FailedSince s t
  links : off = (s.itable ip).size → n = UInt32.ofNat Dirent.bytes → ∀ count name inum,
    src = kernelSource (newEntry name inum).put →
    MustExtend s ip count name → wp (dirlink sb ip name inum) s
      (fun ret t => FailedSince s t → ret = -1) fun _ t => ¬ FailedSince s t

/-- Missing blocks are reported by a write exactly if it lacks none for the pieces that it copies
whole, and none for a piece in which its source becomes unreadable, unless block 0 has those
bytes. A write that runs out of blocks before returns the number of bytes it copied. -/
theorem space_reported_iff {sb : Superblock} {s : FsState c} {ip i : Nat} {src : Source}
    {off n : UInt32} (valid : sb.Valid) (inv : FsInv sb s) (loaded : Loaded s.itable ip i)
    (sane : PagesSane s) (accepted : Accepted s ip off n) :
    SpaceReported sb s ip i src off n ↔
      blocksNeeded sb s ip i src off n ≤ freeBlocks sb s.disk ∧
        CutHarmless sb s ip i src off n := by
  have held := inv.held loaded
  have reported := wp_iff_of (@writei_reported c sb s ip i src off n valid inv held sane accepted)
  refine ⟨fun both => reported.mp both.writes, fun enough => ⟨reported.mpr enough, ?_⟩⟩
  -- the entry that `dirlink` writes is readable, so that no `balloc` fails
  rintro rfl rfl count name inum rfl must
  refine dirlink_full must.entries must.all must.used must.unnamed ?_
  refine wp_mono (writei_spent valid inv held sane accepted fun _ _ => rfl) ?_ ?_
  · exact fun _ t after failed => absurd (after.1.mp failed) (Nat.not_lt.mpr enough.1)
  · exact fun _ t failed => failed.not.mpr (Nat.not_lt.mpr enough.1)

/-- Three bytes in the empty directory need one block, and there are some. -/
theorem space_reported_iff_emptyDir : SpaceReported smallDisk emptyDir 0 1 threeBytes 0 3 := by
  refine (space_reported_iff smallDisk_valid emptyDir_represents.inv
    ⟨by decide, by decide, rfl, rfl⟩
    ⟨List.nodup_nil, List.not_mem_nil, List.not_mem_nil⟩ ⟨by decide, by decide⟩).mpr ⟨?_, ?_⟩
  · decide +kernel
  · exact fun _ short => absurd short (by decide)

/-- A disk of 16 blocks without data blocks. -/
def fullDisk : Superblock := ⟨16, 0, 16, 2, 3⟩

/-- An empty directory on it. -/
def fullDir : FsState huffman :=
  oneInode fullDisk Huffman.Static.clear ⟨[], fun _ => Buffer.fill 0⟩
    { Dinode.zero with type := tDir, nlink := 1 }

/-- On a disk without a free block `writei` returns 16 for bytes that went to block 0, and
`dirlink` returns 0 for an entry that was never stored. -/
theorem fullDir_not_reported :
    ¬ SpaceReported fullDisk fullDir 0 1 threeBytes 0 16 ∧
      wp (writei fullDisk 0 threeBytes 0 16) fullDir (fun ret t => FailedSince fullDir t ∧ ret = 16)
        (fun _ _ => False) ∧
      wp (dirlink fullDisk 0 threeBytes.byte 1) fullDir
        (fun ret t => FailedSince fullDir t ∧ ret = 0) fun _ _ => False := by
  have written : wp (writei fullDisk 0 threeBytes 0 16) fullDir
      (fun ret t => FailedSince fullDir t ∧ ret = 16) fun _ _ => False := by decide +kernel
  refine ⟨fun reported => ?_, written, by decide +kernel⟩
  refine of_wp (wp_mono (wp_inter written reported.writes) ?_ fun _ _ stopped => stopped.1)
  rintro ret t ⟨⟨failed, isN⟩, contained⟩
  have short := (contained failed).short
  rw [isN] at short
  exact absurd short (by decide)

end Xv6.Kernel.Fs
