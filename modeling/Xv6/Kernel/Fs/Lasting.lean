import Xv6.Lib.Preserves
import Xv6.Kernel.Fs.Dir

/-!
A failed `balloc` stays on record.

Owns: that no function of the file system takes the record of a failed `balloc`
back, so that one who finds none at the end of a call knows that there was none at
any point of it.

Does not own: what a call does otherwise.
-/

namespace Xv6.Kernel.Fs

open Xv6.Lib

variable {c : Codec}

/-- Only the record of the calls counts. -/
theorem OutOfBlocks.same_trace {s t : FsState c} (out : OutOfBlocks s) (same : t.trace = s.trace) :
    OutOfBlocks t :=
  out.mono (by rw [same])

theorem modify_lasting {change : FsState c → FsState c} (same : ∀ s, (change s).trace = s.trace) :
    Preserves OutOfBlocks (modify change : FsM c PUnit) :=
  .modify fun s out => out.same_trace (same s)

/-! ### Blocks and inodes -/

theorem bread_lasting (b : Nat) : Preserves OutOfBlocks (bread b : FsM c Block) :=
  .get fun _ _ => .pure _

/-- The record only grows. -/
theorem note_lasting (event : Event) : Preserves OutOfBlocks (note event : FsM c PUnit) :=
  .modify fun _ out => out.mono (List.prefix_append _ _)

theorem logWrite_lasting (b : Nat) (data : Block) :
    Preserves OutOfBlocks (logWrite b data : FsM c PUnit) :=
  .bind (modify_lasting fun _ => rfl) fun _ => note_lasting _

theorem modifyInode_lasting (ip : Nat) (change : Inode → Inode) :
    Preserves OutOfBlocks (modifyInode ip change : FsM c PUnit) :=
  modify_lasting fun _ => rfl

/-- A later search of the bitmap does not hide an earlier failure. -/
theorem ballocFrom_lasting (sb : Superblock) (b : Nat) :
    Preserves OutOfBlocks (ballocFrom sb b : FsM c UInt32) := by
  generalize remaining : sb.size - b = left
  induction left using Nat.strong_induction_on generalizing b with
  | _ left ih =>
    have positive : 0 < bpb := by decide
    unfold ballocFrom
    by_cases inside : b < sb.size
    · rw [if_pos inside]
      refine (bread_lasting _).bind fun bp => ?_
      cases (List.range (min bpb (sb.size - b))).find? fun bi => !testBit bp bi with
      | some bi =>
        exact (logWrite_lasting _ _).bind fun _ => (logWrite_lasting _ _).bind fun _ => .pure _
      | none => exact ih _ (by omega) (b + bpb) rfl
    · rw [if_neg inside]
      exact .pure _

theorem balloc_lasting (sb : Superblock) : Preserves OutOfBlocks (balloc sb : FsM c UInt32) :=
  .get fun _ _ => (ballocFrom_lasting sb 0).bind fun _ => (note_lasting _).bind fun _ => .pure _

theorem bfree_lasting (sb : Superblock) (b : Nat) :
    Preserves OutOfBlocks (bfree sb b : FsM c PUnit) :=
  (bread_lasting _).bind fun _ => .ite (.throw _) (logWrite_lasting _ _)

theorem iupdate_lasting (sb : Superblock) (ip : Nat) :
    Preserves OutOfBlocks (iupdate sb ip : FsM c PUnit) :=
  .get fun _ _ => (bread_lasting _).bind fun _ => logWrite_lasting _ _

theorem iget_lasting (inum : UInt32) : Preserves OutOfBlocks (iget inum : FsM c Nat) := by
  refine .get fun s _ => ?_
  cases igetSlot s.itable inum with
  | none => exact .throw _
  | some ip =>
    dsimp only
    split_ifs
    · exact (modifyInode_lasting _ _).bind fun _ => .pure _
    · exact (modifyInode_lasting _ _).bind fun _ => .pure _

theorem inodeAddr_lasting (sb : Superblock) (ip : Nat) (k : Fin (ndirect + 1)) :
    Preserves OutOfBlocks (inodeAddr sb ip k : FsM c UInt32) := by
  refine .get fun s _ => .ite ((balloc_lasting sb).bind fun addr => .ite (.pure _) ?_) (.pure _)
  exact (modifyInode_lasting _ _).bind fun _ => .pure _

/-- `bmap` returns 0 without panicking when `balloc` fails, so its callers go on. -/
theorem bmap_lasting (sb : Superblock) (ip bn : Nat) :
    Preserves OutOfBlocks (bmap sb ip bn : FsM c UInt32) := by
  unfold bmap
  split_ifs with direct inside
  · exact inodeAddr_lasting sb ip _
  · refine (inodeAddr_lasting sb ip _).bind fun _ => .ite (.pure _) ?_
    refine (bread_lasting _).bind fun _ => .ite ((balloc_lasting sb).bind fun _ => ?_) (.pure _)
    exact .ite (.pure _) ((logWrite_lasting _ _).bind fun _ => .pure _)
  · exact .throw _

theorem truncDirect_lasting (sb : Superblock) (ip : Nat) (k : Fin (ndirect + 1)) :
    Preserves OutOfBlocks (truncDirect sb ip k : FsM c PUnit) :=
  .get fun _ _ => .ite (.pure _) ((bfree_lasting sb _).bind fun _ => modifyInode_lasting _ _)

theorem truncEntry_lasting (sb : Superblock) (bp : Block) (j : Nat) :
    Preserves OutOfBlocks (truncEntry sb bp j : FsM c PUnit) :=
  .ite (.pure _) (bfree_lasting sb _)

/-- Freeing blocks does not undo a failure. -/
theorem itrunc_lasting (sb : Superblock) (ip : Nat) :
    Preserves OutOfBlocks (itrunc sb ip : FsM c PUnit) := by
  have indirect : Preserves OutOfBlocks (truncIndirect sb ip : FsM c PUnit) :=
    .get fun _ _ => .ite (.pure _) ((bread_lasting _).bind fun bp =>
      .bind (.forEach (truncEntry_lasting sb bp) _) fun _ => truncDirect_lasting sb ip _)
  exact .bind (.forEach (truncDirect_lasting sb ip) _) fun _ => indirect.bind fun _ =>
    (modifyInode_lasting _ _).bind fun _ => iupdate_lasting sb ip

theorem iput_lasting (sb : Superblock) (ip : Nat) :
    Preserves OutOfBlocks (iput sb ip : FsM c PUnit) := by
  have free : Preserves OutOfBlocks (ifree sb ip : FsM c PUnit) :=
    (itrunc_lasting sb ip).bind fun _ => (modifyInode_lasting _ _).bind fun _ =>
      (iupdate_lasting sb ip).bind fun _ => modifyInode_lasting _ _
  exact .get fun _ _ => .ite (free.bind fun _ => modifyInode_lasting _ _) (modifyInode_lasting _ _)

/-! ### Reading -/

theorem storePage_lasting (page offset : Nat) (bytes : List UInt8) :
    Preserves OutOfBlocks (storePage page offset bytes : FsM c PUnit) :=
  .ite (.throw _) (modify_lasting fun _ => rfl)

theorem kalloc_lasting : Preserves OutOfBlocks (kalloc : FsM c Nat) := by
  refine .get fun s out => ?_
  cases s.kmem.freelist with
  | nil => exact .pure _
  | cons r rest => exact .bind (.set (out.same_trace rfl)) fun _ => .pure _

theorem kfree_lasting (pa : Nat) : Preserves OutOfBlocks (kfree pa : FsM c PUnit) :=
  .ite (.throw _) (modify_lasting fun _ => rfl)

theorem modifyCache_lasting (change : DecompCache → DecompCache) :
    Preserves OutOfBlocks (modifyCache change : FsM c PUnit) :=
  modify_lasting fun _ => rfl

theorem copyout_lasting (valid : Nat → Bool) (offset : Nat) (bytes : List UInt8) :
    Preserves OutOfBlocks (copyout valid offset bytes : FsM c Bool) := by
  unfold copyout
  exact .bind (modify_lasting fun _ => rfl) fun _ => .pure _

theorem decompressPage_lasting (compBuf : Nat) (compSize : UInt32) (decompBuf : Nat)
    (length : UInt32) :
    Preserves OutOfBlocks (decompressPage compBuf compSize decompBuf length : FsM c Int) := by
  refine .get fun s out => ?_
  cases c.decompress s.codec (s.kmem.page compBuf).mem compSize.toInt32
      (s.kmem.page decompBuf).mem length.toInt32 with
  | none => exact .throw _
  | some result =>
    exact .ite (.throw _) (.bind (.set (out.same_trace rfl)) fun _ => .pure _)

/-- The cache is filled through `bmap`, which may allocate. -/
theorem fillCache_lasting (sb : Superblock) (ip : Nat) (ch : CompressionHeader) :
    Preserves OutOfBlocks (fillCache sb ip ch : FsM c Bool) := by
  have drop : Preserves OutOfBlocks (dropCache : FsM c PUnit) :=
    .get fun _ _ => .ite (.pure _) ((kfree_lasting _).bind fun _ => modifyCache_lasting _)
  have piece : ∀ compBuf tot m,
      Preserves OutOfBlocks (copyImagePiece sb ip compBuf tot m : FsM c Bool) :=
    fun _ _ _ => (bmap_lasting sb ip _).bind fun _ => (bread_lasting _).bind fun _ =>
      (storePage_lasting _ _ _).bind fun _ => .pure _
  have image : ∀ compBuf decompBuf,
      Preserves OutOfBlocks (decompressImage sb ip ch compBuf decompBuf : FsM c Bool) := by
    intro compBuf decompBuf
    refine .get fun s _ => .bind (.chunkLoop (piece compBuf) 0) fun _ => ?_
    refine (decompressPage_lasting _ _ _ _).bind fun size =>
      (kfree_lasting _).bind fun _ => .ite ?_ ?_
    · exact (kfree_lasting _).bind fun _ => (modifyCache_lasting _).bind fun _ => .pure _
    · exact (modifyCache_lasting _).bind fun _ => .pure _
  refine drop.bind fun _ => kalloc_lasting.bind fun compBuf => kalloc_lasting.bind fun decompBuf =>
    (modifyCache_lasting _).bind fun _ => .ite ?_ (image compBuf decompBuf)
  have give : Preserves OutOfBlocks (kfreeUnlessNull compBuf : FsM c PUnit) :=
    .ite (.pure _) (kfree_lasting _)
  exact give.bind fun _ => (modifyCache_lasting _).bind fun _ => .pure _

/-- A read keeps the record, from the blocks or through the decompression cache. -/
theorem readi_lasting (sb : Superblock) (ip : Nat) (valid : Nat → Bool) (off n : UInt32) :
    Preserves OutOfBlocks (readi sb ip valid off n : FsM c Int) := by
  have plain : ∀ n, Preserves OutOfBlocks (readPlain sb ip valid off n : FsM c Int) := by
    intro n
    refine .bind (.chunkLoop (fun tot m => ?_) 0) fun _ => .ite (.pure _) (.pure _)
    exact (bmap_lasting sb ip _).bind fun _ => (bread_lasting _).bind fun _ => copyout_lasting _ _ _
  have cached : ∀ n, Preserves OutOfBlocks (readCached valid off n : FsM c Int) := by
    intro n
    refine .get fun s _ => .ite (.pure _) (.ite (.throw _) ?_)
    exact (copyout_lasting _ _ _).bind fun _ => .ite (.pure _) (.pure _)
  have compressed : ∀ n ch,
      Preserves OutOfBlocks (readCompressed sb ip valid off n ch : FsM c Int) := by
    intro n ch
    refine .get fun s _ => .ite ?_ (cached n)
    exact (fillCache_lasting sb ip ch).bind fun _ => .ite (cached n) (.pure _)
  refine .get fun s _ => .ite (.pure _) (.ite ?_ (plain _))
  exact (bmap_lasting sb ip 0).bind fun _ => (bread_lasting _).bind fun _ =>
    .ite (compressed _ _) (plain _)

/-! ### Writing -/

theorem compressPage_lasting (tempBuf : Nat) (n : UInt32) (compBuf : Nat) :
    Preserves OutOfBlocks (compressPage tempBuf n compBuf : FsM c Int) :=
  .get fun _ out => .bind (.set (out.same_trace rfl)) fun _ => .pure _

theorem storeImage_lasting (sb : Superblock) (ip : Nat) (n : UInt32) (compBuf compSize : Nat) :
    Preserves OutOfBlocks (storeImage sb ip n compBuf compSize : FsM c PUnit) :=
  (bmap_lasting sb ip 0).bind fun _ => (bread_lasting _).bind fun _ => .get fun _ _ =>
    .ite (.throw _) ((logWrite_lasting _ _).bind fun _ => (modifyInode_lasting _ _).bind fun _ =>
      iupdate_lasting sb ip)

theorem writeCompressed_lasting (sb : Superblock) (ip : Nat) (src : Source) (n : UInt32) :
    Preserves OutOfBlocks (writeCompressed sb ip src n : FsM c (Option Int)) := by
  refine kalloc_lasting.bind fun tempBuf => .ite (.pure _) ?_
  have give : ∀ result : Option Int,
      Preserves OutOfBlocks (do kfree tempBuf; pure result : FsM c (Option Int)) :=
    fun _ => (kfree_lasting _).bind fun _ => .pure _
  refine (storePage_lasting _ _ _).bind fun _ => .ite (give _) (.ite (give _) ?_)
  refine kalloc_lasting.bind fun compBuf => .ite (give _) ?_
  refine (compressPage_lasting _ _ _).bind fun compSize => .ite ?_ ?_
  · exact (storeImage_lasting sb ip n _ _).bind fun _ => (kfree_lasting _).bind fun _ =>
      (kfree_lasting _).bind fun _ => .pure _
  · exact (kfree_lasting _).bind fun _ => give _

/-- A write keeps the record, compressed or not. -/
theorem writei_lasting (sb : Superblock) (ip : Nat) (src : Source) (off n : UInt32) :
    Preserves OutOfBlocks (writei sb ip src off n : FsM c Int) := by
  have piece : ∀ tot m,
      Preserves OutOfBlocks (writePiece sb ip src off.toNat tot m : FsM c Bool) := by
    intro tot m
    refine (bmap_lasting sb ip _).bind fun _ => (bread_lasting _).bind fun _ => .ite ?_ ?_
    · exact .bind (modify_lasting fun _ => rfl) fun _ => .pure _
    · exact (logWrite_lasting _ _).bind fun _ => .pure _
  have plain : Preserves OutOfBlocks (writePlain sb ip src off n : FsM c Int) :=
    .bind (.chunkLoop piece 0) fun _ => (modifyInode_lasting _ _).bind fun _ =>
      (iupdate_lasting sb ip).bind fun _ => .pure _
  refine .get fun s _ => .ite (.pure _) (.ite (.pure _) (.ite ?_ plain))
  refine (writeCompressed_lasting sb ip src n).bind fun early => ?_
  cases early with
  | none => exact plain
  | some ret => exact .pure _

/-! ### Directories -/

theorem readKernel_lasting (sb : Superblock) (ip : Nat) (off n : UInt32) :
    Preserves OutOfBlocks (readKernel sb ip off n : FsM c (Int × Mem)) :=
  .get fun _ _ => (readi_lasting sb ip _ off n).bind fun _ => .get fun _ out =>
    .bind (.set (out.same_trace rfl)) fun _ => .pure _

theorem dirlookupFrom_lasting (sb : Superblock) (dp : Nat) (name : Mem) (size off : Nat) :
    Preserves OutOfBlocks (dirlookupFrom sb dp name size off : FsM c (Option (Nat × Nat))) := by
  generalize remaining : size - off = left
  induction left using Nat.strong_induction_on generalizing off with
  | _ left ih =>
    have positive : 0 < Dirent.bytes := by decide
    unfold dirlookupFrom
    by_cases inside : off < size
    · have rest := ih (size - (off + Dirent.bytes)) (by omega)
        (off + Dirent.bytes) rfl
      rw [if_pos inside]
      refine (readKernel_lasting sb dp _ _).bind fun de =>
        .ite (.throw _) (.ite rest (.ite ?_ rest))
      exact (iget_lasting _).bind fun _ => .pure _
    · rw [if_neg inside]
      exact .pure _

theorem unusedFrom_lasting (sb : Superblock) (dp size off : Nat) :
    Preserves OutOfBlocks (unusedFrom sb dp size off : FsM c Nat) := by
  generalize remaining : size - off = left
  induction left using Nat.strong_induction_on generalizing off with
  | _ left ih =>
    have positive : 0 < Dirent.bytes := by decide
    unfold unusedFrom
    by_cases inside : off < size
    · have rest := ih (size - (off + Dirent.bytes)) (by omega)
        (off + Dirent.bytes) rfl
      rw [if_pos inside]
      exact (readKernel_lasting sb dp _ _).bind fun de => .ite (.throw _) (.ite (.pure _) rest)
    · rw [if_neg inside]
      exact .pure _

/-- `dirlink`, the last of the calls that may allocate, keeps it too. -/
theorem dirlink_lasting (sb : Superblock) (dp : Nat) (name : Mem) (inum : UInt32) :
    Preserves OutOfBlocks (dirlink sb dp name inum : FsM c Int) := by
  have lookup : Preserves OutOfBlocks (dirlookup sb dp name : FsM c (Option (Nat × Nat))) :=
    .get fun _ _ => .ite (.throw _) (dirlookupFrom_lasting sb dp name _ 0)
  refine lookup.bind fun found => ?_
  cases found with
  | some entry => exact (iput_lasting sb _).bind fun _ => .pure _
  | none =>
    refine .get fun s _ => (unusedFrom_lasting sb dp _ 0).bind fun off => ?_
    exact (writei_lasting sb dp _ _ _).bind fun _ => .ite (.pure _) (.pure _)

end Xv6.Kernel.Fs
