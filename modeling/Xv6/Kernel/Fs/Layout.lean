import Xv6.Kernel.Param
import Xv6.Lib.Bits

/-!
The on-disk format of `fs.h`: superblock, inode records, the free bitmap and the
header of a compressed file.

Owns: where an inode, a bitmap bit and an indirect entry live, reading and
storing them in a block, and that a store changes nothing else.

Does not own: which inode or block is in use.
-/

namespace Xv6.Kernel.Fs

open Xv6.Lib Function

/-! ### Geometry -/

/-- `struct superblock`, without the magic number and the log's share. -/
structure Superblock where
  size : Nat
  nblocks : Nat
  ninodes : Nat
  inodestart : Nat
  bmapstart : Nat
deriving DecidableEq, Repr

namespace Superblock

/-- `IBLOCK(i, sb)` -/
def iblock (sb : Superblock) (i : Nat) : Nat := i / ipb + sb.inodestart

/-- `BBLOCK(b, sb)` -/
def bblock (sb : Superblock) (b : Nat) : Nat := b / bpb + sb.bmapstart

/-- The first data block; the blocks below it are metadata. -/
def dataStart (sb : Superblock) : Nat := sb.size - sb.nblocks

/-- The layout `mkfs` makes: boot block, inode blocks and bitmap blocks are
different metadata blocks, and block and inode numbers are C `int`s. -/
structure Valid (sb : Superblock) : Prop where
  boot : 0 < sb.dataStart
  small : sb.size ≤ 2 ^ 31
  few : sb.ninodes ≤ 2 ^ 31
  iblock_meta : ∀ i < sb.ninodes, sb.iblock i < sb.dataStart
  bblock_meta : ∀ b < sb.size, sb.bblock b < sb.dataStart
  iblock_ne_zero : ∀ i < sb.ninodes, sb.iblock i ≠ 0
  bblock_ne_zero : ∀ b < sb.size, sb.bblock b ≠ 0
  iblock_ne_bblock : ∀ i < sb.ninodes, ∀ b < sb.size, sb.iblock i ≠ sb.bblock b

end Superblock

/-! ### Inode records -/

/-- `struct dinode`. A `short` is its bit pattern. -/
structure Dinode where
  type : UInt16
  major : UInt16
  minor : UInt16
  nlink : UInt16
  size : UInt32
  addrs : Fin (ndirect + 1) → UInt32

namespace Dinode

/-- `sizeof(struct dinode)` -/
def bytes : Nat := 64

/-- The record of an inode in its block. -/
def get (b : Block) (index : Nat) : Dinode where
  type := b.mem.le16 (bytes * index)
  major := b.mem.le16 (bytes * index + 2)
  minor := b.mem.le16 (bytes * index + 4)
  nlink := b.mem.le16 (bytes * index + 6)
  size := b.mem.le32 (bytes * index + 8)
  addrs := fun k => b.mem.le32 (bytes * index + 12 + 4 * k)

/-- Store a record field by field, as `iupdate` does. -/
def put (b : Block) (index : Nat) (node : Dinode) : Block :=
  (((((b.set16 (bytes * index) node.type).set16 (bytes * index + 2) node.major).set16
    (bytes * index + 4) node.minor).set16 (bytes * index + 6) node.nlink).set32
    (bytes * index + 8) node.size).putWords (bytes * index + 12) (List.ofFn node.addrs)

/-- The record of a cleared inode. -/
def zero : Dinode := ⟨0, 0, 0, 0, 0, fun _ => 0⟩

theorem put_outside (b : Block) (index : Nat) (node : Dinode) {i : Nat}
    (outside : i < bytes * index ∨ bytes * index + bytes ≤ i) :
    (put b index node).mem i = b.mem i := by
  have words : (List.ofFn node.addrs).length = 13 := List.length_ofFn
  unfold bytes at *
  rw [put, Buffer.putWords_outside _ (by rw [words]; unfold bytes; omega),
    Buffer.set32_outside _ _ (by unfold bytes; omega),
    Buffer.set16_outside _ _ (by unfold bytes; omega),
    Buffer.set16_outside _ _ (by unfold bytes; omega),
    Buffer.set16_outside _ _ (by unfold bytes; omega),
    Buffer.set16_outside _ _ (by unfold bytes; omega)]

/-- Reading a stored record gives it back. -/
theorem get_put (b : Block) {index : Nat} (inside : index < ipb) (node : Dinode) :
    get (put b index node) index = node := by
  have words : (List.ofFn node.addrs).length = 13 := List.length_ofFn
  have room : bytes * index + 64 ≤ bsize := by
    unfold bytes ipb bsize at *
    omega
  obtain ⟨type, major, minor, nlink, size, addrs⟩ := node
  unfold get put
  congr 1
  · rw [Buffer.le16_putWords_outside _ (by omega), Buffer.le16_set32_outside _ _ (by omega),
      Buffer.le16_set16_outside _ _ (by omega), Buffer.le16_set16_outside _ _ (by omega),
      Buffer.le16_set16_outside _ _ (by omega), Buffer.le16_set16 _ _ (by omega)]
  · rw [Buffer.le16_putWords_outside _ (by omega), Buffer.le16_set32_outside _ _ (by omega),
      Buffer.le16_set16_outside _ _ (by omega), Buffer.le16_set16_outside _ _ (by omega),
      Buffer.le16_set16 _ _ (by omega)]
  · rw [Buffer.le16_putWords_outside _ (by omega), Buffer.le16_set32_outside _ _ (by omega),
      Buffer.le16_set16_outside _ _ (by omega), Buffer.le16_set16 _ _ (by omega)]
  · rw [Buffer.le16_putWords_outside _ (by omega), Buffer.le16_set32_outside _ _ (by omega),
      Buffer.le16_set16 _ _ (by omega)]
  · rw [Buffer.le32_putWords_outside _ (by omega), Buffer.le32_set32 _ _ (by omega)]
  · funext k
    rw [Buffer.le32_putWords _ (by rw [words]; omega) (by rw [words]; exact k.isLt),
      List.getElem_ofFn]

/-- The other records of the block are not touched. -/
theorem get_congr {b b' : Block} {index : Nat}
    (same : ∀ i, bytes * index ≤ i → i < bytes * index + bytes → b.mem i = b'.mem i) :
    get b index = get b' index := by
  unfold bytes at same
  unfold get
  congr 1
  · exact Mem.le16_congr fun i _ => same _ (by unfold bytes; omega) (by unfold bytes; omega)
  · exact Mem.le16_congr fun i _ => same _ (by unfold bytes; omega) (by unfold bytes; omega)
  · exact Mem.le16_congr fun i _ => same _ (by unfold bytes; omega) (by unfold bytes; omega)
  · exact Mem.le16_congr fun i _ => same _ (by unfold bytes; omega) (by unfold bytes; omega)
  · exact Mem.le32_congr fun i _ => same _ (by unfold bytes; omega) (by unfold bytes; omega)
  · funext k
    have := k.isLt
    unfold ndirect at this
    exact Mem.le32_congr fun i _ => same _ (by unfold bytes; omega) (by unfold bytes; omega)

theorem get_put_other (b : Block) {index other : Nat} (different : other ≠ index) (node : Dinode) :
    get (put b index node) other = get b other := by
  apply get_congr
  intro i low high
  unfold bytes at low high
  exact put_outside b index node (by unfold bytes; omega)

end Dinode

/-- The inode with number `i` on disk. -/
def dinode (sb : Superblock) (disk : Disk) (i : Nat) : Dinode :=
  Dinode.get (disk (sb.iblock i)) (i % ipb)

/-- The disk after storing the inode with number `i`. -/
def putDinode (sb : Superblock) (disk : Disk) (i : Nat) (node : Dinode) : Disk :=
  update disk (sb.iblock i) (Dinode.put (disk (sb.iblock i)) (i % ipb) node)

theorem dinode_putDinode (sb : Superblock) (disk : Disk) (i : Nat) (node : Dinode) :
    dinode sb (putDinode sb disk i node) i = node := by
  rw [dinode, putDinode, update_self]
  exact Dinode.get_put _ (Nat.mod_lt _ (by decide)) node

theorem dinode_putDinode_other (sb : Superblock) (disk : Disk) {i j : Nat} (different : j ≠ i)
    (node : Dinode) : dinode sb (putDinode sb disk i node) j = dinode sb disk j := by
  unfold dinode putDinode
  by_cases sameBlock : sb.iblock j = sb.iblock i
  · rw [sameBlock, update_self]
    apply Dinode.get_put_other
    unfold Superblock.iblock ipb at sameBlock
    unfold ipb
    omega
  · rw [update_of_ne sameBlock]

/-- An inode depends on its block only. -/
theorem dinode_congr {sb : Superblock} {disk disk' : Disk} {i : Nat}
    (same : disk' (sb.iblock i) = disk (sb.iblock i)) : dinode sb disk' i = dinode sb disk i := by
  rw [dinode, dinode, same]

/-! ### The free bitmap -/

/-- `bp->data[bi/8] & (1 << (bi % 8))` is not zero. -/
def testBit (bp : Block) (bi : Nat) : Bool := bp.mem (bi / 8) &&& mask (bi % 8) ≠ 0

/-- `bp->data[bi/8] |= 1 << (bi % 8)` -/
def setBit (bp : Block) (bi : Nat) : Block :=
  bp.copy (bi / 8) [bp.mem (bi / 8) ||| mask (bi % 8)]

/-- `bp->data[bi/8] &= ~(1 << (bi % 8))` -/
def clearBit (bp : Block) (bi : Nat) : Block :=
  bp.copy (bi / 8) [bp.mem (bi / 8) &&& ~~~mask (bi % 8)]

theorem testBit_eq (bp : Block) (bi : Nat) :
    testBit bp bi = bitOf (bp.mem (bi / 8)) (bi % 8) := by
  have test := and_mask_eq_zero (bp.mem (bi / 8)) (Nat.mod_lt bi (by decide : 0 < 8))
  unfold testBit
  cases value : bitOf (bp.mem (bi / 8)) (bi % 8)
  · simpa using test.mpr value
  · rw [value] at test
    simpa using test

theorem testBit_copy_byte (bp : Block) {bi : Nat} (inside : bi < bpb) (byte : UInt8) (bj : Nat) :
    testBit (bp.copy (bi / 8) [byte]) bj =
      if bj / 8 = bi / 8 then bitOf byte (bj % 8) else testBit bp bj := by
  have room : bi / 8 < bsize := by
    unfold bpb at inside
    omega
  rw [testBit_eq, testBit_eq]
  split_ifs with sameByte
  · rw [sameByte, Buffer.copy_inside _ (Nat.le_refl _) (by simp) room]
    simp
  · rw [Buffer.copy_outside _ (by simp only [List.length_singleton]; omega)]

theorem testBit_setBit (bp : Block) {bi : Nat} (inside : bi < bpb) (bj : Nat) :
    testBit (setBit bp bi) bj = (testBit bp bj || decide (bj = bi)) := by
  rw [setBit, testBit_copy_byte bp inside]
  split_ifs with sameByte
  · rw [bitOf_or_mask _ (Nat.mod_lt _ (by decide)), testBit_eq, sameByte]
    congr 1
    exact decide_eq_decide.mpr ⟨fun same => by omega, fun same => by omega⟩
  · have different : bj ≠ bi := fun same => sameByte (by rw [same])
    simp [different]

theorem testBit_clearBit (bp : Block) {bi : Nat} (inside : bi < bpb) (bj : Nat) :
    testBit (clearBit bp bi) bj = (testBit bp bj && !decide (bj = bi)) := by
  rw [clearBit, testBit_copy_byte bp inside]
  split_ifs with sameByte
  · rw [bitOf_and_not_mask _ (Nat.mod_lt _ (by decide)), testBit_eq, sameByte]
    congr 2
    exact decide_eq_decide.mpr ⟨fun same => by omega, fun same => by omega⟩
  · have different : bj ≠ bi := fun same => sameByte (by rw [same])
    simp [different]

/-- The bitmap marks block `b` as in use. -/
def marked (sb : Superblock) (disk : Disk) (b : Nat) : Bool :=
  testBit (disk (sb.bblock b)) (b % bpb)

theorem marked_congr {sb : Superblock} {disk disk' : Disk} {b : Nat}
    (same : disk' (sb.bblock b) = disk (sb.bblock b)) : marked sb disk' b = marked sb disk b := by
  rw [marked, marked, same]

theorem marked_update (sb : Superblock) (disk : Disk) (b c : Nat) (bp : Block) :
    marked sb (update disk (sb.bblock b) bp) c =
      if c / bpb = b / bpb then testBit bp (c % bpb) else marked sb disk c := by
  unfold marked
  split_ifs with sameBlock
  · have equal : sb.bblock c =
        sb.bblock b := by rw [Superblock.bblock, sameBlock, Superblock.bblock]
    rw [equal, update_self]
  · have different : sb.bblock c ≠ sb.bblock b := fun same => sameBlock (by
      unfold Superblock.bblock at same
      omega)
    rw [update_of_ne different]

theorem decide_mod_bpb {b c : Nat} (sameBlock : c / bpb = b / bpb) :
    decide (c % bpb = b % bpb) = decide (c = b) := by
  refine decide_eq_decide.mpr ⟨fun same => ?_, fun same => by rw [same]⟩
  rw [← Nat.div_add_mod c bpb, sameBlock, same, Nat.div_add_mod]

theorem marked_setBit (sb : Superblock) (disk : Disk) (b c : Nat) :
    marked sb (update disk (sb.bblock b) (setBit (disk (sb.bblock b)) (b % bpb))) c =
      (marked sb disk c || decide (c = b)) := by
  rw [marked_update]
  split_ifs with sameBlock
  · rw [testBit_setBit _ (Nat.mod_lt _ (by decide)), marked, Superblock.bblock, Superblock.bblock,
      sameBlock, decide_mod_bpb sameBlock]
  · have different : c ≠ b := fun same => sameBlock (by rw [same])
    simp [different]

theorem marked_clearBit (sb : Superblock) (disk : Disk) (b c : Nat) :
    marked sb (update disk (sb.bblock b) (clearBit (disk (sb.bblock b)) (b % bpb))) c =
      (marked sb disk c && !decide (c = b)) := by
  rw [marked_update]
  split_ifs with sameBlock
  · rw [testBit_clearBit _ (Nat.mod_lt _ (by decide)), marked, Superblock.bblock,
      Superblock.bblock, sameBlock, decide_mod_bpb sameBlock]
  · have different : c ≠ b := fun same => sameBlock (by rw [same])
    simp [different]

/-! ### Indirect blocks and compression headers -/

/-- `a[j]` of an indirect block. -/
def entry (bp : Block) (j : Nat) : UInt32 := bp.mem.le32 (4 * j)

theorem entry_set32 (bp : Block) {j : Nat} (inside : j < nindirect) (word : UInt32) (i : Nat) :
    entry (bp.set32 (4 * j) word) i = if i = j then word else entry bp i := by
  unfold entry
  split_ifs with same
  · rw [same, Buffer.le32_set32 _ _ (by unfold nindirect at inside; unfold bsize; omega)]
  · rw [Buffer.le32_set32_outside _ _ (by omega)]

theorem entry_zero (j : Nat) : entry (Buffer.fill 0) j = 0 := by
  have bytes : (Buffer.fill 0 : Block).mem = fun _ => 0 := by
    funext i
    exact Buffer.fill_zero_mem i
  rw [entry, bytes, Mem.le32]
  rfl

/-- `struct compression_header` -/
structure CompressionHeader where
  magic : UInt32
  compressed : UInt32
  length : UInt32
  treeSize : UInt32
deriving DecidableEq, Repr

namespace CompressionHeader

/-- `sizeof(struct compression_header)` -/
def bytes : Nat := 16

def get (bp : Block) : CompressionHeader where
  magic := bp.mem.le32 0
  compressed := bp.mem.le32 4
  length := bp.mem.le32 8
  treeSize := bp.mem.le32 12

def put (bp : Block) (ch : CompressionHeader) : Block :=
  bp.putWords 0 [ch.magic, ch.compressed, ch.length, ch.treeSize]

theorem get_put (bp : Block) (ch : CompressionHeader) : get (put bp ch) = ch := by
  have word := fun j => @Buffer.le32_putWords bsize bp 0
    [ch.magic, ch.compressed, ch.length, ch.treeSize] (by simp [bsize]) j
  unfold get put
  congr 1
  · exact word 0 (by simp)
  · exact word 1 (by simp)
  · exact word 2 (by simp)
  · exact word 3 (by simp)

theorem get_congr {bp bp' : Block} (same : ∀ i < bytes, bp.mem i = bp'.mem i) :
    get bp = get bp' := by
  unfold bytes at same
  unfold get
  congr 1 <;> exact Mem.le32_congr fun i _ => same _ (by omega)

end CompressionHeader

end Xv6.Kernel.Fs
