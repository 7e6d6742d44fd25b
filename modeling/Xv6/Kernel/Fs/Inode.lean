import Xv6.Kernel.Fs.Blocks

/-!
The inode layer of `fs.c` below `readi` and `writei`.

Owns: `ialloc`, `iupdate`, `iget`, `ilock`, `iput`, `bmap`, `itrunc` and `stati`
as the source computes them. An inode pointer is its index in `itable`.

Does not own: sleep-locks and the table's spin-lock; each call runs alone here.
-/

namespace Xv6.Kernel.Fs

open Xv6.Lib

variable {c : Codec}

/-- `iupdate` -/
def iupdate (sb : Superblock) (ip : Nat) : FsM c PUnit := do
  let s ← get
  let node := s.itable ip
  let bp ← bread (sb.iblock node.inum.toNat)
  logWrite (sb.iblock node.inum.toNat) (Dinode.put bp (node.inum.toNat % ipb) node.toDinode)

/-! ### The inode table -/

/-- The entry with this inode number, or the first free one. -/
def igetSlot (itable : Nat → Inode) (inum : UInt32) : Option Nat :=
  ((List.range nInode).find? fun ip => 0 < (itable ip).ref ∧ (itable ip).inum = inum).or
    ((List.range nInode).find? fun ip => (itable ip).ref = 0)

/-- `iget` -/
def iget (inum : UInt32) : FsM c Nat := do
  let s ← get
  match igetSlot s.itable inum with
  | none => throw (.panic .igetNoInodes)
  | some ip => do
    if 0 < (s.itable ip).ref then modifyInode ip fun node => { node with ref := node.ref + 1 }
    else modifyInode ip fun node => { node with inum := inum, ref := 1, valid := false }
    pure ip

/-- `ilock`, without the lock itself. -/
def ilock (sb : Superblock) (ip : Nat) : FsM c PUnit := do
  let s ← get
  let node := s.itable ip
  if node.ref < 1 then throw (.panic .ilock)
  else if node.valid = false then do
    let bp ← bread (sb.iblock node.inum.toNat)
    let dip := Dinode.get bp (node.inum.toNat % ipb)
    modifyInode ip fun node => { node with toDinode := dip, valid := true }
    if dip.type = 0 then throw (.panic .ilockNoType) else pure ⟨⟩
  else pure ⟨⟩

/-- The loop of `ialloc` from inode number `inum` on; `none` is the null pointer. -/
def iallocFrom (sb : Superblock) (type : UInt16) (inum : Nat) : FsM c (Option Nat) :=
  if inum < sb.ninodes then do
    let bp ← bread (sb.iblock inum)
    if (Dinode.get bp (inum % ipb)).type = 0 then do
      logWrite (sb.iblock inum) (Dinode.put bp (inum % ipb) { Dinode.zero with type := type })
      let ip ← iget (UInt32.ofNat inum)
      pure (some ip)
    else iallocFrom sb type (inum + 1)
  else pure none
termination_by sb.ninodes - inum

/-- `ialloc` -/
def ialloc (sb : Superblock) (type : UInt16) : FsM c (Option Nat) := iallocFrom sb type 1

/-! ### Blocks of an inode -/

/-- `(addr = ip->addrs[k]) == 0` and the allocation that follows, which `bmap` has
for a direct block and again for the indirect block; 0 when out of space. -/
def inodeAddr (sb : Superblock) (ip : Nat) (k : Fin (ndirect + 1)) : FsM c UInt32 := do
  let s ← get
  if (s.itable ip).addrs k = 0 then do
    let addr ← balloc sb
    if addr = 0 then pure 0
    else do
      modifyInode ip fun node => { node with addrs := Function.update node.addrs k addr }
      pure addr
  else pure ((s.itable ip).addrs k)

/-- The index of the indirect block in `addrs`. -/
def indirectIndex : Fin (ndirect + 1) := Fin.last ndirect

/-- `bmap` -/
def bmap (sb : Superblock) (ip bn : Nat) : FsM c UInt32 :=
  if direct : bn < ndirect then inodeAddr sb ip ⟨bn, Nat.lt_succ_of_lt direct⟩
  else if bn - ndirect < nindirect then do
    let indirect ← inodeAddr sb ip indirectIndex
    if indirect = 0 then pure 0
    else do
      let bp ← bread indirect.toNat
      if entry bp (bn - ndirect) = 0 then do
        let addr ← balloc sb
        if addr = 0 then pure 0
        else do
          logWrite indirect.toNat (bp.set32 (4 * (bn - ndirect)) addr)
          pure addr
      else pure (entry bp (bn - ndirect))
  else throw (.panic .bmapOutOfRange)

/-- One iteration of the first loop of `itrunc`. -/
def truncDirect (sb : Superblock) (ip : Nat) (k : Fin (ndirect + 1)) : FsM c PUnit := do
  let s ← get
  if (s.itable ip).addrs k = 0 then pure ⟨⟩
  else do
    bfree sb ((s.itable ip).addrs k).toNat
    modifyInode ip fun node => { node with addrs := Function.update node.addrs k 0 }

/-- One iteration of the second loop, over the entries of the indirect block. -/
def truncEntry (sb : Superblock) (bp : Block) (j : Nat) : FsM c PUnit :=
  if entry bp j = 0 then pure ⟨⟩ else bfree sb (entry bp j).toNat

/-- The part of `itrunc` for the indirect block. -/
def truncIndirect (sb : Superblock) (ip : Nat) : FsM c PUnit := do
  let s ← get
  if (s.itable ip).addrs indirectIndex = 0 then pure ⟨⟩
  else do
    let bp ← bread ((s.itable ip).addrs indirectIndex).toNat
    forEach (truncEntry sb bp) (List.range nindirect)
    truncDirect sb ip indirectIndex

/-- The first loop of `itrunc` goes over these. -/
def directIndices : List (Fin (ndirect + 1)) := (List.finRange ndirect).map Fin.castSucc

/-- `itrunc` -/
def itrunc (sb : Superblock) (ip : Nat) : FsM c PUnit := do
  forEach (truncDirect sb ip) directIndices
  truncIndirect sb ip
  modifyInode ip fun node => { node with size := 0 }
  iupdate sb ip

/-- The branch of `iput` that frees the inode. -/
def ifree (sb : Superblock) (ip : Nat) : FsM c PUnit := do
  itrunc sb ip
  modifyInode ip fun node => { node with type := 0 }
  iupdate sb ip
  modifyInode ip fun node => { node with valid := false }

/-- The test of `iput` for that branch. -/
def Inode.lastUnlinked (node : Inode) : Prop := node.ref = 1 ∧ node.valid = true ∧ node.nlink = 0

instance (node : Inode) : Decidable node.lastUnlinked := inferInstanceAs (Decidable (_ ∧ _))

/-- `iput` -/
def iput (sb : Superblock) (ip : Nat) : FsM c PUnit := do
  let s ← get
  if (s.itable ip).lastUnlinked then do
    ifree sb ip
    modifyInode ip fun node => { node with ref := node.ref - 1 }
  else modifyInode ip fun node => { node with ref := node.ref - 1 }

/-- `struct stat` without the device. -/
structure Stat where
  ino : UInt32
  type : UInt16
  nlink : UInt16
  size : UInt32
deriving DecidableEq, Repr

/-- `stati` -/
def stati (node : Inode) : Stat := ⟨node.inum, node.type, node.nlink, node.size⟩

end Xv6.Kernel.Fs
