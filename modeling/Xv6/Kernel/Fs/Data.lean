import Xv6.Kernel.Fs.Inode

/-!
`readi` and `writei`, with the compressed representation of regular files.

Owns: both functions as the source computes them, with their range checks in
32-bit arithmetic, the header probe, the cache of the last decompressed file,
the compression of a write at offset 0 and the block loops.

Does not own: what a file's bytes are meant to be.
-/

namespace Xv6.Kernel.Fs

open Xv6.Lib

variable {c : Codec}

theorem bsize_pos : 0 < bsize := by decide

/-! ### Reading -/

/-- `if(off + n > limit) n = limit - off`, which `readi` does for `ip->size` and
for `cached_length`. -/
def clip (limit off n : UInt32) : UInt32 := if limit < off + n then limit - off else n

/-- One block of the loop that reads the compressed image past its header. -/
def copyImagePiece (sb : Superblock) (ip compBuf tot m : Nat) : FsM c Bool := do
  let b ← bmap sb ip ((CompressionHeader.bytes + tot) / bsize)
  let bp ← bread b.toNat
  storePage compBuf tot (bp.mem.read ((CompressionHeader.bytes + tot) % bsize) m)
  pure true

/-- `decompress_huffman(comp_buf, comp_size, cached_decomp_buf, ch.length)`, which
writes as many bytes as it returns. -/
def decompressPage (compBuf : Nat) (compSize : UInt32) (decompBuf : Nat) (length : UInt32) :
    FsM c Int := do
  let s ← get
  match c.decompress s.codec (s.kmem.page compBuf).mem compSize.toInt32
      (s.kmem.page decompBuf).mem length.toInt32 with
  | none => throw .fault
  | some result =>
    if (pgSize : Int) < result.ret then throw .fault
    else do
      set { s with
        kmem := { s.kmem with
          page := Function.update s.kmem.page decompBuf (Buffer.ofMem result.out) }
        codec := result.state }
      pure result.ret

/-- Free the old cache page, if there is one. -/
def dropCache : FsM c PUnit := do
  let s ← get
  if s.cache.buf = 0 then pure ⟨⟩
  else do
    kfree s.cache.buf
    modifyCache fun cache => { cache with buf := 0 }

/-- `if (comp_buf) kfree(comp_buf)` -/
def kfreeUnlessNull (pa : Nat) : FsM c PUnit := if pa = 0 then pure ⟨⟩ else kfree pa

/-- `ip->size - sizeof(ch)`, whose bits are both `comp_size` and the unsigned bound
of the loop. -/
def Inode.compSize (node : Inode) : UInt32 := node.size - UInt32.ofNat CompressionHeader.bytes

/-- Read the image into `compBuf` and decompress it into `decompBuf`, which
`cached_decomp_buf` points to; false is the `return -1`. -/
def decompressImage (sb : Superblock) (ip : Nat) (ch : CompressionHeader)
    (compBuf decompBuf : Nat) : FsM c Bool := do
  let s ← get
  let _ ← chunkLoop bsize CompressionHeader.bytes (s.itable ip).compSize.toNat bsize_pos
    (copyImagePiece sb ip compBuf) 0
  let decompSize ← decompressPage compBuf (s.itable ip).compSize decompBuf ch.length
  kfree compBuf
  if decompSize < 0 then do
    kfree decompBuf
    modifyCache fun cache => { cache with buf := 0 }
    pure false
  else do
    modifyCache fun cache => { cache with inum := (s.itable ip).inum, length := ch.length }
    pure true

/-- The part of `readi` that decompresses the file into the cache. -/
def fillCache (sb : Superblock) (ip : Nat) (ch : CompressionHeader) : FsM c Bool := do
  dropCache
  let compBuf ← kalloc
  let decompBuf ← kalloc
  modifyCache fun cache => { cache with buf := decompBuf }
  if compBuf = 0 ∨ decompBuf = 0 then do
    kfreeUnlessNull compBuf
    modifyCache fun cache => { cache with buf := 0 }
    pure false
  else decompressImage sb ip ch compBuf decompBuf

/-- The part of `readi` after the cache is known to hold the file. -/
def readCached (valid : Nat → Bool) (off n : UInt32) : FsM c Int := do
  let s ← get
  if s.cache.length ≤ off then pure 0
  else do
    let n := clip s.cache.length off n
    if pgSize < off.toNat + n.toNat then throw .fault
    else do
      let arrived ← copyout valid 0 ((s.kmem.page s.cache.buf).mem.read off.toNat n.toNat)
      if arrived then pure n.toInt32.toInt else pure (-1)

/-- The compressed branch of `readi`. -/
def readCompressed (sb : Superblock) (ip : Nat) (valid : Nat → Bool) (off n : UInt32)
    (ch : CompressionHeader) : FsM c Int := do
  let s ← get
  if s.cache.buf = 0 ∨ s.cache.inum ≠ (s.itable ip).inum then do
    let filled ← fillCache sb ip ch
    if filled then readCached valid off n else pure (-1)
  else readCached valid off n

/-- One block of the plain loop of `readi`. -/
def readPiece (sb : Superblock) (ip : Nat) (valid : Nat → Bool) (off tot m : Nat) :
    FsM c Bool := do
  let b ← bmap sb ip ((off + tot) / bsize)
  let bp ← bread b.toNat
  copyout valid tot (bp.mem.read ((off + tot) % bsize) m)

/-- The plain branch of `readi`. -/
def readPlain (sb : Superblock) (ip : Nat) (valid : Nat → Bool) (off n : UInt32) : FsM c Int := do
  let tot ← chunkLoop bsize off.toNat n.toNat bsize_pos (readPiece sb ip valid off.toNat) 0
  if tot < n.toNat then pure (-1) else pure (UInt32.ofNat tot).toInt32.toInt

/-- `readi`; the destination is given by its writable addresses. -/
def readi (sb : Superblock) (ip : Nat) (valid : Nat → Bool) (off n : UInt32) : FsM c Int := do
  let s ← get
  let node := s.itable ip
  if node.size < off ∨ off + n < off then pure 0
  else do
    let n := clip node.size off n
    if node.type = tFile then do
      let b ← bmap sb ip 0
      let bp ← bread b.toNat
      let ch := CompressionHeader.get bp
      if ch.compressed = 1 then readCompressed sb ip valid off n ch
      else readPlain sb ip valid off n
    else readPlain sb ip valid off n

/-! ### Writing -/

/-- `compress_huffman(temp_buf, n, comp_buf, PGSIZE)` -/
def compressPage (tempBuf : Nat) (n : UInt32) (compBuf : Nat) : FsM c Int := do
  let s ← get
  let result := c.compress s.codec (s.kmem.page tempBuf).mem n.toInt32
    (s.kmem.page compBuf).mem (Int32.ofNat pgSize)
  set { s with
    kmem := { s.kmem with
      page := Function.update s.kmem.page compBuf (Buffer.ofMem result.out) }
    codec := result.state }
  pure result.ret

/-- Store header and image in block 0 of the file. The image has to fit the
block's buffer. -/
def storeImage (sb : Superblock) (ip : Nat) (n : UInt32) (compBuf : Nat) (compSize : Nat) :
    FsM c PUnit := do
  let b ← bmap sb ip 0
  let bp ← bread b.toNat
  let s ← get
  if bsize < CompressionHeader.bytes + compSize then throw .fault
  else do
    logWrite b.toNat ((CompressionHeader.put bp
      ⟨compressionMagic, 1, n, UInt32.ofNat compSize⟩).copy CompressionHeader.bytes
        ((s.kmem.page compBuf).mem.read 0 compSize))
    modifyInode ip fun node =>
      { node with size := UInt32.ofNat (compSize + CompressionHeader.bytes) }
    iupdate sb ip

/-- The compressing part of `writei`: the value it returns, or `none` when the
plain loop follows. -/
def writeCompressed (sb : Superblock) (ip : Nat) (src : Source) (n : UInt32) :
    FsM c (Option Int) := do
  let tempBuf ← kalloc
  if tempBuf = 0 then pure (some (-1))
  else do
    storePage tempBuf 0 (src.copyin 0 n.toNat)
    if (src.copyin 0 n.toNat).length < n.toNat then do
      kfree tempBuf
      pure (some (-1))
    else if n.toNat ≤ CompressionHeader.bytes then do
      kfree tempBuf
      pure none
    else do
      let compBuf ← kalloc
      if compBuf = 0 then do
        kfree tempBuf
        pure none
      else do
        let compSize ← compressPage tempBuf n compBuf
        if 0 < compSize ∧ compSize < n.toNat then do
          storeImage sb ip n compBuf compSize.toNat
          kfree tempBuf
          kfree compBuf
          pure (some n.toInt32.toInt)
        else do
          kfree compBuf
          kfree tempBuf
          pure none

/-- One block of the plain loop of `writei`. A failed copy leaves what it
transferred in the buffer, without `log_write`. -/
def writePiece (sb : Superblock) (ip : Nat) (src : Source) (off tot m : Nat) : FsM c Bool := do
  let b ← bmap sb ip ((off + tot) / bsize)
  let bp ← bread b.toNat
  let data := bp.copy ((off + tot) % bsize) (src.copyin tot m)
  if (src.copyin tot m).length < m then do
    setBuffer b.toNat data
    pure false
  else do
    logWrite b.toNat data
    pure true

/-- The plain part of `writei`. -/
def writePlain (sb : Superblock) (ip : Nat) (src : Source) (off n : UInt32) : FsM c Int := do
  let tot ← chunkLoop bsize off.toNat n.toNat bsize_pos (writePiece sb ip src off.toNat) 0
  modifyInode ip fun node =>
    if node.size < off + UInt32.ofNat tot then { node with size := off + UInt32.ofNat tot }
    else node
  iupdate sb ip
  pure (UInt32.ofNat tot).toInt32.toInt

/-- `writei` -/
def writei (sb : Superblock) (ip : Nat) (src : Source) (off n : UInt32) : FsM c Int := do
  let s ← get
  let node := s.itable ip
  if node.size < off ∨ off + n < off then pure (-1)
  else if maxFile * bsize < (off + n).toNat then pure (-1)
  else if node.type = tFile ∧ off = 0 then do
    let early ← writeCompressed sb ip src n
    match early with
    | some ret => pure ret
    | none => writePlain sb ip src off n
  else writePlain sb ip src off n

end Xv6.Kernel.Fs
