import Xv6.Lib.Buffer

/-!
The constants of `param.h` and `fs.h` that the modelled code reads, and blocks.

Owns: block size, log and operation limits, inode shape, and the type of disk
contents.

Does not own: any on-disk record.
-/

namespace Xv6.Kernel

open Xv6.Lib

/-- `BSIZE`: bytes of a disk block. -/
def bsize : Nat := 1024

/-- `MAXOPBLOCKS`: most blocks one file system operation logs. -/
def maxOpBlocks : Nat := 10

/-- `LOGSIZE`: most data blocks in the on-disk log. -/
def logSize : Nat := maxOpBlocks * 3

/-- `NPROC`: most processes. -/
def nProc : Nat := 64

/-- `NBUF`: buffers of the block cache. -/
def nBuf : Nat := maxOpBlocks * 3

/-- `NDIRECT`: block numbers held in the inode. -/
def ndirect : Nat := 12

/-- `NINDIRECT`: block numbers held in an indirect block. -/
def nindirect : Nat := 256

/-- `MAXFILE`: most blocks of a file. -/
def maxFile : Nat := ndirect + nindirect

/-- `IPB`: inodes per block. -/
def ipb : Nat := 16

/-- `BPB`: bitmap bits per block. -/
def bpb : Nat := bsize * 8

/-- `NINODE`: entries of the in-memory inode table. -/
def nInode : Nat := 50

/-- `PGSIZE`: bytes of a page. -/
def pgSize : Nat := 4096

/-- `T_DIR`, `T_FILE` and `T_DEVICE`. -/
def tDir : UInt16 := 1
def tFile : UInt16 := 2
def tDevice : UInt16 := 3

/-- `COMPRESSION_MAGIC` -/
def compressionMagic : UInt32 := 0x436F6D70

/-- The bytes of one page. -/
abbrev Page := Buffer pgSize

/-- The data of one disk block. -/
abbrev Block := Buffer bsize

/-- Disk contents by block number. -/
abbrev Disk := Nat → Block

end Xv6.Kernel
