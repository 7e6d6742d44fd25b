import Xv6.Kernel.Fs.Layout
import Xv6.Kernel.Huffman.Codec
import Xv6.Lib.Wp

/-!
The state of the file system code and the primitives it is written in.

Owns: the in-memory inodes, the page allocator, the static variables of `readi`
and of the codec, user memory, the record of `balloc` and `log_write` calls, and
the steps `bread`, `log_write`, `kalloc`, `kfree` and the two copies.

Does not own: the log's transactions; a block's contents here are those a
`bread` returns, whether they are on disk, in the log or in a pinned buffer. A
transaction too large for the log is the log's concern.
-/

namespace Xv6.Kernel.Fs

open Xv6.Lib Function

/-! ### The codec -/

/-- What a codec call leaves: return value, output buffer and static variables. -/
structure CodecResult (State : Type) where
  ret : Int
  out : Mem
  state : State

/-- The interface of `compress.c` that `fs.c` uses: input, its length, output and
the room in it. A decompression may have no result (an access outside the static
arrays). -/
structure Codec where
  State : Type
  compress : State → Mem → Int32 → Mem → Int32 → CodecResult State
  decompress : State → Mem → Int32 → Mem → Int32 → Option (CodecResult State)

/-- The codec the kernel is linked with. -/
def huffman : Codec where
  State := Huffman.Static
  compress := fun st input inlen output maxlen =>
    let result := Huffman.compressHuffman st input inlen output maxlen
    ⟨result.ret, result.out, result.static⟩
  decompress := fun st input inlen output maxlen =>
    (Huffman.decompressHuffman st input inlen output maxlen).map fun result =>
      ⟨result.ret, result.out, result.static⟩

/-! ### State -/

/-- `struct inode` without its lock; there is one device. -/
structure Inode extends Dinode where
  inum : UInt32
  ref : Nat
  valid : Bool

/-- `kmem`: the free pages, first the next one to be handed out, and the contents
of all pages. Address 0 is the null pointer. -/
structure Kmem where
  freelist : List Nat
  page : Nat → Page

/-- `cached_decomp_buf`, `cached_inum` and `cached_length` of `readi`. -/
structure DecompCache where
  buf : Nat
  inum : UInt32
  length : UInt32

/-- Calls that change the disk. A call of `balloc` is recorded with the disk and
the in-memory inodes it found and the block number it returned. -/
inductive Event where
  | balloc (disk : Disk) (itable : Nat → Inode) (b : Nat)
  | logWrite (b : Nat)

/-- The state. `user` is the reading process's memory from its `dst` on. -/
structure FsState (c : Codec) where
  disk : Disk
  itable : Nat → Inode
  kmem : Kmem
  cache : DecompCache
  codec : c.State
  user : Mem
  trace : List Event

/-- The panics of the modelled functions. -/
inductive Panic where
  | freeingFreeBlock
  | bmapOutOfRange
  | igetNoInodes
  | ilock
  | ilockNoType
  | kfree
  | dirlookupNotDir
  | dirlookupRead
  | dirlinkRead
  | isdiremptyReadi
  | unlinkNlink
  | unlinkWritei
deriving DecidableEq, Repr

/-- Why a call does not return: a panic, or an access outside the page or buffer
it is meant for. -/
inductive Stop where
  | panic (panic : Panic)
  | fault
deriving DecidableEq, Repr

/-- File system code. -/
abbrev FsM (c : Codec) := EStateM Stop (FsState c)

variable {c : Codec}

/-! ### Blocks -/

/-- `bread` -/
def bread (b : Nat) : FsM c Block := do
  let s ← get
  pure (s.disk b)

/-- A buffer of block `b` is given new contents without `log_write`. -/
def setBuffer (b : Nat) (data : Block) : FsM c PUnit :=
  modify fun s => { s with disk := update s.disk b data }

/-- Record a call. -/
def note (event : Event) : FsM c PUnit :=
  modify fun s => { s with trace := s.trace ++ [event] }

/-- `log_write` of a buffer of block `b` that now holds `data`. -/
def logWrite (b : Nat) (data : Block) : FsM c PUnit := do
  setBuffer b data
  note (.logWrite b)

/-! ### Inodes in memory -/

/-- Change the in-memory inode `ip`. -/
def modifyInode (ip : Nat) (change : Inode → Inode) : FsM c PUnit :=
  modify fun s => { s with itable := update s.itable ip (change (s.itable ip)) }

/-! ### Pages -/

/-- Store bytes into a page; past its end they would hit other memory. -/
def storePage (page offset : Nat) (bytes : List UInt8) : FsM c PUnit := do
  if pgSize < offset + bytes.length then throw .fault
  else
    modify fun s => { s with
      kmem := { s.kmem with
        page := update s.kmem.page page ((s.kmem.page page).copy offset bytes) } }

/-- `kalloc`: 0 when no page is free, else a page filled with fives. -/
def kalloc : FsM c Nat := do
  let s ← get
  match s.kmem.freelist with
  | [] => pure 0
  | r :: rest => do
    set { s with kmem := ⟨rest, update s.kmem.page r (Buffer.fill 5)⟩ }
    pure r

/-- `kfree`: fill the page with ones and put it at the front of the free list. Of
its range check only the null pointer matters for pages from `kalloc`. -/
def kfree (pa : Nat) : FsM c PUnit := do
  if pa = 0 then throw (.panic .kfree)
  else
    modify fun s => { s with
      kmem := ⟨pa :: s.kmem.freelist, update s.kmem.page pa (Buffer.fill 1)⟩ }

/-- Change `readi`'s static variables. -/
def modifyCache (change : DecompCache → DecompCache) : FsM c PUnit :=
  modify fun s => { s with cache := change s.cache }

/-! ### Copies -/

/-- The length of the part of `[offset, offset + count)` before its first invalid
address, which is what a copy that goes page by page transfers. -/
def validLength (valid : Nat → Bool) (offset count : Nat) : Nat :=
  ((List.range count).takeWhile fun i => valid (offset + i)).length

theorem validLength_le (valid : Nat → Bool) (offset count : Nat) :
    validLength valid offset count ≤ count := by
  have shorter := (List.takeWhile_prefix (l := List.range count)
    (fun i => valid (offset + i))).length_le
  rwa [List.length_range] at shorter

theorem validLength_eq {valid : Nat → Bool} {offset count : Nat}
    (all : ∀ i < count, valid (offset + i)) : validLength valid offset count = count := by
  rw [validLength, List.takeWhile_eq_self_iff.mpr, List.length_range]
  intro i member
  exact all i (List.mem_range.mp member)

theorem validLength_lt {valid : Nat → Bool} {offset count : Nat}
    (unreadable : ¬ ∀ i < count, valid (offset + i)) : validLength valid offset count < count := by
  refine Nat.lt_of_le_of_ne (validLength_le valid offset count) fun whole => unreadable ?_
  have all := (List.takeWhile_prefix (l := List.range count)
    (fun i => valid (offset + i))).eq_of_length (whole.trans List.length_range.symm)
  rw [List.takeWhile_eq_self_iff] at all
  exact fun i inside => all i (List.mem_range.mpr inside)

/-- The source of a write: its bytes from `src` on and which are readable (all of
them for a kernel address). -/
structure Source where
  byte : Mem
  valid : Nat → Bool

/-- `either_copyin` of `count` bytes from `src + offset`: the bytes it transfers;
it returns -1 when these are not all. -/
def Source.copyin (src : Source) (offset count : Nat) : List UInt8 :=
  src.byte.read offset (validLength src.valid offset count)

theorem Source.length_copyin (src : Source) (offset count : Nat) :
    (src.copyin offset count).length = validLength src.valid offset count :=
  Mem.length_read _ _ _

theorem Source.copyin_eq {src : Source} {offset count : Nat}
    (all : ∀ i < count, src.valid (offset + i)) :
    src.copyin offset count = src.byte.read offset count := by
  rw [Source.copyin, validLength_eq all]

/-- `either_copyout(user_dst, dst + offset, bytes, n)`; true when all arrived. The
destination is given by its writable addresses from `dst` on. -/
def copyout (valid : Nat → Bool) (offset : Nat) (bytes : List UInt8) : FsM c Bool := do
  let count := validLength valid offset bytes.length
  modify fun s => { s with user := s.user.copy offset (bytes.take count) }
  pure (count = bytes.length)

end Xv6.Kernel.Fs
