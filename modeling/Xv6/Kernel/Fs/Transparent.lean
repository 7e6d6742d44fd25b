import Xv6.Kernel.Fs.Bitmap
import Xv6.Kernel.Fs.Image

/-!
Transparent compression, for any codec whose decompression undoes its
compression.

Owns: what a reader may expect of a file that one write stored compressed, the
condition under which the file system meets it, and a codec and payload for which
it does not.

Does not own: the codec the kernel is linked with.
-/

namespace Xv6.Kernel.Fs

open Xv6.Lib

variable {c : Codec}

/-- Decompression undoes compression whenever compression succeeds. -/
def Codec.Undoes (c : Codec) : Prop :=
  ∀ (codec : c.State) (input output : Mem) (n : UInt32) (maxlen : Int32),
    0 < (c.compress codec input n.toInt32 output maxlen).ret →
      Decodes c (c.compress codec input n.toInt32 output maxlen).out
        (c.compress codec input n.toInt32 output maxlen).ret.toNat n input

/-- The call `writei(ip, .., 0, n)` on an empty regular file that stores its
source compressed: nothing is cached, two pages are free, the source can be read,
compression saves space, and the image fits in the block. -/
structure StoresCompressed (sb : Superblock) (s : FsState c) (ip i : Nat) (src : Source)
    (n : UInt32) : Prop where
  inv : FsInv sb s
  loaded : Loaded s.itable ip i
  isFile : (s.itable ip).type = tFile
  empty : (s.itable ip).size = 0
  noCache : s.cache.buf = 0
  pages : PagesOk s
  readable : ∀ x < n.toNat, src.valid x = true
  long : CompressionHeader.bytes < n.toNat
  short : n.toNat ≤ 3072
  saves : 0 < (packed s src n).ret ∧ (packed s src n).ret < n.toNat
  fits : CompressionHeader.bytes + (packed s src n).ret.toNat ≤ bsize

/-- A call of `readi` on the file, with whatever outcome. -/
def ReadStep (sb : Superblock) (ip : Nat) (s : FsState c)
    (call : (Nat → Bool) × UInt32 × UInt32) (t : FsState c) : Prop :=
  ∃ ret, readi sb ip call.1 call.2.1 call.2.2 s = .ok ret t

/-- The bytes `s[off .. min(off + n, |s|))`; as in the code, `off + n` is a 32-bit
sum. -/
def slice (bytes : List UInt8) (off n : UInt32) : List UInt8 :=
  (bytes.take (off + n).toNat).drop off.toNat

/-- The file looks as if it held `bytes`: `stati` reports their number, and every
later `readi` into valid memory returns the slice it asks for. -/
def Transparent (sb : Superblock) (ip : Nat) (t : FsState c) (bytes : List UInt8) : Prop :=
  (stati (t.itable ip)).size.toNat = bytes.length ∧
    ∀ calls u, Run (fun start => start = t) (ReadStep sb ip) calls u →
      ∀ (valid : Nat → Bool) (off m : UInt32), (∀ x < m.toNat, valid x = true) →
        wp (readi sb ip valid off m) u (fun ret v => ret = (slice bytes off m).length ∧
          v.user.read 0 (slice bytes off m).length = slice bytes off m) fun _ _ => False

section Transparent

variable {sb : Superblock} {s : FsState c} {ip i : Nat} {src : Source} {n : UInt32}

/-- The write comes down to storing the image, between the allocation of two pages
and their release. -/
theorem StoresCompressed.reaches (stores : StoresCompressed sb s ip i src n)
    {post : Int → FsState c → Prop}
    (stored : ∀ a b rest t, a ≠ 0 → b ≠ 0 → (a :: b :: rest).Nodup → 0 ∉ rest →
      Packs s src n a b rest t →
      wp (storeImage sb ip n b (packed s src n).ret.toNat) t (fun _ u => post n.toNat { u with
          kmem := ⟨b :: a :: u.kmem.freelist,
            Function.update (Function.update u.kmem.page a (Buffer.fill 1)) b (Buffer.fill 1)⟩ })
        fun _ _ => False) :
    wp (writei sb ip src 0 n) s post fun _ _ => False := by
  have short := stores.short
  have page : (3072 : Nat) ≤ pgSize := by decide
  have same : s.dropped = s := if_pos stores.noCache
  obtain ⟨a, b, rest, pages, aSome, bSome, nodup, noNull⟩ := stores.pages.two
  rw [same] at pages
  have different : a ≠ b := fun equal => by simp [equal] at nodup
  rw [wp_writei_file stores.isFile (Nat.le_trans short (by decide))]
  refine writeCompressed_packs pages aSome bSome different stores.readable stores.long
    (by omega) ?_ ?_
  · intro t packs _ _
    refine wp_mono (stored a b rest t aSome bSome nodup noNull packs) ?_ fun _ _ absurd => absurd
    intro _ u after
    rw [toInt_of_small (by omega)]
    exact after
  · exact fun t _ declines => absurd stores.saves declines

/-- The write returns `n`, and the file is stored with its image's size. -/
theorem StoresCompressed.writei (stores : StoresCompressed sb s ip i src n) (valid : sb.Valid)
    (payload : Mem) :
    wp (writei sb ip src 0 n) s (fun ret t => ret = n.toNat ∧ (¬ OutOfBlocks t →
        Stored ip n (packed s src n).ret.toNat (Buffer.ofMem (packed s src n).out : Page).mem
          payload t)) fun _ _ => False := by
  have held := stores.inv.held stores.loaded
  refine stores.reaches fun a b rest t aSome bSome nodup noNull packs => ?_
  have invT := stores.inv.same packs.same
  refine wp_mono (storeImage_spec valid invT (held.same packs.same)
    (by rw [packs.same.itable]; exact stores.isFile) stores.fits) ?_ fun _ _ absurd => absurd
  rintro _ u ⟨_, _, kmem, cache, _, _, holds⟩
  refine ⟨rfl, fun enough => ⟨?_, ?_, ?_⟩⟩
  · rw [packs.page] at holds
    exact holds (.inl enough)
  · have swapped : (b :: a :: rest).Nodup := (List.Perm.swap a b rest).nodup_iff.mpr nodup
    have free : u.kmem.freelist = rest := by rw [kmem, packs.freelist]
    apply pagesOk_of_free
    · rw [free]
      exact swapped
    · rw [free]
      simp only [List.mem_cons, not_or]
      exact ⟨Ne.symm bSome, Ne.symm aSome, noNull⟩
    · simp
    · exact (congrArg DecompCache.buf (cache.trans packs.cache)).trans stores.noCache
  · intro cached
    refine absurd ?_ cached.1
    exact (congrArg DecompCache.buf (cache.trans packs.cache)).trans stores.noCache

/-- The image the write stored decodes to the payload. -/
theorem StoresCompressed.decodes (stores : StoresCompressed sb s ip i src n) (undoes : c.Undoes) :
    Decodes c (Buffer.ofMem (packed s src n).out : Page).mem (packed s src n).ret.toNat n
      src.byte := by
  intro codec input output agrees
  have fits := stores.fits
  have page : bsize ≤ pgSize := by decide
  have short := stores.short
  have fits' : (3072 : Nat) ≤ pgSize := by decide
  obtain ⟨result, decoded, isLength, isInput⟩ := undoes s.codec
    ((Buffer.fill 5 : Page).copy 0 (src.byte.read 0 n.toNat)).mem (Buffer.fill 5 : Page).mem n
    (Int32.ofNat pgSize) stores.saves.1 codec input output (fun x inside => by
      rw [agrees x inside, Buffer.mem_ofMem _ (by unfold packed at fits; omega)]
      rfl)
  refine ⟨result, decoded, isLength, fun x inside => ?_⟩
  rw [isInput x inside, Buffer.copy_inside _ (Nat.zero_le x)
    (by rw [Mem.length_read]; omega) (by omega), Nat.sub_zero, Mem.getD_read _ _ inside,
    Nat.zero_add]

theorem slice_read (payload : Mem) (n : Nat) (off m : UInt32) :
    slice (payload.read 0 n) off m =
      payload.read off.toNat (min (off + m).toNat n - off.toNat) := by
  unfold slice
  by_cases fits : (off + m).toNat ≤ n
  · rw [Mem.take_read _ _ fits, Mem.drop_read, Nat.zero_add, Nat.min_eq_left fits]
  · rw [List.take_of_length_le (by rw [Mem.length_read]; omega), Mem.drop_read, Nat.zero_add,
      Nat.min_eq_right (by omega)]

theorem delivered_slice {payload user : Mem} {valid : Nat → Bool} {off m : UInt32} {ret : Int}
    {user' : Mem} (small : n.toNat < 2 ^ 31) (copies : ∀ x < m.toNat, valid x = true)
    (read : (ret, user') = delivered n n payload valid off m user) :
    ret = (slice (payload.read 0 n.toNat) off m).length ∧
      user'.read 0 (slice (payload.read 0 n.toNat) off m).length =
        slice (payload.read 0 n.toNat) off m := by
  rw [slice_read, Mem.length_read]
  unfold delivered at read
  by_cases outside : n < off ∨ off + m < off ∨ n ≤ off
  · rw [if_pos outside, Prod.mk.injEq] at read
    have absent : min (off + m).toNat n.toNat - off.toNat = 0 := by
      simp only [UInt32.lt_iff_toNat_lt, UInt32.le_iff_toNat_le] at outside
      omega
    rw [absent, read.1]
    exact ⟨rfl, rfl⟩
  · rw [if_neg outside, Prod.mk.injEq] at read
    rw [not_or, not_or] at outside
    have count := @toNat_clip_clip n n off m outside.2.1 outside.1 outside.1
    have sum := toNat_add_of_not_lt outside.2.1
    generalize clip n off (clip n off m) = k at count read
    have whole : validLength valid 0 k.toNat = k.toNat :=
      validLength_eq fun x low => by
        rw [Nat.zero_add]
        exact copies x (by omega)
    have isCount : min (off + m).toNat n.toNat - off.toNat = k.toNat := by omega
    rw [if_pos whole, whole, toInt_of_small (by omega)] at read
    rw [isCount, read.1, read.2]
    refine ⟨rfl, ?_⟩
    have readBack := Mem.read_copy user 0 (payload.read off.toNat k.toNat)
    rwa [Mem.length_read] at readBack

/-- A file stored compressed looks as if it held its payload exactly when the
image and its header are as long as the payload. -/
theorem transparent_iff (undoes : c.Undoes) (valid : sb.Valid)
    (stores : StoresCompressed sb s ip i src n) :
    wp (writei sb ip src 0 n) s (fun ret t => ret = n.toNat ∧ (¬ OutOfBlocks t →
        (Transparent sb ip t (src.byte.read 0 n.toNat) ↔
          (packed s src n).ret + CompressionHeader.bytes = n.toNat))) fun _ _ => False := by
  refine wp_mono (stores.writei valid src.byte) ?_ fun _ _ absurd => absurd
  rintro ret t ⟨isN, stored⟩
  refine ⟨isN, fun enough => ?_⟩
  have storedT := stored enough
  have positive := stores.saves.1
  have short := stores.short
  have fits := stores.fits
  have size : (t.itable ip).size.toNat = (packed s src n).ret.toNat + CompressionHeader.bytes := by
    rw [storedT.holds.size]
    refine UInt32.toNat_ofNat_of_lt' ?_
    have : bsize < 2 ^ 32 := by decide
    change _ < 2 ^ 32
    omega
  constructor
  · intro transparent
    have reported := transparent.1
    rw [Mem.length_read] at reported
    change (t.itable ip).size.toNat = n.toNat at reported
    omega
  · intro exact
    have sizeN : (t.itable ip).size = n := UInt32.toNat_inj.mp (by omega)
    have small : n.toNat ≤ pgSize := Nat.le_trans short (by decide)
    refine ⟨by rw [Mem.length_read, ← sizeN]; rfl, ?_⟩
    intro calls u run readable off m copies
    have decodes := stores.decodes undoes
    have later := run.invariant (Stored ip n (packed s src n).ret.toNat
      (Buffer.ofMem (packed s src n).out : Page).mem src.byte) (fun _ isT => isT ▸ storedT) (by
        rintro before ⟨writable, from', count⟩ after storedBefore ⟨ret', ran⟩
        exact ((wp_ok ran).mp (storedBefore.readi decodes small writable from' count)).1)
    have sizeU : (u.itable ip).size = n := by
      rw [later.holds.size, ← storedT.holds.size, sizeN]
    refine wp_mono (later.readi decodes small readable off m) ?_ fun _ _ absurd => absurd
    rintro ret' v ⟨_, read⟩
    rw [sizeU] at read
    exact delivered_slice (by omega) copies read

end Transparent

/-! ### A codec for zeros -/

/-- A codec that packs payloads of zeros into one byte and refuses all others. -/
def zeros : Codec where
  State := Unit
  compress := fun _ input inlen output _ =>
    if 0 < inlen ∧ ∀ x < inlen.toNatClampNeg, input x = 0 then ⟨1, output.copy 0 [0], ()⟩
    else ⟨0, output, ()⟩
  decompress := fun _ _ _ output maxlen =>
    some ⟨maxlen.toNatClampNeg, output.copy 0 (List.replicate maxlen.toNatClampNeg 0), ()⟩

theorem zeros_undoes : zeros.Undoes := by
  intro codec input output n maxlen success _ _ output' _
  by_cases packs : 0 < n.toInt32 ∧ ∀ x < n.toInt32.toNatClampNeg, input x = 0
  · have length : n.toInt32.toNatClampNeg = n.toNat := by
      have small : n.toNat < 2 ^ 31 := by
        have positive := Int32.lt_iff_toInt_lt.mp packs.1
        have bound := n.toNat_lt
        change (0 : Int) < _ at positive
        rw [toInt_toInt32] at positive
        split_ifs at positive with small
        · exact small
        · omega
      rw [Int32.toNatClampNeg, toInt_of_small small]
      rfl
    refine ⟨_, rfl, congrArg Int.ofNat length, fun x inside => ?_⟩
    rw [length] at packs
    change (output'.copy 0 (List.replicate n.toInt32.toNatClampNeg 0)) x = input x
    rw [packs.2 x inside, length, Mem.copy_inside _ (Nat.zero_le x)
      (by rw [List.length_replicate]; omega)]
    simp
  · have refused : (zeros.compress codec input n.toInt32 output maxlen).ret = 0 :=
      congrArg CodecResult.ret (if_neg packs)
    rw [refused] at success
    exact absurd success (Int.lt_irrefl 0)

/-- Readable zeros. -/
def zeroBytes : Source := ⟨fun _ => 0, fun _ => true⟩

/-- A new regular file, with two pages free. -/
def newFile : FsState zeros :=
  oneInode smallDisk () ⟨[1, 2], fun _ => Buffer.fill 0⟩
    { Dinode.zero with type := tFile, nlink := 1 }

theorem newFile_inv : FsInv smallDisk newFile :=
  oneInode_inv smallDisk_valid smallDisk_vacant (by decide) (by decide) rfl

theorem newFile_stores {n : UInt32} (long : CompressionHeader.bytes < n.toNat)
    (short : n.toNat ≤ 3072) (ret : (packed newFile zeroBytes n).ret = 1) :
    StoresCompressed smallDisk newFile 0 1 zeroBytes n := by
  refine ⟨newFile_inv, ⟨by decide, by decide, rfl, rfl⟩, rfl, rfl, rfl,
    pagesOk_of_free (by decide) (by decide) (by decide) rfl, fun _ _ => rfl, long, short, ?_, ?_⟩
  · rw [ret]
    have : (1 : Nat) ≤ CompressionHeader.bytes := by decide
    omega
  · rw [ret]
    decide

/-- Seventeen zeros take sixteen bytes of header and one byte of image. -/
theorem transparent_iff_seventeen :
    wp (writei smallDisk 0 zeroBytes 0 17) newFile (fun ret t => ret = 17 ∧
      Transparent smallDisk 0 t (List.replicate 17 0)) fun _ _ => False := by
  have stores := @newFile_stores 17 (by decide) (by decide) (by decide +kernel)
  have found : wp (writei smallDisk 0 zeroBytes 0 17) newFile (fun _ t => ¬ OutOfBlocks t)
      fun _ _ => False := by decide +kernel
  refine wp_mono (wp_and (transparent_iff zeros_undoes smallDisk_valid stores) found) ?_
    fun _ _ absurd => absurd
  rintro ret t ⟨⟨isN, transparent⟩, enough⟩
  exact ⟨isN, (transparent enough).mpr (by decide +kernel)⟩

/-- Eighteen zeros are reported as seventeen. -/
theorem eighteen_not_transparent :
    zeros.Undoes ∧ StoresCompressed smallDisk newFile 0 1 zeroBytes 18 ∧
      wp (writei smallDisk 0 zeroBytes 0 18) newFile (fun ret t => ret = 18 ∧ ¬ OutOfBlocks t ∧
        (stati (t.itable 0)).size = 17 ∧ ¬ Transparent smallDisk 0 t (List.replicate 18 0))
        fun _ _ => False := by
  have written : wp (writei smallDisk 0 zeroBytes 0 18) newFile (fun ret t => ret = 18 ∧
      ¬ OutOfBlocks t ∧ (stati (t.itable 0)).size = 17) fun _ _ => False := by decide +kernel
  refine ⟨zeros_undoes, newFile_stores (by decide) (by decide) (by decide +kernel), ?_⟩
  refine wp_mono written ?_ fun _ _ absurd => absurd
  rintro ret t ⟨isN, enough, size⟩
  refine ⟨isN, enough, size, fun transparent => ?_⟩
  have reported := transparent.1
  rw [size] at reported
  exact absurd reported (by decide)

end Xv6.Kernel.Fs
