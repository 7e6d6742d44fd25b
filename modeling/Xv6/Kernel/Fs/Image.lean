import Xv6.Kernel.Fs.Compressed

/-!
Files stored as one compressed image.

Owns: the compressing call of `writei` with the state it leaves, what such a file
looks like on disk, and that reading it keeps it so.

Does not own: whether the codec gives the payload back; a file is stored here for
whatever its image decodes to.
-/

namespace Xv6.Kernel.Fs

open Xv6.Lib Function

variable {c : Codec}

/-! ### The call that stores an image -/

/-- The compression `writei` makes: both pages are fresh from `kalloc`. -/
def packed (s : FsState c) (src : Source) (n : UInt32) : CodecResult c.State :=
  c.compress s.codec ((Buffer.fill 5 : Page).copy 0 (src.byte.read 0 n.toNat)).mem n.toInt32
    (Buffer.fill 5 : Page).mem (Int32.ofNat pgSize)

/-- The compressing part of `writei` up to its decision. -/
structure Packs (s : FsState c) (src : Source) (n : UInt32) (a b : Nat) (rest : List Nat)
    (t : FsState c) : Prop where
  same : SameFs s t
  user : t.user = s.user
  cache : t.cache = s.cache
  codec : t.codec = (packed s src n).state
  freelist : t.kmem.freelist = rest
  page : t.kmem.page b = Buffer.ofMem (packed s src n).out

section Store

variable {sb : Superblock} {s : FsState c} {ip i : Nat} {src : Source} {n : UInt32}

/-- A write at offset 0 of a regular file: its compressing part, and its plain part
if that declines. -/
theorem wp_writei_file (isFile : (s.itable ip).type = tFile) (short : n.toNat ≤ maxFile * bsize)
    {post : Int → FsState c → Prop} {stop : Stop → FsState c → Prop} :
    wp (writei sb ip src 0 n) s post stop ↔
      wp (writeCompressed sb ip src n) s (fun early t =>
        early.elim (wp (writePlain sb ip src 0 n) t post stop) fun ret => post ret t) stop := by
  have inRange : ¬ ((s.itable ip).size < 0 ∨ 0 + n < 0) :=
    not_or.mpr ⟨UInt32.not_lt_zero, UInt32.not_lt_zero⟩
  have notTooLarge : ¬ maxFile * bsize < (0 + n).toNat := by
    rw [UInt32.zero_add]
    exact Nat.not_lt.mpr short
  unfold writei
  rw [wp_bind, wp_get, wp_ite, if_neg inRange, wp_ite, if_neg notTooLarge, wp_ite,
    if_pos ⟨isFile, rfl⟩, wp_bind]
  refine Iff.of_eq (congrArg (fun next => wp (writeCompressed sb ip src n) s next stop) ?_)
  funext early t
  cases early <;> rfl

/-- With two free pages and a readable source that fits a page, `writei` gets to
its decision. -/
theorem writeCompressed_packs {a b : Nat} {rest : List Nat}
    (pages : s.kmem.freelist = a :: b :: rest) (aSome : a ≠ 0) (bSome : b ≠ 0) (different : a ≠ b)
    (readable : ∀ x < n.toNat, src.valid x = true) (long : CompressionHeader.bytes < n.toNat)
    (short : n.toNat ≤ pgSize) {post : Option Int → FsState c → Prop}
    {stop : Stop → FsState c → Prop}
    (stores : ∀ t, Packs s src n a b rest t → 0 < (packed s src n).ret →
      (packed s src n).ret < n.toNat →
      wp (storeImage sb ip n b (packed s src n).ret.toNat) t (fun _ u =>
        post (some n.toInt32.toInt) { u with
          kmem := ⟨b :: a :: u.kmem.freelist,
            update (update u.kmem.page a (Buffer.fill 1)) b (Buffer.fill 1)⟩ })
        stop)
    (declines : ∀ t, Packs s src n a b rest t →
      ¬ (0 < (packed s src n).ret ∧ (packed s src n).ret < n.toNat) →
      post none { t with
        kmem := ⟨a :: b :: rest,
          update (update t.kmem.page b (Buffer.fill 1)) a (Buffer.fill 1)⟩ }) :
    wp (writeCompressed sb ip src n) s post stop := by
  have whole : src.copyin 0 n.toNat = src.byte.read 0 n.toNat :=
    Source.copyin_eq fun x low => by rw [Nat.zero_add]; exact readable x low
  unfold writeCompressed
  rw [wp_bind, wp_kalloc_cons pages, wp_ite, if_neg aSome, wp_bind, whole,
    wp_storePage (by rw [Mem.length_read, Nat.zero_add]; exact short), wp_ite,
    if_neg (by rw [Mem.length_read]; exact Nat.lt_irrefl _), wp_ite, if_neg (by omega), wp_bind,
    wp_kalloc_cons rfl, wp_ite, if_neg bSome, wp_bind]
  unfold compressPage
  simp only [wp_bind, wp_get, wp_set, wp_pure, wp_ite, update_self,
    update_of_ne different]
  have packs : Packs s src n a b rest { s with
      kmem := ⟨rest, update (update (update (update s.kmem.page a
        (Buffer.fill 5)) a ((Buffer.fill 5 : Page).copy 0 (src.byte.read 0 n.toNat))) b
        (Buffer.fill 5)) b (Buffer.ofMem (packed s src n).out)⟩
      codec := (packed s src n).state } :=
    ⟨⟨rfl, rfl, rfl⟩, rfl, rfl, rfl, rfl, update_self _ _ _⟩
  by_cases saves : 0 < (packed s src n).ret ∧ (packed s src n).ret < n.toNat
  · refine (if_pos saves).symm ▸ ?_
    refine wp_mono (stores _ packs saves.1 saves.2) ?_ fun _ _ stopped => stopped
    intro _ u after
    rw [wp_kfree aSome, wp_kfree bSome]
    exact after
  · refine (if_neg saves).symm ▸ ?_
    rw [wp_kfree bSome, wp_kfree aSome]
    exact declines _ packs saves

/-- Block 0 of a file that holds an image. -/
def imageBlock (old : Block) (n : UInt32) (image : List UInt8) : Block :=
  (CompressionHeader.put old ⟨compressionMagic, 1, n, UInt32.ofNat image.length⟩).copy
    CompressionHeader.bytes image

theorem header_imageBlock (old : Block) (n : UInt32) (image : List UInt8) :
    CompressionHeader.get (imageBlock old n image) =
      ⟨compressionMagic, 1, n, UInt32.ofNat image.length⟩ := by
  rw [← CompressionHeader.get_put old ⟨compressionMagic, 1, n, UInt32.ofNat image.length⟩]
  exact CompressionHeader.get_congr fun x inside => Buffer.copy_outside _ (.inl inside)

theorem imageBlock_mem (old : Block) (n : UInt32) {image : List UInt8}
    (fits : CompressionHeader.bytes + image.length ≤ bsize) {x : Nat} (inside : x < image.length) :
    (imageBlock old n image).mem (CompressionHeader.bytes + x) = image.getD x 0 := by
  rw [imageBlock, Buffer.copy_inside _ (by omega) (by omega) (by omega), Nat.add_sub_cancel_left]

/-- A regular file whose block 0 holds an image of length `k` for `n` bytes. -/
structure HoldsImage (disk : Disk) (node : Inode) (n : UInt32) (k : Nat) (image : Mem) : Prop where
  isFile : node.type = tFile
  size : node.size = UInt32.ofNat (k + CompressionHeader.bytes)
  fits : CompressionHeader.bytes + k ≤ bsize
  mapped : Mapped disk node.toDinode 0
  head : header disk node.toDinode = ⟨compressionMagic, 1, n, UInt32.ofNat k⟩
  bytes : ∀ x < k, nodeByte disk node.toDinode (CompressionHeader.bytes + x) = image x

theorem holdsImage_of_refs {k : Nat} {image : Mem} (held : Held s ip i)
    (consistent : Consistent sb s) (isFile : (s.itable ip).type = tFile)
    (size : (s.itable ip).size = UInt32.ofNat (k + CompressionHeader.bytes))
    (fits : CompressionHeader.bytes + k ≤ bsize) (present : s.refs sb (i, dataSlot 0) ≠ 0)
    (head : CompressionHeader.get (s.disk (s.refs sb (i, dataSlot 0))) =
      ⟨compressionMagic, 1, n, UInt32.ofNat k⟩)
    (bytes : ∀ x < k, (s.disk (s.refs sb (i, dataSlot 0))).mem (CompressionHeader.bytes + x) =
      image x) : HoldsImage s.disk (s.itable ip) n k image := by
  rw [held.refs_eq consistent] at present head bytes
  refine ⟨isFile, size, fits, ⟨by decide, present⟩, head, fun x inside => ?_⟩
  have inBlock : CompressionHeader.bytes + x < bsize := by omega
  rw [nodeByte, Nat.div_eq_of_lt inBlock, Nat.mod_eq_of_lt inBlock]
  exact bytes x inside

theorem storeImage_saved (valid : sb.Valid) (inv : FsInv sb s) (held : Held s ip i)
    (isFile : (s.itable ip).type = tFile) {k : Nat} {image : List UInt8}
    (length : image.length = k) (fits : CompressionHeader.bytes + k ≤ bsize) {b : UInt32}
    {t : FsState c} (provided : Provides sb ip i (dataSlot 0) s b t) {u : FsState c}
    (saved : u = (t.setBlock b.toNat (imageBlock (t.disk b.toNat) n image) [.logWrite b.toNat]).save
      sb ip { t.itable ip with size := UInt32.ofNat (k + CompressionHeader.bytes) }) :
    FsInv sb u ∧ Held u ip i ∧ u.kmem = s.kmem ∧ u.cache = s.cache ∧ u.codec = s.codec ∧
      u.user = s.user ∧ (¬ OutOfBlocks u ∨ s.blockOf sb i 0 ≠ 0 →
        HoldsImage u.disk (u.itable ip) n k fun x => image.getD x 0) := by
  have grows := provided.grows
  have isData := isData_of_dataSlot provided.result
  have good : ∀ event ∈ [Event.logWrite b.toNat], GoodEvent sb event := by simp [GoodEvent]
  have stays : Stays sb ip i s
      (t.setBlock b.toNat (imageBlock (t.disk b.toNat) n image) [.logWrite b.toNat]) :=
    (grows.stays valid inv.consistent).trans (setBlock_stays valid grows.consistent isData _ good)
  have heldV := held.stays stays
  have invU : FsInv sb u := saved ▸ stays.save_inv valid inv held rfl rfl rfl rfl rfl
  have entry : u.itable ip = { t.itable ip with
      size := UInt32.ofNat (k + CompressionHeader.bytes) } := by
    rw [saved]
    exact update_self _ _ _
  have heldU : Held u ip i := by
    obtain ⟨bound, ref, isValid, number⟩ := held.loaded
    refine ⟨⟨bound, ?_, ?_, ?_⟩, ?_⟩ <;> rw [entry, grows.node]
    · exact ref
    · exact isValid
    · exact number
    · exact held.live
  have refs : u.refs sb = t.refs sb := by
    have unchanged := @save_refs c sb _ ip i { t.itable ip with
      size := UInt32.ofNat (k + CompressionHeader.bytes) } valid stays.consistent heldV
      rfl rfl rfl rfl rfl
    rw [saved, unchanged]
    exact setBlock_refs valid grows.consistent isData _ _
  refine ⟨invU, heldU, ?_, ?_, ?_, ?_, ?_⟩
  · rw [saved]
    exact grows.kmem
  · rw [saved]
    exact grows.cache
  · rw [saved]
    exact grows.codec
  · rw [saved]
    exact grows.user
  · intro found
    have present : b.toNat ≠ 0 := by
      rcases found with enough | there
      · intro zero
        refine enough ((provided.failed (UInt32.toNat_inj.mp zero)).mono ?_)
        rw [saved]
        exact (List.prefix_append _ _).trans (List.prefix_append _ _)
      · rw [FsState.blockOf, Nat.zero_div] at there
        rw [provided.result, grows.kept _ there]
        exact there
    have someRef : t.refs sb (i, dataSlot 0) ≠ 0 := provided.result ▸ present
    have block : u.disk (u.refs sb (i, dataSlot 0)) = imageBlock (t.disk b.toNat) n image := by
      have dataBlock := (grows.consistent.data someRef).2.1
      have inodeBlock := valid.iblock_meta i (held.inside inv.consistent)
      have number : (t.itable ip).inum.toNat = i := by
        rw [grows.node]
        exact held.loaded.2.2.2
      rw [refs, ← provided.result, saved]
      rw [← provided.result] at dataBlock
      change putDinode sb (update t.disk b.toNat _) (t.itable ip).inum.toNat _ b.toNat = _
      rw [number, putDinode, update_of_ne (by omega), update_self]
    refine holdsImage_of_refs heldU invU.consistent ?_ ?_ fits ?_ ?_ ?_
    · rw [entry, grows.node]
      exact isFile
    · rw [entry]
    · rw [refs]
      exact someRef
    · rw [block, header_imageBlock, length]
    · intro x inside
      rw [block]
      exact imageBlock_mem _ _ (by rw [length]; exact fits) (by rw [length]; exact inside)

/-- Storing header and image in block 0. -/
theorem storeImage_spec (valid : sb.Valid) (inv : FsInv sb s) (held : Held s ip i)
    (isFile : (s.itable ip).type = tFile) {compBuf k : Nat}
    (fits : CompressionHeader.bytes + k ≤ bsize) :
    wp (storeImage sb ip n compBuf k) s (fun _ u => FsInv sb u ∧ Held u ip i ∧ u.kmem = s.kmem ∧
        u.cache = s.cache ∧ u.codec = s.codec ∧ u.user = s.user ∧
        (¬ OutOfBlocks u ∨ s.blockOf sb i 0 ≠ 0 →
          HoldsImage u.disk (u.itable ip) n k (s.kmem.page compBuf).mem)) fun _ _ => False := by
  unfold storeImage
  rw [wp_bind]
  refine wp_mono (bmap_spec valid inv.consistent held (by decide)) ?_ fun _ _ absurd => absurd
  intro b t provided
  have length : ((s.kmem.page compBuf).mem.read 0 k).length = k := Mem.length_read _ _ _
  simp only [bread, wp_bind, wp_get, wp_pure, wp_ite]
  rw [if_neg (by omega)]
  have block : (CompressionHeader.put (t.disk b.toNat)
      ⟨compressionMagic, 1, n, UInt32.ofNat k⟩).copy CompressionHeader.bytes
        ((s.kmem.page compBuf).mem.read 0 k) =
      imageBlock (t.disk b.toNat) n ((s.kmem.page compBuf).mem.read 0 k) := by
    rw [imageBlock, length]
  have page : t.kmem.page compBuf = s.kmem.page compBuf := by rw [provided.grows.kmem]
  simp only [logWrite, setBuffer, note, wp_modify, wp_bind, page, block]
  refine (wp_modifyInode_iupdate sb _ ip (fun node => { node with
    size := UInt32.ofNat (k + CompressionHeader.bytes) }) _ _).mpr ?_
  obtain ⟨invU, heldU, kmem, cache, codec, user, holds⟩ :=
    @storeImage_saved c sb s ip i n valid inv held isFile k _ length fits b t provided _ rfl
  refine ⟨invU, heldU, kmem, cache, codec, user, fun found => ?_⟩
  obtain ⟨isFile', size, _, mapped, head, bytes⟩ := holds found
  refine ⟨isFile', size, fits, mapped, head, fun x inside => (bytes x inside).trans ?_⟩
  rw [Mem.getD_read _ _ inside, Nat.zero_add]

end Store

/-! ### Reading a stored file -/

/-- An image of length `k` decodes to `n` bytes, whatever the static variables,
the output buffer and the bytes past the image. -/
def Decodes (c : Codec) (image : Mem) (k : Nat) (n : UInt32) (payload : Mem) : Prop :=
  ∀ (codec : c.State) (input output : Mem), (∀ x < k, input x = image x) →
    ∃ result, c.decompress codec input (UInt32.ofNat k).toInt32 output n.toInt32 = some result ∧
      result.ret = n.toNat ∧ ∀ x < n.toNat, result.out x = payload x

/-- A file that holds an image, with pages to read it, and a cache that does not
hold this file or holds its payload. -/
structure Stored (ip : Nat) (n : UInt32) (k : Nat) (image payload : Mem)
    (s : FsState c) : Prop where
  holds : HoldsImage s.disk (s.itable ip) n k image
  pages : PagesOk s
  cached : Cached s ip → s.cache.length = n ∧
    ∀ x < n.toNat, (s.kmem.page s.cache.buf).mem x = payload x

/-- What a read returns and leaves in the reader's memory when the inode has size
`size` and decodes to `n` bytes. -/
def delivered (size n : UInt32) (payload : Mem) (valid : Nat → Bool) (off m : UInt32)
    (user : Mem) : Int × Mem :=
  if size < off ∨ off + m < off ∨ n ≤ off then (0, user)
  else
    (if validLength valid 0 (clip n off (clip size off m)).toNat =
        (clip n off (clip size off m)).toNat then (clip n off (clip size off m)).toInt32.toInt
      else -1,
      user.copy 0 (payload.read off.toNat
        (validLength valid 0 (clip n off (clip size off m)).toNat)))

section ReadStored

variable {sb : Superblock} {s : FsState c} {ip k : Nat} {n : UInt32} {image payload : Mem}

/-- The count after both clippings. -/
theorem toNat_clip_clip {size off m : UInt32} (noWrap : ¬ off + m < off) (start : ¬ size < off)
    (before : ¬ n < off) : (clip n off (clip size off m)).toNat =
      min (min m.toNat (size.toNat - off.toNat)) (n.toNat - off.toNat) := by
  have inner := toNat_clip noWrap start
  have sum := toNat_add_of_not_lt noWrap
  have limit := (off + m).toNat_lt
  rw [toNat_clip _ before, inner]
  rw [UInt32.lt_iff_toNat_lt, UInt32.toNat_add, inner, Nat.mod_eq_of_lt (by omega)]
  omega

theorem HoldsImage.compSize {node : Inode} {disk : Disk} (holds : HoldsImage disk node n k image) :
    node.compSize = UInt32.ofNat k := by
  rw [Inode.compSize, holds.size, UInt32.ofNat_add, UInt32.add_sub_cancel]

theorem HoldsImage.toNat_compSize {node : Inode} {disk : Disk}
    (holds : HoldsImage disk node n k image) : node.compSize.toNat = k := by
  rw [holds.compSize]
  refine UInt32.toNat_ofNat_of_lt' ?_
  have := holds.fits
  have : bsize < 2 ^ 32 := by decide
  change k < 2 ^ 32
  omega

theorem HoldsImage.imageMapped {node : Inode} {disk : Disk}
    (holds : HoldsImage disk node n k image) :
    ImageMapped disk node := by
  have fits := holds.fits
  have : bsize ≤ pgSize := by decide
  refine ⟨by rw [holds.toNat_compSize]; omega, fun p _ high => ?_⟩
  rw [holds.toNat_compSize] at high
  rw [Nat.div_eq_of_lt (by omega)]
  exact holds.mapped

/-- The decompression of a stored file. -/
theorem HoldsImage.decode {node : Inode} {disk : Disk} (holds : HoldsImage disk node n k image)
    (decodes : Decodes c image k n payload) (codec : c.State) :
    ∃ result, decode c codec disk node n = some result ∧ result.ret = n.toNat ∧
      ∀ x < n.toNat, result.out x = payload x := by
  have fits := holds.fits
  have : bsize ≤ pgSize := by decide
  have input : ∀ x < k, ((Buffer.fill 5 : Page).copy 0 ((nodeByte disk node.toDinode).read
      CompressionHeader.bytes k)).mem x = image x := by
    intro x inside
    rw [Buffer.copy_inside _ (Nat.zero_le x) (by rw [Mem.length_read]; omega) (by omega),
      Nat.sub_zero, Mem.getD_read _ _ inside]
    exact holds.bytes x inside
  obtain ⟨result, decoded, isLength, isPayload⟩ :=
    decodes codec _ (Buffer.fill 5 : Page).mem input
  refine ⟨result, ?_, isLength, isPayload⟩
  rw [Fs.decode, holds.toNat_compSize, holds.compSize]
  exact decoded

/-- Decompressing a stored file into the cache. -/
theorem Stored.fill (stored : Stored ip n k image payload s) (decodes : Decodes c image k n payload)
    (small : n.toNat ≤ pgSize) :
    wp (fillCache sb ip (header s.disk (s.itable ip).toDinode)) s (fun filled t => filled = true ∧
        Stored ip n k image payload t ∧ Cached t ip ∧ SameFs s t ∧ t.user = s.user)
      fun _ _ => False := by
  obtain ⟨a, b, rest, pages, aSome, bSome, nodup, noNull⟩ := stored.pages.two
  obtain ⟨result, decoded, isLength, isPayload⟩ := stored.holds.decode decodes s.codec
  have different : a ≠ b := fun same => by simp [same] at nodup
  have length : (header s.disk (s.itable ip).toDinode).length = n := by rw [stored.holds.head]
  refine wp_mono (fillCache_spec pages aSome bSome different stored.holds.imageMapped
    (by rw [length]; exact decoded) (by rw [isLength]; exact_mod_cast small)) ?_
    fun _ _ absurd => absurd
  intro filled t after
  rw [if_neg (by rw [isLength]; omega)] at after
  obtain ⟨isTrue, same, user, _, freelist, page, cache⟩ := after
  rw [length] at cache
  refine ⟨isTrue, ⟨?_, ?_, ?_⟩, ?_, same, user⟩
  · rw [same.disk, same.itable]
    exact stored.holds
  · have parts := List.nodup_cons.mp nodup
    have inner := List.nodup_cons.mp parts.2
    refine ⟨?_, ?_, ?_, ?_⟩ <;> rw [freelist]
    · exact List.nodup_cons.mpr ⟨fun member => parts.1 (List.mem_cons_of_mem _ member), inner.2⟩
    · rw [List.mem_cons, not_or]
      exact ⟨Ne.symm aSome, noNull⟩
    · rw [cache, List.mem_cons, not_or]
      exact ⟨Ne.symm different, inner.1⟩
    · rw [cache, if_neg bSome, List.length_cons]
      omega
  · intro _
    rw [cache]
    refine ⟨rfl, fun x inside => ?_⟩
    rw [page, Buffer.mem_ofMem _ (by omega)]
    exact isPayload x inside
  · rw [Cached, cache, same.itable]
    exact ⟨bSome, rfl⟩

/-- Only the reader's memory changes when bytes are copied out. -/
theorem Stored.user (stored : Stored ip n k image payload s) (user : Mem) :
    Stored ip n k image payload { s with user := user } :=
  ⟨stored.holds, ⟨stored.pages.nodup, stored.pages.noNull, stored.pages.owned, stored.pages.enough⟩,
    stored.cached⟩

/-- The copy out of the cache of a stored file. -/
theorem Stored.copy (stored : Stored ip n k image payload s) (small : n.toNat ≤ pgSize)
    (cached : Cached s ip) {valid : Nat → Bool} {off m : UInt32}
    (inside : ¬ ((s.itable ip).size < off ∨ off + m < off)) :
    wp (readCached valid off (clip (s.itable ip).size off m)) s (fun ret t =>
        Stored ip n k image payload t ∧
        (ret, t.user) = delivered (s.itable ip).size n payload valid off m s.user)
      fun _ _ => False := by
  obtain ⟨length, page⟩ := stored.cached cached
  rw [not_or] at inside
  rw [wp_readCached, length]
  by_cases past : n ≤ off
  · rw [if_pos past, delivered, if_pos (.inr (.inr past))]
    exact ⟨stored, rfl⟩
  have notOutside : ¬ ((s.itable ip).size < off ∨ off + m < off ∨ n ≤ off) := by tauto
  have before : off.toNat < n.toNat := by
    rw [UInt32.le_iff_toNat_le] at past
    omega
  have count := @toNat_clip_clip n (s.itable ip).size off m inside.2 inside.1 fun less =>
    past (UInt32.le_of_lt less)
  rw [delivered, if_neg notOutside, if_neg past]
  generalize clip n off (clip (s.itable ip).size off m) = m' at count ⊢
  have most := validLength_le valid 0 m'.toNat
  have bytes : (s.kmem.page s.cache.buf).mem.read off.toNat (validLength valid 0 m'.toNat) =
      payload.read off.toNat (validLength valid 0 m'.toNat) :=
    Mem.read_congr fun x low => page _ (by omega)
  rw [if_neg (by omega), bytes]
  exact ⟨stored.user _, rfl⟩

/-- Reading a stored file delivers its payload and keeps it stored. -/
theorem Stored.readi (stored : Stored ip n k image payload s)
    (decodes : Decodes c image k n payload)
    (small : n.toNat ≤ pgSize) (valid : Nat → Bool) (off m : UInt32) :
    wp (readi sb ip valid off m) s (fun ret t => Stored ip n k image payload t ∧
        (ret, t.user) = delivered (s.itable ip).size n payload valid off m s.user)
      fun _ _ => False := by
  by_cases outside : (s.itable ip).size < off ∨ off + m < off
  · rw [wp_readi_outside outside, delivered, if_pos (by tauto)]
    exact ⟨stored, rfl⟩
  rw [wp_readi_file outside stored.holds.isFile stored.holds.mapped,
    if_pos (by rw [stored.holds.head])]
  by_cases cached : Cached s ip
  · rw [wp_readCompressed_hit cached]
    exact stored.copy small cached outside
  · rw [wp_readCompressed_miss cached]
    refine wp_mono (stored.fill decodes small) ?_ fun _ _ absurd => absurd
    rintro _ t ⟨rfl, storedT, cachedT, same, user⟩
    rw [← same.itable] at outside ⊢
    rw [← user]
    exact storedT.copy small cachedT outside

end ReadStored

end Xv6.Kernel.Fs
