import Xv6.Kernel.Fs.ByteArrays
import Xv6.Kernel.Fs.Transparent

/-!
Regular files whose bytes are stored as they are.

Owns: when a regular file delivers its raw bytes to every reader, what the plain
part of `writei` leaves of a regular file when it writes from offset 0, the
condition under which raw contents are read back, and the condition under which
overwriting a prefix keeps the rest.

Does not own: compressed images.
-/

namespace Xv6.Kernel.Fs

open Xv6.Lib

variable {c : Codec}

/-! ### What readers get -/

/-- The same file on disk and in the inode table; pages, the cache of `readi`, the
codec's variables and the reader's memory may be anything. -/
structure SameFile (ip : Nat) (t u : FsState c) : Prop where
  disk : u.disk = t.disk
  node : u.itable ip = t.itable ip

/-- Every `readi` into writable memory returns the slice of `bytes` it asks for. -/
def Delivers (sb : Superblock) (ip : Nat) (t : FsState c) (bytes : List UInt8) : Prop :=
  ∀ u, SameFile ip t u → ∀ (valid : Nat → Bool) (off m : UInt32),
    (∀ x < m.toNat, valid x = true) →
    wp (readi sb ip valid off m) u (fun ret v => ret = (slice bytes off m).length ∧
      v.user.read 0 (slice bytes off m).length = slice bytes off m) fun _ _ => False

/-- A regular file that has all its blocks, and these hold `bytes`. -/
structure Plain (s : FsState c) (ip : Nat) (bytes : List UInt8) : Prop where
  isFile : (s.itable ip).type = tFile
  size : (s.itable ip).size.toNat = bytes.length
  mapped : ∀ p < bytes.length, Mapped s.disk (s.itable ip).toDinode (p / bsize)
  bytes : (nodeByte s.disk (s.itable ip).toDinode).read 0 bytes.length = bytes

section Plain

variable {sb : Superblock} {s t u : FsState c} {ip : Nat} {bytes : List UInt8}

theorem Plain.first (plain : Plain s ip bytes) (nonempty : bytes ≠ []) :
    Mapped s.disk (s.itable ip).toDinode 0 :=
  plain.mapped 0 (List.length_pos_iff.mpr nonempty)

theorem Plain.short (plain : Plain s ip bytes) : bytes.length ≤ maxFile * bsize := by
  by_contra large
  have last := (plain.mapped (maxFile * bsize) (by omega)).1
  rw [Nat.mul_div_cancel _ bsize_pos] at last
  exact Nat.lt_irrefl _ last

theorem Plain.sameFile (plain : Plain s ip bytes) (same : SameFile ip s u) : Plain u ip bytes := by
  obtain ⟨isFile, size, mapped, isBytes⟩ := plain
  refine ⟨?_, ?_, ?_, ?_⟩ <;> rw [same.node]
  · exact isFile
  · exact size
  · rw [same.disk]
    exact mapped
  · rw [same.disk]
    exact isBytes

theorem readi_no_pages {valid : Nat → Bool} {off m : UInt32}
    (inside : ¬ ((s.itable ip).size < off ∨ off + m < off)) (isFile : (s.itable ip).type = tFile)
    (mapped : Mapped s.disk (s.itable ip).toDinode 0)
    (compressed : (header s.disk (s.itable ip).toDinode).compressed = 1)
    (noPages : s.kmem.freelist = []) (noCache : s.cache.buf = 0) :
    wp (readi sb ip valid off m) s (fun ret _ => ret = -1) fun _ _ => False := by
  rw [wp_readi_file inside isFile mapped, if_pos compressed,
    wp_readCompressed_miss fun hit => hit.1 noCache]
  unfold fillCache
  rw [wp_bind, wp_dropCache, FsState.dropped, if_pos noCache]
  simp only [kalloc, kfreeUnlessNull, modifyCache, wp_bind, wp_get, wp_ite, wp_pure, wp_modify,
    noPages, if_true, true_or]
  exact if_neg Bool.false_ne_true ▸ trivial

theorem not_delivers_of_compressed (isFile : (s.itable ip).type = tFile)
    (mapped : Mapped s.disk (s.itable ip).toDinode 0)
    (compressed : (header s.disk (s.itable ip).toDinode).compressed = 1) :
    ¬ Delivers sb ip s bytes := by
  intro delivers
  have inside : ¬ ((s.itable ip).size < 0 ∨ (0 : UInt32) + 1 < 0) :=
    not_or.mpr ⟨UInt32.not_lt_zero, UInt32.not_lt_zero⟩
  have same : SameFile ip s { s with kmem := ⟨[], s.kmem.page⟩, cache := ⟨0, 0, 0⟩ } := ⟨rfl, rfl⟩
  obtain ⟨ret, u, ran, returned, _⟩ := exists_ok_of_wp
    (delivers _ same (fun _ => true) 0 1 fun _ _ => rfl)
  have failed := (wp_ok ran).mp (readi_no_pages inside isFile mapped compressed rfl rfl)
  omega

/-- Where the file does not start with a header of a compressed one, every reader gets the
bytes of its blocks. -/
theorem Plain.delivers (plain : Plain s ip bytes) (nonempty : bytes ≠ [])
    (notCompressed : (header s.disk (s.itable ip).toDinode).compressed ≠ 1) :
    Delivers sb ip s bytes := by
  intro u same valid off m copies
  have plainU := plain.sameFile same
  have short := plainU.short
  have largest : maxFile * bsize < 2 ^ 31 := by decide
  have notCompressedU : (header u.disk (u.itable ip).toDinode).compressed ≠ 1 := by
    rw [same.disk, same.node]
    exact notCompressed
  have isSlice : slice bytes off m = (nodeByte u.disk (u.itable ip).toDinode).read off.toNat
      (min (off + m).toNat bytes.length - off.toNat) := by
    rw [← slice_read, plainU.bytes]
  rw [isSlice, Mem.length_read]
  by_cases outside : (u.itable ip).size < off ∨ off + m < off
  · have absent : min (off + m).toNat bytes.length - off.toNat = 0 := by
      rw [UInt32.lt_iff_toNat_lt, UInt32.lt_iff_toNat_lt, plainU.size] at outside
      omega
    rw [wp_readi_outside outside, absent]
    exact ⟨rfl, rfl⟩
  · rw [wp_readi_file outside plainU.isFile (plainU.first nonempty), if_neg notCompressedU]
    rw [not_or] at outside
    have count := toNat_clip outside.2 outside.1
    have sum := toNat_add_of_not_lt outside.2
    rw [plainU.size] at count
    rw [UInt32.lt_iff_toNat_lt, plainU.size] at outside
    generalize clip (u.itable ip).size off m = k at count
    have isCount : min (off + m).toNat bytes.length - off.toNat = k.toNat := by omega
    have whole : validLength valid 0 k.toNat = k.toNat := validLength_eq fun x low => by
      rw [Nat.zero_add]
      exact copies x (by omega)
    refine readPlain_mapped (fun p low high => plainU.mapped p (by omega)) ?_
    rw [if_pos whole, whole, toInt_of_small (by omega), isCount]
    refine ⟨rfl, ?_⟩
    have readBack := Mem.read_copy u.user 0
      ((nodeByte u.disk (u.itable ip).toDinode).read off.toNat k.toNat)
    rwa [Mem.length_read] at readBack

theorem Plain.delivers_iff (plain : Plain s ip bytes) (nonempty : bytes ≠ []) :
    Delivers sb ip s bytes ↔ (header s.disk (s.itable ip).toDinode).compressed ≠ 1 :=
  ⟨fun delivers compressed => not_delivers_of_compressed plain.isFile (plain.first nonempty)
    compressed delivers, plain.delivers nonempty⟩

end Plain

/-! ### Writing from offset 0 -/

/-- The bytes of the blocks of inode `i`; a block to be allocated holds zeros. -/
def FsState.oldByte (sb : Superblock) (s : FsState c) (i : Nat) : Mem := fun p =>
  if s.blockOf sb i p = 0 then 0 else s.byteAt sb i p

/-- The same once the first `n` bytes are replaced. -/
def FsState.overwritten (sb : Superblock) (s : FsState c) (i : Nat) (bytes : Mem) (n : Nat) : Mem :=
  fun p => if p < n then bytes p else s.oldByte sb i p

section Overwrite

variable {sb : Superblock} {s t u : FsState c} {ip i : Nat} {src : Source} {n : UInt32}

theorem plain_of_refs (held : Held u ip i) (consistent : Consistent sb u)
    (isFile : (u.itable ip).type = tFile)
    (whole : ∀ p < (u.itable ip).size.toNat, u.blockOf sb i p ≠ 0)
    {m : Mem} (isByte : ∀ p, u.blockOf sb i p ≠ 0 → u.byteAt sb i p = m p) :
    Plain u ip (m.read 0 (u.itable ip).size.toNat) := by
  have node := held.byteAt_eq consistent
  refine ⟨isFile, (Mem.length_read _ _ _).symm, fun p below => ?_, ?_⟩
  · rw [Mem.length_read] at below
    exact held.mapped consistent (whole p below)
  · rw [Mem.length_read, ← node]
    exact Mem.read_congr fun p below => isByte _ (by rw [Nat.zero_add]; exact whole p below)

theorem header_of_refs (held : Held u ip i) (consistent : Consistent sb u)
    (first : u.blockOf sb i 0 ≠ 0) {m : Mem}
    (isByte : ∀ p, u.blockOf sb i p ≠ 0 → u.byteAt sb i p = m p) :
    (header u.disk (u.itable ip).toDinode).compressed = m.le32 4 := by
  refine Mem.le32_congr fun x inside => ?_
  have small : 4 + x < bsize := by
    have : (8 : Nat) ≤ bsize := by decide
    omega
  have block : u.blockOf sb i (4 + x) = u.blockOf sb i 0 := by
    rw [FsState.blockOf, FsState.blockOf, Nat.div_eq_of_lt small, Nat.zero_div]
  rw [← isByte _ (block ▸ first), held.byteAt_eq consistent, nodeByte, Nat.div_eq_of_lt small,
    Nat.mod_eq_of_lt small]

/-- After the plain loop stored the first `n` bytes, all of them in blocks. -/
structure Overwrote (sb : Superblock) (ip i : Nat) (bytes : Mem) (s : FsState c) (n : Nat)
    (t : FsState c) : Prop extends Stays sb ip i s t where
  whole : ∀ p < n, t.blockOf sb i p ≠ 0
  isByte : ∀ p, t.blockOf sb i p ≠ 0 → t.byteAt sb i p = s.overwritten sb i bytes n p

theorem Writes.overwrote {bytes : Mem} {n : Nat} (writes : Writes sb ip i 0 bytes s n t)
    (enough : ¬ OutOfBlocks t) : Overwrote sb ip i bytes s n t := by
  have written := writes.written fun failed => enough failed.outOfBlocks
  refine ⟨writes.toStays, fun p below => ?_, fun p present => ?_⟩
  · exact (written p (Nat.zero_le p) (by omega)).1
  · unfold FsState.overwritten FsState.oldByte
    split_ifs with below absent
    · exact (written p (Nat.zero_le p) (by omega)).2
    · exact writes.fresh p absent present (by omega)
    · exact writes.outside i p absent (by omega)

theorem writeLoop_mapped (valid : sb.Valid) (consistent : Consistent sb s) (held : Held s ip i)
    {n : Nat} (readable : ∀ x < n, src.valid x = true) (whole : ∀ p < n, s.blockOf sb i p ≠ 0) :
    wp (chunkLoop bsize 0 n bsize_pos (writePiece sb ip src 0) 0) s
      (fun tot t => tot = n ∧ Overwrote sb ip i src.byte s n t) fun _ _ => False := by
  refine wp_mono (wp_chunkLoop (fun tot t => Stays sb ip i s t ∧
      ∀ p, t.blockOf sb i p ≠ 0 → t.byteAt sb i p = s.overwritten sb i src.byte tot p)
    (fun _ _ => False) ?_ (Nat.zero_le n) ?_) ?_ fun _ _ absurd => absurd
  · rintro tot m t inside positive within room _ ⟨stays, isByte⟩
    have heldT := held.stays stays
    have present : t.blockOf sb i (0 + tot) ≠ 0 := by
      have someS := whole (0 + tot) (by omega)
      rw [FsState.blockOf, stays.kept _ someS]
      exact someS
    have copied : src.copyin tot m = src.byte.read tot m :=
      Source.copyin_eq fun x low => readable _ (by omega)
    have isBlock : (UInt32.ofNat (nodeRef t.disk (t.itable ip).toDinode
        (dataSlot ((0 + tot) / bsize)))).toNat = t.refs sb (i, dataSlot ((0 + tot) / bsize)) := by
      rw [heldT.refs_eq stays.consistent]
      exact UInt32.toNat_ofNat_of_lt' (nodeRef_lt _ _ _)
    unfold writePiece
    rw [wp_bind, bmap_mapped (heldT.mapped stays.consistent present)]
    generalize UInt32.ofNat (nodeRef t.disk (t.itable ip).toDinode
      (dataSlot ((0 + tot) / bsize))) = b at isBlock ⊢
    simp only [bread, logWrite, setBuffer, note, wp_bind, wp_get, wp_pure, wp_modify, copied,
      Mem.length_read, Nat.lt_irrefl, if_false, if_true]
    have good : ∀ event ∈ [Event.logWrite b.toNat], GoodEvent sb event := by simp [GoodEvent]
    have isData := isData_of_dataSlot isBlock
    have stored := @setBlock_stays c sb t ip i b.toNat valid stays.consistent isData
      ((t.disk b.toNat).copy ((0 + tot) % bsize) (src.byte.read tot m)) _ good
    refine ⟨stays.trans stored, fun p someP => ?_⟩
    have someT : t.blockOf sb i p ≠ 0 := by
      have same := setBlock_refs valid stays.consistent isData
        ((t.disk b.toNat).copy ((0 + tot) % bsize) (src.byte.read tot m)) [.logWrite b.toNat]
      exact (congrFun same _).symm.trans_ne someP
    refine (setBlock_piece valid stays.consistent room isBlock _ someT).trans ?_
    rw [isByte p someT]
    unfold FsState.overwritten
    split_ifs <;> first | rfl | omega
  · refine ⟨Stays.refl consistent, fun p present => ?_⟩
    rw [FsState.overwritten, if_neg (Nat.not_lt_zero p), FsState.oldByte, if_neg present]
  · rintro tot t (⟨rfl, stays, isByte⟩ | ⟨_, absurd⟩)
    · refine ⟨rfl, stays, fun p below => ?_, isByte⟩
      have present := whole p below
      rw [FsState.blockOf, stays.kept _ present]
      exact present
    · exact absurd.elim

theorem Stays.saved_held (stays : Stays sb ip i s t) (held : Held s ip i)
    (off : UInt32) (tot : Nat) :
    Held (t.save sb ip ((t.itable ip).grown off tot)) ip i := by
  have heldT := held.stays stays
  have entry : (t.save sb ip ((t.itable ip).grown off tot)).itable ip =
      (t.itable ip).grown off tot :=
    Function.update_self _ _ _
  obtain ⟨bound, ref, isValid, number⟩ := heldT.loaded
  refine ⟨⟨bound, ?_, ?_, ?_⟩, ?_⟩ <;> rw [entry]
  · rw [Inode.grown_ref]
    exact ref
  · rw [Inode.grown_valid]
    exact isValid
  · rw [Inode.grown_inum]
    exact number
  · rw [Inode.grown_type]
    exact heldT.live

/-- Saving the inode makes these the bytes of the file. -/
theorem Overwrote.saved (valid : sb.Valid) (inv : FsInv sb s) (held : Held s ip i)
    (isFile : (s.itable ip).type = tFile)
    (whole : ∀ p < (s.itable ip).size.toNat, s.blockOf sb i p ≠ 0) {bytes : Mem}
    (present : 0 < n.toNat)
    (limit : n.toNat ≤ maxFile * bsize) (overwrote : Overwrote sb ip i bytes s n.toNat t)
    (saved : u = t.save sb ip ((t.itable ip).grown 0 n.toNat)) :
    Plain u ip ((s.overwritten sb i bytes n.toNat).read 0 (max (s.itable ip).size.toNat n.toNat)) ∧
      (header u.disk (u.itable ip).toDinode).compressed =
        (s.overwritten sb i bytes n.toNat).le32 4 := by
  have heldT := held.stays overwrote.toStays
  have inv : FsInv sb u :=
    saved ▸ overwrote.save_inv valid inv held (by simp) (by simp) (by simp) (by simp) (by simp)
  have entry : u.itable ip = (t.itable ip).grown 0 n.toNat := by
    rw [saved]
    exact Function.update_self _ _ _
  have size : (u.itable ip).size.toNat = max (s.itable ip).size.toNat n.toNat := by
    have grown := @Inode.grown_size (t.itable ip) 0 n.toNat (by simpa using limit)
    rw [entry, grown, overwrote.node]
    simp
  have heldU : Held u ip i := saved ▸ overwrote.saved_held held 0 n.toNat
  have blocks : ∀ p, u.blockOf sb i p = t.blockOf sb i p := fun p => by
    rw [saved]
    exact congrFun (save_refs valid overwrote.consistent heldT (by simp) (by simp)
      (by simp) (by simp)
      (by simp)) _
  have isByte : ∀ p, u.blockOf sb i p ≠ 0 →
      u.byteAt sb i p = s.overwritten sb i bytes n.toNat p := by
    intro p someP
    rw [blocks] at someP
    rw [← overwrote.isByte p someP, saved]
    exact save_byteAt valid overwrote.consistent heldT (by simp) (by simp) (by simp) (by simp)
      (by simp) someP
  have isFileU : (u.itable ip).type = tFile := by
    rw [entry, Inode.grown_type, overwrote.node]
    exact isFile
  refine ⟨?_, header_of_refs heldU inv.consistent ?_ isByte⟩
  · rw [← size]
    refine plain_of_refs heldU inv.consistent isFileU (fun p below => ?_) isByte
    rw [blocks]
    by_cases new : p < n.toNat
    · exact overwrote.whole p new
    · have old := whole p (by omega)
      rw [FsState.blockOf, overwrote.kept _ old]
      exact old
  · rw [blocks]
    exact overwrote.whole 0 present

/-- `writei` has a page for a payload that is too short to compress, or two for one
that compression does not make shorter. -/
def Declines (s : FsState c) (src : Source) (n : UInt32) : Prop :=
  (n.toNat ≤ CompressionHeader.bytes ∧ ∃ a rest, s.kmem.freelist = a :: rest ∧ a ≠ 0) ∨
    ¬ (0 < (packed s src n).ret ∧ (packed s src n).ret < n.toNat) ∧
      ∃ a b rest, s.kmem.freelist = a :: b :: rest ∧ a ≠ 0 ∧ b ≠ 0 ∧ a ≠ b

/-- The compressing part leaves such a payload to the plain part, with the pages
given back. -/
theorem writeCompressed_declines (declines : Declines s src n)
    (readable : ∀ x < n.toNat, src.valid x = true) (short : n.toNat ≤ pgSize) :
    wp (writeCompressed sb ip src n) s (fun early t => early = none ∧ SameFs s t ∧
      t.kmem.freelist = s.kmem.freelist ∧ t.cache = s.cache) fun _ _ => False := by
  by_cases long : CompressionHeader.bytes < n.toNat
  · rcases declines with ⟨notLong, _⟩ | ⟨useless, a, b, rest, pages, aSome, bSome, different⟩
    · exact absurd long (Nat.not_lt.mpr notLong)
    · refine writeCompressed_packs pages aSome bSome different readable long short ?_ ?_
      · exact fun t _ positive less => absurd ⟨positive, less⟩ useless
      · exact fun t packs _ => ⟨rfl, ⟨packs.same.disk, packs.same.itable, packs.same.trace⟩,
          pages.symm, packs.cache⟩
  · obtain ⟨a, rest, pages, aSome⟩ : ∃ a rest, s.kmem.freelist = a :: rest ∧ a ≠ 0 := by
      rcases declines with ⟨_, page⟩ | ⟨_, a, b, rest, pages, aSome, _⟩
      · exact page
      · exact ⟨a, b :: rest, pages, aSome⟩
    have copied : src.copyin 0 n.toNat = src.byte.read 0 n.toNat :=
      Source.copyin_eq fun x low => by rw [Nat.zero_add]; exact readable x low
    unfold writeCompressed
    rw [wp_bind, wp_kalloc_cons pages, wp_ite, if_neg aSome, wp_bind, copied,
      wp_storePage (by rw [Mem.length_read, Nat.zero_add]; exact short), wp_ite,
      if_neg (by rw [Mem.length_read]; exact Nat.lt_irrefl _), wp_ite,
      if_pos (Nat.not_lt.mp long), wp_bind, wp_kfree aSome]
    exact ⟨rfl, ⟨rfl, rfl, rfl⟩, pages.symm, rfl⟩

theorem writei_declines (isFile : (s.itable ip).type = tFile) (declines : Declines s src n)
    (readable : ∀ x < n.toNat, src.valid x = true) (short : n.toNat ≤ 3072)
    {post : Int → FsState c → Prop}
    (plain : ∀ t, SameFs s t → t.kmem.freelist = s.kmem.freelist → t.cache = s.cache →
      wp (writePlain sb ip src 0 n) t post fun _ _ => False) :
    wp (writei sb ip src 0 n) s post fun _ _ => False := by
  have page : (3072 : Nat) ≤ pgSize := by decide
  rw [wp_writei_file isFile (Nat.le_trans short (by decide))]
  refine wp_mono (writeCompressed_declines declines readable (by omega)) ?_ fun _ _ absurd => absurd
  rintro _ t ⟨rfl, same, freelist, cache⟩
  exact plain t same freelist cache

theorem SameFs.overwritten (same : SameFs s t) (bytes : Mem) (n : Nat) :
    t.overwritten sb i bytes n = s.overwritten sb i bytes n := by
  funext p
  unfold FsState.overwritten FsState.oldByte FsState.byteAt FsState.blockOf
  rw [same.refs, same.disk]

theorem overwritten_read (bytes : Mem) (n : Nat) :
    (s.overwritten sb i bytes n).read 0 n = bytes.read 0 n :=
  Mem.read_congr fun x inside => if_pos (by rw [Nat.zero_add]; exact inside)

end Overwrite

/-! ### Raw contents of a new file -/

/-- The call `writei(ip, .., 0, n)` on an empty regular file that stores its source
as it is. -/
structure StoresRaw (sb : Superblock) (s : FsState c) (ip i : Nat) (src : Source) (n : UInt32) :
    Prop where
  inv : FsInv sb s
  loaded : Loaded s.itable ip i
  isFile : (s.itable ip).type = tFile
  empty : (s.itable ip).size = 0
  readable : ∀ x < n.toNat, src.valid x = true
  nonempty : 0 < n.toNat
  short : n.toNat ≤ 3072
  declines : Declines s src n

section Raw

variable {sb : Superblock} {s : FsState c} {ip i : Nat} {src : Source} {n : UInt32}

/-- The write returns `n`, and the file holds the source's bytes. -/
theorem StoresRaw.writei (stores : StoresRaw sb s ip i src n) (valid : sb.Valid) :
    wp (writei sb ip src 0 n) s (fun ret u => ret = n.toNat ∧ FsInv sb u ∧ Held u ip i ∧
      u.kmem.freelist = s.kmem.freelist ∧ u.cache = s.cache ∧ (¬ OutOfBlocks u →
        Plain u ip (src.byte.read 0 n.toNat) ∧ (header u.disk (u.itable ip).toDinode).compressed =
          (s.overwritten sb i src.byte n.toNat).le32 4)) fun _ _ => False := by
  have short := stores.short
  have limit : n.toNat ≤ maxFile * bsize := Nat.le_trans short (by decide)
  refine writei_declines stores.isFile stores.declines stores.readable short ?_
  intro t same freelist cache
  have inv := stores.inv.same same
  have held := (stores.inv.held stores.loaded).same same
  have size : (t.itable ip).size.toNat = 0 := by
    rw [same.itable, stores.empty]
    rfl
  refine wp_mono (writePlain_spec valid inv.consistent held src (by simpa using limit)) ?_
    fun _ _ absurd => absurd
  intro ret u plain
  have invU := plain.inv valid inv held
  obtain ⟨tot, v, saved, isTot, ⟨rfl, writes⟩ | ⟨_, _, failed⟩⟩ := plain
  · refine ⟨?_, invU, saved ▸ writes.saved_held held 0 n.toNat, ?_, ?_, fun enough => ?_⟩
    · rw [isTot, UInt32.ofNat_toNat]
      exact toInt_of_small (by omega)
    · rw [saved, ← freelist]
      exact congrArg Kmem.freelist writes.kmem
    · rw [saved, ← cache]
      exact writes.cache
    · have enoughV : ¬ OutOfBlocks v := fun out => enough (out.mono (by
        rw [saved]
        exact List.prefix_append _ _))
      have after := (writes.overwrote enoughV).saved valid inv held
        (by rw [same.itable]; exact stores.isFile)
        (fun p below => absurd below (by rw [size]; exact Nat.not_lt_zero p))
          stores.nonempty limit saved
      rw [size, Nat.zero_max, overwritten_read, same.overwritten] at after
      exact after
  · exact absurd stores.readable failed

/-- Raw contents are read back exactly if the word at offset 4 of the block they are
stored in is not 1. -/
theorem raw_delivered_iff (valid : sb.Valid) (stores : StoresRaw sb s ip i src n) :
    wp (writei sb ip src 0 n) s (fun ret t => ret = n.toNat ∧ (¬ OutOfBlocks t →
        (Delivers sb ip t (src.byte.read 0 n.toNat) ↔
          (s.overwritten sb i src.byte n.toNat).le32 4 ≠ 1))) fun _ _ => False := by
  refine wp_mono (stores.writei valid) ?_ fun _ _ absurd => absurd
  rintro ret t ⟨returned, _, _, _, _, after⟩
  refine ⟨returned, fun enough => ?_⟩
  obtain ⟨plain, word⟩ := after enough
  have nonempty : src.byte.read 0 n.toNat ≠ [] := by
    have present := stores.nonempty
    rw [← List.length_pos_iff, Mem.length_read]
    exact present
  rw [plain.delivers_iff nonempty, word]

end Raw

/-- A short payload on the new file. -/
theorem newHuffmanFile_storesRaw {src : Source} {n : UInt32} (readable : ∀ x, src.valid x = true)
    (present : 0 < n.toNat) (tooShort : n.toNat ≤ CompressionHeader.bytes) :
    StoresRaw smallDisk newHuffmanFile 0 1 src n :=
  ⟨newHuffmanFile_inv, ⟨by decide, by decide, rfl, rfl⟩, rfl, rfl, fun x _ => readable x, present,
    Nat.le_trans tooShort (by decide), .inl ⟨tooShort, 1, [2], rfl, by decide⟩⟩

/-- Three bytes `a` are read back. -/
theorem raw_delivered_iff_letters :
    wp (writei smallDisk 0 threeBytes 0 3) newHuffmanFile (fun ret t => ret = 3 ∧
      Delivers smallDisk 0 t [97, 97, 97]) fun _ _ => False := by
  have stores : StoresRaw smallDisk newHuffmanFile 0 1 threeBytes 3 :=
    newHuffmanFile_storesRaw (fun _ => rfl) (by decide) (by decide)
  have found : wp (writei smallDisk 0 threeBytes 0 3) newHuffmanFile (fun _ t => ¬ OutOfBlocks t)
      fun _ _ => False := by decide +kernel
  refine wp_mono (wp_and (raw_delivered_iff smallDisk_valid stores) found) ?_
    fun _ _ absurd => absurd
  rintro ret t ⟨⟨returned, delivers⟩, enough⟩
  exact ⟨returned, (delivers enough).mpr (by decide +kernel)⟩

/-- Sixteen zeros but for a one at offset 4: as long as a header, and taken for
one. -/
def headerLike : Source := ⟨fun x => if x = 4 then 1 else 0, fun _ => true⟩

/-- Sixteen bytes that look like a header cannot be read. -/
theorem headerLike_not_delivered :
    StoresRaw smallDisk newHuffmanFile 0 1 headerLike 16 ∧
      wp (writei smallDisk 0 headerLike 0 16) newHuffmanFile (fun ret t => ret = 16 ∧
        ¬ OutOfBlocks t ∧ wp (readi smallDisk 0 (fun _ => true) 0 16) t (fun ret _ => ret = -1)
          fun _ _ => False) fun _ _ => False := by
  exact ⟨newHuffmanFile_storesRaw (fun _ => rfl) (by decide) (by decide), by decide +kernel⟩

/-! ### Overwriting a prefix -/

/-- The call `writei(ip, .., 0, n)` on a regular file that holds `bytes` as they
are, more than `n` of them, with two pages free. -/
structure Overwrites (sb : Superblock) (s : FsState c) (ip i : Nat) (src : Source) (n : UInt32)
    (bytes : List UInt8) : Prop where
  inv : FsInv sb s
  loaded : Loaded s.itable ip i
  plain : Plain s ip bytes
  raw : (header s.disk (s.itable ip).toDinode).compressed ≠ 1
  readable : ∀ x < n.toNat, src.valid x = true
  nonempty : 0 < n.toNat
  short : n.toNat ≤ 3072
  shorter : n.toNat < bytes.length
  pages : ∃ a b rest, s.kmem.freelist = a :: b :: rest ∧ a ≠ 0 ∧ b ≠ 0 ∧ a ≠ b

section Prefix

variable {sb : Superblock} {s : FsState c} {ip i : Nat} {src : Source} {n : UInt32}
  {bytes : List UInt8}

theorem Overwrites.whole (overwrites : Overwrites sb s ip i src n bytes) {p : Nat}
    (below : p < bytes.length) : s.blockOf sb i p ≠ 0 := by
  have held := overwrites.inv.held overwrites.loaded
  rw [FsState.blockOf, held.refs_eq overwrites.inv.consistent]
  exact (overwrites.plain.mapped p below).2

theorem Overwrites.read (overwrites : Overwrites sb s ip i src n bytes) :
    (s.overwritten sb i src.byte n.toNat).read 0 bytes.length =
      src.byte.read 0 n.toNat ++ bytes.drop n.toNat := by
  have shorter := overwrites.shorter
  have held := overwrites.inv.held overwrites.loaded
  have split : bytes.length = n.toNat + (bytes.length - n.toNat) := by omega
  have old : (s.overwritten sb i src.byte n.toNat).read n.toNat (bytes.length - n.toNat) =
      (nodeByte s.disk (s.itable ip).toDinode).read n.toNat (bytes.length - n.toNat) := by
    refine Mem.read_congr fun x inside => ?_
    rw [← held.byteAt_eq overwrites.inv.consistent, FsState.overwritten, if_neg (by omega),
      FsState.oldByte, if_neg (overwrites.whole (by omega))]
  have rest := Mem.drop_read (nodeByte s.disk (s.itable ip).toDinode) 0 bytes.length n.toNat
  rw [overwrites.plain.bytes, Nat.zero_add] at rest
  nth_rewrite 1 [split]
  rw [Mem.read_append, overwritten_read, Nat.zero_add, old, rest]

theorem Overwrites.writei_plain (overwrites : Overwrites sb s ip i src n bytes) (valid : sb.Valid)
    (declines : Declines s src n) :
    wp (writei sb ip src 0 n) s (fun ret u => ret = n.toNat ∧
      Plain u ip (src.byte.read 0 n.toNat ++ bytes.drop n.toNat) ∧
      (header u.disk (u.itable ip).toDinode).compressed =
        (s.overwritten sb i src.byte n.toNat).le32 4) fun _ _ => False := by
  have short := overwrites.short
  have shorter := overwrites.shorter
  refine writei_declines overwrites.plain.isFile declines overwrites.readable short ?_
  intro t same _ _
  have inv := overwrites.inv.same same
  have held := (overwrites.inv.held overwrites.loaded).same same
  have whole : ∀ p < bytes.length, t.blockOf sb i p ≠ 0 := fun p below => by
    rw [FsState.blockOf, same.refs]
    exact overwrites.whole below
  have size : (t.itable ip).size.toNat = bytes.length := by
    rw [same.itable]
    exact overwrites.plain.size
  unfold writePlain
  rw [wp_bind]
  refine wp_mono (writeLoop_mapped valid inv.consistent held overwrites.readable fun p below =>
    whole p (by omega)) ?_ fun _ _ absurd => absurd
  rintro tot v ⟨rfl, overwrote⟩
  simp only [wp_bind, wp_pure]
  refine (wp_modifyInode_iupdate sb v ip (fun node => node.grown 0 n.toNat) _ _).mpr ?_
  refine ⟨?_, ?_⟩
  · rw [UInt32.ofNat_toNat]
    exact toInt_of_small (by omega)
  · have after :=
      overwrote.saved valid inv held (by rw [same.itable]; exact overwrites.plain.isFile)
      (fun p below => whole p (size ▸ below)) overwrites.nonempty
        (Nat.le_trans short (by decide)) rfl
    rw [size, Nat.max_eq_left (by omega), same.overwritten, overwrites.read] at after
    exact after

theorem Overwrites.writei_packed (overwrites : Overwrites sb s ip i src n bytes) (valid : sb.Valid)
    (long : CompressionHeader.bytes < n.toNat)
    (saves : 0 < (packed s src n).ret ∧ (packed s src n).ret < n.toNat) (contents : List UInt8) :
    wp (writei sb ip src 0 n) s (fun _ u => ¬ Delivers sb ip u contents) fun _ _ => True := by
  have short := overwrites.short
  have shorter := overwrites.shorter
  have page : (3072 : Nat) ≤ pgSize := by decide
  have held := overwrites.inv.held overwrites.loaded
  obtain ⟨a, b, rest, pages, aSome, bSome, different⟩ := overwrites.pages
  rw [wp_writei_file overwrites.plain.isFile (Nat.le_trans short (by decide))]
  refine writeCompressed_packs pages aSome bSome different overwrites.readable long (by omega) ?_ ?_
  · intro t packs _ _
    have inv := overwrites.inv.same packs.same
    have heldT := held.same packs.same
    have first : t.blockOf sb i 0 ≠ 0 := by
      rw [FsState.blockOf, packs.same.refs]
      exact overwrites.whole (by omega)
    by_cases fits : CompressionHeader.bytes + (packed s src n).ret.toNat ≤ bsize
    · refine wp_mono (storeImage_spec valid inv heldT
        (by rw [packs.same.itable]; exact overwrites.plain.isFile) fits) ?_
          fun _ _ absurd => absurd.elim
      rintro _ u ⟨_, _, _, _, _, _, holds⟩
      obtain ⟨isFile, _, _, mapped, head, _⟩ := holds (.inr first)
      have compressed : (header u.disk (u.itable ip).toDinode).compressed = 1 := by rw [head]
      exact not_delivers_of_compressed isFile mapped compressed
    · unfold storeImage
      rw [wp_bind]
      refine wp_mono (bmap_spec valid inv.consistent heldT (by decide)) ?_
        fun _ _ absurd => absurd.elim
      intro block u _
      simp only [bread, wp_bind, wp_get, wp_pure, wp_ite]
      rw [if_pos (by omega)]
      trivial
  · exact fun t _ declines => absurd saves declines

/-- Overwriting a prefix keeps the rest exactly if the payload is not stored
compressed and the word at offset 4 of the new contents is not 1. -/
theorem prefix_overwritten_iff (valid : sb.Valid) (overwrites : Overwrites sb s ip i src n bytes) :
    wp (writei sb ip src 0 n) s (fun ret t => ret = n.toNat ∧
        (stati (t.itable ip)).size.toNat = bytes.length ∧
        Delivers sb ip t (src.byte.read 0 n.toNat ++ bytes.drop n.toNat)) (fun _ _ => False) ↔
      (n.toNat ≤ CompressionHeader.bytes ∨
        ¬ (0 < (packed s src n).ret ∧ (packed s src n).ret < n.toNat)) ∧
      (s.overwritten sb i src.byte n.toNat).le32 4 ≠ 1 := by
  have shorter := overwrites.shorter
  have nonempty : src.byte.read 0 n.toNat ++ bytes.drop n.toNat ≠ [] := by
    rw [← List.length_pos_iff, List.length_append, Mem.length_read]
    exact Nat.add_pos_left overwrites.nonempty _
  have length : (src.byte.read 0 n.toNat ++ bytes.drop n.toNat).length = bytes.length := by
    rw [List.length_append, Mem.length_read, List.length_drop]
    omega
  by_cases raw : n.toNat ≤ CompressionHeader.bytes ∨
      ¬ (0 < (packed s src n).ret ∧ (packed s src n).ret < n.toNat)
  · have declines : Declines s src n := by
      obtain ⟨a, b, rest, pages, aSome, bSome, different⟩ := overwrites.pages
      rcases raw with tooShort | useless
      · exact .inl ⟨tooShort, a, b :: rest, pages, aSome⟩
      · exact .inr ⟨useless, a, b, rest, pages, aSome, bSome, different⟩
    have written := overwrites.writei_plain valid declines
    constructor
    · intro holds
      obtain ⟨ret, t, ran, _, _, delivers⟩ := exists_ok_of_wp holds
      obtain ⟨_, plain, word⟩ := (wp_ok ran).mp written
      rw [plain.delivers_iff nonempty, word] at delivers
      exact ⟨raw, delivers⟩
    · rintro ⟨_, notOne⟩
      refine wp_mono written ?_ fun _ _ absurd => absurd
      rintro ret t ⟨returned, plain, word⟩
      rw [plain.delivers_iff nonempty, word]
      exact ⟨returned, plain.size.trans length, notOne⟩
  · refine ⟨fun holds => ?_, fun both => absurd both.1 raw⟩
    rw [not_or, not_not, Nat.not_le] at raw
    obtain ⟨ret, t, ran, _, _, delivers⟩ := exists_ok_of_wp holds
    exact absurd delivers ((wp_ok ran).mp (overwrites.writei_packed valid raw.1 raw.2 _))

end Prefix

/-- Nine zeros but for a two at offset 4. -/
def nineBytes : Source := ⟨fun x => if x = 4 then 2 else 0, fun _ => true⟩

theorem nineBytes_overwrites {src : Source} {n : UInt32} (readable : ∀ x, src.valid x = true)
    (present : 0 < n.toNat) (shorter : n.toNat < 9) :
    wp (writei smallDisk 0 nineBytes 0 9) newHuffmanFile (fun ret s => ret = 9 ∧
      Overwrites smallDisk s 0 1 src n [0, 0, 0, 0, 2, 0, 0, 0, 0]) fun _ _ => False := by
  have stores : StoresRaw smallDisk newHuffmanFile 0 1 nineBytes 9 :=
    newHuffmanFile_storesRaw (fun _ => rfl) (by decide) (by decide)
  have found : wp (writei smallDisk 0 nineBytes 0 9) newHuffmanFile (fun _ t => ¬ OutOfBlocks t)
      fun _ _ => False := by decide +kernel
  have word : (newHuffmanFile.overwritten smallDisk 1 nineBytes.byte 9).le32 4 ≠ 1 := by
    decide +kernel
  refine wp_mono (wp_and (stores.writei smallDisk_valid) found) ?_ fun _ _ absurd => absurd
  rintro ret s ⟨⟨returned, inv, held, freelist, _, after⟩, enough⟩
  obtain ⟨plain, isWord⟩ := after enough
  refine ⟨returned, inv, held.loaded, plain, ?_, fun x _ => readable x, present, by omega, shorter,
    1, 2, [], freelist, by decide, by decide, by decide⟩
  rw [isWord]
  exact word

/-- Three bytes of the nine. -/
theorem prefix_overwritten_iff_letters :
    wp (writei smallDisk 0 nineBytes 0 9) newHuffmanFile (fun ret s => ret = 9 ∧
      wp (writei smallDisk 0 threeBytes 0 3) s (fun ret t => ret = 3 ∧
        (stati (t.itable 0)).size.toNat = 9 ∧
        Delivers smallDisk 0 t [97, 97, 97, 0, 2, 0, 0, 0, 0]) fun _ _ => False)
      fun _ _ => False := by
  have setup := @nineBytes_overwrites threeBytes 3 (fun _ => rfl) (by decide) (by decide)
  have word : wp (writei smallDisk 0 nineBytes 0 9) newHuffmanFile
      (fun _ s => (s.overwritten smallDisk 1 threeBytes.byte 3).le32 4 ≠ 1) fun _ _ => False := by
    decide +kernel
  refine wp_mono (wp_and setup word) ?_ fun _ _ absurd => absurd
  rintro ret s ⟨⟨returned, overwrites⟩, notOne⟩
  exact ⟨returned,
    (prefix_overwritten_iff smallDisk_valid overwrites).mpr ⟨.inl (by decide), notOne⟩⟩

/-- Five bytes of the nine that make them look compressed. -/
theorem prefix_not_kept :
    wp (writei smallDisk 0 nineBytes 0 9) newHuffmanFile (fun ret s => ret = 9 ∧
      Overwrites smallDisk s 0 1 headerLike 5 [0, 0, 0, 0, 2, 0, 0, 0, 0] ∧
      wp (writei smallDisk 0 headerLike 0 5) s (fun ret t => ret = 5 ∧
        ¬ Delivers smallDisk 0 t [0, 0, 0, 0, 1, 0, 0, 0, 0]) fun _ _ => False)
      fun _ _ => False := by
  have setup := @nineBytes_overwrites headerLike 5 (fun _ => rfl) (by decide) (by decide)
  have second : wp (writei smallDisk 0 nineBytes 0 9) newHuffmanFile (fun _ s =>
      wp (writei smallDisk 0 headerLike 0 5) s (fun ret t => ret = 5 ∧ (t.itable 0).type = tFile ∧
        Mapped t.disk (t.itable 0).toDinode 0 ∧
        (header t.disk (t.itable 0).toDinode).compressed = 1) fun _ _ => False)
      fun _ _ => False := by decide +kernel
  refine wp_mono (wp_and setup second) ?_ fun _ _ absurd => absurd
  rintro ret s ⟨⟨returned, overwrites⟩, writes⟩
  refine ⟨returned, overwrites, wp_mono writes ?_ fun _ _ absurd => absurd⟩
  rintro ret' t ⟨returned', isFile, mapped, compressed⟩
  exact ⟨returned', not_delivers_of_compressed isFile mapped compressed⟩

end Xv6.Kernel.Fs
