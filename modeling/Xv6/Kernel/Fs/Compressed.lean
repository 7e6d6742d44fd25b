import Xv6.Kernel.Fs.Read

/-!
The compressed branch of `readi`.

Owns: the page allocator's part in it, the loop that collects the image, one
decompression into the cache, the copy out of the cache, and the branch of
`readi` that leads there.

Does not own: how an image came to be, and whether the cache is up to date.
-/

namespace Xv6.Kernel.Fs

open Xv6.Lib Function

variable {c : Codec}

/-! ### Pages -/

/-- Free pages are different and none is null, the cached page is not among them,
and two pages can be had once the cached one is given back. -/
structure PagesOk (s : FsState c) : Prop where
  nodup : s.kmem.freelist.Nodup
  noNull : 0 ∉ s.kmem.freelist
  owned : s.cache.buf ∉ s.kmem.freelist
  enough : 2 ≤ s.kmem.freelist.length + if s.cache.buf = 0 then 0 else 1

section Pages

variable {s : FsState c} {post : PUnit → FsState c → Prop} {stop : Stop → FsState c → Prop}

theorem wp_kalloc_cons {r : Nat} {rest : List Nat} {post : Nat → FsState c → Prop}
    (pages : s.kmem.freelist = r :: rest) :
    wp kalloc s post stop ↔ post r { s with
      kmem := ⟨rest, update s.kmem.page r (Buffer.fill 5)⟩ } := by
  unfold kalloc
  rw [wp_bind, wp_get, pages]
  rfl

theorem wp_kfree {pa : Nat} (notNull : pa ≠ 0) :
    wp (kfree pa) s post stop ↔ post ⟨⟩ { s with
      kmem := ⟨pa :: s.kmem.freelist, update s.kmem.page pa (Buffer.fill 1)⟩ } := by
  unfold kfree
  rw [wp_ite, if_neg notNull, wp_modify]

theorem wp_storePage {page offset : Nat} {bytes : List UInt8}
    (fits : offset + bytes.length ≤ pgSize) :
    wp (storePage page offset bytes) s post stop ↔ post ⟨⟩ { s with
      kmem := { s.kmem with
        page := update s.kmem.page page ((s.kmem.page page).copy offset bytes) } } := by
  unfold storePage
  rw [wp_ite, if_neg (Nat.not_lt.mpr fits), wp_modify]

/-- Two free pages and no cached one. -/
theorem pagesOk_of_free (nodup : s.kmem.freelist.Nodup) (noNull : 0 ∉ s.kmem.freelist)
    (two : 2 ≤ s.kmem.freelist.length) (noCache : s.cache.buf = 0) : PagesOk s :=
  ⟨nodup, noNull, noCache ▸ noNull, by rw [if_pos noCache]; exact two⟩

/-- The state once the cached page is given back. -/
def FsState.dropped (s : FsState c) : FsState c :=
  if s.cache.buf = 0 then s
  else { s with
    kmem := ⟨s.cache.buf :: s.kmem.freelist,
      update s.kmem.page s.cache.buf (Buffer.fill 1)⟩
    cache := { s.cache with buf := 0 } }

theorem wp_dropCache : wp dropCache s post stop ↔ post ⟨⟩ s.dropped := by
  unfold dropCache FsState.dropped
  rw [wp_bind, wp_get, wp_ite]
  by_cases absent : s.cache.buf = 0
  · rw [if_pos absent, if_pos absent, wp_pure]
  · rw [if_neg absent, if_neg absent, wp_bind, wp_kfree absent]
    rfl

theorem dropped_same (s : FsState c) : SameFs s s.dropped := by
  unfold FsState.dropped
  split_ifs
  · exact SameFs.refl s
  · exact ⟨rfl, rfl, rfl⟩

theorem dropped_codec (s : FsState c) : s.dropped.codec = s.codec := by
  unfold FsState.dropped
  split_ifs <;> rfl

theorem dropped_user (s : FsState c) : s.dropped.user = s.user := by
  unfold FsState.dropped
  split_ifs <;> rfl

/-- Two different pages are free then. -/
theorem PagesOk.two (pages : PagesOk s) : ∃ a b rest, s.dropped.kmem.freelist = a :: b :: rest ∧
    a ≠ 0 ∧ b ≠ 0 ∧ (a :: b :: rest).Nodup ∧ 0 ∉ rest := by
  have facts : s.dropped.kmem.freelist.Nodup ∧ 0 ∉ s.dropped.kmem.freelist ∧
      2 ≤ s.dropped.kmem.freelist.length := by
    have enough := pages.enough
    unfold FsState.dropped
    split_ifs with absent
    · rw [if_pos absent] at enough
      exact ⟨pages.nodup, pages.noNull, enough⟩
    · rw [if_neg absent] at enough
      refine ⟨List.nodup_cons.mpr ⟨pages.owned, pages.nodup⟩, ?_, enough⟩
      rw [List.mem_cons, not_or]
      exact ⟨Ne.symm absent, pages.noNull⟩
  obtain ⟨nodup, noNull, two⟩ := facts
  match shape : s.dropped.kmem.freelist with
  | [] => simp [shape] at two
  | [_] => simp [shape] at two
  | a :: b :: rest =>
    rw [shape] at nodup noNull
    simp only [List.mem_cons, not_or] at noNull
    exact ⟨a, b, rest, rfl, Ne.symm noNull.1, Ne.symm noNull.2.1, nodup, noNull.2.2⟩

end Pages

/-! ### Decompression into the cache -/

/-- The header in block 0 of a file. -/
def header (disk : Disk) (node : Dinode) : CompressionHeader :=
  CompressionHeader.get (disk (nodeRef disk node (dataSlot 0)))

/-- The call of `decompress_huffman` for a file, with both pages fresh from
`kalloc`. -/
def decode (c : Codec) (codec : c.State) (disk : Disk) (node : Inode) (length : UInt32) :
    Option (CodecResult c.State) :=
  c.decompress codec ((Buffer.fill 5 : Page).copy 0
      ((nodeByte disk node.toDinode).read CompressionHeader.bytes node.compSize.toNat)).mem
    node.compSize.toInt32 (Buffer.fill 5 : Page).mem length.toInt32

/-- The blocks of the compressed image are there, and it fits a page. -/
structure ImageMapped (disk : Disk) (node : Inode) : Prop where
  fits : node.compSize.toNat ≤ pgSize
  mapped : ∀ p, CompressionHeader.bytes ≤ p → p < CompressionHeader.bytes + node.compSize.toNat →
    Mapped disk node.toDinode (p / bsize)

section Fill

variable {sb : Superblock} {s : FsState c} {ip : Nat}

theorem imageLoop_mapped {compBuf : Nat} (image : ImageMapped s.disk (s.itable ip))
    {post : Nat → FsState c → Prop} {stop : Stop → FsState c → Prop}
    (done : post (s.itable ip).compSize.toNat { s with
      kmem := { s.kmem with
        page := update s.kmem.page compBuf ((s.kmem.page compBuf).copy 0
          ((nodeByte s.disk (s.itable ip).toDinode).read CompressionHeader.bytes
            (s.itable ip).compSize.toNat)) } }) :
    wp (chunkLoop bsize CompressionHeader.bytes (s.itable ip).compSize.toNat bsize_pos
      (copyImagePiece sb ip compBuf) 0) s post stop := by
  refine wp_mono (wp_chunkLoop (fun tot t => t = { s with
      kmem := { s.kmem with
        page := update s.kmem.page compBuf ((s.kmem.page compBuf).copy 0
          ((nodeByte s.disk (s.itable ip).toDinode).read CompressionHeader.bytes tot)) } })
    (fun _ _ => False) ?_ (Nat.zero_le _) ?_) ?_ fun _ _ stopped => stopped
  · rintro tot m t inside positive within room _ rfl
    have fits := image.fits
    have number : (UInt32.ofNat (nodeRef s.disk (s.itable ip).toDinode
        (dataSlot ((CompressionHeader.bytes + tot) / bsize)))).toNat =
        nodeRef s.disk (s.itable ip).toDinode
          (dataSlot ((CompressionHeader.bytes + tot) / bsize)) :=
      UInt32.toNat_ofNat_of_lt' (nodeRef_lt _ _ _)
    unfold copyImagePiece
    rw [wp_bind, bmap_mapped]
    · simp only [bread, wp_bind, wp_get, wp_pure, number, read_block _ _ room]
      rw [wp_storePage (by rw [Mem.length_read]; omega)]
      simp only [update_self, update_idem, if_true]
      rw [Mem.read_append, Buffer.copy_append, Mem.length_read, Nat.zero_add]
    · exact image.mapped _ (by omega) (by omega)
  · simp [Mem.read]
  · rintro tot t (⟨rfl, rfl⟩ | ⟨_, absurd⟩)
    · exact done
    · exact absurd.elim

/-- The cache after a successful decompression: page `b` holds the output, page
`a` is free again. -/
structure Filled (s : FsState c) (ip : Nat) (length : UInt32) (result : CodecResult c.State)
    (a b : Nat) (rest : List Nat) (t : FsState c) : Prop where
  same : SameFs s t
  user : t.user = s.user
  codec : t.codec = result.state
  freelist : t.kmem.freelist = a :: rest
  page : t.kmem.page b = Buffer.ofMem result.out
  cache : t.cache = ⟨b, (s.itable ip).inum, length⟩

/-- The cache after a failed decompression: both pages are free again. -/
structure Unfilled (s : FsState c) (result : CodecResult c.State) (a b : Nat) (rest : List Nat)
    (t : FsState c) : Prop where
  same : SameFs s t
  user : t.user = s.user
  codec : t.codec = result.state
  freelist : t.kmem.freelist = b :: a :: rest
  cache : t.cache.buf = 0

/-- The part of `readi` that decompresses a file into the cache. -/
theorem fillCache_spec {a b : Nat} {rest : List Nat} {ch : CompressionHeader}
    (pages : s.dropped.kmem.freelist = a :: b :: rest) (aSome : a ≠ 0) (bSome : b ≠ 0)
    (different : a ≠ b) (image : ImageMapped s.disk (s.itable ip)) {result : CodecResult c.State}
    (decoded : decode c s.codec s.disk (s.itable ip) ch.length = some result)
    (small : result.ret ≤ pgSize) :
    wp (fillCache sb ip ch) s (fun filled t =>
        if result.ret < 0 then filled = false ∧ Unfilled s result a b rest t
        else filled = true ∧ Filled s ip ch.length result a b rest t) fun _ _ => False := by
  have same := dropped_same s
  have codec := dropped_codec s
  have user := dropped_user s
  unfold fillCache
  rw [wp_bind, wp_dropCache]
  generalize s.dropped = u at *
  rw [wp_bind, wp_kalloc_cons pages, wp_bind, wp_kalloc_cons rfl]
  simp only [modifyCache, wp_bind, wp_modify, wp_ite]
  rw [if_neg (by simp [aSome, bSome])]
  unfold decompressImage
  rw [wp_bind, wp_get, wp_bind]
  refine imageLoop_mapped ?_ ?_
  · rw [same.disk, same.itable]
    exact image
  -- both pages are as `kalloc` left them, but for the image
  have pageA : (update (update u.kmem.page a (Buffer.fill 5 : Page)) b
      (Buffer.fill 5)) a = Buffer.fill 5 := by
    rw [update_of_ne different, update_self]
  unfold decompressPage
  simp only [wp_bind, wp_get, same.disk, same.itable, codec, pageA, update_self,
    update_of_ne (Ne.symm different)]
  rw [decode] at decoded
  rw [decoded]
  dsimp only
  rw [wp_ite, if_neg (by omega)]
  simp only [wp_bind, wp_set, wp_pure]
  rw [wp_kfree aSome]
  by_cases failed : result.ret < 0
  · simp only [if_pos failed, modifyCache, wp_bind, wp_modify]
    rw [wp_kfree bSome]
    exact ⟨rfl, ⟨rfl, rfl, same.trace⟩, user, rfl, rfl, rfl⟩
  · simp only [if_neg failed, modifyCache, wp_bind, wp_modify]
    refine ⟨rfl, ⟨rfl, rfl, same.trace⟩, user, rfl, rfl, ?_, rfl⟩
    simp only [update_of_ne (Ne.symm different), update_self]

end Fill

/-! ### The branch of `readi` -/

section Readi

variable {sb : Superblock} {s : FsState c} {ip : Nat} {valid : Nat → Bool} {off n : UInt32}
  {post : Int → FsState c → Prop} {stop : Stop → FsState c → Prop}

/-- The copy out of the cache. -/
theorem wp_readCached : wp (readCached valid off n) s post stop ↔
    if s.cache.length ≤ off then post 0 s
    else if pgSize < off.toNat + (clip s.cache.length off n).toNat then stop .fault s
    else post
      (if validLength valid 0 (clip s.cache.length off n).toNat =
          (clip s.cache.length off n).toNat then (clip s.cache.length off n).toInt32.toInt else -1)
      { s with
        user := s.user.copy 0 ((s.kmem.page s.cache.buf).mem.read off.toNat
          (validLength valid 0 (clip s.cache.length off n).toNat)) } := by
  unfold readCached
  rw [wp_bind, wp_get, wp_ite]
  by_cases past : s.cache.length ≤ off
  · rw [if_pos past, if_pos past, wp_pure]
  rw [if_neg past, if_neg past, wp_ite]
  by_cases outside : pgSize < off.toNat + (clip s.cache.length off n).toNat
  · rw [if_pos outside, if_pos outside, wp_throw]
  rw [if_neg outside, if_neg outside, wp_bind]
  refine wp_copyout.trans ?_
  by_cases whole : validLength valid 0 (clip s.cache.length off n).toNat =
      (clip s.cache.length off n).toNat
  · rw [if_pos whole, if_pos (decide_eq_true whole), wp_pure]
  · rw [if_neg whole, if_neg (by simpa using whole), wp_pure]

theorem wp_readi_outside (outside : (s.itable ip).size < off ∨ off + n < off) :
    wp (readi sb ip valid off n) s post stop ↔ post 0 s := by
  unfold readi
  rw [wp_bind, wp_get, wp_ite, if_pos outside, wp_pure]

/-- A regular file whose block 0 is there. -/
theorem wp_readi_file (inside : ¬ ((s.itable ip).size < off ∨ off + n < off))
    (isFile : (s.itable ip).type = tFile) (mapped : Mapped s.disk (s.itable ip).toDinode 0) :
    wp (readi sb ip valid off n) s post stop ↔
      wp (if (header s.disk (s.itable ip).toDinode).compressed = 1 then
          readCompressed sb ip valid off (clip (s.itable ip).size off n)
            (header s.disk (s.itable ip).toDinode)
        else readPlain sb ip valid off (clip (s.itable ip).size off n)) s post stop := by
  have number : (UInt32.ofNat (nodeRef s.disk (s.itable ip).toDinode (dataSlot 0))).toNat =
      nodeRef s.disk (s.itable ip).toDinode (dataSlot 0) :=
    UInt32.toNat_ofNat_of_lt' (nodeRef_lt _ _ _)
  unfold readi
  rw [wp_bind, wp_get, wp_ite, if_neg inside, wp_ite, if_pos isFile, wp_bind, bmap_mapped mapped]
  simp only [bread, wp_bind, wp_get, wp_pure, number]
  rfl

/-- The cache holds this file. -/
def Cached (s : FsState c) (ip : Nat) : Prop :=
  s.cache.buf ≠ 0 ∧ s.cache.inum = (s.itable ip).inum

theorem wp_readCompressed_hit (cached : Cached s ip) {ch : CompressionHeader} :
    wp (readCompressed sb ip valid off n ch) s post stop ↔
      wp (readCached valid off n) s post stop := by
  unfold readCompressed
  rw [wp_bind, wp_get, wp_ite, if_neg]
  rintro (absent | other)
  · exact cached.1 absent
  · exact other cached.2

theorem wp_readCompressed_miss (missed : ¬ Cached s ip) {ch : CompressionHeader} :
    wp (readCompressed sb ip valid off n ch) s post stop ↔
      wp (fillCache sb ip ch) s
        (fun filled t => if filled then wp (readCached valid off n) t post stop
        else post (-1) t) stop := by
  unfold readCompressed
  rw [wp_bind, wp_get, wp_ite, if_pos, wp_bind]
  · simp only [wp_ite, wp_pure]
  · by_contra both
    rw [not_or, not_not] at both
    exact missed both

end Readi

end Xv6.Kernel.Fs
