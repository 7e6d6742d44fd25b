import Xv6.Kernel.Fs.Write

/-!
`writei` as a whole.

Owns: the plain part with its update of the size, the parts that touch pages and
the codec only, the store of a compressed image, and that `writei` keeps the
invariant of the file system on every way out.

Does not own: what a compressed file means.
-/

namespace Xv6.Kernel.Fs

open Xv6.Lib

variable {c : Codec}

/-! ### Pages and codec are apart from the file system -/

/-- Disk, inode table and record of calls are the same. -/
structure SameFs (s t : FsState c) : Prop where
  disk : t.disk = s.disk
  itable : t.itable = s.itable
  trace : t.trace = s.trace

section SameFs

variable {sb : Superblock} {s t u : FsState c} {ip i : Nat}

theorem SameFs.refl (s : FsState c) : SameFs s s := ⟨rfl, rfl, rfl⟩

theorem SameFs.trans (first : SameFs s t) (second : SameFs t u) : SameFs s u :=
  ⟨second.disk.trans first.disk, second.itable.trans first.itable, second.trace.trans first.trace⟩

theorem SameFs.refs (same : SameFs s t) : t.refs sb = s.refs sb := by
  funext slot
  rw [FsState.refs, FsState.refs, same.disk, same.itable]

theorem Consistent.same (consistent : Consistent sb s) (same : SameFs s t) : Consistent sb t := by
  refine ⟨?_, same.itable ▸ consistent.one, ?_, same.trace ▸ consistent.allocs⟩
  · rw [same.refs, same.disk]
    exact consistent.exact
  · rw [same.itable]
    exact consistent.range

theorem Held.same (held : Held s ip i) (same : SameFs s t) : Held t ip i := by
  refine ⟨?_, ?_⟩ <;> rw [same.itable]
  · exact held.loaded
  · exact held.live

theorem FsInv.same (inv : FsInv sb s) (same : SameFs s t) : FsInv sb t := by
  refine ⟨inv.consistent.same same, ?_, ?_⟩ <;> rw [same.itable]
  · exact inv.live
  · rw [same.disk]
    exact inv.synced

theorem kalloc_same (s : FsState c) : wp kalloc s (fun _ t => SameFs s t) fun _ _ => False := by
  unfold kalloc
  rw [wp_bind, wp_get]
  cases s.kmem.freelist with
  | nil => exact SameFs.refl s
  | cons r rest => exact ⟨rfl, rfl, rfl⟩

theorem kfree_same (s : FsState c) (pa : Nat) :
    wp (kfree pa) s (fun _ t => SameFs s t) fun reason t =>
      SameFs s t ∧ reason = .panic .kfree := by
  unfold kfree
  rw [wp_ite]
  split_ifs
  · exact ⟨SameFs.refl s, rfl⟩
  · exact ⟨rfl, rfl, rfl⟩

theorem storePage_same (s : FsState c) (page offset : Nat) (bytes : List UInt8) :
    wp (storePage page offset bytes) s (fun _ t => SameFs s t) fun reason t =>
      SameFs s t ∧ reason = .fault := by
  unfold storePage
  rw [wp_ite]
  split_ifs
  · exact ⟨SameFs.refl s, rfl⟩
  · exact ⟨rfl, rfl, rfl⟩

theorem compressPage_same (s : FsState c) (tempBuf : Nat) (n : UInt32) (compBuf : Nat) :
    wp (compressPage tempBuf n compBuf) s (fun _ t => SameFs s t) fun _ _ => False := by
  unfold compressPage
  simp only [wp_bind, wp_get, wp_set, wp_pure]
  exact ⟨rfl, rfl, rfl⟩

end SameFs

/-! ### The plain part -/

/-- The test `off + n < off` of `readi` and `writei` is for wrapping. -/
theorem toNat_add_of_not_lt {off n : UInt32} (noWrap : ¬ off + n < off) :
    (off + n).toNat = off.toNat + n.toNat := by
  rw [UInt32.lt_iff_toNat_lt, UInt32.toNat_add] at noWrap
  rw [UInt32.toNat_add]
  have := off.toNat_lt
  have := n.toNat_lt
  omega

theorem toInt_toInt32 (k : UInt32) :
    k.toInt32.toInt = if k.toNat < 2 ^ 31 then (k.toNat : Int) else k.toNat - 2 ^ 32 := by
  have bound := k.toNat_lt
  change k.toBitVec.toInt = _
  rw [BitVec.toInt_eq_toNat_cond]
  change (if 2 * k.toNat < 2 ^ 32 then (k.toNat : Int) else k.toNat - (2 ^ 32 : Nat)) = _
  split_ifs <;> omega

/-- A count below 2^31 is returned as it is. -/
theorem toInt_of_small {n : UInt32} (small : n.toNat < 2 ^ 31) : n.toInt32.toInt = n.toNat := by
  rw [toInt_toInt32, if_pos small]

/-- The inode after the plain part has written `tot` bytes at `off`. -/
def Inode.grown (node : Inode) (off : UInt32) (tot : Nat) : Inode :=
  if node.size < off + UInt32.ofNat tot then { node with size := off + UInt32.ofNat tot } else node

section Grown

variable (node : Inode) (off : UInt32) (tot : Nat)

@[simp] theorem Inode.grown_inum : (node.grown off tot).inum = node.inum := by
  unfold Inode.grown
  split_ifs <;> rfl

@[simp] theorem Inode.grown_ref : (node.grown off tot).ref = node.ref := by
  unfold Inode.grown
  split_ifs <;> rfl

@[simp] theorem Inode.grown_valid : (node.grown off tot).valid = node.valid := by
  unfold Inode.grown
  split_ifs <;> rfl

@[simp] theorem Inode.grown_type : (node.grown off tot).type = node.type := by
  unfold Inode.grown
  split_ifs <;> rfl

@[simp] theorem Inode.grown_addrs : (node.grown off tot).addrs = node.addrs := by
  unfold Inode.grown
  split_ifs <;> rfl

/-- Within the largest file the 32-bit sums do not wrap. -/
theorem Inode.grown_size {off : UInt32} {tot : Nat} (inside : off.toNat + tot ≤ maxFile * bsize) :
    (node.grown off tot).size.toNat = max node.size.toNat (off.toNat + tot) := by
  have limit : maxFile * bsize < 2 ^ 32 := by decide
  have count : (UInt32.ofNat tot).toNat = tot := UInt32.toNat_ofNat_of_lt' (by
    change tot < 2 ^ 32
    omega)
  have sum : (off + UInt32.ofNat tot).toNat = off.toNat + tot := by
    rw [UInt32.toNat_add, count]
    exact Nat.mod_eq_of_lt (by omega)
  unfold Inode.grown
  split_ifs with larger
  · rw [UInt32.lt_iff_toNat_lt, sum] at larger
    rw [sum]
    omega
  · rw [UInt32.lt_iff_toNat_lt, sum] at larger
    omega

end Grown

section Plain

variable {sb : Superblock} {s : FsState c} {ip i : Nat}

/-- What the plain part leaves: the loop's state with the inode saved. -/
def PlainWrite (sb : Superblock) (ip i : Nat) (src : Source) (off n : UInt32) (s : FsState c)
    (ret : Int) (u : FsState c) : Prop :=
  ∃ tot t, u = t.save sb ip ((t.itable ip).grown off tot) ∧
    ret = (UInt32.ofNat tot).toInt32.toInt ∧
    ((tot = n.toNat ∧ Writes sb ip i off.toNat src.byte s n.toNat t) ∨
      (tot < n.toNat ∧ Stays sb ip i s t ∧ ¬ ∀ x < n.toNat, src.valid x))

theorem writePlain_spec (valid : sb.Valid) (consistent : Consistent sb s) (held : Held s ip i)
    (src : Source) {off n : UInt32} (inside : off.toNat + n.toNat ≤ maxFile * bsize) :
    wp (writePlain sb ip src off n) s (PlainWrite sb ip i src off n s) fun _ _ => False := by
  unfold writePlain
  rw [wp_bind]
  refine wp_mono (writeLoop_spec valid consistent held src inside) ?_ fun _ _ absurd => absurd
  intro tot t ended
  simp only [wp_bind, wp_pure]
  exact (wp_modifyInode_iupdate sb t ip (fun node => node.grown off tot) _ _).mpr
    ⟨tot, t, rfl, rfl, ended⟩

theorem PlainWrite.inv (valid : sb.Valid) (inv : FsInv sb s) (held : Held s ip i) {src : Source}
    {off n : UInt32} {ret : Int} {u : FsState c}
    (plain : PlainWrite sb ip i src off n s ret u) : FsInv sb u := by
  obtain ⟨tot, t, rfl, _, ended⟩ := plain
  have stays : Stays sb ip i s t := by
    rcases ended with ⟨_, writes⟩ | ⟨_, stays, _⟩
    · exact writes.toStays
    · exact stays
  exact stays.save_inv valid inv held (by simp) (by simp) (by simp) (by simp) (by simp)

end Plain

/-! ### The compressing part -/

section Compressed

variable {sb : Superblock} {s : FsState c} {ip i : Nat}

/-- A stop that is no panic of the allocator leaves a consistent state. -/
def SafeStop (sb : Superblock) (reason : Stop) (t : FsState c) : Prop :=
  Consistent sb t ∧ reason ≠ .panic .freeingFreeBlock

theorem storeImage_inv (valid : sb.Valid) (inv : FsInv sb s) (held : Held s ip i) (n : UInt32)
    (compBuf compSize : Nat) :
    wp (storeImage sb ip n compBuf compSize) s (fun _ t => FsInv sb t) (SafeStop sb) := by
  unfold storeImage
  rw [wp_bind]
  refine wp_mono (bmap_spec valid inv.consistent held (by decide)) ?_ fun _ _ absurd => absurd.elim
  intro b t provided
  have consistent := provided.grows.consistent
  simp only [bread, wp_bind, wp_get, wp_pure, wp_ite]
  split_ifs with large
  · exact ⟨consistent, by simp⟩
  · have good : ∀ event ∈ [Event.logWrite b.toNat], GoodEvent sb event := by simp [GoodEvent]
    have stays := (provided.grows.stays valid inv.consistent).trans
      (setBlock_stays valid consistent (isData_of_dataSlot provided.result)
        ((CompressionHeader.put (t.disk b.toNat)
          ⟨compressionMagic, 1, n, UInt32.ofNat compSize⟩).copy CompressionHeader.bytes
            ((t.kmem.page compBuf).mem.read 0 compSize)) good)
    simp only [logWrite, setBuffer, note, wp_modify, wp_bind]
    exact (wp_modifyInode_iupdate sb _ ip (fun node => { node with
      size := UInt32.ofNat (compSize + CompressionHeader.bytes) }) _ _).mpr
      (stays.save_inv valid inv held rfl rfl rfl rfl rfl)

/-- The compressing part of `writei` only touches pages, but for the store of the
image. -/
theorem wp_writeCompressed {src : Source} {n : UInt32} {post : Option Int → FsState c → Prop}
    {stop : Stop → FsState c → Prop}
    (declined : ∀ ret t, SameFs s t → ret = none ∨ ret = some (-1) → post ret t)
    (stopped : ∀ reason t, SameFs s t → reason = .fault ∨ reason = .panic .kfree → stop reason t)
    (stored : ∀ t compBuf compSize, SameFs s t → wp (storeImage sb ip n compBuf compSize) t
      (fun _ u => ∀ v, SameFs u v → post (some n.toInt32.toInt) v ∧ stop (.panic .kfree) v) stop) :
    wp (writeCompressed sb ip src n) s post stop := by
  have kfreeSame : ∀ {t : FsState c} (pa : Nat), SameFs s t →
      wp (kfree pa) t (fun _ u => SameFs s u) stop := by
    intro t pa before
    refine wp_mono (kfree_same t pa) (fun _ _ after => before.trans after) ?_
    rintro reason u ⟨after, isKfree⟩
    exact stopped reason u (before.trans after) (.inr isKfree)
  unfold writeCompressed
  rw [wp_bind]
  refine wp_mono (kalloc_same s) ?_ fun _ _ absurd => absurd.elim
  intro tempBuf t sameT
  rw [wp_ite]
  by_cases noPage : tempBuf = 0
  · rw [if_pos noPage]
    exact declined _ t sameT (.inr rfl)
  rw [if_neg noPage, wp_bind]
  refine wp_mono (storePage_same t _ _ _) ?_ fun reason u after =>
    stopped reason u (sameT.trans after.1) (.inl after.2)
  intro _ u after
  have sameU := sameT.trans after
  rw [wp_ite, wp_ite]
  split_ifs
  · rw [wp_bind]
    refine wp_mono (kfreeSame tempBuf sameU) ?_ fun _ _ stop => stop
    exact fun _ v sameV => declined _ v sameV (.inr rfl)
  · rw [wp_bind]
    refine wp_mono (kfreeSame tempBuf sameU) ?_ fun _ _ stop => stop
    exact fun _ v sameV => declined _ v sameV (.inl rfl)
  rw [wp_bind]
  refine wp_mono (kalloc_same u) ?_ fun _ _ absurd => absurd.elim
  intro compBuf v sameV
  rw [wp_ite]
  split_ifs
  · rw [wp_bind]
    refine wp_mono (kfreeSame tempBuf (sameU.trans sameV)) ?_ fun _ _ stop => stop
    exact fun _ w sameW => declined _ w sameW (.inl rfl)
  rw [wp_bind]
  refine wp_mono (compressPage_same v tempBuf n compBuf) ?_ fun _ _ absurd => absurd.elim
  intro compSize w sameW
  have sameW := sameU.trans (sameV.trans sameW)
  rw [wp_ite]
  split_ifs
  · rw [wp_bind]
    refine wp_mono (stored w compBuf _ sameW) ?_ fun _ _ stop => stop
    intro _ x after
    rw [wp_bind]
    refine wp_mono (kfree_same x tempBuf) ?_ fun reason y kfreed => kfreed.2 ▸ (after y kfreed.1).2
    intro _ y sameY
    rw [wp_bind]
    refine wp_mono (kfree_same y compBuf) ?_ fun reason z kfreed =>
      kfreed.2 ▸ (after z (sameY.trans kfreed.1)).2
    exact fun _ z sameZ => (after z (sameY.trans sameZ)).1
  · rw [wp_bind]
    refine wp_mono (kfreeSame compBuf sameW) ?_ fun _ _ stop => stop
    intro _ x sameX
    rw [wp_bind]
    refine wp_mono (kfreeSame tempBuf sameX) ?_ fun _ _ stop => stop
    exact fun _ y sameY => declined _ y sameY (.inl rfl)

theorem writeCompressed_inv (valid : sb.Valid) (inv : FsInv sb s) (held : Held s ip i)
    (src : Source) (n : UInt32) :
    wp (writeCompressed sb ip src n) s
      (fun ret t => FsInv sb t ∧ (ret = none → SameFs s t)) (SafeStop sb) := by
  refine wp_writeCompressed ?_ ?_ ?_
  · exact fun _ t same _ => ⟨inv.same same, fun _ => same⟩
  · intro reason t same cause
    refine ⟨inv.consistent.same same, ?_⟩
    rcases cause with rfl | rfl
    · simp
    · simp
  · intro t compBuf compSize same
    refine wp_mono (storeImage_inv valid (inv.same same) (held.same same) n compBuf compSize) ?_
      fun _ _ stop => stop
    intro _ u invU v sameV
    exact ⟨⟨invU.same sameV, fun absent => absurd absent (Option.some_ne_none _)⟩,
      invU.consistent.same sameV, by simp⟩

/-- `writei` keeps the invariant of the file system, whatever it returns and
wherever it stops. -/
theorem writei_inv (valid : sb.Valid) (inv : FsInv sb s) (held : Held s ip i) (src : Source)
    (off n : UInt32) :
    wp (writei sb ip src off n) s (fun _ t => FsInv sb t) (SafeStop sb) := by
  unfold writei
  rw [wp_bind, wp_get, wp_ite, wp_ite]
  by_cases outside : (s.itable ip).size < off ∨ off + n < off
  · rw [if_pos outside]
    exact inv
  rw [if_neg outside]
  by_cases tooLarge : maxFile * bsize < (off + n).toNat
  · rw [if_pos tooLarge]
    exact inv
  rw [if_neg tooLarge]
  rw [not_or] at outside
  have limit : off.toNat + n.toNat ≤ maxFile * bsize := by
    rw [toNat_add_of_not_lt outside.2] at tooLarge
    omega
  have plain : ∀ t : FsState c, SameFs s t →
      wp (writePlain sb ip src off n) t (fun _ u => FsInv sb u) (SafeStop sb) := by
    intro t same
    have invT := inv.same same
    refine wp_mono (writePlain_spec valid invT.consistent (held.same same) src limit) ?_
      fun _ _ absurd => absurd.elim
    exact fun _ _ after => after.inv valid invT (held.same same)
  rw [wp_ite]
  split_ifs
  · rw [wp_bind]
    refine wp_mono (writeCompressed_inv valid inv held src n) ?_ fun _ _ stop => stop
    rintro (_ | ret) t ⟨invT, same⟩
    · exact plain t (same rfl)
    · exact invT
  · exact plain s (SameFs.refl s)

end Compressed

end Xv6.Kernel.Fs
