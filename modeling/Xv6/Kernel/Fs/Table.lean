import Xv6.Kernel.Fs.Free

/-!
The inode table: `iget`, `ilock`, `ialloc` and `iput`.

Owns: that the references of all inodes can be read off the disk while no call is
running, and that each of these functions keeps the invariant of the file system
or stops in a consistent state.

Does not own: sequences of calls.
-/

namespace Xv6.Kernel.Fs

open Xv6.Lib Function

variable {c : Codec}

/-! ### References on disk -/

/-- Reference `slot.2` of inode `slot.1`, by the inodes on disk. -/
def diskRefs (sb : Superblock) (disk : Disk) (slot : Nat × Nat) : Nat :=
  if slot.1 < sb.ninodes ∧ (dinode sb disk slot.1).type ≠ 0 then
    nodeRef disk (dinode sb disk slot.1) slot.2
  else 0

/-- Every valid copy in memory is the one on disk. -/
def Synced (sb : Superblock) (disk : Disk) (itable : Nat → Inode) : Prop :=
  ∀ ip i, Loaded itable ip i → dinode sb disk i = (itable ip).toDinode

section DiskRefs

variable {sb : Superblock} {s t u : FsState c} {ip i : Nat}

theorem refs_eq_diskRefs {disk : Disk} {itable : Nat → Inode} (one : OneEntry itable)
    (synced : Synced sb disk itable) : Fs.refs sb disk itable = diskRefs sb disk := by
  have same : ∀ j, effective sb disk itable j = dinode sb disk j := by
    intro j
    by_cases inMemory : ∃ ip, Loaded itable ip j
    · obtain ⟨ip, loaded⟩ := inMemory
      rw [effective_of_loaded one loaded, synced ip j loaded]
    · exact effective_of_unloaded fun ip loaded => inMemory ⟨ip, loaded⟩
  funext slot
  rw [refs, same, diskRefs]

theorem FsInv.refs_eq (inv : FsInv sb s) : s.refs sb = diskRefs sb s.disk :=
  refs_eq_diskRefs inv.consistent.one inv.synced

/-- A node without block numbers holds nothing. -/
theorem nodeRef_empty {disk : Disk} {node : Dinode} (empty : node.addrs = fun _ => 0) (k : Nat) :
    nodeRef disk node k = 0 := by
  unfold nodeRef
  split_ifs with direct isEntry
  · rw [empty]
    rfl
  · rw [empty] at isEntry
    exact absurd rfl isEntry.1
  · rfl

/-- A new value of one table entry: no other entry in use has its inode number,
and if it is valid it holds the inode on disk. -/
structure GoodEntry (sb : Superblock) (s : FsState c) (ip : Nat) (node : Inode) : Prop where
  alone : 0 < node.ref → ∀ p < nInode, p ≠ ip → 0 < (s.itable p).ref →
    (s.itable p).inum ≠ node.inum
  inside : 0 < node.ref → node.inum.toNat < sb.ninodes
  copy : 0 < node.ref → node.valid = true → dinode sb s.disk node.inum.toNat = node.toDinode

section Entry

variable {node : Inode}

theorem GoodEntry.oneEntry (good : GoodEntry sb s ip node) (one : OneEntry s.itable) :
    OneEntry (update s.itable ip node) := by
  intro p pBound q qBound pHeld qHeld same
  by_cases pIs : p = ip <;> by_cases qIs : q = ip
  · rw [pIs, qIs]
  · rw [pIs, update_self] at pHeld same
    rw [update_of_ne qIs] at qHeld same
    exact absurd same.symm (good.alone pHeld q qBound qIs qHeld)
  · rw [qIs, update_self] at qHeld same
    rw [update_of_ne pIs] at pHeld same
    exact absurd same (good.alone qHeld p pBound pIs pHeld)
  · rw [update_of_ne pIs] at pHeld same
    rw [update_of_ne qIs] at qHeld same
    exact one p pBound q qBound pHeld qHeld same

theorem GoodEntry.synced (good : GoodEntry sb s ip node) (inv : FsInv sb s) :
    Synced sb s.disk (update s.itable ip node) := by
  intro p j loaded
  by_cases same : p = ip
  · rw [Loaded, same, update_self] at loaded
    obtain ⟨_, held, isValid, number⟩ := loaded
    rw [same, update_self, ← number]
    exact good.copy held isValid
  · rw [Loaded, update_of_ne same] at loaded
    rw [update_of_ne same]
    exact inv.synced p j loaded

/-- The references stay those on disk. -/
theorem GoodEntry.consistent (good : GoodEntry sb s ip node) (inv : FsInv sb s) :
    Consistent sb { s with itable := update s.itable ip node } := by
  have one := good.oneEntry inv.consistent.one
  refine ⟨?_, one, ?_, inv.consistent.allocs⟩
  · have same : Fs.refs sb s.disk (update s.itable ip node) = s.refs sb := by
      rw [inv.refs_eq, refs_eq_diskRefs one (good.synced inv)]
    change Exact _ _ _ (Fs.refs sb s.disk (update s.itable ip node))
    rw [same]
    exact inv.consistent.exact
  · intro p bound
    change 0 < (update s.itable ip node p).ref →
      (update s.itable ip node p).inum.toNat < sb.ninodes
    by_cases same : p = ip
    · rw [same, update_self]
      exact good.inside
    · rw [update_of_ne same]
      exact inv.consistent.range p bound

theorem GoodEntry.inv (good : GoodEntry sb s ip node) (inv : FsInv sb s)
    (live : 0 < node.ref → node.valid = true → node.type ≠ 0) :
    FsInv sb { s with itable := update s.itable ip node } := by
  refine ⟨good.consistent inv, ?_, good.synced inv⟩
  intro p j loaded
  change (update s.itable ip node p).type ≠ 0
  by_cases same : p = ip
  · rw [Loaded, same] at loaded
    simp only [update_self] at loaded
    rw [same, update_self]
    exact live loaded.2.1 loaded.2.2.1
  · rw [Loaded] at loaded
    simp only [update_of_ne same] at loaded
    rw [update_of_ne same]
    exact inv.live p j loaded

/-- An entry in use keeps its inode number. -/
theorem goodEntry_of_held (inv : FsInv sb s) (bound : ip < nInode) (held : 0 < (s.itable ip).ref)
    (number : node.inum = (s.itable ip).inum)
    (copy : 0 < node.ref → node.valid = true → dinode sb s.disk node.inum.toNat = node.toDinode) :
    GoodEntry sb s ip node := by
  refine ⟨fun _ p pBound other pHeld same => ?_, fun _ => ?_, copy⟩
  · exact other (inv.consistent.one p pBound ip bound pHeld held (same.trans number))
  · rw [number]
    exact inv.consistent.range ip bound held

end Entry

/-- Where data blocks and an inode stay, its references on disk do. -/
theorem FsInv.diskRefs_congr (inv : FsInv sb s) {disk : Disk} {j : Nat}
    (same : dinode sb disk j = dinode sb s.disk j)
    (blocks : ∀ b, sb.dataStart ≤ b → disk b = s.disk b) (k : Nat) :
    diskRefs sb disk (j, k) = s.refs sb (j, k) := by
  have indirect := @Consistent.data c sb s inv.consistent (j, ndirect)
  rw [inv.refs_eq] at indirect ⊢
  rw [diskRefs, diskRefs]
  dsimp only
  rw [same]
  by_cases live : j < sb.ninodes ∧ (dinode sb s.disk j).type ≠ 0
  · rw [if_pos live, if_pos live]
    refine nodeRef_disk fun present => blocks _ ?_
    rw [diskRefs, if_pos live, nodeRef_indirect] at indirect
    exact (indirect fun zero => present (UInt32.toNat_inj.mp zero)).2.1
  · rw [if_neg live, if_neg live]

theorem putDinode_data (valid : sb.Valid) (inside : i < sb.ninodes) (disk : Disk) (node : Dinode)
    {b : Nat} (isData : sb.dataStart ≤ b) : putDinode sb disk i node b = disk b := by
  refine update_of_ne (fun same => ?_) _ _
  have := valid.iblock_meta i inside
  omega

/-- A store of an inode without blocks in place of one without blocks, which is
in no valid entry afterwards. -/
theorem FsInv.replace (inv : FsInv sb s) (valid : sb.Valid) (inside : i < sb.ninodes)
    (absent : ∀ k, s.refs sb (i, k) = 0) (node : Dinode) (empty : node.addrs = fun _ => 0)
    (disk : t.disk = putDinode sb s.disk i node)
    (allocs : ∀ event ∈ t.trace, GoodEvent sb event) (one : OneEntry t.itable)
    (range : ∀ ip < nInode, 0 < (t.itable ip).ref → (t.itable ip).inum.toNat < sb.ninodes)
    (others : ∀ ip j, Loaded t.itable ip j →
      j ≠ i ∧ Loaded s.itable ip j ∧ t.itable ip = s.itable ip) : FsInv sb t := by
  have synced : Synced sb t.disk t.itable := by
    intro ip j loaded
    obtain ⟨other, wasLoaded, same⟩ := others ip j loaded
    rw [disk, dinode_putDinode_other _ _ other, same]
    exact inv.synced ip j wasLoaded
  have sameRefs : t.refs sb = s.refs sb := by
    change Fs.refs sb t.disk t.itable = _
    rw [refs_eq_diskRefs one synced]
    funext slot
    obtain ⟨j, k⟩ := slot
    by_cases same : j = i
    · rw [same, absent, diskRefs, disk, dinode_putDinode, nodeRef_empty empty, ite_self]
    · rw [disk]
      exact inv.diskRefs_congr (dinode_putDinode_other _ _ same _)
        (fun _ isData => putDinode_data valid inside _ _ isData) k
  refine ⟨⟨?_, one, range, allocs⟩, ?_, synced⟩
  · rw [sameRefs, disk]
    refine inv.consistent.exact.congr fun b bound => marked_congr ?_
    exact update_of_ne (valid.iblock_ne_bblock i inside b bound).symm _ _
  · intro ip j loaded
    obtain ⟨_, wasLoaded, same⟩ := others ip j loaded
    rw [same]
    exact inv.live ip j wasLoaded

end DiskRefs

/-! ### `iget` -/

section Iget

variable {sb : Superblock} {s : FsState c} {inum : UInt32} {ip : Nat}

/-- The entry `iget` takes is in use for this inode, or it is unused and no entry
is in use for the inode. -/
theorem igetSlot_spec {itable : Nat → Inode} (found : igetSlot itable inum = some ip) :
    ip < nInode ∧ ((0 < (itable ip).ref ∧ (itable ip).inum = inum) ∨
      ((itable ip).ref = 0 ∧ ∀ p < nInode, 0 < (itable p).ref → (itable p).inum ≠ inum)) := by
  unfold igetSlot at found
  cases search : (List.range nInode).find? fun p => 0 < (itable p).ref ∧ (itable p).inum = inum with
  | some first =>
    rw [search, Option.some_or, Option.some_inj] at found
    subst found
    have inUse := List.find?_some search
    rw [decide_eq_true_iff] at inUse
    exact ⟨List.mem_range.mp (List.mem_of_find?_eq_some search), .inl inUse⟩
  | none =>
    rw [search, Option.none_or] at found
    have unused := List.find?_some found
    rw [decide_eq_true_iff] at unused
    refine ⟨List.mem_range.mp (List.mem_of_find?_eq_some found), .inr ⟨unused, ?_⟩⟩
    intro p bound held same
    have absent := List.find?_eq_none.mp search p (List.mem_range.mpr bound)
    rw [decide_eq_true_iff] at absent
    exact absent ⟨held, same⟩

/-- One more reference to an entry in use, or a new entry that is not valid yet. -/
theorem iget_inv (inv : FsInv sb s) (inside : inum.toNat < sb.ninodes) :
    wp (iget inum) s (fun _ t => FsInv sb t) (SafeStop sb) := by
  unfold iget
  rw [wp_bind, wp_get]
  cases search : igetSlot s.itable inum with
  | none => exact ⟨inv.consistent, by simp⟩
  | some ip =>
    obtain ⟨bound, slot⟩ := igetSlot_spec search
    rcases slot with ⟨held, number⟩ | ⟨unused, absent⟩
    · simp only [if_pos held, modifyInode, wp_bind, wp_modify, wp_pure]
      have loaded : (s.itable ip).valid = true → Loaded s.itable ip (s.itable ip).inum.toNat :=
        fun isValid => ⟨bound, held, isValid, rfl⟩
      have good : GoodEntry sb s ip { s.itable ip with ref := (s.itable ip).ref + 1 } :=
        goodEntry_of_held inv bound held rfl fun _ isValid => inv.synced _ _ (loaded isValid)
      exact good.inv inv fun _ isValid => inv.live _ _ (loaded isValid)
    · have notHeld : ¬ 0 < (s.itable ip).ref := by omega
      simp only [if_neg notHeld, modifyInode, wp_bind, wp_modify, wp_pure]
      refine GoodEntry.inv ⟨fun _ p pBound _ => absent p pBound, fun _ => inside, ?_⟩ inv ?_
      · exact fun _ isValid => Bool.noConfusion isValid
      · exact fun _ isValid => Bool.noConfusion isValid

end Iget

/-! ### `ilock` -/

section Ilock

variable {sb : Superblock} {s : FsState c} {ip : Nat}

/-- `ilock` of an entry that is not valid yet. -/
theorem ilock_load {post : PUnit → FsState c → Prop} {stop : Stop → FsState c → Prop}
    (held : 0 < (s.itable ip).ref) (notValid : (s.itable ip).valid = false) :
    wp (ilock sb ip) s post stop ↔
      if (dinode sb s.disk (s.itable ip).inum.toNat).type = 0 then
        stop (.panic .ilockNoType) { s with itable := update s.itable ip { s.itable ip with
          toDinode := dinode sb s.disk (s.itable ip).inum.toNat, valid := true } }
      else
        post ⟨⟩ { s with itable := update s.itable ip { s.itable ip with
          toDinode := dinode sb s.disk (s.itable ip).inum.toNat, valid := true } } := by
  have counted : ¬ (s.itable ip).ref < 1 := by omega
  unfold ilock
  simp only [bread, modifyInode, wp_bind, wp_get, wp_ite, wp_pure, wp_modify, wp_throw]
  rw [if_neg counted, if_pos notValid]
  rfl

/-- `ilock` of an entry in use loads the inode, or panics when it is free. -/
theorem ilock_inv (inv : FsInv sb s) (bound : ip < nInode) (held : 0 < (s.itable ip).ref) :
    wp (ilock sb ip) s (fun _ t => FsInv sb t) (SafeStop sb) := by
  by_cases notValid : (s.itable ip).valid = false
  · rw [ilock_load held notValid]
    have good : GoodEntry sb s ip { s.itable ip with
        toDinode := dinode sb s.disk (s.itable ip).inum.toNat, valid := true } :=
      goodEntry_of_held inv bound held rfl fun _ _ => rfl
    split_ifs with free
    · exact ⟨good.consistent inv, by simp⟩
    · exact good.inv inv fun _ _ => free
  · have counted : ¬ (s.itable ip).ref < 1 := by omega
    unfold ilock
    simp only [wp_bind, wp_get, wp_ite]
    rw [if_neg counted, if_neg notValid]
    exact inv

end Ilock

/-! ### `ialloc` -/

section Ialloc

variable {sb : Superblock} {s : FsState c}

/-- A free inode on disk has no valid entry. -/
theorem FsInv.unloaded (inv : FsInv sb s) {i : Nat}
    (free : (dinode sb s.disk i).type = 0) {ip : Nat} :
    ¬ Loaded s.itable ip i := by
  intro loaded
  rw [inv.synced ip i loaded] at free
  exact inv.live ip i loaded free

/-- `ialloc` finds no free inode, or stores the type of the first one and takes an entry for it. -/
theorem iallocFrom_spec (valid : sb.Valid) (inv : FsInv sb s) {type : UInt16}
    {post : Option Nat → FsState c → Prop} {stop : Stop → FsState c → Prop} (full : post none s)
    (found : ∀ i < sb.ninodes, (dinode sb s.disk i).type = 0 → (UInt32.ofNat i).toNat = i →
      ∀ v, v = { s with
        disk := putDinode sb s.disk i { Dinode.zero with type := type }
        trace := s.trace ++ [.logWrite (sb.iblock i)] } → FsInv sb v →
      wp (iget (UInt32.ofNat i)) v (fun ip t => post (some ip) t) stop) (inum : Nat) :
    wp (iallocFrom sb type inum) s post stop := by
  generalize remaining : sb.ninodes - inum = left
  induction left generalizing inum with
  | zero =>
    unfold iallocFrom
    rw [if_neg (by omega)]
    exact full
  | succ left ih =>
    have inside : inum < sb.ninodes := by omega
    unfold iallocFrom
    simp only [if_pos inside, bread, wp_bind, wp_get, wp_pure, wp_ite]
    by_cases free : (Dinode.get (s.disk (sb.iblock inum)) (inum % ipb)).type = 0
    · rw [if_pos free]
      simp only [logWrite, setBuffer, note, wp_bind, wp_modify]
      refine found inum inside free ?_ _ rfl (inv.replace valid inside ?_ _ rfl rfl
        (allocs_append inv.consistent (by simp [GoodEvent])) inv.consistent.one
          inv.consistent.range ?_)
      · exact UInt32.toNat_ofNat_of_lt'
          (Nat.lt_of_lt_of_le inside (Nat.le_trans valid.few (by decide)))
      · intro k
        rw [inv.refs_eq, diskRefs, if_neg fun live => live.2 free]
      · intro ip j loaded
        exact ⟨fun same => inv.unloaded (same ▸ free) loaded, loaded, rfl⟩
    · rw [if_neg free]
      exact ih (inum + 1) (by omega)

theorem iallocFrom_inv (valid : sb.Valid) (inv : FsInv sb s) (type : UInt16) (inum : Nat) :
    wp (iallocFrom sb type inum) s (fun _ t => FsInv sb t) (SafeStop sb) :=
  iallocFrom_spec valid inv inv (fun _ inside _ number _ _ stored => iget_inv stored
    (number.symm ▸ inside)) inum

end Ialloc

/-! ### `iput` -/

section Iput

variable {sb : Superblock} {s : FsState c} {ip i : Nat}

theorem oneEntry_unused {itable : Nat → Inode} (one : OneEntry itable) {node : Inode}
    (unused : node.ref = 0) : OneEntry (update itable ip node) := by
  intro p pBound q qBound pHeld qHeld same
  have notHere : ∀ {r}, 0 < (update itable ip node r).ref → r ≠ ip := by
    intro r held isIp
    rw [isIp, update_self, unused] at held
    exact Nat.lt_irrefl 0 held
  have pOther := notHere pHeld
  have qOther := notHere qHeld
  rw [update_of_ne pOther] at pHeld same
  rw [update_of_ne qOther] at qHeld same
  exact one p pBound q qBound pHeld qHeld same

theorem ifree_entry_inv (valid : sb.Valid) (inv : FsInv sb s) (held : Held s ip i)
    (last : (s.itable ip).ref = 1) (empty : (s.itable ip).addrs = fun _ => 0) :
    FsInv sb { s with
      disk := putDinode sb s.disk i { (s.itable ip).toDinode with type := 0 }
      itable := update s.itable ip
        { s.itable ip with type := 0, valid := false, ref := (s.itable ip).ref - 1 }
      trace := s.trace ++ [.logWrite (sb.iblock i)] } := by
  have unused : (s.itable ip).ref - 1 = 0 := by omega
  refine inv.replace valid (held.inside inv.consistent) ?_
    { (s.itable ip).toDinode with type := 0 } empty rfl
    (allocs_append inv.consistent (by simp [GoodEvent]))
    (oneEntry_unused inv.consistent.one unused) ?_ ?_
  · intro k
    rw [held.refs_eq inv.consistent]
    exact nodeRef_empty empty k
  · intro p bound
    by_cases same : p = ip
    · simp [same, unused]
    · simp only [update_of_ne same]
      exact inv.consistent.range p bound
  · intro p j loaded
    by_cases same : p = ip
    · simp [same, Loaded] at loaded
    · rw [Loaded] at loaded
      simp only [update_of_ne same] at loaded
      refine ⟨fun isI => same ?_, loaded, update_of_ne same _ _⟩
      exact inv.consistent.one.loaded_unique loaded (isI ▸ held.loaded)

/-- The freeing branch: all blocks and then the inode itself. -/
theorem iput_free_inv (valid : sb.Valid) (inv : FsInv sb s) (held : Held s ip i)
    (last : (s.itable ip).ref = 1) :
    wp (do ifree sb ip; modifyInode ip fun node => { node with ref := node.ref - 1 }) s
      (fun _ t => FsInv sb t) fun _ _ => False := by
  unfold ifree
  simp only [wp_bind]
  refine wp_mono (itrunc_spec valid inv.consistent held) ?_ fun _ _ absurd => absurd
  intro _ u truncated
  have node := truncated.node
  have heldU : Held u ip i := by
    obtain ⟨bound, ref, isValid, number⟩ := held.loaded
    refine ⟨⟨bound, ?_, ?_, ?_⟩, ?_⟩ <;> rw [node]
    · exact ref
    · exact isValid
    · exact number
    · exact held.live
  have freed :=
    ifree_entry_inv valid (truncated.inv valid inv held) heldU (by rw [node]; exact last)
    (by rw [node])
  have number : (u.itable ip).inum.toNat = i := heldU.loaded.2.2.2
  simp only [modifyInode, iupdate, bread, logWrite, setBuffer, note, wp_bind, wp_modify, wp_get,
    wp_pure, update_self, update_idem, number]
  exact freed

/-- `iput` of an entry in use: one reference less. -/
theorem iput_inv (valid : sb.Valid) (inv : FsInv sb s) (bound : ip < nInode)
    (held : 0 < (s.itable ip).ref) :
    wp (iput sb ip) s (fun _ t => FsInv sb t) fun _ _ => False := by
  have loaded : (s.itable ip).valid = true → Loaded s.itable ip (s.itable ip).inum.toNat :=
    fun isValid => ⟨bound, held, isValid, rfl⟩
  unfold iput
  rw [wp_bind, wp_get, wp_ite]
  split_ifs with unlinked
  · exact iput_free_inv valid inv (inv.held (loaded unlinked.2.1)) unlinked.1
  · have good : GoodEntry sb s ip { s.itable ip with ref := (s.itable ip).ref - 1 } :=
      goodEntry_of_held inv bound held rfl fun _ isValid => inv.synced _ _ (loaded isValid)
    exact good.inv inv fun _ isValid => inv.live _ _ (loaded isValid)

end Iput

end Xv6.Kernel.Fs
