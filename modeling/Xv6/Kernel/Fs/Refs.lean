import Xv6.Kernel.Fs.Inode
import Xv6.Lib.FreeMap

/-!
The block references of all inodes.

Owns: which copy of an inode counts, the block numbers an inode holds directly,
in its indirect block and for it, and how a change of one disk block, one
in-memory inode or one entry changes them.

Does not own: the bitmap.
-/

namespace Xv6.Kernel.Fs

open Xv6.Lib Function

/-! ### Which copy of an inode counts -/

/-- Table entry `ip` holds the contents of inode `i`. -/
def Loaded (itable : Nat → Inode) (ip i : Nat) : Prop :=
  ip < nInode ∧ 0 < (itable ip).ref ∧ (itable ip).valid = true ∧ (itable ip).inum.toNat = i

instance (itable : Nat → Inode) (ip i : Nat) : Decidable (Loaded itable ip i) :=
  inferInstanceAs (Decidable (_ ∧ _))

/-- At most one entry in use for each inode. -/
def OneEntry (itable : Nat → Inode) : Prop :=
  ∀ ip < nInode, ∀ ip' < nInode, 0 < (itable ip).ref → 0 < (itable ip').ref →
    (itable ip).inum = (itable ip').inum → ip = ip'

/-- The inode with number `i`: the copy in memory if there is a valid one, else
the one on disk. -/
def effective (sb : Superblock) (disk : Disk) (itable : Nat → Inode) (i : Nat) : Dinode :=
  match (List.range nInode).find? fun ip => Loaded itable ip i with
  | some ip => (itable ip).toDinode
  | none => dinode sb disk i

section Effective

variable {sb : Superblock} {disk disk' : Disk} {itable itable' : Nat → Inode} {ip i : Nat}

theorem OneEntry.loaded_unique (one : OneEntry itable) {ip' : Nat} (loaded : Loaded itable ip i)
    (loaded' : Loaded itable ip' i) : ip = ip' := by
  obtain ⟨bound, held, _, number⟩ := loaded
  obtain ⟨bound', held', _, number'⟩ := loaded'
  exact one ip bound ip' bound' held held' (UInt32.toNat_inj.mp (number.trans number'.symm))

theorem effective_of_loaded (one : OneEntry itable) (loaded : Loaded itable ip i) :
    effective sb disk itable i = (itable ip).toDinode := by
  unfold effective
  cases search : (List.range nInode).find? fun ip => Loaded itable ip i with
  | some found =>
    have foundLoaded : Loaded itable found i := by simpa using List.find?_some search
    rw [one.loaded_unique foundLoaded loaded]
  | none =>
    have absent := List.find?_eq_none.mp search ip (List.mem_range.mpr loaded.1)
    exact absurd loaded (by simpa using absent)

theorem effective_of_unloaded (unloaded : ∀ ip, ¬ Loaded itable ip i) :
    effective sb disk itable i = dinode sb disk i := by
  unfold effective
  cases search : (List.range nInode).find? fun ip => Loaded itable ip i with
  | some found =>
    have foundLoaded : Loaded itable found i := by simpa using List.find?_some search
    exact absurd foundLoaded (unloaded found)
  | none => rfl

theorem effective_disk (same : dinode sb disk' i = dinode sb disk i) :
    effective sb disk' itable i = effective sb disk itable i := by
  unfold effective
  cases (List.range nInode).find? fun ip => Loaded itable ip i with
  | some found => rfl
  | none => exact same

/-- A change of the contents of one valid entry. -/
theorem Loaded.update {node : Inode} (inum : node.inum = (itable ip).inum)
    (ref : node.ref = (itable ip).ref) (valid : node.valid = (itable ip).valid) (ip' i : Nat) :
    Loaded (Function.update itable ip node) ip' i ↔ Loaded itable ip' i := by
  unfold Loaded
  by_cases same : ip' = ip
  · rw [same, update_self, inum, ref, valid]
  · rw [update_of_ne same]

theorem OneEntry.update (one : OneEntry itable) {node : Inode} (inum : node.inum = (itable ip).inum)
    (ref : node.ref = (itable ip).ref) : OneEntry (Function.update itable ip node) := by
  have inums : ∀ p, (Function.update itable ip node p).inum = (itable p).inum := by
    intro p
    by_cases same : p = ip
    · rw [same, update_self, inum]
    · rw [update_of_ne same]
  have refs : ∀ p, (Function.update itable ip node p).ref = (itable p).ref := by
    intro p
    by_cases same : p = ip
    · rw [same, update_self, ref]
    · rw [update_of_ne same]
  intro p pBound q qBound pHeld qHeld same
  rw [refs] at pHeld qHeld
  rw [inums, inums] at same
  exact one p pBound q qBound pHeld qHeld same

theorem effective_update (one : OneEntry itable) (loaded : Loaded itable ip i) {node : Inode}
    (inum : node.inum = (itable ip).inum) (ref : node.ref = (itable ip).ref)
    (valid : node.valid = (itable ip).valid) (j : Nat) :
    effective sb disk (update itable ip node) j =
      if j = i then node.toDinode else effective sb disk itable j := by
  have iff := fun ip' j => @Loaded.update itable ip node inum ref valid ip' j
  have one' := one.update inum ref
  split_ifs with same
  · rw [same, effective_of_loaded one' ((iff ip i).mpr loaded), update_self]
  · by_cases other : ∃ ip', Loaded itable ip' j
    · obtain ⟨ip', loaded'⟩ := other
      have different : ip' ≠ ip := by
        intro sameEntry
        exact same (loaded'.2.2.2.symm.trans (sameEntry ▸ loaded.2.2.2))
      rw [effective_of_loaded one' ((iff ip' j).mpr loaded'), effective_of_loaded one loaded',
        update_of_ne different]
    · have unloaded : ∀ ip', ¬ Loaded itable ip' j := fun ip' loaded' => other ⟨ip', loaded'⟩
      rw [effective_of_unloaded unloaded,
        effective_of_unloaded fun ip' loaded' => unloaded ip' ((iff ip' j).mp loaded')]

end Effective

/-! ### The block numbers of one inode -/

/-- Reference `k` of an inode: `addrs[k]`, and past these the entries of its
indirect block. -/
def nodeRef (disk : Disk) (node : Dinode) (k : Nat) : Nat :=
  if inside : k < ndirect + 1 then (node.addrs ⟨k, inside⟩).toNat
  else if node.addrs indirectIndex ≠ 0 ∧ k < ndirect + 1 + nindirect then
    (entry (disk (node.addrs indirectIndex).toNat) (k - (ndirect + 1))).toNat
  else 0

/-- The reference for block `bn` of the file. -/
def dataSlot (bn : Nat) : Nat := if bn < ndirect then bn else bn + 1

theorem dataSlot_indirect {bn : Nat} (past : ¬ bn < ndirect) :
    dataSlot bn = ndirect + 1 + (bn - ndirect) := by
  rw [dataSlot, if_neg past]
  omega

theorem dataSlot_ne_indirect (bn : Nat) : dataSlot bn ≠ ndirect := by
  unfold dataSlot
  split_ifs <;> omega

theorem dataSlot_injective {bn bn' : Nat} (same : dataSlot bn = dataSlot bn') : bn = bn' := by
  unfold dataSlot at same
  split_ifs at same <;> omega

section NodeRef

variable {disk disk' : Disk} {node : Dinode} {k : Nat}

theorem nodeRef_addrs (k : Fin (ndirect + 1)) : nodeRef disk node k = (node.addrs k).toNat :=
  dif_pos k.isLt

theorem nodeRef_indirect : nodeRef disk node ndirect = (node.addrs indirectIndex).toNat :=
  dif_pos (Nat.lt_succ_self _)

theorem nodeRef_entry {j : Nat} (inside : j < nindirect) :
    nodeRef disk node (ndirect + 1 + j) = if node.addrs indirectIndex = 0 then 0 else
      (entry (disk (node.addrs indirectIndex).toNat) j).toNat := by
  rw [nodeRef, dif_neg (by omega), Nat.add_sub_cancel_left]
  by_cases absent : node.addrs indirectIndex = 0
  · rw [if_neg (by tauto), if_pos absent]
  · rw [if_pos ⟨absent, by omega⟩, if_neg absent]

theorem nodeRef_past (past : ndirect + 1 + nindirect ≤ k) : nodeRef disk node k = 0 := by
  rw [nodeRef, dif_neg (by omega), if_neg (by omega)]

theorem nodeRef_lt (disk : Disk) (node : Dinode) (k : Nat) : nodeRef disk node k < 2 ^ 32 := by
  unfold nodeRef
  split_ifs
  · exact UInt32.toNat_lt _
  · exact UInt32.toNat_lt _
  · decide

/-- Only the indirect block matters. -/
theorem nodeRef_disk (same : node.addrs indirectIndex ≠ 0 →
      disk' (node.addrs indirectIndex).toNat = disk (node.addrs indirectIndex).toNat) :
    nodeRef disk' node k = nodeRef disk node k := by
  unfold nodeRef
  split_ifs with direct isEntry
  · rfl
  · rw [same isEntry.1]
  · rfl

/-- Every reference is one of `addrs` or an entry, or absent. -/
theorem slot_cases (k : Nat) :
    (∃ a : Fin (ndirect + 1), k = a) ∨ (∃ j < nindirect, k = ndirect + 1 + j) ∨
      ndirect + 1 + nindirect ≤ k := by
  by_cases direct : k < ndirect + 1
  · exact .inl ⟨⟨k, direct⟩, rfl⟩
  · by_cases isEntry : k < ndirect + 1 + nindirect
    · exact .inr (.inl ⟨k - (ndirect + 1), by omega, by omega⟩)
    · exact .inr (.inr (by omega))

/-- Storing a number into `addrs`; for the indirect block, one whose entries are
all zero, or none. -/
theorem nodeRef_setAddr (a : Fin (ndirect + 1)) (b : UInt32)
    (cleared : a = indirectIndex → ∀ j < nindirect,
      (b ≠ 0 → entry (disk b.toNat) j = 0) ∧ nodeRef disk node (ndirect + 1 + j) = 0)
    (k : Nat) :
    nodeRef disk { node with addrs := update node.addrs a b } k =
      if k = a then b.toNat else nodeRef disk node k := by
  rcases slot_cases k with ⟨k, rfl⟩ | ⟨j, inside, rfl⟩ | past
  · rw [nodeRef_addrs, nodeRef_addrs]
    by_cases same : k = a
    · rw [same, if_pos rfl]
      exact congrArg UInt32.toNat (update_self ..)
    · rw [if_neg fun equal => same (Fin.ext equal)]
      exact congrArg UInt32.toNat (update_of_ne same ..)
  · have notAddr : ndirect + 1 + j ≠ a := by
      have := a.isLt
      omega
    rw [if_neg notAddr, nodeRef_entry inside]
    by_cases isIndirect : a = indirectIndex
    · obtain ⟨entryZero, was⟩ := cleared isIndirect j inside
      rw [was]
      subst isIndirect
      simp only [update_self]
      split_ifs with absent
      · rfl
      · rw [entryZero absent]
        rfl
    · rw [nodeRef_entry inside]
      simp only [update_of_ne (Ne.symm isIndirect)]
  · have notAddr : k ≠ a := by
      have := a.isLt
      omega
    rw [if_neg notAddr, nodeRef_past past, nodeRef_past past]

/-- Storing an entry of the indirect block. -/
theorem nodeRef_setEntry {j : Nat} (inside : j < nindirect)
    (present : node.addrs indirectIndex ≠ 0) (b : UInt32) (k : Nat) :
    nodeRef (update disk (node.addrs indirectIndex).toNat
        ((disk (node.addrs indirectIndex).toNat).set32 (4 * j) b)) node k =
      if k = ndirect + 1 + j then b.toNat else nodeRef disk node k := by
  rcases slot_cases k with ⟨k, rfl⟩ | ⟨i, bound, rfl⟩ | past
  · have notEntry : (k : Nat) ≠ ndirect + 1 + j := by
      have := k.isLt
      omega
    rw [if_neg notEntry, nodeRef_addrs, nodeRef_addrs]
  · rw [nodeRef_entry bound, nodeRef_entry bound, if_neg present, if_neg present, update_self,
      entry_set32 _ inside]
    by_cases same : i = j
    · rw [if_pos same, if_pos (by omega)]
    · rw [if_neg same, if_neg (by omega)]
  · rw [if_neg (by omega), nodeRef_past past, nodeRef_past past]

end NodeRef

/-! ### The references of all inodes -/

/-- Reference `slot.2` of inode `slot.1`; free inodes hold nothing. -/
def refs (sb : Superblock) (disk : Disk) (itable : Nat → Inode) (slot : Nat × Nat) : Nat :=
  if slot.1 < sb.ninodes ∧ (effective sb disk itable slot.1).type ≠ 0 then
    nodeRef disk (effective sb disk itable slot.1) slot.2
  else 0

section Refs

variable {sb : Superblock} {disk disk' : Disk} {itable : Nat → Inode} {ip i : Nat}

theorem refs_of_loaded (one : OneEntry itable) (loaded : Loaded itable ip i)
    (inside : i < sb.ninodes) (live : (itable ip).type ≠ 0) (k : Nat) :
    refs sb disk itable (i, k) = nodeRef disk (itable ip).toDinode k := by
  rw [refs, effective_of_loaded one loaded]
  exact if_pos ⟨inside, live⟩

/-- The references of inode `j` depend on the inode and on its indirect block. -/
theorem refs_disk_at {j : Nat} (inode : j < sb.ninodes → dinode sb disk' j = dinode sb disk j)
    (indirect : refs sb disk itable (j, ndirect) ≠ 0 →
      disk' (refs sb disk itable (j, ndirect)) = disk (refs sb disk itable (j, ndirect)))
    (k : Nat) : refs sb disk' itable (j, k) = refs sb disk itable (j, k) := by
  by_cases live : j < sb.ninodes ∧ (effective sb disk itable j).type ≠ 0
  · have sameNode : effective sb disk' itable j = effective sb disk itable j :=
      effective_disk (inode live.1)
    rw [refs, if_pos live, nodeRef_indirect] at indirect
    unfold refs
    dsimp only
    rw [sameNode, if_pos live, if_pos live]
    exact nodeRef_disk fun present => indirect fun zero => present (UInt32.toNat_inj.mp zero)
  · unfold refs
    dsimp only
    rw [if_neg live, if_neg]
    rintro ⟨inside, typed⟩
    rw [effective_disk (inode inside)] at typed
    exact live ⟨inside, typed⟩

theorem refs_disk (inodes : ∀ j < sb.ninodes, dinode sb disk' j = dinode sb disk j)
    (indirects : ∀ j, refs sb disk itable (j, ndirect) ≠ 0 →
      disk' (refs sb disk itable (j, ndirect)) = disk (refs sb disk itable (j, ndirect))) :
    refs sb disk' itable = refs sb disk itable := by
  funext slot
  obtain ⟨j, k⟩ := slot
  exact refs_disk_at (inodes j) (indirects j) k

/-- A store into a block that is neither an inode block nor the indirect block of
inode `j`. -/
theorem refs_update_disk {b : Nat} (notInode : ∀ j < sb.ninodes, sb.iblock j ≠ b) (data : Block)
    {j : Nat} (notIndirect : refs sb disk itable (j, ndirect) ≠ 0 →
      refs sb disk itable (j, ndirect) ≠ b) (k : Nat) :
    refs sb (update disk b data) itable (j, k) = refs sb disk itable (j, k) :=
  refs_disk_at (fun inside => dinode_congr (update_of_ne (notInode j inside) _ _))
    (fun present => update_of_ne (notIndirect present) _ _) k

/-- The references after a change of the block numbers of a loaded inode. -/
theorem refs_update (one : OneEntry itable) (loaded : Loaded itable ip i)
    (inside : i < sb.ninodes) (live : (itable ip).type ≠ 0) {node : Inode}
    (inum : node.inum = (itable ip).inum) (ref : node.ref = (itable ip).ref)
    (valid : node.valid = (itable ip).valid) (type : node.type = (itable ip).type)
    (slot : Nat × Nat) :
    refs sb disk (update itable ip node) slot =
      if slot.1 = i then nodeRef disk node.toDinode slot.2 else refs sb disk itable slot := by
  unfold refs
  rw [effective_update one loaded inum ref valid]
  by_cases same : slot.1 = i
  · rw [if_pos same, if_pos same, if_pos]
    rw [same, type]
    exact ⟨inside, live⟩
  · rw [if_neg same, if_neg same]

end Refs

end Xv6.Kernel.Fs
