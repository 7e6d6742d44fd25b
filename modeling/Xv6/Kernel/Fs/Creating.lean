import Xv6.Kernel.Fs.Lasting
import Xv6.Kernel.Fs.Linking

/-!
An inode under construction.

Owns: what `create` has changed while it builds a new inode, that every step of it
keeps this, and that giving the inode up through `iput` leaves the file system as
it was before `ialloc`.

Does not own: the calls around `create`.
-/

namespace Xv6.Kernel.Fs

open Xv6.Lib Function

variable {c : Codec}

/-! ### Allocating and freeing -/

section Allocate

variable {sb : Superblock} {s t : FsState c} {ip i : Nat}

theorem FsState.save_entry (sb : Superblock) (s : FsState c) (ip : Nat) (node : Inode) :
    (s.save sb ip node).itable ip = node := update_self _ _ _

/-- A saved inode that keeps its number and references counts as before. -/
theorem save_counts {node : Inode} (inum : node.inum = (s.itable ip).inum)
    (ref : node.ref = (s.itable ip).ref) (p : Nat) :
    ((s.save sb ip node).itable p).inum = (s.itable p).inum ∧
      ((s.save sb ip node).itable p).ref = (s.itable p).ref := by
  change (update s.itable ip node p).inum = _ ∧
    (update s.itable ip node p).ref = _
  by_cases here : p = ip
  · rw [here, update_self]
    exact ⟨inum, ref⟩
  · rw [update_of_ne here]
    exact ⟨rfl, rfl⟩

theorem refCount_save {node : Inode} (inum : node.inum = (s.itable ip).inum)
    (ref : node.ref = (s.itable ip).ref) :
    refCount (s.save sb ip node).itable = refCount s.itable :=
  refCount_congr (fun p => (save_counts inum ref p).1) fun p => (save_counts inum ref p).2

theorem inUse_save {node : Inode} (inum : node.inum = (s.itable ip).inum)
    (ref : node.ref = (s.itable ip).ref) (p j : Nat) :
    InUse (s.save sb ip node).itable p j ↔ InUse s.itable p j := by
  rw [InUse, (save_counts inum ref p).1, (save_counts inum ref p).2, InUse]

theorem dataKept_of_blocks {which : Nat → Prop} (inv : FsInv sb s) (invT : FsInv sb t)
    (inodes : ∀ j < sb.ninodes, which j → dinode sb t.disk j = dinode sb s.disk j)
    (blocks : ∀ b, sb.dataStart ≤ b → t.disk b = s.disk b) : DataKept sb which s t := by
  have refs : ∀ j k, which j → t.refs sb (j, k) = s.refs sb (j, k) := by
    intro j k member
    by_cases inside : j < sb.ninodes
    · rw [invT.refs_eq]
      exact inv.diskRefs_congr (inodes j inside member) blocks k
    · rw [inv.refs_eq, invT.refs_eq, diskRefs, diskRefs, if_neg fun both => inside both.1,
        if_neg fun both => inside both.1]
  refine ⟨refs, fun j p member present => ?_⟩
  have isData := (inv.consistent.data present).2.1
  rw [FsState.byteAt, FsState.byteAt, FsState.blockOf, refs j _ member, blocks _ isData]
  rfl

theorem wp_ialloc (valid : sb.Valid) (inv : FsInv sb s) {type : UInt16} (inum : Nat) :
    wp (iallocFrom sb type inum) s
      (fun new u => (new = none ∧ u = s) ∨ ∃ ip i v, new = some ip ∧ i < sb.ninodes ∧
        (dinode sb s.disk i).type = 0 ∧
        v.disk = putDinode sb s.disk i { Dinode.zero with type := type } ∧
        v.itable = s.itable ∧ FsInv sb v ∧ Got sb v (refCount v.itable) v ip i u)
      fun _ _ => True := by
  refine iallocFrom_spec valid inv (.inl ⟨rfl, rfl⟩) ?_ inum
  intro i inside free number v isV stored
  refine wp_mono (wp_iget (Opens.refl stored) (number.symm ▸ inside)) ?_ fun _ _ _ => trivial
  intro ip u got
  rw [number] at got
  refine .inr ⟨ip, i, v, rfl, inside, free, ?_, ?_, stored, got⟩ <;> rw [isV]

/-- What `iput` leaves of an inode without links whose last reference it gives
back. -/
structure Freed (sb : Superblock) (s : FsState c) (ip i : Nat) (t : FsState c) : Prop where
  inv : FsInv sb t
  data : DataKept sb (· ≠ i) s t
  inodes : ∀ j < sb.ninodes, j ≠ i → dinode sb t.disk j = dinode sb s.disk j
  free : (dinode sb t.disk i).type = 0
  entries : ∀ p ≠ ip, t.itable p = s.itable p
  unused : (t.itable ip).ref = 0

theorem wp_iput_free (valid : sb.Valid) (inv : FsInv sb s) (loaded : Loaded s.itable ip i)
    (last : (s.itable ip).ref = 1) (unlinked : (s.itable ip).nlink = 0) :
    wp (iput sb ip) s (fun _ t => Freed sb s ip i t) fun _ _ => False := by
  have held := inv.held loaded
  have inside := held.inside inv.consistent
  unfold iput
  rw [wp_bind, wp_get, wp_ite, if_pos ⟨last, loaded.2.2.1, unlinked⟩]
  refine wp_mono (wp_inter (iput_free_inv valid inv held last)
    (?_ : wp (do ifree sb ip; modifyInode ip fun node => { node with ref := node.ref - 1 }) s
      (fun _ t => FsInv sb t → Freed sb s ip i t) fun _ _ => False))
    (fun _ _ both => both.2 both.1) fun _ _ absurd => absurd.1
  unfold ifree
  simp only [wp_bind]
  refine wp_mono (itrunc_spec valid inv.consistent held) ?_ fun _ _ absurd => absurd
  intro _ u truncated
  have node := truncated.node
  have number : (u.itable ip).inum.toNat = i := by
    rw [node]
    exact loaded.2.2.2
  have onlyRef : (u.itable ip).ref - 1 = 0 := by
    rw [node]
    change (s.itable ip).ref - 1 = 0
    omega
  obtain ⟨t, frees, _, rfl⟩ := truncated
  have numberT : (t.itable ip).inum.toNat = i := by
    rw [frees.node]
    exact loaded.2.2.2
  simp only [modifyInode, iupdate, bread, logWrite, setBuffer, note, wp_bind, wp_modify, wp_get,
    wp_pure, update_self, update_idem, number]
  intro invT
  have others : ∀ j < sb.ninodes, j ≠ i → ∀ node node', dinode sb (putDinode sb
      (putDinode sb t.disk i node) i node') j = dinode sb s.disk j := by
    intro j bound other node node'
    rw [dinode_putDinode_other _ _ other, dinode_putDinode_other _ _ other,
      frees.inodes valid bound]
  have disk : (t.save sb ip { t.itable ip with size := 0 }).disk =
      putDinode sb t.disk i { (t.itable ip).toDinode with size := 0 } := by
    rw [FsState.save, numberT]
  refine ⟨invT, dataKept_of_blocks inv invT ?_ ?_, ?_, ?_, ?_, ?_⟩
  · intro j bound other
    change dinode sb (putDinode sb _ i _) j = _
    rw [disk]
    exact others j bound other _ _
  · intro b isData
    change putDinode sb _ i _ b = _
    rw [putDinode_data valid inside _ _ isData, disk, putDinode_data valid inside _ _ isData]
    refine frees.blocks b fun x bound same => ?_
    have := valid.bblock_meta x bound
    omega
  · intro j bound other
    change dinode sb (putDinode sb _ i _) j = _
    rw [disk]
    exact others j bound other _ _
  · change (dinode sb (putDinode sb _ i _) i).type = 0
    rw [dinode_putDinode]
  · intro p other
    change update _ ip _ p = _
    rw [update_of_ne other]
    exact (update_of_ne other _ _).trans (frees.entries p other)
  · change (update (_ : Nat → Inode) ip _ ip).ref = 0
    rw [update_self]
    exact onlyRef

end Allocate

/-! ### The inode under construction -/

/-- Between `s`, in which inode `i` is free, and `t` inode `i` was allocated and
written in entry `ip`; nothing else changed but entries of the table. The parent
directory `d` stays in entry `dp`. -/
structure Building (sb : Superblock) (s : FsState c) (ip i dp d : Nat) (t : FsState c) : Prop where
  inv : FsInv sb t
  data : DataKept sb (· ≠ i) s t
  inodes : ∀ j < sb.ninodes, j ≠ i → dinode sb t.disk j = dinode sb s.disk j
  own : Loaded t.itable ip i
  parent : Loaded t.itable dp d
  counts : refCount t.itable = refCount s.itable + Pi.single i 1
  different : i ≠ d

section Building

variable {sb : Superblock} {s t u : FsState c} {ip i dp d : Nat}

theorem Building.entry_ne (building : Building sb s ip i dp d t) : dp ≠ ip := by
  rintro rfl
  exact building.different (building.own.2.2.2.symm.trans building.parent.2.2.2)

/-- Calls that change the table only. -/
theorem Building.opens (building : Building sb s ip i dp d t)
    (opens : Opens sb t (refCount t.itable) u) (keeps : Keeps (refCount t.itable) t u) :
    Building sb s ip i dp d u where
  inv := opens.inv
  data := building.data.trans (dataKept_of_disk building.inv opens.inv opens.disk)
  inodes := by
    intro j bound other
    rw [opens.disk]
    exact building.inodes j bound other
  own := (keeps ip i (building.own.inUse.refCount_pos building.inv.consistent.one)).2 building.own
  parent := (keeps dp d (building.parent.inUse.refCount_pos building.inv.consistent.one)).2
    building.parent
  counts := opens.counts.trans building.counts
  different := building.different

/-- The new inode is saved, after blocks were allocated for it and written. -/
theorem Building.saved (building : Building sb s ip i dp d t) (valid : sb.Valid)
    (stays : Stays sb ip i t u)
    (outside : ∀ j p, j ≠ i → t.blockOf sb j p ≠ 0 → u.byteAt sb j p = t.byteAt sb j p)
    {node : Inode} (inum : node.inum = (u.itable ip).inum) (ref : node.ref = (u.itable ip).ref)
    (isValid : node.valid = (u.itable ip).valid) (type : node.type = (u.itable ip).type)
    (addrs : node.addrs = (u.itable ip).addrs) :
    Building sb s ip i dp d (u.save sb ip node) := by
  have held := building.inv.held building.own
  have heldU := held.stays stays
  have number : node.inum.toNat = i := inum ▸ heldU.loaded.2.2.2
  have loadedIff := fun p j => @Loaded.update u.itable ip node inum ref isValid p j
  refine ⟨stays.save_inv valid building.inv held inum ref isValid type addrs, ?_, ?_, ?_, ?_, ?_,
    building.different⟩
  · have grown : DataKept sb (· ≠ i) t u :=
      ⟨fun j k other => stays.foreign (j, k) other, fun j p other => outside j p other⟩
    exact (building.data.trans grown).trans
      (dataKept_save valid stays.consistent heldU inum ref isValid type addrs)
  · intro j bound other
    change dinode sb (putDinode sb u.disk node.inum.toNat node.toDinode) j = _
    rw [number, dinode_putDinode_other _ _ other, stays.inodes j bound]
    exact building.inodes j bound other
  · exact (loadedIff ip i).mpr heldU.loaded
  · refine (loadedIff dp d).mpr ?_
    rw [Loaded, stays.entries dp building.entry_ne]
    exact building.parent
  · rw [refCount_save inum ref, ← building.counts]
    have same : ∀ p, (u.itable p).inum = (t.itable p).inum ∧
        (u.itable p).ref = (t.itable p).ref := by
      intro p
      by_cases here : p = ip
      · rw [here, stays.node]
        exact ⟨rfl, rfl⟩
      · rw [stays.entries p here]
        exact ⟨rfl, rfl⟩
    exact refCount_congr (fun p => (same p).1) fun p => (same p).2

/-- A change of the new inode that keeps its type and blocks. -/
theorem Building.save (building : Building sb s ip i dp d t) (valid : sb.Valid) {node : Inode}
    (inum : node.inum = (t.itable ip).inum) (ref : node.ref = (t.itable ip).ref)
    (isValid : node.valid = (t.itable ip).valid) (type : node.type = (t.itable ip).type)
    (addrs : node.addrs = (t.itable ip).addrs) : Building sb s ip i dp d (t.save sb ip node) :=
  building.saved valid (Stays.refl building.inv.consistent) (fun _ _ _ _ => rfl) inum ref isValid
    type addrs

/-- Bytes written to the new inode. -/
theorem Building.written (building : Building sb s ip i dp d t) (valid : sb.Valid) {off : UInt32}
    {n : Nat} {bytes : Mem} (writes : Writes sb ip i off.toNat bytes t n u) :
    Building sb s ip i dp d (u.save sb ip ((u.itable ip).grown off n)) :=
  building.saved valid writes.toStays
    (fun j p other present => writes.outside j p present fun here => other here.1)
      (by simp) (by simp)
    (by simp) (by simp) (by simp)

theorem Building.parentDir (building : Building sb s ip i dp d t) (inv : FsInv sb s)
    (isDir : (dinode sb s.disk d).type = tDir) (whole : WholeDir s.disk (dinode sb s.disk d)) :
    dinode sb t.disk d = dinode sb s.disk d ∧ WholeDir t.disk (dinode sb t.disk d) ∧
      ∀ k < (dinode sb t.disk d).size.toNat / Dirent.bytes,
        dirEntry t.disk (dinode sb t.disk d) k = dirEntry s.disk (dinode sb s.disk d) k := by
  have inside := building.inv.consistent.inside building.parent
  have same := building.inodes d inside building.different.symm
  exact ⟨same, building.data.directory inv building.inv building.different.symm inside isDir same
    whole⟩

/-- A file system without holes whose entries in use are for allocated inodes, in
which `create` has a reference to the directory `d` and has locked it. -/
structure Site (sb : Superblock) (s : FsState c) (dp d : Nat) : Prop where
  inv : FsInv sb s
  holeless : WithoutHoles sb s.disk
  live : ∀ p j, InUse s.itable p j → (dinode sb s.disk j).type ≠ 0
  parent : Loaded s.itable dp d
  isDir : (dinode sb s.disk d).type = tDir
  whole : WholeDir s.disk (dinode sb s.disk d)
  inside : ∀ k < (dinode sb s.disk d).size.toNat / Dirent.bytes,
    (dirEntry s.disk (dinode sb s.disk d) k).inum.toNat < sb.ninodes
  stays : ∃ refs : Nat → Nat, refCount s.itable = refs + Pi.single d 1 ∧
    ((dinode sb s.disk d).nlink ≠ 0 ∨ 0 < refs d)

theorem Site.unheld (site : Site sb s dp d) (free : (dinode sb s.disk i).type = 0) :
    refCount s.itable i = 0 := by
  by_contra present
  obtain ⟨p, inUse⟩ := exists_inUse (Nat.pos_of_ne_zero present)
  exact site.live p i inUse free

theorem createFail_unchanged (valid : sb.Valid) (site : Site sb s dp d)
    (building : Building sb s ip i dp d t) (free : (dinode sb s.disk i).type = 0) :
    wp (createFail sb ip dp) t (fun _ u => Unchanged sb s u) fun _ _ => True := by
  obtain ⟨refs, counts, stays⟩ := site.stays
  unfold createFail setLinks
  rw [wp_bind, iupdate_modify, wp_bind]
  have saved := @Building.save c sb s t ip i dp d building valid
    { t.itable ip with nlink := 0 } rfl rfl rfl rfl rfl
  generalize isU : t.save sb ip { t.itable ip with nlink := 0 } = u at saved
  have last : (u.itable ip).ref = 1 := by
    rw [← saved.own.inUse.refCount_eq saved.inv.consistent.one, saved.counts, Pi.add_apply,
      site.unheld free, Pi.single_eq_same]
  have unlinked : (u.itable ip).nlink = 0 := by
    rw [← isU, FsState.save_entry]
  refine wp_mono (wp_iput_free valid saved.inv saved.own last unlinked) ?_ fun _ _ absurd =>
    absurd.elim
  intro _ v freed
  have parent : v.itable dp = u.itable dp := freed.entries dp saved.entry_ne
  -- the references are those of `s` again
  have table : v.itable = update u.itable ip (v.itable ip) := by
    funext p
    by_cases here : p = ip
    · rw [here, update_self]
    · rw [update_of_ne here, freed.entries p here]
  have countsV : refCount v.itable = refs + Pi.single d 1 := by
    funext j
    have counted := @refCount_update u.itable ip saved.own.1 (v.itable ip) j
    rw [← table, freed.unused, ite_self, saved.counts, counts, saved.own.2.2.2, last,
      Pi.add_apply _ (Pi.single i 1), Pi.single_apply] at counted
    simp only [eq_comm] at counted
    omega
  have dir : dinode sb v.disk d = dinode sb s.disk d := by
    have inside := saved.inv.consistent.inside saved.parent
    rw [freed.inodes d inside saved.different.symm, saved.inodes d inside saved.different.symm]
  have unchanged : Unchanged sb s v := by
    refine unchanged_of_data site.inv freed.inv site.holeless ?_ ?_ ?_
    · intro j bound freeJ
      by_cases isI : j = i
      · rw [isI]
        exact freed.free
      · rw [freed.inodes j bound isI, saved.inodes j bound isI]
        exact freeJ
    · intro j bound live
      have other : j ≠ i := fun isI => live (isI ▸ free)
      rw [freed.inodes j bound other, saved.inodes j bound other]
    · exact (saved.data.trans freed.data).mono fun j live isI => live.2 (isI ▸ free)
  unfold putAndReturn
  rw [wp_bind]
  have opens : Opens sb v (refs + Pi.single d 1) v := countsV ▸ Opens.refl freed.inv
  have inUse : InUse v.itable dp d := by
    rw [InUse, parent]
    exact saved.parent.inUse
  refine wp_mono (wp_iput opens inUse ?_) ?_ fun _ _ absurd => absurd.elim
  · rw [dir]
    exact stays.imp id .inl
  · rintro _ w ⟨after, _⟩
    exact unchanged.same_disk after.disk

end Building

/-! ### `create` once the name is known to be new -/

section Create

variable {sb : Superblock} {s t : FsState c} {ip i dp d : Nat}

theorem putAndReturn_yields {Result : Type} (sb : Superblock) (ip : Nat) {holds : Result → Prop}
    {result : Result} (has : holds result) :
    Yields holds (putAndReturn sb ip result : FsM c Result) :=
  .bind _ fun _ => .pure has

/-- A call that succeeds says nothing about failure. -/
theorem wp_of_yields {Result : Type} {program : FsM c Result} {failure : Result}
    (succeeds : Yields (· ≠ failure) program) {post : FsState c → Prop} :
    wp program t (fun result u => result = failure → post u) fun _ _ => True :=
  wp_mono (succeeds t) (fun _ _ other same => absurd same other) fun _ _ _ => trivial

theorem createName_unchanged (valid : sb.Valid) (site : Site sb s dp d)
    (building : Building sb s ip i dp d t) (free : (dinode sb s.disk i).type = 0) (type : UInt16)
    (name : Mem) :
    wp (createName sb type ip dp name) t (fun made u => made = none → Unchanged sb s u)
      fun _ _ => True := by
  obtain ⟨same, whole, entries⟩ := building.parentDir site.inv site.isDir site.whole
  unfold createName
  rw [wp_bind, wp_get, wp_bind]
  refine wp_dirlink valid (Opens.refl building.inv) building.parent (by rw [same]; exact site.isDir)
    whole ?_ ?_ ?_
  · intro k inDir
    rw [entries k inDir]
    rw [same] at inDir
    exact site.inside k inDir
  · intro u opens keeps
    rw [wp_ite, if_pos (by decide)]
    exact wp_mono (createFail_unchanged valid site (building.opens opens keeps) free)
      (fun _ _ unchanged _ => unchanged) fun _ _ stopped => stopped
  · intro off u _ _ _
    rw [wp_ite, if_neg (by decide)]
    have named : Yields (· ≠ none) (putAndReturn sb dp (some ip) : FsM c (Option Nat)) :=
      putAndReturn_yields sb dp (Option.some_ne_none ip)
    exact wp_of_yields (.ite (.bind _ fun _ => named) named)

theorem setLinks_lasting (sb : Superblock) (ip : Nat) (change : UInt16 → UInt16) :
    Preserves OutOfBlocks (setLinks sb ip change : FsM c PUnit) :=
  (modifyInode_lasting _ _).bind fun _ => iupdate_lasting sb ip

theorem putAndReturn_lasting {Result : Type} (sb : Superblock) (ip : Nat) (result : Result) :
    Preserves OutOfBlocks (putAndReturn sb ip result : FsM c Result) :=
  (iput_lasting sb ip).bind fun _ => .pure _

theorem createFail_lasting (sb : Superblock) (ip dp : Nat) :
    Preserves OutOfBlocks (createFail sb ip dp : FsM c (Option Nat)) :=
  (setLinks_lasting sb ip _).bind fun _ => (iput_lasting sb ip).bind fun _ =>
    putAndReturn_lasting sb dp none

theorem createName_lasting (sb : Superblock) (type : UInt16) (ip dp : Nat) (name : Mem) :
    Preserves OutOfBlocks (createName sb type ip dp name : FsM c (Option Nat)) :=
  .get fun _ _ => (dirlink_lasting sb dp name _).bind fun _ => .ite (createFail_lasting sb ip dp)
    (.ite ((setLinks_lasting sb dp _).bind fun _ => putAndReturn_lasting sb dp _)
      (putAndReturn_lasting sb dp _))

theorem dot_whole (valid : sb.Valid) (building : Building sb s ip i dp d t)
    (isDir : (t.itable ip).type = tDir) (empty : (t.itable ip).size.toNat = 0) {off : UInt32}
    {u : FsState c} {inum : UInt32} (isInum : inum = (t.itable ip).inum)
    (start : off.toNat = 0)
    (writes : Writes sb ip i off.toNat (kernelSource (newEntry dot inum).put).byte t Dirent.bytes u)
    (enough : ¬ OutOfBlocks (u.save sb ip ((u.itable ip).grown off Dirent.bytes))) :
    let v := u.save sb ip ((u.itable ip).grown off Dirent.bytes)
    (dinode sb v.disk i).type = tDir ∧ WholeDir v.disk (dinode sb v.disk i) ∧
      ∀ k < (dinode sb v.disk i).size.toNat / Dirent.bytes,
        (dirEntry v.disk (dinode sb v.disk i) k).inum.toNat < sb.ninodes := by
  intro v
  have saved : Building sb s ip i dp d v := building.written valid writes
  have heldU := (building.inv.held building.own).stays writes.toStays
  have limit : off.toNat + Dirent.bytes ≤ maxFile * bsize := by
    rw [start]
    decide
  have entry : v.itable ip = (u.itable ip).grown off Dirent.bytes := FsState.save_entry _ _ _ _
  have node : dinode sb v.disk i = ((u.itable ip).grown off Dirent.bytes).toDinode := by
    rw [saved.inv.synced ip i saved.own, entry]
  have type : (dinode sb v.disk i).type = tDir := by
    rw [node, Inode.grown_type, writes.node]
    exact isDir
  have size : (dinode sb v.disk i).size.toNat = Dirent.bytes := by
    rw [node, Inode.grown_size _ limit, writes.node, start]
    change max (t.itable ip).size.toNat _ = _
    rw [empty]
    rfl
  have inside := saved.inv.consistent.inside saved.own
  have live : (dinode sb v.disk i).type ≠ 0 := by
    rw [type]
    decide
  have found : ∀ p < Dirent.bytes, u.blockOf sb i p ≠ 0 ∧
      u.byteAt sb i p = (newEntry dot inum).put.getD p 0 := by
    intro p below
    have wrote := writes.written
      (fun failed => enough (failed.outOfBlocks.mono (List.prefix_append _ _))) p
      (by omega) (by omega)
    rw [start] at wrote
    exact wrote
  have kept : DataKept sb (fun _ => True) u v :=
    dataKept_save valid writes.consistent heldU (by simp) (by simp) (by simp) (by simp) (by simp)
  refine ⟨type, ⟨?_, ?_⟩, ?_⟩
  · rw [size]
  · intro p below
    rw [size] at below
    have present : v.blockOf sb i p ≠ 0 := by
      rw [FsState.blockOf, kept.refs i _ trivial]
      exact (found p below).1
    have mapped := (saved.inv.held saved.own).mapped saved.inv.consistent present
    rwa [← saved.inv.synced ip i saved.own] at mapped
  · intro k inDir
    rw [size] at inDir
    have first : k = 0 := by
      have one : Dirent.bytes / Dirent.bytes = 1 := by decide
      omega
    have bytes : ∀ x < 2, nodeByte v.disk (dinode sb v.disk i) (Dirent.bytes * k + (0 + x)) =
        (Mem.bytes16 inum.toUInt16).getD x 0 := by
      intro x low
      have below : x < Dirent.bytes := Nat.lt_trans low (by decide)
      rw [first, Nat.mul_zero, Nat.zero_add, Nat.zero_add, ← saved.inv.byteAt_eq inside live,
        kept.bytes i x trivial (found x below).1, (found x below).2, Dirent.put,
        List.getD_append _ _ _ _ (by rw [Mem.length_bytes16]; exact low)]
      rfl
    have isNew : (dirEntry v.disk (dinode sb v.disk i) k).inum = inum.toUInt16 :=
      Mem.le16_of_bytes bytes
    rw [isNew, isInum, UInt32.toNat_toUInt16]
    exact Nat.lt_of_le_of_lt (Nat.mod_le _ _) (building.own.2.2.2 ▸ inside)

theorem createDots_unchanged (valid : sb.Valid) (site : Site sb s dp d)
    (building : Building sb s ip i dp d t) (free : (dinode sb s.disk i).type = 0)
    (isDir : (t.itable ip).type = tDir) (empty : (t.itable ip).size.toNat = 0) (name : Mem) :
    wp (createDots sb ip dp name) t
      (fun made u => made = none → ¬ OutOfBlocks u → Unchanged sb s u) fun _ _ => True := by
  have node := building.inv.synced ip i building.own
  have size : (dinode sb t.disk i).size.toNat = 0 := by
    rw [node]
    exact empty
  have fail : ∀ {u}, Building sb s ip i dp d u → wp (createFail sb ip dp) u
      (fun made v => made = none → ¬ OutOfBlocks v → Unchanged sb s v) fun _ _ => True :=
    fun building => wp_mono (createFail_unchanged valid site building free)
      (fun _ _ unchanged _ _ => unchanged) fun _ _ stopped => stopped
  unfold createDots
  rw [wp_bind, wp_get, wp_bind]
  refine wp_dirlink valid (Opens.refl building.inv) building.own (by rw [node]; exact isDir)
    ⟨by rw [size]; exact Nat.dvd_zero _, ?_⟩ ?_ ?_ ?_
  · intro p below
    rw [size] at below
    exact absurd below (Nat.not_lt_zero p)
  · intro k inDir
    rw [size, Nat.zero_div] at inDir
    exact absurd inDir (Nat.not_lt_zero k)
  · intro u opens keeps
    rw [wp_ite, if_pos (by decide)]
    exact fail (building.opens opens keeps)
  · intro off u low _ writes
    rw [size] at low
    have start : off.toNat = 0 := Nat.le_zero.mp low
    have saved := building.written valid writes
    rw [wp_ite, if_neg (by decide)]
    by_cases out : OutOfBlocks (u.save sb ip ((u.itable ip).grown off Dirent.bytes))
    · -- nothing is claimed once a `balloc` failed
      have rest : Preserves OutOfBlocks (do
          let s ← get
          let parent ← dirlink sb ip dotDot (s.itable dp).inum
          if parent < 0 then createFail sb ip dp else createName sb tDir ip dp name :
            FsM c (Option Nat)) :=
        .get fun _ _ => (dirlink_lasting sb ip dotDot _).bind fun _ =>
          .ite (createFail_lasting sb ip dp) (createName_lasting sb tDir ip dp name)
      exact wp_mono (rest _ out) (fun _ _ still _ enough => absurd still enough)
        fun _ _ _ => trivial
    · obtain ⟨type, whole, inside⟩ :=
        dot_whole valid building isDir empty rfl start writes out
      rw [wp_bind, wp_get, wp_bind]
      refine wp_dirlink valid (Opens.refl saved.inv) saved.own type whole inside ?_ ?_
      · intro v opens keeps
        rw [wp_ite, if_pos (by decide)]
        exact fail (saved.opens opens keeps)
      · intro off' v _ _ writes'
        rw [wp_ite, if_neg (by decide)]
        exact wp_mono (createName_unchanged valid site (saved.written valid writes') free tDir name)
          (fun _ _ unchanged isNone _ => unchanged isNone) fun _ _ stopped => stopped

theorem building_start (valid : sb.Valid) (site : Site sb s dp d) {type : UInt16}
    (inside : i < sb.ninodes) (free : (dinode sb s.disk i).type = 0) {v u w : FsState c}
    (disk : v.disk = putDinode sb s.disk i { Dinode.zero with type := type })
    (table : v.itable = s.itable) (got : Got sb v (refCount v.itable) v ip i u)
    (opens : Opens sb v (refCount v.itable + Pi.single i 1) w) (own : Loaded w.itable ip i)
    (keeps : Keeps (refCount v.itable + Pi.single i 1) u w) : Building sb s ip i dp d w := by
  have others : ∀ j ≠ i, dinode sb w.disk j = dinode sb s.disk j := by
    intro j other
    rw [opens.disk, disk, dinode_putDinode_other _ _ other]
  have parent : Loaded w.itable dp d := by
    have held : 0 < refCount v.itable d := by
      rw [table]
      exact site.parent.inUse.refCount_pos site.inv.consistent.one
    refine ((got.keeps.trans keeps).fewer dp d held).2 ?_
    rw [table]
    exact site.parent
  refine ⟨opens.inv, dataKept_of_blocks site.inv opens.inv (fun j _ other => others j other) ?_,
    fun j _ other => others j other, own, parent, ?_, ?_⟩
  · intro b isData
    rw [opens.disk, disk, putDinode_data valid inside _ _ isData]
  · rw [opens.counts, table]
  · rintro rfl
    have isDir := site.isDir
    rw [free] at isDir
    exact absurd isDir (by decide)

/-- The part of `create` where the name is new. -/
theorem createAbsent_unchanged (valid : sb.Valid) (site : Site sb s dp d) {type : UInt16}
    (typed : type ≠ 0) (major minor : UInt16) (name : Mem) :
    wp (createAbsent sb type major minor dp name) s
      (fun made u => made = none → ¬ OutOfBlocks u → Unchanged sb s u) fun _ _ => True := by
  unfold createAbsent ialloc
  rw [wp_bind]
  refine wp_mono (wp_ialloc valid site.inv 1) ?_ fun _ _ stopped => stopped
  rintro _ u (⟨rfl, rfl⟩ | ⟨ip, i, v, rfl, inside, free, disk, table, inv, got⟩)
  · obtain ⟨refs, counts, stays⟩ := site.stays
    have opens : Opens sb u (refs + Pi.single d 1) u := counts ▸ Opens.refl site.inv
    change wp (iput sb dp >>= fun _ => pure none) u _ _
    rw [wp_bind]
    refine wp_mono (wp_iput opens site.parent.inUse (stays.imp id .inl)) ?_ fun _ _ absurd =>
      absurd.elim
    exact fun _ w after _ _ => unchanged_of_disk after.1.disk
  · have new : dinode sb v.disk i = { Dinode.zero with type := type } := by
      rw [disk, dinode_putDinode]
    change wp (createInode sb type major minor ip dp name) u _ _
    unfold createInode
    rw [wp_bind]
    refine wp_mono (wp_ilock got.opens got.inUse (by rw [new]; exact typed)) ?_
      fun _ _ absurd => absurd.elim
    rintro _ w ⟨opens, own, keeps⟩
    have building := building_start valid site inside free disk table got opens own keeps
    have node := (opens.node own).trans new
    have saved := @Building.save c sb s w ip i dp d building valid
      { w.itable ip with major := major, minor := minor, nlink := 1 } rfl rfl rfl rfl rfl
    have entry := FsState.save_entry sb w ip
      { w.itable ip with major := major, minor := minor, nlink := 1 }
    simp only [wp_bind]
    refine (wp_modifyInode_iupdate sb w ip _ _ _).mpr ?_
    rw [wp_ite]
    split_ifs with isDir
    · refine createDots_unchanged valid site saved free ?_ ?_ name
      · rw [entry]
        exact (congrArg Dinode.type node).trans isDir
      · rw [entry]
        exact congrArg (fun node => node.size.toNat) node
    · exact wp_mono (createName_unchanged valid site saved free type name)
        (fun _ _ unchanged isNone _ => unchanged isNone) fun _ _ stopped => stopped

end Create

end Xv6.Kernel.Fs
