import Xv6.Kernel.Fs.Path
import Xv6.Kernel.Fs.Table

/-!
References to inodes.

Owns: how many references the inode table holds to each inode, and what `iget`,
`idup`, `ilock`, `dirlookup` and an `iput` that frees nothing do to these numbers.
None of them changes anything but the table.

Does not own: the freeing branch of `iput`.
-/

namespace Xv6.Kernel.Fs

open Xv6.Lib Function

variable {c : Codec}

/-- Table entry `ip` is in use for inode `i`. -/
def InUse (itable : Nat → Inode) (ip i : Nat) : Prop :=
  ip < nInode ∧ 0 < (itable ip).ref ∧ (itable ip).inum.toNat = i

/-- The references to inode `i`. -/
def refCount (itable : Nat → Inode) (i : Nat) : Nat :=
  ∑ ip ∈ Finset.range nInode, if (itable ip).inum.toNat = i then (itable ip).ref else 0

section Count

variable {itable : Nat → Inode} {ip i : Nat}

theorem Loaded.inUse (loaded : Loaded itable ip i) : InUse itable ip i :=
  ⟨loaded.1, loaded.2.1, loaded.2.2.2⟩

/-- A new value of one entry counts in place of the old one. -/
theorem refCount_update (bound : ip < nInode) (node : Inode) (i : Nat) :
    refCount (update itable ip node) i +
        (if (itable ip).inum.toNat = i then (itable ip).ref else 0) =
      refCount itable i + if node.inum.toNat = i then node.ref else 0 := by
  have member : ip ∈ Finset.range nInode := Finset.mem_range.mpr bound
  have others : ∀ p ∈ (Finset.range nInode).erase ip,
      (if (update itable ip node p).inum.toNat = i then
        (update itable ip node p).ref else 0) =
      if (itable p).inum.toNat = i then (itable p).ref else 0 := by
    intro p isOther
    rw [update_of_ne (Finset.ne_of_mem_erase isOther)]
  rw [refCount, refCount, ← Finset.add_sum_erase _ _ member, ← Finset.add_sum_erase _ _ member,
    Finset.sum_congr rfl others, update_self]
  omega

theorem refCount_congr {itable' : Nat → Inode} (inum : ∀ p, (itable' p).inum = (itable p).inum)
    (ref : ∀ p, (itable' p).ref = (itable p).ref) : refCount itable' = refCount itable := by
  funext i
  simp only [refCount, inum, ref]

/-- The entry in use for an inode has all its references. -/
theorem InUse.refCount_eq (inUse : InUse itable ip i) (one : OneEntry itable) :
    refCount itable i = (itable ip).ref := by
  rw [refCount, Finset.sum_eq_single ip]
  · rw [if_pos inUse.2.2]
  · intro p member other
    split_ifs with same
    · by_contra held
      have number : (itable p).inum = (itable ip).inum :=
        UInt32.toNat_inj.mp (same.trans inUse.2.2.symm)
      exact other (one p (Finset.mem_range.mp member) ip inUse.1 (Nat.pos_of_ne_zero held) inUse.2.1
        number)
    · rfl
  · exact fun absent => absurd (Finset.mem_range.mpr inUse.1) absent

theorem InUse.refCount_pos (inUse : InUse itable ip i) (one : OneEntry itable) :
    0 < refCount itable i := by
  rw [inUse.refCount_eq one]
  exact inUse.2.1

theorem exists_inUse (positive : 0 < refCount itable i) : ∃ ip, InUse itable ip i := by
  obtain ⟨ip, member, present⟩ := Finset.exists_ne_zero_of_sum_ne_zero (Nat.ne_of_gt positive)
  by_cases number : (itable ip).inum.toNat = i
  · rw [if_pos number] at present
    exact ⟨ip, Finset.mem_range.mp member, Nat.pos_of_ne_zero present, number⟩
  · exact absurd (if_neg number) present

end Count

/-! ### States that differ in the table only -/

/-- A state that differs from `s` in the inode table only, in which there are
`refs i` references to inode `i`. -/
structure Opens (sb : Superblock) (s : FsState c) (refs : Nat → Nat) (t : FsState c) : Prop where
  rest : t = { s with itable := t.itable }
  inv : FsInv sb t
  counts : refCount t.itable = refs

/-- Entries stay in use for inodes to which there are still references. -/
def Keeps (refs : Nat → Nat) (t u : FsState c) : Prop :=
  ∀ p i, 0 < refs i → (InUse t.itable p i → InUse u.itable p i) ∧
    (Loaded t.itable p i → Loaded u.itable p i)

section Opens

variable {sb : Superblock} {s t u : FsState c} {refs : Nat → Nat} {ip i : Nat}

theorem Opens.refl (inv : FsInv sb s) : Opens sb s (refCount s.itable) s := ⟨rfl, inv, rfl⟩

theorem Opens.disk (opens : Opens sb s refs t) : t.disk = s.disk := by rw [opens.rest]

/-- A loaded entry holds the inode on disk. -/
theorem Opens.node (opens : Opens sb s refs t) (loaded : Loaded t.itable ip i) :
    (t.itable ip).toDinode = dinode sb s.disk i := by
  rw [← opens.disk]
  exact (opens.inv.synced ip i loaded).symm

theorem Keeps.refl (refs : Nat → Nat) (t : FsState c) : Keeps refs t t :=
  fun _ _ _ => ⟨fun inUse => inUse, fun loaded => loaded⟩

theorem Keeps.trans {v : FsState c} (first : Keeps refs t u) (second : Keeps refs u v) :
    Keeps refs t v := by
  intro p i held
  obtain ⟨inUse, loaded⟩ := first p i held
  obtain ⟨inUse', loaded'⟩ := second p i held
  exact ⟨fun before => inUse' (inUse before), fun before => loaded' (loaded before)⟩

theorem Keeps.fewer {refs' : Nat → Nat} (keeps : Keeps (refs + refs') t u) : Keeps refs t u :=
  fun p i held => keeps p i (Nat.lt_of_lt_of_le held (Nat.le_add_right _ _))

/-- The state with a new value of one table entry. -/
def FsState.setEntry (t : FsState c) (ip : Nat) (node : Inode) : FsState c :=
  { t with itable := update t.itable ip node }

theorem Opens.setEntry (opens : Opens sb s refs t) (bound : ip < nInode) {node : Inode}
    (inv : FsInv sb (t.setEntry ip node)) {refs' : Nat → Nat}
    (counts : ∀ j, refs' j + (if (t.itable ip).inum.toNat = j then (t.itable ip).ref else 0) =
      refs j + if node.inum.toNat = j then node.ref else 0) :
    Opens sb s refs' (t.setEntry ip node) := by
  refine ⟨?_, inv, ?_⟩
  · have rest := opens.rest
    generalize t.itable = table at rest
    subst rest
    rfl
  · funext j
    have counted := @refCount_update t.itable ip bound node j
    have wanted := counts j
    rw [opens.counts] at counted
    change refCount (update t.itable ip node) j = refs' j
    omega

theorem keeps_setEntry {node : Inode} (kept : ∀ j, 0 < refs j → (t.itable ip).inum.toNat = j →
      0 < (t.itable ip).ref → 0 < node.ref ∧ node.inum = (t.itable ip).inum ∧
        ((t.itable ip).valid = true → node.valid = true)) :
    Keeps refs t (t.setEntry ip node) := by
  intro p j positive
  by_cases same : p = ip
  · subst same
    have entry : (t.setEntry p node).itable p = node := update_self _ _ _
    refine ⟨?_, ?_⟩
    · rintro ⟨bound, held, isJ⟩
      obtain ⟨stillHeld, number, _⟩ := kept j positive isJ held
      rw [InUse, entry, number]
      exact ⟨bound, stillHeld, isJ⟩
    · rintro ⟨bound, held, isValid, isJ⟩
      obtain ⟨stillHeld, number, stillValid⟩ := kept j positive isJ held
      rw [Loaded, entry, number]
      exact ⟨bound, stillHeld, stillValid isValid, isJ⟩
  · have entry : (t.setEntry ip node).itable p = t.itable p := update_of_ne same _ _
    simp only [InUse, Loaded, entry]
    exact ⟨fun inUse => inUse, fun loaded => loaded⟩

theorem FsInv.setRef (inv : FsInv sb t) (bound : ip < nInode) (held : 0 < (t.itable ip).ref)
    (ref : Nat) : FsInv sb (t.setEntry ip { t.itable ip with ref := ref }) := by
  have good : GoodEntry sb t ip { t.itable ip with ref := ref } :=
    goodEntry_of_held inv bound held rfl fun _ isValid =>
      inv.synced _ _ ⟨bound, held, isValid, rfl⟩
  exact good.inv inv fun _ isValid => inv.live _ _ ⟨bound, held, isValid, rfl⟩

/-- `idup` adds a reference. -/
theorem wp_idup (opens : Opens sb s refs t) (inUse : InUse t.itable ip i)
    {stop : Stop → FsState c → Prop} :
    wp (idup ip) t (fun ip' u => ip' = ip ∧ Opens sb s (refs + Pi.single i 1) u ∧
      InUse u.itable ip i ∧ Keeps (refs + Pi.single i 1) t u) stop := by
  obtain ⟨bound, held, number⟩ := inUse
  have keeps : Keeps (refs + Pi.single i 1) t
      (t.setEntry ip { t.itable ip with ref := (t.itable ip).ref + 1 }) :=
    keeps_setEntry fun _ _ _ _ => ⟨Nat.succ_pos _, rfl, fun isValid => isValid⟩
  unfold idup modifyInode
  rw [wp_bind, wp_modify, wp_pure]
  refine ⟨rfl, ?_, (keeps ip i (by simp)).1 ⟨bound, held, number⟩, keeps⟩
  refine opens.setEntry bound (opens.inv.setRef bound held _) fun j => ?_
  rw [Pi.add_apply, Pi.single_apply, number]
  dsimp only
  split_ifs <;> omega

/-- The entry `ip` is in use for inode `i`, with one reference more than there were;
without any other it is not valid. -/
structure Got (sb : Superblock) (s : FsState c) (refs : Nat → Nat) (t : FsState c) (ip i : Nat)
    (u : FsState c) : Prop where
  opens : Opens sb s (refs + Pi.single i 1) u
  inUse : InUse u.itable ip i
  keeps : Keeps (refs + Pi.single i 1) t u
  fresh : 0 < refs i ∨ (u.itable ip).valid = false

/-- `iget` adds a reference, or finds every entry in use. -/
theorem wp_iget (opens : Opens sb s refs t) {inum : UInt32} (inside : inum.toNat < sb.ninodes) :
    wp (iget inum) t (fun ip u => Got sb s refs t ip inum.toNat u)
      fun reason _ => reason = .panic .igetNoInodes ∧ ∀ p < nInode, 0 < (t.itable p).ref := by
  refine wp_mono (wp_inter (iget_inv opens.inv inside)
    (?_ : wp (iget inum) t (fun ip u => FsInv sb u → Got sb s refs t ip inum.toNat u)
      fun reason _ => reason = .panic .igetNoInodes ∧ ∀ p < nInode, 0 < (t.itable p).ref))
    (fun _ _ both => both.2 both.1) fun _ _ both => both.2
  unfold iget
  rw [wp_bind, wp_get]
  cases search : igetSlot t.itable inum with
  | none =>
    refine ⟨rfl, fun p bound => ?_⟩
    rw [igetSlot, Option.or_eq_none_iff] at search
    have notZero := List.find?_eq_none.mp search.2 p (List.mem_range.mpr bound)
    rw [decide_eq_true_iff] at notZero
    exact Nat.pos_of_ne_zero notZero
  | some ip =>
    obtain ⟨bound, slot⟩ := igetSlot_spec search
    rcases slot with ⟨held, number⟩ | ⟨unused, absent⟩
    · -- what `idup` does
      have isI : InUse t.itable ip inum.toNat := ⟨bound, held, congrArg UInt32.toNat number⟩
      have counted := @wp_idup c sb s t refs ip inum.toNat opens isI fun _ _ => False
      unfold idup at counted
      simp only [if_pos held, wp_bind, wp_pure] at counted ⊢
      refine wp_mono counted ?_ fun _ _ absurd => absurd.elim
      rintro _ u ⟨_, opensU, inUse, keeps⟩ _
      refine ⟨opensU, inUse, keeps, .inl ?_⟩
      rw [← opens.counts]
      exact isI.refCount_pos opens.inv.consistent.one
    · have notHeld : ¬ 0 < (t.itable ip).ref := by omega
      simp only [if_neg notHeld, modifyInode, wp_bind, wp_modify, wp_pure]
      intro inv
      refine ⟨opens.setEntry bound inv fun j => ?_, ⟨bound, by simp, by simp⟩, ?_, .inr ?_⟩
      · rw [Pi.add_apply, Pi.single_apply, unused]
        dsimp only
        split_ifs <;> omega
      · exact keeps_setEntry fun _ _ _ held => absurd held notHeld
      · simp

/-- `ilock` of an allocated inode loads it. -/
theorem wp_ilock (opens : Opens sb s refs t) (inUse : InUse t.itable ip i)
    (live : (dinode sb s.disk i).type ≠ 0) :
    wp (ilock sb ip) t (fun _ u => Opens sb s refs u ∧ Loaded u.itable ip i ∧ Keeps refs t u)
      fun _ _ => False := by
  obtain ⟨bound, held, number⟩ := inUse
  by_cases notValid : (t.itable ip).valid = false
  · have good : GoodEntry sb t ip { t.itable ip with
        toDinode := dinode sb t.disk (t.itable ip).inum.toNat, valid := true } :=
      goodEntry_of_held opens.inv bound held rfl fun _ _ => rfl
    have isLive : (dinode sb t.disk (t.itable ip).inum.toNat).type ≠ 0 := by
      rw [number, opens.disk]
      exact live
    rw [ilock_load held notValid, if_neg isLive]
    refine ⟨?_, ⟨bound, ?_, ?_, ?_⟩, ?_⟩
    · exact opens.setEntry bound (good.inv opens.inv fun _ _ => isLive) fun _ => rfl
    · simpa using held
    · simp
    · simpa using number
    · exact keeps_setEntry fun _ _ _ held => ⟨held, rfl, fun _ => rfl⟩
  · have counted : ¬ (t.itable ip).ref < 1 := by omega
    have isValid : (t.itable ip).valid = true := by simpa using notValid
    unfold ilock
    simp only [wp_bind, wp_get, wp_ite]
    rw [if_neg counted, if_neg notValid]
    exact ⟨opens, ⟨bound, held, isValid, number⟩, Keeps.refl refs t⟩

/-- `iput` gives a reference back; the inode stays if it has a link or another
reference, or was not looked at. -/
theorem wp_iput (opens : Opens sb s (refs + Pi.single i 1) t) (inUse : InUse t.itable ip i)
    (stays : (dinode sb s.disk i).nlink ≠ 0 ∨ 0 < refs i ∨ (t.itable ip).valid = false) :
    wp (iput sb ip) t (fun _ u => Opens sb s refs u ∧ Keeps refs t u) fun _ _ => False := by
  have all := inUse.refCount_eq opens.inv.consistent.one
  rw [opens.counts, Pi.add_apply, Pi.single_eq_same] at all
  obtain ⟨bound, held, number⟩ := inUse
  have notLast : ¬ (t.itable ip).lastUnlinked := by
    rintro ⟨last, isValid, unlinked⟩
    have loaded : Loaded t.itable ip i := ⟨bound, held, isValid, number⟩
    rcases stays with linked | others | notValid
    · rw [← opens.node loaded] at linked
      exact linked unlinked
    · omega
    · rw [isValid] at notValid
      exact Bool.noConfusion notValid
  unfold iput
  rw [wp_bind, wp_get, wp_ite, if_neg notLast, modifyInode, wp_modify]
  refine ⟨opens.setEntry bound (opens.inv.setRef bound held _) fun j => ?_, keeps_setEntry ?_⟩
  · rw [Pi.add_apply, Pi.single_apply, number]
    dsimp only
    split_ifs <;> omega
  · -- still in use: there is another reference
    intro j positive isJ _
    have same : i = j := number.symm.trans isJ
    subst same
    refine ⟨?_, rfl, fun isValid => isValid⟩
    dsimp only
    omega

end Opens

/-! ### Directories on disk -/

/-- A directory is a whole number of entries, and all its blocks are there. -/
structure WholeDir (disk : Disk) (node : Dinode) : Prop where
  size : Dirent.bytes ∣ node.size.toNat
  mapped : ∀ p < node.size.toNat, Mapped disk node (p / bsize)

/-- The index of the first entry in use with this name. -/
def entryIndex (disk : Disk) (node : Dinode) (name : List UInt8) : Option Nat :=
  (List.range (node.size.toNat / Dirent.bytes)).find? fun k =>
    (dirEntry disk node k).inum ≠ 0 ∧ name = nameOf (dirEntry disk node k).string

/-- The inode number that a directory has for this name. -/
def entryFor (disk : Disk) (node : Dinode) (name : List UInt8) : Option Nat :=
  (entryIndex disk node name).map fun k => (dirEntry disk node k).inum.toNat

section Lookup

variable {sb : Superblock} {s t : FsState c} {refs : Nat → Nat} {dp d : Nat} {name : Mem}

theorem matches_iff (disk : Disk) (node : Dinode) (name : Mem) (k : Nat) :
    Matches disk node name k ↔
      (dirEntry disk node k).inum ≠ 0 ∧ nameOf name = nameOf (dirEntry disk node k).string := by
  rw [Matches, namecmp_eq_zero_iff]

/-- The entries of a loaded directory are those on disk. -/
theorem WholeDir.hasEntries (whole : WholeDir s.disk (dinode sb s.disk d))
    (opens : Opens sb s refs t) (loaded : Loaded t.itable dp d)
    (isDir : (dinode sb s.disk d).type = tDir) :
    HasEntries t dp ((dinode sb s.disk d).size.toNat / Dirent.bytes) := by
  have node := opens.node loaded
  have size : (t.itable dp).size = (dinode sb s.disk d).size := congrArg Dinode.size node
  have all := Nat.mul_div_cancel' whole.size
  refine ⟨?_, ?_, ?_⟩
  · rw [← isDir]
    exact congrArg Dinode.type node
  · rw [all, size]
  · intro p below
    rw [all] at below
    rw [opens.disk, node]
    exact whole.mapped p below

/-- `dirlookup` adds a reference to the inode of the entry it finds. -/
theorem wp_dirlookup (opens : Opens sb s refs t) (loaded : Loaded t.itable dp d)
    (isDir : (dinode sb s.disk d).type = tDir) (whole : WholeDir s.disk (dinode sb s.disk d))
    (inside : ∀ k < (dinode sb s.disk d).size.toNat / Dirent.bytes,
      (dirEntry s.disk (dinode sb s.disk d) k).inum.toNat < sb.ninodes) :
    wp (dirlookup sb dp name) t
      (fun found u => (entryIndex s.disk (dinode sb s.disk d) (nameOf name) = none ∧
          found = none ∧ u = t) ∨
        ∃ k ip i, entryIndex s.disk (dinode sb s.disk d) (nameOf name) = some k ∧
          (dirEntry s.disk (dinode sb s.disk d) k).inum.toNat = i ∧
          found = some (ip, Dirent.bytes * k) ∧ Got sb s refs t ip i u)
      fun reason _ => reason = .panic .igetNoInodes ∧ ∀ p < nInode, 0 < (t.itable p).ref := by
  have entries := whole.hasEntries opens loaded isDir
  have node := opens.node loaded
  have size : (t.itable dp).size = (dinode sb s.disk d).size := congrArg Dinode.size node
  have same : ∀ k, dirEntry t.disk (t.itable dp).toDinode k =
      dirEntry s.disk (dinode sb s.disk d) k := by
    intro k
    rw [opens.disk, node]
  cases search : entryIndex s.disk (dinode sb s.disk d) (nameOf name) with
  | none =>
    refine dirlookup_missing entries ?_ ?_ (.inl ⟨rfl, rfl, rfl⟩)
    · rw [size, Nat.mul_div_cancel' whole.size]
    · intro k inDir found
      rw [matches_iff, same] at found
      have absent := List.find?_eq_none.mp search k (List.mem_range.mpr inDir)
      rw [decide_eq_true_iff] at absent
      exact absent found
  | some k =>
    rw [entryIndex, List.find?_range_eq_some] at search
    obtain ⟨isMatch, member, before⟩ := search
    rw [decide_eq_true_iff] at isMatch
    have inDir := List.mem_range.mp member
    have upTo : HasEntries t dp (k + 1) := by
      refine ⟨entries.isDir, ?_, fun p below => ?_⟩
      · exact Nat.le_trans (Nat.mul_le_mul_left _ inDir) entries.size
      · exact entries.mapped p (Nat.lt_of_lt_of_le below (Nat.mul_le_mul_left _ inDir))
    refine dirlookup_found upTo ?_ ?_ ?_
    · intro j earlier found
      rw [matches_iff, same] at found
      have absent := before j earlier
      simp only [Bool.not_eq_true', decide_eq_false_iff_not] at absent
      exact absent found
    · rw [matches_iff, same]
      exact isMatch
    · rw [same]
      have number : (dirEntry s.disk (dinode sb s.disk d) k).inum.toUInt32.toNat =
          (dirEntry s.disk (dinode sb s.disk d) k).inum.toNat := UInt16.toNat_toUInt32 _
      refine wp_mono (wp_iget opens (number.symm ▸ inside k inDir)) ?_ fun _ _ full => full
      intro ip u after
      rw [number] at after
      exact .inr ⟨k, ip, _, rfl, rfl, rfl, after⟩

end Lookup

end Xv6.Kernel.Fs
