import Xv6.Kernel.Fs.Namex
import Xv6.Kernel.Fs.Sysfile

/-!
What a call leaves alone.

Owns: when the data of some inodes are the same in two states, when two file
systems are the same but for what free inodes hold, and the ways `dirlink` ends: the
name exists, the directory can grow no more, or the entry is written.

Does not own: the entry that `dirlink` writes.
-/

namespace Xv6.Kernel.Fs

open Xv6.Lib

variable {c : Codec}

/-! ### The data of inodes -/

/-- The inodes `which` have the same blocks and the same bytes in them. -/
structure DataKept (sb : Superblock) (which : Nat → Prop) (s t : FsState c) : Prop where
  refs : ∀ j k, which j → t.refs sb (j, k) = s.refs sb (j, k)
  bytes : ∀ j p, which j → s.blockOf sb j p ≠ 0 → t.byteAt sb j p = s.byteAt sb j p

section DataKept

variable {sb : Superblock} {which : Nat → Prop} {s t u : FsState c} {ip i : Nat}

theorem DataKept.trans (first : DataKept sb which s t) (second : DataKept sb which t u) :
    DataKept sb which s u where
  refs := fun j k member => (second.refs j k member).trans (first.refs j k member)
  bytes := by
    intro j p member present
    have still : t.blockOf sb j p ≠ 0 := by
      rw [FsState.blockOf, first.refs j _ member]
      exact present
    rw [second.bytes j p member still, first.bytes j p member present]

theorem DataKept.mono {fewer : Nat → Prop} (kept : DataKept sb which s t)
    (subset : ∀ j, fewer j → which j) : DataKept sb fewer s t where
  refs := fun j k member => kept.refs j k (subset j member)
  bytes := fun j p member => kept.bytes j p (subset j member)

/-- States with the same disk have the same data. -/
theorem dataKept_of_disk (inv : FsInv sb s) (invT : FsInv sb t) (disk : t.disk = s.disk) :
    DataKept sb which s t := by
  have refs : t.refs sb = s.refs sb := by rw [inv.refs_eq, invT.refs_eq, disk]
  refine ⟨fun j k _ => congrFun refs _, fun j p _ _ => ?_⟩
  rw [FsState.byteAt, FsState.byteAt, FsState.blockOf, FsState.blockOf, refs, disk]

/-- Saving an inode with the same type and blocks. -/
theorem dataKept_save (valid : sb.Valid) (consistent : Consistent sb s) (held : Held s ip i)
    {node : Inode} (inum : node.inum = (s.itable ip).inum) (ref : node.ref = (s.itable ip).ref)
    (isValid : node.valid = (s.itable ip).valid) (type : node.type = (s.itable ip).type)
    (addrs : node.addrs = (s.itable ip).addrs) : DataKept sb which s (s.save sb ip node) where
  refs := fun j k _ =>
    congrFun (save_refs valid consistent held inum ref isValid type addrs) (j, k)
  bytes := fun _ _ _ present =>
    save_byteAt valid consistent held inum ref isValid type addrs present

/-- The block of a byte, by the inode on disk. -/
theorem FsInv.blockOf_eq (inv : FsInv sb s) (inside : i < sb.ninodes)
    (live : (dinode sb s.disk i).type ≠ 0) (p : Nat) :
    s.blockOf sb i p = nodeRef s.disk (dinode sb s.disk i) (dataSlot (p / bsize)) := by
  rw [FsState.blockOf, inv.refs_eq, diskRefs, if_pos ⟨inside, live⟩]

theorem FsInv.byteAt_eq (inv : FsInv sb s) (inside : i < sb.ninodes)
    (live : (dinode sb s.disk i).type ≠ 0) (p : Nat) :
    s.byteAt sb i p = nodeByte s.disk (dinode sb s.disk i) p := by
  rw [FsState.byteAt, inv.blockOf_eq inside live, nodeByte]

theorem DataKept.nodeByte_eq (kept : DataKept sb which s t) (inv : FsInv sb s) (invT : FsInv sb t)
    (member : which i) (inside : i < sb.ninodes) (live : (dinode sb s.disk i).type ≠ 0)
    (liveT : (dinode sb t.disk i).type ≠ 0) {p : Nat}
    (mapped : Mapped s.disk (dinode sb s.disk i) (p / bsize)) :
    nodeByte t.disk (dinode sb t.disk i) p = nodeByte s.disk (dinode sb s.disk i) p := by
  rw [← invT.byteAt_eq inside liveT, ← inv.byteAt_eq inside live]
  refine kept.bytes i p member ?_
  rw [inv.blockOf_eq inside live]
  exact mapped.2

theorem DataKept.mapped (kept : DataKept sb which s t) (inv : FsInv sb s) (invT : FsInv sb t)
    (member : which i) (inside : i < sb.ninodes) (live : (dinode sb s.disk i).type ≠ 0)
    (liveT : (dinode sb t.disk i).type ≠ 0) {p : Nat}
    (mapped : Mapped s.disk (dinode sb s.disk i) (p / bsize)) :
    Mapped t.disk (dinode sb t.disk i) (p / bsize) := by
  refine ⟨mapped.1, ?_⟩
  rw [← invT.blockOf_eq inside liveT, FsState.blockOf, kept.refs i _ member]
  have block := inv.blockOf_eq inside live p
  rw [FsState.blockOf] at block
  rw [block]
  exact mapped.2

/-- A directory that is kept with its data has the same entries. -/
theorem DataKept.directory (kept : DataKept sb which s t) (inv : FsInv sb s) (invT : FsInv sb t)
    (member : which i) (inside : i < sb.ninodes) (isDir : (dinode sb s.disk i).type = tDir)
    (same : dinode sb t.disk i = dinode sb s.disk i)
    (whole : WholeDir s.disk (dinode sb s.disk i)) :
    WholeDir t.disk (dinode sb t.disk i) ∧
      ∀ k < (dinode sb t.disk i).size.toNat / Dirent.bytes,
        dirEntry t.disk (dinode sb t.disk i) k = dirEntry s.disk (dinode sb s.disk i) k := by
  have live : (dinode sb s.disk i).type ≠ 0 := by
    rw [isDir]
    decide
  have liveT : (dinode sb t.disk i).type ≠ 0 := same ▸ live
  refine ⟨⟨by rw [same]; exact whole.size, fun p below => ?_⟩, fun k inDir => ?_⟩
  · rw [same] at below
    exact kept.mapped inv invT member inside live liveT (whole.mapped p below)
  · rw [same] at inDir
    refine Dirent.get_congr fun x inEntry => ?_
    refine kept.nodeByte_eq inv invT member inside live liveT (whole.mapped _ ?_)
    have all := Nat.div_mul_le_self (dinode sb s.disk i).size.toNat Dirent.bytes
    have next := Nat.mul_le_mul_right Dirent.bytes (Nat.succ_le_of_lt inDir)
    rw [Nat.succ_mul] at next
    rw [Nat.mul_comm Dirent.bytes k]
    omega

end DataKept

/-! ### The same file system -/

/-- The same inodes are allocated, with the same records and the same bytes, and
the bitmap is the same. -/
structure Unchanged (sb : Superblock) (s t : FsState c) : Prop where
  allocated : ∀ i < sb.ninodes, (dinode sb t.disk i).type = 0 ↔ (dinode sb s.disk i).type = 0
  inodes : ∀ i < sb.ninodes, (dinode sb s.disk i).type ≠ 0 →
    dinode sb t.disk i = dinode sb s.disk i
  bytes : ∀ i < sb.ninodes, (dinode sb s.disk i).type ≠ 0 →
    ∀ p < (dinode sb s.disk i).size.toNat,
      nodeByte t.disk (dinode sb t.disk i) p = nodeByte s.disk (dinode sb s.disk i) p
  bitmap : ∀ b < sb.size, marked sb t.disk b = marked sb s.disk b

/-- Every block below the size of an allocated inode is there. -/
def WithoutHoles (sb : Superblock) (disk : Disk) : Prop :=
  ∀ i < sb.ninodes, (dinode sb disk i).type ≠ 0 →
    ∀ p < (dinode sb disk i).size.toNat, Mapped disk (dinode sb disk i) (p / bsize)

section Unchanged

variable {sb : Superblock} {s t : FsState c}

theorem unchanged_of_disk (disk : t.disk = s.disk) : Unchanged sb s t := by
  refine ⟨?_, ?_, ?_, ?_⟩ <;> simp [disk]

theorem Unchanged.same_disk {u : FsState c} (unchanged : Unchanged sb s t)
    (disk : u.disk = t.disk) :
    Unchanged sb s u := by
  refine ⟨?_, ?_, ?_, ?_⟩ <;> rw [disk]
  · exact unchanged.allocated
  · exact unchanged.inodes
  · exact unchanged.bytes
  · exact unchanged.bitmap

theorem Unchanged.from_disk {u : FsState c} (unchanged : Unchanged sb t u)
    (disk : t.disk = s.disk) :
    Unchanged sb s u := by
  refine ⟨?_, ?_, ?_, ?_⟩ <;> rw [← disk]
  · exact unchanged.allocated
  · exact unchanged.inodes
  · exact unchanged.bytes
  · exact unchanged.bitmap

/-- The bitmap is determined by the references of the inodes. -/
theorem unchanged_of_data (inv : FsInv sb s) (invT : FsInv sb t) (whole : WithoutHoles sb s.disk)
    (allocated : ∀ i < sb.ninodes, (dinode sb s.disk i).type = 0 → (dinode sb t.disk i).type = 0)
    (inodes : ∀ i < sb.ninodes, (dinode sb s.disk i).type ≠ 0 →
      dinode sb t.disk i = dinode sb s.disk i)
    (data : DataKept sb (fun i => i < sb.ninodes ∧ (dinode sb s.disk i).type ≠ 0) s t) :
    Unchanged sb s t := by
  have refs : t.refs sb = s.refs sb := by
    funext slot
    obtain ⟨i, k⟩ := slot
    by_cases live : i < sb.ninodes ∧ (dinode sb s.disk i).type ≠ 0
    · exact data.refs i k live
    · rw [inv.refs_eq, invT.refs_eq, diskRefs, diskRefs, if_neg live, if_neg]
      rintro ⟨inside, liveT⟩
      refine live ⟨inside, fun free => liveT (allocated i inside free)⟩
  refine ⟨fun i inside => ⟨fun free => ?_, allocated i inside⟩, inodes, ?_, ?_⟩
  · by_contra live
    rw [inodes i inside live] at free
    exact live free
  · intro i inside live p below
    exact data.nodeByte_eq inv invT ⟨inside, live⟩ inside live (inodes i inside live ▸ live)
      (whole i inside live p below)
  · intro b bound
    have before := inv.consistent.exact.exact b bound
    have after := invT.consistent.exact.exact b bound
    rw [refs, ← before] at after
    exact Bool.eq_iff_iff.mpr after

end Unchanged

/-! ### `dirlink` -/

section Dirlink

variable {sb : Superblock} {s t : FsState c} {refs : Nat → Nat} {dp d : Nat} {name : Mem}

theorem unusedFrom_reads {count : Nat} (entries : HasEntries s dp count)
    (all : (s.itable dp).size.toNat = Dirent.bytes * count) {k : Nat} (inside : k ≤ count)
    {stop : Stop → FsState c → Prop} :
    wp (unusedFrom sb dp (s.itable dp).size.toNat (Dirent.bytes * k)) s
      (fun _ u => u = s) stop := by
  refine Nat.decreasingInduction' (P := fun k => wp (unusedFrom sb dp (s.itable dp).size.toNat
    (Dirent.bytes * k)) s (fun _ u => u = s) stop) (fun k less _ rest => ?_) inside ?_
  · have below : Dirent.bytes * k < Dirent.bytes * count :=
      Nat.mul_lt_mul_of_pos_left less (by decide)
    unfold unusedFrom
    rw [if_pos (by omega), wp_bind]
    refine wp_readKernel entries less fun m _ => ?_
    rw [wp_ite, if_neg (fun different => different rfl), wp_ite]
    split_ifs
    · rfl
    · exact rest
  · unfold unusedFrom
    rw [all, if_neg (Nat.lt_irrefl _)]
    rfl

/-- `isdirempty` only reads. -/
theorem isdiremptyFrom_reads {count : Nat} (entries : HasEntries s dp count)
    (all : (s.itable dp).size.toNat = Dirent.bytes * count) (k : Nat)
    {stop : Stop → FsState c → Prop} :
    wp (isdiremptyFrom sb dp (s.itable dp).size.toNat (Dirent.bytes * k)) s (fun _ u => u = s)
      stop := by
  have positive : 0 < Dirent.bytes := by decide
  generalize remaining : count - k = left
  induction left generalizing k with
  | zero =>
    have past : Dirent.bytes * count ≤ Dirent.bytes * k := Nat.mul_le_mul_left _ (by omega)
    unfold isdiremptyFrom
    rw [if_neg (by omega)]
    rfl
  | succ left ih =>
    have below : Dirent.bytes * k < Dirent.bytes * count :=
      Nat.mul_lt_mul_of_pos_left (by omega) positive
    have rest := @ih (k + 1) (by omega)
    rw [Nat.mul_succ] at rest
    unfold isdiremptyFrom
    rw [if_pos (by omega), wp_bind]
    refine wp_readKernel entries (by omega) fun m _ => ?_
    rw [wp_ite, if_neg (fun different => different rfl), wp_ite]
    split_ifs
    · rfl
    · exact rest

/-- The ways `dirlink` ends: the name exists, and the reference to its inode is
given back; or `writei` refuses the write; or the entry is written. -/
theorem wp_dirlink (valid : sb.Valid) (opens : Opens sb s refs t) (loaded : Loaded t.itable dp d)
    (isDir : (dinode sb s.disk d).type = tDir) (whole : WholeDir s.disk (dinode sb s.disk d))
    (inside : ∀ k < (dinode sb s.disk d).size.toNat / Dirent.bytes,
      (dirEntry s.disk (dinode sb s.disk d) k).inum.toNat < sb.ninodes) {inum : UInt32}
    {post : Int → FsState c → Prop}
    (fails : ∀ u, Opens sb s refs u → Keeps refs t u → post (-1) u)
    (written : ∀ (off : UInt32) u, off.toNat ≤ (dinode sb s.disk d).size.toNat →
      off.toNat + Dirent.bytes ≤ maxFile * bsize →
      Writes sb dp d off.toNat (kernelSource (newEntry name inum).put).byte t Dirent.bytes u →
      post 0 (u.save sb dp ((u.itable dp).grown off Dirent.bytes))) :
    wp (dirlink sb dp name inum) t post fun _ _ => True := by
  have entries := whole.hasEntries opens loaded isDir
  have node := opens.node loaded
  have size : (t.itable dp).size = (dinode sb s.disk d).size := congrArg Dinode.size node
  have all : (t.itable dp).size.toNat =
      Dirent.bytes * ((dinode sb s.disk d).size.toNat / Dirent.bytes) := by
    rw [size, Nat.mul_div_cancel' whole.size]
  unfold dirlink
  rw [wp_bind]
  refine wp_mono (wp_dirlookup opens loaded isDir whole inside) ?_ fun _ _ _ => trivial
  rintro _ u (⟨_, rfl, rfl⟩ | ⟨k, ip, i, _, _, rfl, got⟩)
  · change wp (get >>= _) u post _
    rw [wp_bind, wp_get, wp_bind]
    have reads := @unusedFrom_reads c sb u dp _ entries all 0 (Nat.zero_le _) fun _ _ => True
    rw [Nat.mul_zero] at reads
    refine wp_mono reads ?_ fun _ _ _ => trivial
    rintro off v rfl
    have notFile : (v.itable dp).type ≠ tFile := by
      rw [entries.isDir]
      decide
    rw [wp_bind]
    unfold writei
    have refused : wp (if (-1 : Int) ≠ Dirent.bytes then pure (-1) else pure 0 : FsM c Int) v post
        fun _ _ => True := by
      rw [if_pos (by decide)]
      exact fails v opens (Keeps.refl refs v)
    rw [wp_bind, wp_get, wp_ite]
    split
    · exact refused
    · rename_i outside
      rw [wp_ite]
      split
      · exact refused
      · rename_i tooLarge
        have length : (UInt32.ofNat Dirent.bytes).toNat = Dirent.bytes := rfl
        rw [not_or] at outside
        have sum := toNat_add_of_not_lt outside.2
        rw [sum, length] at tooLarge
        have start := outside.1
        rw [UInt32.lt_iff_toNat_lt, size] at start
        rw [wp_ite, if_neg fun both => notFile both.1]
        refine wp_mono (writePlain_spec valid opens.inv.consistent (opens.inv.held loaded) _
          (by rw [length]; omega)) ?_ fun _ _ absurd => absurd.elim
        rintro ret w ⟨tot, x, rfl, rfl, ⟨rfl, writes⟩ | ⟨_, _, failed⟩⟩
        · exact written _ x (by omega) (by omega) writes
        · exact absurd (fun _ _ => rfl) failed
  · change wp (iput sb ip >>= fun _ => pure (-1)) u post _
    rw [wp_bind]
    refine wp_mono (wp_iput got.opens got.inUse (.inr got.fresh)) ?_ fun _ _ absurd => absurd.elim
    exact fun _ v after => fails v after.1 (got.keeps.fewer.trans after.2)

end Dirlink

end Xv6.Kernel.Fs
