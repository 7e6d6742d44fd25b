import Xv6.Kernel.Fs.Table
import Xv6.Kernel.Huffman.RoundTrip
import Xv6.Lib.Transition

/-!
Exactness of the free bitmap over sequences of calls.

Owns: sessions of calls on the inode layer from a mounted disk, what makes a disk
sound, that every call keeps the bitmap exact, and what goes wrong from a disk on
which some block is held twice.

Does not own: crashes; the disk here is what `bread` returns.
-/

namespace Xv6.Kernel.Fs

open Xv6.Lib Function

variable {c : Codec}

/-! ### Sessions -/

/-- A call on the inode layer. `setFields` is the assignment of the other fields
that `create`, `sys_link` and `sys_unlink` follow with `iupdate`. -/
inductive Call where
  | iget (inum : UInt32)
  | ilock (ip : Nat)
  | ialloc (type : UInt16)
  | setFields (ip : Nat) (major minor nlink : UInt16)
  | writei (ip : Nat) (src : Source) (off n : UInt32)
  | itrunc (ip : Nat)
  | iput (ip : Nat)

/-- The code of a call, without its result. -/
def Call.run (sb : Superblock) : Call → FsM c PUnit
  | .iget inum => do
    let _ ← Fs.iget inum
    pure ⟨⟩
  | .ilock ip => Fs.ilock sb ip
  | .ialloc type => do
    let _ ← Fs.ialloc sb type
    pure ⟨⟩
  | .setFields ip major minor nlink => do
    modifyInode ip fun node => { node with major := major, minor := minor, nlink := nlink }
    iupdate sb ip
  | .writei ip src off n => do
    let _ ← Fs.writei sb ip src off n
    pure ⟨⟩
  | .itrunc ip => Fs.itrunc sb ip
  | .iput ip => Fs.iput sb ip

/-- What the caller of each function has: an inode number of this disk, a
reference, or the lock of a loaded inode. -/
def Call.Allowed (sb : Superblock) (s : FsState c) : Call → Prop
  | .iget inum => inum.toNat < sb.ninodes
  | .ilock ip => ip < nInode ∧ 0 < (s.itable ip).ref
  | .ialloc _ => True
  | .setFields ip _ _ _ => ∃ i, Loaded s.itable ip i
  | .writei ip _ _ _ => ∃ i, Loaded s.itable ip i
  | .itrunc ip => ∃ i, Loaded s.itable ip i
  | .iput ip => ip < nInode ∧ 0 < (s.itable ip).ref

instance decidableLoaded (itable : Nat → Inode) (ip : Nat) : Decidable (∃ i, Loaded itable ip i) :=
  decidable_of_iff (Loaded itable ip (itable ip).inum.toNat)
    ⟨fun loaded => ⟨_, loaded⟩, Exists.rec fun _ loaded => loaded.2.2.2 ▸ loaded⟩

instance Call.decidableAllowed (sb : Superblock) (s : FsState c) :
    (call : Call) → Decidable (call.Allowed sb s)
  | .iget inum => inferInstanceAs (Decidable (inum.toNat < sb.ninodes))
  | .ialloc _ => .isTrue trivial
  | .ilock ip | .iput ip => inferInstanceAs (Decidable (ip < nInode ∧ 0 < (s.itable ip).ref))
  | .setFields ip _ _ _ | .writei ip _ _ _ | .itrunc ip => decidableLoaded s.itable ip

/-- The kernel between calls, or stopped in one. -/
structure Session (c : Codec) where
  fs : FsState c
  stopped : Option Stop

/-- Make a call. -/
def Session.call (sb : Superblock) (m : Session c) (call : Call) : Session c :=
  match call.run sb m.fs with
  | .ok _ t => ⟨t, none⟩
  | .error reason t => ⟨t, some reason⟩

/-- One call of a session. -/
def Session.Step (sb : Superblock) (m : Session c) (call : Call) (m' : Session c) : Prop :=
  m.stopped = none ∧ call.Allowed sb m.fs ∧ m' = m.call sb call

/-- The session after a call, if it can be made. -/
def Session.next (sb : Superblock) (m : Session c) (call : Call) : Option (Session c) :=
  if m.stopped = none ∧ call.Allowed sb m.fs then some (m.call sb call) else none

theorem Session.next_sound {sb : Superblock} {m m' : Session c} {call : Call}
    (next : m.next sb call = some m') : Session.Step sb m call m' := by
  rw [Session.next, Option.ite_none_right_eq_some] at next
  exact ⟨next.1.1, next.1.2, (Option.some_inj.mp next.2).symm⟩

/-! ### Sound disks -/

/-- A bit is set exactly for metadata blocks and for blocks held exactly once. -/
def BitmapExact (sb : Superblock) (disk : Disk) (refs : Nat × Nat → Nat) : Prop :=
  ∀ b < sb.size, marked sb disk b = true ↔ b < sb.dataStart ∨ ∃! slot, refs slot = b

/-- Inodes hold data blocks of the disk, each at most once. -/
structure HeldOnce (sb : Superblock) (refs : Nat × Nat → Nat) : Prop where
  data : ∀ slot, refs slot ≠ 0 → sb.dataStart ≤ refs slot ∧ refs slot < sb.size
  once : ∀ slot slot', refs slot ≠ 0 → refs slot = refs slot' → slot = slot'

/-- A session starts with no inode in memory. -/
structure Booted (m : Session c) : Prop where
  running : m.stopped = none
  noInodes : ∀ ip, (m.fs.itable ip).ref = 0
  noCalls : m.fs.trace = []

/-- A session starts on a sound disk. -/
def Mounted (sb : Superblock) (m : Session c) : Prop :=
  Booted m ∧ BitmapExact sb m.fs.disk (diskRefs sb m.fs.disk) ∧ HeldOnce sb (diskRefs sb m.fs.disk)

section Sound

variable {sb : Superblock} {disk : Disk} {refs : Nat × Nat → Nat}

theorem HeldOnce.exact (heldOnce : HeldOnce sb refs) (valid : sb.Valid)
    (bitmap : BitmapExact sb disk refs) :
    Exact sb.size (fun b => b < sb.dataStart) (marked sb disk) refs where
  zero := valid.boot
  bounded := by
    intro slot held
    obtain ⟨isData, bound⟩ := heldOnce.data slot held
    exact ⟨bound, Nat.not_lt.mpr isData⟩
  injective := heldOnce.once
  exact := by
    intro b bound
    rw [bitmap b bound]
    constructor
    · rintro (isMeta | ⟨slot, holds, _⟩)
      · exact .inl isMeta
      · exact .inr ⟨slot, holds⟩
    · rintro (isMeta | ⟨slot, holds⟩)
      · exact .inl isMeta
      · by_cases isMeta : b < sb.dataStart
        · exact .inl isMeta
        · have notZero : b ≠ 0 := fun zero => isMeta (zero ▸ valid.boot)
          refine .inr ⟨slot, holds, fun other alsoHolds => ?_⟩
          exact (heldOnce.once slot other (holds ▸ notZero) (holds.trans alsoHolds.symm)).symm

/-- A booted session on a sound disk has the invariant. -/
theorem Booted.inv {m : Session c} (booted : Booted m) (valid : sb.Valid)
    (bitmap : BitmapExact sb m.fs.disk (diskRefs sb m.fs.disk))
    (heldOnce : HeldOnce sb (diskRefs sb m.fs.disk)) : FsInv sb m.fs := by
  have unused : ∀ {ip i}, ¬ Loaded m.fs.itable ip i := by
    intro ip i loaded
    exact Nat.lt_irrefl 0 (booted.noInodes ip ▸ loaded.2.1)
  have one : OneEntry m.fs.itable := by
    intro ip _ ip' _ held
    rw [booted.noInodes] at held
    exact absurd held (Nat.lt_irrefl 0)
  have synced : Synced sb m.fs.disk m.fs.itable := fun ip i loaded => absurd loaded unused
  refine ⟨⟨?_, one, ?_, ?_⟩, fun ip i loaded => absurd loaded unused, synced⟩
  · change Exact _ _ _ (Fs.refs sb m.fs.disk m.fs.itable)
    rw [refs_eq_diskRefs one synced]
    exact heldOnce.exact valid bitmap
  · intro ip _ held
    rw [booted.noInodes] at held
    exact absurd held (Nat.lt_irrefl 0)
  · rw [booted.noCalls]
    exact fun event member => absurd member List.not_mem_nil

end Sound

/-! ### Every call keeps the invariant -/

section Steps

variable {sb : Superblock}

theorem Call.run_inv (valid : sb.Valid) {s : FsState c} (inv : FsInv sb s) (call : Call)
    (allowed : call.Allowed sb s) :
    wp (call.run sb) s (fun _ t => FsInv sb t) (SafeStop sb) := by
  cases call with
  | iget inum =>
    rw [Call.run, wp_bind]
    exact iget_inv inv allowed
  | ilock ip => exact ilock_inv inv allowed.1 allowed.2
  | ialloc type =>
    rw [Call.run, wp_bind]
    exact iallocFrom_inv valid inv type 1
  | setFields ip major minor nlink =>
    obtain ⟨i, loaded⟩ := allowed
    refine (iupdate_modify sb s ip _ _ _).mpr ?_
    exact (Stays.refl inv.consistent).save_inv valid inv (inv.held loaded) rfl rfl rfl rfl rfl
  | writei ip src off n =>
    obtain ⟨i, loaded⟩ := allowed
    rw [Call.run, wp_bind]
    exact writei_inv valid inv (inv.held loaded) src off n
  | itrunc ip =>
    obtain ⟨i, loaded⟩ := allowed
    have held := inv.held loaded
    refine wp_mono (itrunc_spec valid inv.consistent held) ?_ fun _ _ absurd => absurd.elim
    exact fun _ _ truncated => truncated.inv valid inv held
  | iput ip =>
    exact wp_mono (iput_inv valid inv allowed.1 allowed.2) (fun _ _ after => after)
      fun _ _ absurd => absurd.elim

/-- What holds in every state of a session. -/
structure SessionInv (sb : Superblock) (m : Session c) : Prop where
  consistent : Consistent sb m.fs
  harmless : m.stopped ≠ some (.panic .freeingFreeBlock)
  running : m.stopped = none → FsInv sb m.fs

theorem SessionInv.step (valid : sb.Valid) {m m' : Session c} {call : Call} (inv : SessionInv sb m)
    (step : Session.Step sb m call m') : SessionInv sb m' := by
  obtain ⟨running, allowed, rfl⟩ := step
  have after := call.run_inv valid (inv.running running) allowed
  unfold Session.call
  cases ended : call.run sb m.fs with
  | ok result t =>
    have invT := (wp_ok ended).mp after
    exact ⟨invT.consistent, by simp, fun _ => invT⟩
  | error reason t =>
    have safe := (wp_error ended).mp after
    refine ⟨safe.1, ?_, fun running => absurd running (Option.some_ne_none _)⟩
    rw [ne_eq, Option.some_inj]
    exact safe.2

theorem sessionInv_of_run (valid : sb.Valid) {steps : List (Session c × Call)} {m : Session c}
    (run : Run (Mounted sb) (Session.Step sb) steps m) : SessionInv sb m := by
  refine run.invariant (SessionInv sb) ?_ fun _ _ _ inv step => inv.step valid step
  rintro start ⟨booted, bitmap, heldOnce⟩
  have started := booted.inv valid bitmap heldOnce
  exact ⟨started.consistent, by simp [booted.running], fun _ => started⟩

/-- From a sound disk the bitmap stays exact, no free block is ever freed, and
every block `balloc` returned was a data block of the disk that no inode held. -/
theorem bitmap_exact_of_heldOnce (valid : sb.Valid) {steps : List (Session c × Call)}
    {m : Session c}
    (run : Run (fun m => Booted m ∧ BitmapExact sb m.fs.disk (diskRefs sb m.fs.disk) ∧
      HeldOnce sb (diskRefs sb m.fs.disk)) (Session.Step sb) steps m) :
    BitmapExact sb m.fs.disk (m.fs.refs sb) ∧ m.stopped ≠ some (.panic .freeingFreeBlock) ∧
      ∀ event ∈ m.fs.trace, GoodEvent sb event := by
  have inv := sessionInv_of_run valid run
  exact ⟨fun b bound => inv.consistent.exact.marked_iff bound, inv.harmless, inv.consistent.allocs⟩

end Steps

/-! ### An empty file system -/

/-- A disk with the metadata blocks marked and no inode allocated. -/
@[irreducible] def emptyDisk (sb : Superblock) : Disk :=
  (List.range sb.dataStart).foldl (fun disk b =>
    update disk (sb.bblock b) (setBit (disk (sb.bblock b)) (b % bpb)))
    fun _ => Buffer.fill 0

/-- No block besides the metadata is marked, and no inode is allocated. -/
def Vacant (sb : Superblock) (disk : Disk) : Prop :=
  (∀ b < sb.size, marked sb disk b = decide (b < sb.dataStart)) ∧
    ∀ i < sb.ninodes, (dinode sb disk i).type = 0

instance (sb : Superblock) (disk : Disk) : Decidable (Vacant sb disk) :=
  inferInstanceAs (Decidable (_ ∧ _))

section Vacant

variable {sb : Superblock} {disk : Disk}

theorem Vacant.refs (vacant : Vacant sb disk) (slot : Nat × Nat) : diskRefs sb disk slot = 0 := by
  rw [diskRefs, if_neg]
  rintro ⟨inside, typed⟩
  exact typed (vacant.2 _ inside)

theorem Vacant.heldOnce (vacant : Vacant sb disk) : HeldOnce sb (diskRefs sb disk) :=
  ⟨fun slot held => absurd (vacant.refs slot) held,
    fun slot _ held => absurd (vacant.refs slot) held⟩

theorem Vacant.bitmapExact (vacant : Vacant sb disk) (valid : sb.Valid) :
    BitmapExact sb disk (diskRefs sb disk) := by
  intro b bound
  rw [vacant.1 b bound, decide_eq_true_iff]
  refine ⟨.inl, ?_⟩
  rintro (isMeta | ⟨slot, holds, _⟩)
  · exact isMeta
  · rw [vacant.refs] at holds
    exact holds ▸ valid.boot

end Vacant

/-- A disk of 16 blocks: inodes in block 2, the bitmap in block 3, data from block
8 on. -/
def smallDisk : Superblock := ⟨16, 8, 16, 2, 3⟩

theorem smallDisk_valid : smallDisk.Valid := by
  constructor <;> decide

theorem smallDisk_vacant : Vacant smallDisk (emptyDisk smallDisk) := by decide +kernel

/-- A booted kernel on a disk. -/
def boot (codec : c.State) (disk : Disk) : Session c :=
  ⟨⟨disk, fun _ => ⟨Dinode.zero, 0, 0, false⟩, ⟨[], fun _ => Buffer.fill 0⟩, ⟨0, 0, 0⟩, codec,
    fun _ => 0, []⟩, none⟩

theorem boot_booted (codec : c.State) (disk : Disk) : Booted (boot codec disk) :=
  ⟨rfl, fun _ => rfl, rfl⟩

/-- One inode without blocks, loaded into entry 0, on an otherwise empty disk. -/
def oneInode (sb : Superblock) (codec : c.State) (kmem : Kmem) (node : Dinode) : FsState c :=
  { (boot codec (putDinode sb (emptyDisk sb) 1 node)).fs with
    itable := update (fun _ => ⟨Dinode.zero, 0, 0, false⟩) 0 ⟨node, 1, 1, true⟩
    kmem := kmem }

section OneInode

variable {sb : Superblock} {codec : c.State} {kmem : Kmem} {node : Dinode}

theorem oneInode_loaded {ip i : Nat} (loaded : Loaded (oneInode sb codec kmem node).itable ip i) :
    ip = 0 := by
  by_contra other
  have held := loaded.2.1
  simp only [oneInode, update_of_ne other] at held
  exact Nat.lt_irrefl 0 held

theorem oneInode_inv (valid : sb.Valid) (vacant : Vacant sb (emptyDisk sb))
    (inside : 1 < sb.ninodes) (live : node.type ≠ 0) (empty : node.addrs = fun _ => 0) :
    FsInv sb (oneInode sb codec kmem node) := by
  have booted := (boot_booted codec (emptyDisk sb)).inv valid (vacant.bitmapExact valid)
    vacant.heldOnce
  have stored : FsInv sb (boot codec (putDinode sb (emptyDisk sb) 1 node)).fs := by
    refine booted.replace valid inside ?_ node empty rfl
      (fun _ member => absurd member List.not_mem_nil)
      booted.consistent.one booted.consistent.range fun ip j loaded => ?_
    · intro k
      rw [booted.refs_eq]
      exact vacant.refs _
    · exact absurd loaded.2.1 (Nat.lt_irrefl 0)
  have good : GoodEntry sb (boot codec (putDinode sb (emptyDisk sb) 1 node)).fs 0
      ⟨node, 1, 1, true⟩ := by
    refine ⟨fun _ p _ _ held => absurd held (Nat.lt_irrefl 0), fun _ => inside, fun _ _ => ?_⟩
    exact dinode_putDinode _ _ _ _
  exact (good.inv stored fun _ _ => live).same ⟨rfl, rfl, rfl⟩

end OneInode

/-- A new regular file of the kernel's own codec, with two pages free. -/
def newHuffmanFile : FsState huffman :=
  oneInode smallDisk Huffman.Static.clear ⟨[1, 2], fun _ => Buffer.fill 0⟩
    { Dinode.zero with type := tFile, nlink := 1 }

theorem newHuffmanFile_inv : FsInv smallDisk newHuffmanFile :=
  oneInode_inv smallDisk_valid smallDisk_vacant (by decide) (by decide) rfl

/-- A directory entry `a` for inode 2. -/
def entrySource : Source := ⟨fun k => if k = 0 then 2 else if k = 2 then 97 else 0, fun _ => true⟩

/-- The calls that make a root directory and in it the device `a`. -/
def makeDevice : List Call :=
  [.ialloc tDir, .ilock 0, .setFields 0 0 0 1, .ialloc tDevice, .ilock 1, .setFields 1 1 1 1,
    .iput 1, .writei 0 entrySource 0 16]

/-- A session on an empty file system. -/
def playSmall (calls : List Call) : Option (Session huffman) :=
  Run.play (Session.next smallDisk) (boot Huffman.Static.clear (emptyDisk smallDisk)) calls

theorem playSmall_runs {calls : List Call} {m : Session huffman}
    (played : playSmall calls = some m) :
    ∃ steps, Run (Mounted smallDisk) (Session.Step smallDisk) steps m := by
  have mounted :
      Mounted smallDisk (boot (c := huffman) Huffman.Static.clear (emptyDisk smallDisk)) :=
    ⟨boot_booted _ _, smallDisk_vacant.bitmapExact smallDisk_valid, smallDisk_vacant.heldOnce⟩
  obtain ⟨steps, -, run⟩ := Run.of_play Session.next_sound (.start mounted) played
  exact ⟨_, run⟩

/-- The block that the entry was written to is allocated, and freed again. -/
theorem bitmap_exact_of_heldOnce_itrunc :
    (playSmall makeDevice).map (fun m => marked smallDisk m.fs.disk 8) = some true ∧
      ∃ m, playSmall (makeDevice ++ [.itrunc 0]) = some m ∧ marked smallDisk m.fs.disk 8 = false ∧
        BitmapExact smallDisk m.fs.disk (m.fs.refs smallDisk) ∧
        m.stopped ≠ some (.panic .freeingFreeBlock) ∧
        ∀ event ∈ m.fs.trace, GoodEvent smallDisk event := by
  have freed : (playSmall (makeDevice ++ [.itrunc 0])).map
      (fun m => marked smallDisk m.fs.disk 8) = some false := by decide +kernel
  obtain ⟨m, played, isFree⟩ := Option.map_eq_some_iff.mp freed
  obtain ⟨steps, run⟩ := playSmall_runs played
  exact ⟨by decide +kernel, m, played, isFree, bitmap_exact_of_heldOnce smallDisk_valid run⟩

/-! ### A block held twice -/

/-- A file whose first two block numbers are both 8. -/
def twiceNode : Dinode := { Dinode.zero with
  type := tFile, nlink := 1, size := 2048, addrs := fun k => if (k : Nat) < 2 then 8 else 0 }

/-- The empty file system with this file as inode 1, and block 8 marked free. -/
def twiceDisk : Disk := putDinode smallDisk (emptyDisk smallDisk) 1 twiceNode

theorem diskRefs_twiceDisk {slot : Nat × Nat} (present : diskRefs smallDisk twiceDisk slot ≠ 0) :
    diskRefs smallDisk twiceDisk slot = 8 := by
  obtain ⟨i, k⟩ := slot
  have only : ∀ i < smallDisk.ninodes, (dinode smallDisk twiceDisk i).type ≠ 0 →
      ∀ k < ndirect + 1 + nindirect, nodeRef twiceDisk (dinode smallDisk twiceDisk i) k ≠ 0 →
        nodeRef twiceDisk (dinode smallDisk twiceDisk i) k = 8 := by decide +kernel
  unfold diskRefs at present ⊢
  split_ifs at present ⊢ with live
  · refine only i live.1 live.2 k ?_ present
    by_contra past
    exact present (nodeRef_past (Nat.not_lt.mp past))
  · exact absurd rfl present

theorem twiceDisk_bitmapExact :
    BitmapExact smallDisk twiceDisk (diskRefs smallDisk twiceDisk) := by
  have bits : ∀ b < smallDisk.size,
      marked smallDisk twiceDisk b = decide (b < smallDisk.dataStart) := by
    decide +kernel
  have twice : diskRefs smallDisk twiceDisk (1, 0) = 8 ∧
      diskRefs smallDisk twiceDisk (1, 1) = 8 := by
    decide +kernel
  intro b bound
  rw [bits b bound, decide_eq_true_iff]
  refine ⟨.inl, ?_⟩
  rintro (isMeta | ⟨slot, holds, unique⟩)
  · exact isMeta
  · by_contra isData
    have present : diskRefs smallDisk twiceDisk slot ≠ 0 := by
      rw [holds]
      exact fun zero => isData (zero ▸ smallDisk_valid.boot)
    rw [← holds, diskRefs_twiceDisk present] at unique
    exact absurd ((unique _ twice.1).trans (unique _ twice.2).symm) (by decide)

/-- The file in entry 0 after `iget`. -/
def twiceFound : Session huffman :=
  (boot Huffman.Static.clear twiceDisk).call smallDisk (.iget 1)

/-- The file in entry 0 after `ilock`. -/
def twiceLocked : Session huffman := twiceFound.call smallDisk (.ilock 0)

/-- Exactness alone does not keep `itrunc` from freeing a free block: the first
call on a file that holds block 8 twice panics. -/
theorem bitmapExact_not_enough :
    ∃ (steps : List (Session huffman × Call)) (m : Session huffman),
      Run (fun m => Booted m ∧ BitmapExact smallDisk m.fs.disk (diskRefs smallDisk m.fs.disk))
        (Session.Step smallDisk) steps m ∧ m.stopped = some (.panic .freeingFreeBlock) := by
  have found : Session.Step smallDisk (boot Huffman.Static.clear twiceDisk) (.iget 1) twiceFound :=
    ⟨rfl, show UInt32.toNat 1 < smallDisk.ninodes by decide, rfl⟩
  have locked : Session.Step smallDisk twiceFound (.ilock 0) twiceLocked :=
    ⟨rfl, ⟨by decide, by decide +kernel⟩, rfl⟩
  have freed : Session.Step smallDisk twiceLocked (.itrunc 0)
      (twiceLocked.call smallDisk (.itrunc 0)) :=
    ⟨by decide +kernel, ⟨1, by decide, by decide +kernel, by decide +kernel, by decide +kernel⟩,
      rfl⟩
  exact ⟨_, _, ((Run.start ⟨boot_booted _ _, twiceDisk_bitmapExact⟩).snoc found |>.snoc locked).snoc
    freed, by decide +kernel⟩

end Xv6.Kernel.Fs
