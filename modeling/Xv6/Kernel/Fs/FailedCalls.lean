import Xv6.Kernel.Fs.Creating

/-!
Failed name space calls change nothing.

Owns: the file systems the result is about, what each of `sys_link`, `sys_unlink`,
`sys_mkdir` and `sys_mknod` leaves when it returns -1, and that this is the file
system it found.

Does not own: what the calls do when they succeed.
-/

namespace Xv6.Kernel.Fs

open Xv6.Lib

variable {c : Codec}

/-- A consistent file system without holes: directories name allocated inodes,
entries of the table in use are for allocated inodes, and `cwd` is one of them. -/
structure Sound (sb : Superblock) (s : FsState c) (cwd : Nat) : Prop where
  inv : FsInv sb s
  dirs : Directories sb s
  holeless : WithoutHoles sb s.disk
  live : ∀ ip i, InUse s.itable ip i → (dinode sb s.disk i).type ≠ 0
  cwd : InUse s.itable cwd (s.itable cwd).inum.toNat

/-! ### Names that lead somewhere -/

section Names

variable {sb : Superblock} {s : FsState c} {cwd i : Nat}

theorem lookup_target (dirs : Directories sb s) (target : Target sb s i)
    {name : List UInt8} {j : Nat}
    (found : lookup sb s.disk i name = some j) : Target sb s j := by
  unfold lookup entryFor at found
  split_ifs at found with isDir
  obtain ⟨k, isEntry, rfl⟩ := Option.map_eq_some_iff.mp found
  exact dirs.target target.inside isDir isEntry

theorem resolve_target (dirs : Directories sb s) {names : List (List UInt8)} {j : Nat}
    (target : Target sb s i) (found : resolve sb s.disk i names = some j) : Target sb s j := by
  induction names generalizing i with
  | nil => exact Option.some_inj.mp found ▸ target
  | cons name rest ih =>
    rw [resolve_cons] at found
    obtain ⟨next, isNext, leads⟩ := Option.bind_eq_some_iff.mp found
    exact ih (lookup_target dirs target isNext) leads

theorem resolveParent_target (dirs : Directories sb s) {names : List (List UInt8)}
    {entry : Nat × List UInt8} (target : Target sb s i)
    (found : resolveParent sb s.disk i names = some entry) :
    Target sb s entry.1 ∧ (dinode sb s.disk entry.1).type = tDir := by
  obtain ⟨last, _, isEntry⟩ := Option.bind_eq_some_iff.mp found
  obtain ⟨d, isDir, rfl⟩ := Option.map_eq_some_iff.mp isEntry
  obtain ⟨leads, type⟩ := Option.filter_eq_some_iff.mp isDir
  exact ⟨resolve_target dirs target leads, by simpa using type⟩

theorem Sound.start (sound : Sound sb s cwd) (path : List UInt8) :
    Target sb s (startOf s cwd path) := by
  unfold startOf
  split_ifs
  · exact sound.dirs.root
  · refine ⟨sound.inv.consistent.range cwd sound.cwd.1 sound.cwd.2.1,
      sound.live _ _ sound.cwd, .inr ?_⟩
    exact sound.cwd.refCount_pos sound.inv.consistent.one

/-- A reference that a call added to inode `i`, in entry `ip`. -/
structure Added (sb : Superblock) (s : FsState c) (ip i : Nat) (t : FsState c) : Prop where
  opens : Opens sb s (refCount s.itable + Pi.single i 1) t
  keeps : Keeps (refCount s.itable) s t
  inUse : InUse t.itable ip i
  target : Target sb s i

theorem Returns.added {goal : Nat} {found : Option Nat} {t : FsState c}
    (returns : Returns sb s (some goal) found t) (target : Target sb s goal) :
    ∃ ip, found = some ip ∧ Added sb s ip goal t := by
  obtain ⟨ip, isFound, inUse⟩ := returns.entry goal rfl
  have opens := returns.opens
  rw [refs_added_some] at opens
  exact ⟨ip, isFound, opens, returns.kept, inUse, target⟩

theorem Returns.nowhere {found : Option Nat} {t : FsState c} (returns : Returns sb s none found t) :
    found = none ∧ Opens sb s (refCount s.itable) t ∧ Keeps (refCount s.itable) s t := by
  have opens := returns.opens
  rw [refs_added_none] at opens
  exact ⟨returns.null rfl, opens, returns.kept⟩

theorem wp_namei (sound : Sound sb s cwd) (path : PathName) (stack : Mem) :
    wp (namei sb cwd path.bytes stack) s
      (fun found t => (found = none ∧ Opens sb s (refCount s.itable) t ∧
          Keeps (refCount s.itable) s t) ∨
        ∃ ip i, found = some ip ∧ Added sb s ip i t) fun _ _ => True := by
  unfold namei
  rw [wp_bind]
  refine wp_mono (wp_namex sound.inv sound.dirs sound.cwd (sound.live _ _ sound.cwd)
    fun ip t opens kept inUse target =>
      wp_namexFrom_inode sound.dirs path.bytes path.noNul stack opens kept inUse target)
    ?_ fun _ _ _ => trivial
  intro found t returns
  rw [wp_pure]
  cases goal : resolve sb s.disk (startOf s cwd path.bytes) (components path.bytes) with
  | none =>
    rw [goal] at returns
    exact .inl returns.nowhere
  | some i =>
    rw [goal] at returns
    obtain ⟨ip, isFound, added⟩ :=
      returns.added (resolve_target sound.dirs (sound.start path.bytes) goal)
    exact .inr ⟨ip, i, isFound, added⟩

theorem wp_nameiparent (sound : Sound sb s cwd) (path : PathName) (stack : Mem) :
    wp (nameiparent sb cwd path.bytes stack) s
      (fun found t => (found = none ∧ Opens sb s (refCount s.itable) t ∧
          Keeps (refCount s.itable) s t) ∨
        ∃ dp d name, found = some (dp, name) ∧ Added sb s dp d t ∧
          (dinode sb s.disk d).type = tDir) fun _ _ => True := by
  unfold nameiparent
  refine wp_mono (wp_namex sound.inv sound.dirs sound.cwd (sound.live _ _ sound.cwd)
    fun ip t opens kept inUse target =>
      wp_namexFrom_parent sound.dirs path.bytes path.noNul stack opens kept inUse target)
    ?_ fun _ _ _ => trivial
  rintro found t ⟨returns, _⟩
  cases goal : resolveParent sb s.disk (startOf s cwd path.bytes) (components path.bytes) with
  | none =>
    rw [goal] at returns
    obtain ⟨isNull, opens⟩ := returns.nowhere
    exact .inl ⟨Option.map_eq_none_iff.mp isNull, opens⟩
  | some entry =>
    rw [goal] at returns
    obtain ⟨target, isDir⟩ := resolveParent_target sound.dirs (sound.start path.bytes) goal
    obtain ⟨dp, isFound, added⟩ := returns.added target
    obtain ⟨⟨dp', name⟩, isPair, rfl⟩ := Option.map_eq_some_iff.mp isFound
    exact .inr ⟨dp', entry.1, name, isPair, added, isDir⟩

end Names

/-! ### Giving references back -/

section GiveBack

variable {sb : Superblock} {s t : FsState c} {ip i : Nat} {Result : Type}

theorem putAndReturn_unchanged {refs : Nat → Nat} (opens : Opens sb s (refs + Pi.single i 1) t)
    (inUse : InUse t.itable ip i)
    (stays : (dinode sb s.disk i).nlink ≠ 0 ∨ 0 < refs i ∨ (t.itable ip).valid = false)
    (result : Result) :
    wp (putAndReturn sb ip result) t (fun _ u => u.disk = s.disk) fun _ _ => True := by
  unfold putAndReturn
  rw [wp_bind]
  refine wp_mono (wp_iput opens inUse stays) ?_ fun _ _ absurd => absurd.elim
  exact fun _ u after => after.1.disk

end GiveBack

/-! ### `sys_unlink` -/

section Unlink

variable {sb : Superblock} {s t : FsState c} {cwd dp d : Nat}

theorem Sound.wholeDir (sound : Sound sb s cwd) (target : Target sb s d)
    (isDir : (dinode sb s.disk d).type = tDir) : WholeDir s.disk (dinode sb s.disk d) :=
  sound.dirs.whole d target.inside isDir

theorem notEmptyDir_reads {refs : Nat → Nat} {ip i : Nat} (sound : Sound sb s cwd)
    (opens : Opens sb s refs t) (target : Target sb s i) (loaded : Loaded t.itable ip i) :
    wp (notEmptyDir sb ip) t (fun _ u => u = t) fun _ _ => True := by
  have type : (t.itable ip).type = (dinode sb s.disk i).type :=
    congrArg Dinode.type (opens.node loaded)
  have size : (t.itable ip).size = (dinode sb s.disk i).size :=
    congrArg Dinode.size (opens.node loaded)
  unfold notEmptyDir isdirempty
  rw [wp_bind, wp_get, wp_ite, type]
  split_ifs with isDir
  · have whole := sound.wholeDir target isDir
    rw [wp_bind, wp_bind, wp_get]
    have all : (t.itable ip).size.toNat =
        Dirent.bytes * ((dinode sb s.disk i).size.toNat / Dirent.bytes) := by
      rw [size, Nat.mul_div_cancel' whole.size]
    exact isdiremptyFrom_reads (whole.hasEntries opens loaded isDir) all 2
  · rfl

theorem unlinkInode_unchanged (sound : Sound sb s cwd) {ip i off : Nat} (target : Target sb s i)
    (targetDir : Target sb s d)
    (opens : Opens sb s (refCount s.itable + Pi.single d 1 + Pi.single i 1) t)
    (inUse : InUse t.itable ip i) (parent : InUse t.itable dp d) :
    wp (unlinkInode sb ip dp off) t (fun ret u => ret = -1 → Unchanged sb s u)
      fun _ _ => True := by
  unfold unlinkInode
  rw [wp_bind]
  refine wp_mono (wp_ilock opens inUse target.live) ?_ fun _ _ absurd => absurd.elim
  rintro _ u ⟨opensU, loaded, keepsU⟩
  have parentU : InUse u.itable dp d := (keepsU dp d (by simp [Pi.add_apply])).1 parent
  rw [wp_bind, wp_get, wp_ite]
  split_ifs with few
  · trivial
  · have linked : (dinode sb s.disk i).nlink ≠ 0 := by
      rw [← congrArg Dinode.nlink (opensU.node loaded)]
      intro absent
      refine few ?_
      rw [absent]
      decide
    rw [wp_bind]
    refine wp_mono (notEmptyDir_reads sound opensU target loaded) ?_ fun _ _ _ => trivial
    rintro full v rfl
    cases full with
    | true =>
      change wp (iput sb ip >>= fun _ => putAndReturn sb dp (-1)) v _ _
      rw [wp_bind]
      refine wp_mono (wp_iput opensU loaded.inUse (.inl linked)) ?_ fun _ _ absurd => absurd.elim
      rintro _ w ⟨opensW, keepsW⟩
      refine wp_mono
        (putAndReturn_unchanged opensW ((keepsW dp d (by simp [Pi.add_apply])).1 parentU)
        targetDir.iput (-1)) ?_ fun _ _ _ => trivial
      exact fun _ x disk _ => unchanged_of_disk disk
    | false =>
      refine wp_of_yields (.bind _ fun _ => .ite (.throw _) ?_)
      exact .bind _ fun _ => .bind _ fun _ => .bind _ fun _ => putAndReturn_yields sb ip (by decide)

theorem unlinkIn_unchanged (sound : Sound sb s cwd) (added : Added sb s dp d t)
    (isDir : (dinode sb s.disk d).type = tDir) (name : Mem) :
    wp (unlinkIn sb dp name) t (fun ret u => ret = -1 → Unchanged sb s u) fun _ _ => True := by
  unfold unlinkIn
  rw [wp_bind]
  refine wp_mono (wp_ilock added.opens added.inUse added.target.live) ?_
    fun _ _ absurd => absurd.elim
  rintro _ u ⟨opensU, loaded, _⟩
  have bad : wp (putAndReturn sb dp (-1)) u (fun ret v => ret = (-1 : Int) → Unchanged sb s v)
      fun _ _ => True :=
    wp_mono (putAndReturn_unchanged opensU loaded.inUse added.target.iput (-1))
      (fun _ _ disk _ => unchanged_of_disk disk) fun _ _ _ => trivial
  rw [wp_ite]
  split_ifs
  · exact bad
  · rw [wp_bind]
    refine wp_mono (wp_dirlookup opensU loaded isDir (sound.wholeDir added.target isDir)
      fun k inDir => sound.dirs.inside added.target.inside isDir inDir) ?_ fun _ _ _ => trivial
    rintro _ v (⟨_, rfl, rfl⟩ | ⟨k, ip, i, found, rfl, rfl, got⟩)
    · exact bad
    · refine unlinkInode_unchanged sound (sound.dirs.target added.target.inside isDir found)
        added.target got.opens got.inUse ?_
      exact (got.keeps dp d (by simp [Pi.add_apply])).1 loaded.inUse

theorem sysUnlink_unchanged (sound : Sound sb s cwd) (path : Option PathName) (stack : Mem) :
    wp (sysUnlink sb cwd path stack) s (fun ret t => ret = -1 → Unchanged sb s t)
      fun _ _ => True := by
  cases path with
  | none => exact fun _ => unchanged_of_disk rfl
  | some path =>
    change wp (nameiparent sb cwd path.bytes stack >>= _) s _ _
    rw [wp_bind]
    refine wp_mono (wp_nameiparent sound path stack) ?_ fun _ _ stopped => stopped
    rintro _ t (⟨rfl, opens, _⟩ | ⟨dp, d, name, rfl, added, isDir⟩)
    · exact fun _ => unchanged_of_disk opens.disk
    · exact unlinkIn_unchanged sound added isDir name

end Unlink

/-! ### `sys_link` -/

section Link

variable {sb : Superblock} {s t : FsState c} {cwd ip i : Nat}

/-- The state after `sys_link` raised the number of links of inode `i`. -/
structure Raised (sb : Superblock) (s : FsState c) (cwd ip i : Nat) (t : FsState c) : Prop where
  sound : Sound sb t cwd
  data : DataKept sb (fun _ => True) s t
  inodes : ∀ j ≠ i, dinode sb t.disk j = dinode sb s.disk j
  node : dinode sb t.disk i = { dinode sb s.disk i with nlink := (dinode sb s.disk i).nlink + 1 }
  counts : refCount t.itable = refCount s.itable + Pi.single i 1
  inUse : InUse t.itable ip i
  target : Target sb s i

/-- Directories that are kept with their data still name inodes that stay. -/
theorem Directories.kept (dirs : Directories sb s) (inv : FsInv sb s) (invT : FsInv sb t)
    (data : DataKept sb (fun _ => True) s t)
    (types : ∀ j, (dinode sb t.disk j).type = (dinode sb s.disk j).type)
    (same : ∀ j, (dinode sb s.disk j).type = tDir → dinode sb t.disk j = dinode sb s.disk j)
    (targets : ∀ j, Target sb s j → Target sb t j) : Directories sb t := by
  have directory : ∀ d < sb.ninodes, (dinode sb s.disk d).type = tDir → _ :=
    fun d inside isDir => data.directory inv invT trivial inside isDir (same d isDir)
      (dirs.whole d inside isDir)
  refine ⟨?_, ?_, targets _ dirs.root⟩
  · intro d inside isDir
    rw [types] at isDir
    exact (directory d inside isDir).1
  · intro d inside isDir k inDir
    rw [types] at isDir
    rw [(directory d inside isDir).2 k inDir]
    rw [same d isDir] at inDir
    exact fun used => targets _ (dirs.targets d inside isDir k inDir used)

theorem raised_of_save (valid : sb.Valid) (sound : Sound sb s cwd)
    (opens : Opens sb s (refCount s.itable + Pi.single i 1) t)
    (keeps : Keeps (refCount s.itable) s t) (loaded : Loaded t.itable ip i)
    (target : Target sb s i) (notDir : (dinode sb s.disk i).type ≠ tDir) {node : Inode}
    (isNode : node = { t.itable ip with nlink := (t.itable ip).nlink + 1 }) :
    Raised sb s cwd ip i (t.save sb ip node) := by
  have held := opens.inv.held loaded
  have inum : node.inum = (t.itable ip).inum := by rw [isNode]
  have ref : node.ref = (t.itable ip).ref := by rw [isNode]
  have isValid : node.valid = (t.itable ip).valid := by rw [isNode]
  have type : node.type = (t.itable ip).type := by rw [isNode]
  have addrs : node.addrs = (t.itable ip).addrs := by rw [isNode]
  have number : node.inum.toNat = i := inum ▸ loaded.2.2.2
  have inv : FsInv sb (t.save sb ip node) :=
    save_inv valid opens.inv held opens.inv.consistent held (fun _ _ => rfl) (fun _ _ => rfl) inum
      ref isValid type addrs
  have disk : (t.save sb ip node).disk = putDinode sb s.disk i node.toDinode := by
    rw [FsState.save, number, opens.disk]
  have others : ∀ j ≠ i, dinode sb (t.save sb ip node).disk j = dinode sb s.disk j := by
    intro j other
    rw [disk, dinode_putDinode_other _ _ other]
  have own : dinode sb (t.save sb ip node).disk i =
      { dinode sb s.disk i with nlink := (dinode sb s.disk i).nlink + 1 } := by
    rw [disk, dinode_putDinode, ← opens.node loaded, isNode]
  have types : ∀ j, (dinode sb (t.save sb ip node).disk j).type = (dinode sb s.disk j).type := by
    intro j
    by_cases isI : j = i
    · rw [isI, own]
    · rw [others j isI]
  have data : DataKept sb (fun _ => True) s (t.save sb ip node) :=
    (dataKept_of_disk sound.inv opens.inv opens.disk).trans
      (dataKept_save valid opens.inv.consistent held inum ref isValid type addrs)
  have inUseIff : ∀ p j, InUse (t.save sb ip node).itable p j ↔ InUse t.itable p j :=
    inUse_save inum ref
  have counts : refCount (t.save sb ip node).itable = refCount s.itable + Pi.single i 1 := by
    rw [refCount_save inum ref, opens.counts]
  have more : ∀ j, refCount s.itable j ≤ refCount (t.save sb ip node).itable j := by
    intro j
    rw [counts]
    exact Nat.le_add_right _ _
  refine ⟨⟨inv, ?_, ?_, ?_, ?_⟩, data, others, own, counts,
    (inUseIff ip i).mpr loaded.inUse, target⟩
  · refine sound.dirs.kept sound.inv inv data types ?_ ?_
    · exact fun j isDir => others j fun isI => notDir (isI ▸ isDir)
    · intro j targetJ
      refine ⟨targetJ.inside, ?_, ?_⟩
      · rw [types]
        exact targetJ.live
      · by_cases isI : j = i
        · refine .inr ?_
          rw [isI, counts, Pi.add_apply, Pi.single_eq_same]
          exact Nat.succ_pos _
        · rw [others j isI]
          exact targetJ.stays.imp id fun held => Nat.lt_of_lt_of_le held (more j)
  · intro j inside live p below
    have liveS : (dinode sb s.disk j).type ≠ 0 := types j ▸ live
    refine data.mapped sound.inv inv trivial inside liveS live (sound.holeless j inside liveS p ?_)
    by_cases isI : j = i
    · rw [isI, own] at below
      rw [isI]
      exact below
    · rw [others j isI] at below
      exact below
  · intro p j inUse
    rw [types]
    by_cases isI : j = i
    · rw [isI]
      exact target.live
    · have positive := ((inUseIff p j).mp inUse).refCount_pos opens.inv.consistent.one
      rw [opens.counts, Pi.add_apply, Pi.single_eq_of_ne isI, Nat.add_zero] at positive
      obtain ⟨q, held⟩ := exists_inUse positive
      exact sound.live q j held
  · rw [inUseIff, (save_counts inum ref cwd).1]
    obtain ⟨bound, held, _⟩ :=
      (keeps cwd _ (sound.cwd.refCount_pos sound.inv.consistent.one)).1 sound.cwd
    exact ⟨bound, held, rfl⟩

theorem linkBad_unchanged (valid : sb.Valid) (sound : Sound sb s cwd)
    (raised : Raised sb s cwd ip i t) {u : FsState c} (opens : Opens sb t (refCount t.itable) u)
    (inUse : InUse u.itable ip i) :
    wp (linkBad sb ip) u (fun _ v => Unchanged sb s v) fun _ _ => True := by
  have live : (dinode sb t.disk i).type ≠ 0 := by
    rw [raised.node]
    exact raised.target.live
  unfold linkBad setLinks
  rw [wp_bind]
  refine wp_mono (wp_ilock opens inUse live) ?_ fun _ _ absurd => absurd.elim
  rintro _ w ⟨opensW, loaded, _⟩
  rw [wp_bind, iupdate_modify]
  have held := opensW.inv.held loaded
  generalize isNode : ({ w.itable ip with nlink := (w.itable ip).nlink - 1 } : Inode) = node
  have inum : node.inum = (w.itable ip).inum := by rw [← isNode]
  have ref : node.ref = (w.itable ip).ref := by rw [← isNode]
  have isValid : node.valid = (w.itable ip).valid := by rw [← isNode]
  have type : node.type = (w.itable ip).type := by rw [← isNode]
  have addrs : node.addrs = (w.itable ip).addrs := by rw [← isNode]
  have number : node.inum.toNat = i := inum ▸ loaded.2.2.2
  have inv : FsInv sb (w.save sb ip node) :=
    save_inv valid opensW.inv held opensW.inv.consistent held (fun _ _ => rfl) (fun _ _ => rfl) inum
      ref isValid type addrs
  have disk : (w.save sb ip node).disk = putDinode sb t.disk i node.toDinode := by
    rw [FsState.save, number, opensW.disk]
  have inodes : ∀ j, dinode sb (w.save sb ip node).disk j = dinode sb s.disk j := by
    intro j
    rw [disk]
    by_cases isI : j = i
    · rw [isI, dinode_putDinode, ← isNode]
      change { (w.itable ip).toDinode with nlink := (w.itable ip).nlink - 1 } = _
      rw [opensW.node loaded, raised.node]
      simp
    · rw [dinode_putDinode_other _ _ isI, raised.inodes j isI]
  have data : DataKept sb (fun _ => True) s (w.save sb ip node) :=
    (raised.data.trans (dataKept_of_disk raised.sound.inv opensW.inv opensW.disk)).trans
      (dataKept_save valid opensW.inv.consistent held inum ref isValid type addrs)
  have unchanged : Unchanged sb s (w.save sb ip node) := by
    refine unchanged_of_data sound.inv inv sound.holeless ?_ ?_ (data.mono fun _ _ => trivial)
    · intro j _ free
      rw [inodes]
      exact free
    · exact fun j _ _ => inodes j
  have counts : refCount (w.save sb ip node).itable = refCount s.itable + Pi.single i 1 := by
    rw [refCount_save inum ref, opensW.counts, raised.counts]
  have opensV : Opens sb (w.save sb ip node) (refCount s.itable + Pi.single i 1)
      (w.save sb ip node) := counts ▸ Opens.refl inv
  have inUseV := (@inUse_save c sb w ip node inum ref ip i).mpr loaded.inUse
  refine wp_mono (putAndReturn_unchanged opensV inUseV ?_ _) ?_ fun _ _ _ => trivial
  · rw [inodes]
    exact raised.target.iput
  · exact fun _ v after => unchanged.same_disk after

theorem linkIn_unchanged (valid : sb.Valid) (sound : Sound sb s cwd)
    (raised : Raised sb s cwd ip i t) {u : FsState c} {dp d : Nat} (added : Added sb t dp d u)
    (isDir : (dinode sb t.disk d).type = tDir) (name : Mem) :
    wp (linkIn sb ip dp name) u (fun ret v => ret = -1 → Unchanged sb s v) fun _ _ => True := by
  have own := raised.inUse.refCount_pos raised.sound.inv.consistent.one
  unfold linkIn
  rw [wp_bind]
  refine wp_mono (wp_ilock added.opens added.inUse added.target.live) ?_
    fun _ _ absurd => absurd.elim
  rintro _ v ⟨opensV, loaded, keepsV⟩
  have kept := added.keeps.trans keepsV.fewer
  rw [wp_bind, wp_get, wp_bind]
  refine wp_dirlink valid opensV loaded isDir (raised.sound.wholeDir added.target isDir)
    (fun k inDir => raised.sound.dirs.inside added.target.inside isDir inDir) ?_ ?_
  · intro w opensW keepsW
    rw [wp_ite, if_pos (by decide), wp_bind]
    refine wp_mono (wp_iput opensW ((keepsW dp d (by simp [Pi.add_apply])).1 loaded.inUse)
      added.target.iput) ?_ fun _ _ absurd => absurd.elim
    rintro _ x ⟨opensX, keepsX⟩
    have inUse : InUse x.itable ip i :=
      (((kept.trans keepsW.fewer).trans keepsX) ip i own).1 raised.inUse
    exact wp_mono (linkBad_unchanged valid sound raised opensX inUse)
      (fun _ _ unchanged _ => unchanged) fun _ _ stopped => stopped
  · intro off w _ _ _
    rw [wp_ite, if_neg (by decide)]
    exact wp_of_yields (.bind _ fun _ => putAndReturn_yields sb ip (by decide))

theorem linkTo_unchanged (valid : sb.Valid) (sound : Sound sb s cwd) (added : Added sb s ip i t)
    (new : PathName) (stack : Mem) :
    wp (linkTo sb cwd ip new.bytes stack) t (fun ret u => ret = -1 → Unchanged sb s u)
      fun _ _ => True := by
  unfold linkTo
  rw [wp_bind]
  refine wp_mono (wp_ilock added.opens added.inUse added.target.live) ?_
    fun _ _ absurd => absurd.elim
  rintro _ u ⟨opensU, loaded, keepsU⟩
  have type : (u.itable ip).type = (dinode sb s.disk i).type :=
    congrArg Dinode.type (opensU.node loaded)
  rw [wp_bind, wp_get, wp_ite, type]
  split_ifs with isDir
  · refine wp_mono (putAndReturn_unchanged opensU loaded.inUse added.target.iput _) ?_
      fun _ _ _ => trivial
    exact fun _ v disk _ => unchanged_of_disk disk
  · unfold setLinks
    rw [wp_bind, iupdate_modify]
    have raised := raised_of_save valid sound opensU (added.keeps.trans keepsU.fewer) loaded
      added.target isDir rfl
    rw [wp_bind]
    refine wp_mono (wp_nameiparent raised.sound new stack) ?_ fun _ _ stopped => stopped
    rintro _ v (⟨rfl, opensV, keepsV⟩ | ⟨dp, d, name, rfl, addedV, isDirV⟩)
    · have own := raised.inUse.refCount_pos raised.sound.inv.consistent.one
      exact wp_mono (linkBad_unchanged valid sound raised opensV ((keepsV ip i own).1 raised.inUse))
        (fun _ _ unchanged _ => unchanged) fun _ _ stopped => stopped
    · exact linkIn_unchanged valid sound raised addedV isDirV name

theorem sysLink_unchanged (valid : sb.Valid) (sound : Sound sb s cwd) (old new : Option PathName)
    (stack : Mem) :
    wp (sysLink sb cwd old new stack) s (fun ret t => ret = -1 → Unchanged sb s t)
      fun _ _ => True := by
  have refused : wp (pure (-1) : FsM c Int) s (fun ret t => ret = -1 → Unchanged sb s t)
      fun _ _ => True := fun _ => unchanged_of_disk rfl
  cases old with
  | none => exact refused
  | some old =>
    cases new with
    | none => exact refused
    | some new =>
      change wp (namei sb cwd old.bytes stack >>= _) s _ _
      rw [wp_bind]
      refine wp_mono (wp_namei sound old stack) ?_ fun _ _ stopped => stopped
      rintro _ t (⟨rfl, opens, _⟩ | ⟨ip, i, rfl, added⟩)
      · exact fun _ => unchanged_of_disk opens.disk
      · exact linkTo_unchanged valid sound added new stack

end Link

/-! ### `sys_mkdir` and `sys_mknod` -/

section Create

variable {sb : Superblock} {s t : FsState c} {cwd dp d : Nat}

/-- The locked parent directory, where the name was not found. -/
theorem Sound.site (sound : Sound sb s cwd) (target : Target sb s d)
    (isDir : (dinode sb s.disk d).type = tDir)
    (opens : Opens sb s (refCount s.itable + Pi.single d 1) t) (loaded : Loaded t.itable dp d) :
    Site sb t dp d where
  inv := opens.inv
  holeless := opens.disk ▸ sound.holeless
  live := by
    intro p j inUse
    rw [opens.disk]
    by_cases isDir : j = d
    · rw [isDir]
      exact target.live
    · have positive := inUse.refCount_pos opens.inv.consistent.one
      rw [opens.counts, Pi.add_apply, Pi.single_eq_of_ne isDir, Nat.add_zero] at positive
      obtain ⟨q, held⟩ := exists_inUse positive
      exact sound.live q j held
  parent := loaded
  isDir := opens.disk ▸ isDir
  whole := opens.disk ▸ sound.wholeDir target isDir
  inside := by
    rw [opens.disk]
    exact fun k inDir => sound.dirs.inside target.inside isDir inDir
  stays := by
    refine ⟨refCount s.itable, opens.counts, ?_⟩
    rw [opens.disk]
    exact target.stays

theorem createExisting_unchanged {type : UInt16} {ip i : Nat} (target : Target sb s i)
    (targetDir : Target sb s d)
    (opens : Opens sb s (refCount s.itable + Pi.single d 1 + Pi.single i 1) t)
    (inUse : InUse t.itable ip i) (parent : InUse t.itable dp d) :
    wp (createExisting sb type ip dp) t (fun made u => made = none → Unchanged sb s u)
      fun _ _ => True := by
  unfold createExisting
  rw [wp_bind]
  rw [add_right_comm] at opens
  refine wp_mono (wp_iput opens parent (targetDir.stays.imp id fun held =>
    .inl (Nat.lt_of_lt_of_le held (Nat.le_add_right _ _)))) ?_ fun _ _ absurd => absurd.elim
  rintro _ u ⟨opensU, keepsU⟩
  have inUseU : InUse u.itable ip i := (keepsU ip i (by simp [Pi.add_apply])).1 inUse
  rw [wp_bind]
  refine wp_mono (wp_ilock opensU inUseU target.live) ?_ fun _ _ absurd => absurd.elim
  rintro _ v ⟨opensV, loaded, _⟩
  rw [wp_bind, wp_get, wp_ite]
  split_ifs
  · exact fun isNone => absurd isNone (Option.some_ne_none ip)
  · refine wp_mono (putAndReturn_unchanged opensV loaded.inUse target.iput none) ?_
      fun _ _ _ => trivial
    exact fun _ w disk _ => unchanged_of_disk disk

theorem createIn_unchanged (valid : sb.Valid) (sound : Sound sb s cwd) (added : Added sb s dp d t)
    (isDir : (dinode sb s.disk d).type = tDir) {type : UInt16} (typed : type ≠ 0)
    (major minor : UInt16) (name : Mem) :
    wp (createIn sb type major minor dp name) t
      (fun made u => made = none → ¬ OutOfBlocks u → Unchanged sb s u) fun _ _ => True := by
  unfold createIn
  rw [wp_bind]
  refine wp_mono (wp_ilock added.opens added.inUse added.target.live) ?_
    fun _ _ absurd => absurd.elim
  rintro _ u ⟨opensU, loaded, _⟩
  rw [wp_bind]
  refine wp_mono (wp_dirlookup opensU loaded isDir (sound.wholeDir added.target isDir)
    fun k inDir => sound.dirs.inside added.target.inside isDir inDir) ?_ fun _ _ _ => trivial
  rintro _ v (⟨_, rfl, rfl⟩ | ⟨k, ip, i, found, rfl, rfl, got⟩)
  · refine wp_mono (createAbsent_unchanged valid (sound.site added.target isDir opensU loaded) typed
      major minor name) ?_ fun _ _ stopped => stopped
    exact fun _ w unchanged isNone enough => (unchanged isNone enough).from_disk opensU.disk
  · have existing := @createExisting_unchanged c sb s v dp d type ip _
      (sound.dirs.target added.target.inside isDir found) added.target got.opens got.inUse
      ((got.keeps dp d (by simp [Pi.add_apply])).1 loaded.inUse)
    exact wp_mono existing (fun _ _ unchanged isNone _ => unchanged isNone)
      fun _ _ stopped => stopped

theorem sysCreate_unchanged (valid : sb.Valid) (sound : Sound sb s cwd) (path : Option PathName)
    {type : UInt16} (typed : type ≠ 0) (major minor : UInt16) (stack : Mem) :
    wp (sysCreate sb cwd path type major minor stack) s
      (fun ret t => ret = -1 → ¬ OutOfBlocks t → Unchanged sb s t) fun _ _ => True := by
  cases path with
  | none => exact fun _ _ => unchanged_of_disk rfl
  | some path =>
    change wp (create sb cwd path.bytes type major minor stack >>= _) s _ _
    unfold create
    rw [wp_bind, wp_bind]
    refine wp_mono (wp_nameiparent sound path stack) ?_ fun _ _ stopped => stopped
    rintro _ t (⟨rfl, opens, _⟩ | ⟨dp, d, name, rfl, added, isDir⟩)
    · exact fun _ _ => unchanged_of_disk opens.disk
    · refine wp_mono (createIn_unchanged valid sound added isDir typed major minor name) ?_
        fun _ _ stopped => stopped
      rintro (_ | ip) u unchanged
      · exact fun _ => unchanged rfl
      · exact wp_of_yields (putAndReturn_yields sb ip (by decide))

end Create

/-! ### The calls -/

/-- A system call on the name space. -/
inductive NameCall where
  | link (old new : Option PathName)
  | unlink (path : Option PathName)
  | mkdir (path : Option PathName)
  | mknod (path : Option PathName) (major minor : UInt16)

/-- The call in a process with current directory `cwd`. -/
def NameCall.run (sb : Superblock) (cwd : Nat) (stack : Mem) : NameCall → FsM c Int
  | .link old new => sysLink sb cwd old new stack
  | .unlink path => sysUnlink sb cwd path stack
  | .mkdir path => sysMkdir sb cwd path stack
  | .mknod path major minor => sysMknod sb cwd path major minor stack

/-- A name space call that returns -1, with no `balloc` that failed, leaves the
file system as it found it. -/
theorem failed_call_changes_nothing {sb : Superblock} (valid : sb.Valid) {s : FsState c} {cwd : Nat}
    (sound : Sound sb s cwd) (call : NameCall) (stack : Mem) :
    wp (call.run sb cwd stack) s
      (fun ret t => ret = -1 → ¬ OutOfBlocks t → Unchanged sb s t) fun _ _ => True := by
  cases call with
  | link old new =>
    exact wp_mono (sysLink_unchanged valid sound old new stack)
      (fun _ _ unchanged failed _ => unchanged failed) fun _ _ stopped => stopped
  | unlink path =>
    exact wp_mono (sysUnlink_unchanged sound path stack)
      (fun _ _ unchanged failed _ => unchanged failed) fun _ _ stopped => stopped
  | mkdir path => exact sysCreate_unchanged valid sound path (by decide) 0 0 stack
  | mknod path major minor =>
    exact sysCreate_unchanged valid sound path (by decide) major minor stack

theorem deviceDir_sound : Sound smallDisk deviceDir 0 where
  inv := deviceDir_inv
  dirs := deviceDir_directories
  holeless := by
    have other : ∀ i < smallDisk.ninodes, i ≠ 1 →
        (dinode smallDisk deviceDir.disk i).size.toNat = 0 := by decide +kernel
    intro i inside live
    by_cases isRoot : i = 1
    · obtain rfl := isRoot
      rw [deviceDir_size]
      decide +kernel
    · intro p below
      rw [other i inside isRoot] at below
      exact absurd below (Nat.not_lt_zero p)
  live := by
    have table : ∀ ip < nInode, 0 < (deviceDir.itable ip).ref →
        (dinode smallDisk deviceDir.disk (deviceDir.itable ip).inum.toNat).type ≠ 0 := by
      decide +kernel
    rintro ip i ⟨bound, held, rfl⟩
    exact table ip bound held
  cwd := deviceDir_inUse

/-- `link("/a", "/x/y")` -/
def linkNowhere : NameCall :=
  .link (some ⟨[slash, 97], by decide⟩) (some ⟨[slash, 120, slash, 121], by decide⟩)

/-- `link` of `/a` to `/x/y` raises the device's link count, finds no `/x`, and lowers it
again. -/
theorem failed_link_deviceDir :
    wp (linkNowhere.run smallDisk 0 fun _ => 0) deviceDir
      (fun ret t => ret = -1 ∧ (¬ OutOfBlocks t → Unchanged smallDisk deviceDir t))
      fun _ _ => True := by
  have nothing := failed_call_changes_nothing smallDisk_valid deviceDir_sound linkNowhere fun _ => 0
  have fails : wp (linkNowhere.run smallDisk 0 fun _ => 0) deviceDir (fun ret _ => ret = -1)
      fun _ _ => True := by
    decide +kernel
  exact wp_mono (wp_inter fails nothing) (fun _ _ both => ⟨both.1, both.2 both.1⟩)
    fun _ _ _ => trivial

end Xv6.Kernel.Fs
