import Xv6.Kernel.Fs.References

/-!
Path resolution.

Owns: the inode a list of names leads to by the directories on disk, the
directories and references of a file system in which paths can be followed, and
that `namei` and `nameiparent` follow the components of the path, with one
reference more to the inode they return and to no other.

Does not own: sleep-locks.
-/

namespace Xv6.Kernel.Fs

open Xv6.Lib

variable {c : Codec}

/-! ### What a path leads to -/

/-- The inode a directory has for a name; other inodes have none. -/
def lookup (sb : Superblock) (disk : Disk) (i : Nat) (name : List UInt8) : Option Nat :=
  if (dinode sb disk i).type = tDir then entryFor disk (dinode sb disk i) name else none

/-- The inode that a list of names leads to. -/
def resolve (sb : Superblock) (disk : Disk) (i : Nat) (names : List (List UInt8)) : Option Nat :=
  names.foldlM (lookup sb disk) i

/-- The directory before the last name, and this name. -/
def resolveParent (sb : Superblock) (disk : Disk) (i : Nat) (names : List (List UInt8)) :
    Option (Nat × List UInt8) :=
  names.getLast?.bind fun last =>
    ((resolve sb disk i names.dropLast).filter fun d => (dinode sb disk d).type = tDir).map
      fun d => (d, last)

section Resolve

variable {sb : Superblock} {disk : Disk} {i : Nat}

theorem resolve_cons (name : List UInt8) (names : List (List UInt8)) :
    resolve sb disk i (name :: names) =
      (lookup sb disk i name).bind fun j => resolve sb disk j names := rfl

theorem lookup_eq_none_iff (name : List UInt8) :
    lookup sb disk i name = none ↔
      (dinode sb disk i).type ≠ tDir ∨ entryFor disk (dinode sb disk i) name = none := by
  unfold lookup
  split_ifs with isDir
  · exact ⟨.inr, fun either => either.resolve_left fun other => other isDir⟩
  · exact ⟨fun _ => .inl isDir, fun _ => rfl⟩

theorem resolve_eq_none_iff (names : List (List UInt8)) :
    resolve sb disk i names = none ↔ ∃ before name after d, names = before ++ name :: after ∧
      resolve sb disk i before = some d ∧
      ((dinode sb disk d).type ≠ tDir ∨ entryFor disk (dinode sb disk d) name = none) := by
  induction names generalizing i with
  | nil =>
    refine iff_of_false (Option.some_ne_none i) ?_
    rintro ⟨before, name, after, _, absurd, _⟩
    exact List.append_ne_nil_of_right_ne_nil before (List.cons_ne_nil name after) absurd.symm
  | cons first rest ih =>
    rw [resolve_cons]
    cases next : lookup sb disk i first with
    | none =>
      refine iff_of_true rfl ⟨[], first, rest, i, rfl, rfl, ?_⟩
      exact (lookup_eq_none_iff first).mp next
    | some j =>
      rw [Option.bind_some, ih]
      constructor
      · rintro ⟨before, name, after, d, rfl, leads, fails⟩
        refine ⟨first :: before, name, after, d, rfl, ?_, fails⟩
        rw [resolve_cons, next, Option.bind_some, leads]
      · rintro ⟨before, name, after, d, split, leads, fails⟩
        cases before with
        | nil =>
          rw [List.nil_append, List.cons.injEq] at split
          have here : i = d := Option.some_inj.mp leads
          rw [split.1, here, (lookup_eq_none_iff name).mpr fails] at next
          exact absurd next (Option.some_ne_none j).symm
        | cons head before =>
          rw [List.cons_append, List.cons.injEq] at split
          rw [← split.1, resolve_cons, next, Option.bind_some] at leads
          exact ⟨before, name, after, d, split.2, leads, fails⟩

theorem resolveParent_singleton (name : List UInt8) :
    resolveParent sb disk i [name] =
      if (dinode sb disk i).type = tDir then some (i, name) else none := by
  change Option.map (fun d => (d, name)) (Option.filter _ (some i)) = _
  by_cases isDir : (dinode sb disk i).type = tDir
  · rw [Option.filter_some, if_pos (by simpa using isDir), if_pos isDir]
    rfl
  · rw [Option.filter_some, if_neg (by simpa using isDir), if_neg isDir]
    rfl

theorem resolveParent_cons (name : List UInt8) {names : List (List UInt8)} (more : names ≠ []) :
    resolveParent sb disk i (name :: names) =
      (lookup sb disk i name).bind fun j => resolveParent sb disk j names := by
  obtain ⟨second, rest, rfl⟩ := List.exists_cons_of_ne_nil more
  rw [resolveParent, List.getLast?_cons_cons, List.dropLast_cons_cons, resolve_cons]
  cases lookup sb disk i name with
  | none => simp
  | some j => rfl

end Resolve

/-! ### File systems in which paths can be followed -/

/-- An allocated inode that has a link or a reference. -/
structure Target (sb : Superblock) (s : FsState c) (i : Nat) : Prop where
  inside : i < sb.ninodes
  live : (dinode sb s.disk i).type ≠ 0
  stays : (dinode sb s.disk i).nlink ≠ 0 ∨ 0 < refCount s.itable i

/-- What `iput` asks of a reference that a call added. -/
theorem Target.iput {sb : Superblock} {s t : FsState c} {ip i : Nat} (target : Target sb s i) :
    (dinode sb s.disk i).nlink ≠ 0 ∨ 0 < refCount s.itable i ∨ (t.itable ip).valid = false :=
  target.stays.imp id .inl

/-- The directories have their blocks, and they and the root name inodes that
stay. -/
structure Directories (sb : Superblock) (s : FsState c) : Prop where
  whole : ∀ d < sb.ninodes, (dinode sb s.disk d).type = tDir → WholeDir s.disk (dinode sb s.disk d)
  targets : ∀ d < sb.ninodes, (dinode sb s.disk d).type = tDir →
    ∀ k < (dinode sb s.disk d).size.toNat / Dirent.bytes,
      (dirEntry s.disk (dinode sb s.disk d) k).inum ≠ 0 →
        Target sb s (dirEntry s.disk (dinode sb s.disk d) k).inum.toNat
  root : Target sb s rootIno.toNat

/-- The unused entries of the inode table. -/
def freeEntries (itable : Nat → Inode) : Nat :=
  ((Finset.range nInode).filter fun ip => (itable ip).ref = 0).card

section Namex

variable {sb : Superblock} {s t : FsState c} {ip i : Nat}

theorem Directories.inside (dirs : Directories sb s) {d : Nat} (bound : d < sb.ninodes)
    (isDir : (dinode sb s.disk d).type = tDir) {k : Nat}
    (inDir : k < (dinode sb s.disk d).size.toNat / Dirent.bytes) :
    (dirEntry s.disk (dinode sb s.disk d) k).inum.toNat < sb.ninodes := by
  by_cases unused : (dirEntry s.disk (dinode sb s.disk d) k).inum = 0
  · rw [unused]
    exact Nat.lt_of_le_of_lt (Nat.zero_le _) bound
  · exact (dirs.targets d bound isDir k inDir unused).inside

/-- An entry that a lookup finds is one of the directory's. -/
theorem Directories.target (dirs : Directories sb s) {d : Nat} (bound : d < sb.ninodes)
    (isDir : (dinode sb s.disk d).type = tDir) {name : List UInt8} {k : Nat}
    (found : entryIndex s.disk (dinode sb s.disk d) name = some k) :
    Target sb s (dirEntry s.disk (dinode sb s.disk d) k).inum.toNat := by
  have inDir := List.mem_range.mp (List.mem_of_find?_eq_some found)
  have isMatch := List.find?_some found
  rw [decide_eq_true_iff] at isMatch
  exact dirs.targets d bound isDir k inDir isMatch.1

theorem freeEntries_lt {refs : Nat → Nat} (opens : Opens sb s refs t)
    (most : ∀ j ≠ i, refs j = refCount s.itable j) (full : ∀ p < nInode, 0 < (t.itable p).ref) :
    freeEntries s.itable < 2 := by
  -- the entries of `t` are for distinct inodes, and `s` has an entry for all but one
  let number := fun (itable : Nat → Inode) ip => (itable ip).inum.toNat
  let used := (Finset.range nInode).filter fun p => ¬ (s.itable p).ref = 0
  have injective : Set.InjOn (number t.itable) (Finset.range nInode) := by
    intro p pBound q qBound same
    rw [Finset.coe_range, Set.mem_Iio] at pBound qBound
    exact opens.inv.consistent.one p pBound q qBound (full p pBound) (full q qBound)
      (UInt32.toNat_inj.mp same)
  have covered : (Finset.range nInode).image (number t.itable) ⊆
      insert i (used.image (number s.itable)) := by
    intro j member
    obtain ⟨p, pBound, rfl⟩ := Finset.mem_image.mp member
    rw [Finset.mem_range] at pBound
    rw [Finset.mem_insert, or_iff_not_imp_left]
    intro other
    have inUse : InUse t.itable p (number t.itable p) := ⟨pBound, full p pBound, rfl⟩
    have positive := inUse.refCount_pos opens.inv.consistent.one
    rw [opens.counts, most _ other] at positive
    obtain ⟨q, qBound, held, isSame⟩ := exists_inUse positive
    refine Finset.mem_image.mpr ⟨q, ?_, isSame⟩
    rw [Finset.mem_filter, Finset.mem_range]
    exact ⟨qBound, Nat.ne_of_gt held⟩
  have all : ((Finset.range nInode).image (number t.itable)).card = nInode := by
    rw [Finset.card_image_of_injOn injective, Finset.card_range]
  have few := Finset.card_le_card covered
  have atMost := Finset.card_insert_le i (used.image (number s.itable))
  have images : (used.image (number s.itable)).card ≤ used.card := Finset.card_image_le
  have split := Finset.card_filter_add_card_filter_not (s := Finset.range nInode)
    fun p => (s.itable p).ref = 0
  rw [Finset.card_range] at split
  unfold freeEntries
  change _ + used.card = _ at split
  omega

/-- The only way not to return: `iget` finds no entry, with fewer than two unused
before the call. -/
def Crowded (s : FsState c) (reason : Stop) (_ : FsState c) : Prop :=
  reason = .panic .igetNoInodes ∧ freeEntries s.itable < 2

theorem refs_added_none (itable : Nat → Inode) :
    (fun j => refCount itable j + if none = some j then 1 else 0) = refCount itable := by
  funext j
  rw [if_neg (Option.some_ne_none j).symm, Nat.add_zero]

theorem refs_added_some (itable : Nat → Inode) (goal : Nat) :
    (fun j => refCount itable j + if some goal = some j then 1 else 0) =
      refCount itable + Pi.single goal 1 := by
  funext j
  rw [Pi.add_apply, Pi.single_apply]
  simp only [Option.some_inj, eq_comm]

/-- The pointer is the one to inode `goal`, which has one reference more than
before; nothing else changed. Without a `goal` it is the null pointer. -/
structure Returns (sb : Superblock) (s : FsState c) (goal found : Option Nat) (u : FsState c) :
    Prop where
  kept : Keeps (refCount s.itable) s u
  opens : Opens sb s (fun j => refCount s.itable j + if goal = some j then 1 else 0) u
  entry : ∀ i, goal = some i → ∃ ip, found = some ip ∧ InUse u.itable ip i
  null : goal = none → found = none

theorem returns_null (opens : Opens sb s (refCount s.itable) t)
    (kept : Keeps (refCount s.itable) s t) : Returns sb s none none t where
  kept := kept
  opens := by
    rw [refs_added_none]
    exact opens
  entry := fun i isSome => absurd isSome (Option.some_ne_none i).symm
  null := fun _ => rfl

theorem returns_entry (opens : Opens sb s (refCount s.itable + Pi.single i 1) t)
    (kept : Keeps (refCount s.itable) s t) (inUse : InUse t.itable ip i) :
    Returns sb s (some i) (some ip) t where
  kept := kept
  opens := by
    rw [refs_added_some]
    exact opens
  entry := fun j isSome => ⟨ip, rfl, Option.some_inj.mp isSome ▸ inUse⟩
  null := fun isNone => absurd isNone (Option.some_ne_none i)

theorem wp_namexElement (dirs : Directories sb s)
    (opens : Opens sb s (refCount s.itable + Pi.single i 1) t)
    (kept : Keeps (refCount s.itable) s t) (inUse : InUse t.itable ip i)
    (target : Target sb s i) {parent : Bool} {rest : List UInt8} {name : Mem}
    {loop : Nat → FsM c (Option (Nat × Mem))} {post : Option (Nat × Mem) → FsState c → Prop}
    (fails : lookup sb s.disk i (nameOf name) = none →
      (parent ∧ rest = [] → (dinode sb s.disk i).type ≠ tDir) →
      ∀ u, Opens sb s (refCount s.itable) u → Keeps (refCount s.itable) s u → post none u)
    (stopsEarly : (parent ∧ rest = []) → (dinode sb s.disk i).type = tDir → ∀ u,
      Opens sb s (refCount s.itable + Pi.single i 1) u → Keeps (refCount s.itable) s u →
        InUse u.itable ip i → post (some (ip, name)) u)
    (goesOn : ¬ (parent ∧ rest = []) → ∀ j ip' u, lookup sb s.disk i (nameOf name) = some j →
      Target sb s j → Opens sb s (refCount s.itable + Pi.single j 1) u →
      Keeps (refCount s.itable) s u → InUse u.itable ip' j →
        wp (loop ip') u post (Crowded s)) :
    wp (namexElement sb parent rest name ip loop) t post (Crowded s) := by
  unfold namexElement
  rw [wp_bind]
  refine wp_mono (wp_ilock opens inUse target.live) ?_ fun _ _ absurd => absurd.elim
  rintro _ u ⟨opensU, loaded, keepsU⟩
  have keptU := kept.trans keepsU.fewer
  have node := opensU.node loaded
  have type : (u.itable ip).type = (dinode sb s.disk i).type := congrArg Dinode.type node
  rw [wp_bind, wp_get, wp_ite, type]
  -- the reference given back when the name leads nowhere
  have giveBack : lookup sb s.disk i (nameOf name) = none →
      (parent ∧ rest = [] → (dinode sb s.disk i).type ≠ tDir) →
      wp (do iput sb ip; pure none) u post (Crowded s) := by
    intro missing notParent
    rw [wp_bind]
    refine wp_mono (wp_iput opensU loaded.inUse target.iput) ?_ fun _ _ absurd => absurd.elim
    exact fun _ v after => fails missing notParent v after.1 (keptU.trans after.2)
  by_cases isDir : (dinode sb s.disk i).type = tDir
  · rw [if_neg fun other => other isDir, wp_ite]
    split_ifs with early
    · exact stopsEarly early isDir u opensU keptU loaded.inUse
    · rw [wp_bind]
      refine wp_mono (wp_dirlookup opensU loaded isDir (dirs.whole i target.inside isDir)
        fun k inDir => dirs.inside target.inside isDir inDir) ?_ ?_
      · rintro _ v (⟨missing, rfl, rfl⟩ | ⟨k, ip', j, found, isJ, rfl, got⟩)
        · refine giveBack ?_ fun isParent => absurd isParent early
          rw [lookup, if_pos isDir, entryFor, missing]
          rfl
        · have held : InUse v.itable ip i :=
            (got.keeps ip i (by simp [Pi.add_apply])).1 loaded.inUse
          have isTarget : Target sb s j := isJ ▸ dirs.target target.inside isDir found
          have isLookup : lookup sb s.disk i (nameOf name) = some j := by
            rw [lookup, if_pos isDir, entryFor, found, ← isJ]
            rfl
          have opensV := got.opens
          rw [add_right_comm] at opensV
          change wp (iput sb ip >>= fun _ => loop ip') v post (Crowded s)
          rw [wp_bind]
          have stays : (dinode sb s.disk i).nlink ≠ 0 ∨
              0 < (refCount s.itable + Pi.single j 1 : Nat → Nat) i ∨
              (v.itable ip).valid = false := by
            rcases target.stays with linked | others
            · exact .inl linked
            · exact .inr (.inl (Nat.lt_of_lt_of_le others (Nat.le_add_right _ _)))
          refine wp_mono (wp_iput opensV held stays) ?_ fun _ _ absurd => absurd.elim
          rintro _ w ⟨opensW, keepsW⟩
          exact goesOn early j ip' w isLookup isTarget opensW
            ((keptU.trans got.keeps.fewer.fewer).trans keepsW.fewer)
            ((keepsW ip' j (by simp [Pi.add_apply])).1 got.inUse)
      · rintro reason v ⟨isPanic, full⟩
        refine ⟨isPanic, freeEntries_lt (i := i) opensU (fun j other => ?_) full⟩
        rw [Pi.add_apply, Pi.single_eq_of_ne other, Nat.add_zero]
  · rw [if_pos isDir]
    refine giveBack ?_ fun _ => isDir
    rw [lookup, if_neg isDir]

/-- The loop of `namei`. -/
theorem wp_namexFrom_inode (dirs : Directories sb s) (path : List UInt8)
    (noNul : 0 ∉ path) (name : Mem) (opens : Opens sb s (refCount s.itable + Pi.single i 1) t)
    (kept : Keeps (refCount s.itable) s t) (inUse : InUse t.itable ip i) (target : Target sb s i) :
    wp (namexFrom sb false path name ip) t
      (fun found u => Returns sb s (resolve sb s.disk i (components path)) (found.map Prod.fst) u)
      (Crowded s) := by
  generalize size : path.length = length
  induction length using Nat.strong_induction_on generalizing path name t ip i with
  | _ length ih =>
    cases element : skipelem path name with
    | none =>
      rw [namexFrom_none element, components_of_none element]
      exact returns_entry opens kept inUse
    | some next =>
      obtain ⟨rest, name'⟩ := next
      obtain ⟨isComponents, noNulRest⟩ := components_of_some noNul element
      have shorter := skipelem_shorter element
      rw [namexFrom_some element, isComponents, resolve_cons]
      refine wp_namexElement dirs opens kept inUse target ?_ ?_ ?_
      · intro missing _ u opensU keptU
        rw [missing]
        exact returns_null opensU keptU
      · rintro ⟨absurd, _⟩
        exact Bool.noConfusion absurd
      · intro _ j ip' u found isTarget opensU keptU inUseU
        rw [found]
        exact ih rest.length (by omega) rest noNulRest name' opensU keptU inUseU
          isTarget rfl

/-- The loop of `nameiparent`. -/
theorem wp_namexFrom_parent (dirs : Directories sb s)
    (path : List UInt8) (noNul : 0 ∉ path) (name : Mem)
    (opens : Opens sb s (refCount s.itable + Pi.single i 1) t)
    (kept : Keeps (refCount s.itable) s t) (inUse : InUse t.itable ip i)
    (target : Target sb s i) :
    wp (namexFrom sb true path name ip) t
      (fun found u =>
        Returns sb s ((resolveParent sb s.disk i (components path)).map Prod.fst)
          (found.map Prod.fst) u ∧
        found.map (fun entry => nameOf entry.2) =
          (resolveParent sb s.disk i (components path)).map Prod.snd) (Crowded s) := by
  generalize size : path.length = length
  induction length using Nat.strong_induction_on generalizing path name t ip i with
  | _ length ih =>
    cases element : skipelem path name with
    | none =>
      rw [namexFrom_none element, components_of_none element, namexEnd, if_pos rfl, wp_bind]
      refine wp_mono (wp_iput opens inUse target.iput) ?_ fun _ _ absurd => absurd.elim
      exact fun _ u after => ⟨returns_null after.1 (kept.trans after.2), rfl⟩
    | some next =>
      obtain ⟨rest, name'⟩ := next
      obtain ⟨isComponents, noNulRest⟩ := components_of_some noNul element
      have shorter := skipelem_shorter element
      have ended := components_rest element
      rw [namexFrom_some element, isComponents]
      refine wp_namexElement dirs opens kept inUse target ?_ ?_ ?_
      · intro missing notParent u opensU keptU
        have nowhere : resolveParent sb s.disk i (nameOf name' :: components rest) = none := by
          by_cases last : components rest = []
          · rw [last, resolveParent_singleton, if_neg (notParent ⟨rfl, ended.mp last⟩)]
          · rw [resolveParent_cons _ last, missing]
            rfl
        rw [nowhere]
        exact ⟨returns_null opensU keptU, rfl⟩
      · rintro ⟨_, last⟩ isDir u opensU keptU inUseU
        rw [ended.mpr last, resolveParent_singleton, if_pos isDir]
        exact ⟨returns_entry opensU keptU inUseU, rfl⟩
      · intro goesOn j ip' u found isTarget opensU keptU inUseU
        have more : components rest ≠ [] := fun last => goesOn ⟨rfl, ended.mp last⟩
        rw [resolveParent_cons _ more, found]
        exact ih rest.length (by omega) rest noNulRest name' opensU keptU inUseU
          isTarget rfl

/-- The inode at which `namex` starts. -/
def startOf (s : FsState c) (cwd : Nat) (path : List UInt8) : Nat :=
  if path.head? = some slash then rootIno.toNat else (s.itable cwd).inum.toNat

/-- `namex` starts its loop with a reference to the root or the current directory. -/
theorem wp_namex (inv : FsInv sb s) (dirs : Directories sb s) {cwd : Nat}
    (inUse : InUse s.itable cwd (s.itable cwd).inum.toNat)
    (live : (dinode sb s.disk (s.itable cwd).inum.toNat).type ≠ 0) {parent : Bool}
    {path : List UInt8} {name : Mem} {post : Option (Nat × Mem) → FsState c → Prop}
    (loop : ∀ ip t, Opens sb s (refCount s.itable + Pi.single (startOf s cwd path) 1) t →
      Keeps (refCount s.itable) s t → InUse t.itable ip (startOf s cwd path) →
        Target sb s (startOf s cwd path) →
        wp (namexFrom sb parent path name ip) t post (Crowded s)) :
    wp (namex sb cwd parent path name) s post (Crowded s) := by
  unfold namex namexStart
  rw [wp_bind, wp_ite]
  unfold startOf at loop
  split_ifs at loop ⊢ with absolute
  · refine wp_mono (wp_iget (Opens.refl inv) dirs.root.inside) ?_ ?_
    · intro ip t got
      exact loop ip t got.opens got.keeps.fewer got.inUse dirs.root
    · rintro reason t ⟨isPanic, full⟩
      exact ⟨isPanic, freeEntries_lt (i := 0) (Opens.refl inv) (fun _ _ => rfl) full⟩
  · refine wp_mono (wp_idup (Opens.refl inv) inUse) ?_ fun _ _ stopped => stopped
    rintro ip t ⟨rfl, opens, inUseT, keeps⟩
    refine loop ip t opens keeps.fewer inUseT ⟨inv.consistent.range ip inUse.1 inUse.2.1,
      live, .inr ?_⟩
    exact inUse.refCount_pos inv.consistent.one

end Namex

/-- A root directory with the device `a` in it. -/
def deviceDir : FsState huffman := ((playSmall makeDevice).map Session.fs).getD emptyDir

theorem deviceDir_inv : FsInv smallDisk deviceDir := by
  have running : (playSmall makeDevice).map (fun m => m.stopped.isNone) = some true := by
    decide +kernel
  obtain ⟨m, played, isRunning⟩ := Option.map_eq_some_iff.mp running
  obtain ⟨steps, run⟩ := playSmall_runs played
  rw [deviceDir, played]
  exact (sessionInv_of_run smallDisk_valid run).running (Option.isNone_iff_eq_none.mp isRunning)

theorem deviceDir_inUse : InUse deviceDir.itable 0 (deviceDir.itable 0).inum.toNat :=
  ⟨by decide, by decide +kernel, rfl⟩

theorem deviceDir_only : ∀ d < smallDisk.ninodes,
    (dinode smallDisk deviceDir.disk d).type = tDir → d = 1 := by decide +kernel

theorem deviceDir_size : (dinode smallDisk deviceDir.disk 1).size = 16 := by decide +kernel

theorem deviceDir_directories : Directories smallDisk deviceDir where
  whole := by
    intro d bound isDir
    obtain rfl := deviceDir_only d bound isDir
    constructor <;> rw [deviceDir_size] <;> decide +kernel
  targets := by
    intro d bound isDir k inDir _
    obtain rfl := deviceDir_only d bound isDir
    rw [deviceDir_size] at inDir
    obtain rfl := Nat.lt_one_iff.mp inDir
    exact ⟨by decide +kernel, by decide +kernel, .inl (by decide +kernel)⟩
  root := ⟨by decide, by decide +kernel, .inl (by decide +kernel)⟩

/-- Repeated calls of `skipelem` yield the components of a path. `namei` returns
the inode they lead to from the root or the current directory, and `nameiparent`
the directory before the last one, with its name; the inode returned has one
reference more, and nothing else changes. The calls return unless the inode table
has fewer than two unused entries. -/
theorem path_resolution {sb : Superblock} (path : List UInt8) (noNul : 0 ∉ path) (name : Mem) :
    (skipelems path name).map nameOf = (fields slash path).map (fun field => field.take dirSiz) ∧
    (∀ disk i, resolve sb disk i (components path) = none ↔
      ∃ before name after d, components path = before ++ name :: after ∧
        resolve sb disk i before = some d ∧
        ((dinode sb disk d).type ≠ tDir ∨ entryFor disk (dinode sb disk d) name = none)) ∧
    ∀ (s : FsState c) (cwd : Nat), FsInv sb s → Directories sb s →
      InUse s.itable cwd (s.itable cwd).inum.toNat →
      (dinode sb s.disk (s.itable cwd).inum.toNat).type ≠ 0 →
      wp (namei sb cwd path name) s
        (fun found t => Returns sb s (resolve sb s.disk (startOf s cwd path) (components path))
          found t) (Crowded s) ∧
      wp (nameiparent sb cwd path name) s
        (fun found t =>
          Returns sb s ((resolveParent sb s.disk (startOf s cwd path) (components path)).map
            Prod.fst) (found.map Prod.fst) t ∧
          found.map (fun entry => nameOf entry.2) =
            (resolveParent sb s.disk (startOf s cwd path) (components path)).map Prod.snd)
        (Crowded s) := by
  refine ⟨skipelems_components path noNul name, fun _ _ => resolve_eq_none_iff _, ?_⟩
  intro s cwd inv dirs inUse live
  constructor
  · unfold namei
    rw [wp_bind]
    exact wp_namex inv dirs inUse live fun ip t opens kept inUseT target =>
      wp_namexFrom_inode dirs path noNul name opens kept inUseT target
  · exact wp_namex inv dirs inUse live fun ip t opens kept inUseT target =>
      wp_namexFrom_parent dirs path noNul name opens kept inUseT target

/-- `namei` finds `/a`, and `nameiparent` the root and the name `a`. -/
theorem path_resolution_deviceDir :
    (skipelems [slash, 97] fun _ => 0).map nameOf = [[97]] ∧
      wp (namei smallDisk 0 [slash, 97] fun _ => 0) deviceDir
        (fun found t => ∃ ip, found = some ip ∧ InUse t.itable ip 2) (Crowded deviceDir) ∧
      wp (nameiparent smallDisk 0 [slash, 97] fun _ => 0) deviceDir
        (fun found t => found.map (fun entry => nameOf entry.2) = some [97] ∧
          ∃ ip, found.map Prod.fst = some ip ∧ InUse t.itable ip 1)
        (Crowded deviceDir) := by
  obtain ⟨names, _, calls⟩ := @path_resolution huffman smallDisk [slash, 97] (by decide) fun _ => 0
  have device : resolve smallDisk deviceDir.disk (startOf deviceDir 0 [slash, 97])
      (components [slash, 97]) = some 2 := by decide +kernel
  have parent : resolveParent smallDisk deviceDir.disk (startOf deviceDir 0 [slash, 97])
      (components [slash, 97]) = some (1, [97]) := by decide +kernel
  obtain ⟨whole, before⟩ := calls deviceDir 0 deviceDir_inv deviceDir_directories
    deviceDir_inUse (by decide +kernel)
  refine ⟨names.trans (by decide), wp_mono whole ?_ fun _ _ stopped => stopped,
    wp_mono before ?_ fun _ _ stopped => stopped⟩
  · intro found t returns
    rw [device] at returns
    exact returns.entry 2 rfl
  · rintro found t ⟨returns, named⟩
    rw [parent] at returns named
    exact ⟨named, returns.entry 1 rfl⟩

end Xv6.Kernel.Fs
