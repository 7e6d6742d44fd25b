import Xv6.Kernel.Fs.ByteArrays
import Xv6.Kernel.Fs.Compressed

/-!
Directories.

Owns: directory entries, the string functions names are compared and copied with,
`dirlookup` and `dirlink` over `readi` and `writei`, and what a look through a
directory finds whose blocks are all there.

Does not own: path names.
-/

namespace Xv6.Kernel.Fs

open Xv6.Lib

variable {c : Codec}

/-- `DIRSIZ` -/
def dirSiz : Nat := 14

/-! ### Strings -/

/-- `strncmp(p, q, n)`, from index `k` on. -/
def strncmp (p q : Mem) (k : Nat) : Nat → Int
  | 0 => 0
  | n + 1 =>
    if p k ≠ 0 ∧ p k = q k then strncmp p q (k + 1) n else (p k).toNat - (q k).toNat

/-- `namecmp` -/
def namecmp (s t : Mem) : Int := strncmp s t 0 dirSiz

/-- The `n` bytes that `strncpy(s, t, n)` stores, from index `k` on. -/
def strncpy (t : Mem) (k : Nat) : Nat → List UInt8
  | 0 => []
  | n + 1 => if t k = 0 then List.replicate (n + 1) 0 else t k :: strncpy t (k + 1) n

theorem length_strncpy (t : Mem) (k n : Nat) : (strncpy t k n).length = n := by
  induction n generalizing k with
  | zero => rfl
  | succ n ih =>
    unfold strncpy
    split_ifs
    · exact List.length_replicate
    · rw [List.length_cons, ih]

/-! ### Entries -/

/-- `struct dirent` -/
structure Dirent where
  inum : UInt16
  name : List UInt8
  length : name.length = dirSiz

namespace Dirent

/-- `sizeof(struct dirent)` -/
def bytes : Nat := 16

/-- The entry in a buffer. -/
def get (m : Mem) : Dirent := ⟨m.le16 0, m.read 2 dirSiz, Mem.length_read _ _ _⟩

/-- The bytes of an entry. -/
def put (de : Dirent) : List UInt8 := Mem.bytes16 de.inum ++ de.name

/-- The name as a string; past its 14 bytes no comparison looks. -/
def string (de : Dirent) : Mem := fun k => de.name.getD k 0

end Dirent

/-! ### The functions -/

/-- `readi` into a variable of the kernel: its value, and the variable's bytes. -/
def readKernel (sb : Superblock) (ip : Nat) (off n : UInt32) : FsM c (Int × Mem) := do
  let s ← get
  let ret ← readi sb ip (fun _ => true) off n
  let t ← get
  set { t with user := s.user }
  pure (ret, t.user)

/-- The loop of `dirlookup` from offset `off` on, in a directory of `size` bytes. -/
def dirlookupFrom (sb : Superblock) (dp : Nat) (name : Mem) (size off : Nat) :
    FsM c (Option (Nat × Nat)) :=
  if off < size then do
    let de ← readKernel sb dp (UInt32.ofNat off) (UInt32.ofNat Dirent.bytes)
    if de.1 ≠ Dirent.bytes then throw (.panic .dirlookupRead)
    else if (Dirent.get de.2).inum = 0 then dirlookupFrom sb dp name size (off + Dirent.bytes)
    else if namecmp name (Dirent.get de.2).string = 0 then do
      let ip ← iget (Dirent.get de.2).inum.toUInt32
      pure (some (ip, off))
    else dirlookupFrom sb dp name size (off + Dirent.bytes)
  else pure none
termination_by size - off
decreasing_by
  all_goals
    have : 0 < Dirent.bytes := by decide
    omega

/-- `dirlookup`: the inode and the offset of its entry, or the null pointer. The
size does not change while the directory is locked. -/
def dirlookup (sb : Superblock) (dp : Nat) (name : Mem) : FsM c (Option (Nat × Nat)) := do
  let s ← get
  if (s.itable dp).type ≠ tDir then throw (.panic .dirlookupNotDir)
  else dirlookupFrom sb dp name (s.itable dp).size.toNat 0

/-- The loop of `dirlink` that looks for an unused entry, from offset `off` on. -/
def unusedFrom (sb : Superblock) (dp size off : Nat) : FsM c Nat :=
  if off < size then do
    let de ← readKernel sb dp (UInt32.ofNat off) (UInt32.ofNat Dirent.bytes)
    if de.1 ≠ Dirent.bytes then throw (.panic .dirlinkRead)
    else if (Dirent.get de.2).inum = 0 then pure off
    else unusedFrom sb dp size (off + Dirent.bytes)
  else pure off
termination_by size - off
decreasing_by
  have : 0 < Dirent.bytes := by decide
  omega

/-- The bytes of a kernel variable as the source of a write. -/
def kernelSource (bytes : List UInt8) : Source := ⟨fun x => bytes.getD x 0, fun _ => true⟩

/-- The entry that `dirlink` writes. -/
def newEntry (name : Mem) (inum : UInt32) : Dirent :=
  ⟨inum.toUInt16, strncpy name 0 dirSiz, length_strncpy _ _ _⟩

/-- `dirlink` -/
def dirlink (sb : Superblock) (dp : Nat) (name : Mem) (inum : UInt32) : FsM c Int := do
  let found ← dirlookup sb dp name
  match found with
  | some entry => do
    iput sb entry.1
    pure (-1)
  | none => do
    let s ← get
    let off ← unusedFrom sb dp (s.itable dp).size.toNat 0
    let written ← writei sb dp (kernelSource (newEntry name inum).put) (UInt32.ofNat off)
      (UInt32.ofNat Dirent.bytes)
    if written ≠ Dirent.bytes then pure (-1) else pure 0

/-! ### Looking through a directory -/

/-- Entry `k` of a directory. -/
def dirEntry (disk : Disk) (node : Dinode) (k : Nat) : Dirent :=
  Dirent.get fun x => nodeByte disk node (Dirent.bytes * k + x)

/-- Entry `k` is in use and has this name. -/
def Matches (disk : Disk) (node : Dinode) (name : Mem) (k : Nat) : Prop :=
  (dirEntry disk node k).inum ≠ 0 ∧ namecmp name (dirEntry disk node k).string = 0

/-- The first `count` entries of a directory and their blocks are there. -/
structure HasEntries (s : FsState c) (dp count : Nat) : Prop where
  isDir : (s.itable dp).type = tDir
  size : Dirent.bytes * count ≤ (s.itable dp).size.toNat
  mapped : ∀ p < Dirent.bytes * count, Mapped s.disk (s.itable dp).toDinode (p / bsize)

section Lookup

variable {sb : Superblock} {s : FsState c} {dp count : Nat}

theorem Dirent.get_congr {m m' : Mem} (same : ∀ x < Dirent.bytes, m x = m' x) :
    Dirent.get m = Dirent.get m' := by
  have inum : m.le16 0 = m'.le16 0 := Mem.le16_congr fun x inside => by
    rw [Nat.zero_add]
    exact same x (Nat.lt_trans inside (by decide))
  have name : m.read 2 dirSiz = m'.read 2 dirSiz := Mem.read_congr fun x inside => by
    refine same _ ?_
    unfold Dirent.bytes
    unfold dirSiz at inside
    omega
  simp only [Dirent.get, inum, name]

/-- Reading an entry changes nothing. -/
theorem wp_readKernel (entries : HasEntries s dp count) {k : Nat} (inside : k < count)
    {post : Int × Mem → FsState c → Prop} {stop : Stop → FsState c → Prop}
    (done : ∀ m : Mem, Dirent.get m = dirEntry s.disk (s.itable dp).toDinode k →
      post (Dirent.bytes, m) s) :
    wp (readKernel sb dp (UInt32.ofNat (Dirent.bytes * k)) (UInt32.ofNat Dirent.bytes)) s post
      stop := by
  have size := entries.size
  have limit := (s.itable dp).size.toNat_lt
  have below : Dirent.bytes * k + Dirent.bytes ≤ Dirent.bytes * count :=
    Nat.le_trans (Nat.le_of_eq (Nat.mul_succ _ _).symm) (Nat.mul_le_mul_left _ inside)
  have off : (UInt32.ofNat (Dirent.bytes * k)).toNat = Dirent.bytes * k :=
    UInt32.toNat_ofNat_of_lt' (by change _ < 2 ^ 32; omega)
  have length : (UInt32.ofNat Dirent.bytes).toNat = Dirent.bytes := rfl
  have sum : (UInt32.ofNat (Dirent.bytes * k) + UInt32.ofNat Dirent.bytes).toNat =
      Dirent.bytes * k + Dirent.bytes := by
    rw [UInt32.toNat_add, off, length]
    exact Nat.mod_eq_of_lt (by omega)
  have inRange : ¬ ((s.itable dp).size < UInt32.ofNat (Dirent.bytes * k) ∨
      UInt32.ofNat (Dirent.bytes * k) + UInt32.ofNat Dirent.bytes <
        UInt32.ofNat (Dirent.bytes * k)) := by
    rw [UInt32.lt_iff_toNat_lt, UInt32.lt_iff_toNat_lt, off, sum]
    omega
  have whole : clip (s.itable dp).size (UInt32.ofNat (Dirent.bytes * k))
      (UInt32.ofNat Dirent.bytes) = UInt32.ofNat Dirent.bytes := by
    refine if_neg ?_
    rw [UInt32.lt_iff_toNat_lt, sum]
    omega
  have notFile : (s.itable dp).type ≠ tFile := by
    rw [entries.isDir]
    decide
  have copied : validLength (fun _ => true) 0 Dirent.bytes = Dirent.bytes :=
    validLength_eq fun _ _ => rfl
  unfold readKernel
  rw [wp_bind, wp_get, wp_bind]
  unfold readi
  rw [wp_bind, wp_get, wp_ite, if_neg inRange, wp_ite, if_neg notFile, whole]
  refine readPlain_mapped (fun p low high => entries.mapped p ?_) ?_
  · rw [off, length] at high
    omega
  · simp only [wp_bind, wp_get, wp_set, wp_pure, off, length, copied, if_true]
    refine done _ (Dirent.get_congr fun x inEntry => ?_)
    rw [Mem.copy_inside _ (Nat.zero_le x) (by rw [Mem.length_read]; omega), Nat.sub_zero,
      Mem.getD_read _ _ inEntry]

theorem wp_dirlookupFrom_skip (entries : HasEntries s dp count) {k : Nat} (inside : k < count)
    {name : Mem} (other : ¬ Matches s.disk (s.itable dp).toDinode name k)
    {post : Option (Nat × Nat) → FsState c → Prop} {stop : Stop → FsState c → Prop}
    (rest : wp (dirlookupFrom sb dp name (s.itable dp).size.toNat (Dirent.bytes * (k + 1))) s post
      stop) :
    wp (dirlookupFrom sb dp name (s.itable dp).size.toNat (Dirent.bytes * k)) s post stop := by
  have size := entries.size
  have below : Dirent.bytes * k < Dirent.bytes * count :=
    Nat.mul_lt_mul_of_pos_left inside (by decide)
  rw [Nat.mul_succ] at rest
  unfold dirlookupFrom
  rw [if_pos (by omega), wp_bind]
  refine wp_readKernel entries inside fun m isEntry => ?_
  rw [wp_ite, if_neg (fun different => different rfl), wp_ite, isEntry]
  by_cases unused : (dirEntry s.disk (s.itable dp).toDinode k).inum = 0
  · rw [if_pos unused]
    exact rest
  · rw [if_neg unused, wp_ite, if_neg fun same => other ⟨unused, same⟩]
    exact rest

/-- `dirlookup` returns the inode of the first entry that matches. -/
theorem dirlookup_found {k : Nat} (entries : HasEntries s dp (k + 1)) {name : Mem}
    (isFirst : ∀ j < k, ¬ Matches s.disk (s.itable dp).toDinode name j)
    (found : Matches s.disk (s.itable dp).toDinode name k)
    {post : Option (Nat × Nat) → FsState c → Prop} {stop : Stop → FsState c → Prop}
    (got : wp (iget (dirEntry s.disk (s.itable dp).toDinode k).inum.toUInt32) s
      (fun ip t => post (some (ip, Dirent.bytes * k)) t) stop) :
    wp (dirlookup sb dp name) s post stop := by
  have size := entries.size
  rw [Nat.mul_succ] at size
  have positive : 0 < Dirent.bytes := by decide
  unfold dirlookup
  rw [wp_bind, wp_get, wp_ite, if_neg (fun other => other entries.isDir)]
  -- from the match back to the first entry
  refine Nat.decreasingInduction' (P := fun j => wp (dirlookupFrom sb dp name
    (s.itable dp).size.toNat (Dirent.bytes * j)) s post stop) (fun j less _ =>
    wp_dirlookupFrom_skip entries (Nat.lt_succ_of_lt less) (isFirst j less)) (Nat.zero_le k) ?_
  unfold dirlookupFrom
  rw [if_pos (by omega), wp_bind]
  refine wp_readKernel entries (Nat.lt_succ_self k) fun m isEntry => ?_
  rw [wp_ite, if_neg (fun different => different rfl), wp_ite, isEntry, if_neg found.1, wp_ite,
    if_pos found.2, wp_bind]
  exact got

/-- `dirlookup` finds nothing where no entry matches. -/
theorem dirlookup_missing (entries : HasEntries s dp count)
    (all : (s.itable dp).size.toNat = Dirent.bytes * count) {name : Mem}
    (absent : ∀ j < count, ¬ Matches s.disk (s.itable dp).toDinode name j)
    {post : Option (Nat × Nat) → FsState c → Prop} {stop : Stop → FsState c → Prop}
    (done : post Option.none s) : wp (dirlookup sb dp name) s post stop := by
  unfold dirlookup
  rw [wp_bind, wp_get, wp_ite, if_neg (fun other => other entries.isDir)]
  refine Nat.decreasingInduction' (P := fun j => wp (dirlookupFrom sb dp name
    (s.itable dp).size.toNat (Dirent.bytes * j)) s post stop) (fun j less _ =>
    wp_dirlookupFrom_skip entries less (absent j less)) (Nat.zero_le count) ?_
  unfold dirlookupFrom
  rw [all, if_neg (Nat.lt_irrefl _)]
  exact done

theorem unusedFrom_full (entries : HasEntries s dp count)
    (all : (s.itable dp).size.toNat = Dirent.bytes * count)
    (used : ∀ j < count, (dirEntry s.disk (s.itable dp).toDinode j).inum ≠ 0)
    {post : Nat → FsState c → Prop} {stop : Stop → FsState c → Prop}
    (done : post (s.itable dp).size.toNat s) :
    wp (unusedFrom sb dp (s.itable dp).size.toNat 0) s post stop := by
  refine Nat.decreasingInduction' (P := fun j => wp (unusedFrom sb dp (s.itable dp).size.toNat
    (Dirent.bytes * j)) s post stop) (fun j less _ rest => ?_) (Nat.zero_le count) ?_
  · have below : Dirent.bytes * j < Dirent.bytes * count :=
      Nat.mul_lt_mul_of_pos_left less (by decide)
    unfold unusedFrom
    rw [if_pos (by omega), wp_bind]
    refine wp_readKernel entries less fun m isEntry => ?_
    rw [wp_ite, if_neg (fun different => different rfl), wp_ite, isEntry, if_neg (used j less)]
    exact rest
  · unfold unusedFrom
    rw [all, if_neg (Nat.lt_irrefl _), ← all]
    exact done

/-- A new name in a directory whose entries are all in use is written behind them. -/
theorem dirlink_full (entries : HasEntries s dp count)
    (all : (s.itable dp).size.toNat = Dirent.bytes * count)
    (used : ∀ j < count, (dirEntry s.disk (s.itable dp).toDinode j).inum ≠ 0) {name : Mem}
    (absent : ∀ j < count, ¬ Matches s.disk (s.itable dp).toDinode name j) {inum : UInt32}
    {post : Int → FsState c → Prop} {stop : Stop → FsState c → Prop}
    (written : wp (writei sb dp (kernelSource (newEntry name inum).put) (s.itable dp).size
        (UInt32.ofNat Dirent.bytes)) s
      (fun ret t => post (if ret ≠ Dirent.bytes then -1 else 0) t) stop) :
    wp (dirlink sb dp name inum) s post stop := by
  unfold dirlink
  rw [wp_bind]
  refine dirlookup_missing entries all absent ?_
  change wp (get >>= _) s post stop
  rw [wp_bind, wp_get, wp_bind]
  refine unusedFrom_full entries all used ?_
  rw [UInt32.ofNat_toNat, wp_bind]
  refine wp_mono written ?_ fun _ _ stopped => stopped
  intro ret t after
  rw [wp_ite]
  by_cases short : ret ≠ Dirent.bytes
  · rw [if_pos short] at after ⊢
    exact after
  · rw [if_neg short] at after ⊢
    exact after

end Lookup

end Xv6.Kernel.Fs
