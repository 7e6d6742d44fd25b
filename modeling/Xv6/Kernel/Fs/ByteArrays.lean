import Xv6.Kernel.Fs.Bitmap
import Xv6.Kernel.Fs.Read

/-!
Inodes other than regular files are byte arrays.

Owns: the abstract byte arrays with their three operations, the calls of `writei`,
`readi` and `itrunc` that the refinement is about, and the refinement over every
sequence of them.

Does not own: regular files, whose contents may be compressed.
-/

namespace Xv6.Kernel.Fs

open Xv6.Lib Function

variable {c : Codec}

/-! ### Byte arrays -/

/-- Replace the bytes from `off` on, growing the array if needed. -/
def splice (array : List UInt8) (off : Nat) (bytes : List UInt8) : List UInt8 :=
  array.take off ++ bytes ++ array.drop (off + bytes.length)

/-- Calls on byte arrays, one array for each inode number. -/
inductive ArrayCall where
  | writei (i off : Nat) (bytes : List UInt8)
  | readi (i off n : Nat)
  | itrunc (i : Nat)

/-- What a call on byte arrays returns: a value, and the bytes it read. -/
def ArrayCall.result (arrays : Nat → List UInt8) : ArrayCall → Int × List UInt8
  | .writei _ _ bytes => (bytes.length, [])
  | .readi i off n => ((((arrays i).drop off).take n).length, ((arrays i).drop off).take n)
  | .itrunc _ => (0, [])

/-- The arrays after a call. -/
def ArrayCall.apply (arrays : Nat → List UInt8) : ArrayCall → Nat → List UInt8
  | .writei i off bytes => update arrays i (splice (arrays i) off bytes)
  | .readi _ _ _ => arrays
  | .itrunc i => update arrays i []

/-- A call with what it returned; `none` stands for a call that does not return,
which no call on byte arrays is. -/
def ArrayStep (arrays : Nat → List UInt8) (label : ArrayCall × Option (Int × List UInt8))
    (arrays' : Nat → List UInt8) : Prop :=
  label.2 = some (label.1.result arrays) ∧ arrays' = label.1.apply arrays

theorem read_splice {m m' : Mem} {size off : Nat} {bytes : List UInt8} (small : off ≤ size)
    (outside : ∀ p < size, ¬ (off ≤ p ∧ p < off + bytes.length) → m' p = m p)
    (inside : ∀ x < bytes.length, m' (off + x) = bytes.getD x 0) :
    m'.read 0 (max size (off + bytes.length)) = splice (m.read 0 size) off bytes := by
  have split : max size (off + bytes.length) =
      off + bytes.length + (size - (off + bytes.length)) := by omega
  have first : m'.read 0 off = (m.read 0 size).take off := by
    rw [Mem.take_read m 0 small]
    exact Mem.read_congr fun x low => by
      rw [Nat.zero_add]
      exact outside x (by omega) (by omega)
  have middle : m'.read off bytes.length = bytes := by
    apply List.ext_getElem (by simp)
    intro x _ low
    have isByte := inside x low
    rw [List.getD_eq_getElem _ _ low] at isByte
    simp [Mem.read, isByte]
  have last : m'.read (off + bytes.length) (size - (off + bytes.length)) =
      (m.read 0 size).drop (off + bytes.length) := by
    rw [Mem.drop_read, Nat.zero_add]
    exact Mem.read_congr fun x low => outside _ (by omega) (by omega)
  rw [split, Mem.read_append, Mem.read_append, Nat.zero_add, first, middle, Nat.zero_add, last,
    splice]

/-! ### The calls -/

/-- How a call ended: its value, if it returned, and the state it left. -/
def ended {Result : Type} (program : FsM c Result) (s : FsState c) : Option Result × FsState c :=
  match program s with
  | .ok result t => (some result, t)
  | .error _ t => (none, t)

theorem ended_of_wp {Result : Type} {program : FsM c Result} {s : FsState c}
    {post : Result → FsState c → Prop} (holds : wp program s post fun _ _ => False) :
    ∃ result, (ended program s).1 = some result ∧ post result (ended program s).2 := by
  obtain ⟨result, t, run, after⟩ := exists_ok_of_wp holds
  rw [ended, run]
  exact ⟨result, rfl, after⟩

/-- The calls of the refinement, on loaded inodes that are no regular files: they
pass the range checks, copies succeed and `balloc` finds free blocks. -/
inductive InodeStep (sb : Superblock) :
    FsState c → ArrayCall × Option (Int × List UInt8) → FsState c → Prop where
  | writei {s : FsState c} {ip i : Nat} {src : Source} {off n : UInt32}
      (loaded : Loaded s.itable ip i) (notFile : (s.itable ip).type ≠ tFile)
      (inRange : ¬ ((s.itable ip).size < off ∨ off + n < off))
      (notTooLarge : ¬ maxFile * bsize < (off + n).toNat)
      (copies : ∀ x < n.toNat, src.valid x = true)
      (found : ¬ OutOfBlocks (ended (Fs.writei sb ip src off n) s).2) :
      InodeStep sb s (.writei i off.toNat (src.byte.read 0 n.toNat),
          (ended (Fs.writei sb ip src off n) s).1.map fun ret => (ret, []))
        (ended (Fs.writei sb ip src off n) s).2
  | readi {s : FsState c} {ip i : Nat} {valid : Nat → Bool} {off n : UInt32}
      (loaded : Loaded s.itable ip i) (notFile : (s.itable ip).type ≠ tFile)
      (inRange : ¬ ((s.itable ip).size < off ∨ off + n < off))
      (copies : ∀ x < n.toNat, valid x = true)
      (found : ¬ OutOfBlocks (ended (Fs.readi sb ip valid off n) s).2) :
      InodeStep sb s (.readi i off.toNat n.toNat,
          (ended (Fs.readi sb ip valid off n) s).1.map fun ret =>
            (ret, (ended (Fs.readi sb ip valid off n) s).2.user.read 0 ret.toNat))
        (ended (Fs.readi sb ip valid off n) s).2
  | itrunc {s : FsState c} {ip i : Nat} (loaded : Loaded s.itable ip i)
      (notFile : (s.itable ip).type ≠ tFile) :
      InodeStep sb s (.itrunc i, (ended (Fs.itrunc sb ip) s).1.map fun _ => (0, []))
        (ended (Fs.itrunc sb ip) s).2

/-! ### The refinement relation -/

/-- The bytes of the inode in entry `ip`. -/
def FsState.contents (s : FsState c) (ip : Nat) : List UInt8 :=
  (nodeByte s.disk (s.itable ip).toDinode).read 0 (s.itable ip).size.toNat

/-- A consistent file system in which the inodes other than regular files have
their blocks, and the arrays hold their bytes. -/
structure Represents (sb : Superblock) (s : FsState c) (arrays : Nat → List UInt8) : Prop where
  inv : FsInv sb s
  whole : ∀ ip i, Loaded s.itable ip i → (s.itable ip).type ≠ tFile →
    ∀ p < (s.itable ip).size.toNat, s.blockOf sb i p ≠ 0
  bytes : ∀ ip i, Loaded s.itable ip i → (s.itable ip).type ≠ tFile → arrays i = s.contents ip

section Represents

variable {sb : Superblock} {s u : FsState c} {ip i : Nat} {arrays : Nat → List UInt8}

theorem Held.byteAt_eq (held : Held s ip i) (consistent : Consistent sb s) :
    s.byteAt sb i = nodeByte s.disk (s.itable ip).toDinode := by
  funext p
  rw [FsState.byteAt, FsState.blockOf, held.refs_eq consistent, nodeByte]

theorem Held.contents_eq (held : Held s ip i) (consistent : Consistent sb s) :
    s.contents ip = Mem.read (s.byteAt sb i) 0 (s.itable ip).size.toNat := by
  rw [held.byteAt_eq consistent, FsState.contents]

/-- A byte that has a block lies in a mapped one. -/
theorem Held.mapped (held : Held s ip i) (consistent : Consistent sb s) {p : Nat}
    (present : s.blockOf sb i p ≠ 0) : Mapped s.disk (s.itable ip).toDinode (p / bsize) := by
  rw [FsState.blockOf, held.refs_eq consistent] at present
  refine ⟨?_, present⟩
  by_contra past
  refine present (nodeRef_past ?_)
  unfold dataSlot maxFile at *
  rw [if_neg (by omega)]
  omega

/-- A block below the end of the file is mapped. -/
theorem Represents.mapped (rep : Represents sb s arrays) (loaded : Loaded s.itable ip i)
    (notFile : (s.itable ip).type ≠ tFile) {p : Nat} (below : p < (s.itable ip).size.toNat) :
    Mapped s.disk (s.itable ip).toDinode (p / bsize) :=
  (rep.inv.held loaded).mapped rep.inv.consistent (rep.whole ip i loaded notFile p below)

theorem Represents.size_le (rep : Represents sb s arrays) (loaded : Loaded s.itable ip i)
    (notFile : (s.itable ip).type ≠ tFile) : (s.itable ip).size.toNat ≤ maxFile * bsize := by
  by_contra large
  have last := (rep.mapped loaded notFile (p := maxFile * bsize) (by omega)).1
  rw [Nat.mul_div_cancel _ bsize_pos] at last
  exact Nat.lt_irrefl _ last

/-- After an operation on inode `i`: the other inodes have their bytes, and it has
the new ones. -/
theorem Represents.update (rep : Represents sb s arrays) (loaded : Loaded s.itable ip i)
    (inv : FsInv sb u) (loadedIff : ∀ ip' j, Loaded u.itable ip' j ↔ Loaded s.itable ip' j)
    (entries : ∀ ip' ≠ ip, u.itable ip' = s.itable ip')
    (foreign : ∀ j ≠ i, ∀ p, s.blockOf sb j p ≠ 0 →
      u.blockOf sb j p ≠ 0 ∧ u.byteAt sb j p = s.byteAt sb j p)
    (own : ∀ p < (u.itable ip).size.toNat, u.blockOf sb i p ≠ 0) :
    Represents sb u (Function.update arrays i (u.contents ip)) := by
  have one := rep.inv.consistent.one
  -- an entry for `i` is `ip`, any other is as before
  have split : ∀ ip' j, Loaded u.itable ip' j →
      (ip' = ip ∧ j = i) ∨ (ip' ≠ ip ∧ j ≠ i ∧ Loaded s.itable ip' j) := by
    intro ip' j loadedU
    have loaded' := (loadedIff ip' j).mp loadedU
    by_cases same : ip' = ip
    · refine .inl ⟨same, ?_⟩
      rw [same] at loaded'
      exact loaded'.2.2.2.symm.trans loaded.2.2.2
    · exact .inr ⟨same, fun isI => same (one.loaded_unique loaded' (isI ▸ loaded)), loaded'⟩
  refine ⟨inv, ?_, ?_⟩
  · intro ip' j loadedU notFile p below
    rcases split ip' j loadedU with ⟨rfl, rfl⟩ | ⟨other, otherInode, loaded'⟩
    · exact own p below
    · rw [entries ip' other] at notFile below
      exact (foreign j otherInode p (rep.whole ip' j loaded' notFile p below)).1
  · intro ip' j loadedU notFile
    rcases split ip' j loadedU with ⟨rfl, rfl⟩ | ⟨other, otherInode, loaded'⟩
    · rw [update_self]
    · rw [entries ip' other] at notFile
      rw [update_of_ne otherInode, rep.bytes ip' j loaded' notFile,
        (rep.inv.held loaded').contents_eq rep.inv.consistent,
        (inv.held loadedU).contents_eq inv.consistent, entries ip' other]
      refine Mem.read_congr fun p below => ?_
      rw [Nat.zero_add]
      exact ((foreign j otherInode p (rep.whole ip' j loaded' notFile p below)).2).symm

theorem Represents.same (rep : Represents sb s arrays) (same : SameFs s u) :
    Represents sb u arrays := by
  have blocks : ∀ j p, u.blockOf sb j p = s.blockOf sb j p := fun j p => congrFun same.refs _
  refine ⟨rep.inv.same same, ?_, ?_⟩
  · intro ip i
    rw [same.itable]
    intro loaded notFile p below
    rw [blocks]
    exact rep.whole ip i loaded notFile p below
  · intro ip i
    rw [same.itable]
    intro loaded notFile
    rw [rep.bytes ip i loaded notFile, FsState.contents, FsState.contents, same.disk, same.itable]

end Represents

/-! ### Each call is matched -/

section Calls

variable {sb : Superblock} {s : FsState c} {ip i : Nat} {arrays : Nat → List UInt8}

/-- After the plain loop wrote `n` bytes at `off` and the inode was saved. -/
theorem Represents.written (rep : Represents sb s arrays) (valid : sb.Valid)
    (loaded : Loaded s.itable ip i) (notFile : (s.itable ip).type ≠ tFile) {bytes : Mem}
    {off n : UInt32} (limit : off.toNat + n.toNat ≤ maxFile * bsize)
    (start : off.toNat ≤ (s.itable ip).size.toNat) {t : FsState c}
    (writes : Writes sb ip i off.toNat bytes s n.toNat t) (enough : ¬ OutOfBlocks t)
    (inv : FsInv sb (t.save sb ip ((t.itable ip).grown off n.toNat))) :
    Represents sb (t.save sb ip ((t.itable ip).grown off n.toNat))
      (Function.update arrays i (splice (arrays i) off.toNat (bytes.read 0 n.toNat))) := by
  have held := rep.inv.held loaded
  have heldT := held.stays writes.toStays
  have loadedIff : ∀ ip' j, Loaded (t.save sb ip ((t.itable ip).grown off n.toNat)).itable ip' j ↔
      Loaded s.itable ip' j := by
    intro ip' j
    refine (Loaded.update (by simp) (by simp) (by simp) ip' j).trans ?_
    by_cases same : ip' = ip
    · rw [Loaded, Loaded, same, writes.node]
    · rw [Loaded, Loaded, writes.entries ip' same]
  have entry : (t.save sb ip ((t.itable ip).grown off n.toNat)).itable ip =
      (t.itable ip).grown off n.toNat := update_self _ _ _
  have size : ((t.itable ip).grown off n.toNat).size.toNat =
      max (s.itable ip).size.toNat (off.toNat + n.toNat) := by
    rw [Inode.grown_size _ limit, writes.node]
  have blocks : ∀ j p, (t.save sb ip ((t.itable ip).grown off n.toNat)).blockOf sb j p =
      t.blockOf sb j p := fun j p =>
    congrFun (save_refs valid writes.consistent heldT (by simp) (by simp) (by simp) (by simp)
      (by simp)) _
  have saved : ∀ j p, t.blockOf sb j p ≠ 0 →
      (t.save sb ip ((t.itable ip).grown off n.toNat)).byteAt sb j p = t.byteAt sb j p :=
    fun j p present => save_byteAt valid writes.consistent heldT (by simp) (by simp) (by simp)
      (by simp) (by simp) present
  have kept : ∀ j p, s.blockOf sb j p ≠ 0 → t.blockOf sb j p ≠ 0 := by
    intro j p present
    rw [FsState.blockOf, writes.kept _ present]
    exact present
  have updated := @Represents.update c sb s (t.save sb ip ((t.itable ip).grown off n.toNat)) ip i
    arrays rep loaded inv loadedIff ?_ ?_ ?_
  · rw [(inv.held ((loadedIff ip i).mpr loaded)).contents_eq inv.consistent, entry, size] at updated
    have spliced := @read_splice (s.byteAt sb i)
      ((t.save sb ip ((t.itable ip).grown off n.toNat)).byteAt sb i) (s.itable ip).size.toNat
      off.toNat (bytes.read 0 n.toNat) start ?_ ?_
    · rw [rep.bytes ip i loaded notFile, held.contents_eq rep.inv.consistent, ← spliced,
        Mem.length_read]
      exact updated
    · intro p below notHere
      rw [Mem.length_read] at notHere
      have present := rep.whole ip i loaded notFile p below
      rw [saved i p (kept i p present)]
      exact writes.outside i p present fun here => notHere here.2
    · intro x inside
      rw [Mem.length_read] at inside
      obtain ⟨present, value⟩ := writes.written (fun failed => enough failed.outOfBlocks)
        (off.toNat + x) (by omega) (by omega)
      rw [saved i _ present, value, Nat.add_sub_cancel_left, Mem.getD_read _ _ inside, Nat.zero_add]
  · intro ip' other
    exact (update_of_ne other _ _).trans (writes.entries ip' other)
  · intro j other p present
    rw [blocks, saved j p (kept j p present)]
    exact ⟨kept j p present, writes.outside j p present fun here => other here.1⟩
  · intro p below
    rw [entry, size] at below
    rw [blocks]
    by_cases here : off.toNat ≤ p ∧ p < off.toNat + n.toNat
    · exact (writes.written (fun failed => enough failed.outOfBlocks) p here.1 here.2).1
    · exact kept i p (rep.whole ip i loaded notFile p (by omega))

theorem writei_represents (valid : sb.Valid) (rep : Represents sb s arrays)
    (loaded : Loaded s.itable ip i) (notFile : (s.itable ip).type ≠ tFile) {src : Source}
    {off n : UInt32} (inRange : ¬ ((s.itable ip).size < off ∨ off + n < off))
    (notTooLarge : ¬ maxFile * bsize < (off + n).toNat)
    (copies : ∀ x < n.toNat, src.valid x = true) :
    wp (writei sb ip src off n) s (fun ret u => ¬ OutOfBlocks u → ret = n.toNat ∧
        Represents sb u (update arrays i
          (splice (arrays i) off.toNat (src.byte.read 0 n.toNat)))) fun _ _ => False := by
  have held := rep.inv.held loaded
  have limit : off.toNat + n.toNat ≤ maxFile * bsize := by
    rw [not_or] at inRange
    rw [toNat_add_of_not_lt inRange.2] at notTooLarge
    omega
  have start : off.toNat ≤ (s.itable ip).size.toNat := by
    rw [not_or, UInt32.lt_iff_toNat_lt] at inRange
    omega
  have small : n.toNat < 2 ^ 31 := by
    have : maxFile * bsize < 2 ^ 31 := by decide
    omega
  unfold writei
  rw [wp_bind, wp_get, wp_ite, if_neg inRange, wp_ite, if_neg notTooLarge, wp_ite,
    if_neg fun both => notFile both.1]
  refine wp_mono (writePlain_spec valid rep.inv.consistent held src limit) ?_
    fun _ _ absurd => absurd
  rintro ret u plain enough
  have inv := plain.inv valid rep.inv held
  obtain ⟨tot, t, rfl, rfl, ⟨rfl, writes⟩ | ⟨_, _, failed⟩⟩ := plain
  · refine ⟨by rw [UInt32.ofNat_toNat]; exact toInt_of_small small, ?_⟩
    exact rep.written valid loaded notFile limit start writes
      (fun out => enough (out.mono (List.prefix_append _ _))) inv
  · exact absurd copies failed

theorem readi_represents (rep : Represents sb s arrays) (loaded : Loaded s.itable ip i)
    (notFile : (s.itable ip).type ≠ tFile) {valid : Nat → Bool} {off n : UInt32}
    (inRange : ¬ ((s.itable ip).size < off ∨ off + n < off))
    (copies : ∀ x < n.toNat, valid x = true) :
    wp (readi sb ip valid off n) s (fun ret u => Represents sb u arrays ∧
        ret = (((arrays i).drop off.toNat).take n.toNat).length ∧
        u.user.read 0 ret.toNat = ((arrays i).drop off.toNat).take n.toNat) fun _ _ => False := by
  have sizeLe := rep.size_le loaded notFile
  have largest : maxFile * bsize < 2 ^ 31 := by decide
  unfold readi
  rw [wp_bind, wp_get, wp_ite, if_neg inRange, wp_ite, if_neg notFile]
  rw [not_or] at inRange
  have clipped := toNat_clip inRange.2 inRange.1
  rw [UInt32.lt_iff_toNat_lt] at inRange
  have start := inRange.1
  generalize clip (s.itable ip).size off n = n' at clipped
  have wholeCopy : validLength valid 0 n'.toNat = n'.toNat :=
    validLength_eq fun x low => by
      rw [Nat.zero_add]
      exact copies x (by omega)
  have isBytes : ((arrays i).drop off.toNat).take n.toNat =
      (nodeByte s.disk (s.itable ip).toDinode).read off.toNat n'.toNat := by
    rw [rep.bytes ip i loaded notFile, FsState.contents, Mem.drop_read, Nat.zero_add, clipped]
    by_cases fits : n.toNat ≤ (s.itable ip).size.toNat - off.toNat
    · rw [Mem.take_read _ _ fits, Nat.min_eq_left fits]
    · rw [List.take_of_length_le (by rw [Mem.length_read]; omega), Nat.min_eq_right (by omega)]
  refine readPlain_mapped (fun p low high => rep.mapped loaded notFile (by omega)) ?_
  rw [if_pos wholeCopy, wholeCopy, toInt_of_small (by omega), isBytes, Mem.length_read]
  refine ⟨rep.same ⟨rfl, rfl, rfl⟩, rfl, ?_⟩
  have readBack := Mem.read_copy s.user 0
    ((nodeByte s.disk (s.itable ip).toDinode).read off.toNat n'.toNat)
  rwa [Mem.length_read] at readBack

theorem itrunc_represents (valid : sb.Valid) (rep : Represents sb s arrays)
    (loaded : Loaded s.itable ip i) :
    wp (itrunc sb ip) s (fun _ u => Represents sb u (update arrays i []))
      fun _ _ => False := by
  have held := rep.inv.held loaded
  refine wp_mono (itrunc_spec valid rep.inv.consistent held) ?_ fun _ _ absurd => absurd
  intro _ u truncated
  have inv := truncated.inv valid rep.inv held
  have node := truncated.node
  obtain ⟨t, frees, _, rfl⟩ := truncated
  have heldT := held.frees frees
  have refs := @save_refs c sb t ip i { t.itable ip with size := 0 } valid frees.consistent heldT
    rfl rfl rfl rfl rfl
  have bytes : ∀ {j p}, t.blockOf sb j p ≠ 0 → _ :=
    @save_byteAt c sb t ip i { t.itable ip with size := 0 } valid frees.consistent heldT
      rfl rfl rfl rfl rfl
  have loadedIff := fun ip' j =>
    @Loaded.update t.itable ip { t.itable ip with size := 0 } rfl rfl rfl ip' j
  have blocks : ∀ j p, (t.save sb ip { t.itable ip with size := 0 }).blockOf sb j p =
      t.blockOf sb j p := fun j p => congrFun refs _
  have empty : (t.save sb ip { t.itable ip with size := 0 }).contents ip = [] := by
    rw [FsState.contents, node]
    rfl
  rw [← empty]
  refine rep.update loaded inv ?_ ?_ ?_ ?_
  · intro ip' j
    refine (loadedIff ip' j).trans ?_
    by_cases same : ip' = ip
    · rw [Loaded, Loaded, same, frees.node]
    · rw [Loaded, Loaded, frees.entries ip' same]
  · intro ip' other
    exact (update_of_ne other _ _).trans (frees.entries ip' other)
  · intro j other p present
    have same : t.blockOf sb j p = s.blockOf sb j p := frees.foreign _ other
    have someT : t.blockOf sb j p ≠ 0 := same ▸ present
    have isData := (rep.inv.consistent.data present).2.1
    rw [blocks, bytes someT]
    refine ⟨someT, ?_⟩
    rw [FsState.byteAt, FsState.byteAt, same, frees.blocks]
    intro x bound isMap
    have := valid.bblock_meta x bound
    change sb.dataStart ≤ s.blockOf sb j p at isData
    omega
  · intro p below
    rw [node] at below
    exact absurd below (Nat.not_lt_zero p)

end Calls

/-- Every sequence of calls on inodes other than regular files is one on byte
arrays: each call returns what the array's operation returns, and the inodes hold
the arrays' bytes afterwards. -/
theorem inodes_refine_arrays {sb : Superblock} (valid : sb.Valid) {start : Nat → List UInt8}
    {steps : List (FsState c × ArrayCall × Option (Int × List UInt8))} {s : FsState c}
    (run : Run (fun s => Represents sb s start) (InodeStep sb) steps s) :
    ∃ arraySteps arrays, Run (fun a => a = start) ArrayStep arraySteps arrays ∧
      arraySteps.map Prod.snd = steps.map Prod.snd ∧ Represents sb s arrays := by
  refine run.simulation (Represents sb) (fun _ rep => rep) ?_
  intro s label s' arrays rep step
  cases step with
  | writei loaded notFile inRange notTooLarge copies found =>
    obtain ⟨ret, returned, after⟩ :=
      ended_of_wp (writei_represents valid rep loaded notFile inRange notTooLarge copies)
    obtain ⟨isN, represents⟩ := after found
    refine ⟨_, ⟨?_, rfl⟩, represents⟩
    rw [returned, isN]
    simp [ArrayCall.result]
  | readi loaded notFile inRange copies found =>
    obtain ⟨ret, returned, represents, isLength, isBytes⟩ :=
      ended_of_wp (readi_represents rep loaded notFile inRange copies)
    refine ⟨_, ⟨?_, rfl⟩, represents⟩
    rw [returned, Option.map_some, isBytes, isLength]
    rfl
  | itrunc loaded notFile =>
    obtain ⟨_, returned, represents⟩ := ended_of_wp (itrunc_represents valid rep loaded)
    refine ⟨_, ⟨?_, rfl⟩, represents⟩
    rw [returned]
    rfl

/-- An empty directory on an otherwise empty disk. -/
def emptyDir : FsState huffman :=
  oneInode smallDisk Huffman.Static.clear ⟨[], fun _ => Buffer.fill 0⟩
    { Dinode.zero with type := tDir, nlink := 1 }

theorem emptyDir_represents : Represents smallDisk emptyDir fun _ => [] := by
  have inv : FsInv smallDisk emptyDir :=
    oneInode_inv smallDisk_valid smallDisk_vacant (by decide) (by decide) rfl
  have size : ∀ ip i, Loaded emptyDir.itable ip i → (emptyDir.itable ip).size = 0 := by
    intro ip i loaded
    rw [oneInode_loaded loaded]
    rfl
  refine ⟨inv, ?_, ?_⟩
  · intro ip i loaded _ p below
    rw [size ip i loaded] at below
    exact absurd below (Nat.not_lt_zero p)
  · intro ip i loaded _
    rw [FsState.contents, size ip i loaded]
    rfl

/-- Three bytes `a`. -/
def threeBytes : Source := ⟨fun _ => 97, fun _ => true⟩

/-- Three bytes written to the empty directory. -/
theorem inodes_refine_arrays_emptyDir :
    ∃ arraySteps arrays, Run (fun a => a = fun _ => []) ArrayStep arraySteps arrays ∧
      arraySteps.map Prod.snd = [(.writei 1 0 [97, 97, 97],
        (ended (writei smallDisk 0 threeBytes 0 3) emptyDir).1.map fun ret => (ret, []))] ∧
      Represents smallDisk (ended (writei smallDisk 0 threeBytes 0 3) emptyDir).2 arrays := by
  have found : ¬ OutOfBlocks (ended (writei smallDisk 0 threeBytes 0 3) emptyDir).2 := by
    decide +kernel
  have step : InodeStep smallDisk emptyDir (.writei 1 0 [97, 97, 97],
      (ended (writei smallDisk 0 threeBytes 0 3) emptyDir).1.map fun ret => (ret, []))
      (ended (writei smallDisk 0 threeBytes 0 3) emptyDir).2 :=
    .writei ⟨by decide, by decide, rfl, rfl⟩ (by decide) (by decide) (by decide) (fun _ _ => rfl)
      found
  have begun : Run (fun s => Represents smallDisk s fun _ => [])
      (InodeStep smallDisk) [] emptyDir :=
    .start emptyDir_represents
  exact inodes_refine_arrays smallDisk_valid (begun.snoc step)

end Xv6.Kernel.Fs
