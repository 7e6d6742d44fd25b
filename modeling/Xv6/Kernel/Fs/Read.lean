import Xv6.Kernel.Fs.Writei

/-!
Reading blocks that are there.

Owns: when a block of an inode is mapped, that `bmap` of a mapped block changes
nothing, the bytes of an inode through its block numbers, and the plain loop of
`readi` over mapped blocks as one copy.

Does not own: what `readi` does where a block is missing, and the compressed
representation.
-/

namespace Xv6.Kernel.Fs

open Xv6.Lib

variable {c : Codec}

/-! ### How far a copy goes -/

theorem validLength_succ (valid : Nat → Bool) (offset count : Nat) :
    validLength valid offset (count + 1) =
      if validLength valid offset count = count then
        if valid (offset + count) then count + 1 else count
      else validLength valid offset count := by
  unfold validLength
  rw [List.range_succ, List.takeWhile_append, List.length_range]
  split_ifs with whole isValid
  · simp [isValid]
  · simp [isValid]
  · rfl

theorem validLength_spec (valid : Nat → Bool) (offset count : Nat) :
    (∀ x < validLength valid offset count, valid (offset + x) = true) ∧
      (validLength valid offset count < count →
        valid (offset + validLength valid offset count) = false) := by
  induction count with
  | zero =>
    exact ⟨fun x low => absurd low (Nat.not_lt_zero x), fun low => absurd low (Nat.not_lt_zero _)⟩
  | succ count ih =>
    obtain ⟨allValid, invalid⟩ := ih
    rw [validLength_succ]
    split_ifs with whole isValid
    · rw [whole] at allValid
      refine ⟨fun x low => ?_, fun low => absurd low (Nat.lt_irrefl _)⟩
      rcases Nat.lt_succ_iff_lt_or_eq.mp low with before | last
      · exact allValid x before
      · exact last ▸ isValid
    · rw [whole] at allValid
      exact ⟨allValid, fun _ => Bool.eq_false_of_not_eq_true isValid⟩
    · refine ⟨allValid, fun _ => invalid ?_⟩
      have := validLength_le valid offset count
      omega

theorem validLength_eq_of {valid : Nat → Bool} {offset count k : Nat} (small : k ≤ count)
    (before : ∀ x < k, valid (offset + x) = true) (stops : k < count → valid (offset + k) = false) :
    validLength valid offset count = k := by
  obtain ⟨allValid, invalid⟩ := validLength_spec valid offset count
  have most := validLength_le valid offset count
  rcases Nat.lt_trichotomy (validLength valid offset count) k with less | equal | more
  · have := invalid (by omega)
    rw [before _ less] at this
    contradiction
  · exact equal
  · have := stops (by omega)
    rw [allValid _ more] at this
    contradiction

theorem toNat_clip {limit off n : UInt32} (noWrap : ¬ off + n < off) (start : ¬ limit < off) :
    (clip limit off n).toNat = min n.toNat (limit.toNat - off.toNat) := by
  unfold clip
  rw [UInt32.lt_iff_toNat_lt] at start
  simp only [UInt32.lt_iff_toNat_lt, toNat_add_of_not_lt noWrap]
  split_ifs with past
  · rw [UInt32.toNat_sub_of_le _ _ (UInt32.le_iff_toNat_le.mpr (by omega))]
    omega
  · omega

/-! ### Mapped blocks -/

/-- Block `bn` of the file is there. -/
def Mapped (disk : Disk) (node : Dinode) (bn : Nat) : Prop :=
  bn < maxFile ∧ nodeRef disk node (dataSlot bn) ≠ 0

instance (disk : Disk) (node : Dinode) (bn : Nat) : Decidable (Mapped disk node bn) :=
  inferInstanceAs (Decidable (_ ∧ _))

/-- Byte `p` of a file. -/
def nodeByte (disk : Disk) (node : Dinode) : Mem := fun p =>
  (disk (nodeRef disk node (dataSlot (p / bsize)))).mem (p % bsize)

section Mapped

variable {sb : Superblock} {s : FsState c} {ip : Nat}

theorem inodeAddr_mapped {k : Fin (ndirect + 1)} (present : (s.itable ip).addrs k ≠ 0)
    {post : UInt32 → FsState c → Prop} {stop : Stop → FsState c → Prop} :
    wp (inodeAddr sb ip k) s post stop ↔ post ((s.itable ip).addrs k) s := by
  unfold inodeAddr
  rw [wp_bind, wp_get, wp_ite, if_neg present, wp_pure]

/-- `bmap` of a mapped block changes nothing. -/
theorem bmap_mapped {bn : Nat} (mapped : Mapped s.disk (s.itable ip).toDinode bn)
    {post : UInt32 → FsState c → Prop} {stop : Stop → FsState c → Prop} :
    wp (bmap sb ip bn) s post stop ↔
      post (UInt32.ofNat (nodeRef s.disk (s.itable ip).toDinode (dataSlot bn))) s := by
  obtain ⟨inside, present⟩ := mapped
  unfold bmap
  by_cases direct : bn < ndirect
  · have isAddr : nodeRef s.disk (s.itable ip).toDinode (dataSlot bn) =
        ((s.itable ip).addrs ⟨bn, Nat.lt_succ_of_lt direct⟩).toNat := by
      rw [dataSlot, if_pos direct]
      exact nodeRef_addrs ⟨bn, Nat.lt_succ_of_lt direct⟩
    rw [isAddr] at present
    rw [dif_pos direct, isAddr, UInt32.ofNat_toNat]
    exact inodeAddr_mapped fun zero => present (congrArg UInt32.toNat zero)
  · have jInside : bn - ndirect < nindirect := by
      unfold maxFile at inside
      omega
    have isEntry := @nodeRef_entry s.disk (s.itable ip).toDinode _ jInside
    rw [dataSlot_indirect direct, isEntry] at present
    have indirect : (s.itable ip).addrs indirectIndex ≠ 0 := by
      intro absent
      rw [if_pos absent] at present
      exact present rfl
    rw [if_neg indirect] at present isEntry
    have entrySome : entry (s.disk ((s.itable ip).addrs indirectIndex).toNat) (bn - ndirect) ≠ 0 :=
      fun zero => present (congrArg UInt32.toNat zero)
    rw [dif_neg direct, wp_ite, if_pos jInside, wp_bind, inodeAddr_mapped indirect, wp_ite,
      if_neg indirect]
    simp only [bread, wp_bind, wp_get, wp_pure, wp_ite]
    rw [if_neg entrySome, dataSlot_indirect direct, isEntry, UInt32.ofNat_toNat]

end Mapped

/-! ### The plain loop -/

/-- The bytes of a piece within one block. -/
theorem read_block (disk : Disk) (node : Dinode) {p m : Nat} (room : p % bsize + m ≤ bsize) :
    (disk (nodeRef disk node (dataSlot (p / bsize)))).mem.read (p % bsize) m =
      (nodeByte disk node).read p m := by
  apply Mem.read_congr
  intro x inside
  obtain ⟨block, position⟩ := @div_mod_within bsize p x (by omega)
  rw [nodeByte, block, position]

section ReadPlain

variable {sb : Superblock} {s : FsState c} {ip : Nat}

/-- A copy to the reader transfers the bytes before the first invalid address. -/
theorem wp_copyout {valid : Nat → Bool} {offset position count : Nat} {m : Mem}
    {post : Bool → FsState c → Prop} {stop : Stop → FsState c → Prop} :
    wp (copyout valid offset (m.read position count)) s post stop ↔
      post (validLength valid offset count = count) { s with
        user := s.user.copy offset (m.read position (validLength valid offset count)) } := by
  unfold copyout
  simp only [wp_bind, wp_modify, wp_pure, Mem.length_read,
    Mem.take_read _ _ (validLength_le valid offset count)]

theorem readPiece_mapped {valid : Nat → Bool} {off tot m : Nat}
    (room : (off + tot) % bsize + m ≤ bsize)
    (mapped : Mapped s.disk (s.itable ip).toDinode ((off + tot) / bsize))
    {post : Bool → FsState c → Prop} {stop : Stop → FsState c → Prop} :
    wp (readPiece sb ip valid off tot m) s post stop ↔
      post (validLength valid tot m = m) { s with
        user := s.user.copy tot ((nodeByte s.disk (s.itable ip).toDinode).read (off + tot)
          (validLength valid tot m)) } := by
  have number : (UInt32.ofNat (nodeRef s.disk (s.itable ip).toDinode
      (dataSlot ((off + tot) / bsize)))).toNat =
      nodeRef s.disk (s.itable ip).toDinode (dataSlot ((off + tot) / bsize)) :=
    UInt32.toNat_ofNat_of_lt' (nodeRef_lt _ _ _)
  unfold readPiece
  rw [wp_bind, bmap_mapped mapped]
  simp only [bread, wp_bind, wp_get, wp_pure, number, read_block _ _ room]
  exact wp_copyout

/-- The plain branch over mapped blocks copies the file's bytes up to the first
invalid address. -/
theorem readPlain_mapped {valid : Nat → Bool} {off n : UInt32}
    (mapped : ∀ p, off.toNat ≤ p → p < off.toNat + n.toNat →
      Mapped s.disk (s.itable ip).toDinode (p / bsize))
    {post : Int → FsState c → Prop} {stop : Stop → FsState c → Prop}
    (done : post (if validLength valid 0 n.toNat = n.toNat then n.toInt32.toInt else -1) { s with
      user := s.user.copy 0 ((nodeByte s.disk (s.itable ip).toDinode).read off.toNat
        (validLength valid 0 n.toNat)) }) :
    wp (readPlain sb ip valid off n) s post stop := by
  unfold readPlain
  rw [wp_bind]
  refine wp_mono (wp_chunkLoop
    (fun tot t => (∀ x < tot, valid x = true) ∧ t = { s with
      user := s.user.copy 0 ((nodeByte s.disk (s.itable ip).toDinode).read off.toNat tot) })
    (fun _ t => validLength valid 0 n.toNat < n.toNat ∧ t = { s with
      user := s.user.copy 0 ((nodeByte s.disk (s.itable ip).toDinode).read off.toNat
        (validLength valid 0 n.toNat)) }) ?_ (Nat.zero_le _) ?_) ?_ fun _ _ stopped => stopped
  · rintro tot m t inside positive within room _ ⟨before, rfl⟩
    -- the copies so far and this one make one copy
    have joined : ∀ k, (s.user.copy 0
        ((nodeByte s.disk (s.itable ip).toDinode).read off.toNat tot)).copy tot
          ((nodeByte s.disk (s.itable ip).toDinode).read (off.toNat + tot) k) =
        s.user.copy 0 ((nodeByte s.disk (s.itable ip).toDinode).read off.toNat (tot + k)) := by
      intro k
      rw [Mem.read_append, Mem.copy_append, Mem.length_read, Nat.zero_add]
    refine (readPiece_mapped room ?_).mpr ?_
    · exact mapped _ (by omega) (by omega)
    simp only [joined]
    obtain ⟨allValid, invalid⟩ := validLength_spec valid tot m
    have most := validLength_le valid tot m
    by_cases whole : validLength valid tot m = m
    · rw [if_pos (by simpa using whole), whole]
      refine ⟨fun x low => ?_, rfl⟩
      by_cases old : x < tot
      · exact before x old
      · have := allValid (x - tot) (by omega)
        rwa [Nat.add_sub_of_le (by omega)] at this
    · have total : validLength valid 0 n.toNat = tot + validLength valid tot m := by
        refine validLength_eq_of (by omega) (fun x low => ?_) fun _ => ?_
        · rw [Nat.zero_add]
          by_cases old : x < tot
          · exact before x old
          · have := allValid (x - tot) (by omega)
            rwa [Nat.add_sub_of_le (by omega)] at this
        · rw [Nat.zero_add]
          exact invalid (by omega)
      rw [if_neg (by simpa using whole), total]
      exact ⟨by omega, rfl⟩
  · refine ⟨fun x low => absurd low (Nat.not_lt_zero x), ?_⟩
    simp [Mem.read]
  · rintro tot t (⟨rfl, allValid, rfl⟩ | ⟨less, short, rfl⟩)
    · have whole : validLength valid 0 n.toNat = n.toNat :=
        validLength_eq fun x low => by rw [Nat.zero_add]; exact allValid x low
      rw [if_neg (Nat.lt_irrefl _), wp_pure, UInt32.ofNat_toNat]
      rw [if_pos whole, whole] at done
      exact done
    · rw [if_pos less, wp_pure]
      rw [if_neg (Nat.ne_of_lt short)] at done
      exact done

end ReadPlain

end Xv6.Kernel.Fs
