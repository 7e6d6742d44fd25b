import Xv6.Kernel.Fs.Writei

/-!
`itrunc` and the freeing branch of `iput`.

Owns: changes of the bitmap alone, the two loops of `itrunc`, that neither can
reach `panic("freeing free block")` on a consistent disk, and that nothing but
the inode's own references and their bits change.

Does not own: the table entries' reference counts.
-/

namespace Xv6.Kernel.Fs

open Xv6.Lib Function

variable {c : Codec}

/-- Only bitmap blocks differ. -/
structure BitsOnly (sb : Superblock) (s t : FsState c) : Prop where
  itable : t.itable = s.itable
  kmem : t.kmem = s.kmem
  cache : t.cache = s.cache
  codec : t.codec = s.codec
  user : t.user = s.user
  trace : s.trace <+: t.trace
  allocs : (∀ event ∈ s.trace, GoodEvent sb event) → ∀ event ∈ t.trace, GoodEvent sb event
  blocks : ∀ b, (∀ x < sb.size, b ≠ sb.bblock x) → t.disk b = s.disk b

section BitsOnly

variable {sb : Superblock} {s t u : FsState c}

theorem BitsOnly.refl (sb : Superblock) (s : FsState c) : BitsOnly sb s s :=
  ⟨rfl, rfl, rfl, rfl, rfl, List.prefix_refl _, fun good => good, fun _ _ => rfl⟩

theorem BitsOnly.trans (first : BitsOnly sb s t) (second : BitsOnly sb t u) : BitsOnly sb s u where
  itable := second.itable.trans first.itable
  kmem := second.kmem.trans first.kmem
  cache := second.cache.trans first.cache
  codec := second.codec.trans first.codec
  user := second.user.trans first.user
  trace := first.trace.trans second.trace
  allocs := fun good => second.allocs (first.allocs good)
  blocks := fun b notMap => (second.blocks b notMap).trans (first.blocks b notMap)

theorem BitsOnly.dinode (bits : BitsOnly sb s t) (valid : sb.Valid) {j : Nat}
    (inside : j < sb.ninodes) : dinode sb t.disk j = dinode sb s.disk j :=
  dinode_congr (bits.blocks _ fun x bound => valid.iblock_ne_bblock j inside x bound)

/-- Bitmap blocks hold no references. -/
theorem BitsOnly.refs (bits : BitsOnly sb s t) (valid : sb.Valid) (consistent : Consistent sb s) :
    t.refs sb = s.refs sb := by
  funext slot
  rw [FsState.refs, FsState.refs, bits.itable]
  refine congrFun (refs_disk (fun j inside => bits.dinode valid inside) fun j present => ?_) slot
  refine bits.blocks _ fun x bound same => ?_
  have isData := (@Consistent.data c sb s consistent (j, ndirect) present).2.1
  have isMeta := valid.bblock_meta x bound
  change sb.dataStart ≤ Fs.refs sb s.disk s.itable (j, ndirect) at isData
  omega

theorem bfree_bits (sb : Superblock) (s : FsState c) {b : Nat} (inUse : marked sb s.disk b = true)
    (bound : b < sb.size) :
    wp (bfree sb b) s (fun _ t => BitsOnly sb s t ∧ t.disk = freed sb s.disk b)
      fun _ _ => False := by
  refine bfree_spec b _ _ inUse ⟨⟨rfl, rfl, rfl, rfl, rfl, List.prefix_append _ _, ?_, ?_⟩, rfl⟩
  · intro good event member
    rcases List.mem_append.mp member with old | new
    · exact good event old
    · rw [List.mem_singleton.mp new]
      trivial
  · exact fun x notMap => freed_other (notMap b bound)

end BitsOnly

/-! ### What freeing does -/

/-- Between two points of an operation that frees blocks of inode `i`. -/
structure Frees (sb : Superblock) (ip i : Nat) (s t : FsState c) : Prop where
  consistent : Consistent sb t
  kmem : t.kmem = s.kmem
  cache : t.cache = s.cache
  codec : t.codec = s.codec
  user : t.user = s.user
  entries : ∀ ip' ≠ ip, t.itable ip' = s.itable ip'
  node : t.itable ip = { s.itable ip with addrs := (t.itable ip).addrs }
  trace : s.trace <+: t.trace
  foreign : ∀ slot, slot.1 ≠ i → t.refs sb slot = s.refs sb slot
  blocks : ∀ b, (∀ x < sb.size, b ≠ sb.bblock x) → t.disk b = s.disk b

section Frees

variable {sb : Superblock} {s t u : FsState c} {ip i : Nat}

theorem Frees.refl (consistent : Consistent sb s) : Frees sb ip i s s where
  consistent := consistent
  kmem := rfl
  cache := rfl
  codec := rfl
  user := rfl
  entries := fun _ _ => rfl
  node := rfl
  trace := List.prefix_refl _
  foreign := fun _ _ => rfl
  blocks := fun _ _ => rfl

theorem Frees.trans (first : Frees sb ip i s t) (second : Frees sb ip i t u) :
    Frees sb ip i s u where
  consistent := second.consistent
  kmem := second.kmem.trans first.kmem
  cache := second.cache.trans first.cache
  codec := second.codec.trans first.codec
  user := second.user.trans first.user
  entries := fun ip' other => (second.entries ip' other).trans (first.entries ip' other)
  node := by rw [second.node, first.node]
  trace := first.trace.trans second.trace
  foreign := fun slot other => (second.foreign slot other).trans (first.foreign slot other)
  blocks := fun b notMap => (second.blocks b notMap).trans (first.blocks b notMap)

theorem Held.frees (held : Held s ip i) (frees : Frees sb ip i s t) : Held t ip i := by
  obtain ⟨bound, ref, valid, number⟩ := held.loaded
  refine ⟨⟨bound, ?_, ?_, ?_⟩, ?_⟩ <;> rw [frees.node]
  · exact ref
  · exact valid
  · exact number
  · exact held.live

theorem frees_clearAddr (consistent : Consistent sb s)
    (bits : BitsOnly sb s t) (k : Fin (ndirect + 1)) (cleared : Nat × Nat → Nat)
    (isExact : Exact sb.size (fun b => b < sb.dataStart) (marked sb t.disk) cleared)
    (isCleared : Fs.refs sb t.disk (update s.itable ip { s.itable ip with
      addrs := update (s.itable ip).addrs k 0 }) = cleared)
    (foreign : ∀ slot, slot.1 ≠ i → cleared slot = s.refs sb slot) :
    Frees sb ip i s { t with
      itable := update s.itable ip { s.itable ip with
        addrs := update (s.itable ip).addrs k 0 } } := by
  refine ⟨⟨?_, consistent.one.update rfl rfl, ?_, bits.allocs consistent.allocs⟩,
    bits.kmem, bits.cache, bits.codec, bits.user, ?_, ?_, bits.trace, ?_, bits.blocks⟩
  · change Exact _ _ _ (Fs.refs sb t.disk _)
    rw [isCleared]
    exact isExact
  · intro ip' entry
    by_cases same : ip' = ip
    · simp only [same, update_self]
      exact consistent.range ip (same ▸ entry)
    · simp only [update_of_ne same]
      exact consistent.range ip' entry
  · exact fun ip' other => update_of_ne other _ _
  · simp only [update_self]
  · exact fun slot other => (congrFun isCleared slot).trans (foreign slot other)

theorem truncDirect_spec (valid : sb.Valid) (consistent : Consistent sb s) (held : Held s ip i)
    {k : Fin (ndirect + 1)} (direct : k ≠ indirectIndex) :
    wp (truncDirect sb ip k) s (fun _ t => Frees sb ip i s t ∧
        (t.itable ip).addrs = update (s.itable ip).addrs k 0) fun _ _ => False := by
  have inside := held.inside consistent
  unfold truncDirect
  simp only [wp_bind, wp_get, wp_ite]
  by_cases absent : (s.itable ip).addrs k = 0
  · rw [if_pos absent]
    exact ⟨Frees.refl consistent, by rw [← absent, update_eq_self]⟩
  · have isRef : s.refs sb (i, (k : Nat)) = ((s.itable ip).addrs k).toNat := by
      rw [held.refs_eq consistent, nodeRef_addrs]
    have present : s.refs sb (i, (k : Nat)) ≠ 0 := by
      rw [isRef]
      exact fun zero => absent (UInt32.toNat_inj.mp zero)
    obtain ⟨bound, data, isMarked⟩ := consistent.data present
    rw [if_neg absent, ← isRef]
    refine wp_mono (bfree_bits sb s isMarked bound) ?_ fun _ _ absurd => absurd
    rintro _ t ⟨bits, disk⟩
    have sameRefs := bits.refs valid consistent
    simp only [modifyInode, wp_modify, bits.itable]
    refine ⟨frees_clearAddr consistent bits k (update (s.refs sb) (i, (k : Nat)) 0)
      ?_ ?_ ?_, by simp only [update_self]⟩
    · rw [disk]
      exact (consistent.exact.free present).congr fun b _ => marked_freed
    · funext slot
      obtain ⟨j, m⟩ := slot
      have old : ∀ m, nodeRef t.disk (s.itable ip).toDinode m = s.refs sb (i, m) := by
        intro m
        rw [← congrFun sameRefs (i, m), FsState.refs, bits.itable]
        exact (refs_of_loaded consistent.one held.loaded inside held.live m).symm
      rw [refs_update consistent.one held.loaded inside held.live]
      · by_cases same : j = i
        · rw [if_pos same]
          refine (@nodeRef_setAddr t.disk (s.itable ip).toDinode k 0 (fun isIndirect =>
            absurd isIndirect direct) m).trans ?_
          by_cases isK : m = k
          · rw [if_pos isK, same, isK, update_self]
            rfl
          · rw [if_neg isK, old, same,
              update_of_ne fun equal => isK (congrArg Prod.snd equal)]
        · rw [if_neg same, update_of_ne fun equal => same (congrArg Prod.fst equal),
            ← congrFun sameRefs (j, m), FsState.refs, bits.itable]
      all_goals rfl
    · intro slot other
      exact update_of_ne (fun equal => other (by rw [equal])) _ _

/-! ### The indirect block -/

/-- The references without those entries of inode `i`'s indirect block that are
not in `rest`. -/
def dropEntries (refs : Nat × Nat → Nat) (i : Nat) (rest : List Nat) (slot : Nat × Nat) : Nat :=
  if slot.1 = i ∧ ndirect < slot.2 ∧ slot.2 - (ndirect + 1) ∉ rest then 0 else refs slot

theorem dropEntries_all (consistent : Consistent sb s) (held : Held s ip i) :
    dropEntries (s.refs sb) i (List.range nindirect) = s.refs sb := by
  funext slot
  obtain ⟨j, k⟩ := slot
  unfold dropEntries
  split_ifs with gone
  · obtain ⟨rfl, past, notEntry⟩ := gone
    rw [List.mem_range] at notEntry
    rw [held.refs_eq consistent]
    exact (nodeRef_past (by dsimp only at past notEntry; omega)).symm
  · rfl

theorem dropEntries_head (refs : Nat × Nat → Nat) (i j : Nat) (rest : List Nat) :
    dropEntries refs i (j :: rest) (i, ndirect + 1 + j) = refs (i, ndirect + 1 + j) := by
  rw [dropEntries, if_neg]
  rintro ⟨_, _, absent⟩
  simp at absent

theorem dropEntries_tail (refs : Nat × Nat → Nat) (i : Nat) {j : Nat} {rest : List Nat}
    (fresh : j ∉ rest) :
    update (dropEntries refs i (j :: rest)) (i, ndirect + 1 + j) 0 =
      dropEntries refs i rest := by
  funext slot
  obtain ⟨i', k⟩ := slot
  by_cases same : (i', k) = (i, ndirect + 1 + j)
  · rw [same, update_self, dropEntries, if_pos]
    refine ⟨rfl, by dsimp only; omega, ?_⟩
    rwa [Nat.add_sub_cancel_left]
  · rw [update_of_ne same]
    unfold dropEntries
    refine if_congr (and_congr_right fun isI => and_congr_right fun past => ?_) rfl rfl
    have other : k - (ndirect + 1) ≠ j := by
      intro equal
      refine same (Prod.ext isI ?_)
      dsimp only at past ⊢
      omega
    simp [List.mem_cons, other]

theorem truncEntries_spec (consistent : Consistent sb s) (held : Held s ip i)
    (present : (s.itable ip).addrs indirectIndex ≠ 0) :
    wp (forEach (truncEntry sb (s.disk ((s.itable ip).addrs indirectIndex).toNat))
        (List.range nindirect)) s
      (fun _ t => BitsOnly sb s t ∧ Exact sb.size (fun b => b < sb.dataStart) (marked sb t.disk)
        (dropEntries (s.refs sb) i [])) fun _ _ => False := by
  refine wp_mono (wp_forEach (fun rest t => rest.Nodup ∧ (∀ j ∈ rest, j < nindirect) ∧
    BitsOnly sb s t ∧ Exact sb.size (fun b => b < sb.dataStart) (marked sb t.disk)
      (dropEntries (s.refs sb) i rest)) ?_ ?_) (fun _ _ after => after.2.2) fun _ _ absurd => absurd
  · rintro j rest t ⟨nodup, inside, bits, isExact⟩
    obtain ⟨fresh, nodupRest⟩ := List.nodup_cons.mp nodup
    have jInside := inside j List.mem_cons_self
    have insideRest : ∀ l ∈ rest, l < nindirect := fun l member =>
      inside l (List.mem_cons_of_mem _ member)
    have isRef : dropEntries (s.refs sb) i (j :: rest) (i, ndirect + 1 + j) =
        (entry (s.disk ((s.itable ip).addrs indirectIndex).toNat) j).toNat := by
      rw [dropEntries_head, held.refs_eq consistent, nodeRef_entry jInside, if_neg present]
    unfold truncEntry
    rw [wp_ite]
    split_ifs with absent
    · refine ⟨nodupRest, insideRest, bits, ?_⟩
      rw [← dropEntries_tail _ _ fresh, update_eq_self_iff.mpr]
      · exact isExact
      · rw [isRef, absent]
        rfl
    · have isHeld : dropEntries (s.refs sb) i (j :: rest) (i, ndirect + 1 + j) ≠ 0 := by
        rw [isRef]
        exact fun zero => absent (UInt32.toNat_inj.mp zero)
      rw [← isRef]
      refine wp_mono (bfree_bits sb t (isExact.marked isHeld) (isExact.bounded _ isHeld).1) ?_
        fun _ _ absurd => absurd
      rintro _ u ⟨more, disk⟩
      refine ⟨nodupRest, insideRest, bits.trans more, ?_⟩
      rw [← dropEntries_tail _ _ fresh, disk]
      exact (isExact.free isHeld).congr fun b _ => marked_freed
  · refine ⟨List.nodup_range, fun j member => List.mem_range.mp member, BitsOnly.refl sb s, ?_⟩
    rw [dropEntries_all consistent held]
    exact consistent.exact

theorem nodeRef_clearIndirect (disk : Disk) (node : Dinode) (k : Nat) :
    nodeRef disk { node with addrs := update node.addrs indirectIndex 0 } k =
      if ndirect ≤ k then 0 else nodeRef disk node k := by
  rcases slot_cases k with ⟨k, rfl⟩ | ⟨j, inside, rfl⟩ | past
  · rw [nodeRef_addrs, nodeRef_addrs]
    by_cases isIndirect : k = indirectIndex
    · have isLast : ndirect ≤ (indirectIndex : Nat) := Nat.le_refl ndirect
      rw [isIndirect, if_pos isLast]
      simp only [update_self]
      rfl
    · have low : ¬ ndirect ≤ (k : Nat) := by
        intro high
        exact isIndirect (Fin.ext (Nat.le_antisymm (Nat.le_of_lt_succ k.isLt) high))
      rw [if_neg low]
      simp only [update_of_ne isIndirect]
  · rw [if_pos (by omega), nodeRef_entry inside]
    simp only [update_self, if_true]
  · rw [if_pos (by omega), nodeRef_past past]

theorem truncIndirect_spec (valid : sb.Valid) (consistent : Consistent sb s) (held : Held s ip i) :
    wp (truncIndirect sb ip) s (fun _ t => Frees sb ip i s t ∧
        (t.itable ip).addrs = update (s.itable ip).addrs indirectIndex 0)
      fun _ _ => False := by
  have inside := held.inside consistent
  unfold truncIndirect
  simp only [wp_bind, wp_get, wp_ite]
  by_cases absent : (s.itable ip).addrs indirectIndex = 0
  · rw [if_pos absent]
    exact ⟨Frees.refl consistent, by rw [← absent, update_eq_self]⟩
  rw [if_neg absent]
  simp only [bread, wp_bind, wp_get, wp_pure]
  refine wp_mono (truncEntries_spec consistent held absent) ?_ fun _ _ absurd => absurd
  rintro _ t ⟨bits, isExact⟩
  have isRef : dropEntries (s.refs sb) i [] (i, ndirect) =
      ((s.itable ip).addrs indirectIndex).toNat := by
    rw [dropEntries, if_neg (by simp), held.refs_eq consistent, nodeRef_indirect]
  have isHeld : dropEntries (s.refs sb) i [] (i, ndirect) ≠ 0 := by
    rw [isRef]
    exact fun zero => absent (UInt32.toNat_inj.mp zero)
  unfold truncDirect
  simp only [wp_bind, wp_get, wp_ite, bits.itable]
  rw [if_neg absent, ← isRef]
  refine wp_mono (bfree_bits sb t (isExact.marked isHeld) (isExact.bounded _ isHeld).1) ?_
    fun _ _ absurd => absurd
  rintro _ u ⟨more, disk⟩
  have both := bits.trans more
  have sameRefs := both.refs valid consistent
  simp only [modifyInode, wp_modify, both.itable]
  refine ⟨frees_clearAddr consistent both indirectIndex
    (update (dropEntries (s.refs sb) i []) (i, ndirect) 0) ?_ ?_ ?_,
    by simp only [update_self]⟩
  · rw [disk]
    exact (isExact.free isHeld).congr fun b _ => marked_freed
  · funext slot
    obtain ⟨j, k⟩ := slot
    rw [refs_update consistent.one held.loaded inside held.live]
    · by_cases same : j = i
      · have old : nodeRef u.disk (s.itable ip).toDinode k = s.refs sb (i, k) := by
          rw [← congrFun sameRefs (i, k), FsState.refs, both.itable]
          exact (refs_of_loaded consistent.one held.loaded inside held.live k).symm
        rw [if_pos same]
        refine (nodeRef_clearIndirect u.disk (s.itable ip).toDinode k).trans ?_
        by_cases isIndirect : k = ndirect
        · rw [if_pos (Nat.le_of_eq isIndirect.symm), same, isIndirect, update_self]
        · rw [update_of_ne fun equal => isIndirect (congrArg Prod.snd equal), old]
          unfold dropEntries
          refine if_congr ?_ rfl (by rw [same])
          simp only [same, List.not_mem_nil, not_false_eq_true, and_true, true_and]
          omega
      · rw [if_neg same, update_of_ne fun equal => same (congrArg Prod.fst equal),
          dropEntries, if_neg fun gone => same gone.1, ← congrFun sameRefs (j, k), FsState.refs,
          both.itable]
    all_goals rfl
  · intro slot other
    rw [update_of_ne fun equal => other (by rw [equal]), dropEntries,
      if_neg fun gone => other gone.1]

/-! ### `itrunc` -/

theorem mem_directIndices {k : Fin (ndirect + 1)} (direct : k ≠ indirectIndex) :
    k ∈ directIndices := by
  obtain ⟨low, rfl⟩ := Fin.exists_castSucc_eq.mpr direct
  exact List.mem_map_of_mem (List.mem_finRange low)

/-- The state after `itrunc`: all blocks of the inode are freed, then it is
saved. -/
def Truncated (sb : Superblock) (ip i : Nat) (s u : FsState c) : Prop :=
  ∃ t, Frees sb ip i s t ∧ (t.itable ip).addrs = (fun _ => 0) ∧
    u = t.save sb ip { t.itable ip with size := 0 }

/-- `itrunc` returns: it never frees a free block. -/
theorem itrunc_spec (valid : sb.Valid) (consistent : Consistent sb s) (held : Held s ip i) :
    wp (itrunc sb ip) s (fun _ u => Truncated sb ip i s u) fun _ _ => False := by
  unfold itrunc
  rw [wp_bind]
  refine wp_mono (wp_forEach (fun rest t => (∀ k ∈ rest, k ≠ indirectIndex) ∧
    Frees sb ip i s t ∧ ∀ k, k ∉ rest → k ≠ indirectIndex → (t.itable ip).addrs k = 0) ?_ ?_)
    ?_ fun _ _ absurd => absurd
  · rintro k rest t ⟨direct, frees, cleared⟩
    have kDirect := direct k List.mem_cons_self
    refine wp_mono (truncDirect_spec valid frees.consistent (held.frees frees) kDirect) ?_
      fun _ _ absurd => absurd
    rintro _ u ⟨more, addrs⟩
    refine ⟨fun l member => direct l (List.mem_cons_of_mem _ member), frees.trans more, ?_⟩
    intro l notRest lDirect
    rw [addrs]
    by_cases same : l = k
    · rw [same, update_self]
    · rw [update_of_ne same]
      refine cleared l (fun member => ?_) lDirect
      exact (List.mem_cons.mp member).elim same notRest
  · refine ⟨?_, Frees.refl consistent, fun k absent direct => ?_⟩
    · intro k member
      obtain ⟨low, _, rfl⟩ := List.mem_map.mp member
      exact Fin.castSucc_ne_last low
    · exact (absent (mem_directIndices direct)).elim
  · rintro _ t ⟨_, frees, cleared⟩
    rw [wp_bind]
    refine wp_mono (truncIndirect_spec valid frees.consistent (held.frees frees)) ?_
      fun _ _ absurd => absurd
    rintro _ u ⟨more, addrs⟩
    refine (iupdate_modify sb u ip (fun node => { node with size := 0 }) _ _).mpr
      ⟨u, frees.trans more, ?_, rfl⟩
    funext k
    rw [addrs]
    by_cases isIndirect : k = indirectIndex
    · rw [isIndirect, update_self]
    · rw [update_of_ne isIndirect]
      exact cleared k (by simp) isIndirect

theorem Frees.inodes (frees : Frees sb ip i s t) (valid : sb.Valid) {j : Nat}
    (inside : j < sb.ninodes) : dinode sb t.disk j = dinode sb s.disk j :=
  dinode_congr (frees.blocks _ fun x bound => valid.iblock_ne_bblock j inside x bound)

/-- The inode after `itrunc`. -/
theorem Truncated.node (truncated : Truncated sb ip i s u) :
    u.itable ip = { s.itable ip with addrs := fun _ => 0, size := 0 } := by
  obtain ⟨t, frees, empty, rfl⟩ := truncated
  change update t.itable ip _ ip = _
  rw [update_self, frees.node, empty]

theorem Truncated.inv (truncated : Truncated sb ip i s u) (valid : sb.Valid) (inv : FsInv sb s)
    (held : Held s ip i) : FsInv sb u := by
  obtain ⟨t, frees, _, rfl⟩ := truncated
  exact save_inv valid inv held frees.consistent (held.frees frees) frees.entries
    (fun _ inside => frees.inodes valid inside) rfl rfl rfl rfl rfl

end Frees

end Xv6.Kernel.Fs
