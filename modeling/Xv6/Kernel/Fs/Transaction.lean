import Xv6.Kernel.Fs.Writei
import Xv6.Kernel.Fs.Read
import Xv6.Kernel.Huffman.RoundTrip

/-!
The blocks one `writei` call logs.

Owns: the blocks passed to `log_write` between two states, a bound for each function
below `writei`, and that a chunk of `filewrite` stays within `MAXOPBLOCKS`.

Does not own: consistency; the bound needs no more of the disk than that the file has no
holes below its size.
-/

namespace Xv6.Kernel.Fs

open Xv6.Lib Function

variable {c : Codec}

/-! ### Logged blocks -/

/-- The block of a `log_write`. -/
def Event.block : Event → Option Nat
  | .balloc _ _ _ => none
  | .logWrite b => some b

/-- The different blocks passed to `log_write` between two states. -/
def logged (s t : FsState c) : Finset Nat :=
  ((t.trace.drop s.trace.length).filterMap Event.block).toFinset

/-- Between `s` and `t` only these blocks were logged. -/
def Logs (s t : FsState c) (blocks : Finset Nat) : Prop :=
  ∃ events, t.trace = s.trace ++ events ∧ ∀ b, Event.logWrite b ∈ events → b ∈ blocks

section Logs

variable {s t u : FsState c} {blocks more : Finset Nat} {b : Nat}

theorem Logs.card_logged (logs : Logs s t blocks) : (logged s t).card ≤ blocks.card := by
  obtain ⟨events, isTrace, inside⟩ := logs
  apply Finset.card_le_card
  intro b member
  rw [logged, isTrace, List.drop_left, List.mem_toFinset, List.mem_filterMap] at member
  obtain ⟨event, isEvent, isBlock⟩ := member
  cases event with
  | balloc disk itable r => exact absurd isBlock.symm (Option.some_ne_none b)
  | logWrite r =>
    obtain rfl : r = b := Option.some.inj isBlock
    exact inside r isEvent

theorem Logs.refl : Logs s s ∅ :=
  ⟨[], (List.append_nil s.trace).symm, fun _ absurd => (List.not_mem_nil absurd).elim⟩

theorem Logs.mono (logs : Logs s t blocks) (subset : blocks ⊆ more) : Logs s t more := by
  obtain ⟨events, isTrace, inside⟩ := logs
  exact ⟨events, isTrace, fun b member => subset (inside b member)⟩

theorem Logs.trans (first : Logs s t blocks) (second : Logs t u more) :
    Logs s u (blocks ∪ more) := by
  obtain ⟨events, isTrace, inside⟩ := first
  obtain ⟨later, isLater, laterInside⟩ := second
  refine ⟨events ++ later, by rw [isLater, isTrace, List.append_assoc], fun b member => ?_⟩
  rcases List.mem_append.mp member with old | new
  · exact Finset.mem_union_left _ (inside b old)
  · exact Finset.mem_union_right _ (laterInside b new)

/-- One more `log_write`. -/
theorem Logs.write (isTrace : t.trace = s.trace ++ [.logWrite b]) : Logs s t {b} := by
  refine ⟨_, isTrace, fun r member => ?_⟩
  obtain rfl : r = b := Event.logWrite.inj (List.mem_singleton.mp member)
  exact Finset.mem_singleton_self r

theorem SameFs.logs (same : SameFs s t) : Logs s t ∅ :=
  ⟨[], by rw [List.append_nil, same.trace], fun _ absurd => (List.not_mem_nil absurd).elim⟩

end Logs

/-! ### Allocation -/

/-- The indirect block and the bitmap block it was allocated from; nothing while there is
no indirect block. -/
def indirectBlocks (map : Nat) (indirect : UInt32) : Finset Nat :=
  if indirect = 0 then ∅ else {map, indirect.toNat}

theorem indirectBlocks_card (map : Nat) (indirect : UInt32) :
    (indirectBlocks map indirect).card ≤ 2 := by
  unfold indirectBlocks
  split_ifs
  · exact Nat.zero_le 2
  · exact Finset.card_le_two

/-- The number of the indirect block. -/
def FsState.indirect (s : FsState c) (ip : Nat) : UInt32 := (s.itable ip).addrs indirectIndex

section Allocation

variable {sb : Superblock} {s : FsState c} {ip : Nat}

theorem balloc_logs (word : sb.size ≤ 2 ^ 32) (stop : Stop → FsState c → Prop) :
    wp (balloc sb) s (fun b t => t.itable = s.itable ∧ ∃ map, Logs s t {map, b.toNat}) stop := by
  refine balloc_spec word _ _ ?_ ?_
  · intro r bound _
    have number : (UInt32.ofNat r).toNat = r :=
      UInt32.toNat_ofNat_of_lt' (Nat.lt_of_lt_of_le bound word)
    refine ⟨rfl, sb.bblock r, _, by simp only [List.append_assoc]; rfl, fun b member => ?_⟩
    rw [number]
    simpa using member
  · intro _
    exact ⟨rfl, 0, _, rfl, fun b member => by simp at member⟩

theorem inodeAddr_logs (word : sb.size ≤ 2 ^ 32) (k : Fin (ndirect + 1))
    (stop : Stop → FsState c → Prop) :
    wp (inodeAddr sb ip k) s (fun b t =>
      ((s.itable ip).addrs k ≠ 0 → t = s ∧ b = (s.itable ip).addrs k) ∧
      ((s.itable ip).addrs k = 0 → (∃ map, Logs s t {map, b.toNat}) ∧
        (t.itable ip).addrs = update (s.itable ip).addrs k b)) stop := by
  unfold inodeAddr
  rw [wp_bind, wp_get, wp_ite]
  by_cases absent : (s.itable ip).addrs k = 0
  · rw [if_pos absent, wp_bind]
    refine wp_mono (balloc_logs word stop) ?_ fun _ _ stopped => stopped
    rintro addr t ⟨sameTable, map, logs⟩
    rw [wp_ite]
    split_ifs with isZero
    · rw [wp_pure]
      rw [isZero] at logs
      refine ⟨fun present => absurd absent present, fun _ => ⟨⟨map, logs⟩, ?_⟩⟩
      rw [sameTable, ← absent, update_eq_self]
    · simp only [modifyInode, wp_bind, wp_modify, wp_pure]
      refine ⟨fun present => absurd absent present, fun _ => ⟨⟨map, logs⟩, ?_⟩⟩
      rw [update_self, sameTable]
  · rw [if_neg absent, wp_pure]
    exact ⟨fun _ => ⟨rfl, rfl⟩, fun isZero => absurd isZero absent⟩

theorem indirectEntry_logs (word : sb.size ≤ 2 ^ 32) (indirect : UInt32) (j : Nat)
    (stop : Stop → FsState c → Prop) :
    wp (do
        let bp ← bread indirect.toNat
        if entry bp j = 0 then do
          let addr ← balloc sb
          if addr = 0 then pure 0
          else do
            logWrite indirect.toNat (bp.set32 (4 * j) addr)
            pure addr
        else pure (entry bp j)) s
      (fun b t => t.itable = s.itable ∧
        ∃ bitmap, Logs s t ({bitmap, b.toNat} ∪ {indirect.toNat})) stop := by
  simp only [bread, wp_bind, wp_get, wp_pure, wp_ite]
  split_ifs with absent
  · refine wp_mono (balloc_logs word stop) ?_ fun _ _ stopped => stopped
    rintro addr t ⟨sameTable, bitmap, logs⟩
    split_ifs with isZero
    · rw [isZero] at logs
      exact ⟨sameTable, bitmap, logs.mono Finset.subset_union_left⟩
    · simp only [logWrite, setBuffer, note, wp_bind, wp_modify]
      exact ⟨sameTable, bitmap, logs.trans (.write rfl)⟩
  · exact ⟨trivial, 0, Logs.refl.mono (Finset.empty_subset _)⟩

theorem bmap_logs (word : sb.size ≤ 2 ^ 32) (bn map : Nat) :
    wp (bmap sb ip bn) s (fun b t => ∃ bitmap map',
      indirectBlocks map (s.indirect ip) ⊆ indirectBlocks map' (t.indirect ip) ∧
      Logs s t ({bitmap, b.toNat} ∪ indirectBlocks map' (t.indirect ip)))
      fun _ t => t = s := by
  unfold bmap
  by_cases direct : bn < ndirect
  · have other : indirectIndex ≠ ⟨bn, Nat.lt_succ_of_lt direct⟩ := by
      intro same
      exact absurd (congrArg Fin.val same) (Nat.ne_of_gt direct)
    rw [dif_pos direct]
    refine wp_mono (inodeAddr_logs word _ _) ?_ fun _ _ stopped => stopped
    rintro b t ⟨found, allocated⟩
    by_cases absent : (s.itable ip).addrs ⟨bn, Nat.lt_succ_of_lt direct⟩ = 0
    · obtain ⟨⟨bitmap, logs⟩, addrs⟩ := allocated absent
      have same : t.indirect ip = s.indirect ip := by
        rw [FsState.indirect, addrs, update_of_ne other, FsState.indirect]
      rw [same]
      exact ⟨bitmap, map, Finset.Subset.refl _, logs.mono Finset.subset_union_left⟩
    · obtain ⟨rfl, _⟩ := found absent
      exact ⟨0, map, Finset.Subset.refl _, Logs.refl.mono (Finset.empty_subset _)⟩
  rw [dif_neg direct, wp_ite]
  split_ifs
  · rw [wp_bind]
    refine wp_mono (inodeAddr_logs word _ _) ?_ fun _ _ stopped => stopped
    rintro indirect t ⟨found, allocated⟩
    -- what was logged for the indirect block itself
    have before : t.indirect ip = indirect ∧ ∃ map',
        indirectBlocks map (s.indirect ip) ⊆ indirectBlocks map' indirect ∧
        (indirect ≠ 0 → Logs s t (indirectBlocks map' indirect)) ∧
        (indirect = 0 → Logs s t {map', 0}) := by
      by_cases absent : (s.itable ip).addrs indirectIndex = 0
      · obtain ⟨⟨bitmap, logs⟩, addrs⟩ := allocated absent
        refine ⟨by rw [FsState.indirect, addrs, update_self], bitmap, ?_, ?_, ?_⟩
        · rw [indirectBlocks, FsState.indirect, if_pos absent]
          exact Finset.empty_subset _
        · intro present
          rw [indirectBlocks, if_neg present]
          exact logs
        · rintro rfl
          exact logs
      · obtain ⟨rfl, rfl⟩ := found absent
        exact ⟨rfl, map, Finset.Subset.refl _, fun _ => Logs.refl.mono (Finset.empty_subset _),
          fun isZero => absurd isZero absent⟩
    obtain ⟨isIndirect, map', grows, present, zero⟩ := before
    rw [wp_ite]
    split_ifs with isZero
    · rw [wp_pure, isIndirect]
      exact ⟨map', map', grows, (zero isZero).mono Finset.subset_union_left⟩
    · refine wp_mono (indirectEntry_logs word indirect (bn - ndirect) _) ?_
        fun _ _ stopped => stopped
      rintro b u ⟨sameTable, bitmap, logs⟩
      have same : u.indirect ip = indirect := by
        rw [FsState.indirect, sameTable]
        exact isIndirect
      have member : indirect.toNat ∈ indirectBlocks map' indirect := by
        rw [indirectBlocks, if_neg isZero]
        exact Finset.mem_insert_of_mem (Finset.mem_singleton_self _)
      rw [same]
      refine ⟨bitmap, map', grows, ((present isZero).trans logs).mono ?_⟩
      refine Finset.union_subset Finset.subset_union_right (Finset.union_subset
        Finset.subset_union_left ?_)
      exact Finset.singleton_subset_iff.mpr (Finset.mem_union_right _ member)
  · rw [wp_throw]

end Allocation

/-! ### The loop of `writei` -/

/-- The blocks that the first `tot` bytes from `off` lie in. -/
def dataPieces (off tot : Nat) : Nat :=
  if tot = 0 then 0 else (off % bsize + tot + (bsize - 1)) / bsize

/-- Of these, the ones that may be new: a block that holds a byte before `off` is not. -/
def newPieces (off tot : Nat) : Nat :=
  if off % bsize = 0 then dataPieces off tot else dataPieces off tot - 1

/-- So many data blocks and bitmap blocks were logged, and the blocks of the indirect
block. -/
def Spends (s : FsState c) (ip : Nat) (data bitmaps : Nat) (t : FsState c) : Prop :=
  ∃ (blocks maps : Finset Nat) (map : Nat), blocks.card ≤ data ∧ maps.card ≤ bitmaps ∧
    Logs s t (blocks ∪ maps ∪ indirectBlocks map (t.indirect ip))

section Loop

variable {sb : Superblock} {s t u : FsState c} {ip data bitmaps : Nat}

theorem Spends.start : Spends s ip 0 0 s :=
  ⟨∅, ∅, 0, Nat.le_refl 0, Nat.le_refl 0, Logs.refl.mono (Finset.empty_subset _)⟩

theorem Spends.mono {moreData moreMaps : Nat} (spends : Spends s ip data bitmaps t)
    (dataLe : data ≤ moreData) (mapsLe : bitmaps ≤ moreMaps) : Spends s ip moreData moreMaps t := by
  obtain ⟨blocks, maps, map, few, fewMaps, logs⟩ := spends
  exact ⟨blocks, maps, map, few.trans dataLe, fewMaps.trans mapsLe, logs⟩

/-- Storing into a buffer, with `log_write` or not, of a block that is counted. -/
theorem Spends.write {b : Nat} {blocks maps : Finset Nat} {map : Nat} (few : blocks.card ≤ data)
    (fewMaps : maps.card ≤ bitmaps) (member : b ∈ blocks)
    (logs : Logs s t (blocks ∪ maps ∪ indirectBlocks map (t.indirect ip)))
    (isTrace : u.trace = t.trace ∨ u.trace = t.trace ++ [.logWrite b])
    (sameTable : u.itable = t.itable) : Spends s ip data bitmaps u := by
  have same : u.indirect ip = t.indirect ip := by
    rw [FsState.indirect, sameTable, FsState.indirect]
  refine ⟨blocks, maps, map, few, fewMaps, ?_⟩
  rw [same]
  rcases isTrace with isTrace | isTrace
  · obtain ⟨events, isEvents, inside⟩ := logs
    exact ⟨events, isTrace.trans isEvents, inside⟩
  · refine (logs.trans (.write isTrace)).mono (Finset.union_subset (Finset.Subset.refl _) ?_)
    exact Finset.singleton_subset_iff.mpr
      (Finset.mem_union_left _ (Finset.mem_union_left _ member))

theorem writePiece_spends (word : sb.size ≤ 2 ^ 32) (src : Source) {off tot m : Nat}
    (spends : Spends s ip data bitmaps t) :
    wp (writePiece sb ip src off tot m) t (fun _ u => Spends s ip (data + 1) (bitmaps + 1) u ∧
      (Mapped t.disk (t.itable ip).toDinode ((off + tot) / bsize) →
        Spends s ip (data + 1) bitmaps u))
      fun _ u => Spends s ip data bitmaps u := by
  obtain ⟨blocks, maps, map, few, fewMaps, logs⟩ := spends
  have insertCard : ∀ b, (insert b blocks).card ≤ data + 1 :=
    fun b => (Finset.card_insert_le b blocks).trans (Nat.succ_le_succ few)
  -- the store, once the block is found and counted
  have store : ∀ (b : UInt32) (maps' : Finset Nat) (map' bitmaps' : Nat) (u : FsState c),
      maps'.card ≤ bitmaps' →
      Logs s u (insert b.toNat blocks ∪ maps' ∪ indirectBlocks map' (u.indirect ip)) →
      wp (do
          let bp ← bread b.toNat
          let data := bp.copy ((off + tot) % bsize) (src.copyin tot m)
          if (src.copyin tot m).length < m then do
            setBuffer b.toNat data
            pure false
          else do
            logWrite b.toNat data
            pure true) u (fun _ v => Spends s ip (data + 1) bitmaps' v)
        fun _ v => Spends s ip data bitmaps v := by
    intro b maps' map' bitmaps' u fewer counted
    have member := Finset.mem_insert_self b.toNat blocks
    simp only [bread, logWrite, setBuffer, note, wp_bind, wp_get, wp_pure, wp_ite, wp_modify]
    split_ifs
    · exact Spends.write (insertCard _) fewer member counted (.inl rfl) rfl
    · exact Spends.write (insertCard _) fewer member counted (.inr rfl) rfl
  unfold writePiece
  rw [wp_bind]
  by_cases mapped : Mapped t.disk (t.itable ip).toDinode ((off + tot) / bsize)
  · rw [bmap_mapped mapped]
    refine wp_mono (store _ maps map bitmaps t fewMaps (logs.mono ?_)) ?_ fun _ _ stopped => stopped
    · exact Finset.union_subset_union_left
        (Finset.union_subset_union_left (Finset.subset_insert _ _))
    · exact fun _ u after => ⟨after.mono (Nat.le_refl _) (Nat.le_succ _), fun _ => after⟩
  · refine wp_mono (bmap_logs word _ map) ?_ ?_
    · rintro b u ⟨bitmap, map', grows, more⟩
      have fewer : (insert bitmap maps).card ≤ bitmaps + 1 :=
        (Finset.card_insert_le bitmap maps).trans (Nat.succ_le_succ fewMaps)
      refine wp_mono (store b (insert bitmap maps) map' (bitmaps + 1) u fewer
        ((logs.trans more).mono ?_)) (fun _ _ after => ⟨after, fun absurd => (mapped absurd).elim⟩)
        fun _ _ stopped => stopped
      intro x member
      simp only [Finset.mem_union, Finset.mem_insert, Finset.mem_singleton] at member ⊢
      rcases member with ((old | old) | old) | (new | new) | new
      · exact .inl (.inl (.inr old))
      · exact .inl (.inr (.inr old))
      · exact .inr (grows old)
      · exact .inl (.inr (.inl new))
      · exact .inl (.inl (.inl new))
      · exact .inr new
    · rintro _ _ rfl
      exact ⟨blocks, maps, map, few, fewMaps, logs⟩

theorem writeLoop_spends (word : sb.size ≤ 2 ^ 32) (src : Source) {off n : Nat}
    (mapped : off % bsize ≠ 0 → Mapped s.disk (s.itable ip).toDinode (off / bsize)) :
    wp (chunkLoop bsize off n bsize_pos (writePiece sb ip src off) 0) s
      (fun _ t => Spends s ip (dataPieces off n) (newPieces off n) t)
      fun _ t => Spends s ip (dataPieces off n) (newPieces off n) t := by
  have isSize : bsize = 1024 := rfl
  have piecesLe : ∀ {a b : Nat}, a ≤ b → dataPieces off a ≤ dataPieces off b := by
    intro a b le
    unfold dataPieces
    split_ifs with first second
    · exact Nat.le_refl 0
    · exact Nat.zero_le _
    · omega
    · exact Nat.div_le_div_right (by omega)
  have newLe : ∀ {a b : Nat}, a ≤ b → newPieces off a ≤ newPieces off b := by
    intro a b le
    have data := piecesLe le
    unfold newPieces
    split_ifs
    · exact data
    · exact Nat.sub_le_sub_right data 1
  -- at the start of a piece after the first, the position is a multiple of the block size
  refine wp_mono (wp_chunkLoop
    (fun tot t => Spends s ip (dataPieces off tot) (newPieces off tot) t ∧
      (tot = 0 → t = s) ∧ (tot = 0 ∨ tot = n ∨ (off + tot) % bsize = 0))
    (fun _ t => Spends s ip (dataPieces off n) (newPieces off n) t) ?_ (Nat.zero_le n)
    ⟨Spends.start.mono (Nat.zero_le _) (Nat.zero_le _), fun _ => rfl, .inl rfl⟩) ?_
      fun _ _ stopped => stopped
  · rintro tot m t inside positive within room isM ⟨spends, atStart, aligned⟩
    have step : dataPieces off (tot + m) = dataPieces off tot + 1 := by
      unfold dataPieces
      rw [isSize] at room aligned ⊢
      rcases aligned with rfl | atEnd | aligned
      · rw [if_pos rfl, if_neg (by omega)]
        omega
      · omega
      · rw [if_neg (by omega)]
        split_ifs with isZero
        · omega
        · omega
    have next : tot + m = 0 ∨ tot + m = n ∨ (off + (tot + m)) % bsize = 0 := by
      rw [isSize] at isM ⊢
      omega
    refine wp_mono (writePiece_spends word src spends) ?_ ?_
    · rintro continues u ⟨general, isMapped⟩
      have after : Spends s ip (dataPieces off (tot + m)) (newPieces off (tot + m)) u := by
        rw [step]
        by_cases first : tot = 0 ∧ off % bsize ≠ 0
        · obtain ⟨rfl, unaligned⟩ := first
          obtain rfl := atStart rfl
          refine (isMapped (mapped unaligned)).mono (Nat.le_refl _) (newLe (Nat.zero_le _))
        · refine general.mono (Nat.le_refl _) ?_
          unfold newPieces
          rw [step]
          split_ifs with isAligned
          · exact Nat.le_refl _
          · have notFirst : tot ≠ 0 := fun isZero => first ⟨isZero, isAligned⟩
            have present : 0 < dataPieces off tot := by
              unfold dataPieces
              rw [if_neg notFirst, isSize]
              omega
            omega
      cases continues with
      | true => exact ⟨after, fun isZero => by omega, next⟩
      | false => exact after.mono (piecesLe within) (newLe within)
    · intro _ u stopped
      exact stopped.mono (piecesLe (by omega)) (newLe (by omega))
  · rintro final t (⟨rfl, spends, _⟩ | ⟨_, spends⟩)
    · exact spends
    · exact spends

theorem Spends.exists_logs (spends : Spends s ip data bitmaps t) :
    ∃ blocks : Finset Nat, blocks.card ≤ data + bitmaps + 2 ∧ Logs s t blocks := by
  obtain ⟨blocks, maps, map, few, fewMaps, logs⟩ := spends
  have shared := indirectBlocks_card map (t.indirect ip)
  have outer := Finset.card_union_le (blocks ∪ maps) (indirectBlocks map (t.indirect ip))
  have inner := Finset.card_union_le blocks maps
  exact ⟨_, by omega, logs⟩

end Loop

/-! ### One chunk of `filewrite` -/

/-- `max` of `filewrite`. -/
def filewriteMax : Nat := (maxOpBlocks - 1 - 1 - 2) / 2 * bsize

/-- The blocks of an inode below its size are allocated. -/
def NoHoles (disk : Disk) (node : Dinode) : Prop :=
  ∀ bn, bn * bsize < node.size.toNat → Mapped disk node bn

section Chunk

variable {sb : Superblock} {s t : FsState c} {ip : Nat} {off n : UInt32}

theorem Logs.card_save {blocks : Finset Nat} {node : Inode} (logs : Logs s t blocks) :
    (logged s (t.save sb ip node)).card ≤ blocks.card + 1 := by
  have written : Logs t (t.save sb ip node) {sb.iblock node.inum.toNat} := .write rfl
  exact (logs.trans written).card_logged.trans (Finset.card_union_le _ _)

theorem SameFs.logged_eq (same : SameFs s t) (u : FsState c) : logged t u = logged s u := by
  unfold logged
  rw [same.trace]

theorem pieces_fit (chunk : n.toNat ≤ filewriteMax) :
    dataPieces off.toNat n.toNat + newPieces off.toNat n.toNat + 3 ≤ maxOpBlocks := by
  have isMax : filewriteMax = 3072 := rfl
  have isSize : bsize = 1024 := rfl
  have isLimit : maxOpBlocks = 10 := rfl
  unfold newPieces dataPieces
  rw [isSize]
  split_ifs <;> omega

theorem writePlain_logs (word : sb.size ≤ 2 ^ 32) (src : Source) (chunk : n.toNat ≤ filewriteMax)
    (mapped : off.toNat % bsize ≠ 0 →
      Mapped s.disk (s.itable ip).toDinode (off.toNat / bsize)) :
    wp (writePlain sb ip src off n) s (fun _ t => (logged s t).card ≤ maxOpBlocks)
      fun _ t => (logged s t).card ≤ maxOpBlocks := by
  have fits := @pieces_fit off n chunk
  unfold writePlain
  rw [wp_bind]
  refine wp_mono (writeLoop_spends word src mapped) ?_ ?_
  · intro tot t spends
    obtain ⟨blocks, few, logs⟩ := spends.exists_logs
    simp only [wp_bind, wp_pure]
    refine (wp_modifyInode_iupdate sb t ip (fun node => node.grown off tot) _ _).mpr ?_
    exact logs.card_save.trans (by omega)
  · intro _ t spends
    obtain ⟨blocks, few, logs⟩ := spends.exists_logs
    exact logs.card_logged.trans (by omega)

theorem storeImage_logs (word : sb.size ≤ 2 ^ 32) (compBuf compSize : Nat) :
    wp (storeImage sb ip n compBuf compSize) s (fun _ t => (logged s t).card ≤ maxOpBlocks)
      fun _ t => (logged s t).card ≤ maxOpBlocks := by
  have isLimit : maxOpBlocks = 10 := rfl
  unfold storeImage
  rw [wp_bind]
  refine wp_mono (bmap_logs word 0 0) ?_ ?_
  · rintro b t ⟨bitmap, map, _, logs⟩
    have pair : ({bitmap, b.toNat} : Finset Nat).card ≤ 2 := Finset.card_le_two
    have shared := indirectBlocks_card map (t.indirect ip)
    have first := Finset.card_union_le {bitmap, b.toNat} (indirectBlocks map (t.indirect ip))
    simp only [bread, wp_bind, wp_get, wp_pure, wp_ite]
    split_ifs
    · exact logs.card_logged.trans (by omega)
    · simp only [logWrite, setBuffer, note, wp_modify, wp_bind]
      refine (wp_modifyInode_iupdate sb _ ip (fun node => { node with
        size := UInt32.ofNat (compSize + CompressionHeader.bytes) }) _ _).mpr ?_
      have second := Finset.card_union_le
        ({bitmap, b.toNat} ∪ indirectBlocks map (t.indirect ip)) {b.toNat}
      rw [Finset.card_singleton] at second
      exact (logs.trans (.write rfl)).card_save.trans (by omega)
  · rintro _ _ rfl
    exact Logs.refl.card_logged.trans (Nat.zero_le _)

/-- A chunk of `filewrite` logs no more blocks than its transaction has reserved. -/
theorem writei_fits_reservation (word : sb.size < 2 ^ 32)
    (noHoles : NoHoles s.disk (s.itable ip).toDinode) (src : Source)
    (chunk : n.toNat ≤ filewriteMax) :
    wp (writei sb ip src off n) s (fun _ t => (logged s t).card ≤ maxOpBlocks)
      fun _ t => (logged s t).card ≤ maxOpBlocks := by
  have nothing : ∀ t : FsState c, SameFs s t → (logged s t).card ≤ maxOpBlocks :=
    fun t same => same.logs.card_logged.trans (Nat.zero_le _)
  unfold writei
  rw [wp_bind, wp_get, wp_ite, wp_ite]
  by_cases outside : (s.itable ip).size < off ∨ off + n < off
  · rw [if_pos outside]
    exact nothing s (SameFs.refl s)
  rw [if_neg outside]
  by_cases tooLarge : maxFile * bsize < (off + n).toNat
  · rw [if_pos tooLarge]
    exact nothing s (SameFs.refl s)
  rw [if_neg tooLarge, wp_ite]
  rw [not_or] at outside
  have inside : off.toNat ≤ (s.itable ip).size.toNat :=
    UInt32.le_iff_toNat_le.mp (UInt32.not_lt.mp outside.1)
  -- a block with a byte before the offset is below the size
  have mapped : off.toNat % bsize ≠ 0 →
      Mapped s.disk (s.itable ip).toDinode (off.toNat / bsize) := by
    intro unaligned
    apply noHoles
    have split := Nat.div_add_mod' off.toNat bsize
    omega
  split_ifs with compressed
  · obtain ⟨_, rfl⟩ := compressed
    have early : wp (writeCompressed sb ip src n) s
        (fun ret t => (ret = none → SameFs s t) ∧ (logged s t).card ≤ maxOpBlocks)
        fun _ t => (logged s t).card ≤ maxOpBlocks := by
      refine wp_writeCompressed ?_ ?_ ?_
      · exact fun _ t same _ => ⟨fun _ => same, nothing t same⟩
      · exact fun _ t same _ => nothing t same
      · intro t compBuf compSize same
        refine wp_mono (storeImage_logs (Nat.le_of_lt word) compBuf compSize) ?_ ?_
        · intro _ u few v sameV
          rw [same.logged_eq] at few
          have after : (logged s v).card ≤ maxOpBlocks := by
            unfold logged at few ⊢
            rw [sameV.trace]
            exact few
          exact ⟨⟨fun absent => absurd absent (Option.some_ne_none _), after⟩, after⟩
        · intro _ u few
          rw [same.logged_eq] at few
          exact few
    rw [wp_bind]
    refine wp_mono early ?_ fun _ _ stopped => stopped
    rintro (_ | ret) t ⟨same, few⟩
    · have sameT := same rfl
      have plain : wp (writePlain sb ip src 0 n) t (fun _ u => (logged t u).card ≤ maxOpBlocks)
          fun _ u => (logged t u).card ≤ maxOpBlocks :=
        writePlain_logs (Nat.le_of_lt word) src chunk fun unaligned => absurd rfl unaligned
      simp only [sameT.logged_eq] at plain
      exact plain
    · exact few
  · exact writePlain_logs (Nat.le_of_lt word) src chunk mapped

end Chunk

/-- A file of five bytes in block 11. -/
def fiveBytes : FsState huffman where
  disk := fun _ => Buffer.fill 0
  itable := fun _ => ⟨{ Dinode.zero with
    type := tFile, nlink := 1, size := 5
    addrs := fun k => if k.val = 0 then 11 else 0 }, 1, 1, true⟩
  kmem := ⟨[], fun _ => Buffer.fill 0⟩
  cache := ⟨0, 0, 0⟩
  codec := Huffman.Static.clear
  user := fun _ => 0
  trace := []

/-- A whole chunk after the five bytes, on a disk with three bitmap blocks. -/
theorem writei_fits_reservation_append :
    wp (writei ⟨20000, 19990, 16, 2, 3⟩ 0 ⟨fun _ => 7, fun _ => true⟩ 5 3072) fiveBytes
      (fun _ t => (logged fiveBytes t).card ≤ 10) fun _ t => (logged fiveBytes t).card ≤ 10 := by
  refine writei_fits_reservation (by decide) ?_ _ (by decide)
  intro bn below
  change bn * 1024 < 5 at below
  obtain rfl : bn = 0 := by omega
  decide

end Xv6.Kernel.Fs
