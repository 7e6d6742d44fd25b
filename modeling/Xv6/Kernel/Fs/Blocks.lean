import Xv6.Kernel.Fs.State

/-!
The block allocator of `fs.c`.

Owns: `bzero`, `balloc` and `bfree`, and what each does to the disk and to the
bitmap.

Does not own: who holds an allocated block.
-/

namespace Xv6.Kernel.Fs

open Xv6.Lib Function

variable {c : Codec}

/-- `bzero` -/
def bzero (bno : Nat) : FsM c PUnit := logWrite bno (Buffer.fill 0)

/-- The loops of `balloc` from block `b` on, a multiple of `BPB`. -/
def ballocFrom (sb : Superblock) (b : Nat) : FsM c UInt32 :=
  if b < sb.size then do
    let bp ← bread (sb.bblock b)
    match (List.range (min bpb (sb.size - b))).find? fun bi => !testBit bp bi with
    | some bi => do
      logWrite (sb.bblock b) (setBit bp bi)
      bzero (b + bi)
      pure (UInt32.ofNat (b + bi))
    | none => ballocFrom sb (b + bpb)
  else pure 0
termination_by sb.size - b
decreasing_by
  have : 0 < bpb := by decide
  omega

/-- `balloc` -/
def balloc (sb : Superblock) : FsM c UInt32 := do
  let before ← get
  let b ← ballocFrom sb 0
  note (.balloc before.disk before.itable b.toNat)
  pure b

/-- `bfree` -/
def bfree (sb : Superblock) (b : Nat) : FsM c PUnit := do
  let bp ← bread (sb.bblock b)
  if testBit bp (b % bpb) = false then throw (.panic .freeingFreeBlock)
  else logWrite (sb.bblock b) (clearBit bp (b % bpb))

/-! ### What the calls do -/

/-- The disk after `balloc` took block `b`: its bit is set, then it is zeroed. -/
def allocated (sb : Superblock) (disk : Disk) (b : Nat) : Disk :=
  update
    (update disk (sb.bblock b) (setBit (disk (sb.bblock b)) (b % bpb))) b (Buffer.fill 0)

/-- The disk after `bfree` of block `b`. -/
def freed (sb : Superblock) (disk : Disk) (b : Nat) : Disk :=
  update disk (sb.bblock b) (clearBit (disk (sb.bblock b)) (b % bpb))

variable {sb : Superblock} {s : FsState c}

theorem Superblock.Valid.word (valid : sb.Valid) : sb.size ≤ 2 ^ 32 :=
  Nat.le_trans valid.small (by decide)

theorem ballocFrom_spec (b : Nat) (aligned : b % bpb = 0)
    (post : UInt32 → FsState c → Prop) (stop : Stop → FsState c → Prop)
    (found : ∀ r < sb.size, b ≤ r → marked sb s.disk r = false →
      post (UInt32.ofNat r) { s with
        disk := allocated sb s.disk r
        trace := s.trace ++ [.logWrite (sb.bblock r)] ++ [.logWrite r] })
    (full : (∀ r < sb.size, b ≤ r → marked sb s.disk r = true) → post 0 s) :
    wp (ballocFrom sb b) s post stop := by
  generalize remaining : sb.size - b = left
  induction left using Nat.strong_induction_on generalizing b with
  | _ left ih =>
    have positive : 0 < bpb := by decide
    unfold ballocFrom
    by_cases inside : b < sb.size
    · rw [if_pos inside]
      simp only [bread, wp_bind, wp_get, wp_pure]
      -- the bits of this bitmap block are those of [b, b + bpb)
      have sameBlock : ∀ bi < bpb, (b + bi) / bpb = b / bpb ∧ (b + bi) % bpb = bi := by
        intro bi low
        obtain ⟨q, rfl⟩ := Nat.dvd_of_mod_eq_zero aligned
        rw [Nat.mul_add_div positive, Nat.mul_add_mod, Nat.mod_eq_of_lt low,
          Nat.div_eq_of_lt low, Nat.mul_div_cancel_left q positive]
        exact ⟨rfl, rfl⟩
      have bits : ∀ bi < bpb, marked sb s.disk (b + bi) = testBit (s.disk (sb.bblock b)) bi := by
        intro bi low
        rw [marked, Superblock.bblock, Superblock.bblock, (sameBlock bi low).1,
          (sameBlock bi low).2]
      cases search : (List.range (min bpb (sb.size - b))).find?
          fun bi => !testBit (s.disk (sb.bblock b)) bi with
      | some bi =>
        have member := List.mem_range.mp (List.mem_of_find?_eq_some search)
        have clear := List.find?_some search
        have low : bi < bpb := by omega
        have place : sb.bblock (b + bi) = sb.bblock b := by
          rw [Superblock.bblock, (sameBlock bi low).1, Superblock.bblock]
        have result := found (b + bi) (by omega) (by omega) (by
          rw [bits bi low]
          simpa using clear)
        rw [allocated, place, (sameBlock bi low).2] at result
        exact result
      | none =>
        refine ih (sb.size - (b + bpb)) (by omega) (b + bpb)
          (by rw [Nat.add_mod_right, aligned]) ?_ ?_ rfl
        · intro r bound low clear
          exact found r bound (by omega) clear
        · intro rest
          refine full fun r bound low => ?_
          by_cases here : r < b + bpb
          · have allSet := List.find?_eq_none.mp search (r - b) (List.mem_range.mpr (by omega))
            rw [← Nat.add_sub_of_le low, bits _ (by omega)]
            simpa using allSet
          · exact rest r bound (by omega)
    · rw [if_neg inside]
      exact full fun r bound low => absurd bound (by omega)

/-- `balloc` takes the first block whose bit is clear, or finds all bits set. -/
theorem balloc_spec (word : sb.size ≤ 2 ^ 32) (post : UInt32 → FsState c → Prop)
    (stop : Stop → FsState c → Prop)
    (found : ∀ r < sb.size, marked sb s.disk r = false →
      post (UInt32.ofNat r) { s with
        disk := allocated sb s.disk r
        trace := s.trace ++ [.logWrite (sb.bblock r)] ++ [.logWrite r] ++
          [.balloc s.disk s.itable r] })
    (full : (∀ r < sb.size, marked sb s.disk r = true) →
      post 0 { s with trace := s.trace ++ [.balloc s.disk s.itable 0] }) :
    wp (balloc sb) s post stop := by
  unfold balloc
  rw [wp_bind, wp_get, wp_bind]
  refine ballocFrom_spec 0 rfl _ _ ?_ ?_
  · intro r bound _ clear
    have number : (UInt32.ofNat r).toNat = r :=
      UInt32.toNat_ofNat_of_lt' (Nat.lt_of_lt_of_le bound word)
    simp only [note, wp_bind, wp_modify, wp_pure, number]
    exact found r bound clear
  · intro all
    exact full fun r bound => all r bound (Nat.zero_le _)

theorem bfree_spec (b : Nat) (post : PUnit → FsState c → Prop) (stop : Stop → FsState c → Prop)
    (inUse : marked sb s.disk b = true)
    (done : post ⟨⟩ { s with
      disk := freed sb s.disk b, trace := s.trace ++ [.logWrite (sb.bblock b)] }) :
    wp (bfree sb b) s post stop := by
  have test : ¬ testBit (s.disk (sb.bblock b)) (b % bpb) = false := by
    rw [marked] at inUse
    simp [inUse]
  unfold bfree
  simp only [bread, wp_bind, wp_get, wp_pure, wp_ite, if_neg test]
  exact done

/-! ### Bits and blocks afterwards -/

section Effects

variable {disk : Disk} {b r : Nat}

theorem marked_allocated (valid : sb.Valid) (data : sb.dataStart ≤ r) (bound : b < sb.size) :
    marked sb (allocated sb disk r) b = (marked sb disk b || decide (b = r)) := by
  have other : sb.bblock b ≠ r := fun same =>
    absurd (valid.bblock_meta b bound) (by omega)
  rw [← marked_setBit, allocated]
  exact marked_congr (update_of_ne other _ _)

theorem allocated_other (ne : b ≠ r) (notMap : b ≠ sb.bblock r) :
    allocated sb disk r b = disk b := by
  rw [allocated, update_of_ne ne, update_of_ne notMap]

theorem allocated_self : allocated sb disk r r = Buffer.fill 0 := update_self _ _ _

theorem marked_freed : marked sb (freed sb disk r) b = (marked sb disk b && !decide (b = r)) :=
  marked_clearBit sb disk r b

theorem freed_other (notMap : b ≠ sb.bblock r) : freed sb disk r b = disk b :=
  update_of_ne notMap _ _

end Effects

end Xv6.Kernel.Fs
