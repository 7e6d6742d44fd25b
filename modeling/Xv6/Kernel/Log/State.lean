import Xv6.Kernel.Param
import Xv6.Lib.RedoLog
import Xv6.Lib.Transition

/-!
The write-ahead log of `log.c` as a transition system whose steps are single
block writes.

Owns: the in-memory log and its three entry points, the on-disk header, the
phases of `commit` and `recover_from_log` with one step per `bwrite`, crashes,
and the record of which operation wrote what since the last boot.

Does not own: which blocks the file system logs, and the buffer cache's
replacement of unpinned buffers, whose contents equal the disk's.
-/

namespace Xv6.Kernel

open Xv6.Lib

/-- `struct log` without its lock and the superblock values. The list is
`lh.block[0..lh.n)`. -/
structure Log where
  outstanding : Nat
  committing : Bool
  blocks : List Nat
deriving DecidableEq, Repr

namespace Log

/-- `log.start` and `log.size`, as `initlog` takes them from the superblock. The
area holds at least its header block. -/
structure Geometry where
  start : Nat
  size : Nat
  pos : 0 < size

namespace Geometry

/-- The blocks of the log area. -/
def InLog (g : Geometry) (b : Nat) : Prop := g.start ≤ b ∧ b < g.start + g.size

instance (g : Geometry) (b : Nat) : Decidable (g.InLog b) :=
  inferInstanceAs (Decidable (_ ∧ _))

def Home (g : Geometry) (b : Nat) : Prop := ¬ g.InLog b

instance (g : Geometry) (b : Nat) : Decidable (g.Home b) :=
  inferInstanceAs (Decidable (¬ _))

/-- `log.start+tail+1`: the log block of entry `tail`. -/
def slot (g : Geometry) (tail : Nat) : Nat := g.start + tail + 1

theorem start_inLog (g : Geometry) : g.InLog g.start :=
  ⟨Nat.le_refl _, Nat.lt_add_of_pos_right g.pos⟩

theorem slot_inLog (g : Geometry) {tail : Nat} (fits : tail + 1 < g.size) :
    g.InLog (g.slot tail) := by
  unfold InLog slot
  omega

theorem slot_ne_start (g : Geometry) (tail : Nat) : g.slot tail ≠ g.start := by
  unfold slot
  omega

theorem slot_injective (g : Geometry) {i j : Nat} (same : g.slot i = g.slot j) : i = j := by
  unfold slot at same
  omega

end Geometry

/-- The disk that `mkfs` lays out: the log follows the boot block and the
superblock and has `nlog = LOGSIZE` blocks. -/
def mkfsGeometry : Geometry where
  start := 2
  size := logSize
  pos := by decide

/-! ### The in-memory log -/

/-- `log.lh.n` -/
def n (log : Log) : Nat := log.blocks.length

/-- The log at boot, before `read_head`. -/
def boot : Log := ⟨0, false, []⟩

/-- The panics of `log.c` after initialisation. -/
inductive Panic where
  | tooBig
  | outsideTrans
  | committing
deriving DecidableEq, Repr

/-- One pass through the loop of `begin_op`; `none` means that it sleeps. -/
def beginOp (log : Log) : Option Log :=
  if log.committing then none
  else if log.n + (log.outstanding + 1) * maxOpBlocks > logSize then none
  else some { log with outstanding := log.outstanding + 1 }

/-- The part of `end_op` under the lock. It starts a commit exactly when it
leaves `committing` set. -/
def endOp (log : Log) : Except Panic Log :=
  if log.committing then .error .committing
  else if log.outstanding - 1 = 0 then
    .ok { log with outstanding := log.outstanding - 1, committing := true }
  else .ok { log with outstanding := log.outstanding - 1 }

/-- The loop of `log_write`: store the block number at the first entry that has
it already (absorption), or in a new last entry. -/
def absorb (blockno : Nat) : List Nat → List Nat
  | [] => [blockno]
  | entry :: rest => if entry = blockno then blockno :: rest else entry :: absorb blockno rest

/-- `log_write` -/
def logWrite (g : Geometry) (log : Log) (blockno : Nat) : Except Panic Log :=
  if log.n ≥ logSize ∨ log.n ≥ g.size - 1 then .error .tooBig
  else if log.outstanding < 1 then .error .outsideTrans
  else .ok { log with blocks := absorb blockno log.blocks }

theorem beginOp_some {log log' : Log} (admitted : beginOp log = some log') :
    log.committing = false ∧ log.n + (log.outstanding + 1) * maxOpBlocks ≤ logSize ∧
      log' = { log with outstanding := log.outstanding + 1 } := by
  unfold beginOp at admitted
  split_ifs at admitted with committing full
  exact ⟨by simpa using committing, by omega, (Option.some.inj admitted).symm⟩

theorem logWrite_ok {g : Geometry} {log log' : Log} {blockno : Nat}
    (written : logWrite g log blockno = .ok log') :
    ¬ (log.n ≥ logSize ∨ log.n ≥ g.size - 1) ∧
      log' = { log with blocks := absorb blockno log.blocks } := by
  unfold logWrite at written
  split_ifs at written with full outside
  exact ⟨full, (Except.ok.inj written).symm⟩

theorem endOp_ok {log log' : Log} (ended : endOp log = .ok log') :
    log.committing = false ∧
      log' = { log with outstanding := log.outstanding - 1,
                        committing := decide (log.outstanding - 1 = 0) } := by
  unfold endOp at ended
  split_ifs at ended with committing last
  · exact ⟨by simpa using committing, by rw [← Except.ok.inj ended, decide_eq_true last]⟩
  · have idle : log.committing = false := by simpa using committing
    exact ⟨idle, by rw [← Except.ok.inj ended, decide_eq_false last, idle]⟩

theorem absorb_of_mem {blockno : Nat} {blocks : List Nat} (member : blockno ∈ blocks) :
    absorb blockno blocks = blocks := by
  induction blocks with
  | nil => simp at member
  | cons entry rest ih =>
    by_cases same : entry = blockno
    · rw [absorb, if_pos same, same]
    · have later : blockno ∈ rest := (List.mem_cons.mp member).resolve_left (Ne.symm same)
      rw [absorb, if_neg same, ih later]

theorem absorb_of_notMem {blockno : Nat} {blocks : List Nat} (new : blockno ∉ blocks) :
    absorb blockno blocks = blocks ++ [blockno] := by
  induction blocks with
  | nil => rfl
  | cons entry rest ih =>
    rw [List.mem_cons, not_or] at new
    rw [absorb, if_neg (Ne.symm new.1), ih new.2, List.cons_append]

theorem mem_absorb {blockno b : Nat} {blocks : List Nat} :
    b ∈ absorb blockno blocks ↔ b ∈ blocks ∨ b = blockno := by
  by_cases member : blockno ∈ blocks
  · rw [absorb_of_mem member]
    constructor
    · exact Or.inl
    · rintro (old | same)
      · exact old
      · exact same ▸ member
  · rw [absorb_of_notMem member, List.mem_append, List.mem_singleton]

theorem absorb_nodup {blockno : Nat} {blocks : List Nat} (nodup : blocks.Nodup) :
    (absorb blockno blocks).Nodup := by
  by_cases member : blockno ∈ blocks
  · rwa [absorb_of_mem member]
  · rw [absorb_of_notMem member]
    exact List.nodup_append.mpr ⟨nodup, List.nodup_singleton _, by
      intro a inBlocks b inSingle same
      rw [List.mem_singleton] at inSingle
      exact member (inSingle ▸ same ▸ inBlocks)⟩

theorem length_absorb_le (blockno : Nat) (blocks : List Nat) :
    (absorb blockno blocks).length ≤ blocks.length + 1 := by
  by_cases member : blockno ∈ blocks
  · rw [absorb_of_mem member]
    exact Nat.le_succ _
  · rw [absorb_of_notMem member, List.length_append, List.length_singleton]

/-! ### The on-disk header -/

/-- The header block after `write_head`. -/
def writeHead (hb : Block) (blocks : List Nat) : Block :=
  (hb.set32 0 (UInt32.ofNat blocks.length)).putWords 4 (blocks.map UInt32.ofNat)

/-- The entries `read_head` takes from the header block; `n` is a C `int`. -/
def readHead (hb : Block) : List Nat :=
  (List.range (hb.mem.le32 0).toInt32.toInt.toNat).map fun i => (hb.mem.le32 (4 + 4 * i)).toNat

theorem writeHead_n (hb : Block) (blocks : List Nat) :
    (writeHead hb blocks).mem.le32 0 = UInt32.ofNat blocks.length := by
  rw [writeHead, Buffer.le32_putWords_outside _ (by omega), Buffer.le32_set32 _ _ (by decide)]

theorem writeHead_entry (hb : Block) {blocks : List Nat} (fits : blocks.length ≤ logSize) {i : Nat}
    (inside : i < blocks.length) :
    (writeHead hb blocks).mem.le32 (4 + 4 * i) = UInt32.ofNat blocks[i] := by
  have room : 4 + 4 * (blocks.map UInt32.ofNat).length ≤ bsize := by
    simp only [List.length_map, logSize, maxOpBlocks, bsize] at *
    omega
  rw [writeHead, Buffer.le32_putWords _ room (by simpa using inside), List.getElem_map]

/-- What `write_head` stores is what `read_head` finds. -/
theorem readHead_writeHead (hb : Block) {blocks : List Nat} (fits : blocks.length ≤ logSize)
    (words : ∀ b ∈ blocks, b < 2 ^ 32) : readHead (writeHead hb blocks) = blocks := by
  have small : blocks.length < 2 ^ 31 := Nat.lt_of_le_of_lt fits (by decide)
  have count : (UInt32.ofNat blocks.length).toInt32.toInt.toNat = blocks.length := by
    have asInt : (UInt32.ofNat blocks.length).toInt32 = Int32.ofNat blocks.length := rfl
    rw [asInt, Int32.toInt_ofNat_of_lt small, Int.toNat_natCast]
  unfold readHead
  rw [writeHead_n, count]
  apply List.ext_getElem (by simp)
  intro i inMap inside
  rw [List.getElem_map, List.getElem_range, writeHead_entry hb fits inside]
  exact UInt32.toNat_ofNat_of_lt' (words _ (List.getElem_mem inside))

/-- A header block that records no transaction. -/
def Erased (hb : Block) : Prop := hb.mem.le32 0 = 0

instance (hb : Block) : Decidable (Erased hb) := inferInstanceAs (Decidable (_ = _))

theorem readHead_of_erased {hb : Block} (erased : Erased hb) : readHead hb = [] := by
  rw [readHead, erased]
  rfl

theorem erased_writeHead (hb : Block) : Erased (writeHead hb []) :=
  writeHead_n hb []

/-- Erasing an erased header writes the bytes that are there. -/
theorem writeHead_of_erased {hb : Block} (erased : Erased hb) : writeHead hb [] = hb := by
  have stored : hb.set32 0 (hb.mem.le32 0) = hb := Buffer.set32_le32 hb 0
  rwa [erased] at stored

end Log

end Xv6.Kernel
