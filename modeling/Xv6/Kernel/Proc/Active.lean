import Xv6.Kernel.Proc.Records

/-!
`getactiveprocesses`: the call of the user and what the kernel makes of it.

Owns: the registers the stub passes, `sys_getactiveprocesses`, what the prototype in
`user.h` promises, and for which buffers the kernel keeps it.

Does not own: what makes a process active.
-/

namespace Xv6.Kernel.Proc

open Xv6.Lib Xv6.Kernel.Vm Xv6.Kernel.Sched

/-- `RUNNING`, `RUNNABLE` or `SLEEPING` -/
def active (state : ProcState) : Bool :=
  state = .running ∨ state = .runnable ∨ state = .sleeping

/-- The loop of `sys_getactiveprocesses` over the slots left; `tempPids` holds `count`
pids. -/
def activeLoop (procs : Procs) (maxCount : Int32) : List ProcPtr → List Int32 → List Int32
  | [], tempPids => tempPids
  | p :: rest, tempPids =>
    if active (procs.table p).state then
      if (tempPids.length : Int) < maxCount.toInt then
        activeLoop procs maxCount rest (tempPids ++ [(procs.table p).pid])
      else activeLoop procs maxCount rest tempPids
    else activeLoop procs maxCount rest tempPids

/-- An array of `int` as bytes. -/
def intBytes (values : List Int32) : List UInt8 :=
  values.flatMap fun value => Mem.bytes32 value.toUInt32

/-- `sys_getactiveprocesses` -/
def sysGetactiveprocesses (procs : Procs) (pagetable : UInt64) (trapframe : Trapframe) :
    VmM Int32 := do
  let maxCount := argint trapframe 0
  let pidsAddr := argaddr trapframe 1
  let tempPids := activeLoop procs maxCount slots []
  let ret ← copyout pagetable pidsAddr (intBytes tempPids)
  if ret < 0 then pure (-1) else pure (Int32.ofNat tempPids.length)

/-- The stub of `getactiveprocesses(buf, max)`: the arguments in order, an `int` widened to
a register. -/
def getactiveprocesses (registers : Trapframe) (buf : UInt64) (max : Int32) : Trapframe :=
  { registers with a0 := buf, a1 := widen max }

/-! ### What the kernel does -/

/-- The pids of the active processes in table order. -/
def Procs.activePids (procs : Procs) : List Int32 :=
  (slots.filter fun p => active (procs.table p).state).map fun p => (procs.table p).pid

section Kernel

variable {procs : Procs}

theorem activeLoop_eq (maxCount : Int32) (left : List ProcPtr) (tempPids : List Int32) :
    activeLoop procs maxCount left tempPids =
      tempPids ++ ((left.filter fun p => active (procs.table p).state).map
        fun p => (procs.table p).pid).take (maxCount.toNatClampNeg - tempPids.length) := by
  have clamp : maxCount.toNatClampNeg = maxCount.toInt.toNat := rfl
  induction left generalizing tempPids with
  | nil => simp [activeLoop]
  | cons p rest ih =>
    unfold activeLoop
    split_ifs with isActive room
    · have more : maxCount.toNatClampNeg - tempPids.length =
          maxCount.toNatClampNeg - (tempPids.length + 1) + 1 := by omega
      rw [ih]
      simp [isActive, more]
    · have full : maxCount.toNatClampNeg - tempPids.length = 0 := by omega
      rw [ih, full, List.take_zero, List.take_zero]
    · rw [ih]
      simp [isActive]

theorem activeLoop_slots (procs : Procs) (maxCount : Int32) :
    activeLoop procs maxCount slots [] = procs.activePids.take maxCount.toNatClampNeg := by
  rw [activeLoop_eq]
  rfl

theorem length_intBytes (values : List Int32) : (intBytes values).length = 4 * values.length := by
  induction values with
  | nil => rfl
  | cons value rest ih =>
    rw [intBytes, List.flatMap_cons, List.length_append, Mem.length_bytes32, ← intBytes,
      ih, List.length_cons]
    omega

theorem length_activePids (procs : Procs) : procs.activePids.length ≤ nProc := by
  unfold Procs.activePids
  rw [List.length_map]
  exact (List.length_filter_le _ _).trans (Nat.le_of_eq (List.length_finRange))

variable {s : Phys} {root : UInt64}

theorem sysGetactiveprocesses_run (unaliased : Unaliased s root) (procs : Procs)
    (trapframe : Trapframe) :
    ∃ k t, Delivered s root (argaddr trapframe 1)
        (intBytes (procs.activePids.take (argint trapframe 0).toNatClampNeg)) k t ∧
      sysGetactiveprocesses procs root trapframe s =
        .ok (if k = 4 * min (argint trapframe 0).toNatClampNeg procs.activePids.length then
          Int32.ofNat (min (argint trapframe 0).toNatClampNeg procs.activePids.length)
            else -1) t := by
  obtain ⟨ret, t, run, k, small, good, bad, isRet, copied⟩ := exists_ok_of_wp
    (wp_copyout_target unaliased (argaddr trapframe 1)
      (intBytes (procs.activePids.take (argint trapframe 0).toNatClampNeg)))
  refine ⟨k, t, ⟨small, good, bad, copied⟩, ?_⟩
  unfold sysGetactiveprocesses
  simp only [activeLoop_slots]
  change EStateM.bind _ _ s = _
  unfold EStateM.bind
  rw [run, isRet, length_intBytes, List.length_take]
  split_ifs
  · rfl
  · rfl

end Kernel

/-! ### What the user was promised -/

/-- The pids of the first `max` active processes are in `buf`, their number is returned,
and no other memory has changed. -/
def Delivers (procs : Procs) (s : Phys) (root : UInt64) (registers : Trapframe) (buf : UInt64)
    (max : Int32) : Prop :=
  wp (sysGetactiveprocesses procs root (getactiveprocesses registers buf max)) s
    (fun ret t => ret.toInt = min max.toInt procs.activePids.length ∧
      CopiedOut s root buf (intBytes (procs.activePids.take max.toNatClampNeg))
        (4 * min max.toNatClampNeg procs.activePids.length) t)
    fun _ _ => False

section Promise

variable {s t u : Phys} {root : UInt64} {procs : Procs} {buf : UInt64} {max : Int32}

theorem argint_widen (n : Int32) : (widen n).toUInt32.toInt32 = n := by
  have low := n.le_toInt
  have high := n.toInt_lt
  have value := widen_toNat n
  apply Int32.toInt_inj.mp
  have same : ((widen n).toUInt32.toInt32.toInt) = ((widen n).toUInt32.toNat : Int).bmod
      (2 ^ 32) := by
    exact BitVec.toInt_eq_toNat_bmod _
  rw [same, UInt64.toNat_toUInt32, Int.bmod_def]
  omega

theorem ofNat_toInt {n : Nat} (small : n ≤ nProc) : (Int32.ofNat n).toInt = n :=
  Int32.toInt_ofNat_of_lt (Nat.lt_of_le_of_lt small (by decide))

theorem length_taken (procs : Procs) (n : Nat) :
    (intBytes (procs.activePids.take n)).length = 4 * min n procs.activePids.length := by
  rw [length_intBytes, List.length_take]

theorem min_toInt (procs : Procs) (least : 0 ≤ max.toInt) :
    ((min max.toNatClampNeg procs.activePids.length : Nat) : Int) =
      min max.toInt procs.activePids.length := by
  have clamp : max.toNatClampNeg = max.toInt.toNat := rfl
  omega

theorem delivers_nothing (unaliased : Unaliased t root) (procs : Procs) (registers : Trapframe)
    (least : 0 ≤ max.toInt)
    (kernel : min buf.toUInt32.toInt32.toNatClampNeg procs.activePids.length = 0)
    (user : min max.toNatClampNeg procs.activePids.length = 0) :
    Delivers procs t root registers buf max := by
  obtain ⟨k, u, delivered, run⟩ :=
    sysGetactiveprocesses_run unaliased procs (getactiveprocesses registers buf max)
  change Delivered t root (widen max)
    (intBytes (procs.activePids.take buf.toUInt32.toInt32.toNatClampNeg)) k u at delivered
  change _ = EStateM.Result.ok (if k = 4 * min buf.toUInt32.toInt32.toNatClampNeg _ then
    Int32.ofNat (min buf.toUInt32.toInt32.toNatClampNeg _) else -1) u at run
  have absent : k = 0 := by
    have small := delivered.small
    rw [length_taken, kernel] at small
    omega
  subst absent
  unfold Delivers
  rw [wp_ok run, kernel, user, ← min_toInt procs least, user]
  exact ⟨rfl, delivered.copied.anywhere _ _⟩

theorem delivers_same (unaliased : Unaliased t root) (procs : Procs) (registers : Trapframe)
    (least : 0 ≤ max.toInt)
    (valid : ∀ i < 4 * min max.toNatClampNeg procs.activePids.length,
      t.target root (widen max + UInt64.ofNat i) ≠ none) :
    Delivers procs t root registers (widen max) max := by
  obtain ⟨k, u, delivered, run⟩ :=
    sysGetactiveprocesses_run unaliased procs (getactiveprocesses registers (widen max) max)
  have isMax : argint (getactiveprocesses registers (widen max) max) 0 = max := argint_widen max
  have isAddr : argaddr (getactiveprocesses registers (widen max) max) 1 = widen max := rfl
  rw [isMax] at run
  rw [isMax, isAddr] at delivered
  have all : k = 4 * min max.toNatClampNeg procs.activePids.length := by
    have small := delivered.small
    have bad := delivered.bad
    rw [length_taken] at small bad
    by_contra short
    exact valid k (by omega) (bad (by omega))
  unfold Delivers
  rw [wp_ok run, if_pos all, ← all]
  have few := length_activePids procs
  exact ⟨(ofNat_toInt (by omega)).trans (min_toInt procs least), delivered.copied⟩

theorem condition_of_delivers (unaliased : Unaliased s root) (procs : Procs) (registers : Trapframe)
    (least : 0 ≤ max.toInt)
    (valid : ∀ i < 4 * min max.toNatClampNeg procs.activePids.length,
      s.target root (buf + UInt64.ofNat i) ≠ none)
    (delivers : ∀ t, SameTable s t root → Delivers procs t root registers buf max)
    (present : procs.activePids ≠ []) (different : buf ≠ widen max) :
    max = 0 ∧ buf.toUInt32.toInt32.toInt ≤ 0 := by
  have few := length_activePids procs
  have user := min_toInt procs least
  -- what the kernel copies and returns, whatever memory holds
  have kernel : ∀ t, SameTable s t root →
      min buf.toUInt32.toInt32.toNatClampNeg procs.activePids.length =
          min max.toNatClampNeg procs.activePids.length ∧
        ∃ u, Delivered t root (widen max)
            (intBytes (procs.activePids.take buf.toUInt32.toInt32.toNatClampNeg))
            (4 * min max.toNatClampNeg procs.activePids.length) u ∧
          CopiedOut t root buf (intBytes (procs.activePids.take max.toNatClampNeg))
            (4 * min max.toNatClampNeg procs.activePids.length) u := by
    intro t same
    obtain ⟨k, u, delivered, run⟩ :=
      sysGetactiveprocesses_run same.unaliased procs (getactiveprocesses registers buf max)
    have promise := delivers t same
    unfold Delivers at promise
    rw [wp_ok run, ← user] at promise
    obtain ⟨returned, copied⟩ := promise
    change Delivered t root (widen max)
      (intBytes (procs.activePids.take buf.toUInt32.toInt32.toNatClampNeg)) k u at delivered
    change (if k = 4 * min buf.toUInt32.toInt32.toNatClampNeg _ then
      Int32.ofNat (min buf.toUInt32.toInt32.toNatClampNeg _) else -1).toInt = _ at returned
    split_ifs at returned with all
    · rw [ofNat_toInt (by omega), Int.ofNat_inj] at returned
      refine ⟨returned, u, ?_, copied⟩
      rw [← returned, ← all]
      exact delivered
    · change (-1 : Int) = _ at returned
      omega
  obtain ⟨counts, u, delivered, _⟩ := kernel s ⟨fun _ => rfl, unaliased⟩
  have length := length_taken procs max.toNatClampNeg
  by_cases nothing : min max.toNatClampNeg procs.activePids.length = 0
  · have positive : 0 < procs.activePids.length := List.length_pos_iff.mpr present
    have clamp : max.toNatClampNeg = max.toInt.toNat := rfl
    have clampBuf : buf.toUInt32.toInt32.toNatClampNeg = buf.toUInt32.toInt32.toInt.toNat := rfl
    have zero : max.toInt = (0 : Int32).toInt := by
      rw [show (0 : Int32).toInt = 0 from rfl]
      omega
    exact ⟨Int32.toInt_inj.mp zero, by omega⟩
  · have taken : procs.activePids.take buf.toUInt32.toInt32.toNatClampNeg =
        procs.activePids.take max.toNatClampNeg := by
      rw [List.take_eq_take_iff]
      exact counts
    have positive : 0 < (intBytes (procs.activePids.take max.toNatClampNeg)).length := by
      rw [length]
      omega
    obtain ⟨t, same, differ⟩ := exists_copies_differ unaliased (Ne.symm different) positive
      (by rw [length]; exact delivered.good) (by rw [length]; exact valid)
    obtain ⟨_, v, toBound, toBuffer⟩ := kernel t same
    rw [taken] at toBound
    rw [length] at differ
    exact absurd toBuffer (differ v toBound.copied)

/-- The kernel takes the buffer for the bound and the bound for the buffer. -/
theorem getactiveprocesses_delivers_iff (unaliased : Unaliased s root) (procs : Procs)
    (registers : Trapframe) {buf : UInt64} {max : Int32} (least : 0 ≤ max.toInt)
    (valid : ∀ i < 4 * min max.toNatClampNeg procs.activePids.length,
      s.target root (buf + UInt64.ofNat i) ≠ none) :
    (∀ t, SameTable s t root → Delivers procs t root registers buf max) ↔
      (procs.activePids = [] ∨ (max = 0 ∧ buf.toUInt32.toInt32.toInt ≤ 0) ∨ buf = widen max) := by
  constructor
  · intro delivers
    by_cases absent : procs.activePids = []
    · exact .inl absent
    · by_cases same : buf = widen max
      · exact .inr (.inr same)
      · exact .inr
          (.inl (condition_of_delivers unaliased procs registers least valid delivers absent same))
  · rintro (absent | ⟨rfl, negative⟩ | rfl) t same
    · apply delivers_nothing same.unaliased procs registers least
      · rw [absent, List.length_nil, Nat.min_zero]
      · rw [absent, List.length_nil, Nat.min_zero]
    · apply delivers_nothing same.unaliased procs registers least
      · have clamp : buf.toUInt32.toInt32.toNatClampNeg = buf.toUInt32.toInt32.toInt.toNat := rfl
        omega
      · exact Nat.zero_min _
    · apply delivers_same same.unaliased procs registers least
      intro i less
      rw [same.target_eq]
      exact valid i less

end Promise

/-- Four is a buffer and a bound. -/
theorem getactiveprocesses_delivers_four :
    Delivers initOnly (leafTable 0x20000C17) 0x80000000 (twoArguments 0 0) 4 4 := by
  have valid : ∀ i < 4 * min (4 : Int32).toNatClampNeg initOnly.activePids.length,
      (leafTable 0x20000C17).target 0x80000000 (4 + UInt64.ofNat i) ≠ none := by decide +kernel
  exact (getactiveprocesses_delivers_iff userPage_unaliased initOnly _ (by decide) valid).mpr
    (.inr (.inr (by decide))) _ ⟨fun _ => rfl, userPage_unaliased⟩

/-- A buffer at 64 with room for four: the kernel writes the pid to address 4. -/
theorem getactiveprocesses_swaps :
    initOnly.activePids = [1] ∧
      ∃ t, sysGetactiveprocesses initOnly 0x80000000 (getactiveprocesses (twoArguments 0 0) 64 4)
          (leafTable 0x20000C17) = .ok 1 t ∧
        (t.mem 0x80003000).byte 4 = 1 ∧ (t.mem 0x80003000).byte 64 = 0 := by
  exact ⟨by decide +kernel, exists_ok_eq (by decide +kernel)⟩

end Xv6.Kernel.Proc
