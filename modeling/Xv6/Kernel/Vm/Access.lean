import Xv6.Kernel.Vm.Walk
import Xv6.Lib.Buffer

/-!
User memory byte by byte.

Owns: the bytes of a page, where a user address leads, when no two addresses lead to
the same byte, and `copyin`, `copyinstr` and `fetchstr`, which read user memory into a
kernel buffer.

Does not own: `copyout`, which is with the rest of vm.c.
-/

namespace Xv6.Kernel.Vm

open Xv6.Lib

/-! ### The bytes of a page -/

theorem ones_bit {m : Nat} (low : m < 64) : (255#64)[m] = decide (m < 8) := by
  rw [← BitVec.getLsbD_eq_getElem, BitVec.getLsbD_ofNat, decide_eq_true low, Bool.true_and]
  exact Nat.testBit_two_pow_sub_one 8 m

theorem replaced_byte (word : UInt64) (byte : UInt8) {k j : Nat} (kLow : k < 8) (jLow : j < 8) :
    (((word &&& ~~~(0xFF <<< UInt64.ofNat (8 * k))) ||| (byte.toUInt64 <<< UInt64.ofNat (8 * k)))
        >>> UInt64.ofNat (8 * j)).toUInt8 =
      if j = k then byte else (word >>> UInt64.ofNat (8 * j)).toUInt8 := by
  have kShift : 8 * k % 18446744073709551616 % 64 = 8 * k := by omega
  have jShift : 8 * j % 18446744073709551616 % 64 = 8 * j := by omega
  apply UInt8.toBitVec_inj.mp
  apply BitVec.eq_of_getLsbD_eq
  intro i low
  have inWord : 8 * j + i < 64 := by omega
  split_ifs with same
  · subst same
    simp [kShift, low, ones_bit, inWord]
  · by_cases below : 8 * j + i < 8 * k
    · simp [kShift, jShift, low, below, inWord]
    · have high : 8 ≤ 8 * j + i - 8 * k := by omega
      simp [kShift, jShift, low, below, ones_bit, BitVec.getLsbD_of_ge _ _ high, inWord,
        Nat.not_lt.mpr high]

namespace Page

theorem word_lt (pos : Nat) : pos / 8 % 512 < 512 := Nat.mod_lt _ (by decide)

/-- Byte `pos` of a page. -/
def byte (page : Page) (pos : Nat) : UInt8 :=
  (page ⟨pos / 8 % 512, word_lt pos⟩ >>> UInt64.ofNat (8 * (pos % 8))).toUInt8

theorem byte_setByte (page : Page) {pos q : Nat} (low : q < 4096) (byte : UInt8) :
    (page.setByte pos byte).byte q = if q = pos then byte else page.byte q := by
  have qWord : q / 8 % 512 = q / 8 := Nat.mod_eq_of_lt (by omega)
  unfold Page.byte setByte
  dsimp only
  by_cases sameWord : q / 8 % 512 = pos / 8
  · rw [if_pos sameWord, replaced_byte _ _ (Nat.mod_lt _ (by decide)) (Nat.mod_lt _ (by decide))]
    by_cases same : q = pos
    · simp [same]
    · rw [if_neg same, if_neg (by omega)]
  · rw [if_neg sameWord, if_neg (by omega)]

/-- The bytes of a page after some were written. -/
theorem byte_write (page : Page) {pos q : Nat} {bytes : List UInt8}
    (fits : pos + bytes.length ≤ 4096) (low : q < 4096) :
    (page.write pos bytes).byte q =
      if pos ≤ q ∧ q < pos + bytes.length then bytes.getD (q - pos) 0 else page.byte q := by
  induction bytes generalizing page pos with
  | nil =>
    rw [if_neg (by simp)]
    rfl
  | cons first rest ih =>
    rw [List.length_cons] at fits
    rw [write, ih _ (by omega), byte_setByte _ low, List.length_cons]
    by_cases isFirst : q = pos
    · subst isFirst
      simp
    · by_cases later : pos + 1 ≤ q ∧ q < pos + 1 + rest.length
      · have next : q - pos = q - (pos + 1) + 1 := by omega
        rw [if_pos later, if_pos (by omega), next, List.getD_cons_succ]
      · rw [if_neg later, if_neg isFirst, if_neg (by omega)]

/-- A page is its bytes. -/
theorem ext_byte {page page' : Page} (same : ∀ pos < 4096, page.byte pos = page'.byte pos) :
    page = page' := by
  funext word
  apply UInt64.toBitVec_inj.mp
  apply BitVec.eq_of_getLsbD_eq
  intro i low
  have position : 8 * word.val + i / 8 < 4096 := by omega
  have sameByte := same _ position
  unfold Page.byte at sameByte
  have wordIndex : (8 * word.val + i / 8) / 8 % 512 = word.val := by omega
  have shift : 8 * ((8 * word.val + i / 8) % 8) = 8 * (i / 8) := by omega
  simp only [wordIndex, shift] at sameByte
  have bit := congrArg (fun byte : UInt8 => byte.toBitVec.getLsbD (i % 8)) sameByte
  have small : 8 * (i / 8) % 18446744073709551616 % 64 = 8 * (i / 8) := by omega
  have sum : 8 * (i / 8) + i % 8 = i := by omega
  simpa [small, sum, Nat.mod_lt] using bit

end Page

/-! ### Where user addresses lead -/

/-- The kernel may read a user page. -/
def readable (pte : UInt64) : Bool := pte &&& pteU ≠ 0

/-- The kernel may write a user page. -/
def writable (pte : UInt64) : Bool := pte &&& pteU ≠ 0 ∧ pte &&& pteW ≠ 0

namespace Phys

/-- The page of a user address below `MAXVA` whose entry is valid and allowed. -/
def reach (s : Phys) (root : UInt64) (allowed : UInt64 → Bool) (va : UInt64) : Option UInt64 :=
  if va < maxVa then ((s.entry root (vpn va)).filter allowed).map pte2pa else none

/-- The byte a user address leads to. -/
def byteAt (s : Phys) (page va : UInt64) : UInt8 := (s.mem page).byte (va.toNat % 4096)

/-- Where `copyout` writes. -/
def target (s : Phys) (root va : UInt64) : Option UInt64 := s.reach root writable va

/-- Where `copyin` and `copyinstr` read: `walkaddr` says 0 for an address without a
page, so that they take a page at address 0 for none. -/
def source (s : Phys) (root va : UInt64) : Option UInt64 :=
  (s.reach root readable va).filter (· ≠ 0)

end Phys

/-- No page of user memory is mapped twice, or is one of the table. -/
structure Unaliased (s : Phys) (root : UInt64) : Prop where
  once : ∀ v w pte pte', v < 512 ^ 3 → w < 512 ^ 3 → s.entry root v = some pte →
    s.entry root w = some pte' → readable pte = true → readable pte' = true →
    pte2pa pte = pte2pa pte' → v = w
  apart : ∀ v pte path, v < 512 ^ 3 → s.entry root v = some pte → readable pte = true →
    path.length ≤ 2 → s.table root path ≠ some (pte2pa pte)

theorem readable_of_writable {pte : UInt64} (isWritable : writable pte = true) :
    readable pte = true := by
  unfold writable at isWritable
  unfold readable
  simp only [Bool.decide_and, Bool.and_eq_true] at isWritable
  exact isWritable.1

section Reach

variable {s t : Phys} {root : UInt64} {allowed : UInt64 → Bool} {va vb : UInt64}

theorem reach_eq_some {page : UInt64} : s.reach root allowed va = some page ↔
    va < maxVa ∧ ∃ pte, s.entry root (vpn va) = some pte ∧ allowed pte = true ∧
      pte2pa pte = page := by
  unfold Phys.reach
  by_cases inside : va < maxVa
  · simp [inside, Option.filter_eq_some_iff, and_assoc]
  · simp [inside]

/-- Addresses of one page lead to one page. -/
theorem reach_congr (same : vpn va = vpn vb) :
    s.reach root allowed va = s.reach root allowed vb := by
  have below : va < maxVa ↔ vb < maxVa := by
    rw [lt_maxVa_toNat, lt_maxVa_toNat]
    unfold vpn at same
    omega
  unfold Phys.reach
  simp only [below, same]

theorem vpn_pgRoundDown (va : UInt64) : vpn (pgRoundDown va) = vpn va := by
  unfold vpn
  rw [pgRoundDown_toNat]
  omega

theorem reach_pgRoundDown :
    s.reach root allowed (pgRoundDown va) = s.reach root allowed va :=
  reach_congr (vpn_pgRoundDown va)

/-- `dstva - va0` -/
theorem sub_pgRoundDown_toNat (va : UInt64) : (va - pgRoundDown va).toNat = va.toNat % 4096 := by
  have rounded := pgRoundDown_toNat va
  rw [UInt64.toNat_sub_of_le, rounded]
  · omega
  · rw [UInt64.le_iff_toNat_le, rounded]
    omega

/-- Two addresses of an unaliased table that lead to one page are in the same one. -/
theorem Unaliased.vpn_eq (unaliased : Unaliased s root) {page : UInt64}
    (first : s.target root va = some page) (second : s.target root vb = some page) :
    vpn va = vpn vb := by
  obtain ⟨aInside, pte, isPte, aWritable, isPage⟩ := reach_eq_some.mp first
  obtain ⟨bInside, pte', isPte', bWritable, isPage'⟩ := reach_eq_some.mp second
  exact unaliased.once _ _ pte pte' (vpn_lt aInside) (vpn_lt bInside) isPte isPte'
    (readable_of_writable aWritable) (readable_of_writable bWritable) (isPage.trans isPage'.symm)

theorem source_congr (same : vpn va = vpn vb) : s.source root va = s.source root vb := by
  unfold Phys.source
  rw [reach_congr same]

theorem walkaddr_reach (s : Phys) (root va : UInt64) :
    walkaddr root va s = .ok ((s.reach root readable va).getD 0) s := by
  have chosen : wp (walkaddr root va) s
      (fun pa t => pa = (s.reach root readable va).getD 0 ∧ t = s) fun _ _ => False := by
    unfold walkaddr Phys.reach
    by_cases inside : va < maxVa
    · rw [if_neg (UInt64.not_le.mpr inside), if_pos inside, wp_bind,
        wp_ok (walk_lookup s root inside)]
      cases reached : s.table root (spine (vpn va)) with
      | none => simp [Phys.entry, reached, wp_pure]
      | some low =>
        simp only [Option.map_some, load, wp_bind, wp_get, wp_pure, Phys.entry, reached,
          Option.bind_some, wp_ite]
        by_cases valid : s.mem low (ix 0 (vpn va)) &&& pteV = 0
        · simp [valid]
        · by_cases user : s.mem low (ix 0 (vpn va)) &&& pteU = 0
          · simp [valid, user, readable, Option.filter]
          · simp [valid, user, readable, Option.filter]
    · rw [if_pos (UInt64.not_lt.mp inside), if_neg inside]
      exact ⟨rfl, rfl⟩
  obtain ⟨_, _, run, rfl, rfl⟩ := exists_ok_of_wp chosen
  exact run

/-- `walkaddr` as its callers read it. -/
theorem walkaddr_source (s : Phys) (root va : UInt64) :
    walkaddr root va s = .ok ((s.source root va).getD 0) s := by
  rw [walkaddr_reach, Phys.source]
  cases s.reach root readable va with
  | none => rfl
  | some page =>
    by_cases zero : page = 0
    · simp [zero, Option.filter]
    · simp [zero, Option.filter]

theorem source_ne_zero {page : UInt64} (found : s.source root va = some page) : page ≠ 0 := by
  simpa using (Option.filter_eq_some_iff.mp found).2

end Reach

/-! ### Consecutive addresses -/

section Consecutive

variable {va : UInt64}

theorem add_ofNat_toNat (va : UInt64) (i : Nat) :
    (va + UInt64.ofNat i).toNat = (va.toNat + i) % 2 ^ 64 := by
  rw [UInt64.toNat_add, UInt64.toNat_ofNat', Nat.add_mod_mod]

theorem add_ofNat_add (va : UInt64) (i j : Nat) :
    va + UInt64.ofNat (i + j) = va + UInt64.ofNat i + UInt64.ofNat j := by
  rw [UInt64.ofNat_add, UInt64.add_assoc]

theorem add_ofNat_zero (va : UInt64) : va + UInt64.ofNat 0 = va := UInt64.add_zero va

theorem add_ofNat_mod (va : UInt64) (i : Nat) :
    (va + UInt64.ofNat i).toNat % 4096 = (va.toNat + i) % 4096 := by
  rw [add_ofNat_toNat]
  exact Nat.mod_mod_of_dvd _ (by decide)

theorem add_in_page {j : Nat} (low : va.toNat % 4096 + j < 4096) :
    (va + UInt64.ofNat j).toNat = va.toNat + j := by
  have bound := UInt64.toNat_lt va
  rw [add_ofNat_toNat]
  omega

theorem vpn_in_page {j : Nat} (low : va.toNat % 4096 + j < 4096) :
    vpn (va + UInt64.ofNat j) = vpn va := by
  unfold vpn
  rw [add_in_page low]
  omega

theorem mod_in_page {j : Nat} (low : va.toNat % 4096 + j < 4096) :
    (va + UInt64.ofNat j).toNat % 4096 = va.toNat % 4096 + j := by
  rw [add_in_page low]
  omega

/-- Addresses below `MAXVA` do not wrap. -/
theorem add_below {k : Nat} (below : ∀ i < k, va + UInt64.ofNat i < maxVa) {i : Nat}
    (inside : i < k) :
    (va + UInt64.ofNat i).toNat = va.toNat + i := by
  induction i with
  | zero => rw [add_ofNat_zero, Nat.add_zero]
  | succ i ih =>
    have before := ih (by omega)
    have limit := lt_maxVa_toNat.mp (below i (by omega))
    rw [add_ofNat_toNat]
    omega

theorem next_page (va : UInt64) :
    pgRoundDown va + pgSize = va + UInt64.ofNat (4096 - va.toNat % 4096) := by
  apply UInt64.toNat_inj.mp
  have rounded := pgRoundDown_toNat va
  have size : pgSize.toNat = 4096 := rfl
  rw [UInt64.toNat_add, add_ofNat_toNat, rounded, size]
  congr 1
  omega

end Consecutive

/-! ### Reading user memory -/

/-- The bytes `memmove` reads from a page, from position `pos` on. -/
def readPage (pa : UInt64) (pos n : Nat) : VmM (List UInt8) := do
  let s ← get
  pure ((List.range n).map fun k => (s.mem pa).byte (pos + k))

/-- `n = PGSIZE - (srcva - va0); if(n > len) n = len;` -/
def pieceOf (srcva len : UInt64) : UInt64 :=
  let n := pgSize - (srcva - pgRoundDown srcva)
  if len < n then len else n

theorem pieceOf_toNat (srcva len : UInt64) :
    (pieceOf srcva len).toNat = min len.toNat (4096 - srcva.toNat % 4096) := by
  have offset := sub_pgRoundDown_toNat srcva
  have low : srcva.toNat % 4096 < 4096 := Nat.mod_lt _ (by decide)
  have rest : (pgSize - (srcva - pgRoundDown srcva)).toNat = 4096 - srcva.toNat % 4096 := by
    rw [UInt64.toNat_sub_of_le, offset]
    · rfl
    · rw [UInt64.le_iff_toNat_le, offset]
      exact Nat.le_of_lt low
  unfold pieceOf
  dsimp only
  split_ifs with less
  · rw [UInt64.lt_iff_toNat_lt, rest] at less
    omega
  · rw [UInt64.lt_iff_toNat_lt, rest] at less
    rw [rest]
    omega

/-- A piece ends with its page or with the copy. -/
theorem pieceOf_cases (srcva len : UInt64) :
    srcva.toNat % 4096 + (pieceOf srcva len).toNat ≤ 4096 ∧
      (len - pieceOf srcva len).toNat + (pieceOf srcva len).toNat = len.toNat ∧
      (0 < len → 0 < (pieceOf srcva len).toNat) ∧
      ((len - pieceOf srcva len).toNat ≠ 0 →
        pgRoundDown srcva + pgSize = srcva + UInt64.ofNat (pieceOf srcva len).toNat) := by
  have piece := pieceOf_toNat srcva len
  have low : srcva.toNat % 4096 < 4096 := Nat.mod_lt _ (by decide)
  have less : pieceOf srcva len ≤ len := by
    rw [UInt64.le_iff_toNat_le]
    omega
  have rest := UInt64.toNat_sub_of_le _ _ less
  rw [UInt64.le_iff_toNat_le] at less
  refine ⟨by omega, by omega, ?_, ?_⟩
  · intro present
    rw [UInt64.lt_iff_toNat_lt] at present
    change 0 < len.toNat at present
    omega
  · intro more
    have whole : 4096 - srcva.toNat % 4096 = (pieceOf srcva len).toNat := by omega
    rw [next_page, whole]

/-- Less is left after each piece. -/
theorem sub_pieceOf_lt {srcva len : UInt64} (present : 0 < len) :
    (len - pieceOf srcva len).toNat < len.toNat := by
  obtain ⟨_, sum, positive, _⟩ := pieceOf_cases srcva len
  have := positive present
  omega

/-- The loop of `copyin`, when `pos` bytes of `dst` are filled. -/
def copyinLoop (pagetable : UInt64) (dst : Mem) (pos : Nat) (srcva len : UInt64) :
    VmM (Int × Mem) :=
  if 0 < len then do
    let va0 := pgRoundDown srcva
    let pa0 ← walkaddr pagetable va0
    if pa0 = 0 then pure (-1, dst)
    else do
      let n := pieceOf srcva len
      let bytes ← readPage pa0 (srcva - va0).toNat n.toNat
      copyinLoop pagetable (dst.copy pos bytes) (pos + n.toNat) (va0 + pgSize) (len - n)
  else pure (0, dst)
termination_by len.toNat
decreasing_by exact sub_pieceOf_lt (by assumption)

/-- `copyin`, with what it leaves in the kernel buffer `dst`. -/
def copyin (pagetable : UInt64) (dst : Mem) (srcva len : UInt64) : VmM (Int × Mem) :=
  copyinLoop pagetable dst 0 srcva len

/-- The inner loop of `copyinstr` over `n` bytes of one page: whether it met the null
byte, and what it left in `dst`. -/
def copyinstrPiece (page : Page) : Nat → Nat → Mem → Nat → Bool × Mem
  | 0, _, dst, _ => (false, dst)
  | n + 1, p, dst, pos =>
    if page.byte p = 0 then (true, Function.update dst pos 0)
    else copyinstrPiece page n (p + 1) (Function.update dst pos (page.byte p)) (pos + 1)

/-- The outer loop of `copyinstr`, when `pos` bytes of `dst` are filled. -/
def copyinstrLoop (pagetable : UInt64) (dst : Mem) (pos : Nat) (srcva max : UInt64) :
    VmM (Int × Mem) :=
  if 0 < max then do
    let va0 := pgRoundDown srcva
    let pa0 ← walkaddr pagetable va0
    if pa0 = 0 then pure (-1, dst)
    else do
      let n := pieceOf srcva max
      let s ← get
      let piece := copyinstrPiece (s.mem pa0) n.toNat (srcva - va0).toNat dst pos
      if piece.1 then pure (0, piece.2)
      else copyinstrLoop pagetable piece.2 (pos + n.toNat) (va0 + pgSize) (max - n)
  else pure (-1, dst)
termination_by max.toNat
decreasing_by exact sub_pieceOf_lt (by assumption)

/-- `copyinstr` -/
def copyinstr (pagetable : UInt64) (dst : Mem) (srcva max : UInt64) : VmM (Int × Mem) :=
  copyinstrLoop pagetable dst 0 srcva max

end Xv6.Kernel.Vm
