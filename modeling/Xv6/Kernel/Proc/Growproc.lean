import Xv6.Kernel.Vm.Duplicate

/-!
`growproc`: the break of a process.

Owns: `growproc`, what an exact move of the break is, and for which sizes `growproc`
makes one.

Does not own: how user memory grows and shrinks.
-/

namespace Xv6.Kernel.Proc

open Xv6.Lib Xv6.Kernel.Vm

/-- The fields of `struct proc` for its user memory. -/
structure ProcMemory where
  sz : UInt64
  pagetable : UInt64
deriving DecidableEq

/-- An `int` in an expression of type `uint64`. -/
def widen (n : Int32) : UInt64 := n.toInt64.toUInt64

/-- `growproc`: its result and the process. -/
def growproc (k : Layout) (p : ProcMemory) (n : Int32) : VmM (Int × ProcMemory) :=
  if 0 < n then do
    let sz ← uvmalloc k p.pagetable p.sz (p.sz + widen n) pteW
    if sz = 0 then pure (-1, p) else pure (0, { p with sz })
  else if n < 0 then do
    let sz ← uvmdealloc k p.pagetable p.sz (p.sz + widen n)
    pure (0, { p with sz })
  else pure (0, p)

theorem widen_toNat (n : Int32) : ((widen n).toNat : Int) = n.toInt % 2 ^ 64 := by
  have low := n.le_toInt
  have high := n.toInt_lt
  have isLt := n.toInt64.toBitVec.isLt
  have value : n.toInt64.toBitVec.toInt = n.toInt := Int32.toInt_toInt64 n
  change (n.toInt64.toBitVec.toNat : Int) = n.toInt % 2 ^ 64
  rw [BitVec.toInt_eq_toNat_cond] at value
  split_ifs at value with small
  · omega
  · omega

theorem add_widen_toNat (sz : UInt64) (n : Int32) :
    ((sz + widen n).toNat : Int) = (sz.toNat + n.toInt) % 2 ^ 64 := by
  have value := widen_toNat n
  rw [UInt64.toNat_add]
  omega

/-- The break moved by `n`: the size, the pages below it and no others; those that were
there before are as they were, and the new ones are zero. -/
structure Moved (k : Layout) (s : Phys) (b : Books) (p : ProcMemory) (n : Int32) (p' : ProcMemory)
    (t : Phys) : Prop where
  table : p'.pagetable = p.pagetable
  size : (p'.sz.toNat : Int) = p.sz.toNat + n.toInt
  mapped : ∀ v, v < userLimit → (t.entry p.pagetable v ≠ none ↔ v < pagesOf p'.sz)
  survive : ∀ v, v < pagesOf p.sz → v < pagesOf p'.sz →
    t.entry p.pagetable v = s.entry p.pagetable v
  contents : Intact p.pagetable {v | v < pagesOf p'.sz} s b t
  zero : ∀ v pte, pagesOf p.sz ≤ v → v < pagesOf p'.sz → t.entry p.pagetable v = some pte →
    t.mem (pte2pa pte) = junk 0
  ledger : ∃ space, Ledger k.pages t (b.setSpace p.pagetable space)

/-- Nothing happened to the user memory, and the pages allocated for it are free
again. -/
structure Unmoved (k : Layout) (s : Phys) (b : Books) (p p' : ProcMemory) (t : Phys) : Prop where
  same : p' = p
  unchanged : Unchanged p.pagetable {v | v < userLimit} s b t
  returned : Returned p.pagetable s t
  ledger : Ledger k.pages t b

/-- `growproc` ends with an exact move of the break, or with none and -1. -/
def Exact (k : Layout) (s : Phys) (b : Books) (p : ProcMemory) (n : Int32) : Prop :=
  ∃ r p' t, growproc k p n s = .ok (r, p') t ∧
    ((r = 0 ∧ Moved k s b p n p' t) ∨ (r = -1 ∧ Unmoved k s b p p' t))

section Specs

variable {k : Layout} {s t : Phys} {b : Books} {p p' : ProcMemory} {space space' : Space}
  {top : Nat → Option Leaf} {n : Int32}

theorem entry_iff {root : UInt64} {count : Nat} (ledger : Ledger k.pages t b)
    (isSpace : b.spaces root = some space) (image : Image count top space) {v : Nat}
    (below : v < userLimit) : t.entry root v ≠ none ↔ v < count := by
  have small : v < 512 ^ 3 := by
    unfold userLimit at below
    omega
  rw [ledger.maps root space isSpace v small]
  constructor
  · intro entry
    by_contra outside
    rw [image.gap v (Nat.le_of_not_lt outside) below] at entry
    exact entry rfl
  · intro inside
    obtain ⟨leaf, isLeaf, _⟩ := image.user v inside
    rw [isLeaf]
    exact Option.some_ne_none leaf.pte

/-- Only pages below the break have contents. -/
theorem Intact.below {root : UInt64} {count : Nat} (isSpace : b.spaces root = some space)
    (image : Image count top space) (intact : Intact root {v | v < count} s b t) :
    Intact root {v | v < userLimit} s b t := by
  intro v page below holds
  by_cases inside : v < count
  · exact intact v page inside holds
  · have owned := holds.2
    rw [Books.owned_of_space isSpace, image.gap v (Nat.le_of_not_lt inside) below] at owned
    exact absurd owned (Option.some_ne_none page).symm

theorem Moved.of_space (table : p'.pagetable = p.pagetable)
    (size : (p'.sz.toNat : Int) = p.sz.toNat + n.toInt) (sane : k.Sane)
    (before : Ledger k.pages s b) (isSpace : b.spaces p.pagetable = some space)
    (image : Image (pagesOf p'.sz) top space')
    (agree : ∀ v, v < pagesOf p.sz → v < pagesOf p'.sz → space' v = space v)
    (intact : Intact p.pagetable {v | v < pagesOf p'.sz} s b t)
    (blank : Blank t space' (pagesOf p.sz) (pagesOf p'.sz))
    (after : Ledger k.pages t (b.setSpace p.pagetable space')) : Moved k s b p n p' t := by
  have isMade : (b.setSpace p.pagetable space').spaces p.pagetable = some space' :=
    Books.setSpace_self
  have bound := image.bound sane after isMade
  refine ⟨table, size, ?_, ?_, intact, ?_, space', after⟩
  · exact fun v below => entry_iff after isMade image below
  · intro v old new
    rw [after.maps _ _ isMade v (by omega), before.maps _ _ isSpace v (by omega), agree v old new]
  · intro v pte first last isEntry
    obtain ⟨leaf, isLeaf, rfl⟩ := after.leaf_of_entry isMade (by omega) isEntry
    exact blank v leaf first last isLeaf

/-- The two ends of `growproc`. -/
theorem Exact.of_wp (spec : wp (growproc k p n) s (fun result t =>
    (result.1 = 0 ∧ Moved k s b p n result.2 t) ∨ (result.1 = -1 ∧ Unmoved k s b p result.2 t))
    fun _ _ => False) : Exact k s b p n := by
  obtain ⟨⟨r, p'⟩, t, run, outcome⟩ := exists_ok_of_wp spec
  exact ⟨r, p', t, run, outcome⟩

theorem growproc_grows (sane : k.Sane) (ledger : Ledger k.pages s b)
    (isSpace : b.spaces p.pagetable = some space) (image : Image (pagesOf p.sz) top space)
    (positive : 0 < n) : Exact k s b p n := by
  have more : 0 < n.toInt := Int32.lt_iff_toInt_lt.mp positive
  have high := n.toInt_lt
  have bound := image.bound sane ledger isSpace
  have sum := add_widen_toNat p.sz n
  have pages : pagesOf p.sz = (p.sz.toNat + 4095) / 4096 := rfl
  have grows : ¬p.sz + widen n < p.sz := by
    rw [UInt64.lt_iff_toNat_lt]
    omega
  apply Exact.of_wp
  rw [growproc, if_pos positive, wp_bind]
  refine wp_mono (wp_uvmalloc sane ledger (Set.empty_subset b.held)
    (Set.mem_singleton p.pagetable) isSpace image rfl (by decide)) ?_ fun _ _ absurd => absurd
  rintro sz t (⟨isZero, intact, effect⟩ | ⟨isSize, space', bigger, agree, _, intact, blank, effect⟩)
  · rw [if_pos isZero, wp_pure]
    exact .inr ⟨rfl, rfl, ⟨ledger.same_entries effect.ledger isSpace isSpace,
      Intact.below isSpace image intact⟩, effect.returned ledger, effect.ledger⟩
  · rw [if_neg grows] at isSize
    have notZero : sz ≠ 0 := by
      intro isZero
      rw [← isSize, isZero] at sum
      change (0 : Int) = _ at sum
      omega
    have limit := bigger.bound sane effect.ledger Books.setSpace_self
    have room : pagesOf sz ≤ userLimit := by
      unfold userLimit
      omega
    rw [if_neg notZero, wp_pure]
    refine .inl ⟨rfl, .of_space rfl ?_ sane ledger isSpace bigger (fun v old _ => agree v old)
      ((Intact.below isSpace image intact).mono fun v inside => Nat.lt_of_lt_of_le inside room)
      blank effect.ledger⟩
    change (sz.toNat : Int) = _
    rw [isSize, sum]
    omega

theorem growproc_shrinks (sane : k.Sane) (ledger : Ledger k.pages s b)
    (isSpace : b.spaces p.pagetable = some space) (image : Image (pagesOf p.sz) top space)
    (negative : n < 0) (enough : 0 ≤ (p.sz.toNat : Int) + n.toInt) : Exact k s b p n := by
  have less : n.toInt < 0 := Int32.lt_iff_toInt_lt.mp negative
  have bound := image.bound sane ledger isSpace
  have sum := add_widen_toNat p.sz n
  have isLt := p.sz.toNat_lt
  have room : pagesOf p.sz ≤ userLimit := by
    unfold userLimit
    omega
  have shrinks : p.sz + widen n < p.sz := by
    rw [UInt64.lt_iff_toNat_lt]
    omega
  have fewer : pagesOf (p.sz + widen n) ≤ pagesOf p.sz := by
    unfold pagesOf
    rw [UInt64.lt_iff_toNat_lt] at shrinks
    omega
  have notPositive : ¬0 < n := by
    rw [Int32.lt_iff_toInt_lt]
    exact Int.not_lt.mpr (Int.le_of_lt less)
  apply Exact.of_wp
  rw [growproc, if_neg notPositive, if_pos negative, wp_bind]
  refine wp_mono (wp_uvmdealloc sane ledger (Set.empty_subset b.held)
    (Set.mem_singleton p.pagetable) isSpace image rfl) ?_ fun _ _ absurd => absurd
  rintro sz t (⟨grows, _⟩ | ⟨_, isSize, intact, effect⟩)
  · exact absurd shrinks (UInt64.not_lt.mpr grows)
  · rw [wp_pure]
    subst isSize
    refine .inl ⟨rfl, .of_space rfl ?_ sane ledger isSpace (image.cleared fewer room) ?_ intact ?_
      effect.ledger⟩
    · change ((p.sz + widen n).toNat : Int) = _
      rw [sum]
      omega
    · intro v _ inside
      rw [Space.cleared, if_neg fun between => Nat.not_le.mpr inside between.1]
    · intro v leaf first last _
      exact absurd (Nat.lt_of_lt_of_le last fewer) (Nat.not_lt.mpr first)

theorem growproc_zero (sane : k.Sane) (ledger : Ledger k.pages s b)
    (isSpace : b.spaces p.pagetable = some space) (image : Image (pagesOf p.sz) top space) :
    Exact k s b p 0 := by
  refine ⟨0, p, s, rfl, .inl ⟨rfl, .of_space rfl (Int.add_zero _).symm sane ledger isSpace image
    (fun _ _ _ => rfl) Intact.refl (fun v _ first last _ => absurd last (Nat.not_lt.mpr first)) ?_⟩⟩
  rw [Books.setSpace_same isSpace]
  exact ledger

theorem growproc_below (sane : k.Sane) (ledger : Ledger k.pages s b)
    (isSpace : b.spaces p.pagetable = some space) (image : Image (pagesOf p.sz) top space)
    (below : (p.sz.toNat : Int) + n.toInt < 0) : growproc k p n s = .ok (0, p) s := by
  have low := n.le_toInt
  have bound := image.bound sane ledger isSpace
  have sum := add_widen_toNat p.sz n
  have pages : pagesOf p.sz = (p.sz.toNat + 4095) / 4096 := rfl
  have negative : n < 0 := by
    rw [Int32.lt_iff_toInt_lt]
    change n.toInt < 0
    omega
  have notPositive : ¬0 < n := by
    rw [Int32.lt_iff_toInt_lt]
    change ¬0 < n.toInt
    omega
  have wraps : p.sz ≤ p.sz + widen n := by
    rw [UInt64.le_iff_toNat_le]
    omega
  rw [growproc, if_neg notPositive, if_pos negative, uvmdealloc, if_pos wraps]
  rfl

theorem not_exact_of_result (result : growproc k p n s = .ok (0, p) t) (notZero : n.toInt ≠ 0) :
    ¬Exact k s b p n := by
  rintro ⟨r, p', u, run, outcome⟩
  rw [result] at run
  obtain ⟨same, rfl⟩ := EStateM.Result.ok.inj run
  obtain ⟨rfl, rfl⟩ := Prod.mk.inj same
  rcases outcome with ⟨_, moved⟩ | ⟨isFail, _⟩
  · have size := moved.size
    omega
  · exact absurd isFail (by decide)

/-- `growproc` moves the break exactly or not at all if and only if the new break is not
below address 0. -/
theorem growproc_exact_iff (sane : k.Sane) (ledger : Ledger k.pages s b)
    (isSpace : b.spaces p.pagetable = some space) (image : Image (pagesOf p.sz) top space) :
    Exact k s b p n ↔ 0 ≤ (p.sz.toNat : Int) + n.toInt := by
  constructor
  · intro moves
    by_contra below
    have result := growproc_below sane ledger isSpace image (Int.not_le.mp below)
    exact not_exact_of_result result (by omega) moves
  · intro enough
    rcases lt_trichotomy n.toInt 0 with less | isZero | more
    · exact growproc_shrinks sane ledger isSpace image (Int32.lt_iff_toInt_lt.mpr less) enough
    · obtain rfl : n = 0 := Int32.toInt_inj.mp isZero
      exact growproc_zero sane ledger isSpace image
    · exact growproc_grows sane ledger isSpace image (Int32.lt_iff_toInt_lt.mpr more)

end Specs

theorem parentAndChild_made :
    ∃ s b source, parentAndChild powerOn = .ok (some (0x87FFF000, 0x87FFB000)) s ∧
      Ledger tenPages.pages s b ∧ b.spaces 0x87FFF000 = some source ∧
      Image 1 (fun _ => none) source := by
  have known : wp parentAndChild powerOn (fun made _ => made = some (0x87FFF000, 0x87FFB000))
      fun _ _ => False := by decide +kernel
  obtain ⟨_, s, run, rfl, made⟩ := exists_ok_of_wp (wp_and known wp_parentAndChild)
  obtain ⟨b, source, ledger, _, isSource, image, _⟩ := made _ _ rfl
  exact ⟨s, b, source, run, ledger, isSource, image⟩

/-- A process with one page asks for one page more. -/
theorem growproc_exact_iff_page :
    ∃ old new s b source, parentAndChild powerOn = .ok (some (old, new)) s ∧
      Ledger tenPages.pages s b ∧ b.spaces old = some source ∧ Image 1 (fun _ => none) source ∧
      Exact tenPages s b ⟨4096, old⟩ 4096 := by
  obtain ⟨s, b, source, run, ledger, isSource, image⟩ := parentAndChild_made
  refine ⟨_, _, s, b, source, run, ledger, isSource, image, ?_⟩
  have one : Image (pagesOf (⟨4096, 0x87FFF000⟩ : ProcMemory).sz) (fun _ => none) source := image
  exact (growproc_exact_iff tenPages_sane ledger isSource one).mpr (by decide)

/-- A process with one page gives two pages back: `growproc` returns 0, and the break is
where it was. -/
theorem growproc_keeps_break :
    ∃ old new s b source, parentAndChild powerOn = .ok (some (old, new)) s ∧
      Ledger tenPages.pages s b ∧ b.spaces old = some source ∧ Image 1 (fun _ => none) source ∧
      growproc tenPages ⟨4096, old⟩ (-8192) s = .ok (0, ⟨4096, old⟩) s ∧
      ¬Exact tenPages s b ⟨4096, old⟩ (-8192) := by
  obtain ⟨s, b, source, run, ledger, isSource, image⟩ := parentAndChild_made
  have one : Image (pagesOf (⟨4096, 0x87FFF000⟩ : ProcMemory).sz) (fun _ => none) source := image
  have result : growproc tenPages ⟨4096, 0x87FFF000⟩ (-8192) s = .ok (0, ⟨4096, 0x87FFF000⟩) s :=
    growproc_below tenPages_sane ledger isSource one (by decide)
  refine ⟨_, _, s, b, source, run, ledger, isSource, image, result, ?_⟩
  exact not_exact_of_result result (by decide)

end Xv6.Kernel.Proc
