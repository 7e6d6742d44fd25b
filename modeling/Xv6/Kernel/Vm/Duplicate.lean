import Xv6.Kernel.Vm.Copy
import Xv6.Kernel.Vm.Kinit

/-!
What `uvmcopy` leaves behind, in terms of the two page tables and of memory.

Owns: a child that duplicates its parent, and that `uvmcopy` makes one or nothing.

Does not own: the loop of `uvmcopy`.
-/

namespace Xv6.Kernel.Vm

open Xv6.Lib

/-- In `t` the child maps the first `n` pages of the parent, with its flags and
contents, onto pages of its own that were free in `s`. -/
structure Duplicated (s t : Phys) (old new : UInt64) (n : Nat) : Prop where
  copies : ∀ v, v < n → ∃ parent child, s.entry old v = some parent ∧ t.entry new v = some child ∧
    pteFlags child = pteFlags parent ∧ pte2pa child ∈ s.freelist ∧
    t.mem (pte2pa child) = s.mem (pte2pa parent)
  others : ∀ v, n ≤ v → v < 512 ^ 3 → t.entry new v = s.entry new v
  distinct : ∀ v w first second, v < n → w < n → t.entry new v = some first →
    t.entry new w = some second → pte2pa first = pte2pa second → v = w
  apart : ∀ v w child parent, v < n → w < n → t.entry new v = some child →
    s.entry old w = some parent → pte2pa child ≠ pte2pa parent

section Copy

variable {k : Layout} {s t : Phys} {b : Books} {old new : UInt64} {source space space' : Space}
  {top : Nat → Option Leaf} {n : Nat}

/-- The leaf behind an entry. -/
theorem Ledger.leaf_of_entry (ledger : Ledger k.pages s b) (isSpace : b.spaces old = some source)
    {v : Nat} (small : v < 512 ^ 3) {pte : UInt64} (isEntry : s.entry old v = some pte) :
    ∃ leaf, source v = some leaf ∧ leaf.pte = pte := by
  rw [ledger.maps old source isSpace v small] at isEntry
  exact Option.map_eq_some_iff.mp isEntry

theorem Duplicated.of_copied (sane : k.Sane) (ledger : Ledger k.pages s b)
    (isSource : b.spaces old = some source) (mapped : Mapped n source)
    (isSpace : b.spaces new = some space) (fresh : Image 0 top space) (image : Image n top space')
    (copied : Copied s t source space' 0 n) (after : Ledger k.pages t (b.setSpace new space')) :
    Duplicated s t old new n := by
  have bound := mapped.bound sane ledger isSource
  have isMade : (b.setSpace new space').spaces new = some space' := Books.setSpace_self
  have copy : ∀ v, v < n → ∃ parent, source v = some parent ∧ Duplicate s t parent (space' v) := by
    intro v inside
    obtain ⟨parent, isParent, _⟩ := mapped v inside
    exact ⟨parent, isParent, copied v parent (Nat.zero_le v) inside isParent⟩
  refine ⟨?_, ?_, ?_, ?_⟩
  · intro v inside
    obtain ⟨parent, isParent, pte, isChild, flags, wasFree, same⟩ := copy v inside
    refine ⟨parent.pte, pte, ?_, ?_, flags, wasFree, same⟩
    · rw [ledger.maps old source isSource v (by omega), isParent]
      rfl
    · rw [after.maps new space' isMade v (by omega), isChild]
      rfl
  · intro v outside small
    rw [after.maps new space' isMade v small, ledger.maps new space isSpace v small]
    by_cases below : v < userLimit
    · rw [image.gap v outside below, fresh.gap v (Nat.zero_le v) below]
    · rw [image.top v (Nat.le_of_not_lt below), fresh.top v (Nat.le_of_not_lt below)]
  · intro v w first second vInside wInside isFirst isSecond same
    obtain ⟨leaf, isLeaf, rfl⟩ := after.leaf_of_entry isMade (by omega) isFirst
    obtain ⟨other, isOther, rfl⟩ := after.leaf_of_entry isMade (by omega) isSecond
    have here := Mapped.holds (s := t) image.user isMade (by omega) vInside isLeaf
    have there := Mapped.holds (s := t) image.user isMade (by omega) wInside isOther
    exact (Place.user.inj (after.unique here (same ▸ there))).2
  · intro v w child parent vInside wInside isChild isParent same
    obtain ⟨leaf, isLeaf, rfl⟩ := after.leaf_of_entry isMade (by omega) isChild
    obtain ⟨theirs, isTheirs, rfl⟩ := ledger.leaf_of_entry isSource (by omega) isParent
    obtain ⟨_, _, pte, isPte, _, wasFree, _⟩ := copy v vInside
    obtain rfl : leaf = ⟨pte, true⟩ := Option.some.inj (isLeaf.symm.trans isPte)
    have owned := mapped.holds (s := s) isSource (by omega) wInside isTheirs
    have isFree : Holds s b .free (pte2pa theirs.pte) := by
      rw [← same]
      exact wasFree
    exact ledger.only owned Place.noConfusion isFree

/-- `uvmcopy` into a fresh table: a duplicate of the parent's memory, or nothing; the
parent is as before. -/
theorem uvmcopy_duplicates {sz : UInt64} (sane : k.Sane) (ledger : Ledger k.pages s b)
    (different : old ≠ new) (isSource : b.spaces old = some source)
    (mapped : Mapped (pagesOf sz) source) (isSpace : b.spaces new = some space)
    (fresh : Image 0 top space) :
    ∃ r t, uvmcopy k old new sz s = .ok r t ∧ Unchanged old Set.univ s b t ∧
      ((r = 0 ∧ Duplicated s t old new (pagesOf sz) ∧
          ∃ space', Ledger k.pages t (b.setSpace new space')) ∨
        (r = -1 ∧ (∀ v, v < pagesOf sz → t.entry new v = none) ∧ Returned new s t ∧
          Ledger k.pages t b)) := by
  have bound := mapped.bound sane ledger isSource
  have theirs : old ∉ ({new} : Set UInt64) := different
  obtain ⟨r, t, run, outcome⟩ := exists_ok_of_wp (wp_uvmcopy sane ledger (Set.empty_subset b.held)
    theirs (Set.mem_singleton new) isSource mapped rfl isSpace fresh)
  refine ⟨r, t, run, ?_⟩
  rcases outcome with ⟨isZero, space', image, copied, effect⟩ | ⟨isFail, effect⟩
  · refine ⟨effect.unchanged ledger isSource theirs, .inl ⟨isZero, ?_, space', effect.ledger⟩⟩
    exact .of_copied sane ledger isSource mapped isSpace fresh image copied effect.ledger
  · refine ⟨effect.unchanged ledger isSource theirs,
      .inr ⟨isFail, ?_, effect.returned ledger, effect.ledger⟩⟩
    intro v inside
    rw [effect.ledger.maps new space isSpace v (by omega)]
    have below : v < userLimit := by
      unfold userLimit
      omega
    rw [fresh.gap v (Nat.zero_le v) below]
    rfl

end Copy

/-- A machine whose allocator has ten pages. -/
def tenPages : Layout := ⟨0x87FF6000, 0x80007000⟩

/-- Memory before `kinit`. -/
def powerOn : Phys := ⟨fun _ => junk 0, [], []⟩

/-- After `kinit`, a table with one user page and an empty one. -/
def parentAndChild : VmM (Option (UInt64 × UInt64)) := do
  kinit tenPages
  let old ← uvmcreate
  if old = 0 then pure none
  else do
    let sz ← uvmalloc tenPages old 0 4096 pteW
    if sz = 0 then pure none
    else do
      let new ← uvmcreate
      if new = 0 then pure none else pure (some (old, new))

theorem tenPages_sane : tenPages.Sane := ⟨by decide +kernel⟩

theorem wp_parentAndChild :
    wp parentAndChild powerOn (fun made t => ∀ old new, made = some (old, new) →
      ∃ b source, Ledger tenPages.pages t b ∧ old ≠ new ∧ b.spaces old = some source ∧
        Image 1 (fun _ => none) source ∧ b.spaces new = some fun _ => none) fun _ _ => False := by
  rw [parentAndChild, wp_bind]
  refine wp_mono (wp_kinit tenPages_sane (by decide +kernel) rfl) ?_ fun _ _ absurd => absurd
  rintro _ s ⟨_, ledger⟩
  rw [wp_bind]
  refine wp_mono (wp_uvmcreate Set.univ ledger (Set.empty_subset _)) ?_ fun _ _ absurd => absurd
  rintro old t (⟨isZero, _⟩ | ⟨notZero, _, created⟩)
  · rw [if_pos isZero, wp_pure]
    exact fun old' new' isNone => absurd isNone (Option.some_ne_none (old', new')).symm
  · rw [if_neg notZero, wp_bind]
    refine wp_mono (wp_uvmalloc tenPages_sane created.ledger created.kept (Set.mem_singleton old)
      Books.setSpace_self Image.blank rfl (by decide)) ?_ fun _ _ absurd => absurd
    rintro sz u (⟨isZero, _⟩ | ⟨isSize, source, image, _, _, _, _, grown⟩)
    · rw [if_pos isZero, wp_pure]
      exact fun old' new' isNone => absurd isNone (Option.some_ne_none (old', new')).symm
    · obtain rfl : sz = 4096 := isSize
      rw [if_neg (by decide), wp_bind]
      refine wp_mono (wp_uvmcreate Set.univ grown.ledger grown.kept) ?_ fun _ _ absurd => absurd
      rintro new v (⟨isZero, _⟩ | ⟨notZero, unused, made⟩)
      · rw [if_pos isZero, wp_pure]
        exact fun old' new' isNone => absurd isNone (Option.some_ne_none (old', new')).symm
      · rw [if_neg notZero, wp_pure]
        intro old' new' same
        obtain ⟨rfl, rfl⟩ := Prod.mk.inj (Option.some.inj same)
        rw [Books.setSpace_setSpace] at unused made
        have different : old ≠ new := by
          rintro rfl
          rw [Books.setSpace_self] at unused
          exact Option.some_ne_none source unused
        refine ⟨_, source, made.ledger, different, ?_, image, Books.setSpace_self⟩
        rw [Books.setSpace_other different, Books.setSpace_self]

/-- A page of user memory in a duplicate. -/
theorem uvmcopy_duplicates_page :
    ∃ old new s t, parentAndChild powerOn = .ok (some (old, new)) s ∧
      uvmcopy tenPages old new 4096 s = .ok 0 t ∧ Duplicated s t old new 1 := by
  have known : wp parentAndChild powerOn (fun made s => made = some (0x87FFF000, 0x87FFB000) ∧
      wp (uvmcopy tenPages 0x87FFF000 0x87FFB000 4096) s (fun r _ => r = 0) fun _ _ => False)
      fun _ _ => False := by decide +kernel
  obtain ⟨_, s, run, ⟨rfl, copied⟩, made⟩ := exists_ok_of_wp (wp_and known wp_parentAndChild)
  obtain ⟨b, source, ledger, different, isSource, image, isSpace⟩ := made _ _ rfl
  have one : Mapped (pagesOf 4096) source := image.user
  obtain ⟨r, t, copy, _, outcome⟩ := uvmcopy_duplicates tenPages_sane ledger different isSource one
    isSpace Image.blank
  obtain rfl : r = 0 := (wp_ok copy).mp copied
  refine ⟨_, _, s, t, run, copy, ?_⟩
  rcases outcome with ⟨_, duplicated, _⟩ | ⟨isFail, _⟩
  · exact duplicated
  · exact absurd isFail (by decide)

end Xv6.Kernel.Vm
