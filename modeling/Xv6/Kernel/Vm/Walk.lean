import Xv6.Kernel.Vm.Ledger

/-!
What `walk`, `mappages` and `uvmunmap` do to a page table.

Owns: the effect of a section of code on the pages of one table, the specifications
of `kalloc`, `kfree`, `walk`, `mappages` and `uvmunmap` in terms of it.

Does not own: the functions built from these.
-/

namespace Xv6.Kernel.Vm

open Xv6.Lib Function

/-- A page that is not the business of the tables `roots`: of another table, or held
in `keep`. -/
def Foreign (roots keep : Set UInt64) : Place → UInt64 → Prop
  | .free, _ => False
  | .table other _, _ => other ∉ roots
  | .user other _, _ => other ∉ roots
  | .held, page => page ∈ keep

/-- From `s` to `t` only pages that are free, of the tables `roots`, or held outside
`keep` may change. -/
structure Effect (pages roots keep : Set UInt64) (s : Phys) (b : Books) (t : Phys) (b' : Books) :
    Prop where
  ledger : Ledger pages t b'
  kept : keep ⊆ b'.held
  spaces : ∀ other, other ∉ roots → b'.spaces other = b.spaces other
  mem : ∀ place page, Holds s b place page → Foreign roots keep place page → t.mem page = s.mem page

section Effects

variable {pages roots keep : Set UInt64} {s t u : Phys} {b b' b'' : Books}

theorem Effect.refl (ledger : Ledger pages s b) (kept : keep ⊆ b.held) :
    Effect pages roots keep s b s b := ⟨ledger, kept, fun _ _ => rfl, fun _ _ _ _ => rfl⟩

/-- A foreign page stays where it is. -/
theorem Effect.holds (effect : Effect pages roots keep s b t b') {place : Place} {page : UInt64}
    (holds : Holds s b place page) (foreign : Foreign roots keep place page) :
    Holds t b' place page := by
  cases place with
  | free => exact foreign.elim
  | table other path =>
    obtain ⟨live, short, reached⟩ := holds
    refine ⟨effect.spaces other foreign ▸ live, short, ?_⟩
    rw [table_frame _ short]
    · exact reached
    · intro path' page' short' reached'
      exact effect.mem (.table other path') page' ⟨live, short', reached'⟩ foreign
  | user other v =>
    refine ⟨holds.1, ?_⟩
    rw [Books.owned, effect.spaces other foreign]
    exact holds.2
  | held => exact effect.kept foreign

theorem Effect.trans (first : Effect pages roots keep s b t b')
    (second : Effect pages roots keep t b' u b'') :
    Effect pages roots keep s b u b'' := by
  refine ⟨second.ledger, second.kept, ?_, ?_⟩
  · intro other different
    rw [second.spaces other different, first.spaces other different]
  · intro place page holds foreign
    rw [second.mem place page (first.holds holds foreign) foreign,
      first.mem place page holds foreign]

/-- Only the page `changed` is different, and it is not foreign. -/
theorem Effect.of_page (ledger : Ledger pages t b') (kept : keep ⊆ b'.held)
    (spaces : ∀ other, other ∉ roots → b'.spaces other = b.spaces other) {changed : UInt64}
    (others : ∀ page, page ≠ changed → t.mem page = s.mem page)
    (notForeign : ∀ place, Holds s b place changed → ¬Foreign roots keep place changed) :
    Effect pages roots keep s b t b' := by
  refine ⟨ledger, kept, spaces, ?_⟩
  intro place page holds foreign
  apply others
  rintro rfl
  exact notForeign place holds foreign

/-- More tables may change. -/
theorem Effect.mono {more : Set UInt64} (effect : Effect pages roots keep s b t b')
    (subset : roots ⊆ more) : Effect pages more keep s b t b' := by
  refine ⟨effect.ledger, effect.kept, fun other outside => effect.spaces other fun mine =>
    outside (subset mine), ?_⟩
  intro place page holds foreign
  refine effect.mem place page holds ?_
  cases place with
  | free => exact foreign
  | table other path | user other v => exact fun mine => foreign (subset mine)
  | held => exact foreign

/-- Memory stays and the books of `roots` change. -/
theorem Effect.of_books (ledger : Ledger pages s b') (kept : keep ⊆ b'.held)
    (spaces : ∀ other, other ∉ roots → b'.spaces other = b.spaces other) :
    Effect pages roots keep s b s b' := ⟨ledger, kept, spaces, fun _ _ _ _ => rfl⟩

end Effects

section Pages

variable {pages roots keep : Set UInt64} {page : UInt64} {s : Phys} {b : Books}

theorem kept_drop (kept : keep ⊆ b.held) (notKept : page ∉ keep) : keep ⊆ (b.drop page).held := by
  intro other isKept
  refine ⟨kept isKept, ?_⟩
  rintro rfl
  exact notKept isKept

theorem kept_hold (kept : keep ⊆ b.held) : keep ⊆ (b.hold page).held :=
  kept.trans (Set.subset_insert page b.held)

theorem Ledger.held_not_foreign (ledger : Ledger pages s b) (isHeld : page ∈ b.held)
    (notKept : page ∉ keep) (place : Place) (holds : Holds s b place page) :
    ¬Foreign roots keep place page := by
  obtain rfl := ledger.unique holds (y := .held) isHeld
  exact notKept

/-- `kalloc`: nothing, or a free page, which the caller holds from then on. -/
theorem wp_kalloc (roots : Set UInt64) (ledger : Ledger pages s b) (kept : keep ⊆ b.held) :
    wp kalloc s (fun r t => (r = 0 ∧ Effect pages roots keep s b t b ∧ t.mem = s.mem) ∨
      (r ≠ 0 ∧ r ∉ b.held ∧ Effect pages roots keep s b t (b.hold r) ∧ SameTables s t b))
      fun _ _ => False := by
  have nothing : Effect pages roots keep s b s.without b :=
    ⟨ledger.without, kept, fun _ _ => rfl, fun _ _ _ _ => rfl⟩
  unfold wp kalloc
  split_ifs
  · exact .inl ⟨rfl, nothing, rfl⟩
  · cases free : s.freelist with
    | nil => exact .inl ⟨rfl, nothing, rfl⟩
    | cons r rest =>
      obtain ⟨after, new, notZero⟩ := ledger.gave free
      have isFree : Holds s b .free r := by
        change r ∈ s.freelist
        rw [free]
        exact List.mem_cons_self
      have others : ∀ other, other ≠ r → (s.gave r rest).mem other = s.mem other :=
        fun other different => update_of_ne different _ _
      refine .inr ⟨notZero, new, Effect.of_page after (kept_hold kept) (fun _ _ => rfl) others ?_,
        SameTables.of_page ledger isFree (by simp) others⟩
      intro place holds
      obtain rfl := ledger.unique holds isFree
      exact id

/-- `kfree` of a page the caller holds. -/
theorem wp_kfree {k : Layout} (roots : Set UInt64) (ledger : Ledger pages s b)
    (kept : keep ⊆ b.held)
    (managed : k.Managed page) (isHeld : page ∈ b.held) (notKept : page ∉ keep) :
    wp (kfree k page) s (fun _ t => Effect pages roots keep s b t (b.drop page) ∧ SameTables s t b)
      fun _ _ => False := by
  have holds : Holds s b .held page := isHeld
  have others : ∀ other, other ≠ page → (s.freed page).mem other = s.mem other :=
    fun other different => update_of_ne different _ _
  unfold kfree
  rw [if_pos managed, wp_modify]
  refine ⟨Effect.of_page (ledger.freed isHeld) (kept_drop kept notKept) (fun _ _ => rfl) others ?_,
    SameTables.of_page ledger holds (by simp) others⟩
  exact ledger.held_not_foreign isHeld notKept

/-- New contents for a page the caller holds. -/
theorem Effect.setPage (roots : Set UInt64) (ledger : Ledger pages s b) (kept : keep ⊆ b.held)
    (isHeld : page ∈ b.held) (notKept : page ∉ keep) (content : Page) :
    Effect pages roots keep s b (s.setPage page content) b := by
  have holds : Holds s b .held page := isHeld
  refine Effect.of_page (ledger.write holds (by simp) content) kept (fun _ _ => rfl)
    (fun other different => setPage_other different) ?_
  exact ledger.held_not_foreign isHeld notKept

end Pages

/-- The table keeps its pages. -/
def Grows (s t : Phys) (root : UInt64) : Prop :=
  ∀ path page, path.length ≤ 2 → s.table root path = some page → t.table root path = some page

section Walk

/-- A new page-table page. -/
theorem Effect.graft {pages roots keep : Set UInt64} {root page fresh : UInt64}
    {s : Phys} {b : Books}
    {spot : List (Fin 512)} {i : Fin 512} (ledger : Ledger pages s b) (kept : keep ⊆ b.held)
    (mine : root ∈ roots) (live : b.spaces root ≠ none) (short : spot.length < 2)
    (reached : s.table root spot = some page) (vacant : s.mem page i &&& pteV = 0)
    (isHeld : fresh ∈ b.held) (notKept : fresh ∉ keep) :
    Effect pages roots keep s b (s.grafted page i fresh) (b.drop fresh) ∧
      (s.grafted page i fresh).table root (spot ++ [i]) = some fresh ∧
      Grows s (s.grafted page i fresh) root := by
  have holds : Holds s b (.table root spot) page := ⟨live, Nat.le_of_lt short, reached⟩
  have isFresh : Holds s b .held fresh := isHeld
  have unreached : ∀ path, path.length ≤ 2 → s.table root path ≠ some fresh := by
    intro path isShort reachesFresh
    exact ledger.only isFresh (y := .table root path) (by simp) ⟨live, isShort, reachesFresh⟩
  have aligned := (ledger.aligned fresh (ledger.isPage isFresh)).2
  refine ⟨⟨ledger.graft live short reached vacant isHeld, kept_drop kept notKept,
    fun _ _ => rfl, ?_⟩, ?_, ?_⟩
  · intro place other otherHolds foreign
    apply grafted_other
    · rintro rfl
      obtain rfl := ledger.unique otherHolds holds
      exact foreign mine
    · rintro rfl
      exact ledger.held_not_foreign isHeld notKept place otherHolds foreign
  · rw [table_graft (ledger.separate live) short reached vacant unreached aligned
      (by rw [List.length_append]; exact short), if_pos rfl]
  · intro path other isShort isOther
    rw [table_graft (ledger.separate live) short reached vacant unreached aligned isShort]
    split_ifs with here
    · rw [here, Phys.table, Radix.descend_snoc] at isOther
      rw [Phys.table] at reached
      rw [reached, Option.bind_some, child_of_invalid vacant] at isOther
      contradiction
    · exact isOther

variable {pages roots keep : Set UInt64} {root va : UInt64} {s : Phys} {b : Books}

/-- The first levels of the path to a page number. -/
def spineTo (level vpn : Nat) : List (Fin 512) := (spine vpn).take (2 - level)

theorem spineTo_length {level : Nat} (vpn : Nat) : (spineTo level vpn).length ≤ 2 :=
  (List.length_take_le' _ _).trans (Nat.le_of_eq (spine_length vpn))

theorem spineTo_succ {level : Nat} (small : level < 2) (vpn : Nat) :
    spineTo (level + 1) vpn ++ [ix (level + 1) vpn] = spineTo level vpn ∧
      (spineTo (level + 1) vpn).length < 2 := by
  interval_cases level
  · exact ⟨rfl, Nat.lt_succ_self 1⟩
  · exact ⟨rfl, Nat.zero_lt_two⟩

theorem wp_walkLoop (ledger : Ledger pages s b) (kept : keep ⊆ b.held)
    (mine : root ∈ roots) (live : b.spaces root ≠ none) {level : Nat} (small : level ≤ 2)
    {pagetable : UInt64} (reached : s.table root (spineTo level (vpn va)) = some pagetable) :
    wp (walkLoop va true level pagetable) s
      (fun low t => Effect pages roots keep s b t b ∧ Grows s t root ∧
        ∀ page, low = some page → t.table root (spine (vpn va)) = some page)
      fun _ _ => False := by
  induction level generalizing s pagetable with
  | zero =>
    rw [walkLoop, wp_pure]
    refine ⟨Effect.refl ledger kept, fun _ _ _ isPage => isPage, ?_⟩
    intro page isPage
    rw [← isPage]
    exact reached
  | succ level ih =>
    obtain ⟨next, short⟩ := spineTo_succ (Nat.lt_of_succ_le small) (vpn va)
    have index : px (level + 1) va = ix (level + 1) (vpn va) := px_eq_ix (by omega) va
    rw [walkLoop, index]
    simp only [load, wp_bind, wp_get, wp_pure, wp_ite]
    by_cases valid : s.mem pagetable (ix (level + 1) (vpn va)) &&& pteV ≠ 0
    · rw [if_pos valid]
      apply ih ledger (Nat.le_of_succ_le small)
      rw [← next, Phys.table, Radix.descend_snoc]
      rw [Phys.table] at reached
      rw [reached, Option.bind_some, child_of_valid valid]
    · rw [if_neg valid, if_pos trivial]
      refine wp_mono (wp_kalloc roots ledger kept) ?_ fun _ _ absurd => absurd
      intro page t got
      rcases got with ⟨isZero, effect, sameMem⟩ | ⟨notZero, new, effect, same⟩
      · rw [if_pos isZero]
        refine ⟨effect, ?_, fun _ absurd => (Option.some_ne_none _ absurd.symm).elim⟩
        intro path other _ isOther
        rw [Phys.table, sameMem]
        exact isOther
      · rw [if_neg notZero]
        simp only [setPage, put, wp_modify]
        have stillReached := (same.table live (spineTo_length _)).trans reached
        have vacant : t.mem pagetable (ix (level + 1) (vpn va)) &&& pteV = 0 := by
          rw [same root _ pagetable live (spineTo_length _) reached]
          exact not_not.mp valid
        have grafted := Effect.graft effect.ledger effect.kept mine live short stillReached vacant
          (Set.mem_insert page b.held) (fun isKept => new (kept isKept))
        rw [Books.drop_hold new] at grafted
        have all := effect.trans grafted.1
        refine wp_mono (ih all.ledger (Nat.le_of_succ_le small) ?_) ?_
          fun _ _ absurd => absurd
        · rw [← next]
          exact grafted.2.1
        · intro low u after
          refine ⟨all.trans after.1, ?_, after.2.2⟩
          intro path other isShort isOther
          rw [← same.table live isShort] at isOther
          exact after.2.1 path other isShort (grafted.2.2 path other isShort isOther)

theorem lt_maxVa_toNat : va < maxVa ↔ va.toNat < 2 ^ 38 := by
  rw [UInt64.lt_iff_toNat_lt]
  exact Iff.rfl

theorem vpn_lt (inside : va < maxVa) : vpn va < 512 ^ 3 := by
  rw [lt_maxVa_toNat] at inside
  unfold vpn
  omega

/-- `walk` with `alloc`: no memory, or the slot of the page number. -/
theorem wp_walk_alloc (ledger : Ledger pages s b) (kept : keep ⊆ b.held)
    (mine : root ∈ roots) (live : b.spaces root ≠ none) (inside : va < maxVa) :
    wp (walk root va true) s
      (fun slot t => Effect pages roots keep s b t b ∧ Grows s t root ∧
        ∀ x, slot = some x → t.table root (spine (vpn va)) = some x.1 ∧ x.2 = ix 0 (vpn va))
      fun _ _ => False := by
  unfold walk
  rw [if_neg (UInt64.not_le.mpr inside), wp_bind]
  refine wp_mono (wp_walkLoop ledger kept mine live (Nat.le_refl 2) rfl) ?_ fun _ _ absurd => absurd
  intro low t after
  refine ⟨after.1, after.2.1, ?_⟩
  intro x isSlot
  obtain ⟨page, isPage, rfl⟩ := Option.map_eq_some_iff.mp isSlot
  exact ⟨after.2.2 page isPage, px_eq_ix (by decide) va⟩

theorem walkLoop_lookup (s : Phys) (va : UInt64) {level : Nat} (small : level ≤ 2)
    (pagetable : UInt64) :
    walkLoop va false level pagetable s =
      .ok (s.table pagetable ((spine (vpn va)).drop (2 - level))) s := by
  induction level generalizing pagetable with
  | zero => rfl
  | succ level ih =>
    have index : px (level + 1) va = ix (level + 1) (vpn va) := px_eq_ix (by omega) va
    have path : (spine (vpn va)).drop (2 - (level + 1)) =
        ix (level + 1) (vpn va) :: (spine (vpn va)).drop (2 - level) := by
      have isLevel : level < 2 := small
      interval_cases level
      · rfl
      · rfl
    have next := ih (Nat.le_of_succ_le small)
    rw [path, Phys.table, Radix.descend, walkLoop, index]
    by_cases valid : s.mem pagetable (ix (level + 1) (vpn va)) &&& pteV ≠ 0
    · rw [child_of_valid valid, Option.bind_some]
      change (if _ then _ else _ : VmM _) s = _
      rw [if_pos valid]
      exact next _
    · rw [child_of_invalid (not_not.mp valid), Option.bind_none]
      change (if _ then _ else _ : VmM _) s = _
      rw [if_neg valid]
      rfl

/-- `walk` without `alloc` changes nothing. -/
theorem walk_lookup (s : Phys) (root : UInt64) (inside : va < maxVa) :
    walk root va false s =
      .ok ((s.table root (spine (vpn va))).map fun page => (page, ix 0 (vpn va))) s := by
  unfold walk
  rw [if_neg (UInt64.not_le.mpr inside)]
  change EStateM.bind _ _ s = _
  unfold EStateM.bind
  rw [walkLoop_lookup s va (Nat.le_refl 2) root, ← px_eq_ix (by decide) va]
  rfl

end Walk

/-- `count` pages from `first` on, mapped to the pages from `pa` on. -/
def Space.mapped (space : Space) (first count : Nat) (pa perm : UInt64) : Space := fun v =>
  if first ≤ v ∧ v < first + count then
    plain (leafPte (pa + UInt64.ofNat (v - first) * pgSize) perm)
  else space v

theorem Space.mapped_zero (space : Space) (first : Nat) (pa perm : UInt64) :
    space.mapped first 0 pa perm = space := by
  funext v
  exact if_neg fun between => by omega

theorem Space.mapped_succ (space : Space) (first count : Nat) (pa perm : UInt64) :
    Space.mapped (update space first (plain (leafPte pa perm))) (first + 1) count
      (pa + pgSize) perm = space.mapped first (count + 1) pa perm := by
  funext v
  unfold Space.mapped
  by_cases later : first + 1 ≤ v ∧ v < first + 1 + count
  · have shift : UInt64.ofNat (v - first) = UInt64.ofNat (v - (first + 1)) + 1 := by
      rw [show v - first = v - (first + 1) + 1 by omega]
      exact UInt64.ofNat_add _ _
    have step : ∀ x g : UInt64, pa + g + x * g = pa + (x + 1) * g := by
      intro x g
      grind
    rw [if_pos later, if_pos (by omega), shift, step]
  · rw [if_neg later]
    by_cases here : v = first
    · subst here
      have absent : UInt64.ofNat 0 * pgSize = 0 := by decide
      rw [update_self, if_pos (by omega), Nat.sub_self, absent, UInt64.add_zero]
    · rw [update_of_ne here, if_neg (by omega)]

theorem vpn_next {a : UInt64} (room : a.toNat + 4096 < 2 ^ 64) :
    (a + pgSize).toNat = a.toNat + 4096 ∧ vpn (a + pgSize) = vpn a + 1 := by
  have sum : (a + pgSize).toNat = a.toNat + 4096 := by
    rw [UInt64.toNat_add]
    change (a.toNat + 4096) % 2 ^ 64 = _
    exact Nat.mod_eq_of_lt room
  refine ⟨sum, ?_⟩
  unfold vpn
  rw [sum]
  omega

section Mappages

variable {pages roots keep : Set UInt64} {root : UInt64} {s : Phys} {b : Books} {space : Space}

/-- A store into a slot of the table. -/
theorem Effect.put {low : UInt64} {v : Nat} (ledger : Ledger pages s b) (kept : keep ⊆ b.held)
    (mine : root ∈ roots) (isSpace : b.spaces root = some space) (small : v < 512 ^ 3)
    (reached : s.table root (spine v) = some low) (unowned : (space v).bind Leaf.page = none)
    (pte : UInt64) :
    Effect pages roots keep s b (s.put (low, ix 0 v) pte)
      (b.setSpace root (update space v (plain pte))) := by
  refine Effect.of_page (ledger.setLeaf isSpace small reached unowned pte) kept
    (fun _ outside => Books.setSpace_other fun same => outside (same ▸ mine))
    (fun other different => put_other_page different) ?_
  intro place holds foreign
  obtain rfl := ledger.unique holds (y := .table root (spine v))
    ⟨live_of_space isSpace, Nat.le_of_eq (spine_length v), reached⟩
  exact foreign mine

/-- The entry in a slot. -/
theorem Ledger.load (ledger : Ledger pages s b) (isSpace : b.spaces root = some space) {v : Nat}
    (small : v < 512 ^ 3) {low : UInt64} (reached : s.table root (spine v) = some low) :
    (if s.mem low (ix 0 v) &&& pteV ≠ 0 then some (s.mem low (ix 0 v)) else none) =
      (space v).map Leaf.pte := by
  rw [← ledger.maps root space isSpace v small, Phys.entry, reached, Option.bind_some]

theorem wp_mappagesLoop {perm : UInt64} {count : Nat} {a pa : UInt64} (ledger : Ledger pages s b)
    (kept : keep ⊆ b.held) (mine : root ∈ roots) (isSpace : b.spaces root = some space)
    (unmapped : ∀ v, vpn a ≤ v → v < vpn a + count → space v = none) :
    wp (mappagesLoop root perm count a pa) s
      (fun r t => ∃ done, Effect pages roots keep s b t
          (b.setSpace root (space.mapped (vpn a) done pa perm)) ∧
        ((r = 0 ∧ done = count) ∨ (r = -1 ∧ done < count)))
      fun reason _ => reason = .walk ∧ 2 ^ 38 < a.toNat + count * 4096 := by
  induction count generalizing s b space a pa with
  | zero =>
    rw [mappagesLoop, wp_pure]
    refine ⟨0, ?_, .inl ⟨rfl, rfl⟩⟩
    rw [Space.mapped_zero, Books.setSpace_same isSpace]
    exact Effect.refl ledger kept
  | succ count ih =>
    rw [mappagesLoop, wp_bind]
    by_cases inside : a < maxVa
    · have live := live_of_space isSpace
      have small := vpn_lt inside
      refine wp_mono (wp_walk_alloc ledger kept mine live inside) ?_ fun _ _ absurd => absurd.elim
      rintro slot t ⟨effect, _, isSlot⟩
      cases slot with
      | none =>
        refine ⟨0, ?_, .inr ⟨rfl, Nat.succ_pos count⟩⟩
        rw [Space.mapped_zero, Books.setSpace_same isSpace]
        exact effect
      | some x =>
        obtain ⟨low, i⟩ := x
        obtain ⟨reached, rfl⟩ := isSlot _ rfl
        have absent := unmapped (vpn a) (Nat.le_refl _) (by omega)
        have entry := effect.ledger.load isSpace small reached
        rw [absent] at entry
        have invalid : ¬(t.mem low (ix 0 (vpn a)) &&& pteV ≠ 0) := by
          intro valid
          rw [if_pos valid] at entry
          exact Option.some_ne_none _ entry
        simp only [load, put, wp_bind, wp_get, wp_pure, wp_ite, wp_modify]
        rw [if_neg invalid]
        have stored := Effect.put effect.ledger effect.kept mine isSpace small reached
          (by rw [absent]; rfl) (leafPte pa perm)
        have all := effect.trans stored
        rw [lt_maxVa_toNat] at inside
        obtain ⟨nextAddr, nextVpn⟩ := vpn_next (a := a) (by omega)
        refine wp_mono (ih all.ledger all.kept Books.setSpace_self ?_) ?_ ?_
        · intro v first last
          rw [nextVpn] at first last
          rw [update_of_ne (by omega)]
          exact unmapped v (by omega) (by omega)
        · rintro r u ⟨done, after, outcome⟩
          rw [nextVpn, Books.setSpace_setSpace, Space.mapped_succ] at after
          refine ⟨done + 1, all.trans after, ?_⟩
          rcases outcome with ⟨isZero, isAll⟩ | ⟨isFail, part⟩
          · exact .inl ⟨isZero, by rw [isAll]⟩
          · exact .inr ⟨isFail, Nat.succ_lt_succ part⟩
        · rintro reason u ⟨isWalk, tooFar⟩
          rw [nextAddr] at tooFar
          exact ⟨isWalk, by omega⟩
    · rw [walk, if_pos (UInt64.not_lt.mp inside), wp_throw]
      rw [lt_maxVa_toNat] at inside
      exact ⟨rfl, by omega⟩

/-- `mappages` over pages that are not mapped: all of them, or, when memory runs out,
the first ones. -/
theorem wp_mappages {va size pa perm : UInt64} (ledger : Ledger pages s b) (kept : keep ⊆ b.held)
    (mine : root ∈ roots) (isSpace : b.spaces root = some space) (aligned : Aligned va)
    (unmapped : ∀ v, vpn va ≤ v → v < vpn va + size.toNat / 4096 → space v = none) :
    wp (mappages root va size pa perm) s
      (fun r t => ∃ done, Effect pages roots keep s b t
          (b.setSpace root (space.mapped (vpn va) done pa perm)) ∧
        ((r = 0 ∧ done = size.toNat / 4096) ∨ (r = -1 ∧ done < size.toNat / 4096)))
      fun reason _ => (reason = .mappagesSize ∧ ¬Aligned size) ∨
        (reason = .mappagesZero ∧ size = 0) ∨
        (reason = .walk ∧ 2 ^ 38 < va.toNat + size.toNat) := by
  unfold mappages
  rw [if_neg (not_not.mpr (mod_pgSize_eq_zero.mpr aligned))]
  split_ifs with odd zero
  · exact .inl ⟨rfl, fun whole => odd (mod_pgSize_eq_zero.mpr whole)⟩
  · exact .inr (.inl ⟨rfl, zero⟩)
  · refine wp_mono (wp_mappagesLoop ledger kept mine isSpace unmapped) (fun _ _ post => post) ?_
    rintro reason t ⟨isWalk, tooFar⟩
    exact .inr (.inr ⟨isWalk, by omega⟩)

/-- `mappages` of one page. -/
theorem wp_mapOne {va pa perm : UInt64} (ledger : Ledger pages s b) (kept : keep ⊆ b.held)
    (mine : root ∈ roots) (isSpace : b.spaces root = some space) (aligned : Aligned va)
    (inside : va < maxVa) (unmapped : space (vpn va) = none) :
    wp (mappages root va pgSize pa perm) s
      (fun r t => (r = 0 ∧ Effect pages roots keep s b t
          (b.setSpace root (update space (vpn va) (plain (leafPte pa perm))))) ∨
        (r = -1 ∧ Effect pages roots keep s b t b))
      fun _ _ => False := by
  have size : pgSize.toNat / 4096 = 1 := rfl
  refine wp_mono (wp_mappages ledger kept mine isSpace aligned ?_) ?_ ?_
  · intro v first last
    rw [size] at last
    rw [show v = vpn va by omega]
    exact unmapped
  · rintro r t ⟨done, effect, outcome⟩
    rw [size] at outcome
    rcases outcome with ⟨isZero, rfl⟩ | ⟨isFail, absent⟩
    · rw [← Space.mapped_succ, Space.mapped_zero] at effect
      exact .inl ⟨isZero, effect⟩
    · obtain rfl : done = 0 := by omega
      rw [Space.mapped_zero, Books.setSpace_same isSpace] at effect
      exact .inr ⟨isFail, effect⟩
  · rw [lt_maxVa_toNat] at inside
    rw [Aligned] at aligned
    rintro reason t (⟨_, odd⟩ | ⟨_, zero⟩ | ⟨_, tooFar⟩)
    · exact odd (by decide)
    · exact absurd zero (by decide)
    · change 2 ^ 38 < va.toNat + 4096 at tooFar
      omega

end Mappages

/-- Nothing is mapped in `count` pages from `first` on. -/
def Space.cleared (space : Space) (first count : Nat) : Space := fun v =>
  if first ≤ v ∧ v < first + count then none else space v

theorem Space.cleared_zero (space : Space) (first : Nat) : space.cleared first 0 = space := by
  funext v
  exact if_neg fun between => by omega

theorem Space.cleared_succ (space : Space) (first count : Nat) :
    Space.cleared (update space first none) (first + 1) count =
      space.cleared first (count + 1) := by
  funext v
  unfold Space.cleared
  by_cases later : first + 1 ≤ v ∧ v < first + 1 + count
  · rw [if_pos later, if_pos (by omega)]
  · rw [if_neg later]
    by_cases here : v = first
    · rw [here, update_self, if_pos (by omega)]
    · rw [update_of_ne here, if_neg (by omega)]

section Uvmunmap

variable {pages roots keep : Set UInt64} {root : UInt64} {s : Phys} {b : Books} {space : Space}
  {k : Layout} {doFree : Bool}

/-- A mapping `uvmunmap` accepts: a leaf whose page the table owns if it is to be
freed. -/
def Unmappable (k : Layout) (doFree : Bool) (leaf : Leaf) : Prop :=
  pteFlags leaf.pte ≠ pteV ∧ leaf.owned = doFree ∧ (doFree = true → k.Managed (pte2pa leaf.pte))

/-- The slot of a mapped page number. -/
theorem Ledger.slot (ledger : Ledger pages s b) (isSpace : b.spaces root = some space) {v : Nat}
    (small : v < 512 ^ 3) {leaf : Leaf} (isLeaf : space v = some leaf) :
    ∃ low, s.table root (spine v) = some low ∧ s.mem low (ix 0 v) = leaf.pte ∧
      leaf.pte &&& pteV ≠ 0 := by
  have entry := ledger.maps root space isSpace v small
  rw [isLeaf, Phys.entry] at entry
  obtain ⟨low, reached, valid⟩ := Option.bind_eq_some_iff.mp entry
  split_ifs at valid with isValid
  have same := Option.some.inj valid
  exact ⟨low, reached, same, same ▸ isValid⟩

theorem wp_unmapOne {v : Nat} {low : UInt64} {leaf : Leaf} (ledger : Ledger pages s b)
    (kept : keep ⊆ b.held) (mine : root ∈ roots) (isSpace : b.spaces root = some space)
    (small : v < 512 ^ 3)
    (isLeaf : space v = some leaf) (reached : s.table root (spine v) = some low)
    (owned : leaf.owned = doFree) (managed : doFree = true → k.Managed (pte2pa leaf.pte)) :
    wp (kfreeIf k doFree (pte2pa leaf.pte)) s
      (fun _ t => Effect pages roots keep s b (t.put (low, ix 0 v) 0)
        (b.setSpace root (update space v none))) fun _ _ => False := by
  have live := live_of_space isSpace
  have blank : plain 0 = none := rfl
  obtain ⟨pte, isOwned⟩ := leaf
  cases doFree with
  | false =>
    obtain rfl := owned
    exact Effect.put ledger kept mine isSpace small reached (by rw [isLeaf]; rfl) 0
  | true =>
    obtain rfl := owned
    obtain ⟨given, new⟩ := ledger.disown isSpace small isLeaf
    have passed : Effect pages roots keep s b s _ := Effect.of_books given (kept_hold kept)
      fun _ outside => Books.setSpace_other fun same => outside (same ▸ mine)
    rw [kfreeIf, if_pos rfl]
    refine wp_mono (wp_kfree roots given passed.kept (managed rfl) (Set.mem_insert _ b.held)
      fun isKept => new (kept isKept)) ?_ fun _ _ absurd => absurd
    rintro _ t ⟨freed, same⟩
    have stillReached :=
      (same.table (live_of_space Books.setSpace_self) (Nat.le_of_eq (spine_length v))).trans reached
    have cleared := Effect.put freed.ledger freed.kept mine Books.setSpace_self small stillReached
      (by rw [update_self]; rfl) 0
    have all := (passed.trans freed).trans cleared
    have books : ((((b.hold (pte2pa pte)).setSpace root (update space v
        (some ⟨pte, false⟩))).drop (pte2pa pte)).setSpace root (update
          (update space v (some ⟨pte, false⟩)) v (plain 0))) =
        b.setSpace root (update space v none) := by
      rw [update_idem, blank]
      have held := congrArg Books.held (Books.drop_hold new)
      unfold Books.setSpace Books.drop Books.hold at held ⊢
      rw [update_idem]
      congr
    rw [books] at all
    exact all

theorem wp_uvmunmapLoop {count : Nat} {a : UInt64} (ledger : Ledger pages s b)
    (kept : keep ⊆ b.held) (mine : root ∈ roots) (isSpace : b.spaces root = some space)
    (room : a.toNat + count * 4096 ≤ 2 ^ 38)
    (mapped : ∀ v, vpn a ≤ v → v < vpn a + count →
      ∃ leaf, space v = some leaf ∧ Unmappable k doFree leaf) :
    wp (uvmunmapLoop k root doFree count a) s
      (fun _ t => Effect pages roots keep s b t (b.setSpace root (space.cleared (vpn a) count)))
      fun _ _ => False := by
  induction count generalizing s b space a with
  | zero =>
    rw [uvmunmapLoop, wp_pure, Space.cleared_zero, Books.setSpace_same isSpace]
    exact Effect.refl ledger kept
  | succ count ih =>
    have inside : a < maxVa := by
      rw [lt_maxVa_toNat]
      omega
    have small := vpn_lt inside
    obtain ⟨leaf, isLeaf, notPointer, owned, managed⟩ := mapped (vpn a) (Nat.le_refl _) (by omega)
    obtain ⟨low, reached, isPte, valid⟩ := ledger.slot isSpace small isLeaf
    have found := walk_lookup s root inside
    rw [reached] at found
    rw [uvmunmapLoop, wp_bind, wp_ok found]
    simp only [Option.map_some, load, wp_bind, wp_get, wp_pure, isPte]
    rw [if_neg valid, if_neg notPointer, wp_bind]
    refine wp_mono (wp_unmapOne ledger kept mine isSpace small isLeaf reached owned managed) ?_
      fun _ _ absurd => absurd
    intro _ t one
    obtain ⟨nextAddr, nextVpn⟩ := vpn_next (a := a) (by omega)
    rw [wp_bind, put, wp_modify]
    refine wp_mono (ih one.ledger one.kept Books.setSpace_self
      (by rw [nextAddr]; omega) ?_) ?_ fun _ _ absurd => absurd
    · intro v first last
      rw [nextVpn] at first last
      rw [update_of_ne (by omega)]
      exact mapped v (by omega) (by omega)
    · intro _ u after
      rw [nextVpn, Books.setSpace_setSpace, Space.cleared_succ] at after
      exact one.trans after

theorem pagesBetween_add {va npages : UInt64} (room : va.toNat + npages.toNat * 4096 ≤ 2 ^ 38) :
    pagesBetween va (va + npages * pgSize) = npages.toNat := by
  have product : (npages * pgSize).toNat = npages.toNat * 4096 := by
    rw [UInt64.toNat_mul]
    change npages.toNat * 4096 % 2 ^ 64 = _
    exact Nat.mod_eq_of_lt (by omega)
  have sum : (va + npages * pgSize).toNat = va.toNat + npages.toNat * 4096 := by
    rw [UInt64.toNat_add, product]
    exact Nat.mod_eq_of_lt (by omega)
  have back : (va + npages * pgSize - va).toNat = npages.toNat * 4096 := by
    rw [UInt64.toNat_sub_of_le _ _ (by rw [UInt64.le_iff_toNat_le, sum]; omega), sum]
    omega
  unfold pagesBetween
  split_ifs with less
  · rw [back]
    omega
  · rw [UInt64.lt_iff_toNat_lt, sum] at less
    omega

/-- `uvmunmap` of pages that are mapped. -/
theorem wp_uvmunmap {va npages : UInt64} (ledger : Ledger pages s b) (kept : keep ⊆ b.held)
    (mine : root ∈ roots) (isSpace : b.spaces root = some space) (aligned : Aligned va)
    (room : va.toNat + npages.toNat * 4096 ≤ 2 ^ 38)
    (mapped : ∀ v, vpn va ≤ v → v < vpn va + npages.toNat →
      ∃ leaf, space v = some leaf ∧ Unmappable k doFree leaf) :
    wp (uvmunmap k root va npages doFree) s
      (fun _ t => Effect pages roots keep s b t
        (b.setSpace root (space.cleared (vpn va) npages.toNat))) fun _ _ => False := by
  unfold uvmunmap
  rw [if_neg (not_not.mpr (mod_pgSize_eq_zero.mpr aligned)), pagesBetween_add room]
  exact wp_uvmunmapLoop ledger kept mine isSpace room mapped

end Uvmunmap

end Xv6.Kernel.Vm
