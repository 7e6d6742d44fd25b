import Xv6.Kernel.Vm.Walk

/-!
Page tables refine finite maps.

Owns: when a three-level table is well formed, and that `walk`, `mappages` and
`uvmunmap` keep it so and change the map from page numbers to entries as their names
say.

Does not own: user memory.
-/

namespace Xv6.Kernel.Vm

open Xv6.Lib

/-- A well-formed table: one path to each of its pages, all of them allocated, and
pointers in its upper levels. The free list has each page once. -/
structure WellFormed (s : Phys) (root : UInt64) : Prop where
  nodup : s.freelist.Nodup
  free : ∀ page ∈ s.freelist, page ≠ 0 ∧ Aligned page
  separate : Separate s root
  allocated : ∀ path page, path.length ≤ 2 → s.table root path = some page →
    page ∉ s.freelist ∧ page ≠ 0 ∧ Aligned page
  pointers : ∀ path page i, path.length < 2 → s.table root path = some page →
    s.mem page i &&& pteV ≠ 0 → s.mem page i &&& (pteR ||| pteW ||| pteX) = 0

theorem Ledger.wellFormed {pages : Set UInt64} {s : Phys} {b : Books} {root : UInt64}
    (ledger : Ledger pages s b) (live : b.spaces root ≠ none) : WellFormed s root := by
  refine ⟨ledger.nodup, ?_, ledger.separate live, ?_, ?_⟩
  · intro page isFree
    exact ledger.aligned page (ledger.isPage (x := .free) isFree)
  · intro path page short reached
    have holds : Holds s b (.table root path) page := ⟨live, short, reached⟩
    exact ⟨ledger.only holds (y := .free) (by simp), ledger.aligned page (ledger.isPage holds)⟩
  · exact fun path page i short reached => ledger.pointers root path page i live short reached

/-- The pages of the numbers in `own` are user pages: they are not free, not of the
table, and no two of the numbers share one. -/
structure UserPages (s : Phys) (root : UInt64) (own : Nat → Bool) : Prop where
  apart : ∀ v pte, v < 512 ^ 3 → own v = true → s.entry root v = some pte →
    pte2pa pte ≠ 0 ∧ pte2pa pte ∉ s.freelist ∧
      ∀ path, path.length ≤ 2 → s.table root path ≠ some (pte2pa pte)
  once : ∀ v w pte pte', v < 512 ^ 3 → w < 512 ^ 3 → own v = true → own w = true →
    s.entry root v = some pte → s.entry root w = some pte' → pte2pa pte = pte2pa pte' → v = w

theorem UserPages.none (s : Phys) (root : UInt64) : UserPages s root fun _ => false :=
  ⟨fun _ _ _ owned => Bool.noConfusion owned, fun _ _ _ _ _ _ owned => Bool.noConfusion owned⟩

/-- What the table maps, with owners. -/
def Phys.space (s : Phys) (root : UInt64) (own : Nat → Bool) : Space := fun v =>
  (s.entry root v).map fun pte => ⟨pte, own v⟩

theorem space_pte (s : Phys) (root : UInt64) (own : Nat → Bool) (v : Nat) :
    (s.space root own v).map Leaf.pte = s.entry root v := by
  unfold Phys.space
  rw [Option.map_map]
  cases s.entry root v <;> rfl

/-- The books with this table alone. -/
def Phys.books (s : Phys) (root : UInt64) (own : Nat → Bool) : Books :=
  ⟨fun other => if other = root then some (s.space root own) else none, ∅⟩

theorem books_root (s : Phys) (root : UInt64) (own : Nat → Bool) :
    (s.books root own).spaces root = some (s.space root own) := if_pos rfl

theorem books_owned {s : Phys} {root other page : UInt64} {own : Nat → Bool} {v : Nat} :
    (s.books root own).owned other v = some page ↔
      other = root ∧ own v = true ∧ ∃ pte, s.entry root v = some pte ∧ pte2pa pte = page := by
  unfold Books.owned Phys.books
  by_cases same : other = root
  · simp only [same, if_true, Option.bind_some, Phys.space]
    cases entry : s.entry root v with
    | none => simp
    | some pte =>
      simp only [Option.map_some, Option.bind_some, Leaf.page]
      cases own v <;> simp
  · simp [same]

/-- A well-formed table is a ledger of the free pages, its own and its user pages. -/
theorem WellFormed.ledger {s : Phys} {root : UInt64} {own : Nat → Bool}
    (wellFormed : WellFormed s root) (user : UserPages s root own) :
    Ledger {page | ∃ place, Holds s (s.books root own) place page} s (s.books root own) := by
  have isRoot : ∀ {other}, (s.books root own).spaces other ≠ none → other = root := by
    intro other live
    by_contra different
    exact live (if_neg different)
  have unique : ∀ {x y : Place} {page}, Holds s (s.books root own) x page →
      Holds s (s.books root own) y page → x = y := by
    have tableUser : ∀ {other other' path v page},
        Holds s (s.books root own) (.table other path) page →
        ¬Holds s (s.books root own) (.user other' v) page := by
      rintro other other' path v page ⟨live, short, reached⟩ ⟨small, isOwned⟩
      obtain ⟨_, owned, pte, entry, rfl⟩ := books_owned.mp isOwned
      rw [isRoot live] at reached
      exact (user.apart v pte small owned entry).2.2 path short reached
    have freeTable : ∀ {other path page}, page ∈ s.freelist →
        ¬Holds s (s.books root own) (.table other path) page := by
      rintro other path page isFree ⟨live, short, reached⟩
      rw [isRoot live] at reached
      exact (wellFormed.allocated path page short reached).1 isFree
    have freeUser : ∀ {other v page}, page ∈ s.freelist →
        ¬Holds s (s.books root own) (.user other v) page := by
      rintro other v page isFree ⟨small, isOwned⟩
      obtain ⟨_, owned, pte, entry, rfl⟩ := books_owned.mp isOwned
      exact (user.apart v pte small owned entry).2.1 isFree
    intro x y page first second
    cases x with
    | free =>
      cases y with
      | free => rfl
      | table other path => exact absurd second (freeTable first)
      | user other v => exact absurd second (freeUser first)
      | held => exact second.elim
    | table other path =>
      cases y with
      | free => exact absurd first (freeTable second)
      | table other' path' =>
        obtain ⟨live, short, reached⟩ := first
        obtain ⟨live', short', reached'⟩ := second
        obtain rfl := isRoot live
        obtain rfl := isRoot live'
        rw [wellFormed.separate path path' page short short' reached reached']
      | user other' v => exact absurd second (tableUser first)
      | held => exact second.elim
    | user other v =>
      cases y with
      | free => exact absurd first (freeUser second)
      | table other' path => exact absurd first (tableUser second)
      | user other' w =>
        obtain ⟨small, isOwned⟩ := first
        obtain ⟨small', isOwned'⟩ := second
        obtain ⟨rfl, owned, pte, entry, isPage⟩ := books_owned.mp isOwned
        obtain ⟨rfl, owned', pte', entry', isPage'⟩ := books_owned.mp isOwned'
        rw [user.once v w pte pte' small small' owned owned' entry entry'
          (isPage.trans isPage'.symm)]
      | held => exact second.elim
    | held => exact first.elim
  refine ⟨?_, wellFormed.nodup, ?_, ?_, ?_⟩
  · rintro page ⟨place, holds⟩
    cases place with
    | free => exact wellFormed.free page holds
    | table other path =>
      obtain ⟨live, short, reached⟩ := holds
      rw [isRoot live] at reached
      exact (wellFormed.allocated path page short reached).2
    | user other v =>
      obtain ⟨_, owned, pte, entry, rfl⟩ := books_owned.mp holds.2
      exact ⟨(user.apart v pte holds.1 owned entry).1, pte2pa_aligned pte⟩
    | held => exact holds.elim
  · exact Accounted.of_unique (fun place page holds => ⟨place, holds⟩) (fun page holds => holds)
      fun x y page first second => unique first second
  · intro other space isSpace v small
    obtain rfl := isRoot (live_of_space isSpace)
    rw [books_root] at isSpace
    obtain rfl := Option.some.inj isSpace
    exact (space_pte s other own v).symm
  · intro other path page i live short reached
    obtain rfl := isRoot live
    exact wellFormed.pointers path page i short reached

/-- The table after a section that started with this table alone. -/
theorem Effect.alone {pages roots keep : Set UInt64} {root : UInt64} {s t : Phys} {own : Nat → Bool}
    {space : Space}
    (effect : Effect pages roots keep s (s.books root own) t
      ((s.books root own).setSpace root space)) :
    WellFormed t root ∧ ∀ v, v < 512 ^ 3 → t.entry root v = (space v).map Leaf.pte :=
  ⟨effect.ledger.wellFormed (live_of_space Books.setSpace_self),
    effect.ledger.maps root space Books.setSpace_self⟩

section Refinement

variable {s : Phys} {root : UInt64}

/-- `walk` maps nothing, and its slot belongs to the page number. -/
theorem WellFormed.walk (wellFormed : WellFormed s root) {va : UInt64} (inside : va < maxVa)
    (alloc : Bool) :
    wp (Vm.walk root va alloc) s (fun slot t => WellFormed t root ∧
        (∀ v, v < 512 ^ 3 → t.entry root v = s.entry root v) ∧ Grows s t root ∧
        ∀ x, slot = some x → t.table root (spine (vpn va)) = some x.1 ∧ x.2 = ix 0 (vpn va))
      fun _ _ => False := by
  cases alloc with
  | false =>
    rw [wp_ok (walk_lookup s root inside)]
    refine ⟨wellFormed, fun _ _ => rfl, fun _ _ _ reached => reached, ?_⟩
    intro x isSlot
    obtain ⟨page, reached, rfl⟩ := Option.map_eq_some_iff.mp isSlot
    exact ⟨reached, rfl⟩
  | true =>
    have ledger := wellFormed.ledger (UserPages.none s root)
    have isSpace := books_root s root fun _ => false
    refine wp_mono (wp_walk_alloc ledger (Set.empty_subset _) (Set.mem_singleton root)
      (live_of_space isSpace) inside) ?_
      fun _ _ absurd => absurd
    rintro slot t ⟨effect, grows, isSlot⟩
    refine ⟨effect.ledger.wellFormed (live_of_space isSpace), ?_, grows, isSlot⟩
    intro v small
    rw [effect.ledger.maps root _ isSpace v small, space_pte]

/-- Slots are equal exactly for equal page numbers. -/
theorem WellFormed.slots (wellFormed : WellFormed s root) {v w : Nat} (small : v < 512 ^ 3)
    (otherSmall : w < 512 ^ 3) {x y : Slot} (first : s.table root (spine v) = some x.1)
    (firstIndex : x.2 = ix 0 v) (second : s.table root (spine w) = some y.1)
    (secondIndex : y.2 = ix 0 w) : x = y ↔ v = w := by
  constructor
  · rintro rfl
    have spines := wellFormed.separate _ _ _ (Nat.le_of_eq (spine_length v))
      (Nat.le_of_eq (spine_length w)) first second
    simp only [spine, List.cons.injEq, and_true] at spines
    exact ix_injective small otherSmall spines.1 spines.2 (firstIndex.symm.trans secondIndex)
  · rintro rfl
    exact Prod.ext (Option.some.inj (first.symm.trans second)) (firstIndex.trans secondIndex.symm)

theorem aligned_add_pages {pa : UInt64} (aligned : Aligned pa) (i : UInt64) :
    Aligned (pa + i * pgSize) := by
  rw [Aligned] at aligned ⊢
  rw [UInt64.toNat_add, UInt64.toNat_mul]
  change (pa.toNat + i.toNat * 4096 % 2 ^ 64) % 2 ^ 64 % 4096 = 0
  omega

/-- `mappages` on a table. -/
theorem WellFormed.mappages (wellFormed : WellFormed s root) {va size pa perm : UInt64}
    (aligned : Aligned va)
    (unmapped : ∀ v, vpn va ≤ v → v < vpn va + size.toNat / 4096 → s.entry root v = none) :
    wp (Vm.mappages root va size pa perm) s
      (fun r t => WellFormed t root ∧ ∃ done,
        ((r = 0 ∧ done = size.toNat / 4096) ∨ (r = -1 ∧ done < size.toNat / 4096)) ∧
        ∀ v, v < 512 ^ 3 → t.entry root v =
          if vpn va ≤ v ∧ v < vpn va + done then
            some (leafPte (pa + UInt64.ofNat (v - vpn va) * pgSize) perm)
          else s.entry root v)
      fun reason _ => (reason = .mappagesSize ∧ ¬Aligned size) ∨
        (reason = .mappagesZero ∧ size = 0) ∨
        (reason = .walk ∧ 2 ^ 38 < va.toNat + size.toNat) := by
  have ledger := wellFormed.ledger (UserPages.none s root)
  refine wp_mono (wp_mappages ledger (Set.empty_subset _) (Set.mem_singleton root)
    (books_root s root _) aligned ?_) ?_
    fun _ _ stop => stop
  · intro v first last
    rw [Phys.space, unmapped v first last]
    rfl
  · rintro r t ⟨done, effect, outcome⟩
    obtain ⟨still, entries⟩ := effect.alone
    refine ⟨still, done, outcome, ?_⟩
    intro v small
    rw [entries v small, Space.mapped]
    split_ifs with inRange
    · rw [plain_pte, if_pos (leafPte_valid _ _)]
    · rw [space_pte]

/-- `uvmunmap` on a table. -/
theorem WellFormed.uvmunmap (wellFormed : WellFormed s root) {k : Layout} {va npages : UInt64}
    {doFree : Bool} (aligned : Aligned va) (room : va.toNat + npages.toNat * 4096 ≤ 2 ^ 38)
    (mapped : ∀ v, vpn va ≤ v → v < vpn va + npages.toNat →
      ∃ pte, s.entry root v = some pte ∧ pteFlags pte ≠ pteV ∧
        (doFree = true → k.Managed (pte2pa pte)))
    (user : doFree = true →
      UserPages s root fun v => decide (vpn va ≤ v ∧ v < vpn va + npages.toNat)) :
    wp (Vm.uvmunmap k root va npages doFree) s
      (fun _ t => WellFormed t root ∧ ∀ v, v < 512 ^ 3 → t.entry root v =
        if vpn va ≤ v ∧ v < vpn va + npages.toNat then none else s.entry root v)
      fun _ _ => False := by
  have isUser : UserPages s root
      fun v => doFree && decide (vpn va ≤ v ∧ v < vpn va + npages.toNat) := by
    cases doFree with
    | false => exact UserPages.none s root
    | true => exact user rfl
  refine wp_mono (wp_uvmunmap (wellFormed.ledger isUser) (Set.empty_subset _)
    (Set.mem_singleton root) (books_root s root _)
    aligned room ?_) ?_ fun _ _ absurd => absurd
  · intro v first last
    obtain ⟨pte, entry, notPointer, managed⟩ := mapped v first last
    refine ⟨⟨pte, doFree⟩, ?_, notPointer, rfl, managed⟩
    rw [Phys.space, entry, Option.map_some, decide_eq_true ⟨first, last⟩, Bool.and_true]
  · intro _ t effect
    obtain ⟨still, entries⟩ := effect.alone
    refine ⟨still, ?_⟩
    intro v small
    rw [entries v small, Space.cleared]
    split_ifs with inRange
    · rfl
    · rw [space_pte]

/-- Page tables refine finite maps. Two walks give the same slot exactly for the same
page number. `mappages` over unmapped pages maps them in order, all of them when it
returns 0 and the first ones when it returns -1, to the pages from `pa` on with the
given flags; `uvmunmap` removes the pages of its range. No other page is concerned,
and the table stays well formed. -/
theorem page_table_refines (wellFormed : WellFormed s root) :
    (∀ va va' alloc alloc', va < maxVa → va' < maxVa →
      wp (do
          let x ← Vm.walk root va alloc
          let y ← Vm.walk root va' alloc'
          pure (x, y)) s
        (fun slots t => WellFormed t root ∧ (∀ v, v < 512 ^ 3 → t.entry root v = s.entry root v) ∧
          ∀ x y, slots.1 = some x → slots.2 = some y → (x = y ↔ vpn va = vpn va'))
        fun _ _ => False) ∧
      (∀ va size pa perm, Aligned va →
        (∀ v, vpn va ≤ v → v < vpn va + size.toNat / 4096 → s.entry root v = none) →
        wp (Vm.mappages root va size pa perm) s
          (fun r t => WellFormed t root ∧ ∃ done,
            ((r = 0 ∧ done = size.toNat / 4096) ∨ (r = -1 ∧ done < size.toNat / 4096)) ∧
            ∀ v, v < 512 ^ 3 → t.entry root v =
              if vpn va ≤ v ∧ v < vpn va + done then
                some (leafPte (pa + UInt64.ofNat (v - vpn va) * pgSize) perm)
              else s.entry root v)
          fun reason _ => (reason = .mappagesSize ∧ ¬Aligned size) ∨
            (reason = .mappagesZero ∧ size = 0) ∨
            (reason = .walk ∧ 2 ^ 38 < va.toNat + size.toNat)) ∧
      (∀ pa perm i : UInt64, Aligned pa → perm.toNat < 1024 →
        pte2pa (leafPte (pa + i * pgSize) perm) = pa + i * pgSize ∧
          pteFlags (leafPte (pa + i * pgSize) perm) = perm ||| pteV) ∧
      ∀ k va npages doFree, Aligned va → va.toNat + npages.toNat * 4096 ≤ 2 ^ 38 →
        (∀ v, vpn va ≤ v → v < vpn va + npages.toNat →
          ∃ pte, s.entry root v = some pte ∧ pteFlags pte ≠ pteV ∧
            (doFree = true → k.Managed (pte2pa pte))) →
        (doFree = true →
          UserPages s root fun v => decide (vpn va ≤ v ∧ v < vpn va + npages.toNat)) →
        wp (Vm.uvmunmap k root va npages doFree) s
          (fun _ t => WellFormed t root ∧ ∀ v, v < 512 ^ 3 → t.entry root v =
            if vpn va ≤ v ∧ v < vpn va + npages.toNat then none else s.entry root v)
          fun _ _ => False := by
  refine ⟨?_, ?_, ?_, ?_⟩
  · intro va va' alloc alloc' inside inside'
    rw [wp_bind]
    refine wp_mono (wellFormed.walk inside alloc) ?_ fun _ _ absurd => absurd
    rintro first t ⟨wellFormed₁, entries₁, _, isFirst⟩
    rw [wp_bind]
    refine wp_mono (wellFormed₁.walk inside' alloc') ?_ fun _ _ absurd => absurd
    rintro second u ⟨wellFormed₂, entries₂, grows, isSecond⟩
    refine ⟨wellFormed₂, fun v small => (entries₂ v small).trans (entries₁ v small), ?_⟩
    intro x y isX isY
    obtain ⟨reached, index⟩ := isFirst x isX
    obtain ⟨reached', index'⟩ := isSecond y isY
    exact wellFormed₂.slots (vpn_lt inside) (vpn_lt inside')
      (grows _ _ (Nat.le_of_eq (spine_length _)) reached) index reached' index'
  · exact fun va size pa perm aligned unmapped => wellFormed.mappages aligned unmapped
  · intro pa perm i aligned small
    exact ⟨leafPte_pte2pa (aligned_add_pages aligned i) small, leafPte_flags small⟩
  · exact fun k va npages doFree aligned room mapped user =>
      wellFormed.uvmunmap aligned room mapped user

end Refinement

/-- An empty table at the start of memory, and two free pages. -/
def emptyTable : Phys := ⟨fun _ => junk 0, [0x80001000, 0x80002000], []⟩

/-- Mapping page 0 uses the two free pages for the two levels below the root. -/
theorem page_table_refines_empty :
    ∃ t, Vm.mappages 0x80000000 0 4096 0x80003000 pteR emptyTable = .ok 0 t ∧
      WellFormed t 0x80000000 ∧
      t.entry 0x80000000 0 = some (leafPte 0x80003000 pteR) ∧ t.entry 0x80000000 1 = none := by
  have blank := @table_blank emptyTable 0x80000000 rfl
  have only : ∀ path page, emptyTable.table 0x80000000 path = some page →
      path = [] ∧ page = 0x80000000 := by
    intro path page reached
    rw [blank path] at reached
    split_ifs at reached with isNil
    exact ⟨isNil, (Option.some.inj reached).symm⟩
  have noEntry : ∀ v, emptyTable.entry 0x80000000 v = none := by
    intro v
    have longer : spine v ≠ [] := List.cons_ne_nil _ _
    rw [Phys.entry, blank, if_neg longer]
    rfl
  have wellFormed : WellFormed emptyTable 0x80000000 := by
    refine ⟨by decide +kernel, ?_, ?_, ?_, ?_⟩
    · have isFirst : Aligned 0x80001000 := rfl
      have isSecond : Aligned 0x80002000 := rfl
      intro page member
      rcases List.mem_cons.mp member with rfl | rest
      · exact ⟨by decide, isFirst⟩
      · rw [List.mem_singleton.mp rest]
        exact ⟨by decide, isSecond⟩
    · intro path other page _ _ first second
      rw [(only path page first).1, (only other page second).1]
    · intro path page _ reached
      have isRoot : Aligned 0x80000000 := rfl
      rw [(only path page reached).2]
      exact ⟨by decide +kernel, by decide, isRoot⟩
    · intro path page i _ _ valid
      exact absurd (junk_zero i) valid
  have known : wp (Vm.mappages 0x80000000 0 4096 0x80003000 pteR) emptyTable (fun r t => r = 0 ∧
      t.entry 0x80000000 0 = some (leafPte 0x80003000 pteR) ∧ t.entry 0x80000000 1 = none)
      fun _ _ => False := by decide +kernel
  have mapped := (page_table_refines wellFormed).2.1 0 4096 0x80003000 pteR (by decide +kernel)
    fun v _ _ => noEntry v
  obtain ⟨t, run, entries⟩ := exists_ok_eq known
  exact ⟨t, run, ((wp_ok run).mp mapped).1, entries⟩

end Xv6.Kernel.Vm
