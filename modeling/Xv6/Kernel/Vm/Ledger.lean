import Xv6.Kernel.Vm.Table

/-!
Who owns each page.

Owns: the places a page can be in, the ledger that puts every page in one of them,
and one lemma for each way a page moves: out of and into the free list, into a page
table as one of its pages or as a user page, and out again.

Does not own: the functions that make those moves.
-/

namespace Xv6.Kernel.Vm

open Xv6.Lib Function

/-- A mapping; an owned one is the only reference to its page. -/
structure Leaf where
  pte : UInt64
  owned : Bool
deriving DecidableEq

/-- The page a mapping owns. -/
def Leaf.page (leaf : Leaf) : Option UInt64 := if leaf.owned then some (pte2pa leaf.pte) else none

/-- What a page table maps, by page number. -/
abbrev Space := Nat → Option Leaf

/-- The page tables in use, by their root, and the pages somebody else holds. -/
structure Books where
  spaces : UInt64 → Option Space
  held : Set UInt64

/-- The page that the mapping of a page number owns. -/
def Books.owned (b : Books) (root : UInt64) (vpn : Nat) : Option UInt64 :=
  (b.spaces root).bind fun space => (space vpn).bind Leaf.page

inductive Place where
  | free
  | table (root : UInt64) (path : List (Fin 512))
  | user (root : UInt64) (vpn : Nat)
  | held
deriving DecidableEq

/-- The page is in that place. -/
def Holds (s : Phys) (b : Books) : Place → UInt64 → Prop
  | .free, page => page ∈ s.freelist
  | .table root path, page =>
    b.spaces root ≠ none ∧ path.length ≤ 2 ∧ s.table root path = some page
  | .user root vpn, page => vpn < 512 ^ 3 ∧ b.owned root vpn = some page
  | .held, page => page ∈ b.held

/-- Each page in exactly one place. -/
def Accounted (pages : Set UInt64) (s : Phys) (b : Books) : Prop :=
  ∃ owner : UInt64 → Place, ∀ place page, Holds s b place page ↔ page ∈ pages ∧ owner page = place

/-- The ledger: every page is accounted for, and the page tables map what the books
say. -/
structure Ledger (pages : Set UInt64) (s : Phys) (b : Books) : Prop where
  aligned : ∀ page ∈ pages, page ≠ 0 ∧ Aligned page
  nodup : s.freelist.Nodup
  accounted : Accounted pages s b
  maps : ∀ root space, b.spaces root = some space → ∀ vpn, vpn < 512 ^ 3 →
    s.entry root vpn = (space vpn).map Leaf.pte
  pointers : ∀ root path page i, b.spaces root ≠ none → path.length < 2 →
    s.table root path = some page → s.mem page i &&& pteV ≠ 0 →
    s.mem page i &&& (pteR ||| pteW ||| pteX) = 0

section Places

variable {pages : Set UInt64} {s t : Phys} {b b' : Books} {page : UInt64} {x y : Place}

theorem Ledger.unique (ledger : Ledger pages s b) (first : Holds s b x page)
    (second : Holds s b y page) : x = y := by
  obtain ⟨owner, accounted⟩ := ledger.accounted
  exact ((accounted x page).mp first).2.symm.trans ((accounted y page).mp second).2

theorem Ledger.isPage (ledger : Ledger pages s b) (holds : Holds s b x page) : page ∈ pages := by
  obtain ⟨owner, accounted⟩ := ledger.accounted
  exact ((accounted x page).mp holds).1

theorem Ledger.exists_place (ledger : Ledger pages s b) (isPage : page ∈ pages) :
    ∃ place, Holds s b place page := by
  obtain ⟨owner, accounted⟩ := ledger.accounted
  exact ⟨owner page, (accounted _ page).mpr ⟨isPage, rfl⟩⟩

theorem Ledger.separate (ledger : Ledger pages s b) {root : UInt64} (live : b.spaces root ≠ none) :
    Separate s root := by
  intro path other page short otherShort reached alsoReached
  have same := ledger.unique (x := .table root path) (y := .table root other)
    ⟨live, short, reached⟩ ⟨live, otherShort, alsoReached⟩
  simpa using same

/-- A page in one place is in no other. -/
theorem Ledger.only (ledger : Ledger pages s b) (holds : Holds s b x page) (different : y ≠ x) :
    ¬Holds s b y page :=
  fun also => different (ledger.unique also holds)

/-- Every page in some place, and in one only. -/
theorem Accounted.of_unique (inside : ∀ place page, Holds s b place page → page ∈ pages)
    (present : ∀ page ∈ pages, ∃ place, Holds s b place page)
    (unique : ∀ x y page, Holds s b x page → Holds s b y page → x = y) : Accounted pages s b := by
  have total : ∀ page, ∃ place, page ∈ pages → Holds s b place page := by
    intro page
    by_cases isPage : page ∈ pages
    · obtain ⟨place, holds⟩ := present page isPage
      exact ⟨place, fun _ => holds⟩
    · exact ⟨.free, fun absurd => (isPage absurd).elim⟩
  choose owner isOwner using total
  refine ⟨owner, fun place page => ⟨fun holds => ?_, ?_⟩⟩
  · have isPage := inside place page holds
    exact ⟨isPage, unique _ _ page (isOwner page isPage) holds⟩
  · rintro ⟨isPage, rfl⟩
    exact isOwner page isPage

/-- Nothing moves. -/
theorem Accounted.stay (accounted : Accounted pages s b)
    (same : ∀ place page, Holds t b' place page ↔ Holds s b place page) : Accounted pages t b' := by
  obtain ⟨owner, isOwner⟩ := accounted
  exact ⟨owner, fun place page => (same place page).trans (isOwner place page)⟩

/-- One page moves from the place `x` to the place `y`. -/
theorem Ledger.move (ledger : Ledger pages s b) (holds : Holds s b x page)
    (kept : ∀ place other, place ≠ x → place ≠ y → (Holds t b' place other ↔ Holds s b place other))
    (left : ∀ other, Holds t b' x other ↔ Holds s b x other ∧ other ≠ page)
    (come : ∀ other, Holds t b' y other ↔ Holds s b y other ∨ other = page) :
    Accounted pages t b' := by
  obtain ⟨owner, isOwner⟩ := ledger.accounted
  have was := (isOwner x page).mp holds
  refine ⟨update owner page y, fun place other => ?_⟩
  by_cases isX : place = x
  · grind
  · by_cases isY : place = y
    · grind
    · grind

end Places

/-- The memory of every page-table page is as before. -/
def SameTables (s t : Phys) (b : Books) : Prop :=
  ∀ root path page, b.spaces root ≠ none → path.length ≤ 2 → s.table root path = some page →
    t.mem page = s.mem page

namespace SameTables

variable {pages : Set UInt64} {s t : Phys} {b : Books}

theorem table (same : SameTables s t b) {root : UInt64} (live : b.spaces root ≠ none)
    {path : List (Fin 512)} (short : path.length ≤ 2) : t.table root path = s.table root path :=
  table_frame (fun other page => same root other page live) short

theorem holds_table (same : SameTables s t b) {root : UInt64} {path : List (Fin 512)}
    {page : UInt64} : Holds t b (.table root path) page ↔ Holds s b (.table root path) page := by
  constructor
  · rintro ⟨live, short, reached⟩
    exact ⟨live, short, (same.table live short).symm.trans reached⟩
  · rintro ⟨live, short, reached⟩
    exact ⟨live, short, (same.table live short).trans reached⟩

/-- Only one page's memory is different, and it is not in a table. -/
theorem of_page (ledger : Ledger pages s b) {changed : UInt64} {place : Place}
    (holds : Holds s b place changed) (noTable : ∀ root path, place ≠ .table root path)
    (others : ∀ page, page ≠ changed → t.mem page = s.mem page) : SameTables s t b := by
  intro root path page live short reached
  apply others
  rintro rfl
  exact noTable root path (ledger.unique holds ⟨live, short, reached⟩)

end SameTables

theorem Ledger.rebuild {pages : Set UInt64} {s t : Phys} {b b' : Books} (ledger : Ledger pages s b)
    (same : SameTables s t b) (spaces : b'.spaces = b.spaces) (nodup : t.freelist.Nodup)
    (accounted : Accounted pages t b') : Ledger pages t b' := by
  refine ⟨ledger.aligned, nodup, accounted, ?_, ?_⟩
  · rw [spaces]
    intro root space isSpace vpn small
    have live : b.spaces root ≠ none := isSpace ▸ Option.some_ne_none space
    rw [entry_frame (fun path page => same root path page live) vpn]
    exact ledger.maps root space isSpace vpn small
  · rw [spaces]
    intro root path page i live short reached
    rw [same.table live (Nat.le_of_lt short)] at reached
    rw [same root path page live (Nat.le_of_lt short) reached]
    exact ledger.pointers root path page i live short reached

namespace Books

/-- Somebody holds one page more. -/
def hold (b : Books) (page : UInt64) : Books := { b with held := insert page b.held }

/-- Somebody holds one page less. -/
def drop (b : Books) (page : UInt64) : Books := { b with held := b.held \ {page} }

/-- What a page table maps now. -/
def setSpace (b : Books) (root : UInt64) (space : Space) : Books :=
  { b with spaces := update b.spaces root (some space) }

theorem drop_hold {b : Books} {page : UInt64} (new : page ∉ b.held) :
    (b.hold page).drop page = b := by
  unfold hold drop
  congr
  exact Set.insert_sdiff_self_of_notMem new

theorem setSpace_self {b : Books} {root : UInt64} {space : Space} :
    (b.setSpace root space).spaces root = some space := update_self root _ _

theorem setSpace_other {b : Books} {root other : UInt64} {space : Space}
    (different : other ≠ root) :
    (b.setSpace root space).spaces other = b.spaces other := update_of_ne different _ _

theorem setSpace_ne_none {b : Books} {root other : UInt64} {space : Space}
    (live : b.spaces root ≠ none) :
    (b.setSpace root space).spaces other ≠ none ↔ b.spaces other ≠ none := by
  by_cases same : other = root
  · subst same
    rw [setSpace_self]
    exact ⟨fun _ => live, fun _ => Option.some_ne_none space⟩
  · rw [setSpace_other same]

theorem setSpace_same {b : Books} {root : UInt64} {space : Space}
    (isSpace : b.spaces root = some space) :
    b.setSpace root space = b := by
  unfold setSpace
  rw [← isSpace, update_eq_self]

theorem setSpace_setSpace {b : Books} {root : UInt64} {first second : Space} :
    (b.setSpace root first).setSpace root second = b.setSpace root second := by
  unfold setSpace
  rw [update_idem]

end Books

section Moves

variable {pages : Set UInt64} {s : Phys} {b : Books} {page : UInt64}

/-- `kalloc` had nothing to give. -/
theorem Ledger.without (ledger : Ledger pages s b) : Ledger pages s.without b :=
  ⟨ledger.aligned, ledger.nodup, ledger.accounted, ledger.maps, ledger.pointers⟩

/-- `kalloc` gave a page. -/
theorem Ledger.gave (ledger : Ledger pages s b) {rest : List UInt64}
    (free : s.freelist = page :: rest) :
    Ledger pages (s.gave page rest) (b.hold page) ∧ page ∉ b.held ∧ page ≠ 0 := by
  have isFree : Holds s b .free page := by
    change page ∈ s.freelist
    rw [free]
    exact List.mem_cons_self
  have isPage := ledger.isPage isFree
  have nodup := ledger.nodup
  rw [free, List.nodup_cons] at nodup
  have notHeld : page ∉ b.held := by
    intro isHeld
    have same := ledger.unique isFree (y := .held) isHeld
    contradiction
  have same : SameTables s (s.gave page rest) b := by
    apply SameTables.of_page ledger isFree (by simp)
    intro other different
    exact update_of_ne different _ _
  refine ⟨?_, notHeld, (ledger.aligned page isPage).1⟩
  refine ledger.rebuild same rfl nodup.2 ?_
  apply ledger.move isFree (y := .held)
  · intro place other notFree notHeld
    cases place with
    | free => exact absurd rfl notFree
    | table root path => exact same.holds_table
    | user root vpn => exact Iff.rfl
    | held => exact absurd rfl notHeld
  · intro other
    change other ∈ rest ↔ other ∈ s.freelist ∧ _
    rw [free, List.mem_cons]
    grind
  · exact fun other => Set.mem_insert_iff.trans or_comm

/-- `kfree` of a page somebody holds. -/
theorem Ledger.freed (ledger : Ledger pages s b) (isHeld : page ∈ b.held) :
    Ledger pages (s.freed page) (b.drop page) := by
  have holds : Holds s b .held page := isHeld
  have notFree : page ∉ s.freelist := ledger.only holds (y := .free) (by simp)
  have same : SameTables s (s.freed page) b := by
    apply SameTables.of_page ledger holds (by simp)
    intro other different
    exact update_of_ne different _ _
  refine ledger.rebuild same rfl (List.nodup_cons.mpr ⟨notFree, ledger.nodup⟩) ?_
  apply ledger.move holds (y := .free)
  · intro place other notHeld notFree
    cases place with
    | free => exact absurd rfl notFree
    | table root path => exact same.holds_table
    | user root vpn => exact Iff.rfl
    | held => exact absurd rfl notHeld
  · exact fun other => Iff.rfl
  · exact fun other => List.mem_cons.trans or_comm

/-- New contents of a page that is not in a table. -/
theorem Ledger.write (ledger : Ledger pages s b) {place : Place} (holds : Holds s b place page)
    (noTable : ∀ root path, place ≠ .table root path) (content : Page) :
    Ledger pages (s.setPage page content) b := by
  have same : SameTables s (s.setPage page content) b := by
    apply SameTables.of_page ledger holds noTable
    intro other different
    exact update_of_ne different _ _
  refine ledger.rebuild same rfl ledger.nodup (ledger.accounted.stay ?_)
  intro place other
  cases place with
  | free | user root vpn | held => exact Iff.rfl
  | table root path => exact same.holds_table

end Moves

section Tables

variable {pages : Set UInt64} {s t : Phys} {b : Books} {root : UInt64} {space : Space} {vpn : Nat}

theorem live_of_space (isSpace : b.spaces root = some space) : b.spaces root ≠ none :=
  isSpace ▸ Option.some_ne_none space

theorem Ledger.other_root (ledger : Ledger pages s b) {other changed : UInt64} {place : Place}
    (holds : Holds s b place changed) (different : ∀ path, place ≠ .table other path)
    (live : b.spaces other ≠ none) {path : List (Fin 512)} {page : UInt64} (short : path.length ≤ 2)
    (reached : s.table other path = some page) : page ≠ changed := by
  rintro rfl
  exact different path (ledger.unique holds ⟨live, short, reached⟩)

/-- A held page becomes a page of the table, below entry `i` of another one. -/
theorem Ledger.graft (ledger : Ledger pages s b) {page fresh : UInt64} {spot : List (Fin 512)}
    {i : Fin 512} (live : b.spaces root ≠ none) (short : spot.length < 2)
    (reached : s.table root spot = some page) (vacant : s.mem page i &&& pteV = 0)
    (isHeld : fresh ∈ b.held) :
    Ledger pages (s.grafted page i fresh) (b.drop fresh) := by
  have holds : Holds s b .held fresh := isHeld
  have parent : Holds s b (.table root spot) page := ⟨live, Nat.le_of_lt short, reached⟩
  have aligned := (ledger.aligned fresh (ledger.isPage holds)).2
  have separate := ledger.separate live
  have unreached : ∀ path, path.length ≤ 2 → s.table root path ≠ some fresh := by
    intro path isShort isFresh
    exact ledger.only holds (y := .table root path) (by simp) ⟨live, isShort, isFresh⟩
  have others : ∀ other, b.spaces other ≠ none → other ≠ root → ∀ path page', path.length ≤ 2 →
      s.table other path = some page' →
      (s.grafted page i fresh).mem page' = s.mem page' := by
    intro other otherLive different path page' isShort isPage'
    have notParent :=
      ledger.other_root parent (by simp [Ne.symm different]) otherLive isShort isPage'
    have notFresh := ledger.other_root holds (by simp) otherLive isShort isPage'
    exact grafted_other notParent notFresh
  have tables : ∀ other, b.spaces other ≠ none → ∀ path, path.length ≤ 2 →
      (s.grafted page i fresh).table other path =
        if other = root ∧ path = spot ++ [i] then some fresh else s.table other path := by
    intro other otherLive path isShort
    by_cases same : other = root
    · subst same
      rw [table_graft separate short reached vacant unreached aligned isShort]
      simp only [true_and]
    · rw [if_neg fun both => same both.1]
      exact table_frame (others other otherLive same) isShort
  have newSpot : (spot ++ [i]).length ≤ 2 := by
    rw [List.length_append]
    exact short
  refine ⟨ledger.aligned, ledger.nodup, ?_, ?_, ?_⟩
  · have grows (other : UInt64) (path : List (Fin 512)) (page' : UInt64) :
        Holds (s.grafted page i fresh) (b.drop fresh) (.table other path) page' ↔
          Holds s b (.table other path) page' ∨ (other = root ∧ path = spot ++ [i]) ∧
            page' = fresh := by
      change (_ ∧ _ ∧ _) ↔ (_ ∧ _ ∧ _) ∨ _
      have vacantSpot : s.table root (spot ++ [i]) = none := by
        rw [Phys.table] at reached
        rw [Phys.table, Radix.descend_snoc, reached, Option.bind_some, child_of_invalid vacant]
      constructor
      · rintro ⟨isLive, isShort, isPage'⟩
        rw [tables other isLive path isShort] at isPage'
        split_ifs at isPage' with here
        · exact .inr ⟨here, (Option.some.inj isPage').symm⟩
        · exact .inl ⟨isLive, isShort, isPage'⟩
      · rintro (⟨isLive, isShort, isPage'⟩ | ⟨⟨rfl, rfl⟩, rfl⟩)
        · refine ⟨isLive, isShort, ?_⟩
          rw [tables other isLive path isShort, if_neg]
          · exact isPage'
          · rintro ⟨rfl, rfl⟩
            cases vacantSpot.symm.trans isPage'
        · refine ⟨live, newSpot, ?_⟩
          rw [tables _ live _ newSpot, if_pos ⟨rfl, rfl⟩]
    apply ledger.move holds (y := .table root (spot ++ [i]))
    · intro place other notHeld notHere
      cases place with
      | free | user root' v => exact Iff.rfl
      | table root' path =>
        refine (grows root' path other).trans (or_iff_left ?_)
        rintro ⟨⟨rfl, rfl⟩, _⟩
        exact notHere rfl
      | held => exact absurd rfl notHeld
    · exact fun other => Iff.rfl
    · exact fun other => (grows _ _ other).trans (or_congr_right (and_iff_right ⟨rfl, rfl⟩))
  · intro other otherSpace isOther v small
    rw [← ledger.maps other otherSpace isOther v small]
    by_cases same : other = root
    · subst same
      exact entry_graft separate short reached vacant unreached aligned v
    · exact entry_frame (others other (live_of_space isOther) same) v
  · intro other path page' j otherLive isShort isPage' valid
    rw [tables other otherLive path (Nat.le_of_lt isShort)] at isPage'
    split_ifs at isPage' with here
    · -- the new page is blank
      obtain rfl := Option.some.inj isPage'
      have differs : fresh ≠ page := ledger.other_root holds (by simp) live (Nat.le_of_lt short)
        reached |>.symm
      rw [grafted_fresh differs.symm] at valid
      exact absurd (junk_zero j) valid
    · have notFresh := ledger.other_root holds (by simp) otherLive (Nat.le_of_lt isShort) isPage'
      by_cases atEntry : page' = page ∧ j = i
      · obtain ⟨rfl, rfl⟩ := atEntry
        rw [Phys.grafted, put_self]
        exact pointer_no_leaf fresh
      · rw [Phys.grafted, put_other atEntry, setPage_other notFresh] at valid ⊢
        exact ledger.pointers other path page' j otherLive isShort isPage' valid

/-- The mapping an entry makes; nobody's page yet. -/
def plain (pte : UInt64) : Option Leaf := if pte &&& pteV ≠ 0 then some ⟨pte, false⟩ else none

theorem plain_pte (pte : UInt64) :
    (plain pte).map Leaf.pte = if pte &&& pteV ≠ 0 then some pte else none := by
  unfold plain
  split_ifs <;> rfl

theorem plain_page (pte : UInt64) : (plain pte).bind Leaf.page = none := by
  unfold plain
  split_ifs <;> rfl

theorem Books.owned_setSpace (b : Books) (root : UInt64) (space : Space)
    (other : UInt64) (v : Nat) :
    (b.setSpace root space).owned other v =
      if other = root then (space v).bind Leaf.page else b.owned other v := by
  unfold Books.owned
  by_cases same : other = root
  · subst same
    rw [if_pos rfl, Books.setSpace_self, Option.bind_some]
  · rw [if_neg same, Books.setSpace_other same]

theorem Books.owned_of_space (isSpace : b.spaces root = some space) (v : Nat) :
    b.owned root v = (space v).bind Leaf.page := by
  unfold Books.owned
  rw [isSpace, Option.bind_some]

theorem Books.owned_update {a : Books} (isSpace : b.spaces root = some space)
    (spaces : a.spaces = b.spaces) (leaf : Option Leaf) (other : UInt64) (v : Nat) :
    (a.setSpace root (update space vpn leaf)).owned other v =
      if other = root ∧ v = vpn then leaf.bind Leaf.page else b.owned other v := by
  rw [Books.owned_setSpace]
  by_cases isRoot : other = root
  · subst isRoot
    rw [if_pos rfl, Books.owned_of_space isSpace]
    by_cases here : v = vpn
    · rw [if_pos ⟨rfl, here⟩, here, update_self]
    · rw [if_neg fun both => here both.2, update_of_ne here]
  · rw [if_neg isRoot, if_neg fun both => isRoot both.1, Books.owned, spaces, Books.owned]

/-- A store into an entry whose page nobody counts on. -/
theorem Ledger.setLeaf (ledger : Ledger pages s b) {low : UInt64}
    (isSpace : b.spaces root = some space)
    (small : vpn < 512 ^ 3) (reached : s.table root (spine vpn) = some low)
    (unowned : (space vpn).bind Leaf.page = none) (pte : UInt64) :
    Ledger pages (s.put (low, ix 0 vpn) pte)
      (b.setSpace root (update space vpn (plain pte))) := by
  have live := live_of_space isSpace
  have separate := ledger.separate live
  have parent : Holds s b (.table root (spine vpn)) low :=
    ⟨live, Nat.le_of_eq (spine_length vpn), reached⟩
  have others : ∀ other, b.spaces other ≠ none → other ≠ root → ∀ path page, path.length ≤ 2 →
      s.table other path = some page → (s.put (low, ix 0 vpn) pte).mem page = s.mem page := by
    intro other otherLive different path page short isPage
    apply put_other_page
    exact ledger.other_root parent (by simp [Ne.symm different]) otherLive short isPage
  have tables : ∀ other, b.spaces other ≠ none → ∀ path, path.length ≤ 2 →
      (s.put (low, ix 0 vpn) pte).table other path = s.table other path := by
    intro other otherLive path short
    by_cases same : other = root
    · subst same
      exact table_put separate reached short
    · exact table_frame (others other otherLive same) short
  refine ⟨ledger.aligned, ledger.nodup, ?_, ?_, ?_⟩
  · apply ledger.accounted.stay
    intro place page
    cases place with
    | free => exact Iff.rfl
    | table other path =>
      change (_ ∧ _ ∧ _) ↔ (_ ∧ _ ∧ _)
      rw [Books.setSpace_ne_none live]
      refine and_congr_right fun otherLive => and_congr_right fun short => ?_
      rw [tables other otherLive path short]
    | user other v =>
      refine and_congr_right fun _ => ?_
      rw [Books.owned_update isSpace rfl]
      split_ifs with here
      · rw [here.1, here.2, plain_page, Books.owned_of_space isSpace, unowned]
      · rfl
    | held => exact Iff.rfl
  · intro other otherSpace isOther v vSmall
    by_cases same : other = root
    · subst same
      rw [Books.setSpace_self] at isOther
      obtain rfl := Option.some.inj isOther
      rw [entry_put separate reached small vSmall, ledger.maps other space isSpace v vSmall]
      by_cases here : v = vpn
      · rw [if_pos here, here, update_self, plain_pte]
      · rw [if_neg here, update_of_ne here]
    · rw [Books.setSpace_other same] at isOther
      rw [entry_frame (others other (live_of_space isOther) same) v]
      exact ledger.maps other otherSpace isOther v vSmall
  · intro other path page i otherLive short isPage
    rw [Books.setSpace_ne_none live] at otherLive
    rw [tables other otherLive path (Nat.le_of_lt short)] at isPage
    have notLow : page ≠ low := by
      rintro rfl
      have same :=
        ledger.unique parent (y := .table other path) ⟨otherLive, Nat.le_of_lt short, isPage⟩
      simp only [Place.table.injEq] at same
      rw [← same.2, spine_length] at short
      omega
    rw [put_other_page notLow]
    exact ledger.pointers other path page i otherLive short isPage

theorem Ledger.rebook (ledger : Ledger pages s b) {b₁ : Books} {space' : Space}
    (isSpace : b.spaces root = some space) (spaces : b₁.spaces = b.spaces)
    (same : ∀ v, (space' v).map Leaf.pte = (space v).map Leaf.pte)
    (accounted : Accounted pages s (b₁.setSpace root space')) :
    Ledger pages s (b₁.setSpace root space') := by
  have live : b₁.spaces root ≠ none := spaces ▸ live_of_space isSpace
  refine ⟨ledger.aligned, ledger.nodup, accounted, ?_, ?_⟩
  · intro other otherSpace isOther v vSmall
    by_cases isRoot : other = root
    · subst isRoot
      rw [Books.setSpace_self] at isOther
      obtain rfl := Option.some.inj isOther
      rw [ledger.maps other space isSpace v vSmall, same v]
    · rw [Books.setSpace_other isRoot, spaces] at isOther
      exact ledger.maps other otherSpace isOther v vSmall
  · intro other path page i otherLive
    rw [Books.setSpace_ne_none live, spaces] at otherLive
    exact ledger.pointers other path page i otherLive

theorem update_pte {pte : UInt64} {first second : Bool}
    (isLeaf : space vpn = some ⟨pte, first⟩) (v : Nat) :
    (update space vpn (some ⟨pte, second⟩) v).map Leaf.pte = (space v).map Leaf.pte := by
  by_cases here : v = vpn
  · rw [here, update_self, isLeaf]
    rfl
  · rw [update_of_ne here]

theorem holds_setSpace {b₁ : Books} {leaf : Option Leaf} {place : Place} {page : UInt64}
    (isSpace : b.spaces root = some space) (spaces : b₁.spaces = b.spaces) (notHeld : place ≠ .held)
    (notUser : place ≠ .user root vpn) :
    Holds s (b₁.setSpace root (update space vpn leaf)) place page ↔ Holds s b place page := by
  cases place with
  | free => exact Iff.rfl
  | table other path =>
    refine and_congr_left fun _ => ?_
    rw [Books.setSpace_ne_none (spaces ▸ live_of_space isSpace), spaces]
  | user other v =>
    refine and_congr_right fun _ => ?_
    rw [Books.owned_update isSpace spaces, if_neg]
    rintro ⟨rfl, rfl⟩
    exact notUser rfl
  | held => exact absurd rfl notHeld

/-- The page of a mapping passes from its holder to the page table. -/
theorem Ledger.own (ledger : Ledger pages s b) {pte : UInt64} (isSpace : b.spaces root = some space)
    (small : vpn < 512 ^ 3) (isLeaf : space vpn = some ⟨pte, false⟩)
    (isHeld : pte2pa pte ∈ b.held) :
    Ledger pages s ((b.drop (pte2pa pte)).setSpace root
      (update space vpn (some ⟨pte, true⟩))) := by
  have holds : Holds s b .held (pte2pa pte) := isHeld
  refine ledger.rebook isSpace rfl (update_pte isLeaf) ?_
  apply ledger.move holds (y := .user root vpn)
  · exact fun place page => holds_setSpace isSpace rfl
  · exact fun page => Iff.rfl
  · intro page
    change (_ ∧ _) ↔ (_ ∧ _) ∨ _
    rw [Books.owned_update (a := b.drop _) isSpace rfl, if_pos ⟨rfl, rfl⟩,
      Books.owned_of_space isSpace, isLeaf]
    simp only [small, Leaf.page, Option.bind_some]
    grind

/-- The page of a mapping passes from the page table to a holder. -/
theorem Ledger.disown (ledger : Ledger pages s b) {pte : UInt64}
    (isSpace : b.spaces root = some space)
    (small : vpn < 512 ^ 3) (isLeaf : space vpn = some ⟨pte, true⟩) :
    Ledger pages s ((b.hold (pte2pa pte)).setSpace root
      (update space vpn (some ⟨pte, false⟩))) ∧ pte2pa pte ∉ b.held := by
  have before : b.owned root vpn = some (pte2pa pte) := by
    rw [Books.owned_of_space isSpace, isLeaf]
    rfl
  have holds : Holds s b (.user root vpn) (pte2pa pte) := ⟨small, before⟩
  refine ⟨?_, ledger.only holds (y := .held) (by simp)⟩
  refine ledger.rebook isSpace rfl (update_pte isLeaf) ?_
  apply ledger.move holds (y := .held)
  · exact fun place page notUser notHeld => holds_setSpace isSpace rfl notHeld notUser
  · intro page
    change (_ ∧ _) ↔ (_ ∧ _) ∧ _
    rw [Books.owned_update (a := b.hold _) isSpace rfl, if_pos ⟨rfl, rfl⟩, before]
    simp only [Option.bind_some, Leaf.page, Option.some.injEq]
    grind
  · exact fun page => Set.mem_insert_iff.trans or_comm

/-- Below a blank page there is nothing. -/
theorem table_blank (blank : s.mem root = junk 0) (path : List (Fin 512)) :
    s.table root path = if path = [] then some root else none := by
  cases path with
  | nil => rfl
  | cons i path =>
    rw [Phys.table, Radix.descend, blank, child_of_invalid (junk_zero i),
      if_neg (List.cons_ne_nil i path)]
    rfl

/-- A blank page that somebody holds becomes a page table. -/
theorem Ledger.newRoot (ledger : Ledger pages s b) (isHeld : root ∈ b.held)
    (blank : s.mem root = junk 0) :
    Ledger pages s ((b.drop root).setSpace root fun _ => none) ∧ b.spaces root = none := by
  have holds : Holds s b .held root := isHeld
  have notRoot : b.spaces root = none := by
    by_contra live
    exact ledger.only holds (y := .table root []) (by simp) ⟨live, Nat.zero_le 2, rfl⟩
  have spaces : ∀ other, other ≠ root → ((b.drop root).setSpace root fun _ => none).spaces other =
      b.spaces other := fun other different => Books.setSpace_other different
  have notBelow : ∀ vpn, s.table root (spine vpn) = none := by
    intro vpn
    rw [table_blank blank, if_neg]
    exact List.cons_ne_nil _ _
  refine ⟨⟨ledger.aligned, ledger.nodup, ?_, ?_, ?_⟩, notRoot⟩
  · have grows (other : UInt64) (path : List (Fin 512)) (page : UInt64) :
        Holds s ((b.drop root).setSpace root fun _ => none) (.table other path) page ↔
          Holds s b (.table other path) page ∨ (other = root ∧ path = []) ∧ page = root := by
      change (_ ∧ _ ∧ _) ↔ (_ ∧ _ ∧ _) ∨ _
      by_cases same : other = root
      · subst same
        rw [Books.setSpace_self, table_blank blank, notRoot]
        grind
      · rw [spaces other same]
        simp [same]
    apply ledger.move holds (y := .table root [])
    · intro place page notHeld notHere
      cases place with
      | free => exact Iff.rfl
      | table other path =>
        refine (grows other path page).trans (or_iff_left ?_)
        rintro ⟨⟨rfl, rfl⟩, _⟩
        exact notHere rfl
      | user other v =>
        refine and_congr_right fun _ => ?_
        rw [Books.owned_setSpace]
        split_ifs with same
        · rw [same, Books.owned, notRoot]
          rfl
        · rfl
      | held => exact absurd rfl notHeld
    · exact fun page => Iff.rfl
    · exact fun page => (grows _ _ page).trans (or_congr_right (and_iff_right ⟨rfl, rfl⟩))
  · intro other otherSpace isOther v vSmall
    by_cases same : other = root
    · subst same
      rw [Books.setSpace_self] at isOther
      obtain rfl := Option.some.inj isOther
      rw [Phys.entry, notBelow v]
      rfl
    · rw [spaces other same] at isOther
      exact ledger.maps other otherSpace isOther v vSmall
  · intro other path page i live short reached valid
    by_cases same : other = root
    · subst same
      rw [table_blank blank] at reached
      split_ifs at reached
      rw [← Option.some.inj reached, blank] at valid
      exact absurd (junk_zero i) valid
    · rw [spaces other same] at live
      exact ledger.pointers other path page i live short reached valid

end Tables

end Xv6.Kernel.Vm
