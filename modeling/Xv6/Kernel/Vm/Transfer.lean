import Xv6.Kernel.Vm.Access

/-!
`copyout` and `copyin` byte by byte.

Owns: what `copyout` has done to memory when it has copied some bytes, what `copyin`
has delivered, and that each goes on to the first address that leads nowhere.

Does not own: strings.
-/

namespace Xv6.Kernel.Vm

open Xv6.Lib

theorem reach_piece {s : Phys} {root va : UInt64} {allowed : UInt64 → Bool} {k m j : Nat}
    (fits : (va.toNat + k) % 4096 + m ≤ 4096) (less : j < m) :
    s.reach root allowed (va + UInt64.ofNat (k + j)) = s.reach root allowed (va + UInt64.ofNat k) ∧
      (va + UInt64.ofNat (k + j)).toNat % 4096 = (va + UInt64.ofNat k).toNat % 4096 + j := by
  have low : (va + UInt64.ofNat k).toNat % 4096 + j < 4096 := by
    rw [add_ofNat_mod]
    omega
  rw [add_ofNat_add, mod_in_page low]
  exact ⟨reach_congr (vpn_in_page low), rfl⟩

/-- Consecutive addresses of an unaliased table lead to different bytes. -/
theorem Unaliased.injective {s : Phys} {root va : UInt64} (unaliased : Unaliased s root) {n : Nat}
    (good : ∀ i < n, s.target root (va + UInt64.ofNat i) ≠ none) {i j : Nat} (iLess : i < n)
    (jLess : j < n) {page : UInt64} (first : s.target root (va + UInt64.ofNat i) = some page)
    (second : s.target root (va + UInt64.ofNat j) = some page)
    (position : (va + UInt64.ofNat i).toNat % 4096 = (va + UInt64.ofNat j).toNat % 4096) :
    i = j := by
  have below : ∀ x < n, va + UInt64.ofNat x < maxVa := by
    intro x less
    obtain ⟨_, found⟩ := Option.ne_none_iff_exists'.mp (good x less)
    exact (reach_eq_some.mp found).1
  have sameNumber := unaliased.vpn_eq first second
  unfold vpn at sameNumber
  have iValue := add_below below iLess
  have jValue := add_below below jLess
  omega

/-! ### `copyout` -/

/-- The first `k` bytes of `src` are at `dstva`, and no other byte of memory has
changed. -/
structure CopiedOut (s : Phys) (root dstva : UInt64) (src : List UInt8) (k : Nat) (t : Phys) : Prop
    where
  written : ∀ i < k, ∀ page, s.target root (dstva + UInt64.ofNat i) = some page →
    t.byteAt page (dstva + UInt64.ofNat i) = src.getD i 0
  kept : ∀ page pos, pos < 4096 →
    (∀ i < k, s.target root (dstva + UInt64.ofNat i) = some page →
      (dstva + UInt64.ofNat i).toNat % 4096 ≠ pos) →
    (t.mem page).byte pos = (s.mem page).byte pos
  pages : ∀ page, (∀ i < k, s.target root (dstva + UInt64.ofNat i) ≠ some page) →
    t.mem page = s.mem page
  allocator : t.freelist = s.freelist ∧ t.refuse = s.refuse

section Copyout

variable {s t : Phys} {root dstva : UInt64} {src : List UInt8} {k : Nat}

theorem CopiedOut.refl : CopiedOut s root dstva src 0 s where
  written := fun _ below => absurd below (Nat.not_lt_zero _)
  kept := fun _ _ _ _ => rfl
  pages := fun _ _ => rfl
  allocator := ⟨rfl, rfl⟩

theorem CopiedOut.table_page (copied : CopiedOut s root dstva src k t)
    (unaliased : Unaliased s root) (path : List (Fin 512)) (page : UInt64) (short : path.length ≤ 2)
    (reached : s.table root path = some page) : t.mem page = s.mem page := by
  apply copied.pages
  intro i _ isTarget
  obtain ⟨inside, pte, isPte, isWritable, rfl⟩ := reach_eq_some.mp isTarget
  exact unaliased.apart _ pte path (vpn_lt inside) isPte
    (readable_of_writable isWritable) short reached

theorem CopiedOut.entry_eq (copied : CopiedOut s root dstva src k t) (unaliased : Unaliased s root)
    (v : Nat) : t.entry root v = s.entry root v :=
  entry_frame (copied.table_page unaliased) v

theorem CopiedOut.target_eq (copied : CopiedOut s root dstva src k t) (unaliased : Unaliased s root)
    (va : UInt64) : t.target root va = s.target root va := by
  unfold Phys.target Phys.reach
  rw [copied.entry_eq unaliased]

theorem CopiedOut.unaliased (copied : CopiedOut s root dstva src k t)
    (unaliased : Unaliased s root) :
    Unaliased t root where
  once := by
    simp only [copied.entry_eq unaliased]
    exact unaliased.once
  apart := by
    intro v pte path small isEntry isReadable short
    rw [copied.entry_eq unaliased] at isEntry
    rw [table_frame (copied.table_page unaliased) short]
    exact unaliased.apart v pte path small isEntry isReadable short

/-- Memory after a copy depends on the copied bytes only, and on each of them. -/
theorem CopiedOut.eq_iff (copied : CopiedOut s root dstva src k t)
    (good : ∀ i < k, s.target root (dstva + UInt64.ofNat i) ≠ none) {src' : List UInt8} {t' : Phys}
    (copied' : CopiedOut s root dstva src' k t') :
    t = t' ↔ ∀ i < k, src.getD i 0 = src'.getD i 0 := by
  constructor
  · rintro rfl i less
    obtain ⟨page, isTarget⟩ := Option.ne_none_iff_exists'.mp (good i less)
    rw [← copied.written i less page isTarget, copied'.written i less page isTarget]
  · intro same
    have memory : t.mem = t'.mem := by
      funext page
      apply Page.ext_byte
      intro pos low
      by_cases hit : ∃ i < k, s.target root (dstva + UInt64.ofNat i) = some page ∧
          (dstva + UInt64.ofNat i).toNat % 4096 = pos
      · obtain ⟨i, less, isTarget, rfl⟩ := hit
        exact (copied.written i less page isTarget).trans
          ((same i less).trans (copied'.written i less page isTarget).symm)
      · have missed : ∀ i < k, s.target root (dstva + UInt64.ofNat i) = some page →
            (dstva + UInt64.ofNat i).toNat % 4096 ≠ pos :=
          fun i less isTarget position => hit ⟨i, less, isTarget, position⟩
        rw [copied.kept page pos low missed, copied'.kept page pos low missed]
    cases t
    cases t'
    simp only [Phys.mk.injEq]
    exact ⟨memory, copied.allocator.1.trans copied'.allocator.1.symm,
      copied.allocator.2.trans copied'.allocator.2.symm⟩

theorem wp_copyoutPiece_target (s : Phys) (root dstva : UInt64) (src : List UInt8) (tot n : Nat) :
    wp (copyoutPiece root dstva src tot n) s
      (fun continues t =>
        (s.target root (dstva + UInt64.ofNat tot) = none ∧ continues = false ∧ t = s) ∨
        ∃ page, s.target root (dstva + UInt64.ofNat tot) = some page ∧ continues = true ∧
          t = s.setPage page ((s.mem page).write ((dstva + UInt64.ofNat tot).toNat % 4096)
            ((src.drop tot).take n)))
      fun _ _ => False := by
  generalize isDst : dstva + UInt64.ofNat tot = dst
  have rounded : s.target root dst = s.target root (pgRoundDown dst) := reach_pgRoundDown.symm
  unfold copyoutPiece
  simp only [isDst, sub_pgRoundDown_toNat, wp_ite, rounded]
  unfold Phys.target Phys.reach
  by_cases inside : pgRoundDown dst < maxVa
  · rw [if_neg (UInt64.not_le.mpr inside), if_pos inside, wp_bind,
      wp_ok (walk_lookup s root inside)]
    cases reached : s.table root (spine (vpn (pgRoundDown dst))) with
    | none => simp [Phys.entry, reached, wp_pure]
    | some low =>
      simp only [Option.map_some, load, wp_bind, wp_get, wp_pure, Phys.entry, reached,
        Option.bind_some, wp_ite, writePage, wp_modify]
      generalize s.mem low (ix 0 (vpn (pgRoundDown dst))) = pte
      by_cases refused : pte &&& pteV = 0 ∨ pte &&& pteU = 0 ∨ pte &&& pteW = 0
      · rw [if_pos refused]
        left
        rcases refused with invalid | notUser | notWritable
        · simp [invalid]
        · by_cases valid : pte &&& pteV = 0
          · simp [valid]
          · simp [valid, notUser, writable, Option.filter]
        · by_cases valid : pte &&& pteV = 0
          · simp [valid]
          · simp [valid, notWritable, writable, Option.filter]
      · rw [if_neg refused]
        simp only [not_or] at refused
        right
        refine ⟨pte2pa pte, ?_, trivial, rfl⟩
        simp [refused.1, refused.2.1, refused.2.2, writable, Option.filter]
  · rw [if_pos (UInt64.not_lt.mp inside), if_neg inside]
    exact .inl ⟨rfl, rfl, rfl⟩

theorem target_ne_none_of_piece (good : ∀ i < k, s.target root (dstva + UInt64.ofNat i) ≠ none)
    {m : Nat} (fits : (dstva.toNat + k) % 4096 + m ≤ 4096) {page : UInt64}
    (isTarget : s.target root (dstva + UInt64.ofNat k) = some page) :
    ∀ i < k + m, s.target root (dstva + UInt64.ofNat i) ≠ none := by
  intro i less
  by_cases before : i < k
  · exact good i before
  · have sameTarget := (reach_piece fits (show i - k < m by omega)).1.trans isTarget
    rw [show k + (i - k) = i by omega] at sameTarget
    exact Option.ne_none_iff_exists'.mpr ⟨page, sameTarget⟩

/-- The bytes of one more page. -/
theorem CopiedOut.piece (copied : CopiedOut s root dstva src k t) (unaliased : Unaliased s root)
    (good : ∀ i < k, s.target root (dstva + UInt64.ofNat i) ≠ none) {page : UInt64}
    (isTarget : s.target root (dstva + UInt64.ofNat k) = some page) {m : Nat}
    (positive : 0 < m) (fits : (dstva.toNat + k) % 4096 + m ≤ 4096) (inside : k + m ≤ src.length) :
    CopiedOut s root dstva src (k + m)
      (t.setPage page ((t.mem page).write ((dstva + UInt64.ofNat k).toNat % 4096)
        ((src.drop k).take m))) := by
  generalize isStart : (dstva + UInt64.ofNat k).toNat % 4096 = start
  have fitsPage : start + m ≤ 4096 := by
    rw [← isStart, add_ofNat_mod]
    exact fits
  have length : ((src.drop k).take m).length = m := by
    rw [List.length_take, List.length_drop]
    omega
  -- the addresses of this piece lie in one page
  have piece : ∀ j < m, s.target root (dstva + UInt64.ofNat (k + j)) = some page ∧
      (dstva + UInt64.ofNat (k + j)).toNat % 4096 = start + j := by
    intro j less
    obtain ⟨sameTarget, position⟩ := reach_piece fits less
    exact ⟨sameTarget.trans isTarget, position.trans (by rw [isStart])⟩
  have bytes : ∀ other pos, pos < 4096 →
      ((t.setPage page ((t.mem page).write start ((src.drop k).take m))).mem other).byte pos =
      if other = page ∧ start ≤ pos ∧ pos < start + m then src.getD (k + (pos - start)) 0
      else (t.mem other).byte pos := by
    intro other pos low
    by_cases same : other = page
    · subst same
      rw [setPage_self, Page.byte_write _ (by rw [length]; exact fitsPage) low, length]
      simp only [true_and]
      split_ifs with inPiece
      · have index : pos - start < m := by omega
        simp [List.getD_eq_getElem?_getD, List.getElem?_drop, index]
      · rfl
    · rw [setPage_other same, if_neg fun inPiece => same inPiece.1]
  refine ⟨?_, ?_, ?_, copied.allocator⟩
  · intro i less other isOther
    rw [Phys.byteAt, bytes other _ (Nat.mod_lt _ (by decide))]
    by_cases before : i < k
    · -- an earlier byte is none of this piece
      rw [if_neg, ← copied.written i before other isOther, Phys.byteAt]
      rintro ⟨rfl, atLeast, most⟩
      obtain ⟨sameTarget, position⟩ :=
        piece ((dstva + UInt64.ofNat i).toNat % 4096 - start) (by omega)
      have same := unaliased.injective (target_ne_none_of_piece good fits isTarget) less
        (by omega) isOther
        sameTarget (by omega)
      omega
    · obtain ⟨sameTarget, position⟩ := piece (i - k) (by omega)
      rw [show k + (i - k) = i by omega] at sameTarget position
      have isPage : other = page := Option.some_inj.mp (isOther.symm.trans sameTarget)
      rw [if_pos ⟨isPage, by omega, by omega⟩, position]
      congr 1
      omega
  · intro other pos low free
    rw [bytes other pos low, if_neg]
    · exact copied.kept other pos low fun i before => free i (by omega)
    · rintro ⟨rfl, atLeast, less⟩
      obtain ⟨sameTarget, position⟩ := piece (pos - start) (by omega)
      exact free (k + (pos - start)) (by omega) sameTarget (by omega)
  · intro other free
    have notPage : other ≠ page := by
      rintro rfl
      exact free k (by omega) isTarget
    rw [setPage_other notPage]
    exact copied.pages other fun i before => free i (by omega)

/-- One `copyout` after another, to the addresses behind it. -/
theorem CopiedOut.append (first : CopiedOut s root dstva src k t) (unaliased : Unaliased s root)
    {m : Nat} (good : ∀ i < k + m, s.target root (dstva + UInt64.ofNat i) ≠ none)
    {more : List UInt8} {u : Phys} (second : CopiedOut t root (dstva + UInt64.ofNat k) more m u)
    (same : ∀ i < m, more.getD i 0 = src.getD (k + i) 0) :
    CopiedOut s root dstva src (k + m) u := by
  have targets := first.target_eq unaliased
  have later : ∀ i, dstva + UInt64.ofNat k + UInt64.ofNat i = dstva + UInt64.ofNat (k + i) :=
    fun i => (add_ofNat_add dstva k i).symm
  obtain ⟨written, kept, pages, allocator⟩ := second
  simp only [later, targets] at written kept pages
  refine ⟨?_, ?_, ?_, ?_⟩
  · intro i less page isTarget
    by_cases before : i < k
    · rw [← first.written i before page isTarget, Phys.byteAt, Phys.byteAt]
      apply kept page _ (Nat.mod_lt _ (by decide))
      intro j isMore isPage position
      have sameIndex := unaliased.injective good less (by omega) isTarget isPage position.symm
      omega
    · have isLater := written (i - k) (by omega) page
      rw [show k + (i - k) = i by omega, same (i - k) (by omega),
        show k + (i - k) = i by omega] at isLater
      exact isLater isTarget
  · intro page pos low free
    rw [kept page pos low fun i isMore => free (k + i) (by omega)]
    exact first.kept page pos low fun i before => free i (by omega)
  · intro page free
    rw [pages page fun i isMore => free (k + i) (by omega)]
    exact first.pages page fun i before => free i (by omega)
  · exact ⟨allocator.1.trans first.allocator.1, allocator.2.trans first.allocator.2⟩

/-- `copyout` goes on to the first address that leads nowhere. -/
theorem wp_copyout_target (unaliased : Unaliased s root) (dstva : UInt64) (src : List UInt8) :
    wp (copyout root dstva src) s
      (fun ret t => ∃ k ≤ src.length,
        (∀ i < k, s.target root (dstva + UInt64.ofNat i) ≠ none) ∧
        (k < src.length → s.target root (dstva + UInt64.ofNat k) = none) ∧
        ret = (if k = src.length then 0 else -1) ∧ CopiedOut s root dstva src k t)
      fun _ _ => False := by
  rw [copyout, wp_bind]
  let inv : Nat → Phys → Prop := fun k t =>
    (∀ i < k, s.target root (dstva + UInt64.ofNat i) ≠ none) ∧ CopiedOut s root dstva src k t
  refine wp_mono (wp_chunkLoop inv
    (fun k t => inv k t ∧ s.target root (dstva + UInt64.ofNat k) = none) ?_ (Nat.zero_le _)
    ⟨fun _ below => absurd below (Nat.not_lt_zero _), CopiedOut.refl⟩) ?_ fun _ _ absurd => absurd
  · intro k m t less positive inside fits _ before
    obtain ⟨good, copied⟩ := before
    refine wp_mono (wp_copyoutPiece_target t root dstva src k m) ?_ fun _ _ absurd => absurd
    rintro continues u (⟨nowhere, rfl, rfl⟩ | ⟨page, isTarget, rfl, rfl⟩)
    · rw [copied.target_eq unaliased] at nowhere
      exact ⟨⟨good, copied⟩, nowhere⟩
    · rw [copied.target_eq unaliased] at isTarget
      exact ⟨target_ne_none_of_piece good fits isTarget,
        copied.piece unaliased good isTarget positive fits inside⟩
  · rintro k t (⟨rfl, good, copied⟩ | ⟨less, ⟨good, copied⟩, nowhere⟩)
    · exact ⟨src.length, Nat.le_refl _, good,
        fun less => absurd less (Nat.lt_irrefl _), rfl, copied⟩
    · exact ⟨k, Nat.le_of_lt less, good, fun _ => nowhere, rfl, copied⟩

end Copyout

/-! ### Copies to different places -/

/-- The same table, whatever user memory holds. -/
structure SameTable (s t : Phys) (root : UInt64) : Prop where
  entries : ∀ v, t.entry root v = s.entry root v
  unaliased : Unaliased t root

section Places

variable {s t : Phys} {root dstva dstva' : UInt64} {src : List UInt8}

theorem SameTable.target_eq (same : SameTable s t root) (va : UInt64) :
    t.target root va = s.target root va := by
  unfold Phys.target Phys.reach
  rw [same.entries]

/-- A copy of nothing is one to anywhere. -/
theorem CopiedOut.anywhere (copied : CopiedOut s root dstva src 0 t) (dstva' : UInt64)
    (src' : List UInt8) : CopiedOut s root dstva' src' 0 t where
  written := fun _ below => absurd below (Nat.not_lt_zero _)
  kept := fun page pos low _ => copied.kept page pos low fun _ below =>
    absurd below (Nat.not_lt_zero _)
  pages := fun page _ => copied.pages page fun _ below => absurd below (Nat.not_lt_zero _)
  allocator := copied.allocator

theorem Unaliased.va_eq (unaliased : Unaliased s root) {va vb page : UInt64}
    (first : s.target root va = some page) (second : s.target root vb = some page)
    (position : va.toNat % 4096 = vb.toNat % 4096) : va = vb := by
  have number := unaliased.vpn_eq first second
  unfold vpn at number
  apply UInt64.toNat_inj.mp
  omega

theorem exists_outside (different : dstva ≠ dstva') {n : Nat} (positive : 0 < n)
    (below : ∀ i < n, dstva + UInt64.ofNat i < maxVa)
    (below' : ∀ i < n, dstva' + UInt64.ofNat i < maxVa) :
    ∃ i < n, ∀ j < n, dstva + UInt64.ofNat j ≠ dstva' + UInt64.ofNat i := by
  have apart : dstva.toNat ≠ dstva'.toNat := fun same => different (UInt64.toNat_inj.mp same)
  have value : ∀ i < n, ∀ j < n, dstva + UInt64.ofNat j = dstva' + UInt64.ofNat i →
      dstva.toNat + j = dstva'.toNat + i := by
    intro i iLess j jLess same
    rw [← add_below below jLess, ← add_below below' iLess, same]
  by_cases lower : dstva'.toNat < dstva.toNat
  · refine ⟨0, positive, fun j less same => ?_⟩
    have := value 0 positive j less same
    omega
  · refine ⟨n - 1, by omega, fun j less same => ?_⟩
    have := value (n - 1) (by omega) j less same
    omega

/-- Copies of the same bytes to different places differ for some contents of memory. -/
theorem exists_copies_differ (unaliased : Unaliased s root) (different : dstva ≠ dstva')
    (positive : 0 < src.length)
    (good : ∀ i < src.length, s.target root (dstva + UInt64.ofNat i) ≠ none)
    (good' : ∀ i < src.length, s.target root (dstva' + UInt64.ofNat i) ≠ none) :
    ∃ t, SameTable s t root ∧ ∀ u, CopiedOut t root dstva src src.length u →
      ¬ CopiedOut t root dstva' src src.length u := by
  have below : ∀ {va : UInt64}, s.target root va ≠ none → va < maxVa := by
    intro va somewhere
    obtain ⟨_, found⟩ := Option.ne_none_iff_exists'.mp somewhere
    exact (reach_eq_some.mp found).1
  obtain ⟨i, less, outside⟩ := exists_outside different positive
    (fun i less => below (good i less)) (fun i less => below (good' i less))
  -- memory in which that address holds another byte
  obtain ⟨_, t, _, k, small, _, bad, _, changed⟩ := exists_ok_of_wp
    (wp_copyout_target unaliased (dstva' + UInt64.ofNat i) [src.getD i 0 + 1])
  obtain ⟨page, isTarget⟩ := Option.ne_none_iff_exists'.mp (good' i less)
  have one : k = 1 := by
    by_contra short
    rw [List.length_singleton] at small bad
    have absent : k = 0 := by omega
    rw [absent, add_ofNat_zero, isTarget] at bad
    exact Option.some_ne_none _ (bad Nat.one_pos)
  subst one
  have same : SameTable s t root := ⟨changed.entry_eq unaliased, changed.unaliased unaliased⟩
  have other : t.byteAt page (dstva' + UInt64.ofNat i) = src.getD i 0 + 1 := by
    have written := changed.written 0 Nat.one_pos page
    rw [add_ofNat_zero] at written
    exact written isTarget
  have here : t.target root (dstva' + UInt64.ofNat i) = some page :=
    (same.target_eq _).trans isTarget
  refine ⟨t, same, fun u first second => ?_⟩
  have kept :=
    first.kept page ((dstva' + UInt64.ofNat i).toNat % 4096) (Nat.mod_lt _ (by decide)) (by
    intro j inside leads position
    exact outside j inside (same.unaliased.va_eq leads here position))
  have written := second.written i less page here
  unfold Phys.byteAt at other written
  rw [kept, other] at written
  simp at written

end Places

/-! ### `copyin` -/

/-- The `k` bytes from a user address on. -/
def Phys.userBytes (s : Phys) (root va : UInt64) (k : Nat) : List UInt8 :=
  (List.range k).map fun i =>
    s.byteAt ((s.source root (va + UInt64.ofNat i)).getD 0) (va + UInt64.ofNat i)

section Copyin

variable {s : Phys} {root : UInt64}

theorem userBytes_append (s : Phys) (root va : UInt64) (first second : Nat) :
    s.userBytes root va (first + second) =
      s.userBytes root va first ++ s.userBytes root (va + UInt64.ofNat first) second := by
  unfold Phys.userBytes
  rw [List.range_add, List.map_append, List.map_map]
  simp only [Function.comp_def, add_ofNat_add]

theorem userBytes_piece {va page : UInt64} (found : s.source root va = some page) {n : Nat}
    (fits : va.toNat % 4096 + n ≤ 4096) :
    (List.range n).map (fun k => (s.mem page).byte ((va - pgRoundDown va).toNat + k)) =
      s.userBytes root va n := by
  apply List.map_congr_left
  intro i inside
  have low : va.toNat % 4096 + i < 4096 := by
    have := List.mem_range.mp inside
    omega
  rw [source_congr (vpn_in_page low), found, Option.getD_some, Phys.byteAt, mod_in_page low,
    sub_pgRoundDown_toNat]

theorem wp_copyinLoop (dst : Mem) (pos : Nat) (srcva len : UInt64) :
    wp (copyinLoop root dst pos srcva len) s
      (fun result t => t = s ∧ ∃ k ≤ len.toNat,
        (∀ i < k, s.source root (srcva + UInt64.ofNat i) ≠ none) ∧
        (k < len.toNat → s.source root (srcva + UInt64.ofNat k) = none) ∧
        result = (if k = len.toNat then 0 else -1, dst.copy pos (s.userBytes root srcva k)))
      fun _ _ => False := by
  generalize remaining : len.toNat = left
  induction left using Nat.strong_induction_on generalizing dst pos srcva len with
  | _ left ih =>
    unfold copyinLoop
    by_cases more : 0 < len
    · obtain ⟨fits, sum, positive, next⟩ := pieceOf_cases srcva len
      rw [if_pos more, wp_bind, wp_ok (walkaddr_source s root (pgRoundDown srcva)),
        source_congr (vpn_pgRoundDown srcva)]
      cases found : s.source root srcva with
      | none =>
        have nothing : ¬ 0 = left := by
          have := positive more
          omega
        refine ⟨rfl, 0, Nat.zero_le _, fun _ below => absurd below (Nat.not_lt_zero _), ?_, ?_⟩
        · rw [add_ofNat_zero]
          exact fun _ => found
        · simp [Phys.userBytes, nothing]
      | some page =>
        have delivered := userBytes_piece found fits
        rw [Option.getD_some, wp_ite, if_neg (source_ne_zero found)]
        simp only [readPage, wp_bind, wp_get, wp_pure, delivered]
        have smaller : (len - pieceOf srcva len).toNat < left := remaining ▸ sub_pieceOf_lt more
        refine wp_mono (ih _ smaller (dst.copy pos _) _ _ _ rfl) ?_
          fun _ _ absurd => absurd
        rintro _ t ⟨rfl, k, small, good, bad, rfl⟩
        have length : (t.userBytes root srcva (pieceOf srcva len).toNat).length =
            (pieceOf srcva len).toNat := by simp [Phys.userBytes]
        have inPiece : ∀ i < (pieceOf srcva len).toNat,
            t.source root (srcva + UInt64.ofNat i) ≠ none := by
          intro i less
          rw [source_congr (vpn_in_page (by omega)), found]
          exact Option.some_ne_none page
        by_cases last : (len - pieceOf srcva len).toNat = 0
        · have absent : k = 0 := by omega
          refine ⟨rfl, (pieceOf srcva len).toNat, by omega, inPiece, fun less => by omega, ?_⟩
          simp [absent, last, Phys.userBytes, show (pieceOf srcva len).toNat = left by omega]
        · rw [next last] at good bad ⊢
          refine ⟨rfl, (pieceOf srcva len).toNat + k, by omega, ?_, ?_, ?_⟩
          · intro i less
            by_cases early : i < (pieceOf srcva len).toNat
            · exact inPiece i early
            · have later := good (i - (pieceOf srcva len).toNat) (by omega)
              rw [← add_ofNat_add, Nat.add_sub_cancel' (Nat.le_of_not_lt early)] at later
              exact later
          · intro less
            rw [add_ofNat_add]
            exact bad (by omega)
          · rw [userBytes_append, Mem.copy_append, length]
            have all : k = (len - pieceOf srcva len).toNat ↔
                (pieceOf srcva len).toNat + k = left := by omega
            simp only [all]
    · rw [if_neg more]
      have zero : left = 0 := by
        rw [UInt64.lt_iff_toNat_lt] at more
        change ¬ 0 < len.toNat at more
        omega
      rw [zero]
      exact ⟨rfl, 0, Nat.le_refl 0, fun _ below => absurd below (Nat.not_lt_zero _),
        fun below => absurd below (Nat.not_lt_zero _), by simp [Phys.userBytes]⟩

end Copyin

/-! ### Both copies -/

theorem succeeds_iff_all {found : Nat → Option UInt64} (did : Nat → Prop) {n k : Nat} {ret : Int}
    (small : k ≤ n) (good : ∀ i < k, found i ≠ none) (bad : k < n → found k = none)
    (isRet : ret = if k = n then 0 else -1) (done : did k) :
    (ret = 0 ∨ ret = -1) ∧ (ret = 0 ↔ ∀ i < n, found i ≠ none) ∧ (ret = 0 → did n) ∧
      (ret = -1 → ∃ k < n, found k = none ∧ (∀ i < k, found i ≠ none) ∧ did k) := by
  by_cases all : k = n
  · rw [if_pos all] at isRet
    subst isRet all
    exact ⟨.inl rfl, ⟨fun _ => good, fun _ => rfl⟩, fun _ => done, fun failed => by contradiction⟩
  · have less : k < n := by omega
    rw [if_neg all] at isRet
    subst isRet
    refine ⟨.inr rfl, ⟨fun zero => by contradiction, fun every => ?_⟩, fun zero => by contradiction,
      fun _ => ⟨k, less, bad less, good, done⟩⟩
    exact absurd (bad less) (every k less)

/-- Through a table without aliased pages `copyout` and `copyin` are byte-wise
translation. They succeed if and only if every address leads somewhere; otherwise the
bytes before the first one that does not are copied. -/
theorem copies_are_bytewise {s : Phys} {root : UInt64} (unaliased : Unaliased s root) :
    (∀ (dstva : UInt64) (src : List UInt8), ∃ ret t, copyout root dstva src s = .ok ret t ∧
      (ret = 0 ∨ ret = -1) ∧
      (ret = 0 ↔ ∀ i < src.length, s.target root (dstva + UInt64.ofNat i) ≠ none) ∧
      (ret = 0 → CopiedOut s root dstva src src.length t) ∧
      (ret = -1 → ∃ k < src.length, s.target root (dstva + UInt64.ofNat k) = none ∧
        (∀ i < k, s.target root (dstva + UInt64.ofNat i) ≠ none) ∧
        CopiedOut s root dstva src k t)) ∧
    ∀ (dst : Mem) (srcva len : UInt64), ∃ ret dst',
      copyin root dst srcva len s = .ok (ret, dst') s ∧
      (ret = 0 ∨ ret = -1) ∧
      (ret = 0 ↔ ∀ i < len.toNat, s.source root (srcva + UInt64.ofNat i) ≠ none) ∧
      (ret = 0 → dst' = dst.copy 0 (s.userBytes root srcva len.toNat)) ∧
      (ret = -1 → ∃ k < len.toNat, s.source root (srcva + UInt64.ofNat k) = none ∧
        (∀ i < k, s.source root (srcva + UInt64.ofNat i) ≠ none) ∧
        dst' = dst.copy 0 (s.userBytes root srcva k)) := by
  constructor
  · intro dstva src
    obtain ⟨ret, t, run, k, small, good, bad, isRet, copied⟩ :=
      exists_ok_of_wp (wp_copyout_target unaliased dstva src)
    exact ⟨ret, t, run,
      succeeds_iff_all (CopiedOut s root dstva src · t) small good bad isRet copied⟩
  · intro dst srcva len
    have spec := @wp_copyinLoop s root dst 0 srcva len
    obtain ⟨result, t, run, isSame, k, small, good, bad, isResult⟩ := exists_ok_of_wp spec
    subst isSame isResult
    exact ⟨_, _, run, succeeds_iff_all
      (fun n => dst.copy 0 (t.userBytes root srcva k) = dst.copy 0 (t.userBytes root srcva n))
      small good bad rfl rfl⟩

/-! ### A table with one page -/

/-- A table whose only entry is that of page number 0. -/
def leafTable (pte : UInt64) : Phys where
  mem := fun page =>
    if page = 0x80000000 then Function.update (junk 0) 0 (pointer 0x80001000)
    else if page = 0x80001000 then Function.update (junk 0) 0 (pointer 0x80002000)
    else if page = 0x80002000 then Function.update (junk 0) 0 pte
    else junk 0
  freelist := []
  refuse := []

section LeafTable

variable {pte : UInt64}

theorem leafTable_child (pte : UInt64) {i : Fin 512} {page : UInt64} :
    (child ((leafTable pte).mem 0x80000000 i) = some page ↔ i = 0 ∧ page = 0x80001000) ∧
      (child ((leafTable pte).mem 0x80001000 i) = some page ↔ i = 0 ∧ page = 0x80002000) := by
  have first : child (pointer 0x80001000) = some 0x80001000 := by decide +kernel
  have second : child (pointer 0x80002000) = some 0x80002000 := by decide +kernel
  have blank : child (junk 0 i) = none := child_of_invalid (junk_zero i)
  by_cases zero : i = 0
  · subst zero
    simp [leafTable, first, second, eq_comm]
  · simp [leafTable, blank, zero]

theorem leafTable_table (pte : UInt64) {path : List (Fin 512)} (short : path.length ≤ 2)
    {page : UInt64} (reached : (leafTable pte).table 0x80000000 path = some page) :
    (path.length < 2 ∧ (page = 0x80000000 ∨ page = 0x80001000)) ∨
      (page = 0x80002000 ∧ ∀ i ∈ path, i = 0) := by
  unfold Phys.table at reached
  cases path with
  | nil => exact .inl ⟨by decide, .inl (Option.some_inj.mp reached).symm⟩
  | cons i rest =>
    rw [Radix.descend, Option.bind_eq_some_iff] at reached
    obtain ⟨middle, isMiddle, reached⟩ := reached
    obtain ⟨iZero, rfl⟩ := (leafTable_child pte).1.mp isMiddle
    cases rest with
    | nil => exact .inl ⟨Nat.one_lt_two, .inr (Option.some_inj.mp reached).symm⟩
    | cons j rest =>
      rw [Radix.descend, Option.bind_eq_some_iff] at reached
      obtain ⟨low, isLow, reached⟩ := reached
      obtain ⟨jZero, rfl⟩ := (leafTable_child pte).2.mp isLow
      have isEnd : rest = [] := by
        rw [List.length_cons, List.length_cons] at short
        exact List.length_eq_zero_iff.mp (by omega)
      subst isEnd
      refine .inr ⟨(Option.some_inj.mp reached).symm, ?_⟩
      simp [iZero, jZero]

theorem leafTable_entry {v : Nat} (small : v < 512 ^ 3) {other : UInt64}
    (isEntry : (leafTable pte).entry 0x80000000 v = some other) : v = 0 ∧ other = pte := by
  unfold Phys.entry at isEntry
  obtain ⟨low, reached, isEntry⟩ := Option.bind_eq_some_iff.mp isEntry
  rcases leafTable_table pte (Nat.le_of_eq (spine_length v)) reached with ⟨short, _⟩ | ⟨rfl, zeros⟩
  · exact absurd short (Nat.lt_irrefl 2)
  · have high : ix 2 v = 0 := zeros _ (by simp [spine])
    have middle : ix 1 v = 0 := zeros _ (by simp [spine])
    have blank := junk_zero (ix 0 v)
    by_cases bottom : ix 0 v = 0
    · have stored : (leafTable pte).mem 0x80002000 (ix 0 v) = pte := by simp [leafTable, bottom]
      rw [stored] at isEntry
      refine ⟨?_, (Option.some_inj.mp (Option.ite_none_right_eq_some.mp isEntry).2).symm⟩
      exact ix_injective small (by decide) high middle bottom
    · have stored : (leafTable pte).mem 0x80002000 (ix 0 v) = junk 0 (ix 0 v) := by
        simp [leafTable, bottom]
      rw [stored, if_neg fun valid => valid blank] at isEntry
      exact absurd isEntry (Option.some_ne_none other).symm

theorem leafTable_unaliased (outside : pte2pa pte ∉ [0x80000000, 0x80001000, 0x80002000]) :
    Unaliased (leafTable pte) 0x80000000 where
  once := by
    intro v w first second vSmall wSmall isFirst isSecond _ _ _
    rw [(leafTable_entry vSmall isFirst).1, (leafTable_entry wSmall isSecond).1]
  apart := by
    intro v other path small isEntry _ short reached
    rw [(leafTable_entry small isEntry).2] at reached
    simp only [List.mem_cons, not_or] at outside
    rcases leafTable_table pte short reached with ⟨_, isRoot | isMiddle⟩ | ⟨isLow, _⟩
    · exact outside.1 isRoot
    · exact outside.2.1 isMiddle
    · exact outside.2.2.1 isLow

end LeafTable

/-- `copyout` to the last byte of the page and the one behind it copies one byte. -/
theorem copies_are_bytewise_leaf :
    ∃ t, copyout 0x80000000 4095 [1, 2] (leafTable 0x20000C17) = .ok (-1) t ∧
      (t.mem 0x80003000).byte 4095 = 1 := by
  have unaliased : Unaliased (leafTable 0x20000C17) 0x80000000 :=
    leafTable_unaliased (by decide +kernel)
  have known : wp (copyout 0x80000000 4095 [1, 2]) (leafTable 0x20000C17)
      (fun ret t => ret = -1 ∧ (t.mem 0x80003000).byte 4095 = 1) fun _ _ => False := by
    decide +kernel
  obtain ⟨ret, t, run, _⟩ := (copies_are_bytewise unaliased).1 4095 [1, 2]
  obtain ⟨rfl, byte⟩ := (wp_ok run).mp known
  exact ⟨t, run, byte⟩

/-- A page at address 0 that user code can read, and `copyin` cannot. -/
theorem copyin_refuses_page_zero :
    Unaliased (leafTable 0x13) 0x80000000 ∧
      (∀ i < (1 : UInt64).toNat,
        (leafTable 0x13).reach 0x80000000 readable (0 + UInt64.ofNat i) ≠ none) ∧
      copyin 0x80000000 (fun _ => 0) 0 1 (leafTable 0x13) =
        .ok (-1, fun _ => 0) (leafTable 0x13) := by
  refine ⟨leafTable_unaliased (by decide +kernel), by decide +kernel, ?_⟩
  · have nowhere : (leafTable 0x13).source 0x80000000 (0 + UInt64.ofNat 0) = none := by
      decide +kernel
    have spec := @wp_copyinLoop (leafTable 0x13) 0x80000000 (fun _ => 0) 0 0 1
    obtain ⟨result, t, run, isSame, k, small, good, _, isResult⟩ := exists_ok_of_wp spec
    have absent : k = 0 := by
      by_contra present
      exact good 0 (Nat.pos_of_ne_zero present) nowhere
    subst isSame isResult absent
    exact run

end Xv6.Kernel.Vm
