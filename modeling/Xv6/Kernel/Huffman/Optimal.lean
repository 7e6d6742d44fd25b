import Xv6.Kernel.Huffman.Proper
import Xv6.Lib.OptimalTree

/-!
The tree that `build_tree` leaves has least weighted path length.

Owns: the tree read off the node array, its leaves and its weighted path length in
terms of the array, and the merge loop as a merging of two smallest weights in every
round.

Does not own: the order of the heap, or the optimality of such a merging.
-/

namespace Xv6.Kernel.Huffman

open Xv6.Lib

/-! ### The tree of the node array -/

/-- The tree below node `p`; a leaf is labelled by its index in the array. -/
def CodeTree.shape (t : CodeTree) (p : Nat) (inside : p < t.size) : FullTree Nat :=
  if inner : t.IsInner p then
    .node (t.shape (t.left p) ((t.below p inside inner).1.trans inside))
      (t.shape (t.right p) ((t.below p inside inner).2.1.trans inside))
  else .leaf p
termination_by p
decreasing_by
  · exact (t.below p inside inner).1
  · exact (t.below p inside inner).2.1

/-- The tree below the root. -/
def CodeTree.fullTree (t : CodeTree) : FullTree Nat := t.shape t.root t.root_lt

/-- The frequency of a node, which is never negative. -/
def Static.mass (st : Static) (p : Nat) : Nat := (st.weight p).toNat

/-! ### Sums over the node array -/

section Sums

variable {freq : Nat → Int32} {leaves : List Nat} {st : Static} {M : Type*}

theorem sum_map_children [AddCommMonoid M] (st : Static) (first : Nat) (f : Nat → M) :
    ((st.children first).map f).sum =
      ∑ p ∈ Finset.Ico first st.treeSize, (f (st.leftIndex p) + f (st.rightIndex p)) := by
  rw [Static.children]
  induction Finset.Ico first st.treeSize using Finset.induction_on with
  | empty => simp
  | insert p rest new ih =>
    rw [Finset.sum_insert new, Finset.sum_insert new, Multiset.map_add, Multiset.sum_add,
      ih]
    simp

theorem Forest.root_eq_sum [AddCancelCommMonoid M] (forest : Forest freq leaves st)
    (single : st.heapSize = 1) (nonempty : 0 < leaves.length) (f g : Nat → M)
    (leaf : ∀ p < leaves.length, f p = g p)
    (inner : ∀ p, leaves.length ≤ p → p < st.treeSize →
      f p = f (st.leftIndex p) + f (st.rightIndex p) + g p) :
    f (st.treeSize - 1) = ∑ p ∈ Finset.range st.treeSize, g p := by
  have first := forest.leavesFirst
  have last : st.treeSize = st.treeSize - 1 + 1 := by omega
  -- all nodes but the root are the children of inner nodes, each once
  have children : ∑ p ∈ Finset.range (st.treeSize - 1), f p =
      ∑ p ∈ Finset.Ico leaves.length st.treeSize, (f (st.leftIndex p) + f (st.rightIndex p)) := by
    rw [← sum_map_children, forest.children_of_single single]
    rfl
  have whole : ∑ p ∈ Finset.range st.treeSize, f p =
      ∑ p ∈ Finset.range (st.treeSize - 1), f p + f (st.treeSize - 1) := by
    conv_lhs => rw [last]
    exact Finset.sum_range_succ f _
  have split : ∑ p ∈ Finset.range st.treeSize, f p =
      ∑ p ∈ Finset.range st.treeSize, g p +
        ∑ p ∈ Finset.Ico leaves.length st.treeSize, (f (st.leftIndex p) + f (st.rightIndex p)) := by
    rw [← Finset.sum_range_add_sum_Ico f first, ← Finset.sum_range_add_sum_Ico g first, add_assoc,
      ← Finset.sum_add_distrib]
    congr 1
    · exact Finset.sum_congr rfl fun p inside => leaf p (Finset.mem_range.mp inside)
    · refine Finset.sum_congr rfl fun p inside => ?_
      rw [Finset.mem_Ico] at inside
      rw [inner p inside.1 inside.2, add_comm]
  rw [children, split, add_comm] at whole
  exact (add_left_cancel whole).symm

end Sums

section Shape

variable (st : Static) {bytes : List UInt8} (nonempty : bytes ≠ []) (short : bytes.length < 2 ^ 31)

theorem builtTree_shape_leaf {p : Nat} (isLeaf : p < (symbols bytes).length)
    (inside : p < (builtTree st bytes nonempty short).size) :
    (builtTree st bytes nonempty short).shape p inside = .leaf p := by
  rw [CodeTree.shape, dif_neg]
  rw [builtTree_inner_iff st nonempty short inside]
  omega

theorem builtTree_shape_inner {p : Nat} (inner : (symbols bytes).length ≤ p)
    (inside : p < (builtTree st bytes nonempty short).size) :
    ∃ leftInside rightInside, (builtTree st bytes nonempty short).shape p inside =
      .node ((builtTree st bytes nonempty short).shape
        ((buildTree st bytes).leftIndex p) leftInside)
        ((builtTree st bytes nonempty short).shape ((buildTree st bytes).rightIndex p)
          rightInside) := by
  have isInner := (builtTree_inner_iff st nonempty short inside).mpr inner
  obtain ⟨left, right, -⟩ := (buildTree_forest st nonempty short).1.inner p inner inside
  refine ⟨left.trans inside, right.trans inside, ?_⟩
  rw [CodeTree.shape, dif_pos isInner]
  rfl

theorem builtTree_shape_total (p : Nat) (inside : p < (builtTree st bytes nonempty short).size) :
    ((builtTree st bytes nonempty short).shape p inside).total (buildTree st bytes).mass =
      (buildTree st bytes).mass p := by
  obtain ⟨forest, -⟩ := buildTree_forest st nonempty short
  have weighted := buildTree_weighted st short
  induction p using Nat.strong_induction_on with
  | _ p ih =>
    by_cases isLeaf : p < (symbols bytes).length
    · rw [builtTree_shape_leaf st nonempty short isLeaf, FullTree.total_leaf]
    have inner := Nat.le_of_not_lt isLeaf
    obtain ⟨leftInside, rightInside, isNode⟩ :=
      builtTree_shape_inner st nonempty short inner inside
    obtain ⟨left, right, -⟩ := forest.inner p inner inside
    have sum := forest.weight_inner weighted.positive inner inside
    have leftPositive := weighted.positive _ leftInside
    have rightPositive := weighted.positive _ rightInside
    rw [isNode, FullTree.total_node, ih _ left leftInside,
      ih _ right rightInside, Static.mass, Static.mass, Static.mass, sum]
    omega

theorem builtTree_value {M : Type*} [AddCancelCommMonoid M] (value : FullTree Nat → M)
    (share : Nat → M) (leaf : ∀ p < (symbols bytes).length, value (.leaf p) = share p)
    (inner : ∀ p left right, (symbols bytes).length ≤ p →
      left.total (buildTree st bytes).mass + right.total (buildTree st bytes).mass =
        (buildTree st bytes).mass p →
      value (.node left right) = value left + value right + share p) :
    value (builtTree st bytes nonempty short).fullTree =
      ∑ p ∈ Finset.range (symbols bytes).length, share p +
        ∑ p ∈ Finset.Ico (symbols bytes).length (buildTree st bytes).treeSize, share p := by
  obtain ⟨forest, single⟩ := buildTree_forest st nonempty short
  have rootSum := forest.root_eq_sum single (symbols_pos nonempty)
    (fun p => if inside : p < (builtTree st bytes nonempty short).size then
      value ((builtTree st bytes nonempty short).shape p inside) else 0) share
    (fun p isLeaf => by
      have inside : p < (builtTree st bytes nonempty short).size :=
        isLeaf.trans_le forest.leavesFirst
      simp only [dif_pos inside, builtTree_shape_leaf st nonempty short isLeaf]
      exact leaf p isLeaf)
    (fun p low inside => by
      have size : p < (builtTree st bytes nonempty short).size := inside
      obtain ⟨leftInside, rightInside, isNode⟩ :=
        builtTree_shape_inner st nonempty short low inside
      have whole := builtTree_shape_total st nonempty short p size
      rw [isNode, FullTree.total_node] at whole
      simp only [dif_pos size, dif_pos leftInside, dif_pos rightInside, isNode]
      exact inner p _ _ low whole)
  rw [Finset.sum_range_add_sum_Ico _ forest.leavesFirst, ← rootSum]
  have rootInside : (buildTree st bytes).treeSize - 1 < (builtTree st bytes nonempty short).size :=
    (builtTree st bytes nonempty short).root_lt
  rw [dif_pos rootInside]
  rfl

theorem builtTree_leaves :
    (builtTree st bytes nonempty short).fullTree.leaves =
      Multiset.range (symbols bytes).length := by
  rw [builtTree_value st nonempty short FullTree.leaves
    (fun p => if p < (symbols bytes).length then {p} else 0)
    (fun p isLeaf => (if_pos isLeaf).symm)
    (fun p left right low _ => by
      rw [if_neg (Nat.not_lt.mpr low), add_zero]
      rfl),
    Finset.sum_congr rfl fun p inside => if_pos (Finset.mem_range.mp inside),
    Finset.sum_eq_zero fun p inside => if_neg (Nat.not_lt.mpr (Finset.mem_Ico.mp inside).1),
    add_zero, Finset.sum_multiset_singleton]
  rfl

theorem builtTree_cost :
    (builtTree st bytes nonempty short).fullTree.cost (buildTree st bytes).mass =
      ∑ p ∈ Finset.Ico (symbols bytes).length (buildTree st bytes).treeSize,
        (buildTree st bytes).mass p := by
  rw [builtTree_value st nonempty short (FullTree.cost (buildTree st bytes).mass)
    (fun p => if p < (symbols bytes).length then 0 else (buildTree st bytes).mass p)
    (fun p isLeaf => (if_pos isLeaf).symm)
    (fun p left right low whole => by
      rw [if_neg (Nat.not_lt.mpr low), FullTree.cost_node, whole]),
    Finset.sum_eq_zero fun p inside => if_pos (Finset.mem_range.mp inside), zero_add]
  exact Finset.sum_congr rfl fun p inside => if_neg (Nat.not_lt.mpr (Finset.mem_Ico.mp inside).1)

end Shape

/-! ### The merge loop merges smallest weights -/

theorem mergeLoop_keeps {length : Nat} {st : Static} (weighted : Weighted length st)
    (short : length < 2 ^ 31) (room : st.heapSize ≤ maxHeapSize) :
    st.treeSize ≤ (mergeLoop st).treeSize ∧
      ∀ p < st.treeSize, (mergeLoop st).tree p = st.tree p := by
  have kept := mergeLoop_invariant
    (fun reached => (Weighted length reached ∧ reached.heapSize ≤ maxHeapSize) ∧
      st.treeSize ≤ reached.treeSize ∧ ∀ p < st.treeSize, reached.tree p = st.tree p)
    (fun reached both more => by
      obtain ⟨⟨weighted, room⟩, grown, same⟩ := both
      obtain ⟨left, right, rest, round⟩ := exists_round weighted more room
      have smaller := round.heapSize
      refine ⟨⟨round.weighted weighted short, by omega⟩, by rw [round.treeSize]; omega, ?_⟩
      intro p old
      rw [round.tree p (by omega), same p old])
    st ⟨⟨weighted, room⟩, le_rfl, fun _ _ => rfl⟩
  exact kept.2

theorem mergeLoop_merging {length : Nat} (short : length < 2 ^ 31) (st : Static)
    (weighted : Weighted length st) (room : st.heapSize ≤ maxHeapSize)
    (nonempty : 0 < st.heapSize) :
    FullTree.Merging (st.contents.map st.mass)
      (∑ p ∈ Finset.Ico st.treeSize (mergeLoop st).treeSize, (mergeLoop st).mass p) := by
  induction st using mergeCalls.induct with
  | case1 st more ih =>
    obtain ⟨left, right, rest, round⟩ := exists_round weighted more room
    have nextWeighted := round.weighted weighted short
    have nextHeap := round.heapSize
    have later := ih nextWeighted (by omega) (by omega)
    obtain ⟨grown, same⟩ := mergeLoop_keeps nextWeighted short (by omega)
    rw [round.treeSize] at grown same later
    have leftPositive := weighted.positive left (round.leftLt weighted)
    have rightPositive := weighted.positive right (round.rightLt weighted)
    have parent := round.weight_parent weighted short
    have isParent : (mergeRound st).mass st.treeSize = st.mass left + st.mass right := by
      rw [Static.mass, parent, Static.mass, Static.mass]
      omega
    have parentKept : (mergeLoop (mergeRound st)).mass st.treeSize =
        st.mass left + st.mass right := by
      rw [← isParent, Static.mass, Static.weight, same _ (Nat.lt_succ_self _)]
      rfl
    have restKept : rest.map (mergeRound st).mass = rest.map st.mass := by
      refine Multiset.map_congr rfl fun q member => ?_
      have old := weighted.queued q
        (round.taken ▸ Multiset.mem_cons_of_mem (Multiset.mem_cons_of_mem member))
      rw [Static.mass, round.weight_old old, Static.mass]
    rw [round.contents, Multiset.map_cons, restKept, isParent] at later
    rw [mergeLoop_more more, round.taken, Multiset.map_cons, Multiset.map_cons,
      Finset.sum_eq_sum_Ico_succ_bot (by omega), parentKept, Nat.add_comm]
    refine .round ?_ ?_ later
    · have least := round.first right (Multiset.mem_cons_self right rest)
      unfold Static.mass
      omega
    · intro c member
      obtain ⟨q, queued, rfl⟩ := Multiset.mem_map.mp member
      have least := round.second q queued
      unfold Static.mass
      omega
  | case2 st done =>
    rw [mergeLoop_done done, Finset.Ico_self, Finset.sum_empty]
    obtain ⟨root, isRoot⟩ := Multiset.card_eq_one.mp
      (st.card_contents.trans (by omega : st.heapSize = 1))
    rw [isRoot, Multiset.map_singleton]
    exact .last _

theorem leaves_mass (st : Static) {bytes : List UInt8} (nonempty : bytes ≠ [])
    (short : bytes.length < 2 ^ 31) :
    (Multiset.range (symbols bytes).length).map (buildTree st bytes).mass =
      (bytes.dedup : Multiset UInt8).map fun c => bytes.count c := by
  obtain ⟨forest, -⟩ := buildTree_forest st nonempty short
  have counts : (List.range (symbols bytes).length).map (buildTree st bytes).mass =
      ((symbols bytes).map UInt8.ofNat).map fun c => bytes.count c := by
    apply List.ext_getElem (by simp)
    intro i inside _
    simp only [List.length_map, List.length_range] at inside
    obtain ⟨value, -⟩ := mem_symbols.mp (List.getElem_mem inside)
    rw [List.getElem_map, List.getElem_range, List.getElem_map, List.getElem_map, Static.mass,
      Static.weight, (forest.leaf i inside).2.1, countFrequencies_toInt short value,
        Int.toNat_natCast]
  rw [Multiset.range, Multiset.map_coe, counts, Multiset.map_coe, Multiset.coe_eq_coe]
  exact (symbols_perm bytes).map _

/-- No full binary tree with the byte frequencies of the input at its leaves has a
smaller sum of frequency times depth than the tree that `build_tree` leaves. -/
theorem buildTree_optimal (st : Static) {bytes : List UInt8} (nonempty : bytes ≠ [])
    (short : bytes.length < 2 ^ 31) :
    (builtTree st bytes nonempty short).fullTree.leaves.map (buildTree st bytes).mass =
        (bytes.dedup : Multiset UInt8).map (fun c => bytes.count c) ∧
      ∀ (α : Type) (other : FullTree α) (weight : α → Nat),
        other.leaves.map weight = (bytes.dedup : Multiset UInt8).map (fun c => bytes.count c) →
        (builtTree st bytes nonempty short).fullTree.cost (buildTree st bytes).mass ≤
          other.cost weight := by
  have leaves := leaves_mass st nonempty short
  rw [builtTree_leaves]
  refine ⟨leaves, fun α other weight same => ?_⟩
  have built := leafLoop_symbols st short
  have start := leafLoop_weighted st short
  have room := symbols_length_le bytes
  have queued := symbols_pos nonempty
  rw [← built.heapSize] at room queued
  have merging := mergeLoop_merging short _ start room queued
  obtain ⟨-, kept⟩ := mergeLoop_keeps start short room
  rw [built.contents, built.treeSize] at merging
  have sameLeaves : (Multiset.range (symbols bytes).length).map (leafLoop (countFrequencies bytes)
      { st with treeSize := 0, heapSize := 0 }).mass =
      (Multiset.range (symbols bytes).length).map (buildTree st bytes).mass := by
    refine Multiset.map_congr rfl fun p inside => ?_
    rw [Static.mass, Static.weight, ← kept p (by rwa [built.treeSize, ← Multiset.mem_range])]
    rfl
  rw [sameLeaves, leaves, ← same] at merging
  rw [builtTree_cost]
  exact merging.le_cost other weight rfl

theorem buildTree_optimal_aabc : ([97, 97, 98, 99] : List UInt8) ≠ [] ∧
    (builtTree Static.clear [97, 97, 98, 99] (by decide) (by decide)).fullTree.cost
      (buildTree Static.clear [97, 97, 98, 99]).mass ≤
      (FullTree.node (.leaf 97) (.node (.leaf 98) (.leaf 99))).cost
        fun c : UInt8 => ([97, 97, 98, 99] : List UInt8).count c :=
  ⟨by decide, (buildTree_optimal Static.clear (by decide) (by decide)).2 UInt8 _ _ (by decide)⟩

end Xv6.Kernel.Huffman
