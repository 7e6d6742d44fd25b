import Xv6.Kernel.Huffman.HeapOrder
import Xv6.Kernel.Huffman.RoundTrip

/-!
The tree that `build_tree` leaves, and the calls it makes to its queue.

Owns: the calls of both loops to `insert_heap` and `extract_min`, that none of them
is refused, the walks from the root, and all that holds of the finished tree.

Does not own: how good the tree is, or the code that the encoder reads off it.
-/

namespace Xv6.Kernel.Huffman

open Xv6.Lib

/-! ### The calls to the queue -/

/-- A call of `build_tree` to its queue: `insert_heap` with the size of the queue at
the call, `extract_min` with what it returned. -/
inductive QueueCall where
  | insertHeap (heapSize : Nat)
  | extractMin (ret : Int)
deriving DecidableEq, Repr

/-- The node was queued; there was a node to return. -/
def QueueCall.Served : QueueCall → Prop
  | .insertHeap heapSize => heapSize < maxHeapSize
  | .extractMin ret => ret ≠ -1

/-- The calls of the leaf loop over these byte values. -/
def leafCalls (freq : Nat → Int32) : List Nat → Static → List QueueCall
  | [], _ => []
  | i :: rest, st =>
    (if 0 < freq i then [.insertHeap st.heapSize] else []) ++
      leafCalls freq rest (addLeaf freq st i)

theorem mergeRound_heapSize_lt {st : Static} (more : 1 < st.heapSize) :
    (mergeRound st).heapSize < st.heapSize := by
  obtain ⟨_, _, _, _, firstSize, _⟩ := st.extractMin_spec (by omega)
  obtain ⟨_, _, _, _, secondSize, _⟩ := st.extractMin.2.extractMin_spec (by omega)
  have inserted : (mergeRound st).heapSize ≤ st.extractMin.2.extractMin.2.heapSize + 1 :=
    Static.pushNode_heapSize_le _ _
  omega

/-- The calls of the merge loop. -/
def mergeCalls (st : Static) : List QueueCall :=
  if 1 < st.heapSize then
    .extractMin st.extractMin.1 :: .extractMin st.extractMin.2.extractMin.1 ::
      .insertHeap st.extractMin.2.extractMin.2.heapSize :: mergeCalls (mergeRound st)
  else []
termination_by st.heapSize
decreasing_by exact mergeRound_heapSize_lt ‹_›

/-- The calls of `build_tree(input, inlen)`. -/
def buildCalls (st : Static) (bytes : List UInt8) : List QueueCall :=
  leafCalls (countFrequencies bytes) (List.range 256) { st with treeSize := 0, heapSize := 0 } ++
    mergeCalls (leafLoop (countFrequencies bytes) { st with treeSize := 0, heapSize := 0 })

theorem leafCalls_served (freq : Nat → Int32) (values : List Nat) (st : Static)
    (room : st.heapSize + values.length ≤ maxHeapSize) :
    ∀ call ∈ leafCalls freq values st, call.Served := by
  induction values generalizing st with
  | nil => exact fun _ member => absurd member List.not_mem_nil
  | cons i rest ih =>
    rw [List.length_cons] at room
    have grown : (addLeaf freq st i).heapSize ≤ st.heapSize + 1 := by
      rw [addLeaf]
      split
      · exact st.pushNode_heapSize_le _
      · omega
    intro call member
    rcases List.mem_append.mp member with here | later
    · split at here
      · rw [List.mem_singleton] at here
        rw [here]
        exact (by omega : st.heapSize < maxHeapSize)
      · exact absurd here List.not_mem_nil
    · exact ih _ (by omega) call later

theorem mergeCalls_served (st : Static) (room : st.heapSize ≤ maxHeapSize) :
    ∀ call ∈ mergeCalls st, call.Served := by
  induction st using mergeCalls.induct with
  | case1 st more ih =>
    obtain ⟨left, isLeft, -, -, leftHeap, -⟩ := st.extractMin_spec (by omega)
    obtain ⟨right, isRight, -, -, rightHeap, -⟩ := st.extractMin.2.extractMin_spec (by omega)
    have smaller := mergeRound_heapSize_lt more
    intro call member
    rw [mergeCalls, if_pos more, List.mem_cons, List.mem_cons, List.mem_cons] at member
    rcases member with rfl | rfl | rfl | later
    · exact (by omega : st.extractMin.1 ≠ -1)
    · exact (by omega : st.extractMin.2.extractMin.1 ≠ -1)
    · exact (by omega : st.extractMin.2.extractMin.2.heapSize < maxHeapSize)
    · exact ih (by omega) call later
  | case2 st done =>
    rw [mergeCalls, if_neg done]
    exact fun _ member => absurd member List.not_mem_nil

theorem buildCalls_served (st : Static) {bytes : List UInt8} (short : bytes.length < 2 ^ 31) :
    ∀ call ∈ buildCalls st bytes, call.Served := by
  intro call member
  rcases List.mem_append.mp member with leaf | merge
  · exact leafCalls_served _ _ _ (by rw [List.length_range]; exact le_rfl) call leaf
  · refine mergeCalls_served _ ?_ call merge
    rw [(leafLoop_symbols st short).heapSize]
    exact symbols_length_le bytes

/-! ### The finished tree -/

/-- The test that ends a walk. -/
def Static.IsLeaf (st : Static) (p : Nat) : Prop := (st.tree p).left = -1 ∧ (st.tree p).right = -1

/-- Where a walk from node `p` is after `k` turns. -/
def Static.walk (st : Static) (turns : Nat → Bool) (p : Nat) : Nat → Nat
  | 0 => p
  | k + 1 => st.childIndex (turns k) (st.walk turns p k)

/-- A Huffman tree for these bytes. -/
structure ProperTree (bytes : List UInt8) (st : Static) : Prop where
  /-- `tree_size` is `2 * m - 1` for `m` distinct bytes. -/
  size : st.treeSize + 1 = 2 * bytes.dedup.length
  bound : st.treeSize ≤ 511
  leaf : ∀ i < bytes.dedup.length, st.IsLeaf i ∧ st.weight i = bytes.count (st.tree i).c
  leafBytes : Set.BijOn (fun i => (st.tree i).c) {i | i < bytes.dedup.length} {c | c ∈ bytes}
  inner : ∀ p, bytes.dedup.length ≤ p → p < st.treeSize →
    0 ≤ (st.tree p).left ∧ 0 ≤ (st.tree p).right ∧ st.leftIndex p < p ∧ st.rightIndex p < p ∧
      st.weight p = st.weight (st.leftIndex p) + st.weight (st.rightIndex p)
  parent : ∀ i < st.treeSize, i ≠ st.treeSize - 1 →
    ∃! p, (bytes.dedup.length ≤ p ∧ p < st.treeSize) ∧ (st.leftIndex p = i ∨ st.rightIndex p = i)
  /-- Whatever turns a walk from the root takes, it comes to a leaf. -/
  walks : ∀ turns, ∃ k < st.treeSize, st.IsLeaf (st.walk turns (st.treeSize - 1) k)

theorem symbols_length (bytes : List UInt8) : (symbols bytes).length = bytes.dedup.length := by
  rw [← (symbols_perm bytes).length_eq, List.length_map]

section Finished

variable {freq : Nat → Int32} {leaves : List Nat} {st : Static}

/-- A node whose frequency is positive has the sum of its children's. -/
theorem Forest.weight_inner (forest : Forest freq leaves st)
    (positive : ∀ p < st.treeSize, 0 < st.weight p) {p : Nat} (low : leaves.length ≤ p)
    (high : p < st.treeSize) :
    st.weight p = st.weight (st.leftIndex p) + st.weight (st.rightIndex p) := by
  obtain ⟨left, right, -, -, sum⟩ := forest.inner p low high
  have here := positive p high
  have leftPositive := positive _ (left.trans high)
  have rightPositive := positive _ (right.trans high)
  have leftBound := (st.tree (st.leftIndex p)).freq.toInt_lt
  have rightBound := (st.tree (st.rightIndex p)).freq.toInt_lt
  rw [Static.weight, sum, Int32.toInt_add] at here ⊢
  unfold Static.weight at leftPositive rightPositive ⊢
  -- a sum that wraps is negative
  rw [Int.bmod_def] at here ⊢
  split at here <;> omega

/-- With one node queued, that is the root. -/
theorem Forest.children_of_single (forest : Forest freq leaves st) (single : st.heapSize = 1) :
    st.children leaves.length = Multiset.range (st.treeSize - 1) := by
  obtain ⟨root, isRoot⟩ := Multiset.card_eq_one.mp (st.card_contents.trans single)
  have size := forest.size
  have last : st.treeSize = st.treeSize - 1 + 1 := by
    have := forest.leavesFirst
    omega
  have partition := forest.partition
  rw [isRoot] at partition
  -- the last node is no child: children lie below their parents
  have notChild : st.treeSize - 1 ∉ st.children leaves.length := by
    intro member
    obtain ⟨p, inside, isChild⟩ := Multiset.mem_sum.mp member
    rw [Finset.mem_Ico] at inside
    obtain ⟨left, right, -⟩ := forest.inner p inside.1 inside.2
    simp only [Multiset.insert_eq_cons, Multiset.mem_cons, Multiset.mem_singleton] at isChild
    omega
  have rootLast : root = st.treeSize - 1 := by
    have member : st.treeSize - 1 ∈ ({root} : Multiset Nat) + st.children leaves.length := by
      rw [partition, Multiset.mem_range]
      omega
    rcases Multiset.mem_add.mp member with here | there
    · exact (Multiset.mem_singleton.mp here).symm
    · exact absurd there notChild
  rw [rootLast, last, Multiset.range_succ, Multiset.singleton_add] at partition
  exact Multiset.cons_inj_right _ |>.mp partition

theorem Forest.exists_parent (forest : Forest freq leaves st) (single : st.heapSize = 1) {i : Nat}
    (inside : i < st.treeSize) (notRoot : i ≠ st.treeSize - 1) :
    ∃! p, (leaves.length ≤ p ∧ p < st.treeSize) ∧ (st.leftIndex p = i ∨ st.rightIndex p = i) := by
  have member : i ∈ st.children leaves.length := by
    rw [forest.children_of_single single, Multiset.mem_range]
    omega
  obtain ⟨p, range, isChild⟩ := Multiset.mem_sum.mp member
  rw [Finset.mem_Ico] at range
  simp only [Multiset.insert_eq_cons, Multiset.mem_cons, Multiset.mem_singleton] at isChild
  have named (q : Nat) (isChild : st.leftIndex q = i ∨ st.rightIndex q = i) :
      ∃ bit, st.childIndex bit q = i := by
    rcases isChild with isLeft | isRight
    · exact ⟨false, isLeft⟩
    · exact ⟨true, isRight⟩
  refine ⟨p, ⟨range, isChild.imp Eq.symm Eq.symm⟩, fun q both => ?_⟩
  obtain ⟨a, isA⟩ := named p (isChild.imp Eq.symm Eq.symm)
  obtain ⟨b, isB⟩ := named q both.2
  exact (forest.childIndex_injective both.1.1 both.1.2 range.1 range.2 (isB.trans isA.symm)).1

theorem Forest.exists_leaf (forest : Forest freq leaves st) (turns : Nat → Bool) {p : Nat}
    (inside : p < st.treeSize) : ∃ k ≤ p, st.IsLeaf (st.walk turns p k) := by
  have descends : ∀ k, (∃ j < k, st.IsLeaf (st.walk turns p j)) ∨ st.walk turns p k + k ≤ p := by
    intro k
    induction k with
    | zero => exact .inr le_rfl
    | succ k ih =>
      rcases ih with ⟨j, before, isLeaf⟩ | below
      · exact .inl ⟨j, by omega, isLeaf⟩
      by_cases isLeaf : st.walk turns p k < leaves.length
      · exact .inl ⟨k, Nat.lt_succ_self k, (forest.leaf _ isLeaf).2.2⟩
      obtain ⟨left, right, -⟩ := forest.inner _ (Nat.le_of_not_lt isLeaf) (by omega)
      right
      rw [Static.walk, Static.childIndex]
      split <;> omega
  rcases descends (p + 1) with ⟨k, before, isLeaf⟩ | below
  · exact ⟨k, by omega, isLeaf⟩
  · omega

end Finished

/-- The merge loop keeps the queue's weights. -/
theorem buildTree_weighted (st : Static) {bytes : List UInt8} (short : bytes.length < 2 ^ 31) :
    Weighted bytes.length (buildTree st bytes) := by
  have start := leafLoop_weighted st short
  have room : (leafLoop (countFrequencies bytes)
      { st with treeSize := 0, heapSize := 0 }).heapSize ≤ maxHeapSize := by
    rw [(leafLoop_symbols st short).heapSize]
    exact symbols_length_le bytes
  refine (mergeLoop_invariant (fun st => Weighted bytes.length st ∧ st.heapSize ≤ maxHeapSize)
    (fun st both more => ?_) _ ⟨start, room⟩).1
  obtain ⟨left, right, rest, round⟩ := exists_round both.1 more both.2
  have smaller := round.heapSize
  have queued := both.2
  exact ⟨round.weighted both.1 short, by omega⟩

/-- `build_tree` builds a Huffman tree of the input, whatever the static arrays held,
and none of its calls to the queue is refused. -/
theorem buildTree_proper (st : Static) {bytes : List UInt8} (nonempty : bytes ≠ [])
    (short : bytes.length < 2 ^ 31) :
    ProperTree bytes (buildTree st bytes) ∧ ∀ call ∈ buildCalls st bytes, call.Served := by
  obtain ⟨forest, single⟩ := buildTree_forest st nonempty short
  have weighted := buildTree_weighted st short
  have size := forest.size
  have few := symbols_length_le bytes
  have nonzero := symbols_pos nonempty
  have length := symbols_length bytes
  unfold maxHeapSize at few
  have leafByte (i : Nat) (inside : i < (symbols bytes).length) :
      ((buildTree st bytes).tree i).c ∈ bytes ∧
        (buildTree st bytes).weight i = bytes.count ((buildTree st bytes).tree i).c := by
    obtain ⟨isByte, isFreq, -⟩ := forest.leaf i inside
    obtain ⟨value, occurs⟩ := mem_symbols.mp (List.getElem_mem inside)
    rw [Static.weight, isByte, isFreq, countFrequencies_toInt short value]
    exact ⟨occurs, rfl⟩
  refine ⟨⟨?_, ?_, ?_, ⟨?_, ?_, ?_⟩, ?_, ?_, ?_⟩, buildCalls_served st short⟩
  · omega
  · omega
  · intro i inside
    rw [← length] at inside
    exact ⟨(forest.leaf i inside).2.2, (leafByte i inside).2⟩
  · intro i inside
    exact (leafByte i (length ▸ inside)).1
  · intro i iInside j jInside same
    exact builtTree_leaf_injective st nonempty short (length ▸ iInside) (length ▸ jInside) same
  · intro c member
    obtain ⟨i, inside, isByte⟩ := List.getElem_of_mem (toNat_mem_symbols member)
    refine ⟨i, length ▸ inside, ?_⟩
    change ((buildTree st bytes).tree i).c = c
    rw [(forest.leaf i inside).1, isByte, UInt8.ofNat_toNat]
  · intro p low high
    obtain ⟨left, right, leftSome, rightSome, -⟩ := forest.inner p (length ▸ low) high
    exact ⟨leftSome, rightSome, left, right,
      forest.weight_inner weighted.positive (length ▸ low) high⟩
  · intro i inside notRoot
    rw [← length]
    exact forest.exists_parent single inside notRoot
  · intro turns
    obtain ⟨k, early, isLeaf⟩ := forest.exists_leaf turns (p := (buildTree st bytes).treeSize - 1)
      (by omega)
    exact ⟨k, by omega, isLeaf⟩

theorem buildTree_proper_ab : ([97, 98] : List UInt8) ≠ [] ∧
    ProperTree [97, 98] (buildTree Static.clear [97, 98]) :=
  ⟨by decide, (buildTree_proper Static.clear (by decide) (by decide)).1⟩

end Xv6.Kernel.Huffman
