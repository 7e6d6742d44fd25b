import Xv6.Kernel.Huffman.Heap

/-!
`build_tree` and the shape of what it builds.

Owns: the frequency count, the leaf loop, the merge loop, and the invariant
`Forest` that both loops keep: leaves first, children before their parents, and
every node either queued or the child of exactly one node.

Does not own: the order in which equal frequencies are merged, optimality, or
the code that is read off the tree.
-/

namespace Xv6.Kernel.Huffman

open Function

/-- `freq[(unsigned char)input[i]]++`. -/
def countByte (freq : Nat → Int32) (byte : UInt8) : Nat → Int32 :=
  update freq byte.toNat (freq byte.toNat + 1)

/-- The counting loop of `build_tree`, from `int freq[256] = {0}`. -/
def countFrequencies (bytes : List UInt8) : Nat → Int32 :=
  bytes.foldl countByte fun _ => 0

/-- Fill `tree[tree_size]` and queue it: `insert_heap(tree_size++)`. -/
def Static.pushNode (st : Static) (node : Node) : Static :=
  Static.insertHeap { st with
    tree := update st.tree st.treeSize node
    treeSize := st.treeSize + 1 } st.treeSize

/-- One round of the leaf loop: byte value `i` gets a leaf if it occurs. -/
def addLeaf (freq : Nat → Int32) (st : Static) (i : Nat) : Static :=
  if 0 < freq i then
    st.pushNode
      { st.tree st.treeSize with c := UInt8.ofNat i, freq := freq i, left := -1, right := -1 }
  else st

/-- The new node of one merge round. Its `c` is not assigned: it keeps what the
array held there before. -/
def addInternal (st : Static) (left right : Int) : Static :=
  st.pushNode
    { st.tree st.treeSize with
      freq := (st.tree left.toNat).freq + (st.tree right.toNat).freq
      left := Int32.ofInt left
      right := Int32.ofInt right }

theorem Static.pushNode_spec (st : Static) (node : Node) (room : st.heapSize < maxHeapSize) :
    (st.pushNode node).contents = st.treeSize ::ₘ st.contents ∧
      (st.pushNode node).tree = update st.tree st.treeSize node ∧
      (st.pushNode node).heapSize = st.heapSize + 1 ∧
      (st.pushNode node).treeSize = st.treeSize + 1 :=
  Static.insertHeap_spec { st with
    tree := update st.tree st.treeSize node
    treeSize := st.treeSize + 1 } st.treeSize room

theorem Static.pushNode_heapSize_le (st : Static) (node : Node) :
    (st.pushNode node).heapSize ≤ st.heapSize + 1 := by
  by_cases full : maxHeapSize ≤ st.heapSize
  · simp [pushNode, Static.insertHeap, full]
  · exact (st.pushNode_spec node (Nat.lt_of_not_le full)).2.2.1.le

/-- The `while (heap_size > 1)` loop. -/
def mergeLoop (st : Static) : Static :=
  if 1 < st.heapSize then
    mergeLoop
      (addInternal st.extractMin.2.extractMin.2 st.extractMin.1 st.extractMin.2.extractMin.1)
  else st
termination_by st.heapSize
decreasing_by
  obtain ⟨_, _, _, _, firstSize, _⟩ := st.extractMin_spec (by omega)
  obtain ⟨_, _, _, _, secondSize, _⟩ := st.extractMin.2.extractMin_spec (by omega)
  have inserted : (addInternal st.extractMin.2.extractMin.2 st.extractMin.1
      st.extractMin.2.extractMin.1).heapSize ≤ st.extractMin.2.extractMin.2.heapSize + 1 :=
    Static.pushNode_heapSize_le _ _
  omega

/-- The leaf loop over the 256 byte values. -/
def leafLoop (freq : Nat → Int32) (st : Static) : Static :=
  (List.range 256).foldl (addLeaf freq) st

/-- `build_tree(input, inlen)` for the input bytes `input[0 .. inlen)`. -/
def buildTree (st : Static) (bytes : List UInt8) : Static :=
  mergeLoop (leafLoop (countFrequencies bytes) { st with treeSize := 0, heapSize := 0 })

/-! ### Counting -/

/-- The byte values that occur, in increasing order. -/
def symbols (bytes : List UInt8) : List Nat :=
  (List.range 256).filter fun i => UInt8.ofNat i ∈ bytes

theorem foldl_countByte (bytes : List UInt8) (freq : Nat → Int32) (i : Nat) :
    bytes.foldl countByte freq i =
      freq i + Int32.ofNat (bytes.countP fun byte => byte.toNat = i) := by
  induction bytes generalizing freq with
  | nil => simp
  | cons head tail ih =>
    rw [List.foldl_cons, ih, countByte, List.countP_cons]
    by_cases same : head.toNat = i
    · subst same
      rw [update_self, Int32.add_assoc, Nat.add_comm, Int32.ofNat_add]
      simp
    · rw [update_of_ne (Ne.symm same)]
      simp [same]

theorem countFrequencies_eq (bytes : List UInt8) (i : Nat) :
    countFrequencies bytes i = Int32.ofNat (bytes.countP fun byte => byte.toNat = i) := by
  rw [countFrequencies, foldl_countByte]
  simp

theorem ofNat_pos_iff {n : Nat} (small : n < 2 ^ 31) : 0 < Int32.ofNat n ↔ 0 < n := by
  rw [Int32.lt_iff_toInt_lt, Int32.toInt_ofNat_of_lt small]
  simp

/-- A counter is positive exactly for the bytes that occur; the length bound is
the range of `int inlen`. -/
theorem countFrequencies_pos {bytes : List UInt8} (short : bytes.length < 2 ^ 31) {i : Nat}
    (byteValue : i < 256) : 0 < countFrequencies bytes i ↔ UInt8.ofNat i ∈ bytes := by
  have small : (bytes.countP fun byte => byte.toNat = i) < 2 ^ 31 :=
    lt_of_le_of_lt List.countP_le_length short
  rw [countFrequencies_eq, ofNat_pos_iff small, List.countP_pos_iff]
  constructor
  · rintro ⟨byte, member, isByte⟩
    have : UInt8.ofNat i = byte := by
      rw [← of_decide_eq_true isByte, UInt8.ofNat_toNat]
    exact this ▸ member
  · intro member
    exact ⟨_, member, by simp [UInt8.toNat_ofNat', Nat.mod_eq_of_lt byteValue]⟩

/-! ### Child indices -/

/-- The index a node's `left` field names. -/
def Static.leftIndex (st : Static) (p : Nat) : Nat := (st.tree p).left.toNatClampNeg

/-- The index a node's `right` field names. -/
def Static.rightIndex (st : Static) (p : Nat) : Nat := (st.tree p).right.toNatClampNeg

/-- The children of the nodes `first, …, treeSize - 1`, with multiplicity. -/
def Static.children (st : Static) (first : Nat) : Multiset Nat :=
  ∑ p ∈ Finset.Ico first st.treeSize, {st.leftIndex p, st.rightIndex p}

theorem toNatClampNeg_ofInt {n : Nat} (small : n < 2 ^ 31) :
    (Int32.ofInt (n : Int)).toNatClampNeg = n := by
  rw [Int32.ofInt_eq_ofNat, Int32.toNatClampNeg_ofNat_of_lt small]

theorem ofInt_nonneg {n : Nat} (small : n < 2 ^ 31) : 0 ≤ Int32.ofInt (n : Int) := by
  rw [Int32.le_iff_toInt_le, Int32.ofInt_eq_ofNat, Int32.toInt_ofNat_of_lt small]
  simp

/-! ### The invariant of both loops -/

/-- What `build_tree` keeps after its leaf loop. `leaves` are the byte values
that have a leaf; each merge takes one node out of the queue, net, and adds one
to the tree. -/
structure Forest (freq : Nat → Int32) (leaves : List Nat) (st : Static) : Prop where
  size : st.heapSize + st.treeSize = 2 * leaves.length
  leavesFirst : leaves.length ≤ st.treeSize
  leaf : ∀ i (inside : i < leaves.length), (st.tree i).c = UInt8.ofNat leaves[i] ∧
    (st.tree i).freq = freq leaves[i] ∧ (st.tree i).left = -1 ∧ (st.tree i).right = -1
  inner : ∀ p, leaves.length ≤ p → p < st.treeSize →
    st.leftIndex p < p ∧ st.rightIndex p < p ∧ 0 ≤ (st.tree p).left ∧ 0 ≤ (st.tree p).right ∧
      (st.tree p).freq = (st.tree (st.leftIndex p)).freq + (st.tree (st.rightIndex p)).freq
  partition : st.contents + st.children leaves.length = Multiset.range st.treeSize

/-! ### The leaf loop -/

/-- What holds once the leaf loop has made nodes of the byte values `leaves`. -/
structure LeafForest (freq : Nat → Int32) (leaves : List Nat) (st : Static) : Prop where
  treeSize : st.treeSize = leaves.length
  heapSize : st.heapSize = leaves.length
  leaf : ∀ i (inside : i < leaves.length), (st.tree i).c = UInt8.ofNat leaves[i] ∧
    (st.tree i).freq = freq leaves[i] ∧ (st.tree i).left = -1 ∧ (st.tree i).right = -1
  contents : st.contents = Multiset.range leaves.length

theorem LeafForest.toForest {freq : Nat → Int32} {leaves : List Nat} {st : Static}
    (built : LeafForest freq leaves st) : Forest freq leaves st where
  size := by
    rw [built.heapSize, built.treeSize]
    omega
  leavesFirst := built.treeSize.ge
  leaf := built.leaf
  inner := by
    intro p low high
    rw [built.treeSize] at high
    omega
  partition := by
    rw [built.contents, Static.children, built.treeSize]
    simp

theorem addLeaf_leafForest {freq : Nat → Int32} {leaves : List Nat} {st : Static}
    (built : LeafForest freq leaves st) (i : Nat) (room : leaves.length < maxHeapSize) :
    LeafForest freq (if 0 < freq i then leaves ++ [i] else leaves) (addLeaf freq st i) := by
  by_cases occurs : 0 < freq i
  swap
  · simpa [addLeaf, occurs] using built
  simp only [occurs, if_true, addLeaf]
  obtain ⟨contents, tree, heapSize, treeSize⟩ := st.pushNode_spec
    { st.tree st.treeSize with c := UInt8.ofNat i, freq := freq i, left := -1, right := -1 }
    (by rwa [built.heapSize])
  refine ⟨?_, ?_, ?_, ?_⟩
  · rw [treeSize, built.treeSize, List.length_append, List.length_singleton]
  · rw [heapSize, built.heapSize, List.length_append, List.length_singleton]
  · intro k inside
    rw [tree, built.treeSize]
    by_cases isNew : k = leaves.length
    · subst isNew
      simp
    · have old : k < leaves.length := by
        simp only [List.length_append, List.length_singleton] at inside
        omega
      rw [update_of_ne isNew, List.getElem_append_left old]
      exact built.leaf k old
  · rw [contents, built.contents, built.treeSize, List.length_append, List.length_singleton,
      Multiset.range_succ]

/-- The leaf loop gives every byte value with a positive count its leaf. -/
theorem leafLoop_leafForest (freq : Nat → Int32) (st : Static) (bound : Nat) (small : bound ≤ 256) :
    LeafForest freq ((List.range bound).filter fun i => 0 < freq i)
      ((List.range bound).foldl (addLeaf freq) { st with treeSize := 0, heapSize := 0 }) := by
  induction bound with
  | zero => exact ⟨rfl, rfl, by simp, rfl⟩
  | succ bound ih =>
    have length : ((List.range bound).filter fun i => 0 < freq i).length < maxHeapSize := by
      have := List.length_filter_le (fun i => decide (0 < freq i)) (List.range bound)
      rw [List.length_range] at this
      unfold maxHeapSize
      omega
    have next := addLeaf_leafForest (ih (by omega)) bound length
    rw [List.range_succ, List.foldl_append, List.filter_append]
    by_cases occurs : 0 < freq bound
    · simpa [occurs] using next
    · simpa [occurs] using next

/-! ### The merge loop -/

section Merge

variable {freq : Nat → Int32} {leaves : List Nat} {st : Static}

theorem Forest.heapSize_le (forest : Forest freq leaves st) : st.heapSize ≤ leaves.length := by
  have := forest.size
  have := forest.leavesFirst
  omega

theorem Forest.treeSize_le (forest : Forest freq leaves st) : st.treeSize ≤ 2 * leaves.length := by
  have := forest.size
  omega

theorem Forest.queued_lt (forest : Forest freq leaves st) {index : Nat}
    (queued : index ∈ st.contents) : index < st.treeSize := by
  rw [← Multiset.mem_range, ← forest.partition]
  exact Multiset.mem_add.mpr (Or.inl queued)

/-- One merge round keeps the invariant. -/
theorem Forest.addInternal (forest : Forest freq leaves st) (short : leaves.length ≤ maxHeapSize)
    {left right : Nat} {popped : Static}
    (taken : left ::ₘ right ::ₘ popped.contents = st.contents) (tree : popped.tree = st.tree)
    (treeSize : popped.treeSize = st.treeSize) (heapSize : popped.heapSize + 2 = st.heapSize) :
    Forest freq leaves (Huffman.addInternal popped left right) := by
  have leftLt : left < st.treeSize := forest.queued_lt (by rw [← taken]; simp)
  have rightLt : right < st.treeSize := forest.queued_lt (by rw [← taken]; simp)
  have bound : st.treeSize < 2 ^ 31 := by
    have := forest.treeSize_le
    unfold maxHeapSize at short
    omega
  have heapBound := forest.heapSize_le
  obtain ⟨contents', tree', heapSize', treeSize'⟩ := popped.pushNode_spec
    { popped.tree popped.treeSize with
      freq := (popped.tree (left : Int).toNat).freq + (popped.tree (right : Int).toNat).freq
      left := Int32.ofInt left
      right := Int32.ofInt right } (by unfold maxHeapSize at *; omega)
  change (Huffman.addInternal popped left right).contents = _ at contents'
  change (Huffman.addInternal popped left right).tree = _ at tree'
  change (Huffman.addInternal popped left right).heapSize = _ at heapSize'
  change (Huffman.addInternal popped left right).treeSize = _ at treeSize'
  rw [treeSize] at contents' treeSize'
  rw [tree, treeSize] at tree'
  -- nodes other than the new one are as before
  have old : ∀ p, p ≠ st.treeSize →
      (Huffman.addInternal popped left right).tree p = st.tree p := by
    intro p different
    rw [tree', update_of_ne different]
  have new : (Huffman.addInternal popped left right).tree st.treeSize =
      { st.tree st.treeSize with
        freq := (st.tree left).freq + (st.tree right).freq
        left := Int32.ofInt left
        right := Int32.ofInt right } := by
    rw [tree', update_self]
    rfl
  have newLeft : (Huffman.addInternal popped left right).leftIndex st.treeSize = left := by
    rw [Static.leftIndex, new]
    exact toNatClampNeg_ofInt (by omega)
  have newRight : (Huffman.addInternal popped left right).rightIndex st.treeSize = right := by
    rw [Static.rightIndex, new]
    exact toNatClampNeg_ofInt (by omega)
  refine ⟨?_, ?_, ?_, ?_, ?_⟩
  · rw [treeSize', heapSize']
    have := forest.size
    omega
  · rw [treeSize']
    have := forest.leavesFirst
    omega
  · intro i inside
    rw [old i (by have := forest.leavesFirst; omega)]
    exact forest.leaf i inside
  · intro p low high
    rw [treeSize'] at high
    by_cases isNew : p = st.treeSize
    · subst isNew
      rw [newLeft, newRight, new]
      refine ⟨leftLt, rightLt, ofInt_nonneg (by omega), ofInt_nonneg (by omega), ?_⟩
      rw [old left leftLt.ne, old right rightLt.ne]
    · obtain ⟨leftBelow, rightBelow, leftSome, rightSome, sum⟩ := forest.inner p low (by omega)
      simp only [Static.leftIndex, Static.rightIndex, old p isNew] at leftBelow rightBelow ⊢
      refine ⟨leftBelow, rightBelow, leftSome, rightSome, ?_⟩
      rw [old _ (by omega), old _ (by omega)]
      exact sum
  · have earlier : ∑ p ∈ Finset.Ico leaves.length st.treeSize,
        ({(Huffman.addInternal popped left right).leftIndex p,
          (Huffman.addInternal popped left right).rightIndex p} : Multiset Nat) =
        st.children leaves.length := by
      refine Finset.sum_congr rfl fun p member => ?_
      rw [Finset.mem_Ico] at member
      simp only [Static.leftIndex, Static.rightIndex, old p (by omega)]
    rw [Static.children, treeSize', Finset.sum_Ico_succ_top forest.leavesFirst, earlier, newLeft,
      newRight, contents', Multiset.range_succ, ← forest.partition, ← taken]
    -- both sides are the new node, the remaining queue, the old children and the two taken ones
    simp only [Multiset.insert_eq_cons, ← Multiset.singleton_add]
    abel

theorem mergeLoop_forest (st : Static) (forest : Forest freq leaves st)
    (short : leaves.length ≤ maxHeapSize) (nonempty : 0 < st.heapSize) :
    Forest freq leaves (mergeLoop st) ∧ (mergeLoop st).heapSize = 1 := by
  induction st using mergeLoop.induct with
  | case1 st more ih =>
    obtain ⟨left, isLeft, leftTaken, leftTree, leftHeap, leftSize⟩ := st.extractMin_spec nonempty
    obtain ⟨right, isRight, rightTaken, rightTree, rightHeap, rightSize⟩ :=
      st.extractMin.2.extractMin_spec (by omega)
    have taken : left ::ₘ right ::ₘ st.extractMin.2.extractMin.2.contents = st.contents := by
      rw [rightTaken, leftTaken]
    have next := forest.addInternal short taken (rightTree.trans leftTree)
      (rightSize.trans leftSize) (by omega)
    rw [← isLeft, ← isRight] at next
    rw [mergeLoop, if_pos more]
    refine ih next ?_
    have := next.size
    have := next.treeSize_le
    have grown : (Huffman.addInternal st.extractMin.2.extractMin.2 st.extractMin.1
        st.extractMin.2.extractMin.1).treeSize = st.treeSize + 1 := by
      rw [isLeft, isRight, ← leftSize, ← rightSize]
      exact (Static.pushNode_spec _ _ (by
        have := forest.heapSize_le
        unfold maxHeapSize at *
        omega)).2.2.2
    have := forest.size
    omega
  | case2 st done =>
    rw [mergeLoop, if_neg done]
    exact ⟨forest, by omega⟩

end Merge

/-! ### The built tree -/

theorem symbols_length_le (bytes : List UInt8) : (symbols bytes).length ≤ maxHeapSize := by
  have := List.length_filter_le (fun i => decide (UInt8.ofNat i ∈ bytes)) (List.range 256)
  rwa [List.length_range] at this

theorem mem_symbols {bytes : List UInt8} {i : Nat} :
    i ∈ symbols bytes ↔ i < 256 ∧ UInt8.ofNat i ∈ bytes := by
  simp [symbols]

theorem symbols_nodup (bytes : List UInt8) : (symbols bytes).Nodup :=
  List.nodup_range.filter _

theorem toNat_mem_symbols {bytes : List UInt8} {byte : UInt8} (member : byte ∈ bytes) :
    byte.toNat ∈ symbols bytes :=
  mem_symbols.mpr ⟨byte.toNat_lt, by rwa [UInt8.ofNat_toNat]⟩

theorem symbols_pos {bytes : List UInt8} (nonempty : bytes ≠ []) : 0 < (symbols bytes).length := by
  obtain ⟨head, member⟩ := List.exists_mem_of_ne_nil bytes nonempty
  exact List.length_pos_of_mem (toNat_mem_symbols member)

/-- On an input of `int` length the byte values that are counted are those that occur. -/
theorem filter_counted {bytes : List UInt8} (short : bytes.length < 2 ^ 31) :
    ((List.range 256).filter fun i => 0 < countFrequencies bytes i) = symbols bytes := by
  apply List.filter_congr
  intro i member
  exact decide_eq_decide.mpr (countFrequencies_pos short (List.mem_range.mp member))

/-- The leaf loop then makes one leaf for each of them. -/
theorem leafLoop_symbols (st : Static) {bytes : List UInt8} (short : bytes.length < 2 ^ 31) :
    LeafForest (countFrequencies bytes) (symbols bytes)
      (leafLoop (countFrequencies bytes) { st with treeSize := 0, heapSize := 0 }) := by
  rw [← filter_counted short]
  exact leafLoop_leafForest (countFrequencies bytes) st 256 le_rfl

/-- `build_tree` on a nonempty input ends with a proper forest of one tree,
whatever the static arrays held before. -/
theorem buildTree_forest (st : Static) {bytes : List UInt8} (nonempty : bytes ≠ [])
    (short : bytes.length < 2 ^ 31) :
    Forest (countFrequencies bytes) (symbols bytes) (buildTree st bytes) ∧
      (buildTree st bytes).heapSize = 1 := by
  have built := leafLoop_symbols st short
  have queued : 0 < (leafLoop (countFrequencies bytes)
      { st with treeSize := 0, heapSize := 0 }).heapSize :=
    built.heapSize ▸ symbols_pos nonempty
  exact mergeLoop_forest _ built.toForest (symbols_length_le bytes) queued

end Xv6.Kernel.Huffman
