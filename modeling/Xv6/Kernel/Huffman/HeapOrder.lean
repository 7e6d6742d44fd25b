import Xv6.Kernel.Huffman.BuildTree
import Xv6.Lib.BinaryHeap

/-!
The queue of `compress.c` is a heap: `extract_min` returns a node of least frequency.

Owns: the order of the queue under `min_heapify`, `insert_heap` and `extract_min`,
its weights through the two loops of `build_tree`, and one round of the merge loop:
which two nodes it takes, and that their sum does not overflow.

Does not own: which of several nodes of equal frequency is taken.
-/

namespace Xv6.Kernel.Huffman

open Xv6.Lib Function

namespace Static

variable {st : Static}

/-- The frequency of entry `i` of the queue. -/
def key (st : Static) (i : Nat) : Int := (st.freqAt i).toInt

/-- No entry of the queue is smaller than its parent. -/
def Ordered (st : Static) : Prop := BinaryHeap.Ordered st.key st.heapSize

theorem swap_key (st : Static) (a b : Nat) : (st.swap a b).key = st.key ∘ Equiv.swap a b := by
  funext i
  simp only [key, freqAt, swap_tree, swap_heap, Function.comp]

theorem freqAt_lt_iff (i j : Nat) : st.freqAt i < st.freqAt j ↔ st.key i < st.key j :=
  Int32.lt_iff_toInt_lt

theorem siftUp_ordered (st : Static) (i : Nat) (inside : i < st.heapSize)
    (upTo : BinaryHeap.UpTo st.key st.heapSize i) : (st.siftUp i).Ordered := by
  induction st, i using siftUp.induct with
  | case1 st i moved ih =>
    have parent : (i - 1) / 2 < st.heapSize := by omega
    rw [siftUp, if_pos moved]
    apply ih parent
    rw [swap_key]
    exact upTo.exchange moved.1 inside (freqAt_lt_iff _ _ |>.mp moved.2)
  | case2 st i stays =>
    rw [siftUp, if_neg stays]
    apply upTo.ordered
    rwa [← freqAt_lt_iff]

theorem smallest_spec (st : Static) (i : Nat) :
    (st.smallest i = i ∨ (st.smallest i = 2 * i + 1 ∨ st.smallest i = 2 * i + 2) ∧
        st.key (st.smallest i) < st.key i) ∧
      st.key (st.smallest i) ≤ st.key i ∧
      ∀ j, 0 < j → j < st.heapSize → (j - 1) / 2 = i → st.key (st.smallest i) ≤ st.key j := by
  have children (j : Nat) (positive : 0 < j) (isChild : (j - 1) / 2 = i) :
      j = 2 * i + 1 ∨ j = 2 * i + 2 := by omega
  simp only [smallest, freqAt_lt_iff]
  by_cases left : 2 * i + 1 < st.heapSize ∧ st.key (2 * i + 1) < st.key i
  · simp only [left, true_and, if_true]
    by_cases right : 2 * i + 2 < st.heapSize ∧ st.key (2 * i + 2) < st.key (2 * i + 1)
    · rw [if_pos right]
      refine ⟨.inr ⟨.inr rfl, by omega⟩, by omega, fun j positive inside isChild => ?_⟩
      rcases children j positive isChild with rfl | rfl <;> omega
    · rw [if_neg right]
      refine ⟨.inr ⟨.inl rfl, by omega⟩, by omega, fun j positive inside isChild => ?_⟩
      rcases children j positive isChild with rfl | rfl <;> omega
  · rw [if_neg left]
    by_cases right : 2 * i + 2 < st.heapSize ∧ st.key (2 * i + 2) < st.key i
    · rw [if_pos right]
      refine ⟨.inr ⟨.inr rfl, by omega⟩, by omega, fun j positive inside isChild => ?_⟩
      rcases children j positive isChild with rfl | rfl <;> omega
    · rw [if_neg right]
      refine ⟨.inl rfl, le_rfl, fun j positive inside isChild => ?_⟩
      rcases children j positive isChild with rfl | rfl <;> omega

theorem minHeapify_ordered (st : Static) (i : Nat)
    (downTo : BinaryHeap.DownTo st.key st.heapSize i) : (st.minHeapify i).Ordered := by
  induction st, i using minHeapify.induct with
  | case1 st i moved ih =>
    obtain ⟨where_, -, least⟩ := st.smallest_spec i
    obtain ⟨isChild, smaller⟩ := where_.resolve_left moved
    have inside : st.smallest i < st.heapSize := by
      have := st.smallest_cases i
      omega
    rw [minHeapify, if_pos moved]
    apply ih
    rw [swap_key]
    exact downTo.exchange (by omega) inside (by omega) least smaller
  | case2 st i stays =>
    obtain ⟨-, -, least⟩ := st.smallest_spec i
    rw [not_not.mp stays] at least
    rw [minHeapify, if_neg stays]
    exact downTo.ordered least

theorem insertHeap_ordered (ordered : st.Ordered) (nodeIdx : Nat) :
    (st.insertHeap nodeIdx).Ordered := by
  by_cases full : maxHeapSize ≤ st.heapSize
  · rwa [insertHeap, if_pos full]
  rw [insertHeap, if_neg full]
  apply siftUp_ordered _ _ (Nat.lt_succ_self _)
  constructor
  · intro i positive inside old
    have kept (j : Nat) (other : j ≠ st.heapSize) : key { st with
        heap := update st.heap st.heapSize nodeIdx
        heapSize := st.heapSize + 1 } j = st.key j := by
      simp only [key, freqAt, update_of_ne other]
    simp only at inside
    rw [kept i old, kept _ (by omega)]
    exact ordered i positive (by omega)
  · intro _ i _ inside below
    simp only at inside
    omega

/-- What one `extract_min` does to a queue in order. -/
structure Extracted (st : Static) (index : Nat) : Prop where
  ret : st.extractMin.1 = index
  taken : index ::ₘ st.extractMin.2.contents = st.contents
  tree : st.extractMin.2.tree = st.tree
  heapSize : st.extractMin.2.heapSize = st.heapSize - 1
  treeSize : st.extractMin.2.treeSize = st.treeSize
  ordered : st.extractMin.2.Ordered
  least : ∀ other ∈ st.contents, (st.tree index).freq.toInt ≤ (st.tree other).freq.toInt

theorem extractMin_least (ordered : st.Ordered) (nonempty : 0 < st.heapSize) :
    ∃ index, st.Extracted index := by
  obtain ⟨index, ret, taken, tree, heapSize, treeSize⟩ := st.extractMin_spec nonempty
  refine ⟨index, ret, taken, tree, heapSize, treeSize, ?_, ?_⟩
  · rw [extractMin, if_neg (by omega)]
    apply minHeapify_ordered
    have kept (j : Nat) (other : j ≠ 0) : key { st with
        heap := update st.heap 0 (st.heap (st.heapSize - 1))
        heapSize := st.heapSize - 1 } j = st.key j := by
      simp only [key, freqAt, update_of_ne other]
    constructor
    · intro i positive inside notRoot
      simp only at inside
      rw [kept i (by omega), kept _ notRoot]
      exact ordered i positive (by omega)
    · intro positive
      exact absurd positive (lt_irrefl 0)
  · have isFirst : index = st.heap 0 := by
      rw [extractMin, if_neg (by omega)] at ret
      exact (Int.ofNat_inj.mp ret).symm
    intro other queued
    obtain ⟨i, inside, rfl⟩ := Multiset.mem_map.mp queued
    rw [isFirst]
    exact ordered.root_le i (Multiset.mem_range.mp inside)

/-- The queue operations over every node array: `insert_heap` adds the node and
`extract_min` takes a node of least frequency out, both keep the order, and `min_heapify`
restores it where its argument is the only entry with smaller ones below it. -/
theorem queue_operations (st : Static) :
    (st.Ordered → st.heapSize < maxHeapSize → ∀ nodeIdx,
      (st.insertHeap nodeIdx).Ordered ∧ (st.insertHeap nodeIdx).contents = nodeIdx ::ₘ st.contents ∧
        (st.insertHeap nodeIdx).tree = st.tree) ∧
    (st.Ordered → 1 ≤ st.heapSize → ∃ index : Nat, st.extractMin.1 = index ∧ index ∈ st.contents ∧
      (∀ other ∈ st.contents, (st.tree index).freq ≤ (st.tree other).freq) ∧
      st.extractMin.2.contents = st.contents.erase index ∧ st.extractMin.2.Ordered ∧
        st.extractMin.2.tree = st.tree) ∧
    ∀ i < st.heapSize,
      (∀ a, a ≠ i → ∀ b, BinaryHeap.Below a b → b < st.heapSize → st.freqAt a ≤ st.freqAt b) →
      (st.minHeapify i).Ordered ∧ (st.minHeapify i).contents = st.contents ∧
        (st.minHeapify i).tree = st.tree := by
  refine ⟨?_, ?_, ?_⟩
  · intro ordered room nodeIdx
    obtain ⟨contents, tree, -⟩ := st.insertHeap_spec nodeIdx room
    exact ⟨insertHeap_ordered ordered nodeIdx, contents, tree⟩
  · intro ordered nonempty
    obtain ⟨index, out⟩ := extractMin_least ordered nonempty
    have queued : index ∈ st.contents := out.taken ▸ Multiset.mem_cons_self index _
    have least : ∀ other ∈ st.contents, (st.tree index).freq ≤ (st.tree other).freq :=
      fun other member => Int32.le_iff_toInt_le.mpr (out.least other member)
    have rest : st.extractMin.2.contents = st.contents.erase index := by
      rw [← out.taken, Multiset.erase_cons_head]
    exact ⟨index, out.ret, queued, least, rest, out.ordered, out.tree⟩
  · intro i inside others
    obtain ⟨contents, tree, -⟩ := st.minHeapify_spec i inside
    have downTo : BinaryHeap.DownTo st.key st.heapSize i := by
      apply BinaryHeap.DownTo.of_below
      intro a notHere b below bInside
      exact Int32.le_iff_toInt_le.mp (others a notHere b below bInside)
    exact ⟨minHeapify_ordered st i downTo, contents, tree⟩

/-- Three nodes whose frequencies are their indices, all queued. -/
def threeNodes : Static where
  tree p := ⟨0, (0, 0, 0), Int32.ofNat p, -1, -1⟩
  heap i := i
  heapSize := 3
  treeSize := 3

theorem queue_operations_three :
    (threeNodes.insertHeap 0).Ordered ∧ threeNodes.extractMin.2.Ordered ∧
      (threeNodes.minHeapify 2).Ordered := by
  have ordered : threeNodes.Ordered := by
    intro i positive inside
    change i < 3 at inside
    interval_cases i <;> decide
  obtain ⟨insert, extract, restore⟩ := queue_operations threeNodes
  obtain ⟨_, _, _, _, _, extracted, _⟩ := extract ordered (by decide)
  refine ⟨(insert ordered (by decide) 0).1, extracted, (restore 2 (by decide) ?_).1⟩
  intro a _ b below inside
  have above : a < b := by
    induction below with
    | single child => omega
    | tail _ child ih => exact (ih (by omega)).trans (by omega)
  change b < 3 at inside
  interval_cases b <;> interval_cases a <;> decide

end Static

/-! ### One round of the merge loop -/

/-- The body of the `while (heap_size > 1)` loop. -/
def mergeRound (st : Static) : Static :=
  addInternal st.extractMin.2.extractMin.2 st.extractMin.1 st.extractMin.2.extractMin.1

theorem mergeLoop_more {st : Static} (more : 1 < st.heapSize) :
    mergeLoop st = mergeLoop (mergeRound st) := by
  rw [mergeLoop, if_pos more, mergeRound]

theorem mergeLoop_done {st : Static} (done : ¬ 1 < st.heapSize) : mergeLoop st = st := by
  rw [mergeLoop, if_neg done]

/-- What holds in every round is what the loop leaves. -/
theorem mergeLoop_invariant (inv : Static → Prop)
    (round : ∀ st, inv st → 1 < st.heapSize → inv (mergeRound st)) (st : Static) (start : inv st) :
    inv (mergeLoop st) := by
  induction st using mergeLoop.induct with
  | case1 st more ih =>
    rw [mergeLoop_more more]
    exact ih (round st start more)
  | case2 st done =>
    rw [mergeLoop_done done]
    exact start

/-- The frequency of a node as a number. -/
def Static.weight (st : Static) (p : Nat) : Int := (st.tree p).freq.toInt

/-- What both loops keep of the queue: it is a heap of nodes of the tree, every node
has a positive frequency, and the frequencies in the queue add up to the length of
the input. -/
structure Weighted (length : Nat) (st : Static) : Prop where
  ordered : st.Ordered
  queued : ∀ q ∈ st.contents, q < st.treeSize
  positive : ∀ p < st.treeSize, 0 < st.weight p
  total : (st.contents.map st.weight).sum = length

/-- A round takes two nodes of least frequency and queues their parent, node
`tree_size`; it does not assign the parent's `c`. -/
structure Round (st next : Static) (left right : Nat) (rest : Multiset Nat) : Prop where
  taken : st.contents = left ::ₘ right ::ₘ rest
  first : ∀ other ∈ right ::ₘ rest, st.weight left ≤ st.weight other
  second : ∀ other ∈ rest, st.weight right ≤ st.weight other
  contents : next.contents = st.treeSize ::ₘ rest
  tree : ∀ p, p ≠ st.treeSize → next.tree p = st.tree p
  parent : next.tree st.treeSize =
    { st.tree st.treeSize with
      freq := (st.tree left).freq + (st.tree right).freq
      left := Int32.ofInt left
      right := Int32.ofInt right }
  treeSize : next.treeSize = st.treeSize + 1
  heapSize : next.heapSize + 1 = st.heapSize
  ordered : next.Ordered

theorem Static.pushNode_ordered {st : Static} (ordered : st.Ordered)
    (queued : ∀ q ∈ st.contents, q < st.treeSize) (node : Node) : (st.pushNode node).Ordered := by
  apply Static.insertHeap_ordered
  refine BinaryHeap.ordered_congr (fun i inside => ?_) ordered
  have below : st.heap i < st.treeSize :=
    queued _ (Multiset.mem_map_of_mem _ (Multiset.mem_range.mpr inside))
  simp only [Static.key, Static.freqAt, update_of_ne below.ne]

/-- The round that the merge loop takes. -/
theorem exists_round {length : Nat} {st : Static} (weighted : Weighted length st)
    (more : 1 < st.heapSize) (room : st.heapSize ≤ maxHeapSize) :
    ∃ left right rest, Round st (mergeRound st) left right rest := by
  obtain ⟨left, leftOut⟩ := Static.extractMin_least weighted.ordered (by omega)
  obtain ⟨right, rightOut⟩ :=
    Static.extractMin_least leftOut.ordered (by rw [leftOut.heapSize]; omega)
  have heapLeft := leftOut.heapSize
  have heapRight := rightOut.heapSize
  have treeSize : st.extractMin.2.extractMin.2.treeSize = st.treeSize :=
    rightOut.treeSize.trans leftOut.treeSize
  have tree : st.extractMin.2.extractMin.2.tree = st.tree := rightOut.tree.trans leftOut.tree
  have isRound : mergeRound st = st.extractMin.2.extractMin.2.pushNode
      { st.tree st.treeSize with
        freq := (st.tree left).freq + (st.tree right).freq
        left := Int32.ofInt left
        right := Int32.ofInt right } := by
    rw [mergeRound, leftOut.ret, rightOut.ret, addInternal, treeSize, tree]
    rfl
  have taken : st.contents = left ::ₘ right ::ₘ st.extractMin.2.extractMin.2.contents := by
    rw [rightOut.taken, leftOut.taken]
  have queued : ∀ q ∈ st.extractMin.2.extractMin.2.contents,
      q < st.extractMin.2.extractMin.2.treeSize := by
    intro q member
    rw [treeSize]
    exact weighted.queued q (taken ▸ Multiset.mem_cons_of_mem (Multiset.mem_cons_of_mem member))
  have ordered := Static.pushNode_ordered rightOut.ordered queued
      { st.tree st.treeSize with
        freq := (st.tree left).freq + (st.tree right).freq
        left := Int32.ofInt left
        right := Int32.ofInt right }
  obtain ⟨contents', tree', heapSize', treeSize'⟩ :=
    st.extractMin.2.extractMin.2.pushNode_spec
      { st.tree st.treeSize with
        freq := (st.tree left).freq + (st.tree right).freq
        left := Int32.ofInt left
        right := Int32.ofInt right } (by omega)
  rw [← isRound] at contents' tree' heapSize' treeSize' ordered
  rw [treeSize] at contents' tree' treeSize'
  rw [tree] at tree'
  refine ⟨left, right, _, taken, ?_, ?_, contents', ?_, ?_, treeSize', by omega, ordered⟩
  · intro other member
    exact leftOut.least other (taken ▸ Multiset.mem_cons_of_mem member)
  · intro other member
    have least := rightOut.least other (rightOut.taken ▸ Multiset.mem_cons_of_mem member)
    rwa [leftOut.tree] at least
  · intro p other
    rw [tree', update_of_ne other]
  · rw [tree', update_self]

section Round

variable {length : Nat} {st next : Static} {left right : Nat} {rest : Multiset Nat}

theorem Round.leftLt (round : Round st next left right rest) (weighted : Weighted length st) :
    left < st.treeSize :=
  weighted.queued left (round.taken ▸ Multiset.mem_cons_self left _)

theorem Round.rightLt (round : Round st next left right rest) (weighted : Weighted length st) :
    right < st.treeSize :=
  weighted.queued right (round.taken ▸ Multiset.mem_cons_of_mem (Multiset.mem_cons_self right _))

theorem Round.weight_old (round : Round st next left right rest) {p : Nat} (old : p < st.treeSize) :
    next.weight p = st.weight p := by
  rw [Static.weight, round.tree p old.ne, Static.weight]

/-- The weights of what is left in the queue. -/
theorem Round.rest_total (round : Round st next left right rest) (weighted : Weighted length st) :
    st.weight left + st.weight right + (rest.map st.weight).sum = length ∧
      0 ≤ (rest.map st.weight).sum := by
  have total := weighted.total
  rw [round.taken, Multiset.map_cons, Multiset.map_cons, Multiset.sum_cons,
    Multiset.sum_cons] at total
  refine ⟨by omega, Multiset.sum_nonneg fun x member => ?_⟩
  obtain ⟨q, queued, rfl⟩ := Multiset.mem_map.mp member
  exact (weighted.positive q (weighted.queued q
    (round.taken ▸ Multiset.mem_cons_of_mem (Multiset.mem_cons_of_mem queued)))).le

/-- The parent's frequency is the sum: both lie in the length of the input, so it
does not wrap. -/
theorem Round.weight_parent (round : Round st next left right rest) (weighted : Weighted length st)
    (short : length < 2 ^ 31) : next.weight st.treeSize = st.weight left + st.weight right := by
  have leftPositive := weighted.positive left (round.leftLt weighted)
  have rightPositive := weighted.positive right (round.rightLt weighted)
  obtain ⟨total, nonneg⟩ := round.rest_total weighted
  rw [Static.weight, round.parent, Int32.toInt_add]
  change (st.weight left + st.weight right).bmod (2 ^ 32) = _
  apply Int.bmod_eq_of_le <;> omega

theorem Round.weighted (round : Round st next left right rest) (weighted : Weighted length st)
    (short : length < 2 ^ 31) : Weighted length next := by
  have parent := round.weight_parent weighted short
  have leftPositive := weighted.positive left (round.leftLt weighted)
  have rightPositive := weighted.positive right (round.rightLt weighted)
  have old : ∀ q ∈ rest, q < st.treeSize := fun q member => weighted.queued q
    (round.taken ▸ Multiset.mem_cons_of_mem (Multiset.mem_cons_of_mem member))
  refine ⟨round.ordered, ?_, ?_, ?_⟩
  · intro q member
    rw [round.contents, Multiset.mem_cons] at member
    rw [round.treeSize]
    rcases member with rfl | member
    · exact Nat.lt_succ_self _
    · exact (old q member).trans (Nat.lt_succ_self _)
  · intro p inside
    rw [round.treeSize] at inside
    by_cases new : p = st.treeSize
    · rw [new, parent]
      omega
    · rw [round.weight_old (by omega)]
      exact weighted.positive p (by omega)
  · obtain ⟨total, -⟩ := round.rest_total weighted
    rw [round.contents, Multiset.map_cons, Multiset.sum_cons, parent,
      Multiset.map_congr rfl fun q member => round.weight_old (old q member)]
    exact total

end Round

/-! ### The leaf loop -/

theorem symbols_perm (bytes : List UInt8) :
    ((symbols bytes).map UInt8.ofNat).Perm bytes.dedup := by
  have nodup : ((symbols bytes).map UInt8.ofNat).Nodup := by
    refine (symbols_nodup bytes).map_on fun a aMember b bMember same => ?_
    have aLt := (mem_symbols.mp aMember).1
    have bLt := (mem_symbols.mp bMember).1
    have values := congrArg UInt8.toNat same
    rw [UInt8.toNat_ofNat', UInt8.toNat_ofNat'] at values
    omega
  refine (List.perm_ext_iff_of_nodup nodup (List.nodup_dedup bytes)).mpr fun byte => ?_
  rw [List.mem_dedup, List.mem_map]
  constructor
  · rintro ⟨i, member, rfl⟩
    exact (mem_symbols.mp member).2
  · intro member
    exact ⟨byte.toNat, toNat_mem_symbols member, UInt8.ofNat_toNat⟩

/-- The counter of a byte value is the number of its occurrences. -/
theorem countFrequencies_toInt {bytes : List UInt8} (short : bytes.length < 2 ^ 31) {i : Nat}
    (byteValue : i < 256) : (countFrequencies bytes i).toInt = bytes.count (UInt8.ofNat i) := by
  have isCount : (bytes.countP fun byte => byte.toNat = i) = bytes.count (UInt8.ofNat i) := by
    rw [List.count]
    refine List.countP_congr fun byte _ => ?_
    rw [decide_eq_true_iff, beq_iff_eq, ← UInt8.toNat_inj, UInt8.toNat_ofNat']
    omega
  rw [countFrequencies_eq, isCount, Int32.toInt_ofNat_of_lt]
  exact lt_of_le_of_lt List.count_le_length short

theorem symbols_total {bytes : List UInt8} (short : bytes.length < 2 ^ 31) :
    ((symbols bytes).map fun i => (countFrequencies bytes i).toInt).sum = bytes.length := by
  have counts : ((symbols bytes).map fun i => (countFrequencies bytes i).toInt) =
      (((symbols bytes).map UInt8.ofNat).map fun byte => (bytes.count byte : Int)) := by
    rw [List.map_map]
    refine List.map_congr_left fun i member => ?_
    exact countFrequencies_toInt short (mem_symbols.mp member).1
  rw [counts, ((symbols_perm bytes).map _).sum_eq, ← List.sum_map_count_dedup_eq_length bytes,
    Nat.cast_list_sum, List.map_map]
  rfl

theorem leafLoop_ordered (freq : Nat → Int32) (st : Static) (bound : Nat) (small : bound ≤ 256) :
    ((List.range bound).foldl (addLeaf freq) { st with treeSize := 0, heapSize := 0 }).Ordered := by
  induction bound with
  | zero =>
    intro i _ inside
    exact absurd inside (Nat.not_lt_zero i)
  | succ bound ih =>
    have built := leafLoop_leafForest freq st bound (by omega)
    have ordered := ih (by omega)
    rw [List.range_succ, List.foldl_append, List.foldl_cons, List.foldl_nil]
    generalize (List.range bound).foldl (addLeaf freq) { st with treeSize := 0, heapSize := 0 } =
      reached at built ordered
    rw [addLeaf]
    split
    · refine Static.pushNode_ordered ordered (fun q member => ?_) _
      rw [built.contents, Multiset.mem_range] at member
      rwa [built.treeSize]
    · exact ordered

/-- The queue that the leaf loop hands to the merge loop. -/
theorem leafLoop_weighted (st : Static) {bytes : List UInt8} (short : bytes.length < 2 ^ 31) :
    Weighted bytes.length
      (leafLoop (countFrequencies bytes) { st with treeSize := 0, heapSize := 0 }) := by
  have built := leafLoop_symbols st short
  have leafWeight (i : Nat) (inside : i < (symbols bytes).length) :
      (leafLoop (countFrequencies bytes) { st with treeSize := 0, heapSize := 0 }).weight i =
        (countFrequencies bytes (symbols bytes)[i]).toInt := by
    rw [Static.weight, (built.leaf i inside).2.1]
  refine ⟨leafLoop_ordered _ st 256 le_rfl, ?_, ?_, ?_⟩
  · intro q member
    rw [built.contents, Multiset.mem_range] at member
    rwa [built.treeSize]
  · intro p inside
    rw [built.treeSize] at inside
    have member := mem_symbols.mp (List.getElem_mem inside)
    have occurs := (countFrequencies_pos short member.1).mpr member.2
    rw [leafWeight p inside]
    exact Int32.lt_iff_toInt_lt.mp occurs
  · rw [built.contents, ← symbols_total short]
    have terms : (List.range (symbols bytes).length).map
        (leafLoop (countFrequencies bytes) { st with treeSize := 0, heapSize := 0 }).weight =
        (symbols bytes).map fun i => (countFrequencies bytes i).toInt := by
      apply List.ext_getElem (by simp)
      intro i inside _
      simp only [List.length_map, List.length_range] at inside
      rw [List.getElem_map, List.getElem_map, List.getElem_range, leafWeight i inside]
    rw [← terms]
    rfl

end Xv6.Kernel.Huffman
