import Xv6.Lib.Buffer

/-!
The static state of `compress.c` and its priority queue.

Owns: the node record, the static arrays `tree` and `heap` with their two sizes,
`swap`, `min_heapify`, `insert_heap` and `extract_min`, and what each of them
does to the multiset of queued node indices.

Does not own: how the queue is used to build a tree, or the order in which equal
frequencies leave it.
-/

namespace Xv6.Kernel.Huffman

open Function

/-- `MAX_TREE_NODES`. -/
def maxTreeNodes : Nat := 512

/-- `MAX_HEAP_SIZE`. -/
def maxHeapSize : Nat := 256

/-- `struct huffman_node`. The compiler puts three bytes between `c` and `freq`;
no assignment of the program sets them, but `memmove` copies them. -/
structure Node where
  c : UInt8
  pad : UInt8 × UInt8 × UInt8
  freq : Int32
  left : Int32
  right : Int32
deriving DecidableEq, Repr

/-- The static variables of `compress.c`. They keep their contents between
calls; an array is the function from its indices. -/
structure Static where
  tree : Nat → Node
  heap : Nat → Nat
  heapSize : Nat
  treeSize : Nat

namespace Static

/-- `tree[heap[i]].freq`. -/
def freqAt (st : Static) (i : Nat) : Int32 := (st.tree (st.heap i)).freq

/-- `swap(&heap[a], &heap[b])`. -/
def swap (st : Static) (a b : Nat) : Static :=
  { st with heap := fun i => if i = b then st.heap a else if i = a then st.heap b else st.heap i }

@[simp] theorem swap_tree (st : Static) (a b : Nat) : (st.swap a b).tree = st.tree := rfl

@[simp] theorem swap_heapSize (st : Static) (a b : Nat) :
    (st.swap a b).heapSize = st.heapSize := rfl

@[simp] theorem swap_treeSize (st : Static) (a b : Nat) :
    (st.swap a b).treeSize = st.treeSize := rfl

/-- The child of `i` that `min_heapify` exchanges with `i`, or `i` itself. -/
def smallest (st : Static) (i : Nat) : Nat :=
  let first :=
    if 2 * i + 1 < st.heapSize ∧ st.freqAt (2 * i + 1) < st.freqAt i then 2 * i + 1 else i
  if 2 * i + 2 < st.heapSize ∧ st.freqAt (2 * i + 2) < st.freqAt first then 2 * i + 2 else first

theorem smallest_cases (st : Static) (i : Nat) :
    st.smallest i = i ∨ (i < st.smallest i ∧ st.smallest i < st.heapSize) := by
  simp only [smallest]
  split_ifs <;> omega

/-- `min_heapify(i)`. -/
def minHeapify (st : Static) (i : Nat) : Static :=
  if st.smallest i ≠ i then minHeapify (st.swap i (st.smallest i)) (st.smallest i) else st
termination_by st.heapSize - i
decreasing_by
  have := st.smallest_cases i
  simp only [swap_heapSize]
  omega

/-- The loop of `insert_heap`: move entry `i` up while its parent is larger. -/
def siftUp (st : Static) (i : Nat) : Static :=
  if 0 < i ∧ st.freqAt i < st.freqAt ((i - 1) / 2) then
    siftUp (st.swap i ((i - 1) / 2)) ((i - 1) / 2)
  else st
termination_by i
decreasing_by omega

/-- `insert_heap(node_idx)`. A full queue drops the node. -/
def insertHeap (st : Static) (nodeIdx : Nat) : Static :=
  if maxHeapSize ≤ st.heapSize then st
  else
    siftUp { st with
      heap := update st.heap st.heapSize nodeIdx
      heapSize := st.heapSize + 1 } st.heapSize

/-- `extract_min()`: the returned index, `-1` for an empty queue. -/
def extractMin (st : Static) : Int × Static :=
  if st.heapSize = 0 then (-1, st)
  else
    (st.heap 0, minHeapify { st with
      heap := update st.heap 0 (st.heap (st.heapSize - 1))
      heapSize := st.heapSize - 1 } 0)

/-- The queued node indices, with multiplicity. -/
def contents (st : Static) : Multiset Nat := (Multiset.range st.heapSize).map st.heap

@[simp] theorem card_contents (st : Static) : st.contents.card = st.heapSize := by
  simp [contents]

/-! ### Exchanging two entries -/

theorem range_map_swap {n a b : Nat} (aLt : a < n) (bLt : b < n) :
    (Multiset.range n).map (Equiv.swap a b) = Multiset.range n := by
  have nodup : ((Multiset.range n).map (Equiv.swap a b)).Nodup :=
    (Multiset.nodup_range n).map (Equiv.swap a b).injective
  refine (Multiset.Nodup.ext nodup (Multiset.nodup_range n)).mpr fun i => ?_
  simp only [Multiset.mem_map, Multiset.mem_range]
  constructor
  · rintro ⟨j, jLt, rfl⟩
    rw [Equiv.swap_apply_def]
    split_ifs <;> assumption
  · intro iLt
    refine ⟨Equiv.swap a b i, ?_, by simp⟩
    rw [Equiv.swap_apply_def]
    split_ifs <;> assumption

theorem swap_heap (st : Static) (a b : Nat) :
    (st.swap a b).heap = st.heap ∘ Equiv.swap a b := by
  funext i
  simp only [swap, Function.comp, Equiv.swap_apply_def]
  by_cases isA : i = a <;> by_cases isB : i = b <;> simp_all

theorem swap_contents (st : Static) {a b : Nat} (aLt : a < st.heapSize)
    (bLt : b < st.heapSize) : (st.swap a b).contents = st.contents := by
  rw [contents, contents, swap_heap, swap_heapSize, ← Multiset.map_map, range_map_swap aLt bLt]

/-! ### The queue operations on the queued indices -/

theorem minHeapify_spec (st : Static) (i : Nat) (inside : i < st.heapSize) :
    (st.minHeapify i).contents = st.contents ∧ (st.minHeapify i).tree = st.tree ∧
      (st.minHeapify i).heapSize = st.heapSize ∧ (st.minHeapify i).treeSize = st.treeSize := by
  induction st, i using minHeapify.induct with
  | case1 st i moved ih =>
    have child : st.smallest i < st.heapSize := by
      have := st.smallest_cases i
      omega
    obtain ⟨same, tree, heapSize, treeSize⟩ := ih child
    rw [minHeapify, if_pos moved]
    exact ⟨same.trans (st.swap_contents inside child), tree, heapSize, treeSize⟩
  | case2 st i stays =>
    rw [minHeapify, if_neg stays]
    exact ⟨rfl, rfl, rfl, rfl⟩

theorem siftUp_spec (st : Static) (i : Nat) (inside : i < st.heapSize) :
    (st.siftUp i).contents = st.contents ∧ (st.siftUp i).tree = st.tree ∧
      (st.siftUp i).heapSize = st.heapSize ∧ (st.siftUp i).treeSize = st.treeSize := by
  induction st, i using siftUp.induct with
  | case1 st i moved ih =>
    have parent : (i - 1) / 2 < st.heapSize := by omega
    obtain ⟨same, tree, heapSize, treeSize⟩ := ih parent
    rw [siftUp, if_pos moved]
    exact ⟨same.trans (st.swap_contents inside parent), tree, heapSize, treeSize⟩
  | case2 st i stays =>
    rw [siftUp, if_neg stays]
    exact ⟨rfl, rfl, rfl, rfl⟩

/-- `insert_heap` adds the node to a queue that is not full. -/
theorem insertHeap_spec (st : Static) (nodeIdx : Nat) (room : st.heapSize < maxHeapSize) :
    (st.insertHeap nodeIdx).contents = nodeIdx ::ₘ st.contents ∧
      (st.insertHeap nodeIdx).tree = st.tree ∧
      (st.insertHeap nodeIdx).heapSize = st.heapSize + 1 ∧
      (st.insertHeap nodeIdx).treeSize = st.treeSize := by
  rw [insertHeap, if_neg (by omega)]
  obtain ⟨same, tree, heapSize, treeSize⟩ := siftUp_spec
    { st with
      heap := update st.heap st.heapSize nodeIdx
      heapSize := st.heapSize + 1 } st.heapSize (Nat.lt_succ_self _)
  refine ⟨same.trans ?_, tree, heapSize, treeSize⟩
  have older : (Multiset.range st.heapSize).map (update st.heap st.heapSize nodeIdx) =
      (Multiset.range st.heapSize).map st.heap := by
    refine Multiset.map_congr rfl fun i member => ?_
    rw [update_of_ne (Multiset.mem_range.mp member).ne]
  simp only [contents, Multiset.range_succ, Multiset.map_cons, update_self, older]

/-- `extract_min` removes one queued index and returns it. -/
theorem extractMin_spec (st : Static) (nonempty : 0 < st.heapSize) :
    ∃ index : Nat, st.extractMin.1 = index ∧
      index ::ₘ st.extractMin.2.contents = st.contents ∧
      st.extractMin.2.tree = st.tree ∧
      st.extractMin.2.heapSize = st.heapSize - 1 ∧
      st.extractMin.2.treeSize = st.treeSize := by
  obtain ⟨last, heapSize⟩ : ∃ last, st.heapSize = last + 1 := ⟨st.heapSize - 1, by omega⟩
  refine ⟨st.heap 0, by simp [extractMin, heapSize], ?_⟩
  -- entry 0 takes the last one's place, so the queue loses exactly `heap[0]`
  have moved : st.heap 0 ::ₘ (Multiset.range last).map
      (update st.heap 0 (st.heap last)) = st.contents := by
    rw [contents, heapSize]
    cases last with
    | zero => simp [Multiset.range_succ]
    | succ last =>
      have split (n : Nat) (f : Nat → Nat) : (Multiset.range (n + 1)).map f =
          f 0 ::ₘ (Multiset.range n).map (fun i => f (i + 1)) := by
        simp [Multiset.range, ← Multiset.cons_coe, List.range_succ_eq_map, Function.comp_def]
      rw [split, Multiset.range_succ, Multiset.map_cons, split, update_self]
      have shifted : (Multiset.range last).map
          (fun i => update st.heap 0 (st.heap (last + 1)) (i + 1)) =
          (Multiset.range last).map (fun i => st.heap (i + 1)) :=
        Multiset.map_congr rfl fun i _ => update_of_ne (by omega) _ _
      rw [shifted, Multiset.cons_swap (st.heap (last + 1))]
  rw [extractMin, if_neg (by omega)]
  simp only [heapSize, Nat.add_sub_cancel]
  by_cases empty : last = 0
  · subst empty
    rw [minHeapify, if_neg (by simp [smallest])]
    exact ⟨moved, rfl, rfl, rfl⟩
  · obtain ⟨same, tree, size, treeSize⟩ := minHeapify_spec
      { st with heap := update st.heap 0 (st.heap last), heapSize := last } 0
      (by simp only; omega)
    exact ⟨by rw [same]; exact moved, tree, size, treeSize⟩

end Static

end Xv6.Kernel.Huffman
