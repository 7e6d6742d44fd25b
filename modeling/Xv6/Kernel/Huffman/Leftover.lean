import Xv6.Kernel.Huffman.Bounds
import Xv6.Kernel.Huffman.HeapOrder

/-!
What `compress_huffman` keeps of the static arrays' old contents.

Owns: two runs of `build_tree` from arrays that agree on the `c` fields it does not
assign, two runs of the encoder on trees that agree up to the padding of the node
records, and what a caller can tell of their results.

Does not own: that such `c` fields show in the result.
-/

namespace Xv6.Kernel.Huffman

open Xv6.Lib Function

/-- The same node, up to the three bytes the compiler puts after `c`. -/
structure Node.Same (a b : Node) : Prop where
  c : a.c = b.c
  freq : a.freq = b.freq
  left : a.left = b.left
  right : a.right = b.right

/-! ### Two runs of `build_tree` -/

/-- Two states that `build_tree` treats alike: the same queue, the same nodes built,
and the same `c` from place `low` to `high`, where its inner nodes will lie. -/
structure Alike (low high : Nat) (a b : Static) : Prop where
  heapSize : a.heapSize = b.heapSize
  treeSize : a.treeSize = b.treeSize
  heap : ∀ i < a.heapSize, a.heap i = b.heap i
  queued : ∀ i < a.heapSize, a.heap i < a.treeSize
  node : ∀ p < a.treeSize, (a.tree p).Same (b.tree p)
  stale : ∀ p, low ≤ p → p ≤ high → (a.tree p).c = (b.tree p).c

section Alike

variable {low high : Nat} {a b : Static}

theorem Alike.freqAt (alike : Alike low high a b) {i : Nat} (inside : i < a.heapSize) :
    a.freqAt i = b.freqAt i := by
  rw [Static.freqAt, Static.freqAt, ← alike.heap i inside]
  exact (alike.node _ (alike.queued i inside)).freq

theorem Alike.swap (alike : Alike low high a b) {i j : Nat} (iInside : i < a.heapSize)
    (jInside : j < a.heapSize) : Alike low high (a.swap i j) (b.swap i j) := by
  have moved (k : Nat) (inside : k < a.heapSize) : Equiv.swap i j k < a.heapSize := by
    rw [Equiv.swap_apply_def]
    split_ifs <;> assumption
  refine ⟨alike.heapSize, alike.treeSize, ?_, ?_, alike.node, alike.stale⟩
  · intro k inside
    rw [Static.swap_heap, Static.swap_heap]
    exact alike.heap _ (moved k inside)
  · intro k inside
    rw [Static.swap_heap]
    exact alike.queued _ (moved k inside)

theorem Alike.smallest (alike : Alike low high a b) (i : Nat) : a.smallest i = b.smallest i := by
  have left : (2 * i + 1 < a.heapSize ∧ a.freqAt (2 * i + 1) < a.freqAt i) ↔
      2 * i + 1 < b.heapSize ∧ b.freqAt (2 * i + 1) < b.freqAt i := by
    rw [alike.heapSize]
    refine and_congr_right fun inside => ?_
    rw [← alike.heapSize] at inside
    rw [alike.freqAt inside, alike.freqAt (by omega)]
  have right (first : Nat) (low : first < 2 * i + 2) :
      (2 * i + 2 < a.heapSize ∧ a.freqAt (2 * i + 2) < a.freqAt first) ↔
      2 * i + 2 < b.heapSize ∧ b.freqAt (2 * i + 2) < b.freqAt first := by
    rw [alike.heapSize]
    refine and_congr_right fun inside => ?_
    rw [← alike.heapSize] at inside
    rw [alike.freqAt inside, alike.freqAt (by omega)]
  simp only [Static.smallest, left]
  split
  · simp only [right (2 * i + 1) (by omega)]
  · simp only [right i (by omega)]

theorem Alike.minHeapify (alike : Alike low high a b) (i : Nat) :
    Alike low high (a.minHeapify i) (b.minHeapify i) := by
  induction a, i using Static.minHeapify.induct generalizing b with
  | case1 a i moved ih =>
    have inside := a.smallest_cases i
    have movedToo : b.smallest i ≠ i := by rwa [← alike.smallest i]
    have first : a.minHeapify i = (a.swap i (a.smallest i)).minHeapify (a.smallest i) := by
      rw [Static.minHeapify, if_pos moved]
    have second : b.minHeapify i = (b.swap i (a.smallest i)).minHeapify (a.smallest i) := by
      rw [Static.minHeapify, if_pos movedToo, alike.smallest i]
    rw [first, second]
    exact ih (alike.swap (by omega) (by omega))
  | case2 a i stays =>
    have staysToo : ¬ b.smallest i ≠ i := by rwa [← alike.smallest i]
    have first : a.minHeapify i = a := by rw [Static.minHeapify, if_neg stays]
    have second : b.minHeapify i = b := by rw [Static.minHeapify, if_neg staysToo]
    rw [first, second]
    exact alike

theorem Alike.siftUp (alike : Alike low high a b) (i : Nat) (inside : i < a.heapSize) :
    Alike low high (a.siftUp i) (b.siftUp i) := by
  induction a, i using Static.siftUp.induct generalizing b with
  | case1 a i moved ih =>
    have parent : (i - 1) / 2 < a.heapSize := by omega
    have movedToo := moved
    rw [alike.freqAt inside, alike.freqAt parent] at movedToo
    have first : a.siftUp i = (a.swap i ((i - 1) / 2)).siftUp ((i - 1) / 2) := by
      rw [Static.siftUp, if_pos moved]
    have second : b.siftUp i = (b.swap i ((i - 1) / 2)).siftUp ((i - 1) / 2) := by
      rw [Static.siftUp, if_pos movedToo]
    rw [first, second]
    exact ih (alike.swap inside parent) parent
  | case2 a i stays =>
    have staysToo := stays
    rw [alike.freqAt inside, alike.freqAt (by omega)] at staysToo
    have first : a.siftUp i = a := by rw [Static.siftUp, if_neg stays]
    have second : b.siftUp i = b := by rw [Static.siftUp, if_neg staysToo]
    rw [first, second]
    exact alike

theorem Alike.insertHeap (alike : Alike low high a b) {nodeIdx : Nat}
    (inTree : nodeIdx < a.treeSize) :
    Alike low high (a.insertHeap nodeIdx) (b.insertHeap nodeIdx) := by
  rw [Static.insertHeap, Static.insertHeap, ← alike.heapSize]
  by_cases full : maxHeapSize ≤ a.heapSize
  · rw [if_pos full, if_pos full]
    exact alike
  rw [if_neg full, if_neg full]
  have appended : Alike low high
      { a with heap := update a.heap a.heapSize nodeIdx, heapSize := a.heapSize + 1 }
      { b with heap := update b.heap a.heapSize nodeIdx, heapSize := a.heapSize + 1 } := by
    refine ⟨rfl, alike.treeSize, fun i inside => ?_, fun i inside => ?_, alike.node, alike.stale⟩
    · simp only at inside ⊢
      by_cases new : i = a.heapSize
      · rw [new, update_self, update_self]
      · rw [update_of_ne new, update_of_ne new]
        exact alike.heap i (by omega)
    · simp only at inside ⊢
      by_cases new : i = a.heapSize
      · rwa [new, update_self]
      · rw [update_of_ne new]
        exact alike.queued i (by omega)
  exact appended.siftUp a.heapSize (Nat.lt_succ_self _)

theorem Alike.extractMin (alike : Alike low high a b) (nonempty : 0 < a.heapSize) :
    a.extractMin.1 = b.extractMin.1 ∧ Alike low high a.extractMin.2 b.extractMin.2 := by
  have last : a.heapSize - 1 < a.heapSize := by omega
  rw [Static.extractMin, Static.extractMin, ← alike.heapSize, if_neg (by omega), if_neg (by omega)]
  have removed : Alike low high
      { a with heap := update a.heap 0 (a.heap (a.heapSize - 1)), heapSize := a.heapSize - 1 }
      { b with heap := update b.heap 0 (b.heap (a.heapSize - 1)), heapSize := a.heapSize - 1 } := by
    refine ⟨rfl, alike.treeSize, fun i inside => ?_, fun i inside => ?_, alike.node, alike.stale⟩
    · simp only at inside ⊢
      by_cases first : i = 0
      · rw [first, update_self, update_self, alike.heap _ last]
      · rw [update_of_ne first, update_of_ne first]
        exact alike.heap i (by omega)
    · simp only at inside ⊢
      by_cases first : i = 0
      · rw [first, update_self]
        exact alike.queued _ last
      · rw [update_of_ne first]
        exact alike.queued i (by omega)
  exact ⟨congrArg Int.ofNat (alike.heap 0 nonempty), removed.minHeapify 0⟩

theorem Alike.pushNode (alike : Alike low high a b) {x y : Node} (same : x.Same y) :
    Alike low high (a.pushNode x) (b.pushNode y) := by
  rw [Static.pushNode, Static.pushNode, ← alike.treeSize]
  have filled : Alike low high
      { a with tree := update a.tree a.treeSize x, treeSize := a.treeSize + 1 }
      { b with tree := update b.tree a.treeSize y, treeSize := a.treeSize + 1 } := by
    refine ⟨alike.heapSize, rfl, alike.heap, fun i inside => ?_, fun p inside => ?_,
      fun p above below => ?_⟩
    · exact (alike.queued i inside).trans (Nat.lt_succ_self _)
    · simp only at inside ⊢
      by_cases new : p = a.treeSize
      · rwa [new, update_self, update_self]
      · rw [update_of_ne new, update_of_ne new]
        exact alike.node p (by omega)
    · simp only
      by_cases new : p = a.treeSize
      · rw [new, update_self, update_self, same.c]
      · rw [update_of_ne new, update_of_ne new]
        exact alike.stale p above below
  exact filled.insertHeap (Nat.lt_succ_self _)

theorem Alike.addLeaf (alike : Alike low high a b) (freq : Nat → Int32) (i : Nat) :
    Alike low high (Huffman.addLeaf freq a i) (Huffman.addLeaf freq b i) := by
  rw [Huffman.addLeaf, Huffman.addLeaf]
  split
  · exact alike.pushNode ⟨rfl, rfl, rfl, rfl⟩
  · exact alike

theorem Alike.leafLoop (alike : Alike low high a b) (freq : Nat → Int32) :
    Alike low high (Huffman.leafLoop freq a) (Huffman.leafLoop freq b) := by
  rw [Huffman.leafLoop, Huffman.leafLoop]
  generalize List.range 256 = values
  induction values generalizing a b with
  | nil => exact alike
  | cons i rest ih => exact ih (alike.addLeaf freq i)

/-- A round of the merge loop. The new node's `c` is the old one of its place. -/
theorem Alike.mergeRound (alike : Alike low high a b) (more : 1 < a.heapSize)
    (above : low ≤ a.treeSize) (below : a.treeSize ≤ high) :
    Alike low high (Huffman.mergeRound a) (Huffman.mergeRound b) := by
  obtain ⟨left, firstRet, -, firstTree, firstSize, firstTreeSize⟩ := a.extractMin_spec (by omega)
  obtain ⟨right, secondRet, secondTaken, secondTree, secondSize, secondTreeSize⟩ :=
    a.extractMin.2.extractMin_spec (by omega)
  obtain ⟨sameLeft, afterFirst⟩ := alike.extractMin (by omega)
  obtain ⟨sameRight, afterSecond⟩ := afterFirst.extractMin (by omega)
  have leftQueued : left < a.treeSize := by
    rw [Static.extractMin, if_neg (by omega)] at firstRet
    exact Int.ofNat_inj.mp firstRet ▸ alike.queued 0 (by omega)
  have rightQueued : right < a.extractMin.2.treeSize := by
    rw [Static.extractMin, if_neg (by omega)] at secondRet
    exact Int.ofNat_inj.mp secondRet ▸ afterFirst.queued 0 (by omega)
  rw [Huffman.mergeRound, Huffman.mergeRound, ← sameLeft, ← sameRight, firstRet, secondRet]
  refine afterSecond.pushNode ⟨?_, ?_, rfl, rfl⟩
  · simp only [← afterSecond.treeSize]
    rw [secondTreeSize, firstTreeSize]
    exact afterSecond.stale _ above below
  · have sameFreq (p : Nat) (inside : p < a.treeSize) :
        (a.extractMin.2.extractMin.2.tree p).freq = (b.extractMin.2.extractMin.2.tree p).freq :=
      (afterSecond.node p (by rwa [secondTreeSize, firstTreeSize])).freq
    simp only [Int.toNat_natCast]
    rw [sameFreq left leftQueued, sameFreq right (firstTreeSize ▸ rightQueued)]

theorem Alike.mergeLoop {freq : Nat → Int32} {leaves : List Nat}
    (alike : Alike leaves.length (2 * leaves.length - 2) a b) (forest : Forest freq leaves a)
    (short : leaves.length ≤ maxHeapSize) :
    Alike leaves.length (2 * leaves.length - 2) (Huffman.mergeLoop a) (Huffman.mergeLoop b) := by
  induction a using mergeLoop.induct generalizing b with
  | case1 a more ih =>
    have size := forest.size
    have first := forest.leavesFirst
    unfold maxHeapSize at short
    have next := alike.mergeRound more (by omega) (by omega)
    obtain ⟨left, isLeft, leftTaken, leftTree, leftHeap, leftSize⟩ := a.extractMin_spec (by omega)
    obtain ⟨right, isRight, rightTaken, rightTree, rightHeap, rightSize⟩ :=
      a.extractMin.2.extractMin_spec (by omega)
    have grown := forest.addInternal short (rightTaken.symm ▸ leftTaken)
      (rightTree.trans leftTree) (rightSize.trans leftSize) (by omega)
    rw [← isLeft, ← isRight] at grown
    have moreToo : 1 < b.heapSize := alike.heapSize ▸ more
    have first : Huffman.mergeLoop a = Huffman.mergeLoop (Huffman.mergeRound a) :=
      mergeLoop_more more
    have second : Huffman.mergeLoop b = Huffman.mergeLoop (Huffman.mergeRound b) :=
      mergeLoop_more moreToo
    rw [first, second]
    exact ih next grown
  | case2 a done =>
    have doneToo : ¬ 1 < b.heapSize := alike.heapSize ▸ done
    rw [mergeLoop_done done, mergeLoop_done doneToo]
    exact alike

end Alike

theorem buildTree_alike {a b : Static} {bytes : List UInt8} (short : bytes.length < 2 ^ 31)
    (stale : ∀ p, (symbols bytes).length ≤ p → p ≤ 2 * (symbols bytes).length - 2 →
      (a.tree p).c = (b.tree p).c) :
    Alike (symbols bytes).length (2 * (symbols bytes).length - 2) (buildTree a bytes)
      (buildTree b bytes) := by
  have start : Alike (symbols bytes).length (2 * (symbols bytes).length - 2)
      { a with treeSize := 0, heapSize := 0 } { b with treeSize := 0, heapSize := 0 } :=
    ⟨rfl, rfl, fun i inside => absurd inside (Nat.not_lt_zero i),
      fun i inside => absurd inside (Nat.not_lt_zero i),
      fun p inside => absurd inside (Nat.not_lt_zero p), stale⟩
  exact (start.leafLoop _).mergeLoop (leafLoop_symbols a short).toForest (symbols_length_le bytes)

/-! ### Two runs of the encoder -/

/-- Two code trees with the same nodes. -/
structure CodeTree.Same (t u : CodeTree) : Prop where
  size : t.size = u.size
  node : ∀ p < t.size, (t.node p).Same (u.node p)

section Encoder

variable {t u : CodeTree}

theorem CodeTree.Same.path (same : t.Same u) (c : UInt8) (curr : Nat) (inside : curr < t.size)
    (insideToo : curr < u.size) : t.path c curr inside = u.path c curr insideToo := by
  induction curr using Nat.strong_induction_on with
  | _ curr ih =>
    have here := same.node curr inside
    have innerIff : t.IsInner curr ↔ u.IsInner curr := by
      rw [CodeTree.IsInner, CodeTree.IsInner, here.left, here.right]
    rw [CodeTree.path, CodeTree.path]
    by_cases inner : t.IsInner curr
    · have leftBelow := (t.below curr inside inner).1
      have left : t.left curr = u.left curr := by rw [CodeTree.left, CodeTree.left, here.left]
      have right : t.right curr = u.right curr := by rw [CodeTree.right, CodeTree.right, here.right]
      have turn : t.goesRight c curr = u.goesRight c curr := by
        rw [CodeTree.goesRight, CodeTree.goesRight, ← left,
          (same.node (t.left curr) (leftBelow.trans inside)).c]
      have child : t.child (t.goesRight c curr) curr = u.child (u.goesRight c curr) curr := by
        rw [CodeTree.child, CodeTree.child, turn, left, right]
      have below := t.child_lt inside inner (t.goesRight c curr)
      have rest := ih _ below (below.trans inside) (by rw [← same.size]; omega)
      rw [dif_pos inner, dif_pos (innerIff.mp inner), List.cons.injEq, rest]
      refine ⟨turn, ?_⟩
      congr 1
    · rw [dif_neg inner, dif_neg (fun innerToo => inner (innerIff.mpr innerToo))]

theorem CodeTree.Same.word (same : t.Same u) (c : UInt8) : t.word c = u.word c := by
  have root : t.root = u.root := by rw [CodeTree.root, CodeTree.root, same.size]
  have inside : t.root < u.size := root ▸ u.root_lt
  have rootPath : u.path c t.root inside = u.path c u.root u.root_lt := by
    congr 1
  rw [CodeTree.word, CodeTree.word, same.path c t.root t.root_lt inside, rootPath]

theorem writeBits_alike {maxlen start : Nat} (bits : List Bool) {v w : Writer} (pos : v.pos = w.pos)
    (behind : start ≤ v.pos.bytePos) (out : ∀ i, start ≤ i → v.out i = w.out i) :
    (∃ v' w', writeBits maxlen bits v = .ok v' ∧ writeBits maxlen bits w = .ok w' ∧
        v'.pos = w'.pos ∧ ∀ i, start ≤ i → v'.out i = w'.out i) ∨
      ∃ v' w', writeBits maxlen bits v = .error v' ∧ writeBits maxlen bits w = .error w' := by
  induction bits generalizing v w with
  | nil => exact .inl ⟨v, w, rfl, rfl, pos, out⟩
  | cons bit rest ih =>
    rw [writeBits, writeBits, ← pos]
    by_cases full : maxlen ≤ v.pos.bytePos
    · rw [if_pos full, if_pos full]
      exact .inr ⟨v, w, rfl, rfl⟩
    rw [if_neg full, if_neg full]
    have moved : v.pos.bytePos ≤ (v.writeBit bit).pos.bytePos := by
      have advanced : (v.writeBit bit).pos.position = v.pos.position + 1 := v.pos.position_next
      have before := v.pos.bytePos_eq
      have after := (v.writeBit bit).pos.bytePos_eq
      omega
    refine ih (by rw [Writer.writeBit, Writer.writeBit, pos]) (by omega) ?_
    intro i low
    simp only [Writer.writeBit, ← pos]
    by_cases here : i = v.pos.bytePos
    · subst here
      simp only [update_self]
      split
      · simp only [update_self]
      · rw [out _ behind]
    · simp only [update_of_ne here]
      split
      · simp only [update_of_ne here, out i low]
      · exact out i low

end Encoder

/-! ### What a caller can tell -/

/-- Two results that a caller cannot tell apart: the same value and, if it is positive,
the same tree size, the same fields of every serialized node, and the same code bits. -/
structure SameOutcome (a b : Compressed) : Prop where
  ret : a.ret = b.ret
  size : 0 < a.ret → a.out.le32 0 = b.out.le32 0
  nodes : 0 < a.ret → ∀ i < (a.out.le32 0).toNat,
    (nodeAt a.out (4 + nodeSize * i)).Same (nodeAt b.out (4 + nodeSize * i))
  code : 0 < a.ret → ∀ i : Nat, 4 + nodeSize * (a.out.le32 0).toNat ≤ i → i < a.ret →
    a.out i = b.out i

theorem encode_alike {a b : Static} {t u : CodeTree} (same : t.Same u)
    (fits : t.size ≤ maxTreeNodes) (bytes : List UInt8) (output : Mem) (maxlen : Nat) :
    SameOutcome (encode a t bytes output maxlen) (encode b u bytes output maxlen) := by
  have words : bytes.flatMap t.word = bytes.flatMap u.word :=
    congrArg (bytes.flatMap ·) (funext same.word)
  have ret : (encode a t bytes output maxlen).ret = (encode b u bytes output maxlen).ret ∧
      (0 < (encode a t bytes output maxlen).ret → ∀ i, 4 + nodeSize * t.size ≤ i →
        (encode a t bytes output maxlen).out i = (encode b u bytes output maxlen).out i) := by
    by_cases full : maxlen ≤ 4 + nodeSize * t.size
    · rw [encode_full a t bytes output full, encode_full b u bytes output (same.size ▸ full)]
      exact ⟨rfl, fun _ _ _ => rfl⟩
    rw [encode_eq_finish a t bytes output full,
      encode_eq_finish b u bytes output (same.size ▸ full),
      encodeBytes_eq, encodeBytes_eq, ← words, ← same.size]
    rcases @writeBits_alike maxlen (4 + nodeSize * t.size) (bytes.flatMap t.word)
      ⟨t.header output, Cursor.start (4 + nodeSize * t.size)⟩
      ⟨u.header output, Cursor.start (4 + nodeSize * t.size)⟩ rfl le_rfl
      (fun i low => (t.header_outside output low).trans
        (u.header_outside output (same.size ▸ low)).symm)
      with ⟨v, w, isV, isW, pos, out⟩ | ⟨v, w, isV, isW⟩
    · rw [isV, isW, finish_out, finish_out]
      refine ⟨?_, fun _ => out⟩
      rw [finish, finish, pos]
      split <;> rfl
    · rw [isV, isW]
      exact ⟨rfl, fun success => absurd success (not_pos_of_failed rfl)⟩
  have encoded (success : 0 < (encode a t bytes output maxlen).ret) :
      (encode a t bytes output maxlen).out.le32 0 = UInt32.ofNat t.size ∧
        (encode b u bytes output maxlen).out.le32 0 = UInt32.ofNat t.size ∧
        (UInt32.ofNat t.size).toNat = t.size ∧ ∀ i < t.size,
          (nodeAt (encode a t bytes output maxlen).out (4 + nodeSize * i)).Same
            (nodeAt (encode b u bytes output maxlen).out (4 + nodeSize * i)) := by
    obtain ⟨_, _, _, first⟩ := encode_spec success
    obtain ⟨_, _, _, second⟩ := encode_spec (ret.1 ▸ success)
    unfold maxTreeNodes at fits
    refine ⟨first.size, by rw [second.size, same.size], ?_, fun i inside => ?_⟩
    · rw [UInt32.toNat_ofNat', Nat.mod_eq_of_lt (by omega)]
    · rw [first.node i inside, second.node i (same.size ▸ inside)]
      exact same.node i inside
  refine ⟨ret.1, fun success => ?_, fun success => ?_, fun success => ?_⟩
  · obtain ⟨first, second, -⟩ := encoded success
    rw [first, second]
  · obtain ⟨first, -, isSize, nodes⟩ := encoded success
    rw [first, isSize]
    exact nodes
  · obtain ⟨first, -, isSize, -⟩ := encoded success
    rw [first, isSize]
    exact fun i low _ => ret.2 success i low

/-- Arrays with the same `c` fields at the places of the inner nodes give the same
result. -/
theorem compressHuffman_alike {a b : Static} {input : Mem} {inlen : Int32}
    (stale : ∀ p, (symbols (inputBytes input inlen)).length ≤ p →
      p ≤ 2 * (symbols (inputBytes input inlen)).length - 2 → (a.tree p).c = (b.tree p).c)
    (output : Mem) (maxlen : Int32) :
    SameOutcome (compressHuffman a input inlen output maxlen)
      (compressHuffman b input inlen output maxlen) := by
  rw [compressHuffman, compressHuffman]
  by_cases positive : 0 < inlen ∧ 0 < maxlen
  · rw [dif_pos positive, dif_pos positive]
    have alike := buildTree_alike (inputBytes_short input inlen) stale
    exact encode_alike ⟨alike.treeSize, alike.node⟩ (builtTree_fits _ _ _) _ _ _
  · rw [dif_neg positive, dif_neg positive]
    exact ⟨rfl, fun success => absurd success (not_pos_of_failed rfl),
      fun success => absurd success (not_pos_of_failed rfl),
      fun success => absurd success (not_pos_of_failed rfl)⟩

end Xv6.Kernel.Huffman
