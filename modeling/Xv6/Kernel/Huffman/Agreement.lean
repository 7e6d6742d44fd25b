import Xv6.Kernel.Huffman.BitStream

/-!
The decoder reads the encoder's bit stream.

Owns: the node array read back from its memory image, the decoder's inner loop
along a code word, its outer loop along a list of code words, and the result of
`decompress_huffman` on what a successful `compress_huffman` wrote.

Does not own: whether the decoded bytes are the encoded ones.
-/

namespace Xv6.Kernel.Huffman

open Xv6.Lib Function

/-! ### The node array and its memory image -/

theorem nodeAt_congr {m m' : Mem} {offset offset' : Nat}
    (same : ∀ k < nodeSize, m (offset + k) = m' (offset' + k)) :
    nodeAt m offset = nodeAt m' offset' := by
  have word (k : Nat) (low : k + 4 ≤ nodeSize) : m.le32 (offset + k) = m'.le32 (offset' + k) := by
    apply Mem.le32_congr
    intro i inside
    rw [Nat.add_assoc, Nat.add_assoc, same (k + i) (by omega)]
  have byte (k : Nat) (low : k < nodeSize) := same k low
  simp only [nodeAt, word 4 (by decide), word 8 (by decide), word 12 (by decide),
    byte 1 (by decide), byte 2 (by decide), byte 3 (by decide)]
  rw [show m offset = m' offset' from byte 0 (by decide)]

theorem nodeAt_of_bytes {m : Mem} {offset : Nat} {node : Node}
    (spell : ∀ k < nodeSize, m (offset + k) = (nodeBytes node).getD k 0) :
    nodeAt m offset = node := by
  have freq : m.le32 (offset + 4) = node.freq.toUInt32 := by
    apply Mem.le32_of_bytes
    intro i inside
    rw [Nat.add_assoc, spell _ (by unfold nodeSize; omega)]
    interval_cases i <;> rfl
  have left : m.le32 (offset + 8) = node.left.toUInt32 := by
    apply Mem.le32_of_bytes
    intro i inside
    rw [Nat.add_assoc, spell _ (by unfold nodeSize; omega)]
    interval_cases i <;> rfl
  have right : m.le32 (offset + 12) = node.right.toUInt32 := by
    apply Mem.le32_of_bytes
    intro i inside
    rw [Nat.add_assoc, spell _ (by unfold nodeSize; omega)]
    interval_cases i <;> rfl
  have c : m offset = node.c := spell 0 (by decide)
  have pad1 : m (offset + 1) = node.pad.1 := spell 1 (by decide)
  have pad2 : m (offset + 2) = node.pad.2.1 := spell 2 (by decide)
  have pad3 : m (offset + 3) = node.pad.2.2 := spell 3 (by decide)
  simp only [nodeAt, freq, left, right, c, pad1, pad2, pad3, Int32.toInt32_toUInt32]

theorem treeMem_apply (tree : Nat → Node) (i : Nat) {k : Nat} (low : k < nodeSize) :
    treeMem tree (nodeSize * i + k) = (nodeBytes (tree i)).getD k 0 := by
  have index : (nodeSize * i + k) / nodeSize = i := by
    rw [Nat.mul_add_div (by decide), Nat.div_eq_of_lt low, Nat.add_zero]
  have offset : (nodeSize * i + k) % nodeSize = k := by
    rw [Nat.mul_add_mod, Nat.mod_eq_of_lt low]
  rw [treeMem, index, offset]

/-! ### The decoder on a loaded tree -/

/-- The static variables hold these nodes. -/
structure Loads (st : Static) (nodes : Nat → Node) (count : Nat) : Prop where
  size : st.treeSize = count
  fits : count ≤ maxTreeNodes
  node : ∀ i < count, st.tree i = nodes i

theorem Loads.fetch {st : Static} {nodes : Nat → Node} {count : Nat} (loads : Loads st nodes count)
    {index : Int32} (nonneg : 0 ≤ index) (inside : index.toNatClampNeg < count) :
    st.fetch index = some (nodes index.toNatClampNeg) := by
  have fits := loads.fits
  rw [Static.fetch, if_pos ⟨nonneg, by omega⟩, loads.node _ inside]

/-- The memory spells these bits from `position` on. -/
def Spells (m : Mem) (position : Nat) (bits : List Bool) : Prop :=
  ∀ j (inside : j < bits.length), m.bit (position + j) = bits[j]

theorem Spells.head {m : Mem} {position : Nat} {bit : Bool} {rest : List Bool}
    (spells : Spells m position (bit :: rest)) : m.bit position = bit :=
  spells 0 (by simp)

theorem Spells.tail {m : Mem} {position : Nat} {bit : Bool} {rest : List Bool}
    (spells : Spells m position (bit :: rest)) : Spells m (position + 1) rest := by
  intro j inside
  have here := spells (j + 1) (by simpa using inside)
  rwa [List.getElem_cons_succ, ← Nat.add_assoc, Nat.add_right_comm] at here

theorem Spells.append {m : Mem} {position : Nat} {first second : List Bool}
    (spells : Spells m position (first ++ second)) :
    Spells m position first ∧ Spells m (position + first.length) second := by
  constructor
  · intro j inside
    rw [spells j (by simp; omega), List.getElem_append_left inside]
  · intro j inside
    rw [Nat.add_assoc, spells _ (by simp; omega), List.getElem_append_right (by omega)]
    simp

section Decoder

variable {st : Static} {t : CodeTree} {input : Mem} {inlen : Nat}

theorem decodeWalk_path (loads : Loads st t.node t.size) (c : UInt8) (curr : Nat)
    (inside : curr < t.size) (index : Int32) (nonneg : 0 ≤ index)
    (isCurr : index.toNatClampNeg = curr) (pos : Cursor)
    (spells : Spells input pos.position (t.path c curr inside))
    (room : pos.position + (t.path c curr inside).length ≤ 8 * inlen) :
    ∃ after, decodeWalk st input inlen index pos = some (t.node (t.leafOf c curr inside), after) ∧
      after.position = pos.position + (t.path c curr inside).length := by
  induction curr, inside using CodeTree.path.induct t c generalizing index pos with
  | case1 curr inside inner ih =>
    rw [CodeTree.path, dif_pos inner] at spells room ⊢
    rw [CodeTree.leafOf, dif_pos inner]
    simp only [List.length_cons] at room ⊢
    have unread : ¬ inlen ≤ pos.bytePos := by
      have := pos.bytePos_lt_iff inlen
      omega
    obtain ⟨-, -, leftSome, rightSome⟩ := t.below curr inside inner
    -- the stored bit sends the decoder where the comparison sent the encoder
    have bit : readBit input pos = t.goesRight c curr := (readBit_eq input pos).trans spells.head
    obtain ⟨after, walked, position⟩ := ih
      (if readBit input pos then (t.node curr).right else (t.node curr).left)
      (by split <;> assumption)
      (by rw [bit]; cases t.goesRight c curr <;> rfl)
      pos.next
      (by rw [Cursor.position_next]; exact spells.tail)
      (by rw [Cursor.position_next]; omega)
    refine ⟨after, ?_, by rw [position, Cursor.position_next]; omega⟩
    rw [decodeWalk, loads.fetch nonneg (by omega), isCurr]
    have test : (t.node curr).left ≠ -1 ∨ (t.node curr).right ≠ -1 := inner
    simp only
    rw [if_pos test, if_neg unread, walked]
  | case2 curr inside leaf =>
    rw [CodeTree.path, dif_neg leaf, CodeTree.leafOf, dif_neg leaf]
    refine ⟨pos, ?_, by simp⟩
    rw [decodeWalk, loads.fetch nonneg (by omega), isCurr]
    have test : ¬ ((t.node curr).left ≠ -1 ∨ (t.node curr).right ≠ -1) := leaf
    simp only
    rw [if_neg test]

theorem update_copy (m : Mem) (offset : Nat) (head : UInt8) (tail : List UInt8) :
    (Mem.copy (update m offset head) (offset + 1) tail) = m.copy offset (head :: tail) := by
  rw [Mem.copy_cons]
  funext i
  by_cases first : i = offset
  · subst first
    rw [Mem.copy_outside _ (by omega), if_pos rfl, update_self]
  · rw [if_neg first]
    unfold Mem.copy
    rw [update_of_ne first]

theorem decodeLoop_words (loads : Loads st t.node t.size) (rootInner : t.IsInner t.root)
    (rest : List UInt8) (pos : Cursor) (outPos : Nat) (out : Mem)
    (spells : Spells input pos.position (rest.flatMap t.word))
    (room : pos.position + (rest.flatMap t.word).length ≤ 8 * inlen) :
    decodeLoop st input inlen (outPos + rest.length) pos outPos out =
      some (outPos + rest.length, out.copy outPos (rest.map fun c => (t.node (t.target c)).c)) := by
  induction rest generalizing pos outPos out with
  | nil =>
    rw [decodeLoop, if_neg (by simp)]
    simp
  | cons c rest ih =>
    have wordPos : 0 < (t.word c).length := by
      rw [CodeTree.word, CodeTree.path, dif_pos rootInner]
      simp
    rw [List.flatMap_cons] at spells room
    rw [List.length_append] at room
    obtain ⟨first, later⟩ := spells.append
    have sizeBound := loads.fits
    have rootIndex : Int32.ofInt (st.treeSize - 1) = Int32.ofInt (t.root : Int) := by
      have := t.nonempty
      rw [loads.size, CodeTree.root]
      congr 1
      omega
    have rootSmall : t.root < 2 ^ 31 := by
      have := t.root_lt
      unfold maxTreeNodes at sizeBound
      omega
    have wordRoom : pos.position + (t.word c).length ≤ 8 * inlen := by omega
    obtain ⟨after, walked, position⟩ := decodeWalk_path loads c t.root t.root_lt
      (Int32.ofInt (t.root : Int)) (ofInt_nonneg rootSmall) (toNatClampNeg_ofInt rootSmall) pos
      first wordRoom
    change decodeWalk st input inlen _ pos = some (t.node (t.target c), after) at walked
    change after.position = pos.position + (t.word c).length at position
    have leaf : (t.node (t.target c)).left = -1 ∧ (t.node (t.target c)).right = -1 := by
      have := (t.leafOf_spec c t.root t.root_lt).2
      simpa [CodeTree.IsInner, CodeTree.target, not_or] using this
    have running : pos.bytePos < inlen := (pos.bytePos_lt_iff inlen).mpr (by omega)
    have next := ih after (outPos + 1)
      (update out outPos (t.node (t.target c)).c) (by rwa [position]) (by omega)
    rw [decodeLoop, if_pos ⟨running, by simp⟩, rootIndex]
    split
    · rename_i missing
      rw [walked] at missing
      cases missing
    · rename_i node pos' found
      rw [walked] at found
      cases found
      rw [if_pos leaf, List.length_cons, show outPos + (rest.length + 1) = outPos + 1 + rest.length
        by omega, next, update_copy, List.map_cons]

end Decoder

/-! ### What a successful compression leaves in its output -/

/-- The first `length` bytes of `out` are the stored tree and the code words of
`bytes`, padded to a whole byte. -/
structure Encoded (t : CodeTree) (bytes : List UInt8) (length : Nat) (out : Mem) : Prop where
  size : out.le32 0 = UInt32.ofNat t.size
  node : ∀ i < t.size, nodeAt out (4 + nodeSize * i) = t.node i
  spells : Spells out (8 * (4 + nodeSize * t.size)) (bytes.flatMap t.word)
  long : 8 * (4 + nodeSize * t.size) + (bytes.flatMap t.word).length ≤ 8 * length
  tight : 8 * length < 8 * (4 + nodeSize * t.size) + (bytes.flatMap t.word).length + 8

theorem header_spec (t : CodeTree) (output out : Mem)
    (kept : ∀ i, i < 4 + nodeSize * t.size →
      out i = ((output.copy 0 (Mem.bytes32 (UInt32.ofNat t.size))).copy 4
        ((treeMem t.node).read 0 (nodeSize * t.size))) i) :
    out.le32 0 = UInt32.ofNat t.size ∧
      ∀ i < t.size, nodeAt out (4 + nodeSize * i) = t.node i := by
  constructor
  · apply Mem.le32_of_bytes
    intro i low
    rw [kept _ (by omega), Mem.copy_outside _ (by omega),
      Mem.copy_inside _ (by omega) (by simp; omega), Nat.sub_zero, Nat.zero_add]
  · intro i inside
    apply nodeAt_of_bytes
    intro k low
    have next : nodeSize * (i + 1) ≤ nodeSize * t.size := Nat.mul_le_mul_left _ inside
    rw [Nat.mul_add, Nat.mul_one] at next
    rw [kept _ (by omega), Mem.copy_inside _ (by omega) (by simp; omega),
      Mem.getD_read _ _ (by omega), ← treeMem_apply _ _ low]
    congr 1
    omega

theorem encode_spec {st : Static} {t : CodeTree} {bytes : List UInt8} {output : Mem}
    {maxlen : Nat} (success : 0 < (encode st t bytes output maxlen).ret) :
    ∃ length : Nat, (encode st t bytes output maxlen).ret = length ∧ length < bytes.length ∧
      Encoded t bytes length (encode st t bytes output maxlen).out := by
  simp only [encode] at success ⊢
  split at success
  · simp at success
  rename_i room
  rw [if_neg room]
  split at success
  · simp at success
  rename_i w written
  rw [encodeBytes_eq] at written
  obtain ⟨position, -, stored, kept⟩ := writeBits_spec (Writer.clean_start _ _) written
  rw [Cursor.position_start] at position stored
  obtain ⟨size, node⟩ := header_spec t output w.out kept
  have used := w.pos.bytesUsed_bounds
  split at success
  · simp at success
  rename_i shorter
  rw [if_neg shorter]
  exact ⟨_, rfl, Nat.lt_of_not_le shorter, size, node, stored, by omega, by omega⟩

/-! ### Decompression of such an output -/

theorem toInt32_ofNat {n : Nat} (small : n < 2 ^ 31) :
    (UInt32.ofNat n).toInt32.toNatClampNeg = n := by
  have : (UInt32.ofNat n).toInt32 = Int32.ofNat n := rfl
  rw [this, Int32.toNatClampNeg_ofNat_of_lt small]

theorem ofNat_not_le_zero {n : Nat} (positive : 0 < n) (small : n < 2 ^ 31) :
    ¬ Int32.ofNat n ≤ 0 := by
  rw [Int32.le_iff_toInt_le, Int32.toInt_ofNat_of_lt small]
  simp
  omega

theorem decompressHuffman_encoded (st : Static) {t : CodeTree} {bytes : List UInt8} {length : Nat}
    {input : Mem} (encoded : Encoded t bytes length input) (fits : t.size ≤ maxTreeNodes)
    (short : length < 2 ^ 31) (output : Mem) {maxlen : Nat} (positive : 0 < maxlen)
    (small : maxlen < 2 ^ 31) :
    ∃ loaded, Loads loaded t.node t.size ∧
      decompressHuffman st input (Int32.ofNat length) output (Int32.ofNat maxlen) =
        (decodeLoop loaded input length maxlen (Cursor.start (4 + nodeSize * t.size)) 0
          output).map fun written => ⟨written.1, written.2, loaded⟩ := by
  have sizeSmall : t.size < 2 ^ 31 := by
    unfold maxTreeNodes at fits
    omega
  have stored : (input.le32 0).toInt32.toNatClampNeg = t.size := by
    rw [encoded.size, toInt32_ofNat sizeSmall]
  have storedPos : ¬ (input.le32 0).toInt32 ≤ 0 := by
    rw [encoded.size]
    exact ofNat_not_le_zero t.nonempty sizeSmall
  have long := encoded.long
  have lengthPos : 0 < length := by omega
  refine ⟨st.load input t.size, ⟨rfl, fits, fun i inside => ?_⟩, ?_⟩
  · simp only [Static.load, inside, if_true]
    exact encoded.node i inside
  · unfold decompressHuffman
    rw [if_neg (not_or.mpr ⟨ofNat_not_le_zero lengthPos short, ofNat_not_le_zero positive small⟩)]
    simp only [stored, Int32.toNatClampNeg_ofNat_of_lt short, Int32.toNatClampNeg_ofNat_of_lt small]
    rw [if_neg (not_or.mpr ⟨storedPos, by omega⟩), if_neg (by omega)]

/-- With at least one inner node the decoder returns one byte for each encoded
byte: the `c` field of the leaf the encoder reached for it. -/
theorem decompress_encoded (st : Static) {t : CodeTree} {bytes : List UInt8} {length : Nat}
    {input : Mem} (encoded : Encoded t bytes length input) (fits : t.size ≤ maxTreeNodes)
    (rootInner : t.IsInner t.root) (short : length < 2 ^ 31) (nonempty : bytes ≠ [])
    (small : bytes.length < 2 ^ 31) (output : Mem) :
    ∃ loaded, decompressHuffman st input (Int32.ofNat length) output (Int32.ofNat bytes.length) =
      some ⟨bytes.length, output.copy 0 (bytes.map fun c => (t.node (t.target c)).c), loaded⟩ := by
  obtain ⟨loaded, loads, result⟩ := decompressHuffman_encoded st encoded fits short output
    (List.length_pos_iff.mpr nonempty) small
  have loop := decodeLoop_words loads rootInner bytes
    (Cursor.start (4 + nodeSize * t.size)) 0 output
    (by rw [Cursor.position_start]; exact encoded.spells)
    (by rw [Cursor.position_start]; exact encoded.long)
  rw [Nat.zero_add] at loop
  exact ⟨loaded, by rw [result, loop, Option.map_some]⟩

/-- Without code bits the decoder has nothing to read and returns zero. -/
theorem decompress_encoded_leaf (st : Static) {t : CodeTree} {bytes : List UInt8} {length : Nat}
    {input : Mem} (encoded : Encoded t bytes length input) (fits : t.size ≤ maxTreeNodes)
    (rootLeaf : ¬ t.IsInner t.root) (short : length < 2 ^ 31) (nonempty : bytes ≠ [])
    (small : bytes.length < 2 ^ 31) (output : Mem) :
    ∃ loaded, decompressHuffman st input (Int32.ofNat length) output (Int32.ofNat bytes.length) =
      some ⟨0, output, loaded⟩ := by
  obtain ⟨loaded, loads, result⟩ := decompressHuffman_encoded st encoded fits short output
    (List.length_pos_iff.mpr nonempty) small
  have noBits : bytes.flatMap t.word = [] := by
    rw [List.flatMap_eq_nil_iff]
    intro c _
    rw [CodeTree.word, CodeTree.path, dif_neg rootLeaf]
  have tight := encoded.tight
  rw [noBits, List.length_nil] at tight
  refine ⟨loaded, ?_⟩
  rw [result, decodeLoop, if_neg]
  · rfl
  · have := (Cursor.start (4 + nodeSize * t.size)).bytePos_lt_iff length
    rw [Cursor.position_start] at this
    omega

end Xv6.Kernel.Huffman
