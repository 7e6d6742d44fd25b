import Xv6.Kernel.Huffman.RoundTrip

/-!
The stream of bits a compression writes, as a whole.

Owns: the number of its bits, the return value of `compress_huffman` in terms of
it, and that the decoder follows the encoder's walks to their leaves whatever the
padding bits of the last byte are.

Does not own: what `writei` does with the image.
-/

namespace Xv6.Kernel.Huffman

open Xv6.Lib

/-- The bits of tree size, node array and code words. -/
def CodeTree.imageBits (t : CodeTree) (bytes : List UInt8) : Nat :=
  8 * (4 + nodeSize * t.size) + (bytes.flatMap t.word).length

/-! ### The return value -/

/-- Bits that fit are written. -/
theorem writeBits_ok {maxlen : Nat} (bits : List Bool) (w : Writer)
    (fits : w.pos.position + bits.length ≤ 8 * maxlen) :
    ∃ w', writeBits maxlen bits w = .ok w' ∧
      w'.pos.position = w.pos.position + bits.length := by
  induction bits generalizing w with
  | nil => exact ⟨w, rfl, rfl⟩
  | cons bit rest ih =>
    have room := w.pos.bytePos_lt_iff maxlen
    have advanced : (w.writeBit bit).pos.position = w.pos.position + 1 := w.pos.position_next
    rw [List.length_cons] at fits
    obtain ⟨w', written, position⟩ := ih (w.writeBit bit) (by omega)
    refine ⟨w', ?_, by rw [position, advanced, List.length_cons]; omega⟩
    rw [writeBits, if_neg (by omega)]
    exact written

/-- The encoder returns the number of bytes its bits take when these fit the
output and save space. -/
theorem encode_ret (st : Static) (t : CodeTree) {bytes : List UInt8} (output : Mem) {maxlen k : Nat}
    (room : 4 + nodeSize * t.size < maxlen) (fits : t.imageBits bytes ≤ 8 * maxlen)
    (long : t.imageBits bytes ≤ 8 * k) (tight : 8 * k < t.imageBits bytes + 8)
    (saves : k < bytes.length) : (encode st t bytes output maxlen).ret = k := by
  obtain ⟨w, written, position⟩ := @writeBits_ok maxlen (bytes.flatMap t.word)
    ⟨(output.copy 0 (Mem.bytes32 (UInt32.ofNat t.size))).copy 4
      ((treeMem t.node).read 0 (nodeSize * t.size)), Cursor.start (4 + nodeSize * t.size)⟩ (by
      rw [Cursor.position_start]
      exact fits)
  rw [Cursor.position_start] at position
  have used := w.pos.bytesUsed_bounds
  have isK : w.pos.bytesUsed = k := by
    unfold CodeTree.imageBits at long tight
    omega
  simp only [encode, encodeBytes_eq]
  rw [if_neg (by omega), written]
  simp only [isK]
  rw [if_neg (by omega)]

theorem compressHuffman_room {st : Static} {input output : Mem} {inlen maxlen : Int32}
    (success : 0 < (compressHuffman st input inlen output maxlen).ret) : 0 < maxlen := by
  by_contra absent
  rw [compressHuffman, dif_neg fun both => absent both.2] at success
  exact absurd success (Int.not_lt.mpr (Int.neg_nonpos_of_nonneg Int.one_nonneg))

theorem imageBits_of_rightLeaf {t : CodeTree} (rootInner : t.IsInner t.root)
    (stale : (t.node (t.left t.root)).c = 0) (rightLeaf : ¬ t.IsInner (t.right t.root))
    {bytes : List UInt8} : t.imageBits bytes = 8 * (4 + nodeSize * t.size) + bytes.length := by
  have word : ∀ c, t.word c = [true] := by
    intro c
    have goesRight : t.goesRight c t.root = true := by
      rw [CodeTree.goesRight, stale]
      exact decide_eq_true UInt8.not_lt_zero
    have child : t.child (t.goesRight c t.root) t.root = t.right t.root := by
      rw [goesRight]
      rfl
    rw [CodeTree.word, CodeTree.path, dif_pos rootInner, List.cons.injEq]
    exact ⟨goesRight, by rw [CodeTree.path, dif_neg (by rw [child]; exact rightLeaf)]⟩
  have words : bytes.flatMap t.word = bytes.map fun _ => true := by
    rw [List.map_eq_flatMap]
    exact congrArg (bytes.flatMap ·) (funext word)
  rw [CodeTree.imageBits, words, List.length_map]

/-! ### A payload of many bytes -/

/-- Thirty-two different bytes, once each, and zeros. -/
def crowded : List UInt8 :=
  (List.range 32).map (fun i => UInt8.ofNat (i + 1)) ++ List.replicate 2016 0

theorem crowded_length : crowded.length = 2048 := by
  rw [crowded, List.length_append, List.length_map, List.length_range, List.length_replicate]

theorem crowded_nonempty : crowded ≠ [] := by
  rw [← List.length_pos_iff, crowded_length]
  decide

theorem crowded_short : crowded.length < 2 ^ 31 := by
  rw [crowded_length]
  decide

/-- Its counters. -/
def crowdedFreq (i : Nat) : Int32 := if i = 0 then 2016 else if i < 33 then 1 else 0

theorem crowded_counted : countFrequencies crowded = crowdedFreq := by
  have head : ∀ i < 33, ((List.range 32).map fun i => UInt8.ofNat (i + 1)).countP
      (fun byte => byte.toNat = i) = if i = 0 then 0 else 1 := by decide
  have below : ∀ byte ∈ (List.range 32).map fun i => UInt8.ofNat (i + 1), byte.toNat < 33 := by
    intro byte member
    obtain ⟨i, low, rfl⟩ := List.mem_map.mp member
    have := List.mem_range.mp low
    rw [UInt8.toNat_ofNat']
    omega
  funext i
  rw [countFrequencies_eq, crowded, List.countP_append, List.countP_replicate, crowdedFreq]
  by_cases zero : i = 0
  · subst zero
    rw [head 0 (by decide)]
    rfl
  rw [if_neg zero, if_neg (by simpa using Ne.symm zero), Nat.add_zero]
  by_cases low : i < 33
  · rw [head i low, if_neg zero, if_pos low]
    rfl
  · rw [if_neg low, List.countP_eq_zero.mpr]
    · rfl
    · intro byte member isByte
      have := below byte member
      have := of_decide_eq_true isByte
      omega

/-- The static arrays after `build_tree` on the payload, from cleared ones. -/
def crowdedStatic : Static :=
  mergeLoop (leafLoop crowdedFreq { Static.clear with treeSize := 0, heapSize := 0 })

theorem crowdedStatic_root : crowdedStatic.treeSize = 65 ∧
    (crowdedStatic.tree 64).left = 63 ∧ (crowdedStatic.tree 64).right = 0 ∧
    (crowdedStatic.tree 63).c = 0 ∧ (crowdedStatic.tree 0).left = -1 ∧
    (crowdedStatic.tree 0).right = -1 := by
  decide +kernel

-- stated for any input, so that no tree is evaluated where they are used
theorem builtTree_treeSize (st : Static) {bytes : List UInt8} (nonempty : bytes ≠ [])
    (short : bytes.length < 2 ^ 31) :
    (builtTree st bytes nonempty short).size = (buildTree st bytes).treeSize := rfl

theorem builtTree_tree (st : Static) {bytes : List UInt8} (nonempty : bytes ≠ [])
    (short : bytes.length < 2 ^ 31) :
    (builtTree st bytes nonempty short).node = (buildTree st bytes).tree := rfl

theorem crowded_built : buildTree Static.clear crowded = crowdedStatic := by
  rw [buildTree, crowded_counted, crowdedStatic]

theorem imageBits_of_built {t : CodeTree} {built : Static} (isBuilt : built = crowdedStatic)
    (size : t.size = built.treeSize) (node : t.node = built.tree) :
    t.imageBits crowded = 8 * 1300 ∧ t.size = 65 := by
  obtain ⟨treeSize, left, right, stale, zeroLeft, zeroRight⟩ := crowdedStatic_root
  rw [← isBuilt, ← node] at left right stale zeroLeft zeroRight
  rw [isBuilt, treeSize] at size
  have root : t.root = 64 := by rw [CodeTree.root, size]
  have leftIndex : t.left t.root = 63 := by
    rw [CodeTree.left, root, left]
    rfl
  have rightIndex : t.right t.root = 0 := by
    rw [CodeTree.right, root, right]
    rfl
  have rootInner : t.IsInner t.root := by
    rw [CodeTree.IsInner, root, left]
    exact .inl (by decide)
  have rightLeaf : ¬ t.IsInner (t.right t.root) := by
    rw [CodeTree.IsInner, rightIndex, zeroLeft, zeroRight]
    simp
  refine ⟨?_, size⟩
  rw [imageBits_of_rightLeaf rootInner (by rw [leftIndex, stale]) rightLeaf, size, crowded_length,
    nodeSize]

/-- It takes 1300 bytes: 1044 of tree and 256 of code words. -/
theorem crowded_compressed {input : Mem} (isInput : input.read 0 crowded.length = crowded)
    (output : Mem) : (compressHuffman Static.clear input (Int32.ofNat crowded.length) output
      (Int32.ofNat 4096)).ret = 1300 := by
  rw [compressHuffman_eq Static.clear crowded_nonempty crowded_short isInput output (by decide)]
  obtain ⟨bits, size⟩ := @imageBits_of_built
    (builtTree Static.clear crowded crowded_nonempty crowded_short) _ crowded_built
    (builtTree_treeSize _ _ _) (builtTree_tree _ _ _)
  generalize builtTree Static.clear crowded crowded_nonempty crowded_short = t at *
  refine encode_ret (k := 1300) _ t output ?_ ?_ ?_ ?_ ?_
  · rw [size]
    decide
  · rw [bits]
    decide
  · rw [bits]
  · rw [bits]
    decide
  · rw [crowded_length]
    decide

/-- A list of bytes in memory. -/
def listMem (bytes : List UInt8) : Mem := fun i => bytes.getD i 0

theorem listMem_read (bytes : List UInt8) : (listMem bytes).read 0 bytes.length = bytes := by
  apply List.ext_getElem (Mem.length_read _ _ _)
  intro i _ inside
  simp [Mem.read, listMem, inside]

/-! ### Padding -/

theorem Encoded.of_bits {t : CodeTree} {bytes : List UInt8} {length : Nat} {out image : Mem}
    (encoded : Encoded t bytes length out)
    (same : ∀ q < t.imageBits bytes, image.bit q = out.bit q) : Encoded t bytes length image := by
  have header : ∀ i < 4 + nodeSize * t.size, image i = out i := by
    intro i inside
    refine Mem.eq_of_bit_eq (n := 4 + nodeSize * t.size) (fun q low => same q ?_) inside
    unfold CodeTree.imageBits
    omega
  refine ⟨?_, ?_, ?_, encoded.long, encoded.tight⟩
  · rw [← encoded.size]
    exact Mem.le32_congr fun i low => header _ (by omega)
  · intro i inside
    have next : nodeSize * (i + 1) ≤ nodeSize * t.size := Nat.mul_le_mul_left _ inside
    rw [Nat.mul_add, Nat.mul_one] at next
    rw [← encoded.node i inside]
    exact nodeAt_congr fun k low => header _ (by omega)
  · intro j inside
    rw [← encoded.spells j inside]
    apply same
    unfold CodeTree.imageBits
    omega

theorem two_le_symbols {s : List UInt8} {a b : UInt8} (hasA : a ∈ s) (hasB : b ∈ s)
    (different : a ≠ b) : 2 ≤ (symbols s).length := by
  have distinct : [a.toNat, b.toNat].Nodup := by
    simpa using fun same => different (UInt8.toNat_inj.mp same)
  have included : [a.toNat, b.toNat] ⊆ symbols s := by
    intro i member
    simp only [List.mem_cons, List.not_mem_nil, or_false] at member
    rcases member with rfl | rfl
    · exact toNat_mem_symbols hasA
    · exact toNat_mem_symbols hasB
  simpa using (distinct.subperm included).length_le

/-- On what a successful compression wrote, with any padding in the last byte,
the decoder returns one byte for each byte of the input: the `c` field of the
leaf at which the encoder's walk for it ended. -/
theorem decompress_follows_encoder (st st' : Static) {s : List UInt8} (nonempty : s ≠ [])
    (short : s.length < 2 ^ 31) {a b : UInt8} (hasA : a ∈ s) (hasB : b ∈ s) (different : a ≠ b)
    {input : Mem} (isInput : input.read 0 s.length = s) (output buf : Mem) {maxlen : Int32}
    (success : 0 < (compressHuffman st input (Int32.ofNat s.length) output maxlen).ret)
    {image : Mem} (padded : ∀ q < (builtTree st s nonempty short).imageBits s, image.bit q =
      (compressHuffman st input (Int32.ofNat s.length) output maxlen).out.bit q) :
    ∃ k : Nat, (compressHuffman st input (Int32.ofNat s.length) output maxlen).ret = k ∧
      (builtTree st s nonempty short).imageBits s ≤ 8 * k ∧
      8 * k < (builtTree st s nonempty short).imageBits s + 8 ∧
      ∃ d, decompressHuffman st' image (Int32.ofNat k) buf (Int32.ofNat s.length) = some d ∧
        d.ret = s.length ∧ ∀ i (inside : i < s.length), d.out i =
          ((builtTree st s nonempty short).node
            ((builtTree st s nonempty short).target s[i])).c := by
  have room := compressHuffman_room success
  rw [compressHuffman_eq st nonempty short isInput output room] at success padded ⊢
  obtain ⟨k, ret, saves, encoded⟩ := encode_spec success
  have rootInner :
      (builtTree st s nonempty short).IsInner (builtTree st s nonempty short).root := by
    have size := builtTree_size st nonempty short
    have two := two_le_symbols hasA hasB different
    rw [builtTree_inner_iff st nonempty short (CodeTree.root_lt _), CodeTree.root]
    omega
  obtain ⟨loaded, decoded⟩ := decompress_encoded st' (encoded.of_bits padded)
    (builtTree_fits st nonempty short) rootInner (by omega) nonempty short buf
  refine ⟨k, ret, encoded.long, encoded.tight, _, decoded, rfl, fun i inside => ?_⟩
  change (buf.copy 0 _) i = _
  rw [Mem.copy_inside _ (Nat.zero_le i) (by simpa using inside)]
  simp [inside]

theorem decompress_follows_encoder_crowded :
    0 < (compressHuffman Static.clear (listMem crowded) (Int32.ofNat crowded.length) (fun _ => 5)
        (Int32.ofNat 4096)).ret ∧
      ∃ d, decompressHuffman Static.clear (compressHuffman Static.clear (listMem crowded)
          (Int32.ofNat crowded.length) (fun _ => 5) (Int32.ofNat 4096)).out (Int32.ofNat 1300)
          (fun _ => 5) (Int32.ofNat crowded.length) = some d ∧ d.ret = 2048 := by
  have ret := crowded_compressed (listMem_read crowded) fun _ => 5
  have success : 0 < (compressHuffman Static.clear (listMem crowded) (Int32.ofNat crowded.length)
      (fun _ => 5) (Int32.ofNat 4096)).ret := by
    rw [ret]
    decide
  have one : (1 : UInt8) ∈ crowded := List.mem_append_left _ (by decide)
  have zero : (0 : UInt8) ∈ crowded :=
    List.mem_append_right _ (List.mem_replicate.mpr ⟨by decide, rfl⟩)
  obtain ⟨k, isK, -, -, d, decoded, length, -⟩ := decompress_follows_encoder Static.clear
    Static.clear crowded_nonempty crowded_short one zero (by decide)
      (listMem_read crowded) (fun _ => 5)
    (fun _ => 5) success fun _ _ => rfl
  have isCount : k = 1300 := by
    rw [ret] at isK
    omega
  rw [isCount] at decoded
  exact ⟨success, d, decoded, by rw [length, crowded_length]; rfl⟩

end Xv6.Kernel.Huffman
