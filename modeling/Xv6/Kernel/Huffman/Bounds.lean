import Xv6.Kernel.Huffman.RoundTrip

/-!
The stores of `compress_huffman` into its output.

Owns: the list of the indices it stores to, that they lie below `maxlen`, that no
other byte changes, and the bounds of a positive result.

Does not own: what is stored.
-/

namespace Xv6.Kernel.Huffman

open Xv6.Lib

/-! ### The stores -/

/-- The indices `write_bit` stores to: the clearing store at the start of a byte, and
the one that sets the bit. -/
def Writer.stores (w : Writer) : List Nat :=
  if w.pos.bitPos.val = 0 then [w.pos.bytePos, w.pos.bytePos] else [w.pos.bytePos]

/-- The stores of the `while` loop of `compress_huffman` for one byte. -/
def byteStores (t : CodeTree) (maxlen : Nat) (c : UInt8) (curr : Nat) (inside : curr < t.size)
    (w : Writer) : List Nat :=
  if inner : t.IsInner curr then
    if maxlen ≤ w.pos.bytePos then []
    else
      w.stores ++ byteStores t maxlen c (t.child (t.goesRight c curr) curr)
        (lt_trans (t.child_lt inside inner _) inside) (w.writeBit (t.goesRight c curr))
  else []
termination_by curr
decreasing_by exact t.child_lt inside inner _

/-- The stores of the `for` loop of `compress_huffman`. -/
def bytesStores (t : CodeTree) (maxlen : Nat) : List UInt8 → Writer → List Nat
  | [], _ => []
  | c :: rest, w =>
    byteStores t maxlen c t.root t.root_lt w ++
      match encodeByte t maxlen c t.root t.root_lt w with
      | .error _ => []
      | .ok after => bytesStores t maxlen rest after

/-- The output once tree size and node array are written. -/
def CodeTree.header (t : CodeTree) (output : Mem) : Mem :=
  (output.copy 0 (Mem.bytes32 (UInt32.ofNat t.size))).copy 4
    ((treeMem t.node).read 0 (nodeSize * t.size))

/-- The stores after `build_tree`. -/
def encodeStores (t : CodeTree) (bytes : List UInt8) (output : Mem) (maxlen : Nat) : List Nat :=
  if maxlen ≤ 4 + nodeSize * t.size then []
  else
    List.range 4 ++ (List.range (nodeSize * t.size)).map (4 + ·) ++
      bytesStores t maxlen bytes ⟨t.header output, Cursor.start (4 + nodeSize * t.size)⟩

/-- The stores of `compress_huffman(input, inlen, output, maxlen)` into its output. -/
def compressStores (st : Static) (input : Mem) (inlen : Int32) (output : Mem) (maxlen : Int32) :
    List Nat :=
  if positive : 0 < inlen ∧ 0 < maxlen then
    encodeStores (builtTree st (inputBytes input inlen) (inputBytes_ne_nil input positive)
      (inputBytes_short input inlen)) (inputBytes input inlen) output maxlen.toNatClampNeg
  else []

/-! ### They are in bounds, and nothing else changes -/

/-- The writer a loop stops with, early or not. -/
def stopped : Except Writer Writer → Writer
  | .error w => w
  | .ok w => w

theorem Writer.mem_stores {w : Writer} {i : Nat} : i ∈ w.stores ↔ i = w.pos.bytePos := by
  rw [stores]
  split <;> simp

theorem byteStores_spec (t : CodeTree) (maxlen : Nat) (c : UInt8) (curr : Nat)
    (inside : curr < t.size) (w : Writer) :
    (∀ i ∈ byteStores t maxlen c curr inside w, i < maxlen) ∧
      ∀ i ∉ byteStores t maxlen c curr inside w,
        (stopped (encodeByte t maxlen c curr inside w)).out i = w.out i := by
  induction curr, inside, w using encodeByte.induct t maxlen c with
  | case1 curr inside w inner full =>
    rw [byteStores, encodeByte, dif_pos inner, dif_pos inner, if_pos full, if_pos full]
    exact ⟨fun i member => absurd member List.not_mem_nil, fun _ _ => rfl⟩
  | case2 curr inside w inner room ih =>
    rw [byteStores, encodeByte, dif_pos inner, dif_pos inner, if_neg room, if_neg room]
    obtain ⟨below, kept⟩ := ih
    constructor
    · intro i member
      rcases List.mem_append.mp member with here | later
      · rw [Writer.mem_stores.mp here]
        omega
      · exact below i later
    · intro i other
      rw [List.mem_append, not_or, Writer.mem_stores] at other
      rw [kept i other.2, w.writeBit_out _ other.1]
  | case3 curr inside w leaf =>
    rw [byteStores, encodeByte, dif_neg leaf, dif_neg leaf]
    exact ⟨fun i member => absurd member List.not_mem_nil, fun _ _ => rfl⟩

theorem bytesStores_spec (t : CodeTree) (maxlen : Nat) (bytes : List UInt8) (w : Writer) :
    (∀ i ∈ bytesStores t maxlen bytes w, i < maxlen) ∧
      ∀ i ∉ bytesStores t maxlen bytes w,
        (stopped (encodeBytes t maxlen bytes w)).out i = w.out i := by
  induction bytes generalizing w with
  | nil => exact ⟨fun i member => absurd member List.not_mem_nil, fun _ _ => rfl⟩
  | cons c rest ih =>
    obtain ⟨below, kept⟩ := byteStores_spec t maxlen c t.root t.root_lt w
    rw [bytesStores, encodeBytes]
    cases encoded : encodeByte t maxlen c t.root t.root_lt w with
    | error after =>
      rw [encoded] at kept
      simp only [List.append_nil]
      exact ⟨below, kept⟩
    | ok after =>
      obtain ⟨laterBelow, laterKept⟩ := ih after
      rw [encoded] at kept
      constructor
      · intro i member
        rcases List.mem_append.mp member with here | later
        · exact below i here
        · exact laterBelow i later
      · intro i other
        rw [List.mem_append, not_or] at other
        exact (laterKept i other.2).trans (kept i other.1)

theorem CodeTree.header_outside (t : CodeTree) (output : Mem) {i : Nat}
    (outside : 4 + nodeSize * t.size ≤ i) : t.header output i = output i := by
  rw [header, Mem.copy_outside _ (.inr (by rwa [Mem.length_read])),
    Mem.copy_outside _ (.inr (by rw [Mem.length_bytes32]; omega))]

/-- The end of `compress_huffman`, after its loop. -/
def finish (st : Static) (inlen : Nat) : Except Writer Writer → Compressed
  | .error w => ⟨-1, w.out, st⟩
  | .ok w => if inlen ≤ w.pos.bytesUsed then ⟨-1, w.out, st⟩ else ⟨w.pos.bytesUsed, w.out, st⟩

theorem encode_eq_finish (st : Static) (t : CodeTree) (bytes : List UInt8) (output : Mem)
    {maxlen : Nat} (room : ¬ maxlen ≤ 4 + nodeSize * t.size) :
    encode st t bytes output maxlen = finish st bytes.length (encodeBytes t maxlen bytes
      ⟨t.header output, Cursor.start (4 + nodeSize * t.size)⟩) := by
  simp only [encode, if_neg room, CodeTree.header]
  generalize encodeBytes t maxlen bytes _ = result
  cases result with
  | error w => rfl
  | ok w => rfl

theorem encode_full (st : Static) (t : CodeTree) (bytes : List UInt8) (output : Mem) {maxlen : Nat}
    (full : maxlen ≤ 4 + nodeSize * t.size) :
    encode st t bytes output maxlen = ⟨-1, output, st⟩ := by
  simp only [encode, if_pos full]

theorem finish_out (st : Static) (inlen : Nat) (result : Except Writer Writer) :
    (finish st inlen result).out = (stopped result).out := by
  cases result with
  | error w => rfl
  | ok w =>
    rw [finish]
    split <;> rfl

theorem finish_static (st : Static) (inlen : Nat) (result : Except Writer Writer) :
    (finish st inlen result).static = st := by
  cases result with
  | error w => rfl
  | ok w =>
    rw [finish]
    split <;> rfl

theorem not_pos_of_failed {ret : Int} (failed : ret = -1) : ¬ 0 < ret := by omega

theorem finish_success {st : Static} {inlen : Nat} {result : Except Writer Writer}
    (success : 0 < (finish st inlen result).ret) :
    ∃ w, result = .ok w ∧ w.pos.bytesUsed < inlen ∧
      (finish st inlen result).ret = w.pos.bytesUsed := by
  cases result with
  | error w => exact absurd success (not_pos_of_failed rfl)
  | ok w =>
    rw [finish] at success ⊢
    by_cases useless : inlen ≤ w.pos.bytesUsed
    · rw [if_pos useless] at success
      exact absurd success (not_pos_of_failed rfl)
    · rw [if_neg useless]
      exact ⟨w, rfl, Nat.lt_of_not_le useless, rfl⟩

theorem encodeStores_spec (st : Static) (t : CodeTree) (bytes : List UInt8) (output : Mem)
    (maxlen : Nat) :
    (∀ i ∈ encodeStores t bytes output maxlen, i < maxlen) ∧
      ∀ i ∉ encodeStores t bytes output maxlen,
        (encode st t bytes output maxlen).out i = output i := by
  by_cases full : maxlen ≤ 4 + nodeSize * t.size
  · rw [encodeStores, if_pos full, encode_full st t bytes output full]
    exact ⟨fun i member => absurd member List.not_mem_nil, fun _ _ => rfl⟩
  obtain ⟨below, kept⟩ := bytesStores_spec t maxlen bytes
    ⟨t.header output, Cursor.start (4 + nodeSize * t.size)⟩
  rw [encodeStores, if_neg full, encode_eq_finish st t bytes output full, finish_out]
  constructor
  · intro i member
    simp only [List.mem_append, List.mem_range, List.mem_map] at member
    rcases member with (word | ⟨j, inside, rfl⟩) | later
    · omega
    · omega
    · exact below i later
  · intro i other
    simp only [List.mem_append, List.mem_range, List.mem_map, not_or, not_exists, not_and] at other
    obtain ⟨⟨notWord, notTree⟩, notCode⟩ := other
    rw [kept i notCode]
    apply t.header_outside
    by_contra inside
    exact notTree (i - 4) (by omega) (by omega)

/-! ### A positive result -/

theorem writeBits_end {maxlen : Nat} {bits : List Bool} {w w' : Writer}
    (written : writeBits maxlen bits w = .ok w') (room : w.pos.bytesUsed ≤ maxlen) :
    w'.pos.bytesUsed ≤ maxlen ∧ w.pos.bytesUsed ≤ w'.pos.bytesUsed ∧
      ∀ i, w'.pos.bytesUsed ≤ i → w'.out i = w.out i := by
  induction bits generalizing w with
  | nil =>
    cases written
    exact ⟨room, le_rfl, fun _ _ => rfl⟩
  | cons bit rest ih =>
    rw [writeBits] at written
    split at written
    · cases written
    have advanced : (w.writeBit bit).pos.position = w.pos.position + 1 := w.pos.position_next
    have before := w.pos.bytesUsed_bounds
    have after := (w.writeBit bit).pos.bytesUsed_bounds
    have byte := w.pos.bytePos_eq
    obtain ⟨fits, grown, kept⟩ := ih written (by omega)
    refine ⟨fits, by omega, fun i outside => ?_⟩
    rw [kept i outside, w.writeBit_out bit (by omega)]

theorem Cursor.bytesUsed_start (bytePos : Nat) : (Cursor.start bytePos).bytesUsed = bytePos := rfl

theorem encode_bounds (st : Static) (t : CodeTree) (bytes : List UInt8) (output : Mem)
    (maxlen : Nat) (success : 0 < (encode st t bytes output maxlen).ret) :
    ∃ k : Nat, (encode st t bytes output maxlen).ret = k ∧ 4 + nodeSize * t.size ≤ k ∧ k ≤ maxlen ∧
      k < bytes.length ∧ ∀ i, k ≤ i → (encode st t bytes output maxlen).out i = output i := by
  by_cases full : maxlen ≤ 4 + nodeSize * t.size
  · rw [encode_full st t bytes output full] at success
    exact absurd success (not_pos_of_failed rfl)
  rw [encode_eq_finish st t bytes output full] at success ⊢
  obtain ⟨w, encoded, saves, isUsed⟩ := finish_success success
  rw [finish_out, isUsed, encoded]
  rw [encodeBytes_eq] at encoded
  obtain ⟨fits, low, kept⟩ := writeBits_end encoded (by rw [Cursor.bytesUsed_start]; omega)
  rw [Cursor.bytesUsed_start] at low
  refine ⟨w.pos.bytesUsed, rfl, low, fits, saves, fun i outside => ?_⟩
  rw [stopped, kept i outside]
  exact t.header_outside output (low.trans outside)

theorem encode_static (st : Static) (t : CodeTree) (bytes : List UInt8) (output : Mem)
    (maxlen : Nat) :
    (encode st t bytes output maxlen).static = st := by
  by_cases full : maxlen ≤ 4 + nodeSize * t.size
  · rw [encode_full st t bytes output full]
  · rw [encode_eq_finish st t bytes output full, finish_static]

/-- Every store of `compress_huffman` into its output is below `maxlen` and no other
byte changes; a positive result leaves room for the tree, is at most `maxlen`, is
smaller than the input, and no byte from it on has been touched. -/
theorem compressHuffman_bounds (st : Static) (input : Mem) (inlen : Int32) (output : Mem)
    (maxlen : Int32) :
    (∀ i ∈ compressStores st input inlen output maxlen, i < maxlen.toNatClampNeg) ∧
      (∀ i ∉ compressStores st input inlen output maxlen,
        (compressHuffman st input inlen output maxlen).out i = output i) ∧
      (0 < (compressHuffman st input inlen output maxlen).ret →
        4 + 16 * (compressHuffman st input inlen output maxlen).static.treeSize ≤
            (compressHuffman st input inlen output maxlen).ret ∧
          (compressHuffman st input inlen output maxlen).ret ≤ maxlen.toInt ∧
          (compressHuffman st input inlen output maxlen).ret < inlen.toInt ∧
          ∀ i : Nat, (compressHuffman st input inlen output maxlen).ret ≤ i →
            (compressHuffman st input inlen output maxlen).out i = output i) := by
  by_cases positive : 0 < inlen ∧ 0 < maxlen
  swap
  · rw [compressStores, compressHuffman, dif_neg positive, dif_neg positive]
    exact ⟨fun i member => absurd member List.not_mem_nil, fun _ _ => rfl,
      fun success => absurd success (not_pos_of_failed rfl)⟩
  rw [compressStores, compressHuffman, dif_pos positive, dif_pos positive]
  have nonempty := inputBytes_ne_nil input positive
  have short := inputBytes_short input inlen
  obtain ⟨below, kept⟩ := encodeStores_spec (buildTree st (inputBytes input inlen))
    (builtTree st (inputBytes input inlen) nonempty short) (inputBytes input inlen) output
    maxlen.toNatClampNeg
  refine ⟨below, kept, fun success => ?_⟩
  obtain ⟨k, isK, low, fits, saves, untouched⟩ := encode_bounds _ _ _ _ _ success
  have length : (inputBytes input inlen).length = inlen.toNatClampNeg := Mem.length_read _ _ _
  have maxlenSome := Int32.lt_iff_toInt_lt.mp positive.2
  have inlenSome := Int32.lt_iff_toInt_lt.mp positive.1
  have zero : (0 : Int32).toInt = 0 := rfl
  rw [length] at saves
  unfold Int32.toNatClampNeg at fits saves
  rw [isK, encode_static]
  change 4 + nodeSize * (buildTree st (inputBytes input inlen)).treeSize ≤ k at low
  unfold nodeSize at low
  exact ⟨by omega, by omega, by omega, fun i outside => untouched i (by omega)⟩

end Xv6.Kernel.Huffman
