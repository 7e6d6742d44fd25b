import Xv6.Kernel.Huffman.BuildTree
import Xv6.Lib.Bits

/-!
`compress_huffman` and `decompress_huffman` as `compress.c` computes them.

Owns: the bit cursor, `write_bit` and `read_bit`, the node records' memory
image, the encoder's walk and loop, the decoder's two loops, and both entry
points. The encoder compares a byte with the `c` field of the left child; the
decoder follows the stored bits. A decoder step that indexes `tree[]` outside
its bounds has no result.

Does not own: any relation between the two directions.

The pointers passed by the kernel are never null, so the two null tests of each
entry point are left out; `printf` has no effect here.
-/

namespace Xv6.Kernel.Huffman

open Xv6.Lib

/-! ### Bit cursors -/

/-- `byte_pos` and `bit_pos`. -/
structure Cursor where
  bytePos : Nat
  bitPos : Fin 8
deriving DecidableEq

namespace Cursor

/-- `*bit_pos = (*bit_pos + 1) % 8; if (*bit_pos == 0) (*byte_pos)++`. -/
def next (cursor : Cursor) : Cursor where
  bitPos := cursor.bitPos + 1
  bytePos := if cursor.bitPos + 1 = 0 then cursor.bytePos + 1 else cursor.bytePos

/-- The number of bits before the cursor. -/
def position (cursor : Cursor) : Nat := 8 * cursor.bytePos + cursor.bitPos

/-- The cursor at the start of a byte. -/
def start (bytePos : Nat) : Cursor := ⟨bytePos, 0⟩

@[simp] theorem position_start (bytePos : Nat) : (start bytePos).position = 8 * bytePos := by
  simp [position, start]

theorem position_next (cursor : Cursor) : cursor.next.position = cursor.position + 1 := by
  obtain ⟨bytePos, bitPos⟩ := cursor
  fin_cases bitPos <;> (simp [next, position]; try omega)

theorem bytePos_eq (cursor : Cursor) : cursor.bytePos = cursor.position / 8 := by
  have := cursor.bitPos.isLt
  unfold position
  omega

theorem bitPos_eq (cursor : Cursor) : (cursor.bitPos : Nat) = cursor.position % 8 := by
  have := cursor.bitPos.isLt
  unfold position
  omega

theorem bytePos_lt_iff (cursor : Cursor) (n : Nat) :
    cursor.bytePos < n ↔ cursor.position < 8 * n := by
  have := cursor.bytePos_eq
  omega

/-- The bytes before the cursor, a half-written one included: the padding step
`if (bit_pos > 0) byte_pos++`. -/
def bytesUsed (cursor : Cursor) : Nat :=
  if cursor.bitPos ≠ 0 then cursor.bytePos + 1 else cursor.bytePos

theorem bytesUsed_bounds (cursor : Cursor) :
    cursor.position ≤ 8 * cursor.bytesUsed ∧ 8 * cursor.bytesUsed < cursor.position + 8 := by
  have := cursor.bitPos.isLt
  unfold bytesUsed position
  by_cases whole : cursor.bitPos = 0
  · simp [whole]
  · have : (cursor.bitPos : Nat) ≠ 0 := fun zero => whole (Fin.ext zero)
    rw [if_pos whole]
    omega

end Cursor

/-- The output buffer and where its next bit goes. -/
structure Writer where
  out : Mem
  pos : Cursor

/-- `write_bit(output, &byte_pos, &bit_pos, bit)`. -/
def Writer.writeBit (w : Writer) (bit : Bool) : Writer :=
  let cleared := if w.pos.bitPos = 0 then Function.update w.out w.pos.bytePos 0 else w.out
  { out := Function.update cleared w.pos.bytePos
      (cleared w.pos.bytePos ||| if bit then mask (7 - w.pos.bitPos) else 0)
    pos := w.pos.next }

/-- `read_bit(input, &byte_pos, &bit_pos)`, without the cursor's move. -/
def readBit (input : Mem) (pos : Cursor) : Bool :=
  ((input pos.bytePos >>> UInt8.ofNat (7 - pos.bitPos)) &&& 1) ≠ 0

/-! ### The memory image of the node array -/

/-- `sizeof(struct huffman_node)`. -/
def nodeSize : Nat := 16

/-- The sixteen bytes of a node. -/
def nodeBytes (node : Node) : List UInt8 :=
  [node.c, node.pad.1, node.pad.2.1, node.pad.2.2] ++ Mem.bytes32 node.freq.toUInt32 ++
    Mem.bytes32 node.left.toUInt32 ++ Mem.bytes32 node.right.toUInt32

/-- The node whose bytes start at `offset`. -/
def nodeAt (m : Mem) (offset : Nat) : Node where
  c := m offset
  pad := (m (offset + 1), m (offset + 2), m (offset + 3))
  freq := (m.le32 (offset + 4)).toInt32
  left := (m.le32 (offset + 8)).toInt32
  right := (m.le32 (offset + 12)).toInt32

/-- The static array `tree` as bytes. -/
def treeMem (tree : Nat → Node) : Mem := fun i =>
  (nodeBytes (tree (i / nodeSize))).getD (i % nodeSize) 0

/-! ### Compression -/

/-- A node array in which the children of a node lie below it: the encoder's
walk from a node moves to smaller indices. -/
structure CodeTree where
  node : Nat → Node
  size : Nat
  nonempty : 0 < size
  below : ∀ p < size, (node p).left ≠ -1 ∨ (node p).right ≠ -1 →
    (node p).left.toNatClampNeg < p ∧ (node p).right.toNatClampNeg < p ∧
      0 ≤ (node p).left ∧ 0 ≤ (node p).right

namespace CodeTree

def left (t : CodeTree) (p : Nat) : Nat := (t.node p).left.toNatClampNeg

def right (t : CodeTree) (p : Nat) : Nat := (t.node p).right.toNatClampNeg

/-- The loop test `tree[p].left != -1 || tree[p].right != -1`. -/
def IsInner (t : CodeTree) (p : Nat) : Prop := (t.node p).left ≠ -1 ∨ (t.node p).right ≠ -1

instance (t : CodeTree) (p : Nat) : Decidable (t.IsInner p) :=
  inferInstanceAs (Decidable (_ ∨ _))

/-- `tree_size - 1`. -/
def root (t : CodeTree) : Nat := t.size - 1

theorem root_lt (t : CodeTree) : t.root < t.size :=
  Nat.sub_lt t.nonempty Nat.one_pos

/-- The bit the encoder writes at node `p` for byte `c`. -/
def goesRight (t : CodeTree) (c : UInt8) (p : Nat) : Bool := ¬ c < (t.node (t.left p)).c

/-- The node the encoder moves to. -/
def child (t : CodeTree) (bit : Bool) (p : Nat) : Nat := if bit then t.right p else t.left p

theorem child_lt (t : CodeTree) {p : Nat} (inside : p < t.size) (inner : t.IsInner p) (bit : Bool) :
    t.child bit p < p := by
  have children := t.below p inside inner
  cases bit
  · exact children.1
  · exact children.2.1

end CodeTree

/-- The `while` loop of `compress_huffman` for byte `c` from node `curr`; an
error is the early `return -1`, with the output as it is then. -/
def encodeByte (t : CodeTree) (maxlen : Nat) (c : UInt8) (curr : Nat) (inside : curr < t.size)
    (w : Writer) : Except Writer Writer :=
  if inner : t.IsInner curr then
    if maxlen ≤ w.pos.bytePos then .error w
    else
      encodeByte t maxlen c (t.child (t.goesRight c curr) curr)
        (lt_trans (t.child_lt inside inner _) inside) (w.writeBit (t.goesRight c curr))
  else .ok w
termination_by curr
decreasing_by exact t.child_lt inside inner _

/-- The `for` loop of `compress_huffman`. -/
def encodeBytes (t : CodeTree) (maxlen : Nat) : List UInt8 → Writer → Except Writer Writer
  | [], w => .ok w
  | c :: rest, w => encodeByte t maxlen c t.root t.root_lt w >>= encodeBytes t maxlen rest

/-- What `compress_huffman` leaves: its return value, the output buffer and the
static variables. -/
structure Compressed where
  ret : Int
  out : Mem
  static : Static

/-- The tree of a nonempty input of `int` length, with the order of its nodes. -/
def builtTree (st : Static) (bytes : List UInt8) (nonempty : bytes ≠ [])
    (short : bytes.length < 2 ^ 31) : CodeTree where
  node := (buildTree st bytes).tree
  size := (buildTree st bytes).treeSize
  nonempty := by
    obtain ⟨forest, -⟩ := buildTree_forest st nonempty short
    exact lt_of_lt_of_le (symbols_pos nonempty) forest.leavesFirst
  below := by
    obtain ⟨forest, -⟩ := buildTree_forest st nonempty short
    intro p inside inner
    by_cases isLeaf : p < (symbols bytes).length
    · obtain ⟨-, -, left, right⟩ := forest.leaf p isLeaf
      simp [left, right] at inner
    · obtain ⟨left, right, leftSome, rightSome, -⟩ := forest.inner p (by omega) inside
      exact ⟨left, right, leftSome, rightSome⟩

/-- The part of `compress_huffman` after `build_tree`. -/
def encode (st : Static) (t : CodeTree) (bytes : List UInt8) (output : Mem) (maxlen : Nat) :
    Compressed :=
  let headerSize := 4 + nodeSize * t.size
  if maxlen ≤ headerSize then ⟨-1, output, st⟩
  else
    let header := (output.copy 0 (Mem.bytes32 (UInt32.ofNat t.size))).copy 4
      ((treeMem t.node).read 0 (nodeSize * t.size))
    match encodeBytes t maxlen bytes ⟨header, Cursor.start headerSize⟩ with
    | .error w => ⟨-1, w.out, st⟩
    | .ok w =>
      if bytes.length ≤ w.pos.bytesUsed then ⟨-1, w.out, st⟩ else ⟨w.pos.bytesUsed, w.out, st⟩

/-- The bytes `input[0 .. inlen)`. -/
def inputBytes (input : Mem) (inlen : Int32) : List UInt8 := input.read 0 inlen.toNatClampNeg

theorem inputBytes_ne_nil (input : Mem) {inlen maxlen : Int32} (positive : 0 < inlen ∧ 0 < maxlen) :
    inputBytes input inlen ≠ [] := by
  rw [← List.length_pos_iff, inputBytes, Mem.length_read]
  have nonempty := Int32.lt_iff_toInt_lt.mp positive.1
  have : (0 : Int32).toInt = 0 := rfl
  unfold Int32.toNatClampNeg
  omega

theorem inputBytes_short (input : Mem) (inlen : Int32) :
    (inputBytes input inlen).length < 2 ^ 31 := by
  rw [inputBytes, Mem.length_read]
  have := inlen.toInt_lt
  unfold Int32.toNatClampNeg
  omega

/-- `compress_huffman(input, inlen, output, maxlen)`. -/
def compressHuffman (st : Static) (input : Mem) (inlen : Int32) (output : Mem) (maxlen : Int32) :
    Compressed :=
  if positive : 0 < inlen ∧ 0 < maxlen then
    encode (buildTree st (inputBytes input inlen))
      (builtTree st (inputBytes input inlen) (inputBytes_ne_nil input positive)
        (inputBytes_short input inlen))
      (inputBytes input inlen) output maxlen.toNatClampNeg
  else ⟨-1, output, st⟩

/-! ### Decompression -/

/-- `tree[i]`, when the index is inside the array. -/
def Static.fetch (st : Static) (i : Int32) : Option Node :=
  if 0 ≤ i ∧ i.toNatClampNeg < maxTreeNodes then some (st.tree i.toNatClampNeg) else none

/-- The inner `while` loop of `decompress_huffman`: the node it stops at and the
cursor. It stops at a leaf, or at any node once the input is used up. -/
def decodeWalk (st : Static) (input : Mem) (inlen : Nat) (curr : Int32) (pos : Cursor) :
    Option (Node × Cursor) :=
  match st.fetch curr with
  | none => none
  | some node =>
    if node.left ≠ -1 ∨ node.right ≠ -1 then
      if inlen ≤ pos.bytePos then some (node, pos)
      else
        decodeWalk st input inlen (if readBit input pos then node.right else node.left) pos.next
    else some (node, pos)
termination_by 8 * inlen - pos.position
decreasing_by
  have := pos.bytePos_lt_iff inlen
  rw [Cursor.position_next]
  omega

/-- The inner loop never moves the cursor back, and leaves an inner node only at
the end of the input. -/
theorem decodeWalk_spec {st : Static} {input : Mem} {inlen : Nat} {curr : Int32} {pos : Cursor}
    {node : Node} {after : Cursor}
    (walked : decodeWalk st input inlen curr pos = some (node, after)) :
    pos.position ≤ after.position ∧
      ((node.left ≠ -1 ∨ node.right ≠ -1) → inlen ≤ after.bytePos) := by
  induction curr, pos using decodeWalk.induct st input inlen with
  | case1 curr pos missing =>
    rw [decodeWalk, missing] at walked
    simp at walked
  | case2 curr pos here found inner finished =>
    rw [decodeWalk, found] at walked
    simp only [inner, finished, if_true, Option.some.injEq, Prod.mk.injEq] at walked
    obtain ⟨rfl, rfl⟩ := walked
    exact ⟨le_rfl, fun _ => finished⟩
  | case3 curr pos here found inner more ih =>
    rw [decodeWalk, found] at walked
    simp only [inner, more, if_true, if_false] at walked
    obtain ⟨moved, stop⟩ := ih walked
    rw [Cursor.position_next] at moved
    exact ⟨by omega, stop⟩
  | case4 curr pos here found leaf =>
    rw [decodeWalk, found] at walked
    simp only [leaf, if_false, Option.some.injEq, Prod.mk.injEq] at walked
    obtain ⟨rfl, rfl⟩ := walked
    exact ⟨le_rfl, fun inner => absurd inner leaf⟩

/-- The outer `while` loop of `decompress_huffman`: how many bytes were written,
and the output buffer. -/
def decodeLoop (st : Static) (input : Mem) (inlen maxlen : Nat) (pos : Cursor) (outPos : Nat)
    (out : Mem) : Option (Nat × Mem) :=
  if pos.bytePos < inlen ∧ outPos < maxlen then
    match walked : decodeWalk st input inlen (Int32.ofInt (st.treeSize - 1)) pos with
    | none => none
    | some (node, after) =>
      if node.left = -1 ∧ node.right = -1 then
        decodeLoop st input inlen maxlen after (outPos + 1) (Function.update out outPos node.c)
      else decodeLoop st input inlen maxlen after outPos out
  else some (outPos, out)
termination_by (8 * inlen - pos.position) + (maxlen - outPos)
decreasing_by
  · have := (decodeWalk_spec walked).1
    omega
  · rename_i inner
    have ended := (decodeWalk_spec walked).2 (not_and_or.mp inner)
    have := pos.bytePos_lt_iff inlen
    have := after.bytePos_lt_iff inlen
    omega

/-- `tree_size = *(int*)input` and `memmove(tree, input + sizeof(int), ..)`: the
entries past the stored tree keep their old contents. -/
def Static.load (st : Static) (input : Mem) (size : Nat) : Static :=
  { st with
    treeSize := size
    tree := fun i => if i < size then nodeAt input (4 + nodeSize * i) else st.tree i }

/-- What `decompress_huffman` leaves. -/
structure Decompressed where
  ret : Int
  out : Mem
  static : Static

/-- `decompress_huffman(input, inlen, output, maxlen)`; no result when it reads
`tree[]` out of bounds. -/
def decompressHuffman (st : Static) (input : Mem) (inlen : Int32) (output : Mem) (maxlen : Int32) :
    Option Decompressed :=
  if inlen ≤ 0 ∨ maxlen ≤ 0 then some ⟨-1, output, st⟩
  else
    let size := (input.le32 0).toInt32
    let sized := { st with treeSize := size.toNatClampNeg }
    if size ≤ 0 ∨ maxTreeNodes < size.toNatClampNeg then some ⟨-1, output, sized⟩
    else if inlen.toNatClampNeg < 4 + nodeSize * size.toNatClampNeg then some ⟨-1, output, sized⟩
    else
      let loaded := st.load input size.toNatClampNeg
      (decodeLoop loaded input inlen.toNatClampNeg maxlen.toNatClampNeg
        (Cursor.start (4 + nodeSize * size.toNatClampNeg)) 0 output).map
          fun written => ⟨written.1, written.2, loaded⟩

end Xv6.Kernel.Huffman
