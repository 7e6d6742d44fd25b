import Xv6.Kernel.Huffman.Leftover
import Xv6.Kernel.Huffman.Proper
import Xv6.Kernel.Huffman.Stream

/-!
Old `c` fields show in what `compress_huffman` writes.

Owns: that an inner node keeps the `c` its place in the array had, for which inputs
a call compresses, when two calls cannot be told apart, and the states after any
history of calls.

Does not own: what agrees when the old fields agree.
-/

namespace Xv6.Kernel.Huffman

open Xv6.Lib

/-! ### Inner nodes keep an old `c` -/

theorem leafLoop_tree_above (freq : Nat → Int32) (st : Static) (bound : Nat) (small : bound ≤ 256)
    {p : Nat} (above : ((List.range bound).filter fun i => 0 < freq i).length ≤ p) :
    ((List.range bound).foldl (addLeaf freq) { st with treeSize := 0, heapSize := 0 }).tree p =
      st.tree p := by
  induction bound with
  | zero => rfl
  | succ bound ih =>
    have built := leafLoop_leafForest freq st bound (by omega)
    rw [List.range_succ, List.filter_append, List.length_append] at above
    have before := ih (by omega) (by omega)
    rw [List.range_succ, List.foldl_append, List.foldl_cons, List.foldl_nil, ← before]
    have few : ((List.range bound).filter fun i => 0 < freq i).length ≤ bound :=
      (List.length_filter_le _ _).trans (List.length_range).le
    generalize (List.range bound).foldl (addLeaf freq) { st with treeSize := 0, heapSize := 0 } =
      reached at built
    rw [addLeaf]
    by_cases occurs : 0 < freq bound
    · simp only [List.filter_cons, occurs, decide_true, if_true, List.filter_nil,
        List.length_singleton] at above
      have room : reached.heapSize < maxHeapSize := by
        rw [built.heapSize]
        unfold maxHeapSize
        omega
      rw [if_pos occurs, (reached.pushNode_spec _ room).2.1, Function.update_of_ne]
      rw [built.treeSize]
      omega
    · rw [if_neg occurs]

theorem buildTree_inner_c (st : Static) {bytes : List UInt8} (short : bytes.length < 2 ^ 31)
    {p : Nat} (inner : (symbols bytes).length ≤ p) :
    ((buildTree st bytes).tree p).c = (st.tree p).c := by
  have start := leafLoop_weighted st short
  have built := leafLoop_symbols st short
  have old : (leafLoop (countFrequencies bytes) { st with treeSize := 0, heapSize := 0 }).tree p =
      st.tree p := leafLoop_tree_above _ st 256 le_rfl (by rwa [filter_counted short])
  have room := symbols_length_le bytes
  rw [← built.heapSize] at room
  have kept := mergeLoop_invariant
    (fun reached => (Weighted bytes.length reached ∧ reached.heapSize ≤ maxHeapSize) ∧
      (reached.tree p).c = (st.tree p).c)
    (fun reached both more => by
      obtain ⟨⟨weighted, room⟩, same⟩ := both
      obtain ⟨left, right, rest, round⟩ := exists_round weighted more room
      have smaller := round.heapSize
      refine ⟨⟨round.weighted weighted short, by omega⟩, ?_⟩
      by_cases new : p = reached.treeSize
      · rw [new, round.parent, ← new]
        exact same
      · rw [round.tree p new, same])
    _ ⟨⟨start, room⟩, by rw [old]⟩
  exact kept.2

/-! ### Memory of earlier calls -/

/-- The image of the bytes fits the output and is shorter than they are. -/
def CodeTree.Saves (t : CodeTree) (bytes : List UInt8) (maxlen : Nat) : Prop :=
  4 + nodeSize * t.size < maxlen ∧ t.imageBits bytes ≤ 8 * maxlen ∧
    t.imageBits bytes ≤ 8 * (bytes.length - 1)

theorem encode_saves {st : Static} {t : CodeTree} {bytes : List UInt8} {output : Mem} {maxlen : Nat}
    (saves : t.Saves bytes maxlen) : 0 < (encode st t bytes output maxlen).ret := by
  obtain ⟨room, fits, shorter⟩ := saves
  have header : 8 * (4 + nodeSize * t.size) ≤ t.imageBits bytes := Nat.le_add_right _ _
  rw [encode_ret (k := (t.imageBits bytes + 7) / 8) st t output room fits (by omega) (by omega)
    (by omega)]
  omega

theorem encode_fails {st : Static} {t : CodeTree} {bytes : List UInt8} {output : Mem} {maxlen : Nat}
    (large : ¬ t.Saves bytes maxlen) : (encode st t bytes output maxlen).ret = -1 := by
  by_cases full : maxlen ≤ 4 + nodeSize * t.size
  · rw [encode_full st t bytes output full]
  by_contra success
  have positive : 0 < (encode st t bytes output maxlen).ret := by
    rw [encode_eq_finish st t bytes output full, encodeBytes_eq] at success ⊢
    cases written : writeBits maxlen (bytes.flatMap t.word)
      ⟨t.header output, Cursor.start (4 + nodeSize * t.size)⟩ with
    | error w =>
      rw [written] at success
      exact absurd rfl success
    | ok w =>
      obtain ⟨-, moved, -⟩ := writeBits_end written (by rw [Cursor.bytesUsed_start]; omega)
      rw [Cursor.bytesUsed_start] at moved
      rw [written] at success
      rw [finish] at success ⊢
      split at success
      · exact absurd rfl success
      · rename_i useful
        rw [if_neg useful]
        simp only
        omega
  obtain ⟨k, isK, -, fits, shorter, -⟩ := encode_bounds st t bytes output maxlen positive
  obtain ⟨length, isLength, -, encoded⟩ := encode_spec positive
  have long := encoded.long
  have same : length = k := by omega
  exact large ⟨by omega, by unfold CodeTree.imageBits; omega, by unfold CodeTree.imageBits; omega⟩

/-- The call compresses: the tree that `build_tree` makes of its input gives a short
image. -/
def Compresses (st : Static) (input : Mem) (inlen maxlen : Int32) : Prop :=
  ∃ positive : 0 < inlen ∧ 0 < maxlen,
    (builtTree st (inputBytes input inlen) (inputBytes_ne_nil input positive)
      (inputBytes_short input inlen)).Saves (inputBytes input inlen) maxlen.toNatClampNeg

section Calls

variable {st : Static} {input : Mem} {inlen maxlen : Int32}

theorem compressHuffman_pos (compresses : Compresses st input inlen maxlen) (output : Mem) :
    0 < (compressHuffman st input inlen output maxlen).ret := by
  obtain ⟨positive, saves⟩ := compresses
  rw [compressHuffman, dif_pos positive]
  exact encode_saves saves

theorem compressHuffman_failed (fails : ¬ Compresses st input inlen maxlen) (output : Mem) :
    (compressHuffman st input inlen output maxlen).ret = -1 := by
  rw [compressHuffman]
  split
  · rename_i positive
    exact encode_fails fun saves => fails ⟨positive, saves⟩
  · rfl

/-- The inner nodes are serialized with the `c` fields that the array held before. -/
theorem compressHuffman_serialized {output : Mem}
    (success : 0 < (compressHuffman st input inlen output maxlen).ret) :
    ((compressHuffman st input inlen output maxlen).out.le32 0).toNat + 1 =
        2 * (symbols (inputBytes input inlen)).length ∧
      ∀ p, (symbols (inputBytes input inlen)).length ≤ p →
        p ≤ 2 * (symbols (inputBytes input inlen)).length - 2 →
        (nodeAt (compressHuffman st input inlen output maxlen).out (4 + nodeSize * p)).c =
          (st.tree p).c := by
  rw [compressHuffman] at success ⊢
  split at success
  · rename_i positive
    rw [dif_pos positive]
    have nonempty := inputBytes_ne_nil input positive
    have short := inputBytes_short input inlen
    have size := builtTree_size st nonempty short
    have few := symbols_length_le (inputBytes input inlen)
    unfold maxHeapSize at few
    have occupied := symbols_pos nonempty
    obtain ⟨_, _, _, encoded⟩ := encode_spec success
    refine ⟨?_, fun p inner inside => ?_⟩
    · rw [encoded.size, UInt32.toNat_ofNat', Nat.mod_eq_of_lt (by omega), size]
    · rw [encoded.node p (by omega)]
      exact buildTree_inner_c st short inner
  · exact absurd success (not_pos_of_failed rfl)

theorem stale_eq_of_sameOutcome {a b : Static} {output : Mem}
    (compresses : Compresses a input inlen maxlen)
    (same : SameOutcome (compressHuffman a input inlen output maxlen)
      (compressHuffman b input inlen output maxlen)) (p : Nat)
    (inner : (symbols (inputBytes input inlen)).length ≤ p)
    (inside : p ≤ 2 * (symbols (inputBytes input inlen)).length - 2) :
    (a.tree p).c = (b.tree p).c := by
  have success := compressHuffman_pos compresses output
  obtain ⟨size, aStale⟩ := compressHuffman_serialized success
  obtain ⟨-, bStale⟩ := compressHuffman_serialized (same.ret ▸ success)
  rw [← aStale p inner inside, ← bStale p inner inside]
  exact (same.nodes success p (by omega)).c

end Calls

/-- Two contents of the static arrays give the same result of a call exactly when they
hold the same `c` fields from place `m` to `2 * m - 2`, where `m` is the number of
different bytes of the input, or when the call compresses from neither: these are the
places of its inner nodes, whose `c` is never assigned. -/
theorem compressHuffman_memoryless_iff (a b : Static) (input : Mem) (inlen : Int32) (output : Mem)
    (maxlen : Int32) :
    SameOutcome (compressHuffman a input inlen output maxlen)
        (compressHuffman b input inlen output maxlen) ↔
      (∀ p, (inputBytes input inlen).dedup.length ≤ p →
        p ≤ 2 * (inputBytes input inlen).dedup.length - 2 → (a.tree p).c = (b.tree p).c) ∨
      ¬ Compresses a input inlen maxlen ∧ ¬ Compresses b input inlen maxlen := by
  rw [← symbols_length]
  constructor
  · intro same
    by_cases first : Compresses a input inlen maxlen
    · exact .inl (stale_eq_of_sameOutcome first same)
    by_cases second : Compresses b input inlen maxlen
    · have success := compressHuffman_pos second output
      rw [← same.ret, compressHuffman_failed first] at success
      exact absurd success (by decide)
    · exact .inr ⟨first, second⟩
  · rintro (stale | ⟨first, second⟩)
    · exact compressHuffman_alike stale output maxlen
    · have failed := compressHuffman_failed first output
      exact ⟨by rw [failed, compressHuffman_failed second],
        fun success => absurd success (not_pos_of_failed failed),
        fun success => absurd success (not_pos_of_failed failed),
        fun success => absurd success (not_pos_of_failed failed)⟩

/-- The static variables after some calls, from the kernel's start on. -/
inductive Reached : Static → Prop
  | boot : Reached Static.clear
  | compress {st : Static} (before : Reached st) (input : Mem) (inlen : Int32) (output : Mem)
      (maxlen : Int32) : Reached (compressHuffman st input inlen output maxlen).static
  | decompress {st : Static} (before : Reached st) {input : Mem} {inlen : Int32} {output : Mem}
      {maxlen : Int32} {done : Decompressed}
      (returned : decompressHuffman st input inlen output maxlen = some done) : Reached done.static

theorem compressed_abc_stale : ((compressHuffman Static.clear (listMem [97, 98, 99]) 3 (fun _ => 0)
    64).static.tree 2).c = 99 := by
  decide +kernel

/-- One byte 0 and 60 bytes 255. -/
def oneZero : Mem := listMem (0 :: List.replicate 60 255)

/-- A first call on one byte 0 and 60 bytes 255, and the same call after one on `abc`,
do not write the same `c` field of the root. -/
theorem compressHuffman_remembers : ¬ ∀ a b : Static, Reached a → Reached b →
    ∀ (input : Mem) (inlen : Int32) (output : Mem) (maxlen : Int32),
      SameOutcome (compressHuffman a input inlen output maxlen)
        (compressHuffman b input inlen output maxlen) := by
  intro memoryless
  have same := memoryless _ _ .boot (.compress .boot (listMem [97, 98, 99]) 3 (fun _ => 0) 64)
    oneZero 61 (fun _ => 0) 4096
  have success : 0 < (compressHuffman Static.clear oneZero 61 (fun _ => 0) 4096).ret := by
    decide +kernel
  have two : (symbols (inputBytes oneZero 61)).length = 2 := by decide +kernel
  obtain ⟨size, boot⟩ := compressHuffman_serialized success
  obtain ⟨-, later⟩ := compressHuffman_serialized (same.ret ▸ success)
  rw [two] at size boot later
  have equal := (same.nodes success 2 (by omega)).c
  rw [boot 2 le_rfl le_rfl, later 2 le_rfl le_rfl, compressed_abc_stale] at equal
  exact absurd equal (by decide)

end Xv6.Kernel.Huffman
