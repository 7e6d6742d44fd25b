import Xv6.Kernel.Huffman.Agreement

/-!
Compressing and decompressing never gives the input back.

Owns: the unique parent of every node but the root, the leaf that the encoder's
walk cannot reach, the single-leaf case, and the failure of the round trip for
every input on which `compress_huffman` succeeds.

The encoder goes left when the byte is smaller than the `c` field of the left
child. For the byte of a left leaf that test is false at the leaf's parent, so
its walk ends at another leaf, and the decoder faithfully returns that one's
byte. With one distinct byte no code bit is written, and the decoder stops
before its first symbol.
-/

namespace Xv6.Kernel.Huffman

open Xv6.Lib

/-! ### Unique parents -/

section Parents

variable {freq : Nat → Int32} {leaves : List Nat} {st : Static}

/-- The index a child field names. -/
def Static.childIndex (st : Static) (bit : Bool) (p : Nat) : Nat :=
  if bit then st.rightIndex p else st.leftIndex p

theorem Forest.children_nodup (forest : Forest freq leaves st) :
    (st.children leaves.length).Nodup :=
  Multiset.nodup_of_le (Multiset.le_add_left _ _)
    (forest.partition ▸ Multiset.nodup_range st.treeSize)

theorem count_pair_of_mem (st : Static) (bit : Bool) (p : Nat) :
    1 ≤ Multiset.count (st.childIndex bit p) {st.leftIndex p, st.rightIndex p} := by
  rw [Multiset.one_le_count_iff_mem]
  cases bit <;> simp [Static.childIndex]

/-- A node is named by one child field of one node at most. -/
theorem Forest.childIndex_injective (forest : Forest freq leaves st) {p q : Nat} {a b : Bool}
    (pInner : leaves.length ≤ p) (pLt : p < st.treeSize) (qInner : leaves.length ≤ q)
    (qLt : q < st.treeSize) (same : st.childIndex a p = st.childIndex b q) : p = q ∧ a = b := by
  have once : Multiset.count (st.childIndex a p) (st.children leaves.length) ≤ 1 :=
    Multiset.nodup_iff_count_le_one.mp forest.children_nodup _
  rw [Static.children, Multiset.count_sum'] at once
  have pMember : p ∈ Finset.Ico leaves.length st.treeSize := Finset.mem_Ico.mpr ⟨pInner, pLt⟩
  have qMember : q ∈ Finset.Ico leaves.length st.treeSize := Finset.mem_Ico.mpr ⟨qInner, qLt⟩
  have atP := count_pair_of_mem st a p
  have atQ := count_pair_of_mem st b q
  rw [← same] at atQ
  have samePlace : p = q := by
    by_contra different
    -- two parents would be counted twice
    have both : ∑ i ∈ {p, q}, Multiset.count (st.childIndex a p)
        ({st.leftIndex i, st.rightIndex i} : Multiset Nat) ≤ 1 :=
      le_trans (Finset.sum_le_sum_of_subset (by
        intro i member
        rcases Finset.mem_insert.mp member with rfl | member
        · exact pMember
        · exact Finset.mem_singleton.mp member ▸ qMember)) once
    rw [Finset.sum_pair different] at both
    omega
  refine ⟨samePlace, ?_⟩
  subst samePlace
  by_contra different
  have inPair := le_trans (Finset.single_le_sum (fun _ _ => Nat.zero_le _) pMember) once
  have equal : st.leftIndex p = st.rightIndex p := by
    cases a <;> cases b <;> simp_all [Static.childIndex]
  have twice : Multiset.count (st.childIndex a p) {st.leftIndex p, st.rightIndex p} = 2 := by
    cases a <;> simp [Static.childIndex, equal]
  omega

end Parents

/-! ### The built tree of an input -/

section Built

variable (st : Static) {bytes : List UInt8} (nonempty : bytes ≠ []) (short : bytes.length < 2 ^ 31)

theorem builtTree_size :
    (builtTree st bytes nonempty short).size + 1 = 2 * (symbols bytes).length := by
  obtain ⟨forest, one⟩ := buildTree_forest st nonempty short
  have := forest.size
  rw [one] at this
  change (buildTree st bytes).treeSize + 1 = _
  omega

theorem builtTree_fits : (builtTree st bytes nonempty short).size ≤ maxTreeNodes := by
  have size := builtTree_size st nonempty short
  have leaves := symbols_length_le bytes
  unfold maxHeapSize at leaves
  unfold maxTreeNodes
  omega

theorem builtTree_inner_iff {p : Nat} (inside : p < (builtTree st bytes nonempty short).size) :
    (builtTree st bytes nonempty short).IsInner p ↔ (symbols bytes).length ≤ p := by
  obtain ⟨forest, -⟩ := buildTree_forest st nonempty short
  constructor
  · intro inner
    by_contra isLeaf
    obtain ⟨-, -, left, right⟩ := forest.leaf p (Nat.lt_of_not_le isLeaf)
    rcases inner with inner | inner
    · exact inner left
    · exact inner right
  · intro low
    obtain ⟨-, -, leftSome, -⟩ := forest.inner p low inside
    refine Or.inl fun isNone => ?_
    change 0 ≤ ((builtTree st bytes nonempty short).node p).left at leftSome
    rw [isNone] at leftSome
    exact absurd leftSome (by decide)

theorem builtTree_leaf_c {p : Nat} (isLeaf : p < (symbols bytes).length) :
    ((builtTree st bytes nonempty short).node p).c = UInt8.ofNat (symbols bytes)[p] :=
  ((buildTree_forest st nonempty short).1.leaf p isLeaf).1

/-- Different leaves carry different bytes. -/
theorem builtTree_leaf_injective {p q : Nat} (pLeaf : p < (symbols bytes).length)
    (qLeaf : q < (symbols bytes).length)
    (same : ((builtTree st bytes nonempty short).node p).c =
      ((builtTree st bytes nonempty short).node q).c) : p = q := by
  rw [builtTree_leaf_c st nonempty short pLeaf, builtTree_leaf_c st nonempty short qLeaf] at same
  have values := congrArg UInt8.toNat same
  have pLt := (mem_symbols.mp (List.getElem_mem pLeaf)).1
  have qLt := (mem_symbols.mp (List.getElem_mem qLeaf)).1
  rw [UInt8.toNat_ofNat', UInt8.toNat_ofNat', Nat.mod_eq_of_lt pLt, Nat.mod_eq_of_lt qLt] at values
  exact ((symbols_nodup bytes).getElem_inj_iff).mp values

/-- The left child of the first merged node: a leaf when there are two bytes. -/
def firstLeft : Nat := (builtTree st bytes nonempty short).left (symbols bytes).length

variable (two : 2 ≤ (symbols bytes).length)
include two

theorem firstInner_lt : (symbols bytes).length < (builtTree st bytes nonempty short).size := by
  have := builtTree_size st nonempty short
  omega

theorem firstLeft_lt : firstLeft st nonempty short < (symbols bytes).length :=
  ((buildTree_forest st nonempty short).1.inner _ le_rfl
    (firstInner_lt st nonempty short two)).1

theorem leafOf_ne_firstLeft (curr : Nat) (inside : curr < (builtTree st bytes nonempty short).size)
    (elsewhere : curr ≠ firstLeft st nonempty short) :
    (builtTree st bytes nonempty short).leafOf
      ((builtTree st bytes nonempty short).node (firstLeft st nonempty short)).c curr inside ≠
      firstLeft st nonempty short := by
  obtain ⟨forest, -⟩ := buildTree_forest st nonempty short
  induction curr, inside using CodeTree.leafOf.induct (builtTree st bytes nonempty short)
    ((builtTree st bytes nonempty short).node (firstLeft st nonempty short)).c with
  | case1 curr inside inner ih =>
    rw [CodeTree.leafOf, dif_pos inner]
    refine ih fun arrives => ?_
    have low := (builtTree_inner_iff st nonempty short inside).mp inner
    have arrives' : (buildTree st bytes).childIndex
        ((builtTree st bytes nonempty short).goesRight
          ((builtTree st bytes nonempty short).node (firstLeft st nonempty short)).c curr) curr =
        (buildTree st bytes).childIndex false (symbols bytes).length := arrives
    obtain ⟨isFirst, goesLeft⟩ := forest.childIndex_injective low inside le_rfl
      (firstInner_lt st nonempty short two) arrives'
    subst isFirst
    simp only [CodeTree.goesRight, decide_eq_false_iff_not, not_not] at goesLeft
    exact UInt8.lt_irrefl _ goesLeft
  | case2 curr inside leaf =>
    rw [CodeTree.leafOf, dif_neg leaf]
    exact elsewhere

theorem exists_decoded_ne : ∃ c ∈ bytes,
    ((builtTree st bytes nonempty short).node
      ((builtTree st bytes nonempty short).target c)).c ≠ c := by
  have isLeaf := firstLeft_lt st nonempty short two
  have value := builtTree_leaf_c st nonempty short isLeaf
  refine ⟨((builtTree st bytes nonempty short).node (firstLeft st nonempty short)).c, ?_, ?_⟩
  · rw [value]
    exact (mem_symbols.mp (List.getElem_mem isLeaf)).2
  · intro same
    obtain ⟨inside, leaf⟩ := (builtTree st bytes nonempty short).leafOf_spec
      ((builtTree st bytes nonempty short).node (firstLeft st nonempty short)).c _
      (builtTree st bytes nonempty short).root_lt
    rw [builtTree_inner_iff st nonempty short inside] at leaf
    have rootElsewhere : (builtTree st bytes nonempty short).root ≠
        firstLeft st nonempty short := by
      have := firstInner_lt st nonempty short two
      unfold CodeTree.root
      omega
    exact leafOf_ne_firstLeft st nonempty short two _ _ rootElsewhere
      (builtTree_leaf_injective st nonempty short (Nat.lt_of_not_le leaf) isLeaf same)

end Built

/-! ### The round trip -/

/-- `decompress_huffman(out, k, buf, |s|)` returns `|s|` and leaves `s` in `buf`. -/
def GivesBack (st : Static) (s : List UInt8) (out : Mem) (k : Int) (buf : Mem) : Prop :=
  ∃ d, decompressHuffman st out (Int32.ofInt k) buf (Int32.ofNat s.length) = some d ∧
    d.ret = s.length ∧ d.out.read 0 s.length = s

theorem not_givesBack_encoded {st st' : Static} {s : List UInt8} (nonempty : s ≠ [])
    (short : s.length < 2 ^ 31) {length : Nat} (lengthLt : length < s.length) {out : Mem}
    (encoded : Encoded (builtTree st s nonempty short) s length out) (buf : Mem) :
    ¬ GivesBack st' s out length buf := by
  rintro ⟨d, run, ret, contents⟩
  rw [Int32.ofInt_eq_ofNat] at run
  have size := builtTree_size st nonempty short
  have symbolsPos := symbols_pos nonempty
  have rootTest := builtTree_inner_iff st nonempty short
    (builtTree st s nonempty short).root_lt
  by_cases two : 2 ≤ (symbols s).length
  · -- two bytes or more: the decoder follows the encoder to the wrong leaf
    have rootInner : (builtTree st s nonempty short).IsInner
        (builtTree st s nonempty short).root := by
      rw [rootTest]
      unfold CodeTree.root
      omega
    obtain ⟨loaded, result⟩ := decompress_encoded st' encoded (builtTree_fits st nonempty short)
      rootInner (by omega) nonempty short buf
    rw [result, Option.some.injEq] at run
    subst run
    obtain ⟨c, member, wrong⟩ := exists_decoded_ne st nonempty short two
    have decoded : (s.map fun c => ((builtTree st s nonempty short).node
        ((builtTree st s nonempty short).target c)).c) = s := by
      have readBack := Mem.read_copy buf 0 (s.map fun c => ((builtTree st s nonempty short).node
        ((builtTree st s nonempty short).target c)).c)
      rw [List.length_map] at readBack
      exact readBack.symm.trans contents
    exact wrong (List.map_inj_left.mp (decoded.trans (List.map_id s).symm) c member)
  · -- one byte: nothing is decoded
    have rootLeaf : ¬ (builtTree st s nonempty short).IsInner
        (builtTree st s nonempty short).root := by
      rw [rootTest]
      unfold CodeTree.root
      omega
    obtain ⟨loaded, result⟩ := decompress_encoded_leaf st' encoded
      (builtTree_fits st nonempty short) rootLeaf (by omega) nonempty short buf
    rw [result, Option.some.injEq] at run
    subst run
    simp only at ret
    omega

theorem compressHuffman_eq (st : Static) {s : List UInt8} (nonempty : s ≠ [])
    (short : s.length < 2 ^ 31) {input : Mem} (isInput : input.read 0 s.length = s) (output : Mem)
    {maxlen : Int32} (room : 0 < maxlen) :
    compressHuffman st input (Int32.ofNat s.length) output maxlen =
      encode (buildTree st s) (builtTree st s nonempty short) s output maxlen.toNatClampNeg := by
  have positive : 0 < Int32.ofNat s.length :=
    (ofNat_pos_iff short).mpr (List.length_pos_iff.mpr nonempty)
  have bytes : inputBytes input (Int32.ofNat s.length) = s := by
    rw [inputBytes, Int32.toNatClampNeg_ofNat_of_lt short, isInput]
  rw [compressHuffman, dif_pos ⟨positive, room⟩]
  congr

/-- Whenever `compress_huffman` succeeds, decompressing its output does not give
the input back, whatever the static arrays held before either call. -/
theorem compress_not_givesBack (st st' : Static) {s : List UInt8} (nonempty : s ≠ [])
    (short : s.length < 2 ^ 31) {input : Mem} (isInput : input.read 0 s.length = s)
    (output buf : Mem) {maxlen : Int32} (room : 0 < maxlen)
    (success : 0 < (compressHuffman st input (Int32.ofNat s.length) output maxlen).ret) :
    ¬ GivesBack st' s (compressHuffman st input (Int32.ofNat s.length) output maxlen).out
      (compressHuffman st input (Int32.ofNat s.length) output maxlen).ret buf := by
  rw [compressHuffman_eq st nonempty short isInput output room] at success ⊢
  obtain ⟨length, ret, lengthLt, encoded⟩ := encode_spec success
  rw [ret]
  exact not_givesBack_encoded nonempty short lengthLt encoded buf

/-- Cleared static variables, as before the first call. -/
def Static.clear : Static := ⟨fun _ => ⟨0, (0, 0, 0), 0, 0, 0⟩, fun _ => 0, 0, 0⟩

/-- Twenty-one bytes `a`. -/
def letters : List UInt8 := List.replicate 21 97

theorem letters_success : 0 < (compressHuffman Static.clear (fun _ => 97)
    (Int32.ofNat letters.length) (fun _ => 5) 4096).ret := by
  decide +kernel

theorem compress_not_givesBack_letters :
    0 < (compressHuffman Static.clear (fun _ => 97) (Int32.ofNat letters.length)
      (fun _ => 5) 4096).ret ∧
    ¬ GivesBack Static.clear letters
      (compressHuffman Static.clear (fun _ => 97) (Int32.ofNat letters.length)
        (fun _ => 5) 4096).out
      (compressHuffman Static.clear (fun _ => 97) (Int32.ofNat letters.length)
        (fun _ => 5) 4096).ret
      (fun _ => 5) :=
  ⟨letters_success, compress_not_givesBack Static.clear Static.clear (by decide) (by decide)
    (by decide) (fun _ => 5) (fun _ => 5) (by decide) letters_success⟩

/-- The round trip as a law is false: it fails for twenty-one bytes `a`, with
cleared static arrays and a page of room. -/
theorem compress_givesBack_false :
    ¬ ∀ (st st' : Static) (s : List UInt8) (input output buf : Mem) (maxlen : Int32), s ≠ [] →
      s.length < 2 ^ 31 → input.read 0 s.length = s → 0 < maxlen →
      0 < (compressHuffman st input (Int32.ofNat s.length) output maxlen).ret →
      GivesBack st' s (compressHuffman st input (Int32.ofNat s.length) output maxlen).out
        (compressHuffman st input (Int32.ofNat s.length) output maxlen).ret buf := by
  intro roundTrip
  have nonempty : letters ≠ [] := by decide
  have isInput : Mem.read (fun _ => 97) 0 letters.length = letters := by decide
  have room : (0 : Int32) < 4096 := by decide
  have success := letters_success
  have back := roundTrip Static.clear Static.clear letters (fun _ => 97) (fun _ => 5) (fun _ => 5)
    4096 nonempty (by decide) isInput room success
  rw [compressHuffman_eq Static.clear nonempty (by decide) isInput _ room] at success back
  obtain ⟨length, isLength, lengthLt, encoded⟩ := encode_spec success
  rw [isLength] at back
  exact not_givesBack_encoded nonempty (by decide) lengthLt encoded _ back

end Xv6.Kernel.Huffman
