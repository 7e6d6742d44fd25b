import Xv6.Kernel.Huffman.Codec

/-!
The bit stream between the two directions of the codec.

Owns: `read_bit` after `write_bit`, the code word the encoder's walk spells and
the leaf it ends at, the memory image of the node array read back, and the
agreement of decoder and encoder: the decoder's symbols are the `c` fields of
the leaves at which the encoder's walks ended.

Does not own: whether that leaf is the one of the encoded byte.
-/

namespace Xv6.Kernel.Huffman

open Xv6.Lib Function

/-! ### Reading and writing single bits -/

private theorem shift_table : ∀ byte : Fin 256, ∀ k : Fin 8,
    (((UInt8.ofNat byte >>> UInt8.ofNat k) &&& 1) ≠ 0) = (bitOf (UInt8.ofNat byte) k = true) := by
  decide +kernel

theorem readBit_eq (input : Mem) (pos : Cursor) : readBit input pos = input.bit pos.position := by
  have entry := shift_table ⟨(input pos.bytePos).toNat, (input pos.bytePos).toNat_lt⟩
    ⟨7 - pos.bitPos, by omega⟩
  simp only [UInt8.ofNat_toNat, eq_iff_iff] at entry
  rw [readBit, Mem.bit, ← pos.bytePos_eq, ← pos.bitPos_eq]
  by_cases set : bitOf (input pos.bytePos) (7 - pos.bitPos) = true
  · rw [set]
    exact decide_eq_true (entry.mpr set)
  · rw [Bool.not_eq_true] at set
    rw [set]
    exact decide_eq_false (fun nonzero => by rw [entry.mp nonzero] at set; contradiction)

/-- In a half-written byte every bit from the cursor on is still clear. -/
def Writer.Clean (w : Writer) : Prop :=
  (w.pos.bitPos : Nat) ≠ 0 → ∀ q, w.pos.position ≤ q → q / 8 = w.pos.bytePos → w.out.bit q = false

theorem Writer.clean_start (out : Mem) (bytePos : Nat) :
    (Writer.mk out (Cursor.start bytePos)).Clean :=
  fun nonzero => absurd rfl nonzero

theorem Writer.writeBit_bit (w : Writer) (clean : w.Clean) (bit : Bool) {q : Nat}
    (upTo : q / 8 ≠ w.pos.bytePos ∨ q ≤ w.pos.position) :
    (w.writeBit bit).out.bit q = if q = w.pos.position then bit else w.out.bit q := by
  have bytePos := w.pos.bytePos_eq
  have bitPos := w.pos.bitPos_eq
  by_cases elsewhere : q / 8 = w.pos.bytePos
  swap
  · have different : q ≠ w.pos.position := by
      rintro rfl
      exact elsewhere bytePos.symm
    rw [if_neg different, Mem.bit, Mem.bit, writeBit]
    simp only [update_of_ne elsewhere]
    split
    · rw [update_of_ne elsewhere]
    · rfl
  have shiftLow : 7 - (w.pos.bitPos : Nat) < 8 := by omega
  have maskBit : bitOf (if bit then mask (7 - w.pos.bitPos) else 0) (7 - q % 8) =
      (bit && decide (q = w.pos.position)) := by
    have index : (7 - q % 8 = 7 - (w.pos.bitPos : Nat)) ↔ q = w.pos.position := by omega
    cases bit
    · simp
    · simp [bitOf_mask shiftLow, index]
  have written : (w.writeBit bit).out.bit q =
      (bitOf ((if w.pos.bitPos = 0 then update w.out w.pos.bytePos 0 else w.out)
        w.pos.bytePos) (7 - q % 8) || (bit && decide (q = w.pos.position))) := by
    rw [Mem.bit, writeBit]
    simp only [elsewhere, update_self, bitOf_or, maskBit]
  rw [written]
  by_cases first : w.pos.bitPos = 0
  · have here : q = w.pos.position := by
      rw [first] at bitPos
      simp only [Fin.val_zero] at bitPos
      omega
    simp [first, here]
  · rw [if_neg first]
    by_cases here : q = w.pos.position
    · have clear := clean (fun zero => first (Fin.ext zero)) q here.ge elsewhere
      rw [Mem.bit, elsewhere] at clear
      simp [here] at clear ⊢
      simp [clear]
    · simp [here, Mem.bit, elsewhere]

theorem Writer.writeBit_clean (w : Writer) (clean : w.Clean) (bit : Bool) :
    (w.writeBit bit).Clean := by
  intro nonzero q low sameByte
  have advanced : (w.writeBit bit).pos.position = w.pos.position + 1 := w.pos.position_next
  have bytePos := w.pos.bytePos_eq
  have bitPos := w.pos.bitPos_eq
  have nextByte := (w.writeBit bit).pos.bytePos_eq
  have nextBit := (w.writeBit bit).pos.bitPos_eq
  have inByte : q / 8 = w.pos.bytePos := by omega
  have later : q ≠ w.pos.position := by omega
  have maskBit : bitOf (if bit then mask (7 - w.pos.bitPos) else 0) (7 - q % 8) = false := by
    cases bit
    · simp
    · rw [if_pos rfl, bitOf_mask (by omega)]
      exact decide_eq_false (by omega)
  rw [Mem.bit, writeBit]
  simp only [inByte, update_self, bitOf_or, maskBit, Bool.or_false]
  by_cases first : w.pos.bitPos = 0
  · simp [first]
  · rw [if_neg first]
    have clear := clean (fun zero => first (Fin.ext zero)) q (by omega) inByte
    rwa [Mem.bit, inByte] at clear

/-- `write_bit` touches one byte only. -/
theorem Writer.writeBit_out (w : Writer) (bit : Bool) {i : Nat} (other : i ≠ w.pos.bytePos) :
    (w.writeBit bit).out i = w.out i := by
  unfold writeBit
  simp only [update_of_ne other]
  split
  · rw [update_of_ne other]
  · rfl

/-! ### Writing a list of bits -/

/-- Write bits until the output is full. -/
def writeBits (maxlen : Nat) : List Bool → Writer → Except Writer Writer
  | [], w => .ok w
  | bit :: rest, w =>
    if maxlen ≤ w.pos.bytePos then .error w else writeBits maxlen rest (w.writeBit bit)

theorem writeBits_append (maxlen : Nat) (first second : List Bool) (w : Writer) :
    writeBits maxlen (first ++ second) w =
      writeBits maxlen first w >>= writeBits maxlen second := by
  induction first generalizing w with
  | nil => rfl
  | cons bit rest ih =>
    rw [List.cons_append, writeBits, writeBits]
    split
    · rfl
    · exact ih _

/-- After writing, the bits stand in the output from the old cursor on, the ones
before it are as they were, and no later byte has been touched. -/
theorem writeBits_spec {maxlen : Nat} {bits : List Bool} {w w' : Writer} (clean : w.Clean)
    (written : writeBits maxlen bits w = .ok w') :
    w'.pos.position = w.pos.position + bits.length ∧
      (∀ q < w.pos.position, w'.out.bit q = w.out.bit q) ∧
      (∀ j (inside : j < bits.length), w'.out.bit (w.pos.position + j) = bits[j]) ∧
      (∀ i, i < w.pos.bytePos → w'.out i = w.out i) := by
  induction bits generalizing w with
  | nil =>
    cases written
    simp
  | cons bit rest ih =>
    rw [writeBits] at written
    split at written
    · cases written
    have advanced : (w.writeBit bit).pos.position = w.pos.position + 1 := w.pos.position_next
    obtain ⟨position, before, stored, bytes⟩ :=
      ih (w.writeBit_clean clean bit) written
    rw [advanced] at position before stored
    have nextByte := (w.writeBit bit).pos.bytePos_eq
    have thisByte := w.pos.bytePos_eq
    refine ⟨by simp only [List.length_cons]; omega, ?_, ?_, ?_⟩
    · intro q low
      rw [before q (by omega), w.writeBit_bit clean bit (Or.inr low.le), if_neg low.ne]
    · intro j inside
      cases j with
      | zero =>
        rw [Nat.add_zero, before _ (by omega), w.writeBit_bit clean bit (Or.inr le_rfl), if_pos rfl]
        rfl
      | succ j =>
        have := stored j (by simpa using inside)
        rwa [Nat.add_assoc, Nat.add_comm 1 j] at this
    · intro i low
      rw [bytes i (by omega), w.writeBit_out bit (by omega)]

/-! ### The encoder's walk -/

namespace CodeTree

/-- The bits the encoder writes for byte `c` from node `curr`. -/
def path (t : CodeTree) (c : UInt8) (curr : Nat) (inside : curr < t.size) : List Bool :=
  if inner : t.IsInner curr then
    t.goesRight c curr :: t.path c (t.child (t.goesRight c curr) curr)
      (lt_trans (t.child_lt inside inner _) inside)
  else []
termination_by curr
decreasing_by exact t.child_lt inside inner _

/-- The node at which the encoder's walk for byte `c` from node `curr` ends. -/
def leafOf (t : CodeTree) (c : UInt8) (curr : Nat) (inside : curr < t.size) : Nat :=
  if inner : t.IsInner curr then
    t.leafOf c (t.child (t.goesRight c curr) curr) (lt_trans (t.child_lt inside inner _) inside)
  else curr
termination_by curr
decreasing_by exact t.child_lt inside inner _

/-- The code word of a byte. -/
def word (t : CodeTree) (c : UInt8) : List Bool := t.path c t.root t.root_lt

/-- The leaf the encoder reaches for a byte. -/
def target (t : CodeTree) (c : UInt8) : Nat := t.leafOf c t.root t.root_lt

theorem leafOf_spec (t : CodeTree) (c : UInt8) (curr : Nat) (inside : curr < t.size) :
    t.leafOf c curr inside < t.size ∧ ¬ t.IsInner (t.leafOf c curr inside) := by
  induction curr, inside using leafOf.induct t c with
  | case1 curr inside inner ih =>
    rw [leafOf, dif_pos inner]
    exact ih
  | case2 curr inside leaf =>
    rw [leafOf, dif_neg leaf]
    exact ⟨inside, leaf⟩

end CodeTree

theorem encodeByte_eq (t : CodeTree) (maxlen : Nat) (c : UInt8) (curr : Nat)
    (inside : curr < t.size) (w : Writer) :
    encodeByte t maxlen c curr inside w = writeBits maxlen (t.path c curr inside) w := by
  induction curr, inside, w using encodeByte.induct t maxlen c with
  | case1 curr inside w inner full =>
    rw [encodeByte, CodeTree.path, dif_pos inner, dif_pos inner, if_pos full, writeBits,
      if_pos full]
  | case2 curr inside w inner room ih =>
    rw [encodeByte, CodeTree.path, dif_pos inner, dif_pos inner, if_neg room, writeBits,
      if_neg room, ih]
  | case3 curr inside w leaf =>
    rw [encodeByte, CodeTree.path, dif_neg leaf, dif_neg leaf, writeBits]

/-- The encoder writes the code words one after the other. -/
theorem encodeBytes_eq (t : CodeTree) (maxlen : Nat) (bytes : List UInt8) (w : Writer) :
    encodeBytes t maxlen bytes w = writeBits maxlen (bytes.flatMap t.word) w := by
  induction bytes generalizing w with
  | nil => rfl
  | cons c rest ih =>
    have tail : encodeBytes t maxlen rest = writeBits maxlen (rest.flatMap t.word) :=
      funext ih
    rw [encodeBytes, encodeByte_eq, List.flatMap_cons, writeBits_append, tail, CodeTree.word]

end Xv6.Kernel.Huffman
