import Xv6.Kernel.Huffman.Stream

/-!
The memory `decompress_huffman` touches, on any input.

Owns: the list of its accesses to the input, to `tree[]` and to the output, when
these are in bounds, and the inputs for which they are: those whose own code bits
lead along the child links to no index outside the stored tree.

Does not own: what is decoded.
-/

namespace Xv6.Kernel.Huffman

open Xv6.Lib

/-! ### Accesses -/

/-- One access of `decompress_huffman`. -/
inductive Access where
  | input (i : Nat)
  | tree (i : Int32)
  | output (i : Nat)
deriving DecidableEq, Repr

/-- The accesses of the inner `while` loop. -/
def walkAccesses (st : Static) (input : Mem) (inlen : Nat) (curr : Int32) (pos : Cursor) :
    List Access :=
  .tree curr ::
    match st.fetch curr with
    | none => []
    | some node =>
      if node.left ≠ -1 ∨ node.right ≠ -1 then
        if inlen ≤ pos.bytePos then []
        else .input pos.bytePos ::
          walkAccesses st input inlen (if readBit input pos then node.right else node.left)
            pos.next
      else []
termination_by 8 * inlen - pos.position
decreasing_by
  have := pos.bytePos_lt_iff inlen
  rw [Cursor.position_next]
  omega

/-- The accesses of the outer `while` loop. -/
def loopAccesses (st : Static) (input : Mem) (inlen maxlen : Nat) (pos : Cursor) (outPos : Nat) :
    List Access :=
  if pos.bytePos < inlen ∧ outPos < maxlen then
    walkAccesses st input inlen (Int32.ofInt (st.treeSize - 1)) pos ++
      match walked : decodeWalk st input inlen (Int32.ofInt (st.treeSize - 1)) pos with
      | none => []
      | some (node, after) =>
        if node.left = -1 ∧ node.right = -1 then
          .output outPos :: loopAccesses st input inlen maxlen after (outPos + 1)
        else loopAccesses st input inlen maxlen after outPos
  else []
termination_by (8 * inlen - pos.position) + (maxlen - outPos)
decreasing_by
  · have := (decodeWalk_spec walked).1
    omega
  · rename_i inner
    have ended := (decodeWalk_spec walked).2 (not_and_or.mp inner)
    have := pos.bytePos_lt_iff inlen
    have := after.bytePos_lt_iff inlen
    omega

/-- `tree_size` once it was read. -/
def storedSize (input : Mem) : Nat := (input.le32 0).toInt32.toNatClampNeg

/-- The bytes of tree size and node array. -/
def headerSize (input : Mem) : Nat := 4 + nodeSize * storedSize input

/-- The header passes the checks. -/
def Accepted (input : Mem) (inlen : Nat) : Prop :=
  0 < (input.le32 0).toInt32 ∧ storedSize input ≤ maxTreeNodes ∧ headerSize input ≤ inlen

instance (input : Mem) (inlen : Nat) : Decidable (Accepted input inlen) :=
  inferInstanceAs (Decidable (_ ∧ _))

/-- All accesses of `decompress_huffman(input, inlen, output, maxlen)`, in order. -/
def decompressAccesses (st : Static) (input : Mem) (inlen maxlen : Int32) : List Access :=
  if inlen ≤ 0 ∨ maxlen ≤ 0 then []
  else
    (List.range 4).map .input ++
      if Accepted input inlen.toNatClampNeg then
        (List.range (nodeSize * storedSize input)).map (fun i => .input (4 + i)) ++
          (List.range (storedSize input)).map (fun i => .tree (Int32.ofNat i)) ++
          loopAccesses (st.load input (storedSize input)) input inlen.toNatClampNeg
            maxlen.toNatClampNeg (Cursor.start (headerSize input)) 0
      else []

/-- An index of the stored tree. -/
def InTree (size : Nat) (i : Int32) : Prop := 0 ≤ i ∧ i.toNatClampNeg < size

instance (size : Nat) (i : Int32) : Decidable (InTree size i) := inferInstanceAs (Decidable (_ ∧ _))

/-- Input below `inlen`, `tree[]` in `[0, tree_size)`, output below `maxlen`. -/
def Access.InBounds (size inlen maxlen : Nat) : Access → Prop
  | .input i => i < inlen
  | .tree i => InTree size i
  | .output i => i < maxlen

/-- The call ends, returns -1 or a count up to `maxlen`, and stays in bounds. -/
structure Safe (st : Static) (input : Mem) (inlen : Int32) (output : Mem) (maxlen : Int32) :
    Prop where
  bounds : ∀ access ∈ decompressAccesses st input inlen maxlen,
    access.InBounds (storedSize input) inlen.toNatClampNeg maxlen.toNatClampNeg
  returns : ∃ d, decompressHuffman st input inlen output maxlen = some d ∧
    (d.ret = -1 ∨ 0 ≤ d.ret ∧ d.ret ≤ maxlen.toInt)

/-! ### Child links -/

/-- Node `i` of the stored array. -/
def storedNode (input : Mem) (i : Nat) : Node := nodeAt input (4 + nodeSize * i)

/-- `tree_size - 1`. -/
def storedRoot (input : Mem) : Int32 := Int32.ofInt (storedSize input - 1)

/-- Where the code bits lead in the stored tree: at bit `q` of the input, after `count`
leaves, the child links have led from the root to index `i`. A leaf leads back to the
root, while bits are left and fewer than `maxlen` leaves were met. -/
inductive Visits (input : Mem) (inlen maxlen : Nat) : Nat → Nat → Int32 → Prop
  | root (more : headerSize input < inlen) :
      Visits input inlen maxlen (8 * headerSize input) 0 (storedRoot input)
  | child {q count : Nat} {i : Int32} (visits : Visits input inlen maxlen q count i)
      (inside : InTree (storedSize input) i)
      (inner : (storedNode input i.toNatClampNeg).left ≠ -1 ∨
        (storedNode input i.toNatClampNeg).right ≠ -1) (more : q < 8 * inlen) :
      Visits input inlen maxlen (q + 1) count (if input.bit q then
        (storedNode input i.toNatClampNeg).right else (storedNode input i.toNatClampNeg).left)
  | again {q count : Nat} {i : Int32} (visits : Visits input inlen maxlen q count i)
      (inside : InTree (storedSize input) i)
      (leaf : (storedNode input i.toNatClampNeg).left = -1 ∧
        (storedNode input i.toNatClampNeg).right = -1) (more : q < 8 * inlen)
      (room : count + 1 < maxlen) :
      Visits input inlen maxlen q (count + 1) (storedRoot input)

/-- The size word is there, and if the header is accepted, then the code bits lead
nowhere outside the stored tree. -/
def WellFormed (input : Mem) (inlen maxlen : Nat) : Prop :=
  4 ≤ inlen ∧ (Accepted input inlen → ∀ q count i, Visits input inlen maxlen q count i →
    InTree (storedSize input) i)

section Loops

variable {st : Static} {input : Mem} {inlen maxlen : Nat}

theorem decodeLoop_round {pos : Cursor} {outPos : Nat} {out : Mem} {last : Node} {next : Cursor}
    (running : pos.bytePos < inlen ∧ outPos < maxlen)
    (walked : decodeWalk st input inlen (Int32.ofInt (st.treeSize - 1)) pos = some (last, next)) :
    decodeLoop st input inlen maxlen pos outPos out =
      if last.left = -1 ∧ last.right = -1 then
        decodeLoop st input inlen maxlen next (outPos + 1) (Function.update out outPos last.c)
      else decodeLoop st input inlen maxlen next outPos out := by
  rw [decodeLoop, if_pos running]
  split
  · rename_i missing
    rw [walked] at missing
    cases missing
  · rename_i found
    rw [walked] at found
    cases found
    rfl

theorem loopAccesses_round {pos : Cursor} {outPos : Nat} {last : Node} {next : Cursor}
    (running : pos.bytePos < inlen ∧ outPos < maxlen)
    (walked : decodeWalk st input inlen (Int32.ofInt (st.treeSize - 1)) pos = some (last, next)) :
    loopAccesses st input inlen maxlen pos outPos =
      walkAccesses st input inlen (Int32.ofInt (st.treeSize - 1)) pos ++
        if last.left = -1 ∧ last.right = -1 then
          .output outPos :: loopAccesses st input inlen maxlen next (outPos + 1)
        else loopAccesses st input inlen maxlen next outPos := by
  rw [loopAccesses, if_pos running]
  congr 1
  split
  · rename_i missing
    rw [walked] at missing
    cases missing
  · rename_i found
    rw [walked] at found
    cases found
    rfl

/-! ### Inputs that lead nowhere else are safe -/

theorem walkAccesses_inBounds (loads : Loads st (storedNode input) (storedSize input))
    (closed : ∀ q count i, Visits input inlen maxlen q count i → InTree (storedSize input) i)
    (curr : Int32) (pos : Cursor) {count : Nat}
    (visits : Visits input inlen maxlen pos.position count curr) :
    (∀ access ∈ walkAccesses st input inlen curr pos,
        access.InBounds (storedSize input) inlen maxlen) ∧
      ∃ last after, decodeWalk st input inlen curr pos =
          some (storedNode input last.toNatClampNeg, after) ∧
        Visits input inlen maxlen after.position count last := by
  induction curr, pos using decodeWalk.induct st input inlen with
  | case1 curr pos missing =>
    have inside := closed _ _ _ visits
    rw [loads.fetch inside.1 inside.2] at missing
    exact absurd missing (Option.some_ne_none _)
  | case2 curr pos here found inner finished =>
    have inside := closed _ _ _ visits
    rw [loads.fetch inside.1 inside.2] at found
    obtain rfl := Option.some.inj found
    rw [walkAccesses, decodeWalk, loads.fetch inside.1 inside.2]
    simp only [inner, finished, if_true]
    exact ⟨by simpa [Access.InBounds] using inside, curr, pos, rfl, visits⟩
  | case3 curr pos here found inner more ih =>
    have inside := closed _ _ _ visits
    rw [loads.fetch inside.1 inside.2] at found
    obtain rfl := Option.some.inj found
    have room := (pos.bytePos_lt_iff inlen).mp (Nat.lt_of_not_le more)
    have next := visits.child inside inner room
    rw [← readBit_eq, ← Cursor.position_next] at next
    obtain ⟨inBounds, last, after, walked, arrives⟩ := ih next
    rw [walkAccesses, decodeWalk, loads.fetch inside.1 inside.2]
    simp only [inner, more, if_true, if_false]
    refine ⟨fun access member => ?_, last, after, walked, arrives⟩
    rcases List.mem_cons.mp member with rfl | member
    · exact inside
    rcases List.mem_cons.mp member with rfl | member
    · exact Nat.lt_of_not_le more
    · exact inBounds access member
  | case4 curr pos here found leaf =>
    have inside := closed _ _ _ visits
    rw [loads.fetch inside.1 inside.2] at found
    obtain rfl := Option.some.inj found
    rw [walkAccesses, decodeWalk, loads.fetch inside.1 inside.2]
    simp only [leaf, if_false]
    exact ⟨by simpa [Access.InBounds] using inside, curr, pos, rfl, visits⟩

theorem loopAccesses_inBounds (loads : Loads st (storedNode input) (storedSize input))
    (closed : ∀ q count i, Visits input inlen maxlen q count i → InTree (storedSize input) i)
    (pos : Cursor) (outPos : Nat) (out : Mem) (room : outPos ≤ maxlen)
    (visits : pos.bytePos < inlen ∧ outPos < maxlen →
      Visits input inlen maxlen pos.position outPos (storedRoot input)) :
    (∀ access ∈ loopAccesses st input inlen maxlen pos outPos,
        access.InBounds (storedSize input) inlen maxlen) ∧
      ∃ count out', decodeLoop st input inlen maxlen pos outPos out = some (count, out') ∧
        count ≤ maxlen := by
  have isRoot : storedRoot input = Int32.ofInt (st.treeSize - 1) := by
    rw [loads.size]
    rfl
  induction pos, outPos, out using decodeLoop.induct st input inlen maxlen with
  | case1 pos outPos out running missing =>
    obtain ⟨-, last, _, walked, -⟩ := walkAccesses_inBounds loads closed _ pos (visits running)
    rw [isRoot, missing] at walked
    exact absurd walked.symm (Option.some_ne_none _)
  | case2 pos outPos out running last next walked leaf ih =>
    obtain ⟨here, i, after, found, arrives⟩ :=
      walkAccesses_inBounds loads closed _ pos (visits running)
    rw [isRoot] at here found
    obtain ⟨rfl, rfl⟩ := Prod.mk.inj (Option.some.inj (walked.symm.trans found))
    obtain ⟨inner, count, out', decoded, bounded⟩ := ih running.2 fun more =>
      arrives.again (closed _ _ _ arrives) leaf ((next.bytePos_lt_iff inlen).mp more.1) more.2
    rw [loopAccesses_round running walked, decodeLoop_round running walked, if_pos leaf,
      if_pos leaf]
    refine ⟨fun access member => ?_, count, out', decoded, bounded⟩
    rcases List.mem_append.mp member with first | member
    · exact here access first
    rcases List.mem_cons.mp member with rfl | member
    · exact running.2
    · exact inner access member
  | case3 pos outPos out running last next walked inner ih =>
    obtain ⟨here, -⟩ := walkAccesses_inBounds loads closed _ pos (visits running)
    rw [isRoot] at here
    have ended := (decodeWalk_spec walked).2 (not_and_or.mp inner)
    obtain ⟨later, count, out', decoded, bounded⟩ := ih room fun more =>
      absurd more.1 (Nat.not_lt.mpr ended)
    rw [loopAccesses_round running walked, decodeLoop_round running walked, if_neg inner,
      if_neg inner]
    refine ⟨fun access member => ?_, count, out', decoded, bounded⟩
    rcases List.mem_append.mp member with first | member
    · exact here access first
    · exact later access member
  | case4 pos outPos out stopped =>
    rw [loopAccesses, decodeLoop, if_neg stopped, if_neg stopped]
    exact ⟨fun _ member => absurd member List.not_mem_nil, outPos, out, rfl, room⟩

/-! ### Every index the bits lead to is used -/

/-- What the outer loop still accesses, when its inner loop is at `curr`. -/
def pendingAccesses (st : Static) (input : Mem) (inlen maxlen : Nat) (curr : Int32) (pos : Cursor)
    (outPos : Nat) : List Access :=
  walkAccesses st input inlen curr pos ++
    match decodeWalk st input inlen curr pos with
    | none => []
    | some (node, after) =>
      if node.left = -1 ∧ node.right = -1 then
        .output outPos :: loopAccesses st input inlen maxlen after (outPos + 1)
      else loopAccesses st input inlen maxlen after outPos

theorem mem_pendingAccesses (curr : Int32) (pos : Cursor) (outPos : Nat) :
    .tree curr ∈ pendingAccesses st input inlen maxlen curr pos outPos := by
  rw [pendingAccesses, walkAccesses]
  exact List.mem_append_left _ List.mem_cons_self

theorem loopAccesses_eq {pos : Cursor} {outPos : Nat}
    (running : pos.bytePos < inlen ∧ outPos < maxlen) :
    loopAccesses st input inlen maxlen pos outPos =
      pendingAccesses st input inlen maxlen (Int32.ofInt (st.treeSize - 1)) pos outPos := by
  rw [pendingAccesses]
  cases walked : decodeWalk st input inlen (Int32.ofInt (st.treeSize - 1)) pos with
  | none =>
    rw [loopAccesses, if_pos running]
    congr 1
    split
    · rfl
    · rename_i found
      rw [walked] at found
      cases found
  | some found => exact loopAccesses_round running walked

theorem Visits.pending (loads : Loads st (storedNode input) (storedSize input))
    (room : 0 < maxlen) {q count : Nat} {i : Int32} (visits : Visits input inlen maxlen q count i) :
    ∃ pos : Cursor, pos.position = q ∧
      pendingAccesses st input inlen maxlen i pos count ⊆
        loopAccesses st input inlen maxlen (Cursor.start (headerSize input)) 0 := by
  have isRoot : storedRoot input = Int32.ofInt (st.treeSize - 1) := by
    rw [loads.size]
    rfl
  induction visits with
  | root more =>
    refine ⟨Cursor.start (headerSize input), Cursor.position_start _, ?_⟩
    rw [isRoot, ← loopAccesses_eq ⟨more, room⟩]
    exact List.Subset.refl _
  | @child q count i visits inside inner more ih =>
    obtain ⟨pos, rfl, pending⟩ := ih
    have unread : ¬ inlen ≤ pos.bytePos := Nat.not_le.mpr ((pos.bytePos_lt_iff inlen).mpr more)
    refine ⟨pos.next, pos.position_next, fun access member => pending ?_⟩
    rw [← readBit_eq] at member
    rw [pendingAccesses, walkAccesses, decodeWalk, loads.fetch inside.1 inside.2]
    simp only [inner, unread, if_true, if_false]
    exact List.mem_cons_of_mem _ (List.mem_cons_of_mem _ member)
  | @again q count i visits inside leaf more fewer ih =>
    obtain ⟨pos, rfl, pending⟩ := ih
    refine ⟨pos, rfl, fun access member => pending ?_⟩
    have outer : ¬ ((storedNode input i.toNatClampNeg).left ≠ -1 ∨
        (storedNode input i.toNatClampNeg).right ≠ -1) :=
      fun either => either.elim (absurd leaf.1) (absurd leaf.2)
    rw [isRoot, ← loopAccesses_eq ⟨(pos.bytePos_lt_iff inlen).mpr more, fewer⟩] at member
    rw [pendingAccesses, walkAccesses, decodeWalk, loads.fetch inside.1 inside.2]
    simp only [if_neg outer, if_pos leaf]
    exact List.mem_cons_of_mem _ (List.mem_cons_of_mem _ member)

end Loops

/-! ### The whole call -/

section Call

variable {st : Static} {input output : Mem} {inlen maxlen : Int32}

theorem load_loads (st : Static) {input : Mem} (fits : storedSize input ≤ maxTreeNodes) :
    Loads (st.load input (storedSize input)) (storedNode input) (storedSize input) where
  size := rfl
  fits := fits
  node := fun _ inside => if_pos inside

theorem decompressHuffman_accepted (nonempty : 0 < inlen) (room : 0 < maxlen) :
    decompressHuffman st input inlen output maxlen =
      if Accepted input inlen.toNatClampNeg then
        (decodeLoop (st.load input (storedSize input)) input inlen.toNatClampNeg
          maxlen.toNatClampNeg (Cursor.start (headerSize input)) 0 output).map
            fun written => ⟨written.1, written.2, st.load input (storedSize input)⟩
      else some ⟨-1, output, { st with treeSize := storedSize input }⟩ := by
  rw [decompressHuffman, if_neg (not_or.mpr ⟨Int32.not_le.mpr nonempty, Int32.not_le.mpr room⟩)]
  change (if (input.le32 0).toInt32 ≤ 0 ∨ maxTreeNodes < storedSize input then _
    else if inlen.toNatClampNeg < headerSize input then _ else _) = _
  by_cases accepted : Accepted input inlen.toNatClampNeg
  · obtain ⟨positive, fits, long⟩ := accepted
    rw [if_neg (not_or.mpr ⟨Int32.not_le.mpr positive, Nat.not_lt.mpr fits⟩),
      if_neg (Nat.not_lt.mpr long), if_pos ⟨positive, fits, long⟩]
    rfl
  · rw [if_neg accepted]
    by_cases wrong : (input.le32 0).toInt32 ≤ 0 ∨ maxTreeNodes < storedSize input
    · rw [if_pos wrong]
      rfl
    · rw [if_neg wrong, if_pos]
      · rfl
      · by_contra long
        rw [not_or, Int32.not_le, Nat.not_lt] at wrong
        exact accepted ⟨wrong.1, wrong.2, Nat.not_lt.mp long⟩

theorem safe_of_wellFormed (nonempty : 0 < inlen) (room : 0 < maxlen)
    (wellFormed : WellFormed input inlen.toNatClampNeg maxlen.toNatClampNeg) :
    Safe st input inlen output maxlen := by
  obtain ⟨word, closed⟩ := wellFormed
  have running : ¬ (inlen ≤ 0 ∨ maxlen ≤ 0) :=
    not_or.mpr ⟨Int32.not_le.mpr nonempty, Int32.not_le.mpr room⟩
  have positive : (maxlen.toNatClampNeg : Int) = maxlen.toInt := by
    rw [Int32.lt_iff_toInt_lt] at room
    have : (0 : Int32).toInt = 0 := rfl
    unfold Int32.toNatClampNeg
    omega
  by_cases accepted : Accepted input inlen.toNatClampNeg
  swap
  · refine ⟨?_, _, by rw [decompressHuffman_accepted nonempty room, if_neg accepted], .inl rfl⟩
    rw [decompressAccesses, if_neg running, if_neg accepted, List.append_nil]
    intro access member
    obtain ⟨i, low, rfl⟩ := List.mem_map.mp member
    exact Nat.lt_of_lt_of_le (List.mem_range.mp low) word
  obtain ⟨inBounds, count, out, decoded, bounded⟩ := loopAccesses_inBounds
    (load_loads st accepted.2.1) (closed accepted) (Cursor.start (headerSize input)) 0 output
    (Nat.zero_le _) fun more => by
      rw [Cursor.position_start]
      exact .root more.1
  refine ⟨?_, ⟨count, out, st.load input (storedSize input)⟩, ?_, .inr ⟨?_, ?_⟩⟩
  · rw [decompressAccesses, if_neg running, if_pos accepted]
    intro access member
    have fits := accepted.2.1
    have long := accepted.2.2
    unfold headerSize at long
    simp only [List.mem_append, List.mem_map, List.mem_range] at member
    rcases member with ⟨i, low, rfl⟩ | (⟨i, low, rfl⟩ | ⟨i, low, rfl⟩) | member
    · exact Nat.lt_of_lt_of_le low word
    · change 4 + i < _
      omega
    · have small : i < 2 ^ 31 := by
        unfold maxTreeNodes at fits
        omega
      refine ⟨?_, ?_⟩
      · rw [← Int32.ofInt_eq_ofNat]
        exact ofInt_nonneg small
      · rw [Int32.toNatClampNeg_ofNat_of_lt small]
        exact low
    · exact inBounds access member
  · rw [decompressHuffman_accepted nonempty room, if_pos accepted, decoded]
    rfl
  · exact Int.natCast_nonneg count
  · rw [← positive]
    exact Int.ofNat_le.mpr bounded

theorem wellFormed_of_safe (nonempty : 0 < inlen) (room : 0 < maxlen)
    (safe : Safe st input inlen output maxlen) :
    WellFormed input inlen.toNatClampNeg maxlen.toNatClampNeg := by
  have running : ¬ (inlen ≤ 0 ∨ maxlen ≤ 0) :=
    not_or.mpr ⟨Int32.not_le.mpr nonempty, Int32.not_le.mpr room⟩
  have positive : 0 < maxlen.toNatClampNeg := by
    rw [Int32.lt_iff_toInt_lt] at room
    have : (0 : Int32).toInt = 0 := rfl
    unfold Int32.toNatClampNeg
    omega
  refine ⟨?_, fun accepted q count i visits => ?_⟩
  · -- the size word is read whatever `inlen` is
    have inBounds := safe.bounds (.input 3) (by
      rw [decompressAccesses, if_neg running]
      exact List.mem_append_left _ (by decide))
    exact inBounds
  · obtain ⟨pos, -, pending⟩ := visits.pending (load_loads st accepted.2.1) positive
    refine safe.bounds (.tree i) ?_
    rw [decompressAccesses, if_neg running, if_pos accepted]
    exact List.mem_append_right _ (List.mem_append_right _
      (pending (mem_pendingAccesses i pos count)))

end Call

/-- `decompress_huffman` is safe on an input exactly when it has its size word and its
code bits lead nowhere outside the stored tree, whatever the static arrays hold. -/
theorem safe_iff_wellFormed (st : Static) (input output : Mem) {inlen maxlen : Int32}
    (nonempty : 0 < inlen) (room : 0 < maxlen) :
    Safe st input inlen output maxlen ↔
      WellFormed input inlen.toNatClampNeg maxlen.toNatClampNeg :=
  ⟨wellFormed_of_safe nonempty room, safe_of_wellFormed nonempty room⟩

/-- A tree of three nodes, whose right link is stray, and eight bits 0. -/
def leftImage : Mem := fun i =>
  ([3, 0, 0, 0, 97, 0, 0, 0, 1, 0, 0, 0, 255, 255, 255, 255, 255, 255, 255, 255,
    98, 0, 0, 0, 1, 0, 0, 0, 255, 255, 255, 255, 255, 255, 255, 255,
    0, 0, 0, 0, 2, 0, 0, 0, 0, 0, 0, 0, 100, 0, 0, 0] : List UInt8).getD i 0

/-- No bit leads along the stray link. -/
theorem safe_iff_wellFormed_leftImage :
    WellFormed leftImage (53 : Int32).toNatClampNeg (8 : Int32).toNatClampNeg ∧
      Safe Static.clear leftImage 53 (fun _ => 0) 8 := by
  have zero : ∀ d < 8, leftImage.bit (416 + d) = false := by decide +kernel
  have onLeft {q count : Nat} {i : Int32} (visits : Visits leftImage 53 8 q count i) :
      416 ≤ q ∧ (i = 2 ∨ i = 0) := by
    induction visits with
    | root more => exact ⟨by decide, .inl (by decide)⟩
    | @child q count i _ inside inner more ih =>
      obtain ⟨behind, rfl | rfl⟩ := ih
      · have isZero := zero (q - 416) (by omega)
        rw [Nat.add_sub_cancel' behind] at isZero
        rw [isZero]
        exact ⟨by omega, .inr (by decide)⟩
      · exact absurd inner (by decide)
    | again _ inside leaf more room ih => exact ⟨ih.1, .inl (by decide)⟩
  have wellFormed : WellFormed leftImage (53 : Int32).toNatClampNeg (8 : Int32).toNatClampNeg := by
    refine ⟨by decide, fun _ q count i visits => ?_⟩
    obtain ⟨-, rfl | rfl⟩ := onLeft visits <;> decide
  exact ⟨wellFormed, (safe_iff_wellFormed Static.clear leftImage (fun _ => 0) (by decide)
    (by decide)).mpr wellFormed⟩

/-- A header with one inner node, whose children are both number 100. -/
def strayImage : Mem := fun i =>
  ([1, 0, 0, 0, 97, 0, 0, 0, 1, 0, 0, 0, 100, 0, 0, 0, 100, 0, 0, 0] : List UInt8).getD i 0

/-- With one byte of code bits `tree[100]` is read of a tree of one node; a string
of one byte is read past its end. -/
theorem decompress_unsafe : ¬ Safe Static.clear strayImage 21 (fun _ => 0) 1 ∧
    ¬ Safe Static.clear strayImage 1 (fun _ => 0) 1 := by
  have stray : .tree 100 ∈ decompressAccesses Static.clear strayImage 21 1 := by decide +kernel
  have past : .input 3 ∈ decompressAccesses Static.clear strayImage 1 1 := by decide +kernel
  have outside : ¬ InTree (storedSize strayImage) 100 := by decide
  exact ⟨fun safe => outside (safe.bounds _ stray), fun safe =>
    absurd (safe.bounds _ past) (show ¬ 3 < (1 : Int32).toNatClampNeg by decide)⟩

end Xv6.Kernel.Huffman
