import Mathlib

/-!
The run-length coder of `user/compress.c` and `user/decompress.c`.

Owns: both programs over the results of their `read` calls, and for which inputs
decompression gives back what was compressed.

Does not own: the file names and the opening of files. Reads and writes do not fail.
-/

namespace Xv6.User.Rle

/-- `BLOCK_SIZE` -/
def blockSize : Nat := 512

/-- The results of `read` calls on a file with contents `x`, up to the one that returns
0. -/
structure Cuts (x : List UInt8) (chunks : List (List UInt8)) : Prop where
  whole : chunks.flatten = x
  nonempty : ∀ chunk ∈ chunks, chunk ≠ []
  bounded : ∀ chunk ∈ chunks, chunk.length ≤ blockSize

/-! ### compress -/

/-- The variables of `compress_file` and what it has written. -/
structure Encoder where
  prev : UInt8
  count : Nat
  output : List UInt8

namespace Encoder

/-- `if (count > 0)` and the `write` that follows. -/
def writePair (s : Encoder) : List UInt8 :=
  if 0 < s.count then s.output ++ [s.prev, 48 + UInt8.ofNat s.count] else s.output

/-- The body of the inner loop. -/
def step (s : Encoder) (curr : UInt8) : Encoder :=
  if curr = s.prev then { s with count := if 9 < s.count + 1 then 9 else s.count + 1 }
  else ⟨curr, 1, s.writePair⟩

def start : Encoder := ⟨0, 0, []⟩

end Encoder

/-- `compress_file`: what it writes. -/
def compressFile (chunks : List (List UInt8)) : List UInt8 :=
  (chunks.foldl (fun s chunk => chunk.foldl Encoder.step s) Encoder.start).writePair

/-! ### decompress -/

/-- The exits with status 1. -/
inductive Failure where
  | unexpectedEof
  | invalidCount (count : Int)
deriving DecidableEq

/-- The rest of an iteration: `count = buf[i++] - '0'`, its check, and the loop that
writes. -/
def writeRun (currChar digit : UInt8) (output : List UInt8) : Except Failure (List UInt8) :=
  let count : Int := digit.toNat - 48
  if count < 1 ∨ 9 < count then .error (.invalidCount count)
  else .ok (output ++ List.replicate count.toNat currChar)

/-- Both loops of `decompress_file`, with `buf[i..n)` and the `read` calls to come. -/
def decompressLoop : List UInt8 → List (List UInt8) → List UInt8 → Except Failure (List UInt8)
  -- `while ((n = read(src_fd, buf, BLOCK_SIZE)) > 0)`
  | [], [], output => .ok output
  | [], [] :: _, output => .ok output
  | [], (byte :: buf) :: reads, output => decompressLoop (byte :: buf) reads output
  -- The inner read, for the count of a pair that is cut.
  | [_], [], _ => .error .unexpectedEof
  | [_], [] :: _, _ => .error .unexpectedEof
  | [currChar], (digit :: buf) :: reads, output => do
    decompressLoop buf reads (← writeRun currChar digit output)
  | currChar :: digit :: buf, reads, output => do
    decompressLoop buf reads (← writeRun currChar digit output)
termination_by buf reads => buf.length + (reads.map fun read => read.length + 1).sum

/-- `decompress_file`: what it writes before it returns. -/
def decompressFile (reads : List (List UInt8)) : Except Failure (List UInt8) :=
  decompressLoop [] reads []

/-! ### Cuts do not matter -/

theorem compressFile_eq (chunks : List (List UInt8)) :
    compressFile chunks = (chunks.flatten.foldl Encoder.step Encoder.start).writePair := by
  rw [compressFile, List.foldl_flatten]

/-- Decompression of a whole file. -/
def decode : List UInt8 → List UInt8 → Except Failure (List UInt8)
  | [], output => .ok output
  | [_], _ => .error .unexpectedEof
  | currChar :: digit :: rest, output => do decode rest (← writeRun currChar digit output)

theorem decompressLoop_eq (buf : List UInt8) (reads : List (List UInt8))
    (nonempty : ∀ chunk ∈ reads, chunk ≠ []) (output : List UInt8) :
    decompressLoop buf reads output = decode (buf ++ reads.flatten) output := by
  induction buf, reads, output using decompressLoop.induct with
  | case1 output => simp [decompressLoop, decode]
  | case2 tail output => simp at nonempty
  | case3 byte buf reads output ih =>
    rw [decompressLoop, ih fun chunk member =>
      nonempty chunk (List.mem_cons_of_mem _ member)]
    rfl
  | case4 byte output => simp [decompressLoop, decode]
  | case5 byte tail output => simp at nonempty
  | case6 currChar digit buf reads output ih =>
    have later := fun chunk member => nonempty chunk (List.mem_cons_of_mem _ member)
    rw [decompressLoop]
    simp only [List.flatten_cons, List.cons_append, List.nil_append, decode]
    exact bind_congr fun written => ih written later
  | case7 currChar digit buf reads output ih =>
    rw [decompressLoop]
    simp only [List.cons_append, decode]
    exact bind_congr fun written => ih written nonempty

theorem decompressFile_eq (reads : List (List UInt8)) (nonempty : ∀ chunk ∈ reads, chunk ≠ []) :
    decompressFile reads = decode reads.flatten [] := decompressLoop_eq [] reads nonempty []

/-! ### Runs -/

/-- The maximal runs of equal bytes. -/
def runs (x : List UInt8) : List (List UInt8) := x.splitBy (· == ·)

/-- Every run of more than nine bytes is shortened to nine. -/
def shortened (x : List UInt8) : List UInt8 := (runs x).flatMap (List.take 9)

theorem runs_append_cons {x : List UInt8} {b : UInt8} (rest : List UInt8)
    (different : ∀ last ∈ x.getLast?, last ≠ b) :
    runs (x ++ b :: rest) = runs x ++ runs (b :: rest) := by
  apply List.splitBy_append_cons
  simpa using different

theorem runs_replicate (k : Nat) (b : UInt8) :
    runs (List.replicate (k + 1) b) = [List.replicate (k + 1) b] := by
  apply List.splitBy_of_isChain
  · simp
  · simp [List.isChain_replicate_of_rel]

theorem exists_run (b : UInt8) (x : List UInt8) :
    ∃ k rest, x = List.replicate k b ++ rest ∧ ∀ first ∈ rest.head?, first ≠ b := by
  induction x with
  | nil => exact ⟨0, [], rfl, by simp⟩
  | cons curr x ih =>
    by_cases same : curr = b
    · obtain ⟨k, rest, split, different⟩ := ih
      exact ⟨k + 1, rest, by rw [split, same]; rfl, different⟩
    · exact ⟨0, curr :: x, rfl, by simpa using same⟩

theorem shortened_replicate (k : Nat) (b : UInt8) :
    shortened (List.replicate k b) = List.replicate (min 9 k) b := by
  cases k with
  | zero => rfl
  | succ k => simp [shortened, runs_replicate]

theorem shortened_run (k : Nat) {b : UInt8} {rest : List UInt8}
    (different : ∀ first ∈ rest.head?, first ≠ b) :
    shortened (List.replicate k b ++ rest) = List.replicate (min 9 k) b ++ shortened rest := by
  cases rest with
  | nil => rw [List.append_nil, shortened_replicate]; exact (List.append_nil _).symm
  | cons first rest =>
    have apart : ∀ last ∈ (List.replicate k b).getLast?, last ≠ first := by
      intro last isLast
      rw [List.eq_of_mem_replicate (List.mem_of_mem_getLast? isLast)]
      exact (different first rfl).symm
    rw [← shortened_replicate, shortened, runs_append_cons rest apart, List.flatMap_append]
    rfl

theorem length_shortened_cons_le (b : UInt8) (x : List UInt8) :
    (shortened (b :: x)).length ≤ (shortened x).length + 1 := by
  obtain ⟨k, rest, rfl, different⟩ := exists_run b x
  have longer := shortened_run (k + 1) different
  rw [List.replicate_succ, List.cons_append] at longer
  rw [longer, shortened_run k different]
  simp only [List.length_append, List.length_replicate]
  omega

theorem length_shortened_append_le (x y : List UInt8) :
    (shortened (x ++ y)).length ≤ x.length + (shortened y).length := by
  induction x with
  | nil => simp
  | cons b x ih =>
    have one := length_shortened_cons_le b (x ++ y)
    simp only [List.cons_append, List.length_cons]
    omega

theorem length_shortened_le (x : List UInt8) : (shortened x).length ≤ x.length := by
  simpa [shortened, runs] using length_shortened_append_le x []

/-- Nothing is lost exactly if no byte comes ten times in a row. -/
theorem shortened_eq_iff (x : List UInt8) : shortened x = x ↔ ∀ b, ¬List.replicate 10 b <:+: x := by
  constructor
  · rintro same b ⟨front, back, rfl⟩
    obtain ⟨k, rest, rfl, different⟩ := exists_run b back
    have lost : (shortened (List.replicate 10 b ++ (List.replicate k b ++ rest))).length ≤ 9 +
        rest.length := by
      have shorter := length_shortened_le rest
      rw [← List.append_assoc, ← List.replicate_add, shortened_run _ different]
      simp only [List.length_append, List.length_replicate]
      omega
    have before :=
      length_shortened_append_le front (List.replicate 10 b ++ (List.replicate k b ++ rest))
    rw [← List.append_assoc, same] at before
    simp only [List.length_append, List.length_replicate] at before
    omega
  · -- one run after the other
    induction x using WellFounded.induction (measure List.length).wf with
    | _ x ih =>
      intro never
      cases x with
      | nil => rfl
      | cons b x =>
        obtain ⟨k, rest, rfl, different⟩ := exists_run b x
        have split : b :: (List.replicate k b ++ rest) = List.replicate (k + 1) b ++ rest := rfl
        rw [split] at never ⊢
        have small : k + 1 ≤ 9 := by
          by_contra large
          apply never b
          rw [show k + 1 = 10 + (k - 9) by omega, List.replicate_add, List.append_assoc]
          exact (List.prefix_append _ _).isInfix
        have later : shortened rest = rest := by
          apply ih rest
          · change rest.length < (List.length _)
            simp
          · intro c inside
            exact never c (inside.trans (List.suffix_append _ _).isInfix)
        rw [shortened_run _ different, later, min_eq_right small]

/-! ### What is written and read back -/

/-- The pairs for some runs. -/
def pairs (runs : List (List UInt8)) : List (UInt8 × Nat) :=
  runs.map fun run => (run.headD 0, min 9 run.length)

/-- Pairs as `write` is given them. -/
def written (pairs : List (UInt8 × Nat)) : List UInt8 :=
  pairs.flatMap fun pair => [pair.1, 48 + UInt8.ofNat pair.2]

theorem pairs_bounds {x : List UInt8} {pair : UInt8 × Nat} (listed : pair ∈ pairs (runs x)) :
    1 ≤ pair.2 ∧ pair.2 ≤ 9 := by
  obtain ⟨run, isRun, rfl⟩ := List.mem_map.mp listed
  have positive := List.length_pos_iff.mpr (List.ne_nil_of_mem_splitBy isRun)
  constructor
  · exact Nat.le_min.mpr ⟨by decide, positive⟩
  · exact Nat.min_le_left _ _

theorem Encoder.writePair_eq {s : Encoder} {k : Nat} (count : s.count = min 9 k) :
    s.writePair = s.output ++ written (pairs (runs (List.replicate k s.prev))) := by
  unfold Encoder.writePair
  cases k with
  | zero =>
    rw [if_neg (by omega)]
    exact (List.append_nil _).symm
  | succ k =>
    rw [if_pos (by omega), runs_replicate, count]
    simp [pairs, written, List.replicate_succ]

/-- In the middle of a run of which `k` bytes were read. -/
theorem writePair_foldl (x : List UInt8) (s : Encoder) (k : Nat) (count : s.count = min 9 k) :
    (x.foldl Encoder.step s).writePair =
      s.output ++ written (pairs (runs (List.replicate k s.prev ++ x))) := by
  induction x generalizing s k with
  | nil => rw [List.append_nil, List.foldl_nil, Encoder.writePair_eq count]
  | cons curr x ih =>
    rw [List.foldl_cons, Encoder.step]
    by_cases same : curr = s.prev
    · rw [if_pos same, ih _ (k + 1) (by dsimp only; split_ifs <;> omega), same,
        List.replicate_succ', List.append_assoc]
      rfl
    · have apart : ∀ last ∈ (List.replicate k s.prev).getLast?, last ≠ curr := by
        intro last isLast
        rw [List.eq_of_mem_replicate (List.mem_of_mem_getLast? isLast)]
        exact Ne.symm same
      rw [if_neg same, ih _ 1 rfl, Encoder.writePair_eq count, runs_append_cons x apart]
      simp [pairs, written]

theorem compressFile_runs {x : List UInt8} {chunks : List (List UInt8)} (read : Cuts x chunks) :
    compressFile chunks = written (pairs (runs x)) := by
  rw [compressFile_eq, read.whole]
  exact writePair_foldl x Encoder.start 0 rfl

theorem decode_pair {count : Nat} (positive : 0 < count) (small : count ≤ 9) (b : UInt8)
    (rest output : List UInt8) :
    decode (b :: (48 + UInt8.ofNat count) :: rest) output =
      decode rest (output ++ List.replicate count b) := by
  have digit : (48 + UInt8.ofNat count).toNat = 48 + count := by
    rw [UInt8.toNat_add, UInt8.toNat_ofNat']
    change (48 + count % 256) % 256 = 48 + count
    omega
  have value : (((48 + count : Nat) : Int) - 48).toNat = count := by omega
  have run : writeRun b (48 + UInt8.ofNat count) output =
      .ok (output ++ List.replicate count b) := by
    unfold writeRun
    dsimp only
    rw [digit, if_neg (by omega), value]
  rw [decode, run]
  rfl

theorem decode_written (parts : List (UInt8 × Nat))
    (bounds : ∀ pair ∈ parts, 1 ≤ pair.2 ∧ pair.2 ≤ 9) (output : List UInt8) :
    decode (written parts) output =
      .ok (output ++ parts.flatMap fun pair => List.replicate pair.2 pair.1) := by
  induction parts generalizing output with
  | nil => rw [List.flatMap_nil, List.append_nil]; rfl
  | cons pair parts ih =>
    obtain ⟨positive, small⟩ := bounds pair List.mem_cons_self
    change decode (pair.1 :: (48 + UInt8.ofNat pair.2) :: written parts) output = _
    rw [decode_pair positive small, ih fun pair later => bounds pair (List.mem_cons_of_mem _ later)]
    simp

theorem take_run {x run : List UInt8} (isRun : run ∈ runs x) :
    List.replicate (min 9 run.length) (run.headD 0) = run.take 9 := by
  have chain := List.isChain_of_mem_splitBy isRun
  cases run with
  | nil => rfl
  | cons b run =>
    have equal : ∀ c ∈ b :: run, c = b := by
      have ordered : (b :: run).Pairwise (· = ·) := by
        apply List.isChain_iff_pairwise.mp
        simpa using chain
      intro c listed
      rcases List.mem_cons.mp listed with rfl | later
      · rfl
      · exact ((List.pairwise_cons.mp ordered).1 c later).symm
    calc List.replicate (min 9 (b :: run).length) b
      _ = (List.replicate (b :: run).length b).take 9 := List.take_replicate.symm
      _ = (b :: run).take 9 := congrArg (List.take 9) (List.eq_replicate_of_mem equal).symm

theorem decompressFile_compressFile {x : List UInt8} {chunks stored : List (List UInt8)}
    (read : Cuts x chunks) (reread : Cuts (compressFile chunks) stored) :
    decompressFile stored = .ok (shortened x) := by
  rw [decompressFile_eq stored reread.nonempty, reread.whole, compressFile_runs read,
    decode_written _ fun pair => pairs_bounds]
  simp only [pairs, shortened, List.flatMap_map, List.nil_append, Except.ok.injEq]
  exact List.flatMap_congr fun run isRun => take_run isRun

/-- Decompression of a compressed file returns, and gives the file back exactly if no byte
comes ten times in a row. -/
theorem decompress_compress_iff {x : List UInt8} {chunks stored : List (List UInt8)}
    (read : Cuts x chunks) (reread : Cuts (compressFile chunks) stored) :
    (∃ y, decompressFile stored = .ok y) ∧
      (decompressFile stored = .ok x ↔ ∀ b, ¬List.replicate 10 b <:+: x) := by
  rw [decompressFile_compressFile read reread, Except.ok.injEq, shortened_eq_iff]
  exact ⟨⟨_, rfl⟩, Iff.rfl⟩

/-- Ten equal bytes. -/
def tenBytes : List UInt8 := List.replicate 10 97

/-- The tenth of ten equal bytes is lost. -/
theorem decompress_loses_tenth :
    Cuts tenBytes [tenBytes] ∧ Cuts (compressFile [tenBytes]) [compressFile [tenBytes]] ∧
      decompressFile [compressFile [tenBytes]] ≠ .ok tenBytes := by
  have stored : compressFile [tenBytes] = [97, 57] := by decide
  have read : Cuts tenBytes [tenBytes] := ⟨List.append_nil _, by decide, by decide⟩
  have reread : Cuts (compressFile [tenBytes]) [compressFile [tenBytes]] := by
    rw [stored]
    exact ⟨rfl, by decide, by decide⟩
  refine ⟨read, reread, ?_⟩
  rw [decompressFile_eq _ reread.nonempty, stored]
  decide

/-- Nine equal bytes come back. -/
theorem decompress_compress_nine :
    Cuts (List.replicate 9 97) [List.replicate 9 97] ∧
      Cuts (compressFile [List.replicate 9 97]) [[97], [57]] ∧
      decompressFile [[97], [57]] = .ok (List.replicate 9 97) := by
  have read : Cuts (List.replicate 9 97) [List.replicate 9 97] :=
    ⟨List.append_nil _, by decide, by decide⟩
  have reread : Cuts (compressFile [List.replicate 9 97]) [[97], [57]] :=
    ⟨by decide, by decide, by decide⟩
  refine ⟨read, reread, (decompress_compress_iff read reread).2.mpr ?_⟩
  intro b inside
  exact absurd inside.length_le (by simp)

/-- For every contents there is one list of pairs, each a byte and a count from 1 to 9, that
`compress_file` writes however its input is read, and `decompress_file` turns it into the
contents with every longer run shortened to nine, however that is read. -/
theorem compress_decompress_shortened (x : List UInt8) :
    ∃ parts : List (UInt8 × Nat), (∀ pair ∈ parts, 1 ≤ pair.2 ∧ pair.2 ≤ 9) ∧
      ∀ chunks, Cuts x chunks → compressFile chunks = written parts ∧
        ∀ stored, Cuts (compressFile chunks) stored →
          decompressFile stored = .ok (shortened x) := by
  refine ⟨pairs (runs x), fun pair => pairs_bounds, fun chunks read => ?_⟩
  exact ⟨compressFile_runs read, fun stored reread => decompressFile_compressFile read reread⟩

/-- A run of eleven becomes a run of nine. -/
theorem compress_decompress_eleven :
    ∃ parts :
    List (UInt8 × Nat), compressFile [List.replicate 11 97 ++ [98], [98]] = written parts ∧
      decompressFile [[97], [57, 98], [50]] = .ok (List.replicate 9 97 ++ [98, 98]) := by
  obtain ⟨parts, _, given⟩ := compress_decompress_shortened (List.replicate 11 97 ++ [98, 98])
  obtain ⟨stored, back⟩ :=
    given [List.replicate 11 97 ++ [98], [98]] ⟨by decide, by decide, by decide⟩
  exact ⟨parts, stored, back [[97], [57, 98], [50]] ⟨by decide, by decide, by decide⟩⟩

end Xv6.User.Rle
