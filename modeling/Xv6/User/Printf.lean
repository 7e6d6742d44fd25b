import Xv6.Kernel.Console.Printint

/-!
`vprintf` of `user/printf.c`.

Owns: `printint`, `printptr` and `vprintf` with the arguments they take, the text that
a format stands for, and for which arguments the two agree.

Does not own: the descriptor that is written to. Writes do not fail.
-/

namespace Xv6.User.Printf

open Xv6.Lib Xv6.Kernel.Console

/-- `digits` -/
def digits (d : Nat) : UInt8 :=
  [48, 49, 50, 51, 52, 53, 54, 55, 56, 57, 65, 66, 67, 68, 69, 70].getD d 0

/-- `printint`, with the old contents of its array; nothing, if a store leaves the array. -/
def printint (xx : Int32) (base : Nat) (sgn : Bool) (buf : Mem) : Option (List UInt8) :=
  let neg := sgn && decide (xx < 0)
  let x := if neg then (-xx).toUInt32 else xx.toUInt32
  convert 16 digits base x.toNat neg buf

/-- The loop of `printptr`. -/
def printptrLoop : Nat → UInt64 → List UInt8
  | 0, _ => []
  | n + 1, x => digits (x >>> 60).toNat :: printptrLoop n (x <<< 4)

/-- `printptr` -/
def printptr (x : UInt64) : List UInt8 := 48 :: 120 :: printptrLoop 16 x

/-- An argument: its register, and the string at that address. -/
structure Arg where
  word : UInt64
  text : List UInt8

/-- A register given to `printint`: `va_arg(ap, int)`, or a `uint64` made an `int` by the
call. -/
def Arg.int (arg : Arg) : Int32 := arg.word.toUInt32.toInt32

/-- What is printed for `%s`. -/
def Arg.string (arg : Arg) : List UInt8 :=
  if arg.word = 0 then [40, 110, 117, 108, 108, 41] else arg.text

/-- The characters after a `%`: what is printed, how many arguments are taken, and how many
characters after `c0` are skipped. -/
def directive (buf : Mem) (c0 c1 c2 : UInt8) (arg : Arg) : Option (List UInt8 × Nat × Nat) :=
  if c0 = 100 then (printint arg.int 10 true buf).map (·, 1, 0)
  else if c0 = 108 ∧ c1 = 100 then (printint arg.int 10 true buf).map (·, 1, 1)
  else if c0 = 108 ∧ c1 = 108 ∧ c2 = 100 then (printint arg.int 10 true buf).map (·, 1, 2)
  else if c0 = 117 then (printint arg.int 10 false buf).map (·, 1, 0)
  else if c0 = 108 ∧ c1 = 117 then (printint arg.int 10 false buf).map (·, 1, 1)
  else if c0 = 108 ∧ c1 = 108 ∧ c2 = 117 then (printint arg.int 10 false buf).map (·, 1, 2)
  else if c0 = 120 then (printint arg.int 16 false buf).map (·, 1, 0)
  else if c0 = 108 ∧ c1 = 120 then (printint arg.int 16 false buf).map (·, 1, 1)
  else if c0 = 108 ∧ c1 = 108 ∧ c2 = 120 then (printint arg.int 16 false buf).map (·, 1, 2)
  else if c0 = 112 then some (printptr arg.word, 1, 0)
  else if c0 = 115 then some (arg.string, 1, 0)
  else if c0 = 37 then some ([37], 0, 0)
  else some ([37, c0], 0, 0)

/-- The loop of `vprintf` over the rest of the format, with `state == '%'` as a flag: what is
written and the arguments that are left. -/
def vprintfLoop (buf : Mem) (state : Bool) : List UInt8 → List Arg → Option (List UInt8 × List Arg)
  | [], args => some ([], args)
  | c0 :: rest, args =>
    if state then do
      let c1 := rest.headD 0
      let c2 := if c1 ≠ 0 then rest.tail.headD 0 else 0
      let (text, taken, skipped) ← directive buf c0 c1 c2 (args.headD ⟨0, []⟩)
      let (later, args) ← vprintfLoop buf false (rest.drop skipped) (args.drop taken)
      pure (text ++ later, args)
    else if c0 = 37 then vprintfLoop buf true rest args
    else do
      let (later, args) ← vprintfLoop buf false rest args
      pure (c0 :: later, args)
termination_by fmt => fmt.length
decreasing_by all_goals simp; try omega

/-- `vprintf` -/
def vprintf (buf : Mem) (fmt : List UInt8) (args : List Arg) : Option (List UInt8 × List Arg) :=
  vprintfLoop buf false fmt args

/-! ### What a format stands for -/

/-- Nothing, `l` or `ll` before a conversion. -/
inductive Length where
  | int
  | long
  | longLong
deriving DecidableEq

/-- A part of a format with its argument. -/
inductive Piece where
  | char (c : UInt8) (literal : c ≠ 0 ∧ c ≠ 37)
  | number (length : Length) (conversion : Conversion) (arg : Arg)
  | pointer (arg : Arg)
  | string (arg : Arg) (given : arg.word ≠ 0)
  | percent

namespace Piece

def letter : Conversion → UInt8
  | .d => 100
  | .u => 117
  | .x => 120

/-- The characters of the format. -/
def format : Piece → List UInt8
  | char c _ => [c]
  | number .int conversion _ => [37, letter conversion]
  | number .long conversion _ => [37, 108, letter conversion]
  | number .longLong conversion _ => [37, 108, 108, letter conversion]
  | pointer _ => [37, 112]
  | string _ _ => [37, 115]
  | percent => [37, 37]

/-- The argument it goes with. -/
def args : Piece → List Arg
  | number _ _ arg => [arg]
  | pointer arg => [arg]
  | string arg _ => [arg]
  | _ => []

/-- The low half of a register as the conversion reads it. -/
def lowValue (conversion : Conversion) (word : UInt64) : Int :=
  if conversion.sign then word.toUInt32.toInt32.toInt else word.toUInt32.toNat

/-- The argument at the width of its directive. -/
def value : Length → Conversion → UInt64 → Int
  | .int, conversion, word => lowValue conversion word
  | _, conversion, word => conversion.value word.toInt64

/-- A pointer: all 16 digits, most significant first. -/
def pointerText (x : UInt64) : List UInt8 :=
  48 :: 120 :: (List.range 16).map fun i => digits (x.toNat / 16 ^ (15 - i) % 16)

/-- The text that stands for it. -/
def text : Piece → List UInt8
  | char c _ => [c]
  | number length conversion arg =>
    numeral digits conversion.base (value length conversion arg.word)
  | pointer arg => pointerText arg.word
  | string arg _ => arg.text
  | percent => [37]

/-- The text `vprintf` writes: numbers lose their upper half. -/
def printed : Piece → List UInt8
  | number _ conversion arg => numeral digits conversion.base (lowValue conversion arg.word)
  | piece => piece.text

/-- The arguments of the long directives that the lower half of a register can hold. -/
def Fits : Piece → Prop
  | number .int _ _ => True
  | number _ .d arg => -2 ^ 31 ≤ arg.word.toInt64.toInt ∧ arg.word.toInt64.toInt < 2 ^ 31
  | number _ _ arg => arg.word.toNat < 2 ^ 32
  | _ => True

end Piece

/-! ### What is printed -/

theorem lowValue_natAbs_lt (conversion : Conversion) (word : UInt64) :
    (Piece.lowValue conversion word).natAbs < 2 ^ 32 := by
  have low := word.toUInt32.toNat_lt
  have signed := BitVec.le_toInt word.toUInt32.toInt32.toBitVec
  have signed' := BitVec.toInt_lt (x := word.toUInt32.toInt32.toBitVec)
  change _ ≤ word.toUInt32.toInt32.toInt at signed
  change word.toUInt32.toInt32.toInt < _ at signed'
  unfold Piece.lowValue
  split_ifs <;> omega

theorem printint_eq (conversion : Conversion) (arg : Arg) (buf : Mem) :
    printint arg.int conversion.base conversion.sign buf =
      some (numeral digits conversion.base (Piece.lowValue conversion arg.word)) := by
  have room :
      (digitsOf conversion.base (Piece.lowValue conversion arg.word).natAbs).length ≤ 15 := by
    have small := lowValue_natAbs_lt conversion arg.word
    apply (length_digitsOf_le_iff conversion.one_lt_base (by decide) _).mpr
    cases conversion with
    | d | u | x => exact small.trans (by decide)
  have converted : printint arg.int conversion.base conversion.sign buf =
      convert 16 digits conversion.base
      (Piece.lowValue conversion arg.word).natAbs
        (decide (Piece.lowValue conversion arg.word < 0)) buf := by
    unfold printint Piece.lowValue
    cases signed : conversion.sign with
    | false =>
      have positive : ¬((arg.word.toUInt32.toNat : Int) < 0) := by omega
      simp only [Bool.false_and, Bool.false_eq_true, if_false, positive, decide_false]
      rfl
    | true =>
      have same : (arg.int < 0) ↔ arg.int.toInt < 0 := Int32.lt_iff_toInt_lt
      have magnitude : (if arg.int.toInt < 0 then (-arg.int).toUInt32 else arg.int.toUInt32).toNat =
          arg.int.toInt.natAbs := by
        rw [apply_ite UInt32.toNat]
        exact (natAbs_toInt arg.int.toBitVec).symm
      simp only [Bool.true_and, decide_eq_true_eq, same, if_true, magnitude]
      rfl
  rw [converted, convert_eq conversion.one_lt_base, if_pos]
  split_ifs <;> omega

theorem printptrLoop_eq (x : UInt64) (n k : Nat) (inside : n + k = 16) (y : UInt64)
    (shifted : y.toNat = x.toNat * 16 ^ k % 2 ^ 64) :
    printptrLoop n y = (List.range n).map fun i => digits (x.toNat / 16 ^ (15 - (k + i)) % 16) := by
  induction n generalizing k y with
  | zero => rfl
  | succ n ih =>
    have top : (y >>> 60).toNat = x.toNat / 16 ^ (15 - k) % 16 := by
      rw [UInt64.toNat_shiftRight, shifted]
      change (x.toNat * 16 ^ k % 2 ^ 64) >>> 60 = _
      rw [Nat.shiftRight_eq_div_pow]
      have split : 2 ^ 60 = 16 ^ k * 16 ^ (15 - k) := by
        rw [← pow_add, show k + (15 - k) = 15 by omega]
        decide
      have whole : 2 ^ 64 = 2 ^ 60 * 16 := by decide
      rw [whole, Nat.mod_mul_right_div_self, split, ← Nat.div_div_eq_div_mul,
        Nat.mul_div_cancel _ (Nat.pow_pos (by decide))]
    have next : (y <<< 4).toNat = x.toNat * 16 ^ (k + 1) % 2 ^ 64 := by
      rw [UInt64.toNat_shiftLeft, shifted]
      change (x.toNat * 16 ^ k % 2 ^ 64) <<< 4 % 2 ^ 64 = _
      rw [Nat.shiftLeft_eq, Nat.mod_mul_mod, pow_succ 16 k, ← mul_assoc]
    rw [printptrLoop, top, ih (k + 1) (by omega) _ next, List.range_succ_eq_map, List.map_cons,
      List.map_map]
    congr 1
    apply List.map_congr_left
    intro i _
    simp [Nat.add_right_comm k, Nat.add_assoc]

theorem printptr_eq (x : UInt64) : printptr x = Piece.pointerText x := by
  have start : x.toNat = x.toNat * 16 ^ 0 % 2 ^ 64 := by
    rw [pow_zero, mul_one, Nat.mod_eq_of_lt x.toNat_lt]
  rw [printptr, printptrLoop_eq x 16 0 rfl x start, Piece.pointerText]
  simp

theorem vprintfLoop_directive {buf : Mem} {c0 : UInt8} {rest fmt text : List UInt8}
    {args later : List Arg} (taken skipped : Nat)
    (read : directive buf c0 (rest.headD 0) (if rest.headD 0 ≠ 0 then rest.tail.headD 0 else 0)
      (args.headD ⟨0, []⟩) =
      some (text, taken, skipped))
    (isFmt : rest.drop skipped = fmt) (isLater : args.drop taken = later) :
    vprintfLoop buf false (37 :: c0 :: rest) args =
      (vprintfLoop buf false fmt later).map fun result => (text ++ result.1, result.2) := by
  rw [vprintfLoop, if_neg Bool.false_ne_true, if_pos rfl, vprintfLoop, if_pos rfl]
  simp only [read, Option.bind_eq_bind, Option.bind_some, isFmt, isLater]
  cases vprintfLoop buf false fmt later <;> rfl

/-- One piece: its text is written and its argument taken. -/
theorem vprintfLoop_piece (buf : Mem) (piece : Piece) (fmt : List UInt8) (args : List Arg) :
    vprintfLoop buf false (piece.format ++ fmt) (piece.args ++ args) =
      (vprintfLoop buf false fmt args).map fun result => (piece.printed ++ result.1, result.2) := by
  cases piece with
  | char c literal =>
    change vprintfLoop buf false (c :: fmt) args = _
    rw [vprintfLoop, if_neg Bool.false_ne_true, if_neg literal.2]
    cases vprintfLoop buf false fmt args <;> rfl
  | number length conversion arg =>
    have isInt := printint_eq conversion arg buf
    cases length with
    | int =>
      cases conversion <;> exact vprintfLoop_directive 1 0 (by
        simp only [Conversion.base, Conversion.sign] at isInt
        simp [directive, Piece.args, Piece.letter, isInt, Piece.printed, Conversion.base]) rfl rfl
    | long =>
      cases conversion <;> exact vprintfLoop_directive 1 1 (by
        simp only [Conversion.base, Conversion.sign] at isInt
        simp [directive, Piece.args, Piece.letter, isInt, Piece.printed, Conversion.base]) rfl rfl
    | longLong =>
      cases conversion <;> exact vprintfLoop_directive 1 2 (by
        simp only [Conversion.base, Conversion.sign] at isInt
        simp [directive, Piece.args, Piece.letter, isInt, Piece.printed, Conversion.base]) rfl rfl
  | pointer arg =>
    exact vprintfLoop_directive 1 0 (by simp [directive, Piece.args, printptr_eq, Piece.printed,
      Piece.text]) rfl rfl
  | string arg given =>
    exact vprintfLoop_directive 1 0
      (by simp [directive, Piece.args, Arg.string, given, Piece.printed, Piece.text]) rfl rfl
  | percent =>
    exact vprintfLoop_directive 0 0 (by simp [directive, Piece.printed, Piece.text]) rfl rfl

theorem vprintf_printed (buf : Mem) (pieces : List Piece) (rest : List Arg) :
    vprintf buf (pieces.flatMap Piece.format) (pieces.flatMap Piece.args ++ rest) =
      some (pieces.flatMap Piece.printed, rest) := by
  unfold vprintf
  induction pieces with
  | nil => simp [vprintfLoop]
  | cons piece pieces ih =>
    rw [List.flatMap_cons, List.flatMap_cons, List.append_assoc, vprintfLoop_piece, ih]
    rfl

/-! ### When it is the right text -/

/-- Two numerals of which the second can be the longer one by its sign only. -/
structure Mismatch (text printed : List UInt8) : Prop where
  nonempty : text ≠ []
  last : ∀ c ∈ text.getLast?, c ≠ 45
  longer : text.length < printed.length →
    printed.length = text.length + 1 ∧ printed.head? = some 45 ∧ text.head? ≠ some 45

/-- What is printed is the text, or a mismatch. -/
def Near (text printed : List UInt8) : Prop := text = printed ∨ Mismatch text printed

theorem Near.not_prefix {text more : List UInt8} (near : Near text (text ++ more)) : more = [] := by
  by_contra nonempty
  have positive := List.length_pos_iff.mpr nonempty
  rcases near with equal | mismatch
  · exact nonempty (List.self_eq_append_right.mp equal)
  · obtain ⟨_, sign, noSign⟩ := mismatch.longer (by simp; omega)
    rw [List.head?_append_of_ne_nil _ mismatch.nonempty] at sign
    exact noSign sign

theorem append_dash {front front' : List UInt8} (text : List UInt8)
    (same : front ++ text = front' ++ (text ++ [45])) : front = front' ++ [45] := by
  induction text using List.reverseRecOn with
  | nil => simpa using same
  | append_singleton text c ih =>
    simp only [← List.append_assoc] at same
    obtain ⟨before, isDash⟩ := List.append_inj' same rfl
    rw [List.singleton_inj] at isDash
    rw [isDash, List.append_assoc] at before
    exact ih before

section Alignment

variable {pairs : List (List UInt8 × List UInt8)} (near : ∀ pair ∈ pairs, Near pair.1 pair.2)

include near

/-- What was printed up to some piece is never ahead of the text. -/
theorem not_ahead {more : List UInt8} (nonempty : more ≠ []) :
    pairs.flatMap Prod.fst ++ more ≠ pairs.flatMap Prod.snd := by
  induction pairs using List.reverseRecOn generalizing more with
  | nil => simpa using nonempty
  | append_singleton pairs pair ih =>
    obtain ⟨text, printed⟩ := pair
    have before {more : List UInt8} (nonempty : more ≠ []) :=
      ih (fun pair member => near pair (List.mem_append_left _ member)) nonempty
    have here : Near text printed := near (text, printed) (by simp)
    simp only [List.flatMap_append, List.flatMap_singleton, List.append_assoc]
    intro same
    rcases List.append_eq_append_iff.mp same with ⟨extra, front, back⟩ | ⟨extra, front, back⟩
    · by_cases absent : extra = []
      · subst absent
        subst back
        exact nonempty here.not_prefix
      · exact before absent front.symm
    · have absent : extra = [] := by
        have length := congrArg List.length back
        have positive := List.length_pos_iff.mpr nonempty
        simp only [List.length_append] at length
        rcases here with equal | mismatch
        · rw [equal] at length
          omega
        · have longer := (mismatch.longer (by omega)).1
          exact List.length_eq_zero_iff.mp (by omega)
      subst absent
      subst back
      exact nonempty here.not_prefix

/-- Nor is it behind by a sign. -/
theorem not_behind : pairs.flatMap Prod.fst ≠ pairs.flatMap Prod.snd ++ [45] := by
  induction pairs using List.reverseRecOn with
  | nil => simp
  | append_singleton pairs pair ih =>
    have before := ih fun pair member => near pair (List.mem_append_left _ member)
    simp only [List.flatMap_append, List.flatMap_singleton, List.append_assoc]
    intro same
    rcases near pair (by simp) with equal | mismatch
    · rw [equal] at same
      exact before (append_dash _ same)
    · have last := congrArg List.getLast? same
      rw [List.getLast?_append_of_ne_nil _ mismatch.nonempty, ← List.append_assoc,
        List.getLast?_concat] at last
      exact mismatch.last 45 last rfl

/-- So equal outputs are equal piece by piece. -/
theorem eq_of_flatMap_eq (same : pairs.flatMap Prod.fst = pairs.flatMap Prod.snd) :
    ∀ pair ∈ pairs, pair.1 = pair.2 := by
  induction pairs using List.reverseRecOn with
  | nil => simp
  | append_singleton pairs pair ih =>
    have nearBefore : ∀ pair ∈ pairs, Near pair.1 pair.2 := fun pair member =>
      near pair (List.mem_append_left _ member)
    simp only [List.flatMap_append, List.flatMap_singleton] at same
    have here : pair.1 = pair.2 := by
      by_contra differ
      have mismatch := (near pair (by simp)).resolve_left differ
      rcases List.append_eq_append_iff.mp same with ⟨extra, front, back⟩ | ⟨extra, front, back⟩
      · by_cases absent : extra = []
        · rw [absent] at back
          exact differ back
        · exact not_ahead nearBefore absent front.symm
      · cases extra with
        | nil => exact differ back.symm
        | cons c extra =>
          obtain ⟨length, sign, _⟩ := mismatch.longer (by rw [back]; simp)
          rw [back] at length sign
          have absent : extra = [] := by
            apply List.length_eq_zero_iff.mp
            simp only [List.length_append, List.length_cons] at length
            omega
          have isSign : c = 45 := by simpa using sign
          rw [absent, isSign] at front
          exact not_behind nearBefore front
    intro other member
    rcases List.mem_append.mp member with earlier | last
    · apply ih nearBefore _ other earlier
      rw [here] at same
      exact List.append_cancel_right same
    · rw [List.mem_singleton.mp last]
      exact here

end Alignment

/-! ### Both halves of a register -/

theorem digits_ne_sign (d : Nat) : digits d ≠ 45 := by
  by_cases small : d < 16
  · interval_cases d <;> decide
  · rw [digits, List.getD_eq_default _ _ (by simpa using small)]
    decide

/-- The digit of a character. -/
def digitValue (c : UInt8) : Nat := if c.toNat < 58 then c.toNat - 48 else c.toNat - 55

theorem digitValue_digits {d : Nat} (small : d < 16) : digitValue (digits d) = d := by
  interval_cases d <;> rfl

theorem base_le (conversion : Conversion) : conversion.base ≤ 16 := by cases conversion <;> decide

theorem signed_halves (word : UInt64) :
    (-2 ^ 31 ≤ word.toInt64.toInt ∧ word.toInt64.toInt < 2 ^ 31 ↔
      word.toInt64.toInt = word.toUInt32.toInt32.toInt) ∧
      -2 ^ 31 ≤ word.toUInt32.toInt32.toInt ∧ word.toUInt32.toInt32.toInt < 2 ^ 31 := by
  have long := BitVec.toInt_eq_toNat_cond word.toInt64.toBitVec
  have low := BitVec.toInt_eq_toNat_cond word.toUInt32.toInt32.toBitVec
  have half : word.toUInt32.toInt32.toBitVec.toNat = word.toNat % 2 ^ 32 :=
    UInt64.toNat_toUInt32 word
  change word.toInt64.toInt = if 2 * word.toNat < 2 ^ 64 then (word.toNat : Int)
    else (word.toNat : Int) - (2 ^ 64 : Nat) at long
  rw [half] at low
  change word.toUInt32.toInt32.toInt = _ at low
  have bound := word.toNat_lt
  split_ifs at long low <;> omega

theorem fits_iff (length : Length) (conversion : Conversion) (arg : Arg) :
    (Piece.number length conversion arg).Fits ↔
      Piece.value length conversion arg.word = Piece.lowValue conversion arg.word := by
  have unsigned : arg.word.toNat < 2 ^ 32 ↔ (arg.word.toNat : Int) = arg.word.toUInt32.toNat := by
    rw [UInt64.toNat_toUInt32]
    omega
  cases length with
  | int => exact iff_of_true trivial rfl
  | long | longLong => cases conversion <;>
      first | exact (signed_halves arg.word).1 | exact unsigned

theorem natAbs_lowValue_le {length : Length} {conversion : Conversion} {word : UInt64}
    (differ : Piece.value length conversion word ≠ Piece.lowValue conversion word) :
    (Piece.lowValue conversion word).natAbs ≤ (Piece.value length conversion word).natAbs := by
  have unsigned : (word.toUInt32.toNat : Int).natAbs ≤ (word.toNat : Int).natAbs := by
    rw [UInt64.toNat_toUInt32]
    omega
  have signed (differ : word.toInt64.toInt ≠ word.toUInt32.toInt32.toInt) :
      word.toUInt32.toInt32.toInt.natAbs ≤ word.toInt64.toInt.natAbs := by
    obtain ⟨same, low, high⟩ := signed_halves word
    have outside := mt same.mp differ
    omega
  cases length with
  | int => exact absurd rfl differ
  | long | longLong => cases conversion <;> first | exact signed differ | exact unsigned

theorem near_number (length : Length) (conversion : Conversion) (arg : Arg) :
    Near (Piece.number length conversion arg).text
      (Piece.number length conversion arg).printed := by
  by_cases same : Piece.value length conversion arg.word = Piece.lowValue conversion arg.word
  · exact .inl (congrArg (numeral digits conversion.base) same)
  have noSign : ∀ d < conversion.base, digits d ≠ 45 := fun d _ => digits_ne_sign d
  have smaller := natAbs_lowValue_le same
  have digits := length_digitsOf_mono conversion.one_lt_base smaller
  refine .inr ⟨numeral_ne_nil _, numeral_last conversion.one_lt_base noSign _, fun longer => ?_⟩
  simp only [Piece.text, Piece.printed, length_numeral] at longer ⊢
  rw [numeral_head conversion.one_lt_base noSign, Ne, numeral_head conversion.one_lt_base noSign]
  split_ifs at longer ⊢ <;> omega

theorem Piece.near (piece : Piece) : Near piece.text piece.printed := by
  cases piece with
  | number length conversion arg => exact near_number length conversion arg
  | char | pointer | string | percent => exact .inl rfl

theorem Piece.text_eq_printed_iff (piece : Piece) : piece.text = piece.printed ↔ piece.Fits := by
  cases piece with
  | number length conversion arg =>
    rw [fits_iff]
    refine ⟨fun same => ?_, congrArg (numeral digits conversion.base)⟩
    exact numeral_injective conversion.one_lt_base (fun d _ => digits_ne_sign d)
      (fun d small => digitValue_digits (small.trans_le (base_le conversion))) same
  | char | pointer | string | percent => exact iff_of_true rfl trivial

/-- `vprintf` takes one argument for each directive that has one and writes the text that the
format stands for, exactly if every argument of a long directive fits an `int`, or an `unsigned`
for `%lu` and `%lx`. -/
theorem vprintf_faithful_iff (buf : Mem) (pieces : List Piece) (rest : List Arg) :
    vprintf buf (pieces.flatMap Piece.format) (pieces.flatMap Piece.args ++ rest) =
      some (pieces.flatMap Piece.text, rest) ↔ ∀ piece ∈ pieces, piece.Fits := by
  rw [vprintf_printed, Option.some_inj, Prod.mk_left_inj]
  constructor
  · intro same piece member
    have near : ∀ pair ∈ pieces.map fun piece => (piece.text, piece.printed),
        Near pair.1 pair.2 := by
      simpa using fun piece _ => piece.near
    have aligned := eq_of_flatMap_eq near (by simpa [List.flatMap_map] using same.symm)
    exact piece.text_eq_printed_iff.mp (aligned _ (List.mem_map_of_mem member))
  · intro fits
    exact List.flatMap_congr fun piece member =>
      (piece.text_eq_printed_iff.mpr (fits piece member)).symm

/-- `%ld` of 2 to the 32 prints 0. -/
theorem vprintf_long_loses :
    vprintf (fun _ => 0) [37, 108, 100] [⟨4294967296, []⟩] = some ([48], []) := by
  have printed := vprintf_printed (fun _ => 0) [.number .long .d ⟨4294967296, []⟩] []
  have zero : numeral digits 10 (Piece.lowValue .d 4294967296) = [48] := by decide
  simpa [Piece.format, Piece.args, Piece.printed, Piece.letter, Conversion.base, zero] using printed

end Xv6.User.Printf
