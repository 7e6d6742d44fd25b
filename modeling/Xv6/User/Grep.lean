import Mathlib.Computability.Language
import Mathlib.Tactic

/-!
`user/grep.c`: the matcher, and the loop that reads lines.

Owns: `match`, `matchhere` and `matchstar` with the language of a pattern, the loop of
`grep` over the results of its `read` calls, and for which inputs it prints the lines
that match.

Does not own: the opening of files. Reads and writes do not fail.
-/

namespace Xv6.User.Grep

open Computability

/-! ### The matcher

A string is the list of its characters, without the null that ends it. -/

/-- The loop of `matchstar`, with `here` for the calls of `matchhere`. -/
def starLoop (here : List UInt8 → Bool) (c : UInt8) : List UInt8 → Bool
  | [] => here []
  | t :: text => here (t :: text) || ((t == c || c == 46) && starLoop here c text)

/-- `matchhere` -/
def matchhere : List UInt8 → List UInt8 → Bool
  | [], _ => true
  | c :: 42 :: re, text => starLoop (matchhere re) c text
  | [36], text => text.isEmpty
  | _ :: _, [] => false
  | c :: re, t :: text => (c == 46 || c == t) && matchhere re text

/-- `matchstar` -/
def matchstar (c : UInt8) (re text : List UInt8) : Bool := starLoop (matchhere re) c text

/-- The loop of `match`. -/
def matchLoop (re : List UInt8) : List UInt8 → Bool
  | [] => matchhere re []
  | t :: text => matchhere re (t :: text) || matchLoop re text

/-- `match` -/
def matchRe (re text : List UInt8) : Bool :=
  if re.head? = some 94 then matchhere re.tail text else matchLoop re text

/-! ### The language of a pattern -/

/-- What a character of a pattern stands for: `.` for any character, another one for
itself. -/
def atom (c : UInt8) : Language UInt8 := {w | ∃ t, w = [t] ∧ (c = 46 ∨ c = t)}

/-- The language of a pattern from left to right, and whether a final `$` ties it to the end
of the text. -/
def language : List UInt8 → Language UInt8 × Bool
  | [] => (1, false)
  | c :: 42 :: re => ((atom c)∗ * (language re).1, (language re).2)
  | [36] => (1, true)
  | c :: re => (atom c * (language re).1, (language re).2)

/-- The text begins with a word of the language, and is one if it is tied to the end. -/
def Begins (pattern : Language UInt8 × Bool) (text : List UInt8) : Prop :=
  ∃ w ∈ pattern.1, ∃ rest, text = w ++ rest ∧ (pattern.2 = true → rest = [])

section Begins

variable {c t : UInt8} {text : List UInt8} {A L : Language UInt8} {tied : Bool}

theorem begins_mul :
    Begins (A * L, tied) text ↔ ∃ u ∈ A, ∃ rest, text = u ++ rest ∧ Begins (L, tied) rest := by
  constructor
  · rintro ⟨w, member, rest, split, ends⟩
    obtain ⟨u, inA, v, inL, rfl⟩ := Language.mem_mul.mp member
    exact ⟨u, inA, v ++ rest, by rw [split, List.append_assoc], v, inL, rest, rfl, ends⟩
  · rintro ⟨u, inA, rest, split, v, inL, last, rfl, ends⟩
    exact ⟨u ++ v, Language.append_mem_mul inA inL, last, by rw [split, List.append_assoc], ends⟩

theorem begins_one : Begins (1, tied) text ↔ (tied = true → text = []) := by
  constructor
  · rintro ⟨w, member, rest, split, ends⟩ isTied
    obtain rfl := (Language.mem_one w).mp member
    rw [split, ends isTied]
    rfl
  · intro ends
    exact ⟨[], Language.nil_mem_one, text, rfl, ends⟩

theorem not_begins_atom : ¬Begins (atom c * L, tied) [] := by
  rw [begins_mul]
  rintro ⟨u, ⟨t, rfl, _⟩, rest, split, _⟩
  exact List.cons_ne_nil _ _ split.symm

theorem begins_atom : Begins (atom c * L, tied) (t :: text) ↔ (c = 46 ∨ c = t) ∧
    Begins (L, tied) text := by
  rw [begins_mul]
  constructor
  · rintro ⟨u, ⟨t', rfl, stands⟩, rest, split, begins⟩
    obtain ⟨rfl, rfl⟩ := List.cons.inj split
    exact ⟨stands, begins⟩
  · rintro ⟨stands, begins⟩
    exact ⟨[t], ⟨t, rfl, stands⟩, text, rfl, begins⟩

theorem cons_mem_star : t :: text ∈ (atom c)∗ ↔ (c = 46 ∨ c = t) ∧ text ∈ (atom c)∗ := by
  nth_rewrite 1 [← Language.one_add_self_mul_kstar_eq_kstar]
  rw [Language.mem_add, Language.mem_one, Language.mem_mul]
  constructor
  · rintro (empty | ⟨u, ⟨t', rfl, stands⟩, rest, inStar, split⟩)
    · exact absurd empty (List.cons_ne_nil _ _)
    · obtain ⟨rfl, rfl⟩ := List.cons.inj split
      exact ⟨stands, inStar⟩
  · rintro ⟨stands, inStar⟩
    exact .inr ⟨[t], ⟨t, rfl, stands⟩, text, inStar, rfl⟩

/-- `matchstar` tries every number of repetitions. -/
theorem starLoop_iff {here : List UInt8 → Bool}
    (begins : ∀ text, here text = true ↔ Begins (L, tied) text) :
    starLoop here c text = true ↔ Begins ((atom c)∗ * L, tied) text := by
  rw [begins_mul]
  induction text with
  | nil =>
    rw [starLoop, begins]
    constructor
    · intro first
      exact ⟨[], Language.nil_mem_kstar _, [], rfl, first⟩
    · rintro ⟨u, _, rest, split, later⟩
      rwa [(List.append_eq_nil_iff.mp split.symm).2] at later
  | cons t text ih =>
    rw [starLoop, Bool.or_eq_true, Bool.and_eq_true, begins, ih]
    simp only [Bool.or_eq_true, beq_iff_eq]
    constructor
    · rintro (first | ⟨stands, u, inStar, rest, rfl, later⟩)
      · exact ⟨[], Language.nil_mem_kstar _, t :: text, rfl, first⟩
      · exact ⟨t :: u, cons_mem_star.mpr ⟨stands.symm.imp_right Eq.symm, inStar⟩, rest, rfl, later⟩
    · rintro ⟨u, inStar, rest, split, later⟩
      cases u with
      | nil =>
        rw [List.nil_append] at split
        exact .inl (split ▸ later)
      | cons t' u =>
        obtain ⟨rfl, rfl⟩ := List.cons.inj split
        obtain ⟨stands, inStar⟩ := cons_mem_star.mp inStar
        exact .inr ⟨stands.symm.imp_left Eq.symm, u, inStar, rest, rfl, later⟩

end Begins

theorem matchhere_iff (re text : List UInt8) :
    matchhere re text = true ↔ Begins (language re) text := by
  induction re using language.induct generalizing text with
  | case1 | case3 => simp [matchhere, language, begins_one]
  | case2 c re ih =>
    rw [matchhere, language]
    exact starLoop_iff ih
  | case4 c re notStar notEnd ih =>
    simp only [language]
    cases text with
    | nil => simp [matchhere, not_begins_atom]
    | cons t text => simp [matchhere, begins_atom, ih]

theorem matchLoop_iff (re text : List UInt8) :
    matchLoop re text = true ↔ ∃ before later, text = before ++ later ∧
      Begins (language re) later := by
  induction text with
  | nil => simp [matchLoop, matchhere_iff]
  | cons t text ih =>
    rw [matchLoop, Bool.or_eq_true, matchhere_iff, ih]
    constructor
    · rintro (here | ⟨before, later, rfl, begins⟩)
      · exact ⟨[], t :: text, rfl, here⟩
      · exact ⟨t :: before, later, rfl, begins⟩
    · rintro ⟨before, later, split, begins⟩
      cases before with
      | nil => exact .inl (split ▸ begins)
      | cons b before =>
        obtain ⟨rfl, rfl⟩ := List.cons.inj split
        exact .inr ⟨before, later, rfl, begins⟩

/-- `match` returns 1 exactly if a part of the text is in the language of the pattern: one at the
front after a `^`, which is no part of the pattern then, and one at the end before a final `$`. -/
theorem matchRe_iff (re text : List UInt8) :
    matchRe re text = true ↔ ∃ before w rest, text = before ++ (w ++ rest) ∧
      w ∈ (language (if re.head? = some 94 then re.tail else re)).1 ∧
      (re.head? = some 94 → before = []) ∧
      ((language (if re.head? = some 94 then re.tail else re)).2 = true → rest = []) := by
  unfold matchRe
  split_ifs with anchored
  · rw [matchhere_iff]
    constructor
    · rintro ⟨w, member, rest, split, ends⟩
      exact ⟨[], w, rest, split, member, fun _ => rfl, ends⟩
    · rintro ⟨before, w, rest, split, member, front, ends⟩
      rw [front anchored] at split
      exact ⟨w, member, rest, split, ends⟩
  · rw [matchLoop_iff]
    constructor
    · rintro ⟨before, later, split, w, member, rest, rfl, ends⟩
      exact ⟨before, w, rest, split, member, fun front => absurd front anchored, ends⟩
    · rintro ⟨before, w, rest, split, member, _, ends⟩
      exact ⟨before, w ++ rest, split, w, member, rest, rfl, ends⟩

/-! ### Lines -/

/-- The size of `buf`. -/
def bufSize : Nat := 1024

/-- `strchr`: the position of `c`. -/
def strchr (c : UInt8) : List UInt8 → Option Nat
  | [] => none
  | b :: s => if b = 0 then none else if b = c then some 0 else (strchr c s).map (· + 1)

theorem strchr_lt {c : UInt8} {s : List UInt8} {q : Nat} (found : strchr c s = some q) :
    q < s.length := by
  induction s generalizing q with
  | nil => cases found
  | cons b s ih =>
    unfold strchr at found
    split_ifs at found
    · cases found
      exact Nat.succ_pos _
    · obtain ⟨q, later, rfl⟩ := Option.map_eq_some_iff.mp found
      exact Nat.succ_lt_succ (ih later)

/-- The inner loop, with the contents of the buffer from `p` on: what is left of them and what was
written. -/
def lineLoop (pattern p output : List UInt8) : List UInt8 × List UInt8 :=
  match _ : strchr 10 p with
  | none => (p, output)
  | some q =>
    lineLoop pattern (p.drop (q + 1))
      (if matchRe pattern (p.take q) then output ++ p.take (q + 1) else output)
termination_by p.length
decreasing_by
  have := strchr_lt ‹_›
  simp only [List.length_drop]
  omega

/-- The loop of `grep` with `rest` of the input to come and the buffer holding `buf`. Call `k` of
`read` returns `cuts k + 1` bytes if there are as many and the buffer has room for them. -/
def grepLoop (pattern : List UInt8) (cuts : Nat → Nat) (k : Nat) (rest buf output : List UInt8) :
    List UInt8 :=
  let n := min (cuts k + 1) (min (bufSize - buf.length - 1) rest.length)
  if n = 0 then output
  else
    let (left, output) := lineLoop pattern (buf ++ rest.take n) output
    grepLoop pattern cuts (k + 1) (rest.drop n) left output
termination_by rest.length
decreasing_by
  simp only [List.length_drop]
  omega

/-- `grep`: what it writes for an input that is read in some way. -/
def grep (pattern : List UInt8) (cuts : Nat → Nat) (input : List UInt8) : List UInt8 :=
  grepLoop pattern cuts 0 input [] []

/-- The lines that end in a newline, in a stream of which `line` was seen before. -/
def lines (line : List UInt8) : List UInt8 → List (List UInt8)
  | [] => []
  | b :: x => if b = 10 then line :: lines [] x else lines (line ++ [b]) x

/-- What follows the last of them. -/
def unfinished (line : List UInt8) : List UInt8 → List UInt8
  | [] => line
  | b :: x => if b = 10 then unfinished [] x else unfinished (line ++ [b]) x

/-- The lines that match, each with its newline. -/
def matching (pattern : List UInt8) (ls : List (List UInt8)) : List UInt8 :=
  (ls.filter (matchRe pattern)).flatMap (· ++ [10])

section Lines

variable {pattern line x : List UInt8}

theorem lines_append (line x y : List UInt8) :
    lines line (x ++ y) = lines line x ++ lines (unfinished line x) y := by
  induction x generalizing line with
  | nil => rfl
  | cons b x ih =>
    rw [List.cons_append, lines, lines, unfinished]
    split_ifs
    · rw [ih, List.cons_append]
    · rw [ih]

theorem length_lines (line x : List UInt8) :
    ∀ l ∈ lines line x, l.length < line.length + x.length := by
  induction x generalizing line with
  | nil => simp [lines]
  | cons b x ih =>
    intro l listed
    rw [List.length_cons]
    rw [lines] at listed
    split_ifs at listed
    · rcases List.mem_cons.mp listed with rfl | later
      · omega
      · have shorter := ih [] l later
        simp only [List.length_nil] at shorter
        omega
    · have shorter := ih (line ++ [b]) l listed
      rw [List.length_append, List.length_singleton] at shorter
      omega

theorem head_lines (line x : List UInt8) : ∀ l ∈ (lines line x).head?, line.length ≤ l.length := by
  induction x generalizing line with
  | nil => simp [lines]
  | cons b x ih =>
    intro l first
    rw [lines] at first
    split_ifs at first
    · cases first
      exact le_rfl
    · have longer := ih _ l first
      rw [List.length_append] at longer
      omega

/-- What is left in the buffer has no newline. -/
theorem unfinished_clean (clean : 10 ∉ line ∧ 0 ∉ line) (noNul : 0 ∉ x) :
    10 ∉ unfinished line x ∧ 0 ∉ unfinished line x := by
  induction x generalizing line with
  | nil => exact clean
  | cons b x ih =>
    rw [unfinished]
    obtain ⟨notNul, later⟩ := not_or.mp (mt List.mem_cons.mpr noNul)
    split_ifs with newline
    · exact ih ⟨List.not_mem_nil, List.not_mem_nil⟩ later
    · apply ih _ later
      simp [clean.1, clean.2, notNul, Ne.symm newline]

theorem strchr_none (clean : 10 ∉ line) : strchr 10 line = none := by
  induction line with
  | nil => rfl
  | cons b line ih =>
    obtain ⟨notNewline, later⟩ := not_or.mp (mt List.mem_cons.mpr clean)
    rw [strchr, if_neg (Ne.symm notNewline), ih later]
    split_ifs <;> rfl

theorem strchr_line (clean : 10 ∉ line ∧ 0 ∉ line) :
    strchr 10 (line ++ 10 :: x) = some line.length := by
  induction line with
  | nil => rfl
  | cons b line ih =>
    simp only [List.mem_cons, not_or] at clean
    rw [List.cons_append, strchr, if_neg (Ne.symm clean.2.1), if_neg (Ne.symm clean.1.1),
      ih ⟨clean.1.2, clean.2.2⟩]
    rfl

theorem lineLoop_eq (clean : 10 ∉ line ∧ 0 ∉ line) (noNul : 0 ∉ x) (output : List UInt8) :
    lineLoop pattern (line ++ x) output =
      (unfinished line x, output ++ matching pattern (lines line x)) := by
  induction x generalizing line output with
  | nil =>
    rw [lineLoop]
    split
    · simp [unfinished, lines, matching]
    · simp_all [strchr_none clean.1]
  | cons b x ih =>
    obtain ⟨notNul, later⟩ := not_or.mp (mt List.mem_cons.mpr noNul)
    rw [unfinished, lines]
    by_cases newline : b = 10
    · have here := @strchr_line line x clean
      subst newline
      rw [lineLoop]
      split
      · simp_all
      · rename_i q found
        obtain rfl : line.length = q := Option.some.inj (here.symm.trans found)
        have rest : (line ++ 10 :: x).drop (line.length + 1) = [] ++ x := by
          rw [List.append_cons]
          exact List.drop_left' List.length_append
        have whole : (line ++ 10 :: x).take (line.length + 1) = line ++ [10] := by
          rw [List.append_cons]
          exact List.take_left' List.length_append
        rw [rest, whole, List.take_left, ih ⟨List.not_mem_nil, List.not_mem_nil⟩ later]
        by_cases isMatch : matchRe pattern line = true
        · simp [matching, isMatch]
        · simp [matching, isMatch]
    · rw [if_neg newline, if_neg newline, List.append_cons]
      apply ih _ later
      simp [clean.1, clean.2, notNul, Ne.symm newline]

theorem length_unfinished (line x : List UInt8) :
    (unfinished line x).length ≤ line.length + x.length := by
  induction x generalizing line with
  | nil => exact le_rfl
  | cons b x ih =>
    rw [unfinished, List.length_cons]
    split_ifs
    · have := ih []
      rw [List.length_nil] at this
      omega
    · have := ih (line ++ [b])
      rw [List.length_append, List.length_singleton] at this
      omega

theorem matching_append (ls ls' : List (List UInt8)) :
    matching pattern (ls ++ ls') = matching pattern ls ++ matching pattern ls' := by
  unfold matching
  rw [List.filter_append, List.flatMap_append]

theorem matching_eq_nil {ls : List (List UInt8)} :
    matching pattern ls = [] ↔ ∀ l ∈ ls, matchRe pattern l = false := by
  simp [matching, List.flatMap_eq_nil_iff]

end Lines

/-- `grep` gets as far as the first line that the buffer has no room for. -/
theorem grepLoop_eq (pattern : List UInt8) (cuts : Nat → Nat) (k : Nat)
    (rest buf output : List UInt8)
    (clean : 10 ∉ buf ∧ 0 ∉ buf) (noNul : 0 ∉ rest) (fits : buf.length < bufSize) :
    grepLoop pattern cuts k rest buf output =
      output ++ matching pattern ((lines buf rest).takeWhile (·.length < bufSize - 1)) := by
  induction k, rest, buf, output using grepLoop.induct pattern cuts with
  | case1 k rest buf output n stops =>
    rw [grepLoop, if_pos stops]
    suffices absent : (lines buf rest).takeWhile (·.length < bufSize - 1) = [] by
      rw [absent]
      simp [matching]
    have : bufSize - buf.length - 1 = 0 ∨ rest.length = 0 := by omega
    rcases this with full | ended
    · have long := head_lines buf rest
      cases equation : lines buf rest with
      | nil => rfl
      | cons l ls =>
        rw [equation] at long
        have := long l rfl
        apply List.takeWhile_cons_of_neg
        simp only [decide_eq_true_eq]
        omega
    · rw [List.length_eq_zero_iff.mp ended]
      rfl
  | case2 k rest buf output n reads left output' equation ih =>
    have noNulTaken : 0 ∉ rest.take n := fun found => noNul (List.mem_of_mem_take found)
    rw [lineLoop_eq clean noNulTaken] at equation
    obtain ⟨rfl, rfl⟩ := Prod.mk.inj equation
    have taken : (rest.take n).length = n := by
      rw [List.length_take]
      omega
    have room : buf.length + n < bufSize := by omega
    have short : ∀ l ∈ lines buf (rest.take n), decide (l.length < bufSize - 1) = true := by
      intro l listed
      have := length_lines buf (rest.take n) l listed
      simp only [decide_eq_true_eq]
      omega
    rw [grepLoop, if_neg reads, lineLoop_eq clean noNulTaken]
    dsimp only
    rw [ih (unfinished_clean clean noNulTaken) (fun found => noNul (List.mem_of_mem_drop found))
      ((length_unfinished buf (rest.take n)).trans_lt (by omega))]
    conv_rhs => rw [← List.take_append_drop n rest, lines_append,
      List.takeWhile_append_of_pos short,
      matching_append, ← List.append_assoc]

theorem grep_eq (pattern : List UInt8) (cuts : Nat → Nat) {input : List UInt8} (noNul : 0 ∉ input) :
    grep pattern cuts input =
      matching pattern ((lines [] input).takeWhile (·.length < bufSize - 1)) :=
  grepLoop_eq pattern cuts 0 input [] [] ⟨List.not_mem_nil, List.not_mem_nil⟩ noNul (by decide)

/-- `grep` writes the lines that match exactly if no line matches from the first one on that has
more than 1022 characters: the loop ends at that line. -/
theorem grep_filters_iff (pattern : List UInt8) (cuts : Nat → Nat) (input : List UInt8)
    (noNul : 0 ∉ input) :
    grep pattern cuts input = matching pattern (lines [] input) ↔
      ∀ l ∈ (lines [] input).dropWhile (·.length < bufSize - 1), matchRe pattern l = false := by
  have split :=
    @List.takeWhile_append_dropWhile _ (fun l : List UInt8 => decide (l.length < bufSize - 1))
      (lines [] input)
  rw [grep_eq pattern cuts noNul, ← matching_eq_nil]
  conv_lhs => rw [← split, matching_append]
  rw [split]
  exact List.self_eq_append_right

theorem grep_filters_two :
    (0 : UInt8) ∉ ([98, 97, 10] : List UInt8) ∧
      grep [97] (fun _ => 0) [98, 97, 10] = [98, 97, 10] := by
  have all := (grep_filters_iff [97] (fun _ => 0) [98, 97, 10] (by decide)).mpr (by decide)
  exact ⟨by decide, all.trans (by decide)⟩

/-- A line of 1023 characters that matches is not written. -/
theorem grep_long_line :
    (0 : UInt8) ∉ List.replicate 1023 97 ++ [10] ∧
      grep [97] (fun _ => 1022) (List.replicate 1023 97 ++ [10]) = [] ∧
      matching [97] (lines [] (List.replicate 1023 97 ++ [10])) =
        List.replicate 1023 97 ++ [10] := by
  have noNul : (0 : UInt8) ∉ List.replicate 1023 97 ++ [10] := by decide +kernel
  have only : lines [] (List.replicate 1023 97 ++ [10]) =
      [List.replicate 1023 97] := by decide +kernel
  rw [grep_eq [97] _ noNul, only]
  exact ⟨noNul, by decide +kernel, by decide +kernel⟩

end Xv6.User.Grep
