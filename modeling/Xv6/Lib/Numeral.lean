import Xv6.Lib.Buffer

/-!
Numerals: the digits of a number, and the loop that produces them in an array.

Owns: the digits of a number with one digit for 0, the numeral of an integer, and the
conversion loop that stores digits from the least significant one on, adds a sign and
emits the array backwards, with the bound of the array.

Does not own: the table of digit characters, or how wide a number is.
-/

namespace Xv6.Lib

open Function

/-- The digits of `n`, least significant first; 0 has one digit. -/
def digitsOf (base n : Nat) : List Nat := if n = 0 then [0] else Nat.digits base n

theorem digitsOf_ne_nil (base n : Nat) : digitsOf base n ≠ [] := by
  unfold digitsOf
  split_ifs with zero
  · exact List.cons_ne_nil _ _
  · exact Nat.digits_ne_nil_iff_ne_zero.mpr zero

section Digits

variable {base : Nat} (base1 : 1 < base)

include base1

theorem digitsOf_step (n : Nat) :
    digitsOf base n = n % base :: if n / base ≠ 0 then digitsOf base (n / base) else [] := by
  unfold digitsOf
  by_cases zero : n = 0
  · simp [zero]
  · rw [if_neg zero, Nat.digits_eq_cons_digits_div base1 zero]
    by_cases last : n / base = 0
    · rw [last, if_neg (not_not.mpr rfl), Nat.digits_zero]
    · rw [if_pos last, if_neg last]

theorem length_digitsOf_le_iff {k : Nat} (positive : 0 < k) (n : Nat) :
    (digitsOf base n).length ≤ k ↔ n < base ^ k := by
  unfold digitsOf
  split_ifs with zero
  · have power : 0 < base ^ k := Nat.pow_pos (by omega)
    simp only [List.length_singleton]
    omega
  · exact Nat.digits_length_le_iff base1 n

theorem length_digitsOf_mono {n m : Nat} (le : n ≤ m) :
    (digitsOf base n).length ≤ (digitsOf base m).length := by
  have positive := List.length_pos_iff.mpr (digitsOf_ne_nil base m)
  have below := (length_digitsOf_le_iff base1 positive m).mp le_rfl
  exact (length_digitsOf_le_iff base1 positive n).mpr (le.trans_lt below)

theorem digitsOf_lt {n d : Nat} (listed : d ∈ digitsOf base n) : d < base := by
  unfold digitsOf at listed
  split_ifs at listed with zero
  · rw [List.mem_singleton.mp listed]
    omega
  · exact Nat.digits_lt_base base1 listed

end Digits

theorem ofDigits_digitsOf (base n : Nat) : Nat.ofDigits base (digitsOf base n) = n := by
  unfold digitsOf
  split_ifs with zero
  · rw [zero, Nat.ofDigits_singleton]
  · exact Nat.ofDigits_digits base n

/-- The numeral of an integer. -/
def numeral (digit : Nat → UInt8) (base : Nat) (v : Int) : List UInt8 :=
  (if v < 0 then [45] else []) ++ ((digitsOf base v.natAbs).map digit).reverse

section Numeral

variable {digit : Nat → UInt8} {base : Nat} (base1 : 1 < base) (noSign : ∀ d < base, digit d ≠ 45)

theorem length_numeral (v : Int) :
    (numeral digit base v).length = (if v < 0 then 1 else 0) + (digitsOf base v.natAbs).length := by
  unfold numeral
  split_ifs <;> simp [Nat.add_comm]

theorem numeral_ne_nil (v : Int) : numeral digit base v ≠ [] := by
  simp [numeral, digitsOf_ne_nil]

include base1 noSign

theorem numeral_head (v : Int) : (numeral digit base v).head? = some 45 ↔ v < 0 := by
  unfold numeral
  split_ifs with negative
  · simp [negative]
  · have last : ∀ c ∈ ((digitsOf base v.natAbs).map digit).getLast?, c ≠ 45 := by
      intro c isLast
      obtain ⟨d, listed, rfl⟩ := List.mem_map.mp (List.mem_of_mem_getLast? isLast)
      exact noSign d (digitsOf_lt base1 listed)
    rw [List.nil_append, List.head?_reverse]
    exact ⟨fun isSign => absurd rfl (last 45 isSign), fun isNegative => absurd isNegative negative⟩

theorem numeral_last (v : Int) : ∀ c ∈ (numeral digit base v).getLast?, c ≠ 45 := by
  intro c isLast
  unfold numeral at isLast
  rw [List.getLast?_append, List.getLast?_reverse] at isLast
  cases digits : digitsOf base v.natAbs with
  | nil => exact absurd digits (digitsOf_ne_nil _ _)
  | cons d rest =>
    rw [digits] at isLast
    have first : digit d = c := by simpa using isLast
    rw [← first]
    exact noSign d (digitsOf_lt base1 (digits ▸ List.mem_cons_self))

theorem numeral_injective {value : UInt8 → Nat}
    (read : ∀ d < base, value (digit d) = d) {v v' : Int}
    (same : numeral digit base v = numeral digit base v') : v = v' := by
  have sign : v < 0 ↔ v' < 0 := by
    rw [← numeral_head base1 noSign v, same, numeral_head base1 noSign v']
  have back (n : Nat) : ((digitsOf base n).map digit).map value = digitsOf base n := by
    rw [List.map_map]
    exact (List.map_congr_left fun d listed => read d (digitsOf_lt base1 listed)).trans
      (List.map_id _)
  have digits : ((digitsOf base v.natAbs).map digit).reverse =
      ((digitsOf base v'.natAbs).map digit).reverse := by
    unfold numeral at same
    simp only [sign] at same
    exact List.append_cancel_left same
  have magnitude : v.natAbs = v'.natAbs := by
    rw [← ofDigits_digitsOf base v.natAbs, ← back, List.reverse_injective digits, back,
      ofDigits_digitsOf]
  omega

end Numeral

/-- The absolute value of a machine integer: negation does not overflow in the unsigned
reading. -/
theorem natAbs_toInt {w : Nat} (x : BitVec w) :
    x.toInt.natAbs = if x.toInt < 0 then (-x).toNat else x.toNat := by
  have bound := x.isLt
  split_ifs with negative
  · rw [BitVec.toNat_neg]
    rw [BitVec.toInt_eq_toNat_cond] at negative ⊢
    split_ifs at negative ⊢ with small
    · omega
    · rw [Nat.mod_eq_of_lt (by omega)]
      omega
  · rw [BitVec.toInt_eq_toNat_cond] at negative ⊢
    split_ifs at negative ⊢ with small <;> omega

/-! ### The loop -/

/-- `do buf[i++] = digits[x % base]; while ((x /= base) != 0)` in an array of `size`
bytes; nothing, once a store is past its end. -/
def storeDigits (size : Nat) (digit : Nat → UInt8) (base x i : Nat) (buf : Mem) :
    Option (Nat × Mem) :=
  if i < size then
    let stored := update buf i (digit (x % base))
    if x / base ≠ 0 then storeDigits size digit base (x / base) (i + 1) stored
    else some (i + 1, stored)
  else none
termination_by size - i

/-- `if (neg) buf[i++] = '-'` -/
def storeSign (size : Nat) (neg : Bool) (i : Nat) (buf : Mem) : Option (Nat × Mem) :=
  if neg then if i < size then some (i + 1, update buf i 45) else none else some (i, buf)

/-- `while (--i >= 0) putc(buf[i])` -/
def emit (buf : Mem) : Nat → List UInt8
  | 0 => []
  | i + 1 => buf i :: emit buf i

/-- The conversion: what is emitted, unless the array is too small. -/
def convert (size : Nat) (digit : Nat → UInt8) (base x : Nat) (neg : Bool) (buf : Mem) :
    Option (List UInt8) := do
  let (i, buf) ← storeDigits size digit base x 0 buf
  let (i, buf) ← storeSign size neg i buf
  pure (emit buf i)

theorem emit_eq (buf : Mem) (i : Nat) : emit buf i = (buf.read 0 i).reverse := by
  induction i with
  | zero => rfl
  | succ i ih =>
    rw [emit, ih, Mem.read, Mem.read, List.range_succ, List.map_append, List.reverse_append]
    simp

/-- The state after some bytes were stored one after the other. -/
theorem read_update (buf : Mem) (i : Nat) (c : UInt8) :
    Mem.read (update buf i c) 0 (i + 1) = buf.read 0 i ++ [c] := by
  rw [Mem.read, List.range_succ, List.map_append]
  simp only [Mem.read, List.map_cons, List.map_nil, Nat.zero_add, update_self]
  congr 1
  apply List.map_congr_left
  intro j inside
  rw [update_of_ne (List.mem_range.mp inside).ne]

theorem storeDigits_spec {base : Nat} (base1 : 1 < base) (size : Nat) (digit : Nat → UInt8)
    (x i : Nat) (buf : Mem) :
    (size < i + (digitsOf base x).length ∧ storeDigits size digit base x i buf = none) ∨
      i + (digitsOf base x).length ≤ size ∧ ∃ stored,
        storeDigits size digit base x i buf = some (i + (digitsOf base x).length, stored) ∧
        stored.read 0 (i + (digitsOf base x).length) = buf.read 0 i ++
          (digitsOf base x).map digit := by
  induction x, i, buf using storeDigits.induct size digit base with
  | case1 x i buf room stored more ih =>
    rw [storeDigits, if_pos room, if_pos more, digitsOf_step base1 x, if_pos more]
    simp only [List.length_cons, List.map_cons]
    rcases ih with ⟨full, fails⟩ | ⟨fits, result, done, contents⟩
    · exact .inl ⟨by omega, fails⟩
    · have shift : i + ((digitsOf base (x / base)).length + 1) =
          i + 1 + (digitsOf base (x / base)).length := by
        omega
      rw [shift]
      refine .inr ⟨fits, result, done, ?_⟩
      rw [contents, read_update, List.append_assoc]
      rfl
  | case2 x i buf room last =>
    rw [storeDigits, if_pos room, if_neg last, digitsOf_step base1 x, if_neg last]
    exact .inr ⟨room, _, rfl, read_update _ _ _⟩
  | case3 x i buf full =>
    have nonempty := List.length_pos_iff.mpr (digitsOf_ne_nil base x)
    rw [storeDigits, if_neg full]
    exact .inl ⟨by omega, rfl⟩

/-- The conversion of the absolute value of `v` emits the numeral of `v` if the array has room
for it, and leaves the array otherwise. -/
theorem convert_eq {base : Nat} (base1 : 1 < base) (size : Nat) (digit : Nat → UInt8)
    (v : Int) (buf : Mem) :
    convert size digit base v.natAbs (decide (v < 0)) buf =
      if (digitsOf base v.natAbs).length + (if v < 0 then 1 else 0) ≤ size then
        some (numeral digit base v)
      else none := by
  unfold convert
  rcases storeDigits_spec base1 size digit v.natAbs 0 buf with ⟨full, fails⟩ | ⟨fits, stored,
    done, contents⟩
  · rw [fails, if_neg (by omega)]
    rfl
  · rw [done]
    simp only [Nat.zero_add] at fits contents ⊢
    have digits : stored.read 0 (digitsOf base v.natAbs).length =
        (digitsOf base v.natAbs).map digit := contents
    by_cases negative : v < 0
    · by_cases room : (digitsOf base v.natAbs).length < size
      · simp [storeSign, negative, room, emit_eq, read_update, digits, numeral,
          Nat.succ_le_of_lt room]
      · simp [storeSign, negative, room]
    · simp [storeSign, negative, fits, emit_eq, digits, numeral]

end Xv6.Lib
