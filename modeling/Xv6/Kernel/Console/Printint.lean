import Xv6.Lib.Numeral

/-!
`printint` of `printf.c`: numbers on the console.

Owns: `printint`, the conversions that `printf` asks it for, and for which values its
array of 16 characters is large enough.

Does not own: how `printf` reads its format.
-/

namespace Xv6.Kernel.Console

open Xv6.Lib

/-- `digits` -/
def digits (d : Nat) : UInt8 :=
  [48, 49, 50, 51, 52, 53, 54, 55, 56, 57, 97, 98, 99, 100, 101, 102].getD d 0

/-- The size of `buf`. -/
def bufSize : Nat := 16

/-- `printint`: what it gives to `consputc`, or nothing if a store leaves `buf`, which
holds `buf` at first. -/
def printint (xx : Int64) (base : Nat) (sign : Bool) (buf : Mem) : Option (List UInt8) :=
  let sign := sign && decide (xx < 0)
  let x := if sign then (-xx).toUInt64 else xx.toUInt64
  convert bufSize digits base x.toNat sign buf

/-- The conversions `%d`, `%u` and `%x`, each also with `l` and `ll`. -/
inductive Conversion where
  | d
  | u
  | x
deriving DecidableEq

namespace Conversion

def base : Conversion → Nat
  | d => 10
  | u => 10
  | x => 16

def sign : Conversion → Bool
  | d => true
  | u => false
  | x => false

/-- The number that the 64 bits stand for. -/
def value (conversion : Conversion) (xx : Int64) : Int :=
  if conversion.sign then xx.toInt else xx.toUInt64.toNat

/-- The values whose numeral has at most 16 characters. -/
def Fits : Conversion → Int64 → Prop
  | d, xx => -10 ^ 15 < xx.toInt ∧ xx.toInt < 10 ^ 16
  | u, xx => xx.toUInt64.toNat < 10 ^ 16
  | x, _ => True

theorem one_lt_base (conversion : Conversion) :
    1 < conversion.base := by cases conversion <;> decide

end Conversion

/-- The call converts the absolute value of the number and its sign. -/
theorem printint_eq (conversion : Conversion) (xx : Int64) (buf : Mem) :
    printint xx conversion.base conversion.sign buf =
      convert bufSize digits conversion.base (conversion.value xx).natAbs
        (decide (conversion.value xx < 0)) buf := by
  unfold printint Conversion.value
  cases signed : conversion.sign with
  | false =>
    have positive : ¬((xx.toUInt64.toNat : Int) < 0) := by omega
    simp [positive]
  | true =>
    have same : (xx < 0) ↔ xx.toInt < 0 := Int64.lt_iff_toInt_lt
    have magnitude : (if xx.toInt < 0 then (-xx).toUInt64 else xx.toUInt64).toNat =
        xx.toInt.natAbs := by
      rw [apply_ite UInt64.toNat]
      exact (natAbs_toInt xx.toBitVec).symm
    simp only [Bool.true_and, decide_eq_true_eq, same, if_true, magnitude]

theorem fits_iff (conversion : Conversion) (xx : Int64) :
    conversion.Fits xx ↔ (digitsOf conversion.base (conversion.value xx).natAbs).length +
      (if conversion.value xx < 0 then 1 else 0) ≤ bufSize := by
  have fifteen := length_digitsOf_le_iff conversion.one_lt_base (k := 15) (by decide)
    (conversion.value xx).natAbs
  have sixteen := length_digitsOf_le_iff conversion.one_lt_base (k := 16) (by decide)
    (conversion.value xx).natAbs
  unfold bufSize
  cases conversion with
  | d =>
    change _ ↔ xx.toInt.natAbs < 10 ^ 15 at fifteen
    change _ ↔ xx.toInt.natAbs < 10 ^ 16 at sixteen
    change -10 ^ 15 < xx.toInt ∧ xx.toInt < 10 ^ 16 ↔
      (digitsOf 10 xx.toInt.natAbs).length + (if xx.toInt < 0 then 1 else 0) ≤ 16
    change (digitsOf 10 xx.toInt.natAbs).length ≤ 15 ↔ _ at fifteen
    change (digitsOf 10 xx.toInt.natAbs).length ≤ 16 ↔ _ at sixteen
    split_ifs <;> omega
  | u =>
    have positive : ¬(Conversion.u.value xx < 0) := not_lt.mpr (Int.natCast_nonneg _)
    rw [if_neg positive]
    exact sixteen.symm
  | x =>
    have positive : ¬(Conversion.x.value xx < 0) := not_lt.mpr (Int.natCast_nonneg _)
    rw [if_neg positive]
    exact iff_of_true trivial (sixteen.mpr xx.toUInt64.toNat_lt)

/-- `printint` stays in its array and prints the numeral of the value exactly if the numeral has
at most 16 characters. -/
theorem printint_iff_fits (conversion : Conversion) (xx : Int64) (buf : Mem) :
    printint xx conversion.base conversion.sign buf =
      some (numeral digits conversion.base (conversion.value xx)) ↔ conversion.Fits xx := by
  rw [printint_eq, convert_eq conversion.one_lt_base, fits_iff]
  split_ifs <;> simp_all

/-- The least number of 17 digits leaves the array. -/
theorem printint_leaves_buf : printint 10000000000000000 10 true (fun _ => 0) = none := by
  have leaves : ¬Conversion.d.Fits 10000000000000000 := by
    rintro ⟨_, small⟩
    exact absurd small (by decide)
  change printint 10000000000000000 Conversion.d.base Conversion.d.sign _ = none
  rw [printint_eq, convert_eq (by decide), if_neg (mt (fits_iff .d _).mpr leaves)]

end Xv6.Kernel.Console
