import Xv6.Lib.Buffer

/-!
Single bits of bytes.

Owns: the bit number `k` of a byte, what `|=`, `&=` and a shifted one do to it,
and the numbering of a byte memory's bits with the most significant bit of each
byte first.

Does not own: cursors over a bit stream, or any bitmap layout.
-/

namespace Xv6.Lib

/-- Bit `k` of a byte, least significant first. -/
def bitOf (byte : UInt8) (k : Nat) : Bool := byte.toNat.testBit k

/-- The byte `1 << k`. -/
def mask (k : Nat) : UInt8 := 1 <<< UInt8.ofNat k

theorem eq_of_bitOf_eq {a b : UInt8} (same : ∀ k, bitOf a k = bitOf b k) : a = b :=
  UInt8.toNat_inj.mp (Nat.eq_of_testBit_eq same)

@[simp] theorem bitOf_zero (k : Nat) : bitOf 0 k = false := by simp [bitOf]

theorem bitOf_high (byte : UInt8) {k : Nat} (high : 8 ≤ k) : bitOf byte k = false :=
  Nat.testBit_eq_false_of_lt (lt_of_lt_of_le byte.toNat_lt (Nat.pow_le_pow_right (by decide) high))

@[simp] theorem bitOf_or (a b : UInt8) (k : Nat) :
    bitOf (a ||| b) k = (bitOf a k || bitOf b k) := by
  simp [bitOf]

@[simp] theorem bitOf_and (a b : UInt8) (k : Nat) :
    bitOf (a &&& b) k = (bitOf a k && bitOf b k) := by
  simp [bitOf]

theorem bitOf_not (a : UInt8) {k : Nat} (low : k < 8) : bitOf (~~~a) k = !bitOf a k := by
  have value : (~~~a).toNat = (~~~a.toBitVec).toNat := rfl
  rw [bitOf, bitOf, value, BitVec.testBit_toNat, BitVec.getLsbD_not]
  simp only [low, decide_true, Bool.true_and]
  rfl

private theorem mask_table : ∀ k j : Fin 8, bitOf (mask k) j = decide (j = k) := by
  decide

theorem bitOf_mask {k : Nat} (low : k < 8) (j : Nat) : bitOf (mask k) j = decide (j = k) := by
  by_cases inside : j < 8
  · have entry := mask_table ⟨k, low⟩ ⟨j, inside⟩
    simpa [Fin.ext_iff] using entry
  · rw [bitOf_high _ (by omega)]
    exact (decide_eq_false (by omega)).symm

/-- `(byte & (1 << k)) == 0` tests bit `k`. -/
theorem and_mask_eq_zero (byte : UInt8) {k : Nat} (low : k < 8) :
    byte &&& mask k = 0 ↔ bitOf byte k = false := by
  constructor
  · intro zero
    have bit := congrArg (bitOf · k) zero
    simpa [bitOf_mask low] using bit
  · intro clear
    apply eq_of_bitOf_eq
    intro j
    rw [bitOf_and, bitOf_mask low, bitOf_zero]
    by_cases same : j = k
    · simp [same, clear]
    · simp [same]

/-- `byte |= 1 << k` sets bit `k` and no other. -/
theorem bitOf_or_mask (byte : UInt8) {k : Nat} (low : k < 8) (j : Nat) :
    bitOf (byte ||| mask k) j = (bitOf byte j || decide (j = k)) := by
  rw [bitOf_or, bitOf_mask low]

/-- `byte &= ~(1 << k)` clears bit `k` and no other. -/
theorem bitOf_and_not_mask (byte : UInt8) {k : Nat} (low : k < 8) (j : Nat) :
    bitOf (byte &&& ~~~mask k) j = (bitOf byte j && !decide (j = k)) := by
  by_cases inside : j < 8
  · rw [bitOf_and, bitOf_not _ inside, bitOf_mask low]
  · simp [bitOf_high _ (Nat.le_of_not_lt inside)]

/-- Bit `position` of a memory, the most significant bit of each byte first. -/
def Mem.bit (m : Mem) (position : Nat) : Bool := bitOf (m (position / 8)) (7 - position % 8)

/-- Two memories with the same bits up to a byte's end have the same bytes there. -/
theorem Mem.eq_of_bit_eq {m m' : Mem} {n : Nat} (same : ∀ q < 8 * n, m.bit q = m'.bit q) {i : Nat}
    (inside : i < n) : m i = m' i := by
  apply eq_of_bitOf_eq
  intro k
  by_cases low : k < 8
  · have here := same (8 * i + (7 - k)) (by omega)
    rw [Mem.bit, Mem.bit, show (8 * i + (7 - k)) / 8 = i by omega,
      show 7 - (8 * i + (7 - k)) % 8 = k by omega] at here
    exact here
  · rw [bitOf_high _ (Nat.le_of_not_lt low), bitOf_high _ (Nat.le_of_not_lt low)]

end Xv6.Lib
