import Mathlib

/-!
Byte memory: what `memmove`, `memset` and little-endian word accesses do to a
run of bytes.

Owns: memory behind one pointer (`Mem`), block copies and reads, little-endian
values of any width with their round trip, 16- and 32-bit words, and buffers of
a fixed size whose outside bytes cannot be observed (`Buffer`).

Does not own: single bits of a byte, bit streams, or any record layout.
-/

namespace Xv6.Lib

/-- Memory reached through one pointer: the byte at each offset from it. -/
abbrev Mem := Nat → UInt8

namespace Mem

/-- `memmove(m + offset, source, source.length)`. -/
def copy (m : Mem) (offset : Nat) (source : List UInt8) : Mem := fun i =>
  if offset ≤ i ∧ i < offset + source.length then source.getD (i - offset) 0 else m i

/-- The `count` bytes from `offset` on. -/
def read (m : Mem) (offset count : Nat) : List UInt8 :=
  (List.range count).map fun i => m (offset + i)

theorem copy_inside (m : Mem) {offset i : Nat} {source : List UInt8}
    (low : offset ≤ i) (high : i < offset + source.length) :
    m.copy offset source i = source.getD (i - offset) 0 := by
  simp [copy, low, high]

theorem copy_outside (m : Mem) {offset i : Nat} {source : List UInt8}
    (outside : i < offset ∨ offset + source.length ≤ i) :
    m.copy offset source i = m i := by
  unfold copy
  rw [if_neg]
  omega

@[simp] theorem copy_nil (m : Mem) (offset : Nat) : m.copy offset [] = m := by
  funext i
  exact copy_outside m (by simp; omega)

@[simp] theorem length_read (m : Mem) (offset count : Nat) :
    (m.read offset count).length = count := by
  simp [read]

theorem getD_read (m : Mem) (offset : Nat) {count i : Nat} (inside : i < count) :
    (m.read offset count).getD i 0 = m (offset + i) := by
  simp [read, List.getD_eq_getElem?_getD, inside]

/-- A read depends only on the bytes it covers. -/
theorem read_congr {m m' : Mem} {offset offset' count : Nat}
    (same : ∀ i < count, m (offset + i) = m' (offset' + i)) :
    m.read offset count = m'.read offset' count := by
  apply List.map_congr_left
  intro i member
  exact same i (List.mem_range.mp member)

theorem read_append (m : Mem) (offset first second : Nat) :
    m.read offset (first + second) =
      m.read offset first ++ m.read (offset + first) second := by
  simp [read, List.range_add, Nat.add_assoc, Function.comp_def]

/-- Reading back a copy gives the copied bytes. -/
theorem read_copy (m : Mem) (offset : Nat) (source : List UInt8) :
    (m.copy offset source).read offset source.length = source := by
  apply List.ext_getElem (by simp)
  intro i _ inside
  simp [read, copy, inside]

theorem copy_read (m : Mem) (offset count : Nat) : m.copy offset (m.read offset count) = m := by
  funext i
  by_cases inside : offset ≤ i ∧ i < offset + count
  · have bound : i < offset + (m.read offset count).length := by simpa using inside.2
    rw [copy_inside m inside.1 bound, getD_read m offset (by omega),
      Nat.add_sub_of_le inside.1]
  · exact copy_outside m (by rw [length_read]; omega)

theorem copy_append (m : Mem) (offset : Nat) (first second : List UInt8) :
    m.copy offset (first ++ second) =
      (m.copy offset first).copy (offset + first.length) second := by
  funext i
  unfold copy
  rw [List.length_append]
  by_cases inSecond : offset + first.length ≤ i ∧ i < offset + first.length + second.length
  · rw [if_pos inSecond, if_pos (by omega), List.getD_append_right _ _ _ _ (by omega)]
    congr 1
    omega
  · rw [if_neg inSecond]
    by_cases inFirst : offset ≤ i ∧ i < offset + first.length
    · rw [if_pos inFirst, if_pos (by omega), List.getD_append _ _ _ _ (by omega)]
    · rw [if_neg inFirst, if_neg (by omega)]

theorem take_read (m : Mem) (offset : Nat) {count k : Nat} (small : k ≤ count) :
    (m.read offset count).take k = m.read offset k := by
  rw [read, ← List.map_take, List.take_range, Nat.min_eq_left small]
  rfl

theorem drop_read (m : Mem) (offset count k : Nat) :
    (m.read offset count).drop k = m.read (offset + k) (count - k) := by
  apply List.ext_getElem
  · simp
  · intro i _ _
    simp [read, Nat.add_assoc]

/-! ### Little-endian values -/

/-- The value of the `width` bytes from `offset` on, least significant first. -/
def leNat (m : Mem) (offset : Nat) : Nat → Nat
  | 0 => 0
  | width + 1 => (m offset).toNat + 256 * leNat m (offset + 1) width

/-- The `width` low bytes of `value`, least significant first. -/
def leBytes (value : Nat) : Nat → List UInt8
  | 0 => []
  | width + 1 => UInt8.ofNat value :: leBytes (value / 256) width

@[simp] theorem length_leBytes (value width : Nat) : (leBytes value width).length = width := by
  induction width generalizing value with
  | zero => rfl
  | succ width ih => simp [leBytes, ih]

theorem leNat_congr {m m' : Mem} {offset offset' width : Nat}
    (same : ∀ i < width, m (offset + i) = m' (offset' + i)) :
    leNat m offset width = leNat m' offset' width := by
  induction width generalizing offset offset' with
  | zero => rfl
  | succ width ih =>
    have head : m offset = m' offset' := same 0 (by omega)
    have tail : leNat m (offset + 1) width = leNat m' (offset' + 1) width := by
      apply ih
      intro i inside
      have shifted := same (i + 1) (by omega)
      rwa [show offset + (i + 1) = offset + 1 + i by omega,
        show offset' + (i + 1) = offset' + 1 + i by omega] at shifted
    rw [leNat, leNat, head, tail]

theorem copy_cons (m : Mem) (offset : Nat) (head : UInt8) (tail : List UInt8) :
    m.copy offset (head :: tail) =
      (fun i => if i = offset then head else m.copy (offset + 1) tail i) := by
  funext i
  by_cases first : i = offset
  · subst first
    simp [copy]
  · simp only [first, if_false]
    by_cases inside : offset + 1 ≤ i ∧ i < offset + 1 + tail.length
    · rw [copy_inside m (by omega) (by simp; omega), copy_inside m inside.1 inside.2,
        show i - offset = (i - (offset + 1)) + 1 by omega, List.getD_cons_succ]
    · rw [copy_outside m (by simp; omega), copy_outside m (by omega)]

theorem leNat_copy_leBytes (m : Mem) (offset value width : Nat) :
    leNat (m.copy offset (leBytes value width)) offset width = value % 256 ^ width := by
  induction width generalizing offset value with
  | zero => simp [leNat, Nat.mod_one]
  | succ width ih =>
    have tail : leNat (m.copy offset (leBytes value (width + 1))) (offset + 1) width =
        leNat (m.copy (offset + 1) (leBytes (value / 256) width)) (offset + 1) width := by
      apply leNat_congr
      intro i _
      rw [leBytes, copy_cons]
      exact if_neg (by omega)
    have head : (m.copy offset (leBytes value (width + 1)) offset).toNat = value % 256 := by
      simp [leBytes, copy_cons]
    rw [leNat, tail, ih, head, pow_succ, Nat.mul_comm (256 ^ width) 256, Nat.mod_mul]

theorem leNat_lt (m : Mem) (offset width : Nat) : leNat m offset width < 256 ^ width := by
  induction width generalizing offset with
  | zero => simp [leNat]
  | succ width ih =>
    have head := UInt8.toNat_lt (m offset)
    have tail := ih (offset + 1)
    rw [leNat, pow_succ]
    omega

theorem leBytes_leNat (m : Mem) (offset width : Nat) :
    leBytes (leNat m offset width) width = m.read offset width := by
  induction width generalizing offset with
  | zero => rfl
  | succ width ih =>
    have small := UInt8.toNat_lt (m offset)
    have low : UInt8.ofNat (leNat m offset (width + 1)) = m offset := by
      apply UInt8.toNat_inj.mp
      rw [leNat, UInt8.toNat_ofNat']
      omega
    have high : leNat m offset (width + 1) / 256 = leNat m (offset + 1) width := by
      rw [leNat]
      omega
    rw [leBytes, low, high, ih, Nat.add_comm width 1, read_append]
    rfl

/-- A 32-bit little-endian word, as an access through a `uint *` reads it. -/
def le32 (m : Mem) (offset : Nat) : UInt32 := UInt32.ofNat (leNat m offset 4)

/-- A 16-bit little-endian word. -/
def le16 (m : Mem) (offset : Nat) : UInt16 := UInt16.ofNat (leNat m offset 2)

def bytes32 (word : UInt32) : List UInt8 := leBytes word.toNat 4

def bytes16 (word : UInt16) : List UInt8 := leBytes word.toNat 2

@[simp] theorem length_bytes32 (word : UInt32) : (bytes32 word).length = 4 := by simp [bytes32]

@[simp] theorem length_bytes16 (word : UInt16) : (bytes16 word).length = 2 := by simp [bytes16]

theorem le32_congr {m m' : Mem} {offset offset' : Nat}
    (same : ∀ i < 4, m (offset + i) = m' (offset' + i)) :
    m.le32 offset = m'.le32 offset' := by
  rw [le32, le32, leNat_congr same]

theorem le16_congr {m m' : Mem} {offset offset' : Nat}
    (same : ∀ i < 2, m (offset + i) = m' (offset' + i)) :
    m.le16 offset = m'.le16 offset' := by
  rw [le16, le16, leNat_congr same]

@[simp] theorem le32_copy_bytes32 (m : Mem) (offset : Nat) (word : UInt32) :
    (m.copy offset (bytes32 word)).le32 offset = word := by
  have small : word.toNat % 256 ^ 4 = word.toNat := Nat.mod_eq_of_lt (UInt32.toNat_lt word)
  rw [le32, bytes32, leNat_copy_leBytes, small, UInt32.ofNat_toNat]

@[simp] theorem le16_copy_bytes16 (m : Mem) (offset : Nat) (word : UInt16) :
    (m.copy offset (bytes16 word)).le16 offset = word := by
  have small : word.toNat % 256 ^ 2 = word.toNat := Nat.mod_eq_of_lt (UInt16.toNat_lt word)
  rw [le16, bytes16, leNat_copy_leBytes, small, UInt16.ofNat_toNat]

theorem bytes32_le32 (m : Mem) (offset : Nat) : bytes32 (m.le32 offset) = m.read offset 4 := by
  have small : leNat m offset 4 < 2 ^ 32 := leNat_lt m offset 4
  rw [bytes32, le32, UInt32.toNat_ofNat_of_lt' small, leBytes_leNat]

/-- Bytes that spell a word are read as it. -/
theorem le32_of_bytes {m : Mem} {offset : Nat} {word : UInt32}
    (spell : ∀ i < 4, m (offset + i) = (bytes32 word).getD i 0) : m.le32 offset = word := by
  have same : m.le32 offset = (m.copy offset (bytes32 word)).le32 offset := by
    apply le32_congr
    intro i inside
    rw [spell i inside, copy_inside m (by omega) (by simpa using inside), Nat.add_sub_cancel_left]
  rw [same, le32_copy_bytes32]

theorem le16_of_bytes {m : Mem} {offset : Nat} {word : UInt16}
    (spell : ∀ i < 2, m (offset + i) = (bytes16 word).getD i 0) : m.le16 offset = word := by
  have same : m.le16 offset = (m.copy offset (bytes16 word)).le16 offset := by
    apply le16_congr
    intro i inside
    rw [spell i inside, copy_inside m (by omega) (by simpa using inside), Nat.add_sub_cancel_left]
  rw [same, le16_copy_bytes16]

end Mem

/-! ### Buffers of a fixed size -/

/-- A buffer of `size` bytes. No byte past its end can be told apart from zero,
so two buffers with the same contents are equal. -/
structure Buffer (size : Nat) where
  mem : Mem
  outside : ∀ i, size ≤ i → mem i = 0

namespace Buffer

variable {size : Nat}

/-- Cut memory down to a buffer. -/
def ofMem (m : Mem) : Buffer size where
  mem := fun i => if i < size then m i else 0
  outside := fun _ past => if_neg (Nat.not_lt.mpr past)

/-- `memset(buffer, value, size)`. -/
def fill (value : UInt8) : Buffer size := ofMem fun _ => value

instance : Inhabited (Buffer size) := ⟨fill 0⟩

@[ext] theorem ext_inside {a b : Buffer size} (same : ∀ i < size, a.mem i = b.mem i) : a = b := by
  have memEq : a.mem = b.mem := by
    funext i
    by_cases inside : i < size
    · exact same i inside
    · rw [a.outside i (by omega), b.outside i (by omega)]
  cases a
  cases b
  simpa using memEq

theorem mem_ofMem (m : Mem) {i : Nat} (inside : i < size) :
    (ofMem m : Buffer size).mem i = m i := by
  simp [ofMem, inside]

@[simp] theorem fill_zero_mem (i : Nat) : (fill 0 : Buffer size).mem i = 0 := by
  simp [fill, ofMem]

/-- `memmove(buffer + offset, source, source.length)` kept inside the buffer. -/
def copy (b : Buffer size) (offset : Nat) (source : List UInt8) : Buffer size :=
  ofMem (b.mem.copy offset source)

theorem copy_inside (b : Buffer size) {offset i : Nat} {source : List UInt8}
    (low : offset ≤ i) (high : i < offset + source.length) (inside : i < size) :
    (b.copy offset source).mem i = source.getD (i - offset) 0 := by
  rw [copy, mem_ofMem _ inside, Mem.copy_inside _ low high]

theorem copy_outside (b : Buffer size) {offset i : Nat} {source : List UInt8}
    (outside : i < offset ∨ offset + source.length ≤ i) :
    (b.copy offset source).mem i = b.mem i := by
  by_cases inside : i < size
  · rw [copy, mem_ofMem _ inside, Mem.copy_outside _ outside]
  · rw [(b.copy offset source).outside i (by omega), b.outside i (by omega)]

@[simp] theorem copy_nil (b : Buffer size) (offset : Nat) : b.copy offset [] = b := by
  ext i inside
  rw [copy_outside b (by simp; omega)]

theorem copy_append (b : Buffer size) (offset : Nat) (first second : List UInt8) :
    b.copy offset (first ++ second) =
      (b.copy offset first).copy (offset + first.length) second := by
  ext i inside
  rw [copy, mem_ofMem _ inside, Mem.copy_append, copy, mem_ofMem _ inside]
  unfold Mem.copy
  rw [copy, mem_ofMem _ inside]
  rfl

/-- Store a 32-bit word. -/
def set32 (b : Buffer size) (offset : Nat) (word : UInt32) : Buffer size :=
  b.copy offset (Mem.bytes32 word)

theorem le32_set32 (b : Buffer size) {offset : Nat} (word : UInt32)
    (inside : offset + 4 ≤ size) :
    (b.set32 offset word).mem.le32 offset = word := by
  have same : (b.set32 offset word).mem.le32 offset =
      (b.mem.copy offset (Mem.bytes32 word)).le32 offset := by
    apply Mem.le32_congr
    intro i low
    exact mem_ofMem _ (by omega)
  rw [same, Mem.le32_copy_bytes32]

/-- Storing the word that is there changes nothing. -/
theorem set32_le32 (b : Buffer size) (offset : Nat) : b.set32 offset (b.mem.le32 offset) = b := by
  apply ext_inside
  intro i inside
  rw [set32, copy, mem_ofMem _ inside, Mem.bytes32_le32, Mem.copy_read]

theorem le32_set32_outside (b : Buffer size) {offset position : Nat} (word : UInt32)
    (outside : position + 4 ≤ offset ∨ offset + 4 ≤ position) :
    (b.set32 offset word).mem.le32 position = b.mem.le32 position := by
  apply Mem.le32_congr
  intro i inside
  exact copy_outside b (by simp; omega)

theorem set32_outside (b : Buffer size) {offset i : Nat} (word : UInt32)
    (outside : i < offset ∨ offset + 4 ≤ i) : (b.set32 offset word).mem i = b.mem i :=
  copy_outside b (by simpa using outside)

theorem le16_set32_outside (b : Buffer size) {offset position : Nat} (word : UInt32)
    (outside : position + 2 ≤ offset ∨ offset + 4 ≤ position) :
    (b.set32 offset word).mem.le16 position = b.mem.le16 position := by
  apply Mem.le16_congr
  intro i inside
  exact set32_outside b word (by omega)

/-- Store a 16-bit word. -/
def set16 (b : Buffer size) (offset : Nat) (word : UInt16) : Buffer size :=
  b.copy offset (Mem.bytes16 word)

theorem set16_outside (b : Buffer size) {offset i : Nat} (word : UInt16)
    (outside : i < offset ∨ offset + 2 ≤ i) : (b.set16 offset word).mem i = b.mem i :=
  copy_outside b (by simpa using outside)

theorem le16_set16 (b : Buffer size) {offset : Nat} (word : UInt16)
    (inside : offset + 2 ≤ size) :
    (b.set16 offset word).mem.le16 offset = word := by
  have same : (b.set16 offset word).mem.le16 offset =
      (b.mem.copy offset (Mem.bytes16 word)).le16 offset := by
    apply Mem.le16_congr
    intro i low
    exact mem_ofMem _ (by omega)
  rw [same, Mem.le16_copy_bytes16]

theorem le16_set16_outside (b : Buffer size) {offset position : Nat} (word : UInt16)
    (outside : position + 2 ≤ offset ∨ offset + 2 ≤ position) :
    (b.set16 offset word).mem.le16 position = b.mem.le16 position := by
  apply Mem.le16_congr
  intro i inside
  exact set16_outside b word (by omega)

/-- Store consecutive 32-bit words, as a loop over an array of them does. -/
def putWords (b : Buffer size) (offset : Nat) : List UInt32 → Buffer size
  | [] => b
  | word :: rest => (b.set32 offset word).putWords (offset + 4) rest

theorem putWords_outside (b : Buffer size) {offset i : Nat} {words : List UInt32}
    (outside : i < offset ∨ offset + 4 * words.length ≤ i) :
    (b.putWords offset words).mem i = b.mem i := by
  induction words generalizing b offset with
  | nil => rfl
  | cons word rest ih =>
    rw [List.length_cons] at outside
    rw [putWords, ih _ (by omega), set32_outside _ _ (by omega)]

theorem le32_putWords_outside (b : Buffer size) {offset position : Nat} {words : List UInt32}
    (outside : position + 4 ≤ offset ∨ offset + 4 * words.length ≤ position) :
    (b.putWords offset words).mem.le32 position = b.mem.le32 position := by
  apply Mem.le32_congr
  intro i inside
  exact putWords_outside b (by omega)

theorem le16_putWords_outside (b : Buffer size) {offset position : Nat} {words : List UInt32}
    (outside : position + 2 ≤ offset ∨ offset + 4 * words.length ≤ position) :
    (b.putWords offset words).mem.le16 position = b.mem.le16 position := by
  apply Mem.le16_congr
  intro i inside
  exact putWords_outside b (by omega)

theorem le32_putWords (b : Buffer size) {offset : Nat} {words : List UInt32}
    (inside : offset + 4 * words.length ≤ size) {j : Nat} (member : j < words.length) :
    (b.putWords offset words).mem.le32 (offset + 4 * j) = words[j] := by
  induction words generalizing b offset j with
  | nil => simp at member
  | cons word rest ih =>
    rw [List.length_cons] at inside member
    rw [putWords]
    cases j with
    | zero =>
      rw [le32_putWords_outside _ (by omega)]
      exact le32_set32 b word (by omega)
    | succ j =>
      rw [show offset + 4 * (j + 1) = offset + 4 + 4 * j by omega]
      exact ih _ (by omega) (by omega)

end Buffer

end Xv6.Lib
