import Xv6.Lib.RingBuffer

/-!
`struct pipe`, and `pipewrite` and `piperead` cut at the points where they give up
the pipe's lock.

Owns: the ring with its wrapping counters, the loops of both calls between two
sleeps, with the bytes they store and deliver, and what each loop does to the
contents of the ring.

Does not own: who calls, and when a sleeping call runs again.
-/

namespace Xv6.Kernel

open Xv6.Lib

/-- `struct pipe` without its lock. -/
structure Pipe where
  data : Nat → UInt8
  nread : UInt32
  nwrite : UInt32
  readopen : Bool
  writeopen : Bool

namespace Pipe

/-- `PIPESIZE` -/
def pipeSize : Nat := 512

/-- `nwrite - nread`, modulo `2^32`. -/
def count (pi : Pipe) : Nat := (pi.nwrite - pi.nread).toNat

/-- The bytes in the pipe, the next one to be read first. -/
def contents (pi : Pipe) : List UInt8 := ringContents pipeSize pi.data pi.nread.toNat pi.count

/-- `nwrite - nread <= PIPESIZE` -/
def Bounded (pi : Pipe) : Prop := pi.count ≤ pipeSize

instance (pi : Pipe) : Decidable pi.Bounded := inferInstanceAs (Decidable (_ ≤ _))

/-- `pi->nwrite == pi->nread + PIPESIZE` -/
def full (pi : Pipe) : Bool := pi.nwrite == pi.nread + UInt32.ofNat pipeSize

/-- `pi->nread == pi->nwrite` -/
def empty (pi : Pipe) : Bool := pi.nread == pi.nwrite

/-- `pi->data[pi->nwrite++ % PIPESIZE] = ch` -/
def put (pi : Pipe) (ch : UInt8) : Pipe :=
  { pi with
    data := Function.update pi.data (pi.nwrite.toNat % pipeSize) ch
    nwrite := pi.nwrite + 1 }

/-- `pi->data[pi->nread % PIPESIZE]` -/
def front (pi : Pipe) : UInt8 := pi.data (pi.nread.toNat % pipeSize)

/-- `pi->nread++` -/
def advance (pi : Pipe) : Pipe := { pi with nread := pi.nread + 1 }

/-! ### The two calls -/

/-- How a part of a call ends: with a return value, or asleep. -/
inductive End where
  | returns (ret : Int)
  | sleeps
deriving DecidableEq, Repr

/-- What a part of `pipewrite` leaves: the pipe, the bytes it stored, and how it
ends. -/
structure Written where
  pipe : Pipe
  stored : List UInt8
  ending : End

/-- The loop of `pipewrite` from index `i` until it returns or sleeps. `copyin i`
is the byte at `addr + i`, if it can be read; `killed i` is what `killed(pr)`
returns in iteration `i`. -/
def pipewriteLoop (copyin : Nat → Option UInt8) (killed : Nat → Bool) (n i : Nat) (pi : Pipe) :
    Written :=
  if i < n then
    if pi.readopen = false ∨ killed i = true then ⟨pi, [], .returns (-1)⟩
    else if pi.full then ⟨pi, [], .sleeps⟩
    else
      match copyin i with
      | none => ⟨pi, [], .returns i⟩
      | some ch =>
        let rest := pipewriteLoop copyin killed n (i + 1) (pi.put ch)
        { rest with stored := ch :: rest.stored }
  else ⟨pi, [], .returns i⟩
termination_by n - i

/-- What a part of `piperead` leaves: the pipe, the bytes it delivered, and how it
ends. -/
structure Delivered where
  pipe : Pipe
  bytes : List UInt8
  ending : End

/-- The copying loop of `piperead` from index `i`. A byte that cannot be copied out
is gone from the pipe all the same. -/
def pipereadLoop (copyout : Nat → Bool) (n i : Nat) (pi : Pipe) : Delivered :=
  if i < n then
    if pi.empty then ⟨pi, [], .returns i⟩
    else if copyout i = false then ⟨pi.advance, [], .returns i⟩
    else
      let rest := pipereadLoop copyout n (i + 1) pi.advance
      { rest with bytes := pi.front :: rest.bytes }
  else ⟨pi, [], .returns i⟩
termination_by n - i

/-- `piperead` from its start, or from where it slept. -/
def piperead (copyout : Nat → Bool) (killed : Bool) (n : Nat) (pi : Pipe) : Delivered :=
  if pi.empty ∧ pi.writeopen then
    if killed then ⟨pi, [], .returns (-1)⟩ else ⟨pi, [], .sleeps⟩
  else pipereadLoop copyout n 0 pi

/-! ### The contents of the ring -/

section Contents

variable {pi : Pipe}

theorem full_iff : pi.full = true ↔ pi.count = pipeSize := by
  unfold Pipe.full Pipe.count
  rw [beq_iff_eq]
  constructor
  · intro isFull
    rw [isFull, UInt32.add_comm, UInt32.add_sub_cancel]
    rfl
  · intro isFull
    have difference : pi.nwrite - pi.nread = UInt32.ofNat pipeSize :=
      UInt32.toNat_inj.mp isFull
    rw [← difference, UInt32.add_comm, UInt32.sub_add_cancel]

theorem empty_iff : pi.empty = true ↔ pi.count = 0 := by
  unfold Pipe.empty Pipe.count
  rw [beq_iff_eq]
  constructor
  · intro isEmpty
    rw [isEmpty, UInt32.sub_self]
    rfl
  · intro isEmpty
    have difference : pi.nwrite - pi.nread = 0 := UInt32.toNat_inj.mp isEmpty
    grind

theorem length_contents : pi.contents.length = pi.count := length_ringContents ..

theorem count_lt (notFull : pi.full = false) (bounded : pi.Bounded) : pi.count < pipeSize := by
  refine Nat.lt_of_le_of_ne bounded fun isFull => ?_
  rw [full_iff.mpr isFull] at notFull
  contradiction

theorem contents_put (notFull : pi.full = false) (bounded : pi.Bounded) (ch : UInt8) :
    (pi.put ch).contents = pi.contents ++ [ch] :=
  wrapped_push (by decide) (by decide) (count_lt notFull bounded) ch

theorem bounded_put (notFull : pi.full = false) (bounded : pi.Bounded) (ch : UInt8) :
    (pi.put ch).Bounded := by
  have longer := congrArg List.length (contents_put notFull bounded ch)
  rw [List.length_append, length_contents, length_contents] at longer
  unfold Pipe.Bounded
  rw [longer]
  exact count_lt notFull bounded

theorem contents_advance (notEmpty : pi.empty = false) :
    pi.contents = pi.front :: pi.advance.contents := by
  refine wrapped_pop (by decide) fun same => ?_
  unfold Pipe.empty at notEmpty
  rw [UInt32.toBitVec_inj.mp same, beq_self_eq_true] at notEmpty
  contradiction

theorem count_advance (notEmpty : pi.empty = false) : pi.count = pi.advance.count + 1 := by
  have shorter := congrArg List.length (contents_advance notEmpty)
  rwa [List.length_cons, length_contents, length_contents] at shorter

/-- What `pipewrite` stores goes behind the contents, and the ring stays within its
size. -/
theorem pipewriteLoop_contents (copyin : Nat → Option UInt8) (killed : Nat → Bool) (n i : Nat)
    (bounded : pi.Bounded) :
    (pipewriteLoop copyin killed n i pi).pipe.contents =
        pi.contents ++ (pipewriteLoop copyin killed n i pi).stored ∧
      (pipewriteLoop copyin killed n i pi).pipe.Bounded := by
  induction i, pi using pipewriteLoop.induct copyin killed n with
  | case1 i pi more stops =>
    rw [pipewriteLoop, if_pos more, if_pos stops, List.append_nil]
    exact ⟨rfl, bounded⟩
  | case2 i pi more goes isFull =>
    rw [pipewriteLoop, if_pos more, if_neg goes, if_pos isFull, List.append_nil]
    exact ⟨rfl, bounded⟩
  | case3 i pi more goes room fault =>
    rw [pipewriteLoop, if_pos more, if_neg goes, if_neg room, fault, List.append_nil]
    exact ⟨rfl, bounded⟩
  | case4 i pi more goes room ch copied ih =>
    have notFull : pi.full = false := Bool.eq_false_of_not_eq_true room
    obtain ⟨contents, stays⟩ := ih (bounded_put notFull bounded ch)
    rw [pipewriteLoop, if_pos more, if_neg goes, if_neg room, copied]
    refine ⟨?_, stays⟩
    rw [contents, contents_put notFull bounded, List.append_assoc]
    rfl
  | case5 i pi done =>
    rw [pipewriteLoop, if_neg done, List.append_nil]
    exact ⟨rfl, bounded⟩

/-- How a part of `pipewrite` ends whose copies succeed: after its last byte, on a closed
pipe or killed, or asleep on a full pipe; the bytes it stored are those from index `i` on. -/
theorem pipewriteLoop_ends {copyin : Nat → Option UInt8} (killed : Nat → Bool) {n i : Nat}
    (copies : ∀ k < n, (copyin k).isSome = true) (within : i ≤ n) :
    (pipewriteLoop copyin killed n i pi).stored.map some =
        (List.range' i (pipewriteLoop copyin killed n i pi).stored.length).map copyin ∧
      (pipewriteLoop copyin killed n i pi).pipe.readopen = pi.readopen ∧
      i + (pipewriteLoop copyin killed n i pi).stored.length ≤ n ∧
      ((pipewriteLoop copyin killed n i pi).ending = .returns n ∧
          i + (pipewriteLoop copyin killed n i pi).stored.length = n ∨
        (pipewriteLoop copyin killed n i pi).ending = .returns (-1) ∧
          (pi.readopen = false ∨ ∃ j, killed j = true) ∨
        (pipewriteLoop copyin killed n i pi).ending = .sleeps ∧
          (pipewriteLoop copyin killed n i pi).pipe.full = true) := by
  induction i, pi using pipewriteLoop.induct copyin killed n with
  | case1 i pi more stops =>
    rw [pipewriteLoop, if_pos more, if_pos stops]
    exact ⟨rfl, rfl, within, .inr (.inl ⟨rfl, stops.imp_right fun isKilled => ⟨i, isKilled⟩⟩)⟩
  | case2 i pi more goes isFull =>
    rw [pipewriteLoop, if_pos more, if_neg goes, if_pos isFull]
    exact ⟨rfl, rfl, within, .inr (.inr ⟨rfl, isFull⟩)⟩
  | case3 i pi more goes room fault =>
    have copied := copies i more
    rw [fault] at copied
    contradiction
  | case4 i pi more goes room ch copied ih =>
    obtain ⟨stored, same, most, ending⟩ := ih more
    rw [pipewriteLoop, if_pos more, if_neg goes, if_neg room, copied]
    simp only [List.map_cons, List.length_cons, List.range'_succ]
    refine ⟨by rw [stored, copied], same, by omega, ?_⟩
    rw [show i + ((pipewriteLoop copyin killed n (i + 1) (pi.put ch)).stored.length + 1) =
      i + 1 + (pipewriteLoop copyin killed n (i + 1) (pi.put ch)).stored.length by omega]
    exact ending
  | case5 i pi done =>
    rw [pipewriteLoop, if_neg done]
    have last : i = n := by omega
    subst last
    exact ⟨rfl, rfl, within, .inl ⟨rfl, rfl⟩⟩

/-- `nread` advanced by `k`. -/
def skip (pi : Pipe) (k : Nat) : Pipe := { pi with nread := pi.nread + UInt32.ofNat k }

theorem skip_zero (pi : Pipe) : pi.skip 0 = pi := by
  unfold skip
  rw [show UInt32.ofNat 0 = 0 from rfl, UInt32.add_zero]

theorem advance_skip (pi : Pipe) (k : Nat) : pi.advance.skip k = pi.skip (k + 1) := by
  unfold skip advance
  rw [Nat.add_comm k 1, UInt32.ofNat_add, ← UInt32.add_assoc]
  rfl

theorem pipereadLoop_cases (copyout : Nat → Bool) (n i : Nat) (pi : Pipe) :
    ∃ k ≤ min (n - i) pi.count, (∀ j < k, copyout (i + j) = true) ∧
      (pipereadLoop copyout n i pi).bytes = pi.contents.take k ∧
      (pipereadLoop copyout n i pi).ending = .returns ((i + k : Nat) : Int) ∧
      ((k = min (n - i) pi.count ∧ (pipereadLoop copyout n i pi).pipe = pi.skip k) ∨
        (k < min (n - i) pi.count ∧ copyout (i + k) = false ∧
          (pipereadLoop copyout n i pi).pipe = pi.skip (k + 1))) := by
  induction i, pi using pipereadLoop.induct copyout n with
  | case1 i pi more isEmpty =>
    have isZero := empty_iff.mp isEmpty
    rw [pipereadLoop, if_pos more, if_pos isEmpty]
    exact ⟨0, Nat.zero_le _, fun _ absurd => by omega, rfl, rfl,
      .inl ⟨by omega, (skip_zero pi).symm⟩⟩
  | case2 i pi more notEmpty fault =>
    have notZero : pi.count ≠ 0 := fun isZero => notEmpty (empty_iff.mpr isZero)
    rw [pipereadLoop, if_pos more, if_neg notEmpty, if_pos fault]
    refine ⟨0, Nat.zero_le _, fun _ absurd => by omega, rfl, rfl, .inr ⟨by omega, fault, ?_⟩⟩
    rw [← advance_skip, skip_zero]
  | case3 i pi more notEmpty copied ih =>
    obtain ⟨k, most, copies, bytes, ending, pipe⟩ := ih
    have isSome : pi.empty = false := Bool.eq_false_of_not_eq_true notEmpty
    have count := count_advance isSome
    rw [pipereadLoop, if_pos more, if_neg notEmpty, if_neg copied]
    refine ⟨k + 1, by omega, ?_, ?_, ?_, ?_⟩
    · intro j less
      cases j with
      | zero => exact Bool.eq_true_of_not_eq_false copied
      | succ j =>
        rw [show i + (j + 1) = i + 1 + j by omega]
        exact copies j (by omega)
    · rw [contents_advance isSome, List.take_succ_cons, ← bytes]
    · rw [show i + (k + 1) = i + 1 + k by omega]
      exact ending
    · rw [← advance_skip, ← advance_skip, show i + (k + 1) = i + 1 + k by omega]
      rcases pipe with ⟨all, isPipe⟩ | ⟨less, fault, isPipe⟩
      · exact .inl ⟨by omega, isPipe⟩
      · exact .inr ⟨by omega, fault, isPipe⟩
  | case4 i pi done =>
    rw [pipereadLoop, if_neg done]
    exact ⟨0, Nat.zero_le _, fun _ absurd => by omega, rfl, rfl,
      .inl ⟨by omega, (skip_zero pi).symm⟩⟩

theorem contents_skip {k : Nat} (most : k ≤ pi.count) :
    (pi.skip k).contents = pi.contents.drop k := by
  induction k generalizing pi with
  | zero => rw [skip_zero, List.drop_zero]
  | succ k ih =>
    have isSome : pi.empty = false := by
      apply Bool.eq_false_of_not_eq_true
      intro isEmpty
      have := empty_iff.mp isEmpty
      omega
    have count := count_advance isSome
    rw [← advance_skip, ih (by omega), contents_advance isSome,
      List.drop_succ_cons]

theorem pipereadLoop_contents {copyout : Nat → Bool} {n : Nat} (copies : ∀ k < n, copyout k = true)
    (bounded : pi.Bounded) :
    (pipereadLoop copyout n 0 pi).bytes = pi.contents.take n ∧
      (pipereadLoop copyout n 0 pi).ending = .returns (min n pi.count : Nat) ∧
      (pipereadLoop copyout n 0 pi).pipe.contents = pi.contents.drop n ∧
      (pipereadLoop copyout n 0 pi).pipe.Bounded ∧
      (pipereadLoop copyout n 0 pi).pipe.readopen = pi.readopen := by
  obtain ⟨k, most, -, bytes, ending, ⟨isAll, pipe⟩ | ⟨fewer, fault, -⟩⟩ :=
    pipereadLoop_cases copyout n 0 pi
  · rw [Nat.sub_zero] at isAll
    rw [Nat.zero_add] at ending
    have rest := @contents_skip pi k (by omega)
    have length := congrArg List.length rest
    rw [List.length_drop, length_contents, length_contents] at length
    have stays : (pi.skip k).Bounded := by
      unfold Bounded at *
      omega
    refine ⟨?_, by rw [ending, isAll], ?_, by rwa [pipe], by rw [pipe]; rfl⟩
    · rw [bytes, isAll, ← length_contents, ← List.take_eq_take_min]
    · rw [pipe, rest, isAll, ← length_contents, ← List.drop_eq_drop_min]
  · rw [Nat.zero_add, copies k (by omega)] at fault
    contradiction

/-- How a part of `piperead` ends whose copies succeed: with as many bytes as there are,
killed, or asleep on an empty pipe that may still be written. -/
theorem piperead_ends {copyout : Nat → Bool} {n : Nat} (killed : Bool)
    (copies : ∀ k < n, copyout k = true) (bounded : pi.Bounded) :
    pi.contents =
        (piperead copyout killed n pi).bytes ++ (piperead copyout killed n pi).pipe.contents ∧
      (piperead copyout killed n pi).pipe.Bounded ∧
      (piperead copyout killed n pi).pipe.readopen = pi.readopen ∧
      ((piperead copyout killed n pi).ending = .returns (min n pi.count : Nat) ∧
          (piperead copyout killed n pi).bytes.length = min n pi.count ∨
        (piperead copyout killed n pi).ending = .returns (-1) ∧ killed = true ∧
          (piperead copyout killed n pi).bytes = [] ∨
        (piperead copyout killed n pi).ending = .sleeps ∧
          (piperead copyout killed n pi).bytes = [] ∧
          (piperead copyout killed n pi).pipe.empty = true ∧
          (piperead copyout killed n pi).pipe.writeopen = true) := by
  unfold piperead
  split_ifs with waits isKilled
  · exact ⟨rfl, bounded, rfl, .inr (.inl ⟨rfl, isKilled, rfl⟩)⟩
  · exact ⟨rfl, bounded, rfl, .inr (.inr ⟨rfl, rfl, waits⟩)⟩
  · obtain ⟨bytes, ending, rest, stays, same⟩ := pipereadLoop_contents copies bounded
    rw [bytes, rest, List.take_append_drop]
    exact ⟨rfl, stays, same, .inl ⟨ending, by rw [List.length_take, length_contents]⟩⟩

end Contents

end Pipe

end Xv6.Kernel
