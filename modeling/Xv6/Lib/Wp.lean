import Mathlib

/-!
Weakest preconditions for programs with state that may stop.

Owns: what must hold before a program for given postconditions of its normal end
and of a stop, one equation per program constructor, weakening, and the passage
between a postcondition and a known result.

Does not own: any program or state. A program that stops keeps the state it had
then.
-/

namespace Xv6.Lib

universe u

variable {Stop State : Type u} {Result Result' : Type u}

/-- Started in `s`, the program ends with `post`, or stops with `stop`. -/
def wp (program : EStateM Stop State Result) (s : State) (post : Result → State → Prop)
    (stop : Stop → State → Prop) : Prop :=
  match program s with
  | .ok result t => post result t
  | .error reason t => stop reason t

section Rules

variable {s t : State} {post : Result → State → Prop} {stop : Stop → State → Prop}

theorem wp_ok {program : EStateM Stop State Result} {result : Result}
    (run : program s = .ok result t) : wp program s post stop ↔ post result t := by
  rw [wp, run]

theorem wp_error {program : EStateM Stop State Result} {reason : Stop}
    (run : program s = .error reason t) : wp program s post stop ↔ stop reason t := by
  rw [wp, run]

/-- A run decides what can be decided of its end. -/
instance decidableWp (program : EStateM Stop State Result) (s : State)
    [∀ result t, Decidable (post result t)] [∀ reason t, Decidable (stop reason t)] :
    Decidable (wp program s post stop) := by
  cases run : program s with
  | ok result t => exact decidable_of_iff _ (wp_ok run).symm
  | error reason t => exact decidable_of_iff _ (wp_error run).symm

@[simp] theorem wp_pure (result : Result) :
    wp (pure result : EStateM Stop State Result) s post stop ↔ post result s := Iff.rfl

@[simp] theorem wp_bind (first : EStateM Stop State Result')
    (next : Result' → EStateM Stop State Result) :
    wp (first >>= next) s post stop ↔
      wp first s (fun result t => wp (next result) t post stop) stop := by
  change (match EStateM.bind first next s with
    | .ok result t => post result t
    | .error reason t => stop reason t) ↔ _
  unfold EStateM.bind wp
  cases first s <;> rfl

@[simp] theorem wp_throw (reason : Stop) :
    wp (throw reason : EStateM Stop State Result) s post stop ↔ stop reason s := Iff.rfl

@[simp] theorem wp_get {post : State → State → Prop} :
    wp (get : EStateM Stop State State) s post stop ↔ post s s := Iff.rfl

@[simp] theorem wp_set {post : PUnit → State → Prop} :
    wp (set t : EStateM Stop State PUnit) s post stop ↔ post ⟨⟩ t := Iff.rfl

@[simp] theorem wp_modify {post : PUnit → State → Prop} (change : State → State) :
    wp (modify change : EStateM Stop State PUnit) s post stop ↔ post ⟨⟩ (change s) := Iff.rfl

@[simp] theorem wp_ite {condition : Prop} [Decidable condition]
    (first second : EStateM Stop State Result) :
    wp (if condition then first else second) s post stop ↔
      if condition then wp first s post stop else wp second s post stop := by
  split_ifs <;> rfl

/-- Weaker postconditions hold whenever stronger ones do. -/
theorem wp_mono {program : EStateM Stop State Result} {post' : Result → State → Prop}
    {stop' : Stop → State → Prop} (holds : wp program s post stop)
    (weaker : ∀ result t, post result t → post' result t)
    (weakerStop : ∀ reason t, stop reason t → stop' reason t) : wp program s post' stop' := by
  unfold wp at holds ⊢
  cases run : program s with
  | ok result t =>
    rw [run] at holds
    exact weaker result t holds
  | error reason t =>
    rw [run] at holds
    exact weakerStop reason t holds

/-- Every program ends or stops. -/
theorem wp_true (program : EStateM Stop State Result) (s : State) :
    wp program s (fun _ _ => True) fun _ _ => True := by
  unfold wp
  cases program s <;> trivial

/-- Where a run ends decides a fact. -/
theorem wp_iff_of {program : EStateM Stop State Result} {fact : Prop}
    (decides : wp program s (fun result t => post result t ↔ fact) fun reason t =>
      stop reason t ↔ fact) : wp program s post stop ↔ fact := by
  unfold wp at decides ⊢
  cases run : program s with
  | ok result t | error reason t =>
    rw [run] at decides
    exact decides

/-- What holds of a run holds together. -/
theorem wp_inter {program : EStateM Stop State Result} {post' : Result → State → Prop}
    {stop' : Stop → State → Prop} (first : wp program s post stop)
    (second : wp program s post' stop') :
    wp program s (fun result t => post result t ∧ post' result t)
      fun reason t => stop reason t ∧ stop' reason t := by
  unfold wp at first second ⊢
  cases run : program s with
  | ok result t | error reason t =>
    rw [run] at first second
    exact ⟨first, second⟩

/-- Two postconditions hold together. -/
theorem wp_and {program : EStateM Stop State Result} {post' : Result → State → Prop}
    (first : wp program s post stop) (second : wp program s post' stop) :
    wp program s (fun result t => post result t ∧ post' result t) stop :=
  wp_mono (wp_inter first second) (fun _ _ both => both) fun _ _ stopped => stopped.1

/-- Postconditions of a family hold together. -/
theorem wp_forall {Index : Sort*} {program : EStateM Stop State Result}
    {posts : Index → Result → State → Prop}
    (each : ∀ i, wp program s (posts i) fun _ _ => True) :
    wp program s (fun result t => ∀ i, posts i result t) fun _ _ => True := by
  unfold wp at each ⊢
  cases run : program s with
  | ok result t =>
    intro i
    have holds := each i
    rwa [run] at holds
  | error reason t => trivial

/-- A fact that follows from every way the run may go. -/
theorem of_wp {program : EStateM Stop State Result} {fact : Prop}
    (holds : wp program s (fun _ _ => fact) fun _ _ => fact) : fact := by
  unfold wp at holds
  cases run : program s with
  | ok result t | error reason t =>
    rw [run] at holds
    exact holds

/-- A program whose stops are excluded ends. -/
theorem exists_ok_of_wp {program : EStateM Stop State Result}
    (holds : wp program s post fun _ _ => False) :
    ∃ result t, program s = .ok result t ∧ post result t := by
  unfold wp at holds
  cases run : program s with
  | ok result t =>
    rw [run] at holds
    exact ⟨result, t, rfl, holds⟩
  | error reason t =>
    rw [run] at holds
    exact holds.elim

/-- A program that returns a known result. -/
theorem exists_ok_eq {program : EStateM Stop State Result} {result : Result} {fact : State → Prop}
    (holds : wp program s (fun value t => value = result ∧ fact t) fun _ _ => False) :
    ∃ t, program s = .ok result t ∧ fact t := by
  obtain ⟨_, t, run, rfl, after⟩ := exists_ok_of_wp holds
  exact ⟨t, run, after⟩

end Rules

/-! ### Loops over a list -/

/-- Run the body for each element in turn. -/
def forEach {Stop State Item : Type} (body : Item → EStateM Stop State PUnit) :
    List Item → EStateM Stop State PUnit
  | [] => pure ⟨⟩
  | item :: rest => do
    body item
    forEach body rest

/-- The invariant rule: the invariant speaks of the elements still to come. -/
theorem wp_forEach {Stop State Item : Type} {body : Item → EStateM Stop State PUnit}
    {stop : Stop → State → Prop} (inv : List Item → State → Prop)
    (step : ∀ item rest s, inv (item :: rest) s → wp (body item) s (fun _ t => inv rest t) stop)
    {items : List Item} {s : State} (start : inv items s) :
    wp (forEach body items) s (fun _ t => inv [] t) stop := by
  induction items generalizing s with
  | nil => exact start
  | cons item rest ih =>
    rw [forEach, wp_bind]
    exact wp_mono (step item rest s start) (fun _ _ after => ih after)
      fun _ _ stopped => stopped

/-! ### Loops that go through a range in pieces of one block -/

/-- Positions within one block. -/
theorem div_mod_within {size p x : Nat} (room : p % size + x < size) :
    (p + x) / size = p / size ∧ (p + x) % size = p % size + x := by
  have positive : 0 < size := by omega
  have split : p + x = size * (p / size) + (p % size + x) := by
    rw [← Nat.add_assoc, Nat.div_add_mod]
  rw [split, Nat.mul_add_div positive, Nat.mul_add_mod, Nat.div_eq_of_lt room,
    Nat.mod_eq_of_lt room]
  exact ⟨rfl, rfl⟩

/-- `for(tot = 0; tot < n; tot += m)` with `m = min(n - tot, size - (off + tot) % size)`;
the body says whether to go on or to break. The result is `tot` at the exit. -/
def chunkLoop {Stop State : Type} (size off n : Nat) (positive : 0 < size)
    (body : Nat → Nat → EStateM Stop State Bool) (tot : Nat) : EStateM Stop State Nat :=
  if tot < n then do
    let continues ← body tot (min (n - tot) (size - (off + tot) % size))
    if continues then
      chunkLoop size off n positive body (tot + min (n - tot) (size - (off + tot) % size))
    else pure tot
  else pure tot
termination_by n - tot
decreasing_by
  have := Nat.mod_lt (off + tot) positive
  omega

section ChunkLoop

variable {Stop State : Type} {size off n : Nat} {positive : 0 < size}
  {body : Nat → Nat → EStateM Stop State Bool} {stop : Stop → State → Prop}

/-- The invariant rule: each piece lies in one block, a body that goes on keeps
the invariant, and the loop ends at `n` with it or where the body broke. -/
theorem wp_chunkLoop (inv : Nat → State → Prop) (broken : Nat → State → Prop)
    (piece : ∀ tot m s, tot < n → 0 < m → tot + m ≤ n → (off + tot) % size + m ≤ size →
      m = min (n - tot) (size - (off + tot) % size) → inv tot s →
      wp (body tot m) s (fun continues t => if continues then inv (tot + m) t else broken tot t)
        stop)
    {tot : Nat} {s : State} (small : tot ≤ n) (start : inv tot s) :
    wp (chunkLoop size off n positive body tot) s
      (fun final t => (final = n ∧ inv n t) ∨ (final < n ∧ broken final t)) stop := by
  generalize remaining : n - tot = left
  induction left using Nat.strong_induction_on generalizing tot s with
  | _ left ih =>
    have inBlock := Nat.mod_lt (off + tot) positive
    unfold chunkLoop
    by_cases inside : tot < n
    · rw [if_pos inside, wp_bind]
      generalize length : min (n - tot) (size - (off + tot) % size) = m
      refine wp_mono (piece tot m s inside (by omega) (by omega) (by omega) length.symm start)
        ?_ fun _ _ stopped => stopped
      intro continues t after
      cases continues with
      | true => exact ih (n - (tot + m)) (by omega) (by omega) after rfl
      | false => exact .inr ⟨inside, after⟩
    · rw [if_neg inside]
      have done : tot = n := by omega
      subst done
      exact .inl ⟨rfl, start⟩

end ChunkLoop

end Xv6.Lib
