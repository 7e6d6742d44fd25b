import Xv6.Lib.Wp

/-!
Programs that keep a property of the state, and programs whose results have one.

Owns: when a program keeps a property, whether it ends or stops, when every value
it returns has a property, and rules for both by the program's constructors.

Does not own: any property.
-/

namespace Xv6.Lib

variable {Stop State : Type} {holds : State → Prop} {Result Result' : Type}

/-- Where the property holds before the program, it holds after it. -/
def Preserves (holds : State → Prop) (program : EStateM Stop State Result) : Prop :=
  ∀ s, holds s → wp program s (fun _ t => holds t) fun _ t => holds t

namespace Preserves

theorem pure (result : Result) : Preserves holds (pure result : EStateM Stop State Result) :=
  fun _ before => before

theorem throw (reason : Stop) : Preserves holds (throw reason : EStateM Stop State Result) :=
  fun _ before => before

theorem bind {first : EStateM Stop State Result'} {next : Result' → EStateM Stop State Result}
    (keepsFirst : Preserves holds first) (keepsNext : ∀ result, Preserves holds (next result)) :
    Preserves holds (first >>= next) := by
  intro s before
  rw [wp_bind]
  exact wp_mono (keepsFirst s before) (fun result t middle => keepsNext result t middle)
    fun _ _ stopped => stopped

theorem ite {condition : Prop} [Decidable condition] {first second : EStateM Stop State Result}
    (keepsFirst : Preserves holds first) (keepsSecond : Preserves holds second) :
    Preserves holds (if condition then first else second) := by
  split_ifs
  · exact keepsFirst
  · exact keepsSecond

/-- What follows a look at the state may rely on the property of what it saw. -/
theorem get {next : State → EStateM Stop State Result}
    (keepsNext : ∀ s, holds s → Preserves holds (next s)) : Preserves holds (get >>= next) :=
  fun s before => keepsNext s before s before

theorem set {t : State} (after : holds t) :
    Preserves holds (set t : EStateM Stop State PUnit) :=
  fun _ _ => after

theorem modify {change : State → State} (keeps : ∀ s, holds s → holds (change s)) :
    Preserves holds (modify change : EStateM Stop State PUnit) :=
  fun s before => keeps s before

theorem forEach {Item : Type} {body : Item → EStateM Stop State PUnit}
    (keeps : ∀ item, Preserves holds (body item)) (items : List Item) :
    Preserves holds (forEach body items) := by
  induction items with
  | nil => exact Preserves.pure _
  | cons item rest ih => exact (keeps item).bind fun _ => ih

theorem chunkLoop {size off n : Nat} {positive : 0 < size}
    {body : Nat → Nat → EStateM Stop State Bool}
    (keeps : ∀ tot m, Preserves holds (body tot m)) (tot : Nat) :
    Preserves holds (chunkLoop size off n positive body tot) := by
  generalize remaining : n - tot = left
  induction left using Nat.strong_induction_on generalizing tot with
  | _ left ih =>
    have inBlock := Nat.mod_lt (off + tot) positive
    unfold Lib.chunkLoop
    by_cases inside : tot < n
    · rw [if_pos inside]
      refine (keeps _ _).bind fun continues => Preserves.ite ?_ (Preserves.pure tot)
      exact ih _ (by omega) _ rfl
    · rw [if_neg inside]
      exact Preserves.pure tot

end Preserves

/-- Whatever the program returns has the property. -/
def Yields (holds : Result → Prop) (program : EStateM Stop State Result) : Prop :=
  ∀ s, wp program s (fun result _ => holds result) fun _ _ => True

namespace Yields

variable {holds : Result → Prop}

theorem pure {result : Result} (has : holds result) :
    Yields holds (pure result : EStateM Stop State Result) :=
  fun _ => has

theorem throw (reason : Stop) : Yields holds (throw reason : EStateM Stop State Result) :=
  fun _ => trivial

/-- The last part decides. -/
theorem bind (first : EStateM Stop State Result') {next : Result' → EStateM Stop State Result}
    (last : ∀ result, Yields holds (next result)) : Yields holds (first >>= next) := by
  intro s
  rw [wp_bind]
  exact wp_mono (wp_true first s) (fun result t _ => last result t) fun _ _ _ => trivial

theorem ite {condition : Prop} [Decidable condition] {first second : EStateM Stop State Result}
    (yieldsFirst : Yields holds first) (yieldsSecond : Yields holds second) :
    Yields holds (if condition then first else second) := by
  split_ifs
  · exact yieldsFirst
  · exact yieldsSecond

end Yields

end Xv6.Lib
