import Mathlib

/-!
Runs of a labelled transition system and the induction over them.

Owns: a run with the state before each of its steps, the invariant rule, the
rule for invariants that are kept only by steps meeting a condition, the
split of a run at one of its steps, and the rule for forward simulations.

Does not own: any particular system.
-/

namespace Xv6.Lib

universe u v

variable {State : Type u} {Label : Type v}

/-- A run from an initial state: its steps, each with the state before it, and
the state it ends in. -/
inductive Run (init : State → Prop) (step : State → Label → State → Prop) :
    List (State × Label) → State → Prop where
  | start {s : State} (initial : init s) : Run init step [] s
  | snoc {steps : List (State × Label)} {s s' : State} {label : Label}
      (earlier : Run init step steps s) (next : step s label s') :
      Run init step (steps ++ [(s, label)]) s'

namespace Run

variable {init : State → Prop} {step : State → Label → State → Prop}
  {steps : List (State × Label)} {s : State}

/-- An invariant kept by every step that meets the condition holds at the end of
every run whose steps all meet it. -/
theorem invariant_of (meets : State → Label → Prop) (inv : State → Prop)
    (initially : ∀ s, init s → inv s)
    (preserved : ∀ s label s', inv s → meets s label → step s label s' → inv s')
    (run : Run init step steps s) (all : ∀ before ∈ steps, meets before.1 before.2) : inv s := by
  induction run with
  | start initial => exact initially _ initial
  | snoc earlier next ih =>
    refine preserved _ _ _ (ih fun before member => ?_) ?_ next
    · exact all before (List.mem_append_left _ member)
    · exact all _ (List.mem_append_right _ (List.mem_singleton_self _))

/-- An invariant that holds initially and is kept by every step holds at the end
of every run. -/
theorem invariant (inv : State → Prop) (initially : ∀ s, init s → inv s)
    (preserved : ∀ s label s', inv s → step s label s' → inv s')
    (run : Run init step steps s) : inv s := by
  induction run with
  | start initial => exact initially _ initial
  | snoc _ next ih => exact preserved _ _ _ ih next

/-- Forward simulation: when every step is matched by an abstract step with the
same label, every run is matched by an abstract run with the same labels. -/
theorem simulation {Abstract : Type u} {abstractStep : Abstract → Label → Abstract → Prop}
    (related : State → Abstract → Prop) {a₀ : Abstract} (initially : ∀ s, init s → related s a₀)
    (matched : ∀ s label s' a, related s a → step s label s' →
      ∃ a', abstractStep a label a' ∧ related s' a')
    (run : Run init step steps s) :
    ∃ abstractSteps a, Run (fun start => start = a₀) abstractStep abstractSteps a ∧
      abstractSteps.map Prod.snd = steps.map Prod.snd ∧ related s a := by
  induction run with
  | start initial => exact ⟨[], a₀, .start rfl, rfl, initially _ initial⟩
  | @snoc steps s s' label earlier next ih =>
    obtain ⟨abstractSteps, a, abstractRun, same, holds⟩ := ih
    obtain ⟨a', abstractNext, holds'⟩ := matched s label s' a holds next
    refine ⟨abstractSteps ++ [(a, label)], a', abstractRun.snoc abstractNext, ?_, holds'⟩
    rw [List.map_append, List.map_append, same]
    rfl

/-- The state that a list of labels leads to, where each step is a function of its label. -/
def play (next : State → Label → Option State) : State → List Label → Option State
  | s, [] => some s
  | s, label :: labels => (next s label).bind fun s' => play next s' labels

/-- What is played from the end of a run continues it. -/
theorem of_play {next : State → Label → Option State}
    (sound : ∀ {s label s'}, next s label = some s' → step s label s')
    {labels : List Label} {s' : State}
    (run : Run init step steps s) (played : play next s labels = some s') :
    ∃ more, more.map Prod.snd = labels ∧ Run init step (steps ++ more) s' := by
  induction labels generalizing steps s with
  | nil =>
    cases played
    exact ⟨[], rfl, by rwa [List.append_nil]⟩
  | cons label labels ih =>
    obtain ⟨s₁, first, rest⟩ := Option.bind_eq_some_iff.mp played
    obtain ⟨more, same, run⟩ := ih (run.snoc (sound first)) rest
    refine ⟨(s, label) :: more, by rw [List.map_cons, same], ?_⟩
    rwa [List.append_assoc] at run

end Run

end Xv6.Lib
