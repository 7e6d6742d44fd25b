import Xv6.Kernel.Log.Buffers

/-!
A run into "bget: no buffers".

Owns: the steps of operations as a function, and that three operations of nine blocks
each exhaust the cache.

Does not own: operations that log fewer blocks.
-/

namespace Xv6.Kernel.Log

open Xv6.Lib Xv6.Kernel.Bio

/-- `ROOTDEV` -/
def rootDev : UInt32 := 1

instance (limit : Nat) (s : Ops) : (action : CacheAction) → Decidable (Permitted limit s action)
  | .get _ _ => inferInstanceAs (Decidable (_ ∧ _))
  | .logWrite _ _ => inferInstanceAs (Decidable (_ ≤ _))
  | .endOp _ => inferInstanceAs (Decidable (∀ _, _))
  | .acquire _ | .fill _ _ | .store _ _ _ | .unlock _ _ | .release _ | .beginOp _ | .commit _ =>
    inferInstanceAs (Decidable True)

/-- The steps of such operations, as a function. -/
def Ops.next (limit : Nat) (s : Ops) (action : CacheAction) : Option Ops :=
  if Permitted limit s action then
    (s.machine.next mkfsGeometry rootDev action).map fun machine => ⟨machine, s.note action⟩
  else none

/-- What is permitted with a smaller limit is permitted with a larger one. -/
theorem Permitted.mono {limit limit' : Nat} {s : Ops} {action : CacheAction} (le : limit ≤ limit')
    (permitted : Permitted limit s action) : Permitted limit' s action := by
  cases action with
  | logWrite p b => exact Nat.le_trans permitted le
  | _ => exact permitted

theorem Ops.next_step {limit limit' : Nat} (le : limit ≤ limit') {s t : Ops} {action : CacheAction}
    (stepped : s.next limit action = some t) : OpStep mkfsGeometry rootDev limit' s action t := by
  obtain ⟨permitted, stepped⟩ := Option.ite_none_right_eq_some.mp stepped
  obtain ⟨machine, moved, rfl⟩ := Option.map_eq_some_iff.mp stepped
  exact ⟨permitted.mono le, Machine.next_step moved, rfl⟩

/-- Three operations log blocks 100 to 126, nine each, and lock one more buffer each. -/
def threeNines : List CacheAction :=
  [.beginOp 0, .beginOp 1, .beginOp 2] ++
    (List.finRange 27).flatMap (fun i =>
      logOne (Fin.ofNat nProc (i.val / 9)) (UInt32.ofNat (100 + i.val)) (i.castLE (by decide))) ++
    [.get 0 200, .acquire 0, .get 1 201, .acquire 1, .get 2 202, .acquire 2]

/-- Then all buffers are in use, and the first operation needs another. -/
theorem exists_noBuffers {limit : Nat} (large : 9 ≤ limit) :
    ∃ steps s, Run Ops.Start (OpStep mkfsGeometry rootDev limit) steps s ∧
      NoBuffers mkfsGeometry rootDev limit s := by
  have ready : (Run.play (Ops.next 9) ⟨bootedMachine, fun _ => ∅⟩ threeNines).any (fun s =>
      s.machine.commit.isNone = true ∧ s.machine.doing 0 = .running ∧ Permitted 9 s (.get 0 203) ∧
        (bget s.machine.cache rootDev 203).isNone = true) = true := by
    decide +kernel
  obtain ⟨s, played, ready⟩ := (Option.any_eq_true _ _).mp ready
  obtain ⟨noCommit, idle, permitted, full⟩ := of_decide_eq_true ready
  have start : Run Ops.Start (OpStep mkfsGeometry rootDev limit) [] ⟨bootedMachine, fun _ => ∅⟩ :=
    .start ⟨bootedMachine_idle, fun _ => rfl, fun _ => rfl⟩
  obtain ⟨steps, _, run⟩ := start.of_play (Ops.next_step large) played
  have outside : s.machine.Outside 0 := by
    intro pc inside
    rw [inside] at noCommit
    cases noCommit
  exact ⟨steps, s, run, .get outside idle (permitted.mono large)
    (Option.isNone_iff_eq_none.mp full)⟩

/-- `bget` always finds a buffer exactly if no operation logs more than
`MAXOPBLOCKS - 2` blocks. -/
theorem buffers_suffice_iff (limit : Nat) :
    (∀ steps s, Run Ops.Start (OpStep mkfsGeometry rootDev limit) steps s →
      ¬ NoBuffers mkfsGeometry rootDev limit s) ↔ limit + 2 ≤ maxOpBlocks := by
  constructor
  · intro suffice
    by_contra large
    have nine : 9 ≤ limit := by
      unfold maxOpBlocks at large
      omega
    obtain ⟨steps, s, run, panics⟩ := exists_noBuffers nine
    exact suffice steps s run panics
  · exact fun small steps s run => not_noBuffers (by decide) small run

/-- With `MAXOPBLOCKS` blocks for each operation the panic is reached. -/
theorem bget_panics : ∃ steps s, Run Ops.Start (OpStep mkfsGeometry rootDev maxOpBlocks) steps s ∧
    NoBuffers mkfsGeometry rootDev maxOpBlocks s :=
  exists_noBuffers (by decide)

end Xv6.Kernel.Log
