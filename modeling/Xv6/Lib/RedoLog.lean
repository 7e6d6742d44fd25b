import Mathlib

/-!
Redo logging over any store: groups of writes, and stores from which a listed
group can still be installed.

Owns: what a list of writes and a list of groups make of a store, the stores a
redo pass turns into a given target (`Recoverable`), and that such a pass may
stop after any of its writes and be started again.

Does not own: how the list is encoded, when a group commits, or caches.
-/

namespace Xv6.Lib

open Function

universe u v

variable {Address : Type u} {Value : Type v}

/-- A store on which installing the listed addresses from their log slots gives
the target on every home address: slot `i` holds the target value of the `i`-th
listed address, and a home address that is not listed has its target value. -/
structure Recoverable (home : Address → Prop) (slot : Nat → Address) (listed : List Address)
    (store target : Address → Value) : Prop where
  listedHome : ∀ address ∈ listed, home address
  slotAway : ∀ i < listed.length, ¬ home (slot i)
  slotValue : ∀ (i : Nat) (inside : i < listed.length), store (slot i) = target listed[i]
  rest : ∀ address, home address → address ∉ listed → store address = target address

namespace Recoverable

variable {home : Address → Prop} {slot : Nat → Address} {listed : List Address}
  {store store' target : Address → Value}

/-- With nothing listed, recoverable means equal to the target at home. -/
theorem of_nil (same : ∀ address, home address → store address = target address) :
    Recoverable home slot [] store target where
  listedHome := by simp
  slotAway := by simp
  slotValue := by simp
  rest := fun address isHome _ => same address isHome

end Recoverable

variable [DecidableEq Address]

/-- The store after the writes, the last write to an address winning. -/
def applyWrites (store : Address → Value) (writes : List (Address × Value)) : Address → Value :=
  writes.foldl (fun store write => update store write.1 write.2) store

/-- The store after whole groups of writes. -/
def applyGroups (store : Address → Value) (groups : List (List (Address × Value))) :
    Address → Value :=
  groups.foldl applyWrites store

theorem applyWrites_append (store : Address → Value) (first second : List (Address × Value)) :
    applyWrites store (first ++ second) = applyWrites (applyWrites store first) second :=
  List.foldl_append

@[simp] theorem applyWrites_nil (store : Address → Value) : applyWrites store [] = store := rfl

@[simp] theorem applyWrites_singleton (store : Address → Value) (write : Address × Value) :
    applyWrites store [write] = update store write.1 write.2 := rfl

/-- An address that no write names keeps its value. -/
theorem applyWrites_of_notMem (store : Address → Value) {writes : List (Address × Value)}
    {address : Address} (unnamed : address ∉ writes.map Prod.fst) :
    applyWrites store writes address = store address := by
  induction writes generalizing store with
  | nil => rfl
  | cons write rest ih =>
    rw [List.map_cons, List.mem_cons, not_or] at unnamed
    have first : update store write.1 write.2 address = store address :=
      update_of_ne unnamed.1 _ _
    rw [← first]
    exact ih _ unnamed.2

theorem applyGroups_concat (store : Address → Value) (groups : List (List (Address × Value)))
    (last : List (Address × Value)) :
    applyGroups store (groups ++ [last]) = applyWrites (applyGroups store groups) last := by
  simp [applyGroups]

namespace Recoverable

variable {home : Address → Prop} {slot : Nat → Address} {listed : List Address}
  {store target : Address → Value}

/-- Installing one slot keeps the store recoverable and the listed address has
its target value from then on. -/
theorem install (recoverable : Recoverable home slot listed store target) {i : Nat}
    (inside : i < listed.length) :
    Recoverable home slot listed (update store listed[i] (store (slot i))) target where
  listedHome := recoverable.listedHome
  slotAway := recoverable.slotAway
  slotValue := by
    intro j below
    have away : slot j ≠ listed[i] := by
      intro same
      apply recoverable.slotAway j below
      rw [same]
      exact recoverable.listedHome _ (List.getElem_mem inside)
    rw [update_of_ne away]
    exact recoverable.slotValue j below
  rest := by
    intro address isHome unlisted
    have other : address ≠ listed[i] := fun same => unlisted (same ▸ List.getElem_mem inside)
    rw [update_of_ne other]
    exact recoverable.rest address isHome unlisted

/-- What installing slot `i` does to addresses already at their target. -/
theorem install_target (recoverable : Recoverable home slot listed store target) {i : Nat}
    (inside : i < listed.length) {address : Address}
    (done : address = listed[i] ∨ store address = target address) :
    update store listed[i] (store (slot i)) address = target address := by
  by_cases same : address = listed[i]
  · rw [same, update_self]
    exact recoverable.slotValue i inside
  · rw [update_of_ne same]
    exact done.resolve_left same

/-- Once every listed address is installed the whole home area is at its target. -/
theorem home_eq (recoverable : Recoverable home slot listed store target)
    (installed : ∀ (i : Nat) (inside : i < listed.length), store listed[i] = target listed[i])
    {address : Address} (isHome : home address) : store address = target address := by
  by_cases member : address ∈ listed
  · obtain ⟨i, inside, same⟩ := List.mem_iff_getElem.mp member
    rw [← same]
    exact installed i inside
  · exact recoverable.rest address isHome member

end Recoverable

end Xv6.Lib
