import Mathlib

/-!
Ring buffers with free-running counters.

Owns: the contents of a ring between two counters that are taken modulo its
capacity and wrap at a multiple of it, and how they change when an item is put in or
taken out.

Does not own: what the items are.
-/

namespace Xv6.Lib

open Function

variable {Item : Type} {cap start count : Nat} {data : Nat → Item}

/-- The `count` items from position `start` on. -/
def ringContents (cap : Nat) (data : Nat → Item) (start count : Nat) : List Item :=
  (List.range count).map fun k => data ((start + k) % cap)

@[simp] theorem length_ringContents (cap : Nat) (data : Nat → Item) (start count : Nat) :
    (ringContents cap data start count).length = count := by
  rw [ringContents, List.length_map, List.length_range]

/-- Only the residue of the start matters. -/
theorem ringContents_congr {start' : Nat} (same : start % cap = start' % cap) :
    ringContents cap data start count = ringContents cap data start' count := by
  unfold ringContents
  apply List.map_congr_left
  intro k _
  rw [Nat.add_mod, same, ← Nat.add_mod]

/-- An item put behind the last one. -/
theorem ringContents_push (room : count < cap) (item : Item) :
    ringContents cap (update data ((start + count) % cap) item) start (count + 1) =
      ringContents cap data start count ++ [item] := by
  unfold ringContents
  rw [List.range_succ, List.map_append, List.map_singleton, update_self]
  congr 1
  apply List.map_congr_left
  intro k inside
  rw [List.mem_range] at inside
  apply update_of_ne
  intro same
  -- two positions less than the capacity apart have different residues
  have first := Nat.div_add_mod (start + k) cap
  have second := Nat.div_add_mod (start + count) cap
  rw [same] at first
  have step : cap * ((start + count) / cap) = cap * ((start + k) / cap) + (count - k) := by omega
  have divides : cap ∣ count - k :=
    (Nat.dvd_add_right (Dvd.intro _ rfl)).mp (step ▸ Dvd.intro _ rfl)
  have := Nat.le_of_dvd (by omega) divides
  omega

/-- The first item taken out. -/
theorem ringContents_pop :
    ringContents cap data start (count + 1) =
      data (start % cap) :: ringContents cap data (start + 1) count := by
  unfold ringContents
  rw [List.range_succ_eq_map, List.map_cons, List.map_map, Nat.add_zero]
  congr 1
  apply List.map_congr_left
  intro k _
  change data ((start + (k + 1)) % cap) = data ((start + 1 + k) % cap)
  rw [Nat.add_assoc, Nat.add_comm k 1]

section Wrapping

variable {n : Nat} {r w : BitVec n}

/-- The items between two counters that wrap. -/
def wrapped (cap : Nat) (data : Nat → Item) (r w : BitVec n) : List Item :=
  ringContents cap data r.toNat (w - r).toNat

theorem length_wrapped : (wrapped cap data r w).length = (w - r).toNat := length_ringContents ..

theorem toNat_one (wide : 1 < 2 ^ n) : (1 : BitVec n).toNat = 1 := Nat.mod_eq_of_lt wide

theorem wrapped_push (divides : cap ∣ 2 ^ n) (narrow : cap < 2 ^ n) (room : (w - r).toNat < cap)
    (item : Item) :
    wrapped cap (update data (w.toNat % cap) item) r (w + 1) = wrapped cap data r w ++ [item] := by
  have count : (w + 1 - r).toNat = (w - r).toNat + 1 := by
    rw [show w + 1 - r = w - r + 1 by ring, BitVec.toNat_add, toNat_one (by omega)]
    exact Nat.mod_eq_of_lt (by omega)
  have position : w.toNat % cap = (r.toNat + (w - r).toNat) % cap := by
    rw [← Nat.mod_mod_of_dvd (r.toNat + _) divides, ← BitVec.toNat_add, add_sub_cancel]
  unfold wrapped
  rw [count, position, ringContents_push room]

theorem wrapped_pop (divides : cap ∣ 2 ^ n) (present : w ≠ r) :
    wrapped cap data r w = data (r.toNat % cap) :: wrapped cap data (r + 1) w := by
  have positive : 0 < (w - r).toNat := by
    refine Nat.pos_of_ne_zero fun absent => present ?_
    exact sub_eq_zero.mp (BitVec.eq_of_toNat_eq absent)
  have limit := (w - r).isLt
  have one : (1 : BitVec n).toNat = 1 := toNat_one (by omega)
  have count : (w - r).toNat = (w - (r + 1)).toNat + 1 := by
    generalize difference : w - r = d at positive limit
    have less : w - (r + 1) = d - 1 := by
      rw [← difference]
      ring
    rw [less, BitVec.toNat_sub_of_le (by rw [BitVec.le_def, one]; omega), one]
    omega
  have next : (r + 1).toNat % cap = (r.toNat + 1) % cap := by
    rw [BitVec.toNat_add, one, Nat.mod_mod_of_dvd _ divides]
  unfold wrapped
  rw [count, ringContents_pop, ringContents_congr next]

end Wrapping

end Xv6.Lib
