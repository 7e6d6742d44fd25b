import Mathlib

/-!
Lists kept in the order of last use.

Owns: how long ago a history touched an item, the order by last touch with a first
order for the items never touched, that moving the touched item to the front of a list
keeps the list in that order, and which item a scan from the back finds.

Does not own: what an event is, or how a list is stored.
-/

namespace Xv6.Lib.Recency

variable {Event Item : Type*}

/-- The number of events since the last one that touched an item; the length of the
history for an item that was never touched. -/
def age (touches : Event → Item → Bool) (history : List Event) (a : Item) : Nat :=
  history.reverse.findIdx fun event => touches event a

/-- `a` was touched after `b`, or neither ever was and `a` comes before `b` in the list
`first`. -/
def Newer [DecidableEq Item] (touches : Event → Item → Bool) (first : List Item)
    (history : List Event)
    (a b : Item) : Prop :=
  age touches history a < age touches history b ∨
    age touches history a = age touches history b ∧ first.idxOf a < first.idxOf b

section Newer

variable {touches : Event → Item → Bool} {first order front back : List Item} {history : List Event}
  {event : Event} {a b : Item}

theorem age_snoc (history : List Event) (event : Event) (a : Item) :
    age touches (history ++ [event]) a = if touches event a then 0
      else age touches history a + 1 := by
  unfold age
  rw [List.reverse_append, List.reverse_singleton, List.singleton_append, List.findIdx_cons]
  cases touches event a <;> rfl

variable [DecidableEq Item]

/-- At first the order is the given one. -/
theorem pairwise_nil (nodup : first.Nodup) : first.Pairwise (Newer touches first []) := by
  rw [List.pairwise_iff_getElem]
  intro i j iLess jLess less
  right
  refine ⟨rfl, ?_⟩
  rw [nodup.idxOf_getElem i iLess, nodup.idxOf_getElem j jLess]
  exact less

theorem Newer.snoc (newer : Newer touches first history a b) (aKept : touches event a = false)
    (bKept : touches event b = false) : Newer touches first (history ++ [event]) a b := by
  unfold Newer at newer ⊢
  rw [age_snoc, age_snoc, aKept, bKept]
  simpa using newer

/-- An event that touches nothing. -/
theorem pairwise_untouched (sorted : order.Pairwise (Newer touches first history))
    (untouched : ∀ a, touches event a = false) :
    order.Pairwise (Newer touches first (history ++ [event])) :=
  sorted.imp fun newer => newer.snoc (untouched _) (untouched _)

/-- The one item that is touched moves to the front. -/
theorem pairwise_touched (sorted : (front ++ a :: back).Pairwise (Newer touches first history))
    (nodup : (front ++ a :: back).Nodup) (only : ∀ b, touches event b = true ↔ b = a) :
    (a :: (front ++ back)).Pairwise (Newer touches first (history ++ [event])) := by
  have middle := List.nodup_cons.mp (List.nodup_middle.mp nodup)
  have kept : ∀ b ∈ front ++ back, touches event b = false := by
    intro b member
    apply Bool.eq_false_of_not_eq_true
    intro touched
    exact middle.1 ((only b).mp touched ▸ member)
  have rest : (front ++ back).Pairwise (Newer touches first history) :=
    sorted.sublist (List.Sublist.append_left (List.sublist_cons_self a back) front)
  rw [List.pairwise_cons]
  constructor
  · intro b member
    left
    rw [age_snoc, age_snoc, (only a).mpr rfl, kept b member]
    simp
  · exact rest.imp_of_mem fun aMember bMember newer => newer.snoc (kept _ aMember) (kept _ bMember)

/-- A scan from the back finds the oldest item with a property. -/
theorem newer_of_find (sorted : order.Pairwise (Newer touches first history))
    {property : Item → Bool}
    (found : order.reverse.find? property = some a) (member : b ∈ order) (holds : property b = true)
    (different : b ≠ a) : Newer touches first history b a := by
  obtain ⟨_, before, after, split, others⟩ := List.find?_eq_some_iff_append.mp found
  have forward : order = after.reverse ++ a :: before.reverse := by
    have reversed := congrArg List.reverse split
    simpa using reversed
  rw [forward] at sorted member
  rcases List.mem_append.mp member with early | later
  · exact (List.pairwise_append.mp sorted).2.2 b early a List.mem_cons_self
  · rcases List.mem_cons.mp later with same | behind
    · exact absurd same different
    · have missed := others b (List.mem_reverse.mp behind)
      simp [holds] at missed

end Newer

end Xv6.Lib.Recency
