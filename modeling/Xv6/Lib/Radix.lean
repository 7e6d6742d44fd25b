import Mathlib.Data.List.Induction
import Mathlib.Logic.Function.Basic

/-!
Radix trees in memory.

Owns: the node a path of indices leads to, and how that changes when one entry of a
node is stored or a blank node is hung below another.

Does not own: what an entry looks like. An entry that points to a node is one that
`child` decodes.
-/

namespace Xv6.Lib.Radix

open Function

variable {Addr Index Entry : Type*} (child : Entry → Option Addr)

/-- The node at the end of a path. -/
def descend (mem : Addr → Index → Entry) : Addr → List Index → Option Addr
  | node, [] => some node
  | node, i :: path => (child (mem node i)).bind fun next => descend mem next path

variable {child} {mem mem' : Addr → Index → Entry} {root node fresh : Addr} {path : List Index}
  {i : Index} {entry : Entry}

theorem descend_append (front back : List Index) :
    descend child mem root (front ++ back) =
      (descend child mem root front).bind fun node => descend child mem node back := by
  induction front generalizing root with
  | nil => rfl
  | cons i front ih =>
    simp only [List.cons_append, descend]
    cases child (mem root i) with
    | none => rfl
    | some next => exact ih

theorem descend_snoc (path : List Index) (i : Index) :
    descend child mem root (path ++ [i]) =
      (descend child mem root path).bind fun node => child (mem node i) := by
  rw [descend_append]
  congr
  funext node
  simp only [descend]
  cases child (mem node i) <;> rfl

/-- Two memories lead to the same node when they agree on the pointers met before. -/
theorem descend_congr
    (agree : ∀ front i node, front ++ [i] <+: path → descend child mem root front = some node →
      child (mem' node i) = child (mem node i)) :
    descend child mem' root path = descend child mem root path := by
  induction path using List.reverseRecOn with
  | nil => rfl
  | append_singleton path i ih =>
    have before : descend child mem' root path = descend child mem root path := by
      apply ih
      intro front j node isPrefix
      exact agree front j node (isPrefix.trans (List.prefix_append path [i]))
    rw [descend_snoc, descend_snoc, before]
    cases reached : descend child mem root path with
    | none => rfl
    | some node => exact agree path i node (List.prefix_refl _) reached

variable [DecidableEq Addr] [DecidableEq Index]

/-- One entry of one node. -/
def store (mem : Addr → Index → Entry) (node : Addr) (i : Index) (entry : Entry) :
    Addr → Index → Entry :=
  update mem node (update (mem node) i entry)

@[simp] theorem store_self : store mem node i entry node i = entry := by
  rw [store, update_self, update_self]

theorem store_other_index {j : Index} (different : j ≠ i) :
    store mem node i entry node j = mem node j := by
  rw [store, update_self, update_of_ne different]

theorem store_other_node {other : Addr} (different : other ≠ node) :
    store mem node i entry other = mem other := by
  rw [store, update_of_ne different]

theorem store_other {other : Addr} {j : Index} (different : ¬(other = node ∧ j = i)) :
    store mem node i entry other j = mem other j := by
  by_cases same : other = node
  · subst same
    exact store_other_index fun sameIndex => different ⟨rfl, sameIndex⟩
  · rw [store_other_node same]

/-- A store into a node that no shorter path leads to. -/
theorem descend_store
    (unreached : ∀ front, front.length < path.length → descend child mem root front ≠ some node) :
    descend child (store mem node i entry) root path = descend child mem root path := by
  apply descend_congr
  intro front j other isPrefix reached
  have shorter : front.length < path.length := by
    have bound := isPrefix.length_le
    rw [List.length_append] at bound
    exact bound
  have different : other ≠ node := by
    intro same
    exact unreached front shorter (same ▸ reached)
  rw [store_other_node different]

/-- Hang the node `fresh`, with entries `blank`, below entry `i` of `node`. -/
def graft (mem : Addr → Index → Entry) (node : Addr) (i : Index) (entry : Entry) (fresh : Addr)
    (blank : Index → Entry) : Addr → Index → Entry :=
  store (update mem fresh blank) node i entry

/-- After a graft one path more leads somewhere. -/
theorem descend_graft {depth : Nat} {spot : List Index} {blank : Index → Entry}
    (reached : descend child mem root spot = some node)
    (vacant : child (mem node i) = none)
    (once : ∀ path, path.length ≤ depth → descend child mem root path = some node → path = spot)
    (unreached : ∀ path, path.length ≤ depth → descend child mem root path ≠ some fresh)
    (different : node ≠ fresh)
    (points : child entry = some fresh) (isBlank : ∀ j, child (blank j) = none)
    (path : List Index) (short : path.length ≤ depth) :
    descend child (graft mem node i entry fresh blank) root path =
      if path = spot ++ [i] then some fresh else descend child mem root path := by
  induction path using List.reverseRecOn with
  | nil => rw [if_neg (by simp), descend, descend]
  | append_singleton path j ih =>
    have shorter : path.length ≤ depth := by
      rw [List.length_append] at short
      omega
    rw [descend_snoc, ih shorter]
    by_cases below : path = spot ++ [i]
    · -- below the new node there is nothing, before and after
      have longer : path ++ [j] ≠ spot ++ [i] := by
        intro same
        have lengths := congrArg List.length (below ▸ same)
        simp at lengths
      have entryOf : graft mem node i entry fresh blank fresh j = blank j := by
        rw [graft, store_other_node different.symm, update_self]
      rw [if_pos below, if_neg longer, Option.bind_some, entryOf, isBlank, descend_snoc, below,
        descend_snoc, reached, Option.bind_some, vacant, Option.bind_none]
    · rw [if_neg below, descend_snoc]
      cases at_ : descend child mem root path with
      | none =>
        have other : path ++ [j] ≠ spot ++ [i] := by
          intro same
          have isSpot := List.append_inj_left' same rfl
          rw [isSpot, reached] at at_
          contradiction
        rw [if_neg other, Option.bind_none, Option.bind_none]
      | some found =>
        rw [Option.bind_some, Option.bind_some]
        have notFresh : found ≠ fresh := by
          intro same
          exact unreached path shorter (same ▸ at_)
        by_cases here : found = node ∧ j = i
        · obtain ⟨rfl, rfl⟩ := here
          have isSpot := once path shorter at_
          rw [isSpot, if_pos rfl, graft, store_self, points]
        · have other : path ++ [j] ≠ spot ++ [i] := by
            intro same
            have isSpot := List.append_inj_left' same rfl
            have isIndex := List.append_inj_right' same rfl
            rw [isSpot, reached] at at_
            exact here ⟨(Option.some.inj at_).symm, by simpa using isIndex⟩
          rw [if_neg other, graft, store_other here, update_of_ne notFresh]

end Xv6.Lib.Radix
