import Mathlib.Algebra.BigOperators.Group.Multiset.Basic
import Mathlib.Algebra.Order.Group.Nat
import Mathlib.Algebra.Order.Ring.Nat
import Mathlib.Data.Multiset.AddSub
import Mathlib.Logic.Equiv.Basic
import Mathlib.Tactic.Ring

/-!
Full binary trees of least weighted path length.

Owns: the weighted path length of a tree, the exchange of two of its leaves, the
merging of two sibling leaves, and the bound that merging two smallest weights
again and again gives for every tree with those weights.

Does not own: any data structure that finds the smallest weights.
-/

namespace Xv6.Lib

open Function

/-- A binary tree in which every inner node has two children. -/
inductive FullTree (α : Type*) where
  | leaf (label : α)
  | node (left right : FullTree α)

namespace FullTree

variable {α β : Type*}

/-- The labels of the leaves, with multiplicity. -/
def leaves : FullTree α → Multiset α
  | leaf label => {label}
  | node left right => left.leaves + right.leaves

def map (f : α → β) : FullTree α → FullTree β
  | leaf label => leaf (f label)
  | node left right => node (left.map f) (right.map f)

/-- The sum of weight times depth over the leaves of a tree that hangs at this depth. -/
def costAt (weight : α → Nat) (depth : Nat) : FullTree α → Nat
  | leaf label => weight label * depth
  | node left right => left.costAt weight (depth + 1) + right.costAt weight (depth + 1)

/-- The sum of weight times depth over the leaves. -/
def cost (weight : α → Nat) (t : FullTree α) : Nat := t.costAt weight 0

/-- The sum of the weights of the leaves. -/
def total (weight : α → Nat) (t : FullTree α) : Nat := (t.leaves.map weight).sum

section Cost

variable {weight : α → Nat}

@[simp] theorem total_leaf (label : α) : (leaf label).total weight = weight label := by
  simp [total, leaves]

@[simp] theorem total_node (left right : FullTree α) :
    (node left right).total weight = left.total weight + right.total weight := by
  simp [total, leaves]

theorem costAt_eq (t : FullTree α) (depth : Nat) :
    t.costAt weight depth = t.cost weight + depth * t.total weight := by
  induction t generalizing depth with
  | leaf label => simp [costAt, cost, Nat.mul_comm]
  | node left right inLeft inRight =>
    rw [cost, costAt, costAt, inLeft, inRight, inLeft (0 + 1), inRight (0 + 1), total_node]
    ring

@[simp] theorem cost_leaf (label : α) : (leaf label).cost weight = 0 := rfl

/-- An inner node adds the weight of what hangs below it. -/
theorem cost_node (left right : FullTree α) :
    (node left right).cost weight =
      left.cost weight + right.cost weight + (left.total weight + right.total weight) := by
  rw [cost, costAt, costAt_eq, costAt_eq]
  ring

theorem leaves_map (f : α → β) (t : FullTree α) : (t.map f).leaves = t.leaves.map f := by
  induction t with
  | leaf label => simp [map, leaves]
  | node left right inLeft inRight => simp [map, leaves, inLeft, inRight]

theorem total_map (f : α → β) (weight : β → Nat) (t : FullTree α) :
    (t.map f).total weight = t.total (weight ∘ f) := by
  rw [total, leaves_map, Multiset.map_map, total]

theorem cost_map (f : α → β) (weight : β → Nat) (t : FullTree α) :
    (t.map f).cost weight = t.cost (weight ∘ f) := by
  induction t with
  | leaf label => rfl
  | node left right inLeft inRight =>
    rw [map, cost_node, cost_node, inLeft, inRight, total_map, total_map]

theorem total_congr {weight' : α → Nat} {t : FullTree α}
    (same : ∀ label ∈ t.leaves, weight' label = weight label) :
    t.total weight' = t.total weight := by
  rw [total, total, Multiset.map_congr rfl same]

theorem cost_congr {weight' : α → Nat} {t : FullTree α}
    (same : ∀ label ∈ t.leaves, weight' label = weight label) :
    t.cost weight' = t.cost weight := by
  induction t with
  | leaf label => rfl
  | node left right inLeft inRight =>
    have leftSame : ∀ label ∈ left.leaves, weight' label = weight label :=
      fun label member => same label (Multiset.mem_add.mpr (.inl member))
    have rightSame : ∀ label ∈ right.leaves, weight' label = weight label :=
      fun label member => same label (Multiset.mem_add.mpr (.inr member))
    rw [cost_node, cost_node, inLeft leftSame, inRight rightSame, total_congr leftSame,
      total_congr rightSame]

end Cost

/-! ### The depth of a label -/

theorem notMem_left {left right : FullTree α} (nodup : (node left right).leaves.Nodup) {label : α}
    (member : label ∈ right.leaves) : label ∉ left.leaves := fun inLeft =>
  Multiset.disjoint_left.mp (Multiset.nodup_add.mp nodup).2.2 inLeft member

def height : FullTree α → Nat
  | leaf _ => 0
  | node left right => max left.height right.height + 1

theorem eq_leaf_of_height {t : FullTree α} (flat : t.height = 0) : ∃ label, t = leaf label := by
  cases t with
  | leaf label => exact ⟨label, rfl⟩
  | node left right => exact absurd flat (Nat.succ_ne_zero _)

theorem height_map (f : α → β) (t : FullTree α) : (t.map f).height = t.height := by
  induction t with
  | leaf _ => rfl
  | node left right inLeft inRight => rw [map, height, height, inLeft, inRight]

section Depth

variable [DecidableEq α] {weight : α → Nat}

/-- How deep a leaf lies, for a label that occurs once. -/
def depthOf (label : α) : FullTree α → Nat
  | leaf _ => 0
  | node left right =>
    if label ∈ left.leaves then left.depthOf label + 1 else right.depthOf label + 1

theorem depthOf_le_height (label : α) (t : FullTree α) : t.depthOf label ≤ t.height := by
  induction t with
  | leaf _ => exact le_rfl
  | node left right inLeft inRight =>
    rw [depthOf, height]
    split <;> omega

theorem cost_eq_sum {t : FullTree α} (nodup : t.leaves.Nodup) :
    t.cost weight = (t.leaves.map fun label => weight label * t.depthOf label).sum := by
  induction t with
  | leaf label => simp [leaves, depthOf]
  | node left right inLeft inRight =>
    obtain ⟨leftNodup, rightNodup, -⟩ := Multiset.nodup_add.mp nodup
    have leftTerms : (left.leaves.map fun label =>
        weight label * (node left right).depthOf label).sum =
        left.cost weight + left.total weight := by
      rw [inLeft leftNodup, total, ← Multiset.sum_map_add]
      refine congrArg _ (Multiset.map_congr rfl fun label member => ?_)
      rw [depthOf, if_pos member]
      ring
    have rightTerms : (right.leaves.map fun label =>
        weight label * (node left right).depthOf label).sum =
        right.cost weight + right.total weight := by
      rw [inRight rightNodup, total, ← Multiset.sum_map_add]
      refine congrArg _ (Multiset.map_congr rfl fun label member => ?_)
      rw [depthOf, if_neg (notMem_left nodup member)]
      ring
    rw [cost_node, leaves, Multiset.map_add, Multiset.sum_add, leftTerms, rightTerms]
    ring

theorem cost_exchange_le {t : FullTree α} (nodup : t.leaves.Nodup) {light heavy : α}
    (hasLight : light ∈ t.leaves) (hasHeavy : heavy ∈ t.leaves)
    (lighter : weight light ≤ weight heavy) (deeper : t.depthOf light ≤ t.depthOf heavy) :
    (t.map (Equiv.swap light heavy)).cost weight ≤ t.cost weight := by
  by_cases same : light = heavy
  · subst same
    rw [cost_map]
    exact (cost_congr fun label _ => by simp).le
  obtain ⟨others, isLight⟩ := Multiset.exists_cons_of_mem hasLight
  rw [isLight, Multiset.mem_cons] at hasHeavy
  obtain ⟨rest, isHeavy⟩ := Multiset.exists_cons_of_mem (hasHeavy.resolve_left (Ne.symm same))
  subst isHeavy
  have distinct := nodup
  rw [isLight, Multiset.nodup_cons, Multiset.nodup_cons, Multiset.mem_cons, not_or] at distinct
  obtain ⟨⟨-, lightOut⟩, heavyOut, -⟩ := distinct
  -- only the two exchanged terms change
  have kept : (rest.map fun label => weight (Equiv.swap light heavy label) * t.depthOf label) =
      rest.map fun label => weight label * t.depthOf label := by
    refine Multiset.map_congr rfl fun label member => ?_
    rw [Equiv.swap_apply_of_ne_of_ne (ne_of_mem_of_not_mem member lightOut)
      (ne_of_mem_of_not_mem member heavyOut)]
  rw [cost_map, cost_eq_sum nodup, cost_eq_sum nodup, isLight]
  simp only [Multiset.map_cons, Multiset.sum_cons, Function.comp, Equiv.swap_apply_left,
    Equiv.swap_apply_right, kept]
  have exchanged := mul_add_mul_le_mul_add_mul lighter deeper
  omega

end Depth

/-! ### Merging sibling leaves -/

/-- The second tree is the first with two sibling leaves made one. -/
inductive Merges (x y : α) : FullTree α → FullTree α → Prop
  | here : Merges x y (node (leaf x) (leaf y)) (leaf x)
  | left {t t' : FullTree α} (merged : Merges x y t t') (right : FullTree α) :
      Merges x y (node t right) (node t' right)
  | right {t t' : FullTree α} (merged : Merges x y t t') (left : FullTree α) :
      Merges x y (node left t) (node left t')

section Merge

variable {x y : α} {t t' : FullTree α} {weight : α → Nat}

theorem Merges.leaves (merges : Merges x y t t') :
    t.leaves = y ::ₘ t'.leaves ∧ x ∈ t'.leaves := by
  induction merges with
  | here => exact ⟨Multiset.add_comm {x} {y}, Multiset.mem_singleton_self x⟩
  | left _ right ih =>
    rw [FullTree.leaves, FullTree.leaves, ih.1, Multiset.cons_add]
    exact ⟨rfl, Multiset.mem_add.mpr (.inl ih.2)⟩
  | right _ left ih =>
    rw [FullTree.leaves, FullTree.leaves, ih.1, Multiset.add_cons]
    exact ⟨rfl, Multiset.mem_add.mpr (.inr ih.2)⟩

theorem Merges.map (merges : Merges x y t t') (f : α → β) :
    Merges (f x) (f y) (t.map f) (t'.map f) := by
  induction merges with
  | here => exact .here
  | left _ right ih => exact .left ih _
  | right _ left ih => exact .right ih _

/-- The merged leaf carries both weights; one level is saved. -/
theorem Merges.cost (merges : Merges x y t t') (nodup : t.leaves.Nodup) {weight' : α → Nat}
    (same : ∀ label, label ≠ x → weight' label = weight label)
    (sum : weight' x = weight x + weight y) :
    t.cost weight = t'.cost weight' + (weight x + weight y) ∧
      t.total weight = t'.total weight' := by
  induction merges with
  | here => simp [cost_node, sum]
  | @left t t' merged right ih =>
    obtain ⟨leftNodup, -, apart⟩ := Multiset.nodup_add.mp nodup
    obtain ⟨costs, totals⟩ := ih leftNodup
    have hasX : x ∈ t.leaves := by
      rw [merged.leaves.1]
      exact Multiset.mem_cons_of_mem merged.leaves.2
    have other : ∀ label ∈ right.leaves, weight' label = weight label := fun label member =>
      same label fun isX => Multiset.disjoint_left.mp apart hasX (isX ▸ member)
    rw [cost_node, cost_node, total_node, total_node, costs, totals, cost_congr other,
      total_congr other]
    exact ⟨by ring, rfl⟩
  | @right t t' merged left ih =>
    obtain ⟨-, rightNodup, apart⟩ := Multiset.nodup_add.mp nodup
    obtain ⟨costs, totals⟩ := ih rightNodup
    have hasX : x ∈ t.leaves := by
      rw [merged.leaves.1]
      exact Multiset.mem_cons_of_mem merged.leaves.2
    have other : ∀ label ∈ left.leaves, weight' label = weight label := fun label member =>
      same label fun isX => Multiset.disjoint_left.mp apart (isX ▸ member) hasX
    rw [cost_node, cost_node, total_node, total_node, costs, totals, cost_congr other,
      total_congr other]
    exact ⟨by ring, rfl⟩

variable [DecidableEq α]

theorem exists_deepest (t : FullTree α) (nodup : t.leaves.Nodup) (inner : 0 < t.height) :
    ∃ x y t', Merges x y t t' ∧ t.depthOf x = t.height ∧ t.depthOf y = t.height := by
  induction t with
  | leaf label => exact absurd inner (lt_irrefl 0)
  | node left right inLeft inRight =>
    obtain ⟨leftNodup, rightNodup, -⟩ := Multiset.nodup_add.mp nodup
    by_cases flat : left.height = 0 ∧ right.height = 0
    · obtain ⟨x, rfl⟩ := eq_leaf_of_height flat.1
      obtain ⟨y, rfl⟩ := eq_leaf_of_height flat.2
      refine ⟨x, y, _, .here, ?_, ?_⟩ <;> simp [depthOf, height]
    -- the deepest leaves of the higher child
    by_cases higher : right.height ≤ left.height
    · obtain ⟨x, y, t', merges, depthX, depthY⟩ := inLeft leftNodup (by omega)
      obtain ⟨isLeaves, hasX⟩ := merges.leaves
      have hasX : x ∈ left.leaves := isLeaves ▸ Multiset.mem_cons_of_mem hasX
      have hasY : y ∈ left.leaves := isLeaves ▸ Multiset.mem_cons_self y _
      refine ⟨x, y, _, .left merges right, ?_, ?_⟩
      · rw [depthOf, if_pos hasX, depthX, height, max_eq_left higher]
      · rw [depthOf, if_pos hasY, depthY, height, max_eq_left higher]
    · obtain ⟨x, y, t', merges, depthX, depthY⟩ := inRight rightNodup (by omega)
      obtain ⟨isLeaves, hasX⟩ := merges.leaves
      have hasX : x ∈ right.leaves := isLeaves ▸ Multiset.mem_cons_of_mem hasX
      have hasY : y ∈ right.leaves := isLeaves ▸ Multiset.mem_cons_self y _
      have order : max left.height right.height = right.height := max_eq_right (by omega)
      refine ⟨x, y, _, .right merges left, ?_, ?_⟩
      · rw [depthOf, if_neg (notMem_left nodup hasX), depthX, height, order]
      · rw [depthOf, if_neg (notMem_left nodup hasY), depthY, height, order]

theorem depthOf_map_of_injective (e : Equiv.Perm α) (label : α) (t : FullTree α) :
    (t.map e).depthOf (e label) = t.depthOf label := by
  induction t with
  | leaf _ => rfl
  | node left right inLeft inRight =>
    have member : e label ∈ (left.map e).leaves ↔ label ∈ left.leaves := by
      rw [leaves_map]
      exact Multiset.mem_map_of_injective e.injective
    rw [map, depthOf, depthOf, inLeft, inRight]
    simp only [member]

theorem leaves_exchange (nodup : t.leaves.Nodup) {a b : α} (hasA : a ∈ t.leaves)
    (hasB : b ∈ t.leaves) : (t.map (Equiv.swap a b)).leaves = t.leaves := by
  rw [leaves_map]
  refine (Multiset.Nodup.ext (nodup.map (Equiv.swap a b).injective) nodup).mpr fun label => ?_
  have moved (c : α) (member : c ∈ t.leaves) : Equiv.swap a b c ∈ t.leaves := by
    rw [Equiv.swap_apply_def]
    split_ifs <;> assumption
  rw [Multiset.mem_map]
  constructor
  · rintro ⟨c, member, rfl⟩
    exact moved c member
  · intro member
    exact ⟨_, moved label member, Equiv.swap_apply_self a b label⟩

theorem exists_lightest_siblings (nodup : t.leaves.Nodup) {a b : α} (hasA : a ∈ t.leaves)
    (hasB : b ∈ t.leaves) (different : a ≠ b) (lightA : ∀ c ∈ t.leaves, weight a ≤ weight c)
    (lightB : ∀ c ∈ t.leaves, c ≠ a → weight b ≤ weight c) :
    ∃ s s', Merges a b s s' ∧ s.leaves = t.leaves ∧ s.cost weight ≤ t.cost weight := by
  have inner : 0 < t.height := by
    by_contra flat
    obtain ⟨label, rfl⟩ := eq_leaf_of_height (Nat.eq_zero_of_not_pos flat)
    exact different ((Multiset.mem_singleton.mp hasA).trans (Multiset.mem_singleton.mp hasB).symm)
  obtain ⟨x, y, t', merges, depthX, depthY⟩ := exists_deepest t nodup inner
  obtain ⟨isLeaves, hasX⟩ := merges.leaves
  have distinct : x ≠ y := by
    rintro rfl
    rw [isLeaves, Multiset.nodup_cons] at nodup
    exact nodup.1 hasX
  have hasX : x ∈ t.leaves := isLeaves ▸ Multiset.mem_cons_of_mem hasX
  have hasY : y ∈ t.leaves := isLeaves ▸ Multiset.mem_cons_self y _
  -- first `a` takes the place of `x`, then `b` that of the other sibling
  have firstLeaves := leaves_exchange nodup hasA hasX
  have firstCost := cost_exchange_le nodup hasA hasX (lightA x hasX)
    (depthX ▸ depthOf_le_height a t)
  have firstMerges := merges.map (Equiv.swap a x)
  rw [Equiv.swap_apply_right] at firstMerges
  have hasSibling : Equiv.swap a x y ∈ t.leaves := by
    rw [← firstLeaves, leaves_map]
    exact Multiset.mem_map_of_mem _ hasY
  have notA : Equiv.swap a x y ≠ a := by
    rw [Ne, Equiv.swap_apply_eq_iff, Equiv.swap_apply_left]
    exact distinct.symm
  have deepest : (t.map (Equiv.swap a x)).depthOf (Equiv.swap a x y) =
      (t.map (Equiv.swap a x)).height := by
    rw [depthOf_map_of_injective, height_map, depthY]
  rw [← firstLeaves] at nodup hasB hasSibling
  have secondMerges := firstMerges.map (Equiv.swap b (Equiv.swap a x y))
  rw [Equiv.swap_apply_right, Equiv.swap_apply_of_ne_of_ne different (Ne.symm notA)] at secondMerges
  refine ⟨_, _, secondMerges, (leaves_exchange nodup hasB hasSibling).trans firstLeaves, ?_⟩
  refine (cost_exchange_le nodup hasB hasSibling ?_ ?_).trans firstCost
  · exact lightB _ (firstLeaves ▸ hasSibling) notA
  · rw [deepest]
    exact depthOf_le_height _ _

end Merge

/-! ### Trees with distinct labels -/

/-- Every leaf marked with the way to it. -/
def tagged (way : List Bool) : FullTree α → FullTree (List Bool × α)
  | leaf label => leaf (way, label)
  | node left right => node (left.tagged (way ++ [false])) (right.tagged (way ++ [true]))

theorem map_tagged (way : List Bool) (t : FullTree α) : (t.tagged way).map Prod.snd = t := by
  induction t generalizing way with
  | leaf label => rfl
  | node left right inLeft inRight => rw [tagged, map, inLeft, inRight]

theorem isPrefix_of_mem_tagged {way : List Bool} {t : FullTree α} {label : List Bool × α}
    (member : label ∈ (t.tagged way).leaves) : way <+: label.1 := by
  induction t generalizing way with
  | leaf _ =>
    rw [tagged, leaves, Multiset.mem_singleton] at member
    rw [member]
  | node left right inLeft inRight =>
    rw [tagged, leaves, Multiset.mem_add] at member
    rcases member with member | member
    · exact (List.prefix_append _ _).trans (inLeft member)
    · exact (List.prefix_append _ _).trans (inRight member)

theorem tagged_nodup (way : List Bool) (t : FullTree α) : (t.tagged way).leaves.Nodup := by
  induction t generalizing way with
  | leaf label => exact Multiset.nodup_singleton _
  | node left right inLeft inRight =>
    refine Multiset.nodup_add.mpr ⟨inLeft _, inRight _, Multiset.disjoint_left.mpr ?_⟩
    intro label leftMember rightMember
    have leftWay := isPrefix_of_mem_tagged leftMember
    have rightWay := isPrefix_of_mem_tagged rightMember
    have same := List.prefix_of_prefix_length_le leftWay rightWay (by simp)
    simpa using same.eq_of_length (by simp)

/-! ### Merging weights -/

/-- Two smallest weights are taken out and their sum is put back, until one weight
is left; the sums add up to `cost`. -/
inductive Merging : Multiset Nat → Nat → Prop
  | last (weight : Nat) : Merging {weight} 0
  | round {a b cost : Nat} {rest : Multiset Nat} (first : a ≤ b) (second : ∀ c ∈ rest, b ≤ c)
      (later : Merging ((a + b) ::ₘ rest) cost) : Merging (a ::ₘ b ::ₘ rest) (cost + (a + b))

theorem exists_merged {t : FullTree Nat} {a b : Nat} {rest : Multiset Nat}
    (isLeaves : t.leaves = a ::ₘ b ::ₘ rest) (first : a ≤ b) (second : ∀ c ∈ rest, b ≤ c) :
    ∃ s : FullTree Nat, s.leaves = (a + b) ::ₘ rest ∧ s.cost id + (a + b) ≤ t.cost id := by
  classical
  have marked : (t.tagged []).leaves.map Prod.snd = a ::ₘ b ::ₘ rest := by
    rw [← leaves_map, map_tagged, isLeaves]
  have nodup := tagged_nodup [] t
  obtain ⟨x, hasX, isA, others⟩ := (Multiset.map_eq_cons _ _ _ _).mpr marked
  obtain ⟨y, hasY, isB, isRest⟩ := (Multiset.map_eq_cons _ _ _ _).mpr others
  have split : (t.tagged []).leaves = x ::ₘ y ::ₘ ((t.tagged []).leaves.erase x).erase y := by
    rw [Multiset.cons_erase hasY, Multiset.cons_erase hasX]
  generalize ((t.tagged []).leaves.erase x).erase y = unmarked at split isRest
  have distinct := nodup
  rw [split, Multiset.nodup_cons, Multiset.mem_cons, not_or, Multiset.nodup_cons] at distinct
  have lightRest : ∀ c ∈ unmarked, b ≤ c.2 := fun c member =>
    second c.2 (isRest ▸ Multiset.mem_map_of_mem _ member)
  have lightX : ∀ c ∈ (t.tagged []).leaves, x.2 ≤ c.2 := by
    intro c member
    rw [split, Multiset.mem_cons, Multiset.mem_cons] at member
    rcases member with rfl | rfl | member
    · exact le_rfl
    · omega
    · exact isA.trans_le (first.trans (lightRest c member))
  have lightY : ∀ c ∈ (t.tagged []).leaves, c ≠ x → y.2 ≤ c.2 := by
    intro c member notX
    rw [split, Multiset.mem_cons, Multiset.mem_cons] at member
    rcases member with rfl | rfl | member
    · exact absurd rfl notX
    · exact le_rfl
    · exact isB.trans_le (lightRest c member)
  obtain ⟨s, s', merges, sLeaves, cheaper⟩ := exists_lightest_siblings nodup hasX
    (Multiset.mem_of_mem_erase hasY) distinct.1.1 lightX lightY
  have sNodup : s.leaves.Nodup := sLeaves ▸ nodup
  have joined : update Prod.snd x (a + b) x = x.2 + y.2 := by
    rw [update_self, isA, isB]
  obtain ⟨costs, -⟩ := merges.cost sNodup
    (fun label other => update_of_ne other (a + b) Prod.snd) joined
  refine ⟨s'.map (update Prod.snd x (a + b)), ?_, ?_⟩
  · have isMerged : s'.leaves = x ::ₘ unmarked := by
      have both := merges.leaves.1
      rw [sLeaves, split, Multiset.cons_swap, Multiset.cons_inj_right] at both
      exact both.symm
    rw [leaves_map, isMerged, Multiset.map_cons, update_self, ← isRest]
    refine congrArg _ (Multiset.map_congr rfl fun label member => ?_)
    exact update_of_ne (ne_of_mem_of_not_mem member distinct.1.2) _ _
  · rw [cost_map, Function.id_comp]
    rw [isA, isB] at costs
    calc s'.cost (update Prod.snd x (a + b)) + (a + b) = s.cost Prod.snd := costs.symm
      _ ≤ (t.tagged []).cost Prod.snd := cheaper
      _ = t.cost id := by rw [← Function.id_comp Prod.snd, ← cost_map, map_tagged]

/-- The sums of such a merging are a lower bound for every tree with these weights. -/
theorem Merging.le_cost {weights : Multiset Nat} {cost : Nat} (merging : Merging weights cost)
    (t : FullTree α) (weight : α → Nat) (same : t.leaves.map weight = weights) :
    cost ≤ t.cost weight := by
  rw [← Function.id_comp weight, ← cost_map]
  rw [← leaves_map] at same
  generalize t.map weight = t at same
  induction merging generalizing t with
  | last _ => exact Nat.zero_le _
  | round first second _ ih =>
    obtain ⟨s, sLeaves, cheaper⟩ := exists_merged same first second
    exact (Nat.add_le_add_right (ih s sLeaves) _).trans cheaper

end FullTree

end Xv6.Lib
