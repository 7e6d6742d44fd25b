import Mathlib

/-!
Circular doubly linked lists.

Owns: the two links of each cell, the segment between two cells, the ring through
a head cell, taking a cell out, putting one behind the head, and a scan along one
of the links with the element it finds.

Does not own: what the cells hold.
-/

namespace Xv6.Lib

open Function

universe u

variable {Cell : Type u}

/-- The two links of every cell. -/
structure Links (Cell : Type u) where
  next : Cell → Cell
  prev : Cell → Cell

namespace Links

/-- `next` leads from `first` through the cells to `last`, and `prev` leads back. -/
def Segment (links : Links Cell) (first : Cell) : List Cell → Cell → Prop
  | [], last => links.next first = last ∧ links.prev last = first
  | cell :: rest, last =>
    (links.next first = cell ∧ links.prev cell = first) ∧ links.Segment cell rest last

/-- A ring through `head` and the cells, each met once. -/
structure Ring (links : Links Cell) (head : Cell) (cells : List Cell) : Prop where
  segment : links.Segment head cells head
  nodup : (head :: cells).Nodup

/-- The links read backwards. -/
def flip (links : Links Cell) : Links Cell := ⟨links.prev, links.next⟩

section Segments

variable {links links' : Links Cell} {first last cell : Cell} {cells front back : List Cell}

theorem segment_append :
    links.Segment first (front ++ cell :: back) last ↔
      links.Segment first front cell ∧ links.Segment cell back last := by
  induction front generalizing first with
  | nil => rfl
  | cons second rest ih =>
    rw [List.cons_append, Segment, Segment, ih]
    exact and_assoc.symm

theorem Segment.congr (segment : links.Segment first cells last)
    (sameNext : ∀ c ∈ first :: cells, links'.next c = links.next c)
    (samePrev : ∀ c ∈ last :: cells, links'.prev c = links.prev c) :
    links'.Segment first cells last := by
  induction cells generalizing first with
  | nil =>
    obtain ⟨forward, backward⟩ := segment
    exact ⟨(sameNext first List.mem_cons_self).trans forward,
      (samePrev last List.mem_cons_self).trans backward⟩
  | cons second rest ih =>
    obtain ⟨⟨forward, backward⟩, tail⟩ := segment
    refine ⟨⟨(sameNext first List.mem_cons_self).trans forward, ?_⟩, ?_⟩
    · exact (samePrev second (List.mem_cons_of_mem _ List.mem_cons_self)).trans backward
    · apply ih tail
      · intro c member
        exact sameNext c (List.mem_cons_of_mem _ member)
      · intro c member
        apply samePrev c
        rcases List.mem_cons.mp member with isLast | inRest
        · exact List.mem_cons.mpr (.inl isLast)
        · exact List.mem_cons_of_mem _ (List.mem_cons_of_mem _ inRest)

theorem Segment.flip (segment : links.Segment first cells last) :
    links.flip.Segment last cells.reverse first := by
  induction cells generalizing first with
  | nil => exact ⟨segment.2, segment.1⟩
  | cons second rest ih =>
    rw [List.reverse_cons, segment_append]
    exact ⟨ih segment.2, segment.1.2, segment.1.1⟩

theorem Segment.next_mem (segment : links.Segment first cells last) :
    links.next first ∈ last :: cells := by
  cases cells with
  | nil => exact List.mem_cons.mpr (.inl segment.1)
  | cons second rest =>
    rw [segment.1.1]
    exact List.mem_cons_of_mem _ List.mem_cons_self

theorem Segment.prev_mem (segment : links.Segment first cells last) :
    links.prev last ∈ first :: cells := by
  have mirrored := segment.flip.next_mem
  rw [List.mem_cons, List.mem_reverse] at mirrored
  exact List.mem_cons.mpr mirrored

theorem Segment.prev_next (segment : links.Segment first cells last) {c : Cell}
    (member : c ∈ first :: cells) : links.prev (links.next c) = c := by
  induction cells generalizing first with
  | nil =>
    rw [List.mem_singleton] at member
    rw [member, segment.1, segment.2]
  | cons second rest ih =>
    rcases List.mem_cons.mp member with isFirst | later
    · rw [isFirst, segment.1.1, segment.1.2]
    · exact ih segment.2 later

theorem Segment.next_prev (segment : links.Segment first cells last) {c : Cell}
    (member : c ∈ last :: cells) : links.next (links.prev c) = c := by
  have mirrored : c ∈ last :: cells.reverse := by
    rwa [List.mem_cons, List.mem_reverse, ← List.mem_cons]
  exact segment.flip.prev_next mirrored

theorem Segment.join (before : links.Segment first front cell)
    (after : links.Segment cell back last)
    (nodup : (first :: (front ++ cell :: back)).Nodup) (outside : last ∉ front ++ cell :: back)
    (bridgeNext : links'.next (links.prev cell) = links.next cell)
    (bridgePrev : links'.prev (links.next cell) = links.prev cell)
    (sameNext : ∀ c, c ≠ links.prev cell → links'.next c = links.next c)
    (samePrev : ∀ c, c ≠ links.next cell → links'.prev c = links.prev c) :
    links'.Segment first (front ++ back) last := by
  induction front generalizing first with
  | nil =>
    obtain ⟨toCell, toFirst⟩ := before
    rw [toFirst] at bridgeNext bridgePrev sameNext
    rw [List.nil_append] at nodup outside ⊢
    have parts := List.nodup_cons.mp nodup
    have inner := List.nodup_cons.mp parts.2
    cases back with
    | nil =>
      rw [after.1] at bridgeNext bridgePrev
      exact ⟨bridgeNext, bridgePrev⟩
    | cons second rest =>
      obtain ⟨⟨toSecond, _⟩, tail⟩ := after
      rw [toSecond] at bridgeNext bridgePrev samePrev
      have secondNew := (List.nodup_cons.mp inner.2).1
      refine ⟨⟨bridgeNext, bridgePrev⟩, tail.congr ?_ ?_⟩
      · intro c member
        apply sameNext
        intro isFirst
        exact parts.1 (List.mem_cons_of_mem _ (isFirst ▸ member))
      · intro c member
        apply samePrev
        intro isSecond
        rcases List.mem_cons.mp member with isLast | inRest
        · exact outside (List.mem_cons_of_mem _
            (List.mem_cons.mpr (.inl (isLast.symm.trans isSecond))))
        · exact secondNew (isSecond ▸ inRest)
  | cons second rest ih =>
    obtain ⟨⟨toSecond, toFirst⟩, tail⟩ := before
    rw [List.cons_append] at nodup outside ⊢
    have parts := List.nodup_cons.mp nodup
    have inner := List.nodup_cons.mp parts.2
    rw [List.mem_cons, not_or] at outside
    refine ⟨⟨?_, ?_⟩, ih tail parts.2 outside.2⟩
    · rw [sameNext, toSecond]
      intro same
      have member := tail.prev_mem
      rw [← same] at member
      apply parts.1
      rw [← List.cons_append]
      exact List.mem_append_left _ member
    · rw [samePrev, toFirst]
      intro same
      have member := after.next_mem
      rw [← same] at member
      rcases List.mem_cons.mp member with isLast | inBack
      · exact outside.1 isLast.symm
      · exact inner.1 (List.mem_append_right _ (List.mem_cons_of_mem _ inBack))

end Segments

/-! ### Taking out and putting in -/

section Update

variable [DecidableEq Cell] {links : Links Cell} {head cell : Cell}
  {cells front back : List Cell}

/-- `links.prev c = target` -/
def setPrev (links : Links Cell) (c target : Cell) : Links Cell :=
  { links with prev := update links.prev c target }

/-- `links.next c = target` -/
def setNext (links : Links Cell) (c target : Cell) : Links Cell :=
  { links with next := update links.next c target }

/-- Take a cell out: its two neighbours are linked to each other, first the one
behind it, then the one before it. -/
def unlink (links : Links Cell) (cell : Cell) : Links Cell :=
  let linked := links.setPrev (links.next cell) (links.prev cell)
  linked.setNext (linked.prev cell) (linked.next cell)

/-- Put a cell right behind the head. -/
def linkFirst (links : Links Cell) (head cell : Cell) : Links Cell :=
  let first := links.setNext cell (links.next head)
  let second := first.setPrev cell head
  let third := second.setPrev (second.next head) cell
  third.setNext head cell

/-- A ring without one of its cells. -/
theorem Ring.unlink (ring : links.Ring head (front ++ cell :: back)) :
    (links.unlink cell).Ring head (front ++ back) := by
  obtain ⟨before, after⟩ := segment_append.mp ring.segment
  have parts := List.nodup_cons.mp ring.nodup
  have notSelf : cell ≠ links.next cell := by
    intro same
    have member := after.next_mem
    rw [← same] at member
    rcases List.mem_cons.mp member with isHead | inBack
    · apply parts.1
      rw [← isHead]
      exact List.mem_append_right _ List.mem_cons_self
    · have inner := (List.nodup_append.mp parts.2).2.1
      exact (List.nodup_cons.mp inner).1 inBack
  have keeps : (links.setPrev (links.next cell) (links.prev cell)).prev cell = links.prev cell :=
    update_of_ne notSelf _ _
  constructor
  · apply before.join after ring.nodup parts.1
    · rw [Links.unlink, keeps]
      exact update_self _ _ _
    · exact update_self _ _ _
    · intro c different
      rw [Links.unlink, keeps]
      exact update_of_ne different _ _
    · intro c different
      exact update_of_ne different _ _
  · exact List.Nodup.sublist
      ((List.Sublist.append_left (List.sublist_cons_self _ _) _).cons_cons _) ring.nodup

/-- A ring with one more cell behind its head. -/
theorem Ring.linkFirst (ring : links.Ring head cells) (new : cell ∉ head :: cells) :
    (links.linkFirst head cell).Ring head (cell :: cells) := by
  rw [List.mem_cons, not_or] at new
  have parts := List.nodup_cons.mp ring.nodup
  have second : (update links.next cell (links.next head)) head = links.next head :=
    update_of_ne (Ne.symm new.1) _ _
  have firstNew : links.next head ≠ cell := by
    intro same
    have member := ring.segment.next_mem
    rw [same] at member
    rcases List.mem_cons.mp member with isHead | inside
    · exact new.1 isHead
    · exact new.2 inside
  have nextOf : ∀ c, c ≠ head → c ≠ cell → (links.linkFirst head cell).next c = links.next c := by
    intro c notHead notCell
    exact (update_of_ne notHead _ _).trans (update_of_ne notCell _ _)
  have nextCell : (links.linkFirst head cell).next cell = links.next head :=
    (update_of_ne new.1 _ _).trans (update_self _ _ _)
  have prevOf : ∀ c, c ≠ links.next head → c ≠ cell →
      (links.linkFirst head cell).prev c = links.prev c := by
    intro c notFirst notCell
    change update (update links.prev cell head)
      (update links.next cell (links.next head) head) cell c = links.prev c
    rw [second, update_of_ne notFirst, update_of_ne notCell]
  have prevFirst : (links.linkFirst head cell).prev (links.next head) = cell := by
    change update (update links.prev cell head)
      (update links.next cell (links.next head) head) cell (links.next head) = cell
    rw [second, update_self]
  have prevCell : (links.linkFirst head cell).prev cell = head := by
    change update (update links.prev cell head)
      (update links.next cell (links.next head) head) cell cell = head
    rw [second, update_of_ne (Ne.symm firstNew), update_self]
  constructor
  · refine ⟨⟨update_self _ _ _, prevCell⟩, ?_⟩
    cases cells with
    | nil =>
      have toHead : links.next head = head := ring.segment.1
      rw [toHead] at nextCell prevFirst
      exact ⟨nextCell, prevFirst⟩
    | cons old rest =>
      obtain ⟨⟨toOld, _⟩, tail⟩ := ring.segment
      rw [toOld] at nextCell prevFirst prevOf
      have oldNew := (List.nodup_cons.mp parts.2).1
      refine ⟨⟨nextCell, prevFirst⟩, tail.congr ?_ ?_⟩
      · intro c member
        apply nextOf
        · intro isHead
          exact parts.1 (isHead ▸ member)
        · intro isCell
          exact new.2 (isCell ▸ member)
      · intro c member
        rcases List.mem_cons.mp member with isHead | inRest
        · rw [isHead]
          apply prevOf
          · intro same
            exact parts.1 (List.mem_cons.mpr (.inl same))
          · exact Ne.symm new.1
        · apply prevOf
          · intro isOld
            exact oldNew (isOld ▸ inRest)
          · intro isCell
            exact new.2 (List.mem_cons_of_mem _ (isCell ▸ inRest))
  · refine List.nodup_cons.mpr ⟨?_, List.nodup_cons.mpr ⟨new.2, parts.2⟩⟩
    rw [List.mem_cons, not_or]
    exact ⟨Ne.symm new.1, parts.1⟩

end Update

/-! ### Scans -/

section Scan

variable [DecidableEq Cell] {links : Links Cell} {first last head : Cell} {cells : List Cell}

/-- `for(c = start; c != head; c = follow(c)) if(found(c)) return c;`, given up
after `fuel` cells. -/
def scan (follow : Cell → Cell) (head : Cell) (found : Cell → Bool) : Nat → Cell → Option Cell
  | 0, _ => none
  | fuel + 1, cell =>
    if cell = head then none
    else if found cell then some cell
    else scan follow head found fuel (follow cell)

/-- A scan over a whole segment finds its first element of the kind. -/
theorem Segment.scan (segment : links.Segment first cells last) (outside : last ∉ cells)
    (found : Cell → Bool) {fuel : Nat} (enough : cells.length < fuel) :
    scan links.next last found fuel (links.next first) = cells.find? found := by
  induction cells generalizing first fuel with
  | nil =>
    cases fuel with
    | zero => exact absurd enough (Nat.not_lt_zero _)
    | succ fuel =>
      rw [segment.1, Links.scan, if_pos rfl]
      rfl
  | cons second rest ih =>
    cases fuel with
    | zero => exact absurd enough (Nat.not_lt_zero _)
    | succ fuel =>
      rw [List.mem_cons, not_or] at outside
      rw [segment.1.1, Links.scan, if_neg (Ne.symm outside.1), List.find?_cons]
      cases isFound : found second with
      | true => rfl
      | false => exact ih segment.2 outside.2 (Nat.lt_of_succ_lt_succ enough)

theorem Ring.scan_next (ring : links.Ring head cells) (found : Cell → Bool) {fuel : Nat}
    (enough : cells.length < fuel) :
    scan links.next head found fuel (links.next head) = cells.find? found :=
  ring.segment.scan (List.nodup_cons.mp ring.nodup).1 found enough

theorem Ring.scan_prev (ring : links.Ring head cells) (found : Cell → Bool) {fuel : Nat}
    (enough : cells.length < fuel) :
    scan links.prev head found fuel (links.prev head) = cells.reverse.find? found := by
  apply ring.segment.flip.scan
  · rw [List.mem_reverse]
    exact (List.nodup_cons.mp ring.nodup).1
  · rwa [List.length_reverse]

end Scan

end Links

end Xv6.Lib
