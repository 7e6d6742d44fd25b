import Xv6.Kernel.Param
import Xv6.Lib.Ring

/-!
The buffer cache of `bio.c`.

Owns: the buffers with their LRU links, `binit`, the parts of `bget` and `brelse`
under `bcache.lock`, `bpin` and `bunpin`, the order of a well-linked cache, and
what `bget` can return.

Does not own: the sleep-locks of the buffers and the disk.
-/

namespace Xv6.Kernel.Bio

open Xv6.Lib

/-- A pointer to a `struct buf`: one of `bcache.buf`, or `&bcache.head`. -/
abbrev BufPtr := Fin (nBuf + 1)

/-- `&bcache.head` -/
def head : BufPtr := Fin.last nBuf

/-- `struct buf` without its sleep-lock, its links and the disk driver's flag. -/
structure Buf where
  valid : Bool
  dev : UInt32
  blockno : UInt32
  refcnt : UInt32
  data : Block

/-- `bcache` without its lock. -/
structure BCache where
  links : Links BufPtr
  buf : BufPtr → Buf

namespace BCache

/-- Store into `*b`. -/
def setBuf (c : BCache) (b : BufPtr) (new : Buf) : BCache :=
  { c with buf := Function.update c.buf b new }

@[simp] theorem setBuf_links (c : BCache) (b : BufPtr) (new : Buf) :
    (c.setBuf b new).links = c.links := rfl

@[simp] theorem setBuf_self (c : BCache) (b : BufPtr) (new : Buf) :
    (c.setBuf b new).buf b = new := by
  simp only [setBuf, Function.update_self]

theorem setBuf_other (c : BCache) {b other : BufPtr} (different : other ≠ b) (new : Buf) :
    (c.setBuf b new).buf other = c.buf other := by
  simp only [setBuf, Function.update_of_ne different]

/-- `b->refcnt = count` -/
def setRefcnt (c : BCache) (b : BufPtr) (count : UInt32) : BCache :=
  c.setBuf b { c.buf b with refcnt := count }

/-- `b->dev == dev && b->blockno == blockno` -/
def holds (c : BCache) (dev blockno : UInt32) (b : BufPtr) : Bool :=
  (c.buf b).dev == dev && (c.buf b).blockno == blockno

/-- `b->refcnt == 0` -/
def unused (c : BCache) (b : BufPtr) : Bool := (c.buf b).refcnt == 0

/-- The buffer `b` once it is recycled for a block. -/
def recycle (c : BCache) (b : BufPtr) (dev blockno : UInt32) : BCache :=
  c.setBuf b { c.buf b with dev := dev, blockno := blockno, valid := false, refcnt := 1 }

end BCache

/-- `binit` -/
def binit (c : BCache) : BCache :=
  { c with
    links := (List.finRange nBuf).foldl (fun links b => links.linkFirst head b.castSucc)
      ((c.links.setPrev head head).setNext head head) }

/-- `bget` up to its `acquiresleep`; no result is the panic "bget: no buffers". -/
def bget (c : BCache) (dev blockno : UInt32) : Option (BufPtr × BCache) :=
  match Links.scan c.links.next head (c.holds dev blockno) (nBuf + 1) (c.links.next head) with
  | some b => some (b, c.setRefcnt b ((c.buf b).refcnt + 1))
  | none =>
    match Links.scan c.links.prev head c.unused (nBuf + 1) (c.links.prev head) with
    | some b => some (b, c.recycle b dev blockno)
    | none => none

/-- `brelse` after its `releasesleep`. -/
def brelse (c : BCache) (b : BufPtr) : BCache :=
  let released := c.setRefcnt b ((c.buf b).refcnt - 1)
  if (released.buf b).refcnt = 0 then
    { released with links := (released.links.unlink b).linkFirst head b }
  else released

/-- `bpin` -/
def bpin (c : BCache) (b : BufPtr) : BCache := c.setRefcnt b ((c.buf b).refcnt + 1)

/-- `bunpin` -/
def bunpin (c : BCache) (b : BufPtr) : BCache := c.setRefcnt b ((c.buf b).refcnt - 1)

/-! ### The list of all buffers -/

/-- The cache is linked in the given order, most recently used first. -/
structure Ordered (c : BCache) (order : List BufPtr) : Prop where
  ring : c.links.Ring head order
  all : ∀ b, b ≠ head → b ∈ order

section Ordered

variable {c : BCache} {order : List BufPtr}

theorem Ordered.ne_head (ordered : Ordered c order) {b : BufPtr} (member : b ∈ order) : b ≠ head :=
  fun same => (List.nodup_cons.mp ordered.ring.nodup).1 (same ▸ member)

theorem Ordered.length_lt (ordered : Ordered c order) : order.length < nBuf + 1 := by
  have most := ordered.ring.nodup.length_le_card
  rw [Fintype.card_fin, List.length_cons] at most
  exact most

/-- Only the links matter. -/
theorem Ordered.congr (ordered : Ordered c order) {c' : BCache} (same : c'.links = c.links) :
    Ordered c' order :=
  ⟨by rw [same]; exact ordered.ring, ordered.all⟩

theorem Ordered.inverse (ordered : Ordered c order) (b : BufPtr) :
    c.links.next (c.links.prev b) = b ∧ c.links.prev (c.links.next b) = b := by
  have member : b ∈ head :: order := by
    by_cases isHead : b = head
    · exact List.mem_cons.mpr (.inl isHead)
    · exact List.mem_cons_of_mem _ (ordered.all b isHead)
  exact ⟨ordered.ring.segment.next_prev member, ordered.ring.segment.prev_next member⟩

theorem binit_fold (links : Links BufPtr) (ring : links.Ring head []) (bufs : List (Fin nBuf))
    (nodup : bufs.Nodup) :
    (bufs.foldl (fun links b => links.linkFirst head b.castSucc) links).Ring head
      (bufs.map Fin.castSucc).reverse := by
  induction bufs using List.reverseRecOn with
  | nil => exact ring
  | append_singleton bufs b ih =>
    have parts := List.nodup_append.mp nodup
    rw [List.foldl_append, List.map_append, List.reverse_append]
    apply (ih parts.1).linkFirst
    rw [List.mem_cons, not_or]
    constructor
    · exact Fin.castSucc_ne_last b
    · intro member
      rw [List.mem_reverse, List.mem_map] at member
      obtain ⟨old, inside, same⟩ := member
      exact parts.2.2 old inside b List.mem_cons_self (Fin.castSucc_injective _ same)

/-- The order that `binit` makes. -/
def firstOrder : List BufPtr := ((List.finRange nBuf).map Fin.castSucc).reverse

theorem binit_ordered (c : BCache) : Ordered (binit c) firstOrder := by
  have alone : ((c.links.setPrev head head).setNext head head).Ring head [] := by
    refine ⟨⟨?_, ?_⟩, List.nodup_singleton head⟩
    · simp [Links.setNext]
    · simp [Links.setNext, Links.setPrev]
  refine ⟨binit_fold _ alone _ (List.nodup_finRange nBuf), ?_⟩
  intro b isBuf
  rw [firstOrder, List.mem_reverse, List.mem_map]
  exact ⟨b.castPred isBuf, List.mem_finRange _, Fin.castSucc_castPred _ isBuf⟩

/-- A buffer moved to the front. -/
theorem Ordered.moveFirst {front back : List BufPtr} {b : BufPtr}
    (ordered : Ordered c (front ++ b :: back)) :
    Ordered { c with links := (c.links.unlink b).linkFirst head b } (b :: (front ++ back)) := by
  have ring := ordered.ring
  have isBuf := ordered.ne_head (List.mem_append_right front List.mem_cons_self)
  have without := @Links.Ring.linkFirst _ _ _ head b _ ring.unlink ?_
  · refine ⟨without, ?_⟩
    intro other otherBuf
    have member := ordered.all other otherBuf
    rw [List.mem_append, List.mem_cons] at member
    rw [List.mem_cons, List.mem_append]
    tauto
  · rw [List.mem_cons, not_or]
    refine ⟨isBuf, ?_⟩
    have middle := List.nodup_middle.mp (List.nodup_cons.mp ring.nodup).2
    exact (List.nodup_cons.mp middle).1

/-! ### What `bget` returns -/

/-- Every result of `bget`: the buffer that holds the block, with one more
reference, or else an unused buffer made to hold it. -/
theorem bget_cases (ordered : Ordered c order) {dev blockno : UInt32} {b : BufPtr} {c' : BCache}
    (got : bget c dev blockno = some (b, c')) :
    b ≠ head ∧
      ((c.holds dev blockno b = true ∧ c' = c.setRefcnt b ((c.buf b).refcnt + 1)) ∨
        ((∀ other, other ≠ head → c.holds dev blockno other = false) ∧ c.unused b = true ∧
          c' = c.recycle b dev blockno)) := by
  unfold bget at got
  rw [ordered.ring.scan_next _ ordered.length_lt, ordered.ring.scan_prev _ ordered.length_lt] at got
  cases hit : order.find? (c.holds dev blockno) with
  | some found =>
    rw [hit] at got
    simp only [Option.some.injEq, Prod.mk.injEq] at got
    obtain ⟨rfl, rfl⟩ := got
    exact ⟨ordered.ne_head (List.mem_of_find?_eq_some hit),
      .inl ⟨List.find?_some hit, rfl⟩⟩
  | none =>
    rw [hit] at got
    cases free : order.reverse.find? c.unused with
    | none =>
      rw [free] at got
      exact absurd got (Option.some_ne_none _).symm
    | some found =>
      rw [free] at got
      simp only [Option.some.injEq, Prod.mk.injEq] at got
      obtain ⟨rfl, rfl⟩ := got
      have member := List.mem_of_find?_eq_some free
      refine ⟨ordered.ne_head (List.mem_reverse.mp member), .inr ⟨?_, List.find?_some free, rfl⟩⟩
      intro other isBuf
      have missed := List.find?_eq_none.mp hit other (ordered.all other isBuf)
      exact Bool.eq_false_of_not_eq_true missed

/-- A cached block is found. -/
theorem bget_of_holds (ordered : Ordered c order) {dev blockno : UInt32} {b : BufPtr}
    (isBuf : b ≠ head) (cached : c.holds dev blockno b = true) :
    ∃ found, found ≠ head ∧ c.holds dev blockno found = true ∧
      bget c dev blockno = some (found, c.setRefcnt found ((c.buf found).refcnt + 1)) := by
  cases hit : order.find? (c.holds dev blockno) with
  | none =>
    have missed := List.find?_eq_none.mp hit b (ordered.all b isBuf)
    exact absurd cached missed
  | some found =>
    refine ⟨found, ordered.ne_head (List.mem_of_find?_eq_some hit), List.find?_some hit, ?_⟩
    unfold bget
    rw [ordered.ring.scan_next _ ordered.length_lt, hit]

/-- While some buffer is unused, `bget` does not panic. -/
theorem bget_of_unused (ordered : Ordered c order) {b : BufPtr} (isBuf : b ≠ head)
    (unused : (c.buf b).refcnt = 0) (dev blockno : UInt32) :
    ∃ found cache, bget c dev blockno = some (found, cache) := by
  unfold bget
  rw [ordered.ring.scan_next _ ordered.length_lt, ordered.ring.scan_prev _ ordered.length_lt]
  cases order.find? (c.holds dev blockno) with
  | some found => exact ⟨found, _, rfl⟩
  | none =>
    cases free : order.reverse.find? c.unused with
    | some found => exact ⟨found, _, rfl⟩
    | none =>
      have missed := List.find?_eq_none.mp free b (List.mem_reverse.mpr (ordered.all b isBuf))
      exact absurd (beq_iff_eq.mpr unused) missed

end Ordered

end Xv6.Kernel.Bio
