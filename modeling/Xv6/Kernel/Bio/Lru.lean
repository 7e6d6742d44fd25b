import Xv6.Kernel.Bio.Integrity
import Xv6.Lib.Recency

/-!
Which buffer `bget` reuses.

Owns: the cache over arbitrary histories, when a release counts as a use, and that the
list is in the order of last use.

Does not own: who may release a buffer.
-/

namespace Xv6.Kernel.Bio

open Xv6.Lib Xv6.Lib.Recency

/-- What an operation makes of the cache; no result is the panic of `bget`. A release need
not match an earlier get. -/
def BCache.step (c : BCache) : Op → Option BCache
  | .bget _ dev blockno => (bget c dev blockno).map Prod.snd
  | .store _ b data => some (c.setBuf b { c.buf b with valid := true, data := data })
  | .brelse _ b => if b = head then none else some (brelse c b)
  | .bpin b => some (bpin c b)
  | .bunpin b => some (bunpin c b)

/-- The histories of a cache. -/
abbrev Histories (steps : List (BCache × Op)) (c : BCache) : Prop :=
  Run (fun c => ∃ statics, c = binit statics) (fun c op c' => c.step op = some c') steps c

/-- A `brelse` that leaves the buffer without references. -/
def zeroes (before : BCache × Op) (b : BufPtr) : Bool :=
  match before.2 with
  | .brelse _ released => released = b && ((brelse before.1 b).buf b).refcnt = 0
  | _ => false

section Lru

variable {c c' : BCache} {order : List BufPtr} {steps : List (BCache × Op)} {op : Op} {b : BufPtr}

theorem brelse_refcnt (c : BCache) (b : BufPtr) :
    ((brelse c b).buf b).refcnt = ((c.setRefcnt b ((c.buf b).refcnt - 1)).buf b).refcnt := by
  rw [brelse_buf]

theorem links_of_step (ordered : Ordered c order) (step : c.step op = some c')
    (untouched : ∀ b, zeroes (c, op) b = false) : c'.links = c.links := by
  cases op with
  | bget p dev blockno =>
    obtain ⟨⟨b, got⟩, found, rfl⟩ := Option.map_eq_some_iff.mp step
    rcases (bget_cases ordered found).2 with ⟨_, rfl⟩ | ⟨_, _, rfl⟩
    · rfl
    · rfl
  | store p b data | bpin b | bunpin b => exact (Option.some.inj step) ▸ rfl
  | brelse p b =>
    have isBuf : b ≠ head := by
      rintro rfl
      simp [BCache.step] at step
    rw [BCache.step, if_neg isBuf, Option.some.injEq] at step
    have remaining : ((brelse c b).buf b).refcnt ≠ 0 := by simpa [zeroes] using untouched b
    rw [brelse_refcnt] at remaining
    rw [← step, brelse]
    rw [if_neg remaining]
    rfl

theorem zeroes_iff : zeroes (c, op) b = true ↔
    ∃ p, op = .brelse p b ∧ ((brelse c b).buf b).refcnt = 0 := by
  cases op with
  | brelse p released =>
    simp only [zeroes, Bool.and_eq_true, decide_eq_true_eq, Op.brelse.injEq]
    constructor
    · rintro ⟨rfl, absent⟩
      exact ⟨p, ⟨rfl, rfl⟩, absent⟩
    · rintro ⟨_, ⟨_, rfl⟩, absent⟩
      exact ⟨rfl, absent⟩
  | _ => simp [zeroes]

theorem ordered_of_zeroes {front back : List BufPtr} (ordered : Ordered c (front ++ b :: back))
    (step : c.step op = some c') (touched : zeroes (c, op) b = true) :
    Ordered c' (b :: (front ++ back)) := by
  obtain ⟨p, rfl, absent⟩ := zeroes_iff.mp touched
  have isBuf := ordered.ne_head (List.mem_append_right front List.mem_cons_self)
  rw [BCache.step, if_neg isBuf, Option.some.injEq] at step
  rw [brelse_refcnt] at absent
  rw [← step, brelse, if_pos absent]
  exact Ordered.moveFirst (ordered.congr rfl)

theorem sorted_of_history (run : Histories steps c) :
    ∃ order, Ordered c order ∧ order.Pairwise (Newer zeroes firstOrder steps) := by
  induction run with
  | start initial =>
    obtain ⟨statics, rfl⟩ := initial
    have ordered := binit_ordered statics
    exact ⟨_, ordered, pairwise_nil (List.nodup_cons.mp ordered.ring.nodup).2⟩
  | @snoc steps c c' op _ step ih =>
    obtain ⟨order, ordered, sorted⟩ := ih
    by_cases touched : ∃ b, zeroes (c, op) b = true
    · obtain ⟨b, touched⟩ := touched
      obtain ⟨p, rfl, _⟩ := zeroes_iff.mp touched
      have isBuf : b ≠ head := by
        rintro rfl
        simp [BCache.step] at step
      obtain ⟨front, back, rfl⟩ := List.append_of_mem (ordered.all b isBuf)
      refine ⟨_, ordered_of_zeroes ordered step touched,
        pairwise_touched sorted (List.nodup_cons.mp ordered.ring.nodup).2 fun other => ?_⟩
      constructor
      · intro otherTouched
        obtain ⟨_, same, _⟩ := zeroes_iff.mp otherTouched
        simp only [Op.brelse.injEq] at same
        exact same.2.symm
      · rintro rfl
        exact touched
    · have untouched : ∀ b, zeroes (c, op) b = false :=
        fun b => Bool.eq_false_of_not_eq_true fun holds => touched ⟨b, holds⟩
      exact ⟨order, ordered.congr (links_of_step ordered step untouched),
        pairwise_untouched sorted untouched⟩

/-- When no buffer holds the block, `bget` reuses the buffer without references whose last
release to none is the oldest; a buffer never so released is older than one that was, and
of two such buffers the one further back in the first list. It panics only if every buffer
has references. -/
theorem bget_reuses_oldest (run : Histories steps c) {dev blockno : UInt32}
    (missed : ∀ b, b ≠ head → c.holds dev blockno b = false) :
    (∀ b c', bget c dev blockno = some (b, c') →
      b ≠ head ∧ (c.buf b).refcnt = 0 ∧ c' = c.recycle b dev blockno ∧
        ∀ other, other ≠ head → (c.buf other).refcnt = 0 → other ≠ b →
          Newer zeroes firstOrder steps other b) ∧
      ∀ b, b ≠ head → (c.buf b).refcnt = 0 → ∃ found c', bget c dev blockno = some (found, c') := by
  obtain ⟨order, ordered, sorted⟩ := sorted_of_history run
  have absent : order.find? (c.holds dev blockno) = none := by
    apply List.find?_eq_none.mpr
    intro b member holds
    rw [missed b (ordered.ne_head member)] at holds
    contradiction
  have scans : bget c dev blockno =
      (order.reverse.find? c.unused).map fun b => (b, c.recycle b dev blockno) := by
    unfold bget
    rw [ordered.ring.scan_next _ ordered.length_lt,
      ordered.ring.scan_prev _ ordered.length_lt, absent]
    cases order.reverse.find? c.unused <;> rfl
  constructor
  · intro b c' got
    rw [scans, Option.map_eq_some_iff] at got
    obtain ⟨found, isFirst, same⟩ := got
    simp only [Prod.mk.injEq] at same
    obtain ⟨rfl, rfl⟩ := same
    have member := List.mem_reverse.mp (List.mem_of_find?_eq_some isFirst)
    have unused : c.unused found = true := List.find?_some isFirst
    refine ⟨ordered.ne_head member, beq_iff_eq.mp unused, rfl, ?_⟩
    intro other isBuf absent different
    exact newer_of_find sorted isFirst (ordered.all other isBuf) (beq_iff_eq.mpr absent) different
  · intro b isBuf absent
    exact bget_of_unused ordered isBuf absent dev blockno

end Lru

/-- Blocks 5 and 6 are read into buffers 0 and 1, which are released in the other order. -/
def twoReads : List Op :=
  [.bget 7 1 5, .bget 7 1 6, .brelse 7 1, .brelse 7 0]

/-- The next block goes to buffer 2, which was never released. -/
theorem bget_reuses_third :
    ∃ (steps : List (BCache × Op)) (c : BCache), Histories steps c ∧ steps.map Prod.snd = twoReads ∧
      ∃ c', bget c 1 7 = some (2, c') ∧ Newer zeroes firstOrder steps 0 2 ∧
        Newer zeroes firstOrder steps 1 2 := by
  have played : (Run.play BCache.step (binit staticCache) twoReads).map (fun c =>
      ((bget c 1 7).map Prod.fst, decide (∀ b, b ≠ head → c.holds 1 7 b = false),
        c.unused 0, c.unused 1)) = some (some 2, true, true, true) := by
    decide +kernel
  obtain ⟨c, played, facts⟩ := Option.map_eq_some_iff.mp played
  simp only [Prod.mk.injEq, decide_eq_true_eq] at facts
  obtain ⟨isThird, missed, zeroUnused, oneUnused⟩ := facts
  have start : Histories [] (binit staticCache) := .start ⟨_, rfl⟩
  obtain ⟨steps, labels, run⟩ := start.of_play id played
  obtain ⟨⟨b, c'⟩, got, rfl⟩ := Option.map_eq_some_iff.mp isThird
  obtain ⟨_, _, _, oldest⟩ := (bget_reuses_oldest run missed).1 _ _ got
  exact ⟨steps, c, run, labels, c', got,
    oldest 0 (by decide) (beq_iff_eq.mp zeroUnused) (by decide),
    oldest 1 (by decide) (beq_iff_eq.mp oneUnused) (by decide)⟩

end Xv6.Kernel.Bio
