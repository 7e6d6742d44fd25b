import Xv6.Kernel.Pipe.Buffer
import Xv6.Lib.Transition

/-!
A pipe is a queue of bytes.

Owns: a pipe with the calls under way on it, the step relation whose steps run one
call until it returns or sleeps, and the order of the bytes over whole runs.

Does not own: calls whose copies fail, and that a sleeping call is woken.
-/

namespace Xv6.Kernel.Pipe

open Xv6.Lib Function

/-- A call with its arguments. -/
inductive Call where
  | write (copyin : Nat → Option UInt8) (n : Nat)
  | read (copyout : Nat → Bool) (n : Nat)

/-- No copy of the call fails. -/
def Call.Copies : Call → Prop
  | write copyin n => ∀ k < n, (copyin k).isSome = true
  | read copyout n => ∀ k < n, copyout k = true

/-- How far a call is, with the number of bytes it has moved. -/
inductive Progress where
  | idle
  | running (call : Call) (i : Nat)
  | returned (call : Call) (i : Nat) (ret : Int)

/-- A call after a part that ended so. -/
def Call.after (call : Call) (i : Nat) : End → Progress
  | .returns ret => .returned call i ret
  | .sleeps => .running call i

/-- The pipe, the calls, which of them found their process killed, and all bytes stored
and delivered so far in order, each with the call that moved it. -/
structure System where
  pipe : Pipe
  calls : Nat → Progress
  killed : Nat → Prop
  stored : List (Option Nat × UInt8)
  delivered : List (Option Nat × UInt8)

/-- What can happen next: a call starts, runs until it returns or sleeps, or one end of
the pipe is closed. -/
inductive Action where
  | begin (k : Nat) (call : Call)
  | write (k : Nat) (killed : Nat → Bool)
  | read (k : Nat) (killed : Bool)
  | close (writable : Bool)

/-- The step relation. A sleeping call may be woken at any time, and then looks at
the pipe again. -/
inductive System.Step : System → Action → System → Prop where
  | begin {s : System} {k : Nat} {call : Call} (new : s.calls k = .idle) (copies : call.Copies) :
      Step s (.begin k call) { s with calls := update s.calls k (.running call 0) }
  | write {s : System} {k n i : Nat} {copyin : Nat → Option UInt8} {killed : Nat → Bool}
      {part : Written} (under : s.calls k = .running (.write copyin n) i)
      (runs : part = pipewriteLoop copyin killed n i s.pipe) :
      Step s (.write k killed)
        { s with
          pipe := part.pipe
          calls := update s.calls k
            ((Call.write copyin n).after (i + part.stored.length) part.ending)
          killed := update s.killed k (∃ j, killed j = true)
          stored := s.stored ++ part.stored.map (some k, ·) }
  | read {s : System} {k n i : Nat} {copyout : Nat → Bool} {killed : Bool} {part : Delivered}
      (under : s.calls k = .running (.read copyout n) i)
      (runs : part = piperead copyout killed n s.pipe) :
      Step s (.read k killed)
        { s with
          pipe := part.pipe
          calls := update s.calls k ((Call.read copyout n).after part.bytes.length part.ending)
          killed := update s.killed k (killed = true)
          delivered := s.delivered ++ part.bytes.map (some k, ·) }
  | close {s : System} {writable : Bool} :
      Step s (.close writable)
        { s with
          pipe := if writable then { s.pipe with writeopen := false }
            else { s.pipe with readopen := false } }

/-- A pipe with any counters and contents, on which no call has started. -/
def System.Initial (s : System) : Prop :=
  s.pipe.Bounded ∧ (∀ k, s.calls k = .idle) ∧ s.stored = s.pipe.contents.map (none, ·) ∧
    s.delivered = []

/-! ### The bytes of a call -/

/-- The bytes that a call moved, in order. -/
def movedBy (log : List (Option Nat × UInt8)) (k : Nat) : List UInt8 :=
  (log.filter fun entry => entry.1 = some k).map Prod.snd

/-- The bytes of all calls. -/
def moved (log : List (Option Nat × UInt8)) : List UInt8 := log.map Prod.snd

theorem moved_append (log : List (Option Nat × UInt8)) (tag : Option Nat) (bytes : List UInt8) :
    moved (log ++ bytes.map (tag, ·)) = moved log ++ bytes := by
  rw [moved, moved, List.map_append, List.map_map]
  exact congrArg _ (List.map_id bytes)

theorem movedBy_append_self (log : List (Option Nat × UInt8)) (k : Nat) (bytes : List UInt8) :
    movedBy (log ++ bytes.map (some k, ·)) k = movedBy log k ++ bytes := by
  have all : (bytes.map (some k, ·)).filter (fun entry => entry.1 = some k) =
      bytes.map (some k, ·) := by simp
  rw [movedBy, movedBy, List.filter_append, List.map_append, all, List.map_map]
  exact congrArg _ (List.map_id bytes)

theorem movedBy_append_other (log : List (Option Nat × UInt8)) {k : Nat} {tag : Option Nat}
    (other : tag ≠ some k) (bytes : List UInt8) :
    movedBy (log ++ bytes.map (tag, ·)) k = movedBy log k := by
  have empty : (bytes.map (tag, ·)).filter (fun entry => entry.1 = some k) = [] := by
    simp [other]
  rw [movedBy, movedBy, List.filter_append, empty, List.append_nil]

/-- What a call has done by the bytes it stored and delivered. A write has stored the bytes
at its address in order, and returns their number, all of them, or -1 if the read end is
`closed` or its process `killed`; a read returns how many it delivered, or -1. -/
def Progress.Accounts (stored delivered : List UInt8) (closed killed : Prop) : Progress → Prop
  | .idle => stored = [] ∧ delivered = []
  | .running (.write copyin n) i =>
    stored.map some = (List.range i).map copyin ∧ delivered = [] ∧ i ≤ n
  | .running (.read _ _) _ => stored = [] ∧ delivered = []
  | .returned (.write copyin n) i ret =>
    stored.map some = (List.range i).map copyin ∧ delivered = [] ∧
      (ret = n ∧ i = n ∨ ret = -1 ∧ (closed ∨ killed))
  | .returned (.read _ n) _ ret =>
    stored = [] ∧ (ret = delivered.length ∧ delivered.length ≤ n ∨
      ret = -1 ∧ delivered = [] ∧ killed)

/-- The call is one whose copies succeed. -/
def Progress.Copies : Progress → Prop
  | .idle => True
  | .running call _ => call.Copies
  | .returned call _ _ => call.Copies

/-- The invariant: what was stored and not delivered is what the ring holds, and the bytes
of each call are accounted for. -/
structure System.Fifo (s : System) : Prop where
  bounded : s.pipe.Bounded
  queue : moved s.stored = moved s.delivered ++ s.pipe.contents
  copies : ∀ k, (s.calls k).Copies
  accounts : ∀ k, (s.calls k).Accounts (movedBy s.stored k) (movedBy s.delivered k)
    (s.pipe.readopen = false) (s.killed k)

section Steps

variable {s : System}

theorem Call.after_copies {call : Call} (copies : call.Copies) (i : Nat) (ending : End) :
    (call.after i ending).Copies := by
  cases ending with
  | returns ret => exact copies
  | sleeps => exact copies

/-- Closing the pipe makes no account wrong. -/
theorem Progress.Accounts.close {progress : Progress} {stored delivered : List UInt8}
    {closed closed' killed : Prop} (accounts : progress.Accounts stored delivered closed killed)
    (stays : closed → closed') : progress.Accounts stored delivered closed' killed := by
  cases progress with
  | idle => exact accounts
  | running call i =>
    cases call with
    | write copyin n => exact accounts
    | read copyout n => exact accounts
  | returned call i ret =>
    cases call with
    | write copyin n =>
      obtain ⟨bytes, nothing, ended⟩ := accounts
      exact ⟨bytes, nothing, ended.imp_right fun failed => ⟨failed.1, failed.2.imp_left stays⟩⟩
    | read copyout n => exact accounts

theorem System.Fifo.write (fifo : s.Fifo) {k n i : Nat} {copyin : Nat → Option UInt8}
    {killed : Nat → Bool} {part : Written} (under : s.calls k = .running (.write copyin n) i)
    (runs : part = pipewriteLoop copyin killed n i s.pipe) :
    ((Call.write copyin n).after (i + part.stored.length) part.ending).Accounts
      (movedBy s.stored k ++ part.stored) (movedBy s.delivered k) (part.pipe.readopen = false)
      (∃ j, killed j = true) := by
  have accounts := fifo.accounts k
  have copies := fifo.copies k
  rw [under] at accounts copies
  obtain ⟨bytes, nothing, within⟩ := accounts
  obtain ⟨stored, same, most, ending⟩ := @pipewriteLoop_ends s.pipe copyin killed n i copies within
  rw [← runs] at stored same most ending
  have inOrder : (movedBy s.stored k ++ part.stored).map some =
      (List.range (i + part.stored.length)).map copyin := by
    rw [List.map_append, bytes, stored, ← List.map_append, List.range_eq_range',
      List.range_eq_range', ← List.range'_append_1, Nat.zero_add]
  obtain ⟨ending, all⟩ | ⟨ending, stops⟩ | ⟨ending, -⟩ := ending
  · rw [ending]
    exact ⟨inOrder, nothing, .inl ⟨rfl, all⟩⟩
  · rw [ending, same]
    exact ⟨inOrder, nothing, .inr ⟨rfl, stops⟩⟩
  · rw [ending]
    exact ⟨inOrder, nothing, most⟩

theorem System.Fifo.read (fifo : s.Fifo) {k n i : Nat} {copyout : Nat → Bool} {killed : Bool}
    {part : Delivered} (under : s.calls k = .running (.read copyout n) i)
    (runs : part = piperead copyout killed n s.pipe) :
    ((Call.read copyout n).after part.bytes.length part.ending).Accounts (movedBy s.stored k)
      (movedBy s.delivered k ++ part.bytes) (part.pipe.readopen = false) (killed = true) := by
  have accounts := fifo.accounts k
  have copies := fifo.copies k
  rw [under] at accounts copies
  obtain ⟨nothing, before⟩ := accounts
  obtain ⟨-, -, -, ending⟩ := piperead_ends killed copies fifo.bounded
  rw [← runs] at ending
  rw [before, List.nil_append]
  obtain ⟨ending, count⟩ | ⟨ending, isKilled, empty⟩ | ⟨ending, empty, -⟩ := ending
  · rw [ending]
    exact ⟨nothing, .inl ⟨by rw [count], by rw [count]; exact min_le_left _ _⟩⟩
  · rw [ending]
    exact ⟨nothing, .inr ⟨rfl, empty, isKilled⟩⟩
  · rw [ending]
    exact ⟨nothing, empty⟩

/-- A part of one call leaves the accounts of the others as they were. -/
theorem System.Fifo.moves (fifo : s.Fifo) {t : System} {k : Nat} {progress : Progress}
    (calls : t.calls = update s.calls k progress) (bounded : t.pipe.Bounded)
    (queue : moved t.stored = moved t.delivered ++ t.pipe.contents) (copies : progress.Copies)
    (same : t.pipe.readopen = s.pipe.readopen)
    (mine : progress.Accounts (movedBy t.stored k) (movedBy t.delivered k)
      (t.pipe.readopen = false) (t.killed k))
    (others : ∀ j ≠ k, movedBy t.stored j = movedBy s.stored j ∧
      movedBy t.delivered j = movedBy s.delivered j ∧ t.killed j = s.killed j) : t.Fifo := by
  refine ⟨bounded, queue, fun j => ?_, fun j => ?_⟩
  · rw [calls]
    by_cases isCall : j = k
    · rwa [isCall, update_self]
    · rw [update_of_ne isCall]
      exact fifo.copies j
  · rw [calls]
    by_cases isCall : j = k
    · rwa [isCall, update_self]
    · obtain ⟨stored, delivered, killed⟩ := others j isCall
      rw [update_of_ne isCall, stored, delivered, killed, same]
      exact fifo.accounts j

theorem System.Fifo.step (fifo : s.Fifo) {action : Action} {t : System} (step : s.Step action t) :
    t.Fifo := by
  cases step with
  | @begin k call new copies =>
    refine fifo.moves rfl fifo.bounded fifo.queue copies rfl ?_ fun _ _ => ⟨rfl, rfl, rfl⟩
    have accounts := fifo.accounts k
    rw [new] at accounts
    cases call with
    | write copyin n => exact ⟨by rw [accounts.1]; rfl, accounts.2, Nat.zero_le n⟩
    | read copyout n => exact accounts
  | @write k n i copyin killed part under runs =>
    have copies := fifo.copies k
    have before := fifo.accounts k
    rw [under] at copies before
    obtain ⟨contents, bounded⟩ := pipewriteLoop_contents copyin killed n i fifo.bounded
    obtain ⟨-, same, -⟩ := @pipewriteLoop_ends s.pipe copyin killed n i copies before.2.2
    rw [← runs] at contents bounded same
    refine fifo.moves rfl bounded ?_
      (@Call.after_copies (.write copyin n) copies _ _) same ?_
      fun j other => ⟨movedBy_append_other _ (by simpa using Ne.symm other) _, rfl,
        update_of_ne other _ _⟩
    · rw [moved_append, contents, fifo.queue, List.append_assoc]
    · simp only [movedBy_append_self, update_self]
      exact fifo.write under runs
  | @read k n i copyout killed part under runs =>
    have copies := fifo.copies k
    rw [under] at copies
    obtain ⟨contents, bounded, same, -⟩ := piperead_ends killed copies fifo.bounded
    rw [← runs] at contents bounded same
    refine fifo.moves rfl bounded ?_
      (@Call.after_copies (.read copyout n) copies _ _) same ?_
      fun j other => ⟨rfl, movedBy_append_other _ (by simpa using Ne.symm other) _,
        update_of_ne other _ _⟩
    · rw [moved_append, fifo.queue, contents, List.append_assoc]
    · simp only [movedBy_append_self, update_self]
      exact fifo.read under runs
  | @close writable =>
    cases writable with
    | true => exact ⟨fifo.bounded, fifo.queue, fifo.copies, fifo.accounts⟩
    | false =>
      exact ⟨fifo.bounded, fifo.queue, fifo.copies, fun k => (fifo.accounts k).close fun _ => rfl⟩

theorem System.Initial.fifo (initial : s.Initial) : s.Fifo := by
  obtain ⟨bounded, idle, stored, delivered⟩ := initial
  refine ⟨bounded, ?_, fun k => ?_, fun k => ?_⟩
  · rw [stored, delivered]
    exact moved_append [] none s.pipe.contents
  · rw [idle k]
    exact trivial
  · rw [idle k, stored, delivered]
    exact ⟨movedBy_append_other [] (by simp) s.pipe.contents, rfl⟩

end Steps

/-- In every interleaving the bytes delivered are the first bytes stored, the rest of them
is what the pipe holds, and the counters stay at most `PIPESIZE` apart. The bytes stored
are those of the calls, each call's in order and as many as it returns; so are the bytes
delivered. A call sleeps only on a full pipe or an empty one, and a read takes what there
is. -/
theorem pipe_fifo {steps : List (System × Action)} {s : System}
    (run : Run System.Initial System.Step steps s) :
    (moved s.delivered <+: moved s.stored ∧
      moved s.stored = moved s.delivered ++ s.pipe.contents ∧
      (s.pipe.nwrite - s.pipe.nread).toNat ≤ pipeSize) ∧
    (∀ k, (s.calls k).Accounts (movedBy s.stored k) (movedBy s.delivered k)
      (s.pipe.readopen = false) (s.killed k)) ∧
    (∀ k killed t call i, s.Step (.write k killed) t → t.calls k = .running call i →
      t.pipe.full = true) ∧
    ∀ k killed t, s.Step (.read k killed) t →
      (∀ call i, t.calls k = .running call i → t.pipe.empty = true ∧ t.pipe.writeopen = true) ∧
      ∀ copyout n i ret, t.calls k = .returned (.read copyout n) i ret →
        ret = -1 ∨ ret = (min n s.pipe.count : Nat) := by
  have fifo : s.Fifo :=
    run.invariant System.Fifo (fun _ initial => initial.fifo) fun _ _ _ before step =>
      before.step step
  refine ⟨⟨⟨s.pipe.contents, fifo.queue.symm⟩, fifo.queue, fifo.bounded⟩, fifo.accounts, ?_, ?_⟩
  · intro k killed t call i step asleep
    cases step with
    | @write _ n j copyin _ part under runs =>
      have copies := fifo.copies k
      have before := fifo.accounts k
      rw [under] at copies before
      obtain ⟨-, -, -, ending⟩ := @pipewriteLoop_ends s.pipe copyin killed n j copies before.2.2
      rw [← runs] at ending
      simp only [update_self] at asleep
      obtain ⟨ending, -⟩ | ⟨ending, -⟩ | ⟨-, isFull⟩ := ending
      · rw [ending] at asleep
        cases asleep
      · rw [ending] at asleep
        cases asleep
      · exact isFull
  · intro k killed t step
    cases step with
    | @read _ n j copyout _ part under runs =>
      have copies := fifo.copies k
      rw [under] at copies
      obtain ⟨-, -, -, ending⟩ := piperead_ends killed copies fifo.bounded
      rw [← runs] at ending
      simp only [update_self]
      refine ⟨fun call i asleep => ?_, fun copyout' n' i ret returned => ?_⟩
      · obtain ⟨ending, -⟩ | ⟨ending, -⟩ | ⟨-, -, waits⟩ := ending
        · rw [ending] at asleep
          cases asleep
        · rw [ending] at asleep
          cases asleep
        · exact waits
      · obtain ⟨ending, -⟩ | ⟨ending, -⟩ | ⟨ending, -⟩ := ending
        · rw [ending] at returned
          cases returned
          exact .inr rfl
        · rw [ending] at returned
          cases returned
          exact .inl rfl
        · rw [ending] at returned
          cases returned

/-- An empty pipe whose counters are about to wrap. -/
def wrapping : System where
  pipe := ⟨fun _ => 0, 0xffffffff, 0xffffffff, true, true⟩
  calls := fun _ => .idle
  killed := fun _ => False
  stored := []
  delivered := []

/-- A call that writes two bytes. -/
def twoBytes : Call := .write (fun k => some (7 + UInt8.ofNat k)) 2

/-- Two bytes written across the wrap of the counters, and one of them read. -/
theorem pipe_fifo_wrapping :
    ∃ s : System, s.pipe.nwrite = 1 ∧ moved s.stored = [7, 8] ∧ moved s.delivered = [7] ∧
      (∃ i, s.calls 3 = .returned twoBytes i 2) ∧
      moved s.stored = moved s.delivered ++ s.pipe.contents := by
  have initial : wrapping.Initial := ⟨by decide, fun _ => rfl, rfl, rfl⟩
  have begun := @System.Step.begin wrapping 3 twoBytes rfl fun _ _ => rfl
  have first : wrapping.pipe.full = false := by decide
  have second : (wrapping.pipe.put 7).full = false := by decide
  have loop : pipewriteLoop (fun k => some (7 + UInt8.ofNat k)) (fun _ => false) 2 0 wrapping.pipe =
      ⟨(wrapping.pipe.put 7).put 8, [7, 8], .returns 2⟩ := by
    have open1 : wrapping.pipe.readopen = true := rfl
    have open2 : (wrapping.pipe.put 7).readopen = true := rfl
    simp [pipewriteLoop, first, second, open1, open2]
  have written := @System.Step.write
    { wrapping with calls := update wrapping.calls 3 (.running twoBytes 0) }
    3 2 0 _ (fun _ => false) _ (update_self 3 _ wrapping.calls) loop.symm
  have taken : piperead (fun _ => true) false 1 ((wrapping.pipe.put 7).put 8) =
      ⟨((wrapping.pipe.put 7).put 8).advance, [7], .returns 1⟩ := by
    have notEmpty : ((wrapping.pipe.put 7).put 8).empty = false := by decide
    have front : ((wrapping.pipe.put 7).put 8).front = 7 := by decide
    simp [piperead, pipereadLoop, notEmpty, front]
  have reading := ((Run.start initial).snoc begun).snoc written |>.snoc
    (@System.Step.begin _ 4 (.read (fun _ => true) 1) rfl fun _ _ => rfl)
  have run := reading.snoc
    (@System.Step.read _ 4 1 0 (fun _ => true) false _ rfl taken.symm)
  exact ⟨_, rfl, rfl, rfl, ⟨_, rfl⟩, (pipe_fifo run).1.2.1⟩

end Xv6.Kernel.Pipe
