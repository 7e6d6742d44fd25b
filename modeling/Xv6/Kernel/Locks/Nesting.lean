import Xv6.Lib.Transition

/-!
`push_off` and `pop_off` with the switches of `sched`.

Owns: the interrupt flag, `noff` and `intena` of each CPU, kernel threads that nest
`push_off` and `pop_off`, give up the CPU in `sched` and go on in another one, the
scheduler of each CPU between them, and that interrupts stay with the thread.

Does not own: which thread runs when. Of the locks only `p->lock` is kept; taking any other
is a `push_off`, and releasing it a `pop_off`.
-/

namespace Xv6.Kernel.Locks.Nesting

open Xv6.Lib
open Function (forall_update_iff update update_eq_self update_apply update_of_ne update_self)

/-- The interrupt flag and the fields of `struct cpu` that go with it. -/
structure Cpu where
  intr : Bool
  noff : Nat
  intena : Bool

/-- `push_off` -/
def pushOff (cpu : Cpu) : Cpu where
  intr := false
  intena := if cpu.noff = 0 then cpu.intr else cpu.intena
  noff := cpu.noff + 1

/-- `pop_off` -/
def popOff (cpu : Cpu) : Except String Cpu :=
  if cpu.intr = true then .error "pop_off - interruptible"
  else if cpu.noff < 1 then .error "pop_off"
  else if cpu.noff - 1 = 0 ∧ cpu.intena = true then
    .ok { cpu with noff := cpu.noff - 1, intr := true }
  else .ok { cpu with noff := cpu.noff - 1 }

theorem popOff_eq {cpu : Cpu} (off : cpu.intr = false) (deep : 0 < cpu.noff) :
    popOff cpu = .ok ⟨decide (cpu.noff = 1) && cpu.intena, cpu.noff - 1, cpu.intena⟩ := by
  obtain ⟨intr, noff, intena⟩ := cpu
  obtain rfl : intr = false := off
  obtain ⟨n, rfl⟩ : ∃ n, noff = n + 1 := ⟨noff - 1, (Nat.sub_add_cancel deep).symm⟩
  cases intena <;> cases n <;> simp [popOff]

/-- Who runs on a CPU: a process in the kernel, or the CPU's scheduler. -/
inductive Context (C T : Type) where
  | thread (p : T)
  | scheduler (c : C)
deriving DecidableEq

/-- `lock p` is `p->lock` with the CPU in `lk->cpu` and who is to release it; `stopped` says
that `p->state` is not `RUNNING`; `fresh` that `p` has not run and will begin in `forkret`;
`saved` is the local variable of `sched`. `depth` counts the calls of `push_off` that are
yet to be undone, and `entry` is the interrupt flag at the first of them. -/
structure State (C T : Type) where
  cpu : C → Cpu
  current : C → Context C T
  lock : T → Option (C × Context C T)
  stopped : T → Bool
  fresh : T → Bool
  saved : T → Bool
  depth : Context C T → Nat
  entry : Context C T → Bool

/-- What the context on a CPU does: set the interrupt flag (a trap, the return from it,
`intr_on`, `intr_off`), call `push_off`, `pop_off`, take and free a `p->lock`, change
`p->state`, call `sched`, or switch to a process. -/
inductive Act (T : Type) where
  | set (on : Bool)
  | pushOff
  | popOff
  | take (q : T)
  | free (q : T)
  | stop (p : T)
  | sched (p : T)
  | dispatch (p : T)

variable {C T : Type}

/-- The checks of `sched`. -/
def schedCheck [DecidableEq C] (s : State C T) (c : C) (p : T) : Except String Unit :=
  if (s.lock p).map Prod.fst ≠ some c then .error "sched p->lock"
  else if (s.cpu c).noff ≠ 1 then .error "sched locks"
  else if s.stopped p = false then .error "sched running"
  else if (s.cpu c).intr = true then .error "sched interruptible"
  else .ok ()

/-- The context has no `p->lock` but those of `qs`. -/
def State.HasOnly (s : State C T) (o : Context C T) (qs : Set T) : Prop :=
  ∀ q c, s.lock q = some (c, o) → q ∈ qs

variable [DecidableEq C] [DecidableEq T]

/-- One step, which may panic. The guards say that the code is well nested: the flag is only
set outside of every `push_off`, the last `pop_off` is not called with a lock, and `sched` is
called with the process's own lock, no other `push_off`, and after `p->state` was changed. -/
inductive Step (s : State C T) (c : C) : Act T → Except String (State C T) → Prop where
  | set (on : Bool) (outside : s.depth (s.current c) = 0) :
      Step s c (.set on) (.ok { s with cpu := update s.cpu c { s.cpu c with intr := on } })
  | pushOff :
      Step s c .pushOff (.ok { s with
        cpu := update s.cpu c (Nesting.pushOff (s.cpu c))
        depth := update s.depth (s.current c) (s.depth (s.current c) + 1)
        entry := update s.entry (s.current c)
          (if s.depth (s.current c) = 0 then (s.cpu c).intr else s.entry (s.current c)) })
  | popOff (nested : 0 < s.depth (s.current c))
      (unlocked : s.depth (s.current c) = 1 → s.HasOnly (s.current c) ∅) :
      Step s c .popOff ((Nesting.popOff (s.cpu c)).map fun cpu => { s with
        cpu := update s.cpu c cpu
        depth := update s.depth (s.current c) (s.depth (s.current c) - 1) })
  | take {q : T} (nested : 0 < s.depth (s.current c)) (free : s.lock q = none) :
      Step s c (.take q) (.ok { s with lock := update s.lock q (some (c, s.current c)) })
  | free {q : T} (mine : s.lock q = some (c, s.current c))
      (runs : s.current c = .thread q → s.stopped q = false) :
      Step s c (.free q) (.ok { s with lock := update s.lock q none })
  | stop {p : T} (runs : s.current c = .thread p) (mine : s.lock p = some (c, .thread p)) :
      Step s c (.stop p) (.ok { s with stopped := update s.stopped p true })
  | sched {p : T} (runs : s.current c = .thread p) (mine : ∃ c', s.lock p = some (c', .thread p))
      (nested : s.depth (.thread p) = 1) (only : s.HasOnly (.thread p) {p})
      (stopped : s.stopped p = true) :
      Step s c (.sched p) ((schedCheck s c p).map fun _ => { s with
        saved := update s.saved p (s.cpu c).intena
        current := update s.current c (.scheduler c)
        lock := update s.lock p (some (c, .scheduler c)) })
  | dispatch {p : T} (runs : s.current c = .scheduler c) (mine : s.lock p = some (c, .scheduler c))
      (nested : s.depth (.scheduler c) = 1) (only : s.HasOnly (.scheduler c) {p})
      (stopped : s.stopped p = true) :
      Step s c (.dispatch p) (.ok { s with
        stopped := update s.stopped p false
        fresh := update s.fresh p false
        current := update s.current c (.thread p)
        lock := update s.lock p (some (c, .thread p))
        cpu := update s.cpu c
          { s.cpu c with intena := if s.fresh p = true then (s.cpu c).intena else s.saved p }
        entry := update s.entry (.thread p)
          (if s.fresh p = true then (s.cpu c).intena else s.entry (.thread p)) })

/-- The invariant. -/
structure Nested (s : State C T) : Prop where
  noff : ∀ c, (s.cpu c).noff = s.depth (s.current c)
  off : ∀ c, 0 < (s.cpu c).noff → (s.cpu c).intr = false
  intena : ∀ c p, s.current c = .thread p → 0 < s.depth (.thread p) →
    (s.cpu c).intena = s.entry (.thread p)
  home : ∀ c c', s.current c = .scheduler c' → c' = c
  unique : ∀ c c' p, s.current c = .thread p → s.current c' = .thread p → c' = c
  away : ∀ o, (∀ c, s.current c ≠ o) → s.depth o = 1
  saved : ∀ p, (∀ c, s.current c ≠ .thread p) → s.fresh p = false → s.saved p = s.entry (.thread p)
  locked : ∀ q c o, s.lock q = some (c, o) → s.current c = o ∧ 0 < s.depth o
  stopped : ∀ c p, s.current c = .thread p → s.stopped p = true → s.lock p = some (c, .thread p)

namespace Nested

variable {s s' : State C T} {c : C} {p q : T} {act : Act T}

omit [DecidableEq C] [DecidableEq T] in
/-- Two CPUs do not run the same context. -/
theorem current_ne (nested : Nested s) {c' : C} (other : c' ≠ c) : s.current c' ≠ s.current c := by
  intro same
  cases here : s.current c with
  | thread p => exact other (nested.unique c c' p here (same.trans here))
  | scheduler d =>
    exact other ((nested.home c' d (same.trans here)).symm.trans (nested.home c d here))

/-- The context on a CPU changes its nesting. -/
theorem recount (nested : Nested s) (cpu : Cpu) (depth : Nat) (entry : Bool)
    (noff : cpu.noff = depth) (off : 0 < depth → cpu.intr = false)
    (intena : 0 < depth → ∀ p, s.current c = .thread p → cpu.intena = entry)
    (unlocked : depth = 0 → s.HasOnly (s.current c) ∅) :
    Nested { s with
      cpu := update s.cpu c cpu
      depth := update s.depth (s.current c) depth
      entry := update s.entry (s.current c) entry } := by
  have elsewhere {c' : C} (other : c' ≠ c) := nested.current_ne other
  refine { nested with
    noff := ?noff, off := ?off, intena := ?intena, away := ?away, saved := ?saved,
      locked := ?locked } <;>
    simp only [update_apply]
  case noff => grind [nested.noff]
  case off => grind [nested.off]
  case intena => grind [nested.intena]
  case away => grind [nested.away]
  case saved => grind [nested.saved]
  case locked =>
    intro q c' o isLock
    obtain ⟨runs, deep⟩ := nested.locked q c' o isLock
    refine ⟨runs, ?_⟩
    split_ifs with same
    · exact Nat.pos_of_ne_zero fun absent => unlocked absent q c' (same ▸ isLock)
    · exact deep

omit [DecidableEq T] in
theorem schedCheck_eq (nested : Nested s) (runs : s.current c = .thread p) {c' : C}
    (mine : s.lock p = some (c', .thread p)) (deep : s.depth (.thread p) = 1)
    (stopped : s.stopped p = true) :
    schedCheck s c p = .ok () := by
  have noff := nested.noff c
  rw [runs, deep] at noff
  obtain ⟨here, _⟩ := nested.locked p c' _ mine
  obtain rfl := nested.unique c c' p runs here
  simp [schedCheck, mine, noff, stopped, nested.off c' (by omega)]

omit [DecidableEq C] in
/-- A `p->lock` changes hands. -/
theorem relock (nested : Nested s) {holder : Option (C × Context C T)}
    (held : ∀ c o, holder = some (c, o) → s.current c = o ∧ 0 < s.depth o)
    (stopped : ∀ c, s.current c = .thread q → s.stopped q = true → holder = some (c, .thread q)) :
    Nested { s with lock := update s.lock q holder } := by
  refine { nested with locked := ?_, stopped := ?_ } <;> dsimp only
  · rw [forall_update_iff s.lock fun _ held =>
      ∀ c o, held = some (c, o) → s.current c = o ∧ 0 < s.depth o]
    exact ⟨held, fun q' _ => nested.locked q'⟩
  · simp only [update_apply]
    grind [nested.stopped]

/-- The CPU goes over from one context to another with the lock of a process, which is one of the
two. -/
theorem switch (nested : Nested s) {next : Context C T} (only : s.HasOnly (s.current c) {p})
    (one : s.depth (s.current c) = 1) (absent : ∀ c', s.current c' ≠ next)
    (home : ∀ d, next = .scheduler d → d = c) (stopped fresh saved : T → Bool)
    (entry : Bool) (cpu : Cpu) (intr : cpu.intr = (s.cpu c).intr) (noff : cpu.noff = (s.cpu c).noff)
    (others : ∀ q ≠ p, stopped q = s.stopped q ∧ fresh q = s.fresh q ∧ saved q = s.saved q)
    (leaves : ∀ q, s.current c = .thread q → q = p ∧ saved q = entry)
    (enters : ∀ q, next = .thread q → q = p ∧ cpu.intena = entry ∧ stopped q = false)
    (mine : next = .thread p ∨ s.current c = .thread p) :
    Nested { s with
      stopped, fresh, saved
      current := update s.current c next
      lock := update s.lock p (some (c, next))
      cpu := update s.cpu c cpu
      entry := update s.entry (.thread p) entry } := by
  have elsewhere {c' : C} (other : c' ≠ c) {q : T} (runs : s.current c' = .thread q) : q ≠ p := by
    rintro rfl
    rcases mine with isNext | isCurrent
    · exact absent c' (runs.trans isNext.symm)
    · exact other (nested.unique c c' q isCurrent runs)
  have count : s.depth next = 1 := nested.away next absent
  constructor <;> simp only [update_apply]
  case noff => grind [nested.noff]
  case off => grind [nested.off]
  case intena => grind [nested.intena]
  case home => grind [nested.home]
  case unique => grind [nested.unique]
  case away => grind [nested.away]
  case stopped => grind [nested.stopped]
  case saved =>
    intro q absent' notFresh
    by_cases same : q = p
    · have here := absent' c
      rw [if_pos rfl] at here
      subst same
      rw [if_pos rfl]
      exact (leaves q (mine.resolve_left here)).2
    · have away : ∀ c', s.current c' ≠ .thread q := by grind
      obtain ⟨_, isFresh, isSaved⟩ := others q same
      rw [if_neg fun isP => same (Context.thread.inj isP), isSaved]
      exact nested.saved q away (isFresh ▸ notFresh)
  case locked =>
    intro q c' o isLock
    split_ifs at isLock with same
    · cases isLock
      rw [if_pos rfl, count]
      exact ⟨rfl, Nat.one_pos⟩
    · obtain ⟨runs, deep⟩ := nested.locked q c' o isLock
      rw [if_neg fun isC => same (only q c' ?_)]
      · exact ⟨runs, deep⟩
      · rw [isLock, ← runs, isC]

/-- Every step that does not panic keeps the invariant. -/
theorem step (nested : Nested s) (stepped : Step s c act (.ok s')) : Nested s' := by
  have noff := nested.noff c
  generalize isResult : Except.ok s' = result at stepped
  cases stepped with
  | set on outside =>
    cases isResult
    have kept := nested.recount (c := c) { s.cpu c with intr := on } _ (s.entry (s.current c)) noff
      (fun deep => by omega) (fun deep => by omega) fun absent q c' isLock => ?_
    · rwa [update_eq_self, update_eq_self] at kept
    · have deep := (nested.locked q c' _ isLock).2
      omega
  | pushOff =>
    cases isResult
    refine nested.recount _ _ _ (congrArg (· + 1) noff) (fun _ => rfl) ?_ fun absent => by omega
    intro _ p runs
    by_cases first : s.depth (s.current c) = 0
    · rw [if_pos first, pushOff, if_pos (noff.trans first)]
    · rw [if_neg first, pushOff, if_neg fun absent => first (noff.symm.trans absent), runs]
      exact nested.intena c p runs (Nat.pos_of_ne_zero (runs ▸ first))
  | popOff deep unlocked =>
    rw [popOff_eq (nested.off c (noff ▸ deep)) (noff ▸ deep)] at isResult
    cases isResult
    have kept := nested.recount (c := c)
      ⟨decide ((s.cpu c).noff = 1) && (s.cpu c).intena, (s.cpu c).noff - 1, (s.cpu c).intena⟩ _
      (s.entry (s.current c)) (congrArg (· - 1) noff) (fun left => ?_) (fun _ p runs => ?_)
        (fun absent => unlocked (by omega))
    · rwa [update_eq_self] at kept
    · rw [decide_eq_false (by omega), Bool.false_and]
    · rw [runs] at deep ⊢
      exact nested.intena c p runs deep
  | @take q deep free =>
    cases isResult
    apply nested.relock
    · intro c' o same
      cases same
      exact ⟨rfl, deep⟩
    · intro c' runs isStopped
      cases free.symm.trans (nested.stopped c' q runs isStopped)
  | @free q mine runs =>
    cases isResult
    apply nested.relock
    · intro c' o same
      cases same
    · intro c' runs' isStopped
      have held := nested.stopped c' q runs' isStopped
      rw [mine] at held
      cases (runs (Prod.mk.inj (Option.some.inj held)).2).symm.trans isStopped
  | @stop p runs mine =>
    cases isResult
    refine { nested with stopped := ?_ }
    intro c' q runs'
    by_cases same : q = p
    · subst same
      rw [nested.unique c c' q runs runs']
      exact fun _ => mine
    · dsimp only
      rw [update_of_ne same]
      exact nested.stopped c' q runs'
  | @sched p runs mine deep only isStopped =>
    obtain ⟨c', mine⟩ := mine
    rw [nested.schedCheck_eq runs mine deep isStopped] at isResult
    cases isResult
    have intena := nested.intena c p runs (by omega)
    have kept := @switch _ _ _ _ s c p nested (.scheduler c) (by rwa [runs]) (by rwa [runs]) ?_
      (fun d same => (Context.scheduler.inj same).symm) s.stopped s.fresh
        (update s.saved p (s.cpu c).intena)
      (s.entry (.thread p)) (s.cpu c) rfl rfl ?_ ?_ ?_ (.inr runs)
    · rwa [update_eq_self, update_eq_self] at kept
    · intro d same
      obtain rfl := nested.home d c same
      cases runs.symm.trans same
    · exact fun q other => ⟨rfl, rfl, update_of_ne other ..⟩
    · intro q same
      cases runs.symm.trans same
      exact ⟨rfl, (update_self ..).trans intena⟩
    · exact fun q same => by cases same
  | @dispatch p runs mine deep only isStopped =>
    cases isResult
    have absent (c' : C) : s.current c' ≠ .thread p := by
      intro same
      cases mine.symm.trans (nested.stopped c' p same isStopped)
    refine nested.switch (by rwa [runs]) (by rwa [runs]) absent
      (fun d same => by cases same) _ _ s.saved _
      { s.cpu c with intena := if s.fresh p = true then (s.cpu c).intena else s.saved p }
      rfl rfl ?_ ?_ ?_ (.inl rfl)
    · exact fun q other => ⟨update_of_ne other .., update_of_ne other .., rfl⟩
    · intro q same
      cases runs.symm.trans same
    · intro q same
      cases same
      refine ⟨rfl, ?_, update_self ..⟩
      dsimp only
      split_ifs with fresh
      · rfl
      · exact nested.saved p absent (Bool.eq_false_iff.mpr fresh)

end Nested

/-! ### Runs -/

/-- Each CPU is in its scheduler without a lock, and the processes have not run. -/
structure Initial (s : State C T) : Prop where
  current : ∀ c, s.current c = .scheduler c
  noff : ∀ c, (s.cpu c).noff = 0
  lock : ∀ p, s.lock p = none
  fresh : ∀ p, s.fresh p = true
  scheduler : ∀ c, s.depth (.scheduler c) = 0
  thread : ∀ p, s.depth (.thread p) = 1

/-- Runs without a panic. -/
abbrev Runs (steps : List (State C T × (C × Act T))) (s : State C T) : Prop :=
  Run Initial (fun s label s' => Step s label.1 label.2 (.ok s')) steps s

variable {steps : List (State C T × (C × Act T))} {s : State C T}

theorem Runs.extend (run : Runs steps s) (c : C) {act : Act T} {s' : State C T}
    (stepped : Step s c act (.ok s')) :
    Runs (steps ++ [(s, (c, act))]) s' :=
  run.snoc stepped

theorem Runs.nested (run : Runs steps s) : Nested s := by
  refine run.invariant Nested ?_ fun s label s' nested stepped => nested.step stepped
  rintro s ⟨current, noff, lock, fresh, scheduler, thread⟩
  constructor
  case away =>
    intro o absent
    cases o with
    | thread p => exact thread p
    | scheduler c => exact absurd (current c) (absent c)
  all_goals simp [current, noff, lock, fresh, scheduler]

/-- In every run, interrupts are off on a CPU whose `noff` is positive, no step panics, and the
last `pop_off` of a thread leaves interrupts as they were at its first `push_off`. -/
theorem interrupts_follow_thread (run : Runs steps s) :
    (∀ c, 0 < (s.cpu c).noff → (s.cpu c).intr = false) ∧
      (∀ c act panic, ¬Step s c act (.error panic)) ∧
      (∀ c p s', s.current c = .thread p → s.depth (.thread p) = 1 → Step s c .popOff (.ok s') →
        (s'.cpu c).intr = s.entry (.thread p)) := by
  have nested := run.nested
  refine ⟨nested.off, ?_, ?_⟩
  · intro c act panic stepped
    generalize isResult : Except.error panic = result at stepped
    have noff := nested.noff c
    cases stepped with
    | popOff deep =>
      rw [popOff_eq (nested.off c (noff ▸ deep)) (noff ▸ deep)] at isResult
      cases isResult
    | sched runs mine deep only stopped =>
      rw [nested.schedCheck_eq runs mine.choose_spec deep stopped] at isResult
      cases isResult
    | _ => cases isResult
  · intro c p s' runs one stepped
    have noff := nested.noff c
    have intena := nested.intena c p runs (by omega)
    rw [runs, one] at noff
    generalize isResult : Except.ok s' = result at stepped
    cases stepped with
    | popOff deep =>
      rw [popOff_eq (nested.off c (by omega)) (by omega)] at isResult
      cases isResult
      simp [noff, intena]

/-- Two CPUs, with interrupts on at one of them, and one process. -/
def twoCpus : State Bool Unit where
  cpu := fun c => ⟨c, 0, false⟩
  current := .scheduler
  lock := fun _ => none
  stopped := fun _ => true
  fresh := fun _ => true
  saved := fun _ => false
  depth := fun
    | .scheduler _ => 0
    | .thread _ => 1
  entry := fun _ => false

/-- The process begins on the CPU with interrupts on, gives it up in `sched` and goes on on the
other one, where its last `pop_off` turns interrupts on. -/
theorem interrupts_follow_thread_moved :
    ∃ (steps : List (State Bool Unit × (Bool × Act Unit))) (s : State Bool Unit), Runs steps s ∧
      steps.map Prod.snd = [(true, .pushOff), (true, .take ()), (true, .dispatch ()),
        (true, .free ()), (true, .popOff), (true, .pushOff), (true, .take ()), (true, .stop ()),
        (true, .sched ()), (true, .free ()), (false, .pushOff), (false, .take ()),
        (false, .dispatch ()), (false, .free ())] ∧
      s.current false = .thread () ∧ s.depth (.thread ()) = 1 ∧ (s.cpu false).intr = false ∧
      (∀ s', Step s false .popOff (.ok s') → (s'.cpu false).intr = true) ∧
      ∀ c act panic, ¬Step s c act (.error panic) := by
  have only (s : State Bool Unit) (o : Context Bool Unit) : s.HasOnly o {()} := fun _ _ _ => rfl
  have begun : Runs [] twoCpus :=
    .start ⟨fun _ => rfl, fun _ => rfl, fun _ => rfl, fun _ => rfl, fun _ => rfl, fun _ => rfl⟩
  have first := ((begun.extend true .pushOff).extend true (.take (q := ()) Nat.one_pos rfl)).extend
    true (.dispatch (p := ()) rfl rfl rfl (only _ _) rfl)
  have freed := first.extend true (.free (q := ()) rfl fun _ => rfl)
  have popped := freed.extend true (.popOff Nat.one_pos fun _ _ _ held =>
    absurd held.symm (Option.some_ne_none _))
  have stopped := ((popped.extend true .pushOff).extend true
    (.take (q := ()) Nat.one_pos rfl)).extend true (.stop (p := ()) rfl rfl)
  have gone := stopped.extend true (.sched (p := ()) rfl ⟨true, rfl⟩ rfl (only _ _) rfl)
  have left := gone.extend true (.free (q := ()) rfl fun same => by cases same)
  have moved := ((left.extend false .pushOff).extend false (.take (q := ()) Nat.one_pos rfl)).extend
    false (.dispatch (p := ()) rfl rfl rfl (only _ _) rfl)
  have last := moved.extend false (.free (q := ()) rfl fun _ => rfl)
  obtain ⟨_, safe, restored⟩ := interrupts_follow_thread last
  exact ⟨_, _, last, rfl, rfl, rfl, rfl, fun s' => restored false () s' rfl rfl, safe⟩

end Xv6.Kernel.Locks.Nesting
