import Xv6.Kernel.Sched.Preserved

/-!
Parents and children.

Owns: which processes are whose children, how a step changes that and who is dead, and what
`fork`, `exit` and `wait` know about the children of the process they run in.

Does not own: who sleeps in `wait`.
-/

namespace Xv6.Kernel.Sched

open Xv6.Lib

/-- What a state says about a process: no process, one that `fork` is making, one that may
run, or one that has exited. -/
inductive Life where
  | free
  | embryo
  | alive
  | dead
deriving DecidableEq

def ProcState.life : ProcState → Life
  | .unused => .free
  | .used => .embryo
  | .runnable => .alive
  | .running => .alive
  | .sleeping => .alive
  | .zombie => .dead

theorem ProcState.life_eq_dead {state : ProcState} : state.life = .dead ↔ state = .zombie := by
  cases state <;> simp [ProcState.life]

/-- Every child has a parent that is alive, everyone but `initproc` who has started is a
child, and a free slot is no one's. -/
structure Lineage (table : Table) : Prop where
  parents : ∀ q p, (table q).parent = some p → (table p).state.life = .alive
  born : ∀ q, q ≠ initproc → (table q).state.life = .alive ∨ (table q).state.life = .dead →
    (table q).parent ≠ none
  free : ∀ q, (table q).state.life = .free → (table q).parent = none
  init : (table initproc).state.life = .alive

/-- Outside `left`, `p` has no child. -/
def Orphaned (table : Table) (p : ProcPtr) (left : List ProcPtr) : Prop :=
  ∀ q ∉ left, (table q).parent ≠ some p

/-- Outside `left`, `p` has no dead child. -/
def NoZombie (table : Table) (p : ProcPtr) (left : List ProcPtr) : Prop :=
  ∀ q ∉ left, (table q).parent = some p → (table q).state.life ≠ .dead

/-- The slot that `fork` has not given a parent yet. -/
def ForkPc.unlinked : ForkPc → Option ProcPtr
  | .memory np _ => some np
  | .context np _ => some np
  | .copy np _ => some np
  | .free np => some np
  | .unlock np _ => some np
  | .waitLock np _ => some np
  | .parent np _ => some np
  | _ => none

/-- The slot that `fork` has given a parent. -/
def ForkPc.linked : ForkPc → Option ProcPtr
  | .waitUnlock np _ => some np
  | .relock np _ => some np
  | .runnable np _ => some np
  | _ => none

/-- The slots that `exit` may still find children in. -/
def ExitPc.left : ExitPc → Option (List ProcPtr)
  | .reparent left => some left
  | .wake => some []
  | .lock => some []
  | .zombie => some []
  | _ => none

/-- The slots that `wait` may still find a dead child in. -/
def WaitPc.left : WaitPc → Option (List ProcPtr)
  | .scan left _ => some left
  | .child pp left => some (pp :: left)
  | .check pp left => some (pp :: left)
  | .next _ left => some left
  | .killedLock => some []
  | .killedRead => some []
  | .killedUnlock _ => some []
  | _ => none

/-- The child that `wait` looks at. -/
def WaitPc.found : WaitPc → Option ProcPtr
  | .child pp _ => some pp
  | .check pp _ => some pp
  | _ => none

/-- The channel that `sleep` was given, until it is set. -/
def SleepPc.chan : SleepPc → Option Chan
  | .acquire chan => some chan
  | .release chan => some chan
  | .set chan _ => some chan
  | _ => none

/-- The channels a caller of `sleep` gives. -/
def Caller.Gives (p : ProcPtr) (chan : Chan) : Caller → Prop
  | .kernel _ => ∃ n, chan = .other n
  | .wait _ => chan = .proc p

/-- Whether `sleep` still has the lock that `wait` gave it. -/
def Frame.dozesOff : Frame → Bool
  | .sleep (.wait _) (.acquire _) => true
  | .sleep (.wait _) (.release _) => true
  | _ => false

/-- What a frame in the thread of `p` knows about children. -/
def Frame.Knows (table : Table) (p : ProcPtr) : Frame → Prop
  | .fork pc => (∀ np, pc.unlinked = some np → (table np).parent = none) ∧
      ∀ np, pc.linked = some np → (table np).parent ≠ none
  | .exit _ pc => p ≠ initproc ∧ ∀ left, pc.left = some left → Orphaned table p left
  | .wait _ pc => (∀ left, pc.left = some left → NoZombie table p left) ∧
      ∀ pp, pc.found = some pp → (table pp).parent = some p
  | .sleep caller pc => (∀ chan, pc.chan = some chan → caller.Gives p chan) ∧
      ((Frame.sleep caller pc).dozesOff = true → NoZombie table p [])
  | _ => True

/-- A table with the same children, dead and alive. -/
structure SameFamily (table table' : Table) : Prop where
  parent : ∀ q, (table' q).parent = (table q).parent
  dead : ∀ q, (table' q).state.life = .dead ↔ (table q).state.life = .dead

theorem SameFamily.of_life {table table' : Table}
    (life : ∀ q, (table' q).state.life = (table q).state.life)
    (parent : ∀ q, (table' q).parent = (table q).parent) : SameFamily table table' := by
  refine ⟨parent, fun q => ?_⟩
  rw [life q]

theorem SameFamily.orphaned {table table' : Table} (same : SameFamily table table') {p : ProcPtr}
    {left : List ProcPtr} (orphaned : Orphaned table p left) : Orphaned table' p left := by
  intro q done
  rw [same.parent q]
  exact orphaned q done

theorem SameFamily.noZombie {table table' : Table} (same : SameFamily table table') {p : ProcPtr}
    {left : List ProcPtr} (absent : NoZombie table p left) : NoZombie table' p left := by
  intro q done child
  rw [same.parent q] at child
  rw [ne_eq, same.dead q]
  exact absent q done child

theorem SameFamily.knows {table table' : Table} (same : SameFamily table table') {p : ProcPtr}
    {frame : Frame}
    (knows : frame.Knows table p) : frame.Knows table' p := by
  cases frame with
  | fork pc =>
    refine ⟨fun np unlinked => ?_, fun np linked => ?_⟩ <;> rw [same.parent]
    · exact knows.1 np unlinked
    · exact knows.2 np linked
  | exit status pc => exact ⟨knows.1, fun left known => same.orphaned (knows.2 left known)⟩
  | wait addr pc =>
    refine ⟨fun left known => same.noZombie (knows.1 left known), fun pp found => ?_⟩
    rw [same.parent]
    exact knows.2 pp found
  | sleep caller pc => exact ⟨knows.1, fun off => same.noZombie (knows.2 off)⟩
  | _ => trivial

section

variable {v : View} {p : ProcPtr} {ok : Bool} {g : Frame}

theorem fork_knows_nothing {table : Table} {pc : ForkPc} (unlinked : pc.unlinked = none)
    (linked : pc.linked = none) :
    (Frame.fork pc).Knows table p := by
  refine ⟨fun np same => ?_, fun np same => ?_⟩
  · rw [unlinked] at same
    cases same
  · rw [linked] at same
    cases same

theorem fork_knows {pc : ForkPc} (knows : (Frame.fork pc).Knows v.table p)
    (taken : ∀ np pid, pc = .used np pid → (v.table np).parent = none)
    (member : g ∈ (v.fork ok p pc).next) : g.Knows ((v.fork ok p pc).table v.table) p := by
  revert member
  cases pc with
  | scan left =>
    cases left <;> intro member <;> cases List.mem_singleton.mp member
    · trivial
    · exact fork_knows_nothing rfl rfl
  | check np left =>
    intro member
    simp only [View.fork] at member
    split_ifs at member <;> cases List.mem_singleton.mp member <;> exact fork_knows_nothing rfl rfl
  | used np pid =>
    intro member
    cases List.mem_singleton.mp member
    refine ⟨fun np' same => ?_, fun np' linked => absurd linked.symm (Option.some_ne_none np')⟩
    cases same
    exact (congrArg Proc.parent Instr.table_write_self).trans (taken np pid rfl)
  | memory np pid | copy np pid =>
    cases ok <;> intro member <;> cases List.mem_singleton.mp member <;> exact knows
  | parent np pid =>
    intro member
    cases List.mem_singleton.mp member
    refine ⟨fun np' unlinked => absurd unlinked.symm (Option.some_ne_none np'), fun np' same => ?_⟩
    cases same
    rw [show (View.fork v ok p (.parent np pid)).table v.table np = _ from Instr.table_write_self]
    exact Option.some_ne_none p
  | _ =>
    intro member
    cases List.mem_singleton.mp member
    first | exact knows | exact fork_knows_nothing rfl rfl | trivial

theorem exit_knows {status : Int32} {pc : ExitPc} (knows : (Frame.exit status pc).Knows v.table p)
    (member : g ∈ (v.exit p status pc).next) : g.Knows ((v.exit p status pc).table v.table) p := by
  obtain ⟨notInit, known⟩ := knows
  revert member
  fun_cases View.exit v p status pc
  case case1 =>
    intro member
    cases List.mem_singleton.mp member
    refine ⟨notInit, fun left same q done => ?_⟩
    cases same
    exact absurd (mem_slots q) done
  case case3 pp left child =>
    intro member
    rcases List.mem_pair.mp member with rfl | rfl
    · trivial
    refine ⟨notInit, fun left' same q done => ?_⟩
    cases same
    by_cases same : q = pp
    · subst same
      rw [Instr.table_write_self]
      exact fun equal => notInit (Option.some.inj equal).symm
    · rw [Instr.table_write_of_ne same]
      exact known _ rfl q (List.not_mem_cons_of_ne_of_not_mem same done)
  case case4 pp left other =>
    intro member
    cases List.mem_singleton.mp member
    refine ⟨notInit, fun left' same q done => ?_⟩
    cases same
    by_cases same : q = pp
    · exact same ▸ other
    · exact known _ rfl q (List.not_mem_cons_of_ne_of_not_mem same done)
  case case5 =>
    intro member
    rcases List.mem_pair.mp member with rfl | rfl
    · trivial
    · exact ⟨notInit, known⟩
  all_goals
    intro member
    first
      | (cases List.mem_singleton.mp member; exact ⟨notInit, known⟩)
      | (cases List.mem_singleton.mp member
         exact ⟨notInit, fun left known => absurd known.symm (Option.some_ne_none left)⟩)
      | cases member

theorem wait_knows {addr : UInt64} {pc : WaitPc} (knows : (Frame.wait addr pc).Knows v.table p)
    (member : g ∈ (v.wait ok p addr pc).next) :
    g.Knows ((v.wait ok p addr pc).table v.table) p := by
  obtain ⟨known, found⟩ := knows
  have nothing {pc' : WaitPc} {table : Table} (left : pc'.left = none) (found : pc'.found = none) :
      (Frame.wait addr pc').Knows table p := by
    refine ⟨fun _ same => ?_, fun _ same => ?_⟩
    · rw [left] at same
      cases same
    · rw [found] at same
      cases same
  cases pc with
  | lock =>
    cases List.mem_singleton.mp member
    refine ⟨fun left same q done => ?_, nofun⟩
    cases same
    exact absurd (mem_slots q) done
  | scan left havekids =>
    cases left with
    | nil =>
      cases havekids <;> cases List.mem_singleton.mp member
      · exact nothing rfl rfl
      · exact ⟨known, nofun⟩
    | cons pp left =>
      simp only [View.wait] at member
      split_ifs at member with child <;> cases List.mem_singleton.mp member
      · refine ⟨known, fun pp' same => ?_⟩
        cases same
        exact child
      · refine ⟨fun left' same q done isChild => ?_, nofun⟩
        cases same
        by_cases same : q = pp
        · exact absurd (same ▸ isChild) child
        · exact known _ rfl q (List.not_mem_cons_of_ne_of_not_mem same done) isChild
  | child pp left =>
    cases List.mem_singleton.mp member
    exact ⟨known, found⟩
  | check pp left =>
    by_cases dead : (v.table pp).state = .zombie
    · simp only [View.wait, if_pos dead] at member ⊢
      split_ifs at member ⊢ <;> cases List.mem_singleton.mp member <;> exact nothing rfl rfl
    · simp only [View.wait, if_neg dead] at member ⊢
      cases List.mem_singleton.mp member
      refine ⟨fun left' same q done isChild => ?_, nofun⟩
      cases same
      by_cases same : q = pp
      · rw [ne_eq, ProcState.life_eq_dead, same]
        exact dead
      · exact known _ rfl q (List.not_mem_cons_of_ne_of_not_mem same done) isChild
  | next pp left | killedLock | killedRead =>
    cases List.mem_singleton.mp member
    exact ⟨known, nofun⟩
  | killedUnlock killed =>
    cases killed <;> cases List.mem_singleton.mp member
    · refine ⟨fun chan same => ?_, fun _ => known _ rfl⟩
      cases same
      rfl
    · exact nothing rfl rfl
  | _ =>
    cases List.mem_singleton.mp member
    trivial

theorem sleep_knows {caller : Caller} {pc : SleepPc}
    (knows : (Frame.sleep caller pc).Knows v.table p) (member : g ∈ (v.sleep p caller pc).next) :
    g.Knows ((v.sleep p caller pc).table v.table) p := by
  obtain ⟨gives, absent⟩ := knows
  cases pc with
  | reacquire =>
    cases caller <;> cases List.mem_singleton.mp member
    · trivial
    · refine ⟨fun left same q done => ?_, nofun⟩
      cases same
      exact absurd (mem_slots q) done
  | acquire chan =>
    cases List.mem_singleton.mp member
    cases caller <;> exact ⟨gives, absent⟩
  | release chan =>
    cases List.mem_singleton.mp member
    cases caller <;> exact ⟨gives, nofun⟩
  | _ =>
    cases List.mem_singleton.mp member
    cases caller <;> exact ⟨nofun, nofun⟩

variable {frame : Frame} {rest : List Frame} {action : Action}

theorem code_knows (mine : v.myproc = some p) (knows : frame.Knows v.table p)
    (taken : ∀ np pid, frame = .fork (.used np pid) → (v.table np).parent = none)
    (member : g ∈ (v.code ok frame).next) : g.Knows ((v.code ok frame).table v.table) p := by
  have byProcess (act : ProcPtr → Instr) : v.byProcess act = act p := by
    unfold View.byProcess
    rw [mine]
  have follows := code_follows v ok frame
  cases frame with
  | sleep caller pc =>
    change g ∈ (v.byProcess _).next at member
    change g.Knows ((v.byProcess _).table v.table) p
    rw [byProcess] at member ⊢
    exact sleep_knows knows member
  | fork pc =>
    change g ∈ (v.byProcess _).next at member
    change g.Knows ((v.byProcess _).table v.table) p
    rw [byProcess] at member ⊢
    exact fork_knows knows (fun np pid same => taken np pid (congrArg Frame.fork same)) member
  | exit status pc =>
    change g ∈ (v.byProcess _).next at member
    change g.Knows ((v.byProcess _).table v.table) p
    rw [byProcess] at member ⊢
    exact exit_knows knows member
  | wait addr pc =>
    change g ∈ (v.byProcess _).next at member
    change g.Knows ((v.byProcess _).table v.table) p
    rw [byProcess] at member ⊢
    exact wait_knows knows member
  | _ =>
    generalize (v.code ok _).next = next at *
    cases follows <;> first
      | (cases List.mem_singleton.mp member; trivial)
      | cases member

theorem instr_knows (mine : v.myproc = some p) (knows : frame.Knows v.table p)
    (taken : ∀ np pid, frame = .fork (.used np pid) → (v.table np).parent = none)
    (member : g ∈ (v.instr frame rest action).next) :
    g.Knows ((v.instr frame rest action).table v.table) p := by
  obtain ⟨ok, same⟩ | ⟨isQuiet, rfl | begins⟩ := instr_origin member
  · rw [same] at member ⊢
    exact code_knows mine knows taken member
  · rw [Instr.table_of_quiet isQuiet]
    exact knows
  · cases begins with
    | sleep =>
      refine ⟨fun chan same => ?_, nofun⟩
      cases same
      exact ⟨_, rfl⟩
    | exit notInit => exact ⟨fun same => notInit (same ▸ mine), nofun⟩
    | fork => exact fork_knows_nothing rfl rfl
    | wait => exact ⟨nofun, nofun⟩
    | _ => trivial

end

/-- How a step changes who lives and who is whose child. -/
inductive Kin (v : View) : Frame → Instr → Prop where
  | same {frame : Frame} {instr : Instr}
      (life : ∀ q, (instr.table v.table q).state.life = (v.table q).state.life)
      (parent : ∀ q, (instr.table v.table q).parent = (v.table q).parent) : Kin v frame instr
  | used {np : ProcPtr} {pid : Int32} :
      Kin v (.fork (.used np pid))
        (.write np { v.table np with pid := pid, state := .used } [.fork (.memory np pid)])
  | free {np : ProcPtr} : Kin v (.fork (.free np)) (.write np Proc.freed [.fork (.failed np)])
  | parent {p np : ProcPtr} {pid : Int32} (mine : v.myproc = some p) :
      Kin v (.fork (.parent np pid))
        (.write np { v.table np with parent := some p } [.fork (.waitUnlock np pid)])
  | runnable {np : ProcPtr} {pid : Int32} :
      Kin v (.fork (.runnable np pid))
        (.write np { v.table np with state := .runnable } [.fork (.done np pid)])
  | reparent {p pp : ProcPtr} {status : Int32} {left : List ProcPtr} (mine : v.myproc = some p)
      (child : (v.table pp).parent = some p) :
      Kin v (.exit status (.reparent (pp :: left)))
        (.write pp { v.table pp with parent := some initproc }
          [.wakeup (some (.proc initproc)) v.clock (.scan slots), .exit status (.reparent left)])
  | zombie {p : ProcPtr} {status : Int32} (mine : v.myproc = some p) :
      Kin v (.exit status .zombie)
        (.write p { v.table p with xstate := status, state := .zombie } [.exit status .waitUnlock])
  | reap {pp : ProcPtr} {addr : UInt64} {left : List ProcPtr}
      (dead : (v.table pp).state = .zombie) :
      Kin v (.wait addr (.check pp left))
        (.write pp Proc.freed
          [.wait addr (.freed pp (v.table pp).pid
            (if addr = 0 then none else some (v.table pp).xstate))])

theorem Kin.of_write {v : View} {frame : Frame} {q : ProcPtr} {proc : Proc} {next : List Frame}
    (life : proc.state.life = (v.table q).state.life) (parent : proc.parent = (v.table q).parent) :
    Kin v frame (.write q proc next) := by
  refine .same (fun x => ?_) fun x => ?_
  all_goals
    by_cases same : x = q
    · subst same
      rw [Instr.table_write_self]
      assumption
    · rw [Instr.table_write_of_ne same]

theorem Instr.table_write {table : Table} {q x : ProcPtr} {proc : Proc} {next : List Frame} :
    Instr.table table (.write q proc next) x = if x = q then proc else table x := by
  split_ifs with same
  · rw [same, Instr.table_write_self]
  · rw [Instr.table_write_of_ne same]

/-- A process dies by its own hand. -/
theorem Kin.zombie_of_new {v : View} {frame : Frame} {instr : Instr} {q : ProcPtr}
    (kin : Kin v frame instr)
    (dead : (instr.table v.table q).state = .zombie) (before : (v.table q).state ≠ .zombie) :
    ∃ status, frame = .exit status .zombie ∧ v.myproc = some q ∧
      instr = .write q { v.table q with xstate := status, state := .zombie }
        [.exit status .waitUnlock] := by
  cases kin with
  | same life parent =>
    have sameLife := life q
    rw [dead] at sameLife
    exact absurd (ProcState.life_eq_dead.mp sameLife.symm) before
  | zombie mine =>
    rw [Instr.table_write] at dead
    split_ifs at dead with same
    · subst same
      exact ⟨_, rfl, mine, rfl⟩
    · exact absurd dead before
  | _ =>
    rw [Instr.table_write] at dead
    split_ifs at dead with same
    all_goals first
      | exact absurd dead before
      | (subst same; exact absurd dead before)
      | cases dead

/-- A process becomes a child when it is made, and of `initproc` when its parent exits. -/
theorem Kin.parent_of_new {v : View} {frame : Frame} {instr : Instr} {p q : ProcPtr}
    (kin : Kin v frame instr)
    (child : (instr.table v.table q).parent = some p) (before : (v.table q).parent ≠ some p) :
    (∃ pid, frame = .fork (.parent q pid)) ∨ (p = initproc ∧ ∃ status left,
      frame = .exit status (.reparent (q :: left)) ∧
        instr.next =
          [.wakeup (some (.proc initproc)) v.clock (.scan slots),
            .exit status (.reparent left)]) := by
  cases kin with
  | same life parent => exact absurd ((parent q).symm.trans child) before
  | parent mine =>
    rw [Instr.table_write] at child
    split_ifs at child with same
    · subst same
      exact .inl ⟨_, rfl⟩
    · exact absurd child before
  | reparent mine _ =>
    rw [Instr.table_write] at child
    split_ifs at child with same
    · subst same
      exact .inr ⟨(Option.some.inj child).symm, _, _, rfl, rfl⟩
    · exact absurd child before
  | _ =>
    rw [Instr.table_write] at child
    split_ifs at child with same
    all_goals first
      | exact absurd child before
      | (subst same; exact absurd child before)
      | cases child

/-- A table in which one entry is written. -/
theorem Lineage.write {table : Table} (lineage : Lineage table) {q : ProcPtr} {proc : Proc}
    {next : List Frame}
    (parent : ∀ p, proc.parent = some p →
      (p = q → proc.state.life = .alive) ∧ (p ≠ q → (table p).state.life = .alive))
    (ends : proc.state.life ≠ .alive → ∀ x, (table x).parent ≠ some q)
    (born : q ≠ initproc → proc.state.life = .alive ∨ proc.state.life = .dead → proc.parent ≠ none)
    (free : proc.state.life = .free → proc.parent = none)
    (init : q = initproc → proc.state.life = .alive) :
    Lineage (Instr.table table (.write q proc next)) := by
  have self : Instr.table table (.write q proc next) q = proc := Instr.table_write_self
  have other {x : ProcPtr} (ne : x ≠ q) : Instr.table table (.write q proc next) x = table x :=
    Instr.table_write_of_ne ne
  refine ⟨?_, ?_, ?_, ?_⟩
  · intro x p child
    by_cases isParent : p = q
    · rw [isParent, self]
      by_cases same : x = q
      · rw [same, self] at child
        exact (parent p child).1 isParent
      · rw [other same, isParent] at child
        by_contra ended
        exact ends ended x child
    · rw [other isParent]
      by_cases same : x = q
      · rw [same, self] at child
        exact (parent p child).2 isParent
      · rw [other same] at child
        exact lineage.parents x p child
  · intro x notInit
    by_cases same : x = q
    · rw [same, self]
      exact born (same ▸ notInit)
    · rw [other same]
      exact lineage.born x notInit
  · intro x
    by_cases same : x = q
    · rw [same, self]
      exact free
    · rw [other same]
      exact lineage.free x
  · by_cases same : initproc = q
    · rw [same, self]
      exact init same.symm
    · rw [other same]
      exact lineage.init

/-- Whether what a frame knows rests on `wait_lock`. -/
def Frame.guards : Frame → Bool
  | .exit _ pc => pc.left.isSome
  | .wait _ pc => pc.left.isSome
  | frame => frame.dozesOff

theorem Frame.locks_of_guards {frame : Frame} {me : Option ProcPtr} (guards : frame.guards = true) :
    .wait ∈ frame.locks me ∧ frame.parks = false := by
  cases frame with
  | exit status pc =>
    cases pc <;> simp [Frame.guards, ExitPc.left] at guards <;> simp [Frame.locks, Frame.parks]
  | wait addr pc =>
    cases pc <;> simp [Frame.guards, WaitPc.left] at guards <;> simp [Frame.locks, Frame.parks]
  | sleep caller pc =>
    cases caller <;> cases pc <;> simp [Frame.guards, Frame.dozesOff] at guards <;>
      simp [Frame.locks, Frame.parks, Caller.lk]
  | _ => cases guards

theorem Frame.Knows.of_unguarded {table table' : Table} {p : ProcPtr} {frame : Frame}
    (knows : frame.Knows table p) (unguarded : frame.guards = false)
    (fork : ∀ pc, frame = .fork pc → frame.Knows table' p) : frame.Knows table' p := by
  cases frame with
  | fork pc => exact fork pc rfl
  | exit status pc =>
    refine ⟨knows.1, fun left same => ?_⟩
    change pc.left.isSome = false at unguarded
    rw [same] at unguarded
    cases unguarded
  | wait addr pc =>
    cases pc <;> simp [Frame.guards, WaitPc.left] at unguarded <;> exact ⟨nofun, nofun⟩
  | sleep caller pc =>
    refine ⟨knows.1, fun off => ?_⟩
    rw [show (Frame.sleep caller pc).dozesOff = false from unguarded] at off
    cases off
  | _ => trivial

theorem ForkPc.slot_of_unlinked {pc : ForkPc} {np : ProcPtr} (unlinked : pc.unlinked = some np) :
    ∃ stage, (Frame.fork pc).slot = some (np, stage) := by
  cases pc <;> cases unlinked <;> exact ⟨_, rfl⟩

theorem ForkPc.slot_of_linked {pc : ForkPc} {np : ProcPtr} (linked : pc.linked = some np) :
    ∃ stage, (Frame.fork pc).slot = some (np, stage) := by
  cases pc <;> cases linked <;> exact ⟨_, rfl⟩

variable {Cpu : Type}

namespace Machine

variable {s s' : Machine Cpu} {c c' : Cpu} {p q : ProcPtr} {frame g : Frame} {rest : List Frame}
  {instr : Instr}
  {action : Action} {steps : List (Machine Cpu × Cpu × Action)}

/-- Every write either keeps who lives and who is whose child, or is one of seven. -/
theorem Coherent.kin (coherent : s.Coherent) (top : s.stack (s.running c) = frame :: rest)
    (acts : Acts (s.view c) frame instr) : Kin (s.view c) frame instr := by
  have own {q : ProcPtr} (mine : (s.view c).myproc = some q) (unchosen : frame.chosen = none)
      (runs : frame.state = .running) :
      ((s.view c).table q).state.life = .alive := by
    rw [show ((s.view c).table q).state = _ from
      coherent.state_of_running (coherent.running_of_mine top unchosen mine) top, runs]
    rfl
  cases acts with
  | quiet isQuiet =>
    refine .same (fun q => ?_) fun q => ?_
    all_goals rw [Instr.table_of_quiet isQuiet]
  | check ready =>
    refine .of_write ?_ rfl
    rw [ready]
    rfl
  | yieldSet mine | sleepSet mine => exact .of_write (own mine rfl rfl).symm rfl
  | setkilled mine => exact .of_write rfl rfl
  | sleepTidy mine => exact .of_write rfl rfl
  | wakeup =>
    unfold Proc.woken
    split_ifs with woken
    · refine .of_write ?_ rfl
      rw [woken.1]
      rfl
    · exact .of_write rfl rfl
  | kill same =>
    refine .of_write ?_ rfl
    change (if ((s.view c).table _).state = .sleeping then ProcState.runnable else _).life = _
    split_ifs with asleep
    · rw [asleep]
      rfl
    · rfl
  | forkUsed => exact .used
  | forkFree => exact .free
  | forkParent mine => exact .parent mine
  | forkRunnable => exact .runnable
  | reparent mine child => exact .reparent mine child
  | zombie mine => exact .zombie mine
  | reap dead => exact .reap dead
  | _ => exact .same (fun _ => rfl) fun _ => rfl

/-- What holds of parents and children in every reachable state. -/
structure Family (s : Machine Cpu) : Prop where
  coherent : s.Coherent
  lineage : Lineage s.table
  knows : ∀ {p frame}, frame ∈ s.stack (.proc p) → frame.Knows s.table p

namespace Family

/-- The frame on top, in the thread of a process. -/
theorem knows_top (family : s.Family) (top : s.stack (s.running c) = frame :: rest)
    (away : s.running c = .proc p) :
    frame.Knows s.table p := by
  refine family.knows ?_
  rw [← away, top]
  exact List.mem_cons_self

/-- `fork`, `exit` and `wait` run in the thread of a process, right above other code. -/
theorem alone (family : s.Family) (top : s.stack (s.running c) = frame :: rest)
    (alone : ∀ me, frame.Above me rest → rest = [.kernel []]) :
    rest = [.kernel []] ∧ ∃ p, s.running c = .proc p := by
  have shaped := family.coherent.shaped (s.running c)
  rw [top] at shaped
  obtain rfl := alone _ shaped.1
  refine ⟨rfl, ?_⟩
  obtain home | away := family.coherent.running_cases c
  · rw [home] at shaped
    exact absurd rfl shaped.2.1.2
  · exact away

theorem life_of_slot (family : s.Family) {np : ProcPtr} {stage : Stage}
    (member : g ∈ s.stack (.proc p)) (slot : g.slot = some (np, stage)) :
    (s.table np).state.life ≠ .alive ∧ (s.table np).state.life ≠ .dead := by
  have free := Coherent.free_of_slot (family.coherent.slots.slot member slot)
  obtain free | free := free <;> rw [free] <;> exact ⟨nofun, nofun⟩

theorem lineage_write (family : s.Family) (top : s.stack (s.running c) = frame :: rest)
    (kin : Kin (s.view c) frame instr) : Lineage (instr.table s.table) := by
  have lineage := family.lineage
  have coherent := family.coherent
  have childless {q : ProcPtr} (ended : (s.table q).state.life ≠ .alive) (x : ProcPtr) :
      (s.table x).parent ≠ some q := fun child => ended (lineage.parents x q child)
  have notInit {q : ProcPtr} (ended : (s.table q).state.life ≠ .alive) : q ≠ initproc := by
    rintro rfl
    exact ended lineage.init
  cases kin with
  | same life parent =>
    change ∀ q, (instr.table s.table q).state.life = (s.table q).state.life at life
    change ∀ q, (instr.table s.table q).parent = (s.table q).parent at parent
    refine ⟨fun q p => ?_, fun q => ?_, fun q => ?_, (life _).trans lineage.init⟩
    · rw [parent, life]
      exact lineage.parents q p
    · rw [parent, life]
      exact lineage.born q
    · rw [parent, life]
      exact lineage.free q
  | @used np pid =>
    have unused : (s.table np).state = .unused := coherent.slot_top top rfl
    have ended : (s.table np).state.life ≠ .alive := by
      rw [unused]
      exact nofun
    have orphan : (s.table np).parent = none := lineage.free np (by rw [unused]; rfl)
    refine lineage.write (fun p child => ?_) (fun _ => childless ended) ?_ nofun fun same =>
      absurd same (notInit ended)
    · rw [show (s.table np).parent = some p from child] at orphan
      cases orphan
    · rintro - (life | life) <;> cases life
  | @free np =>
    have used : (s.table np).state = .used := coherent.slot_top top rfl
    have ended : (s.table np).state.life ≠ .alive := by
      rw [used]
      exact nofun
    refine lineage.write nofun (fun _ => childless ended) ?_ (fun _ => rfl) fun same =>
      absurd same (notInit ended)
    rintro - (life | life) <;> cases life
  | @parent p np pid mine =>
    have used : (s.table np).state = .used := (coherent.slot_top top rfl : s.Slot np .ready).1
    have ended : (s.table np).state.life ≠ .alive := by
      rw [used]
      exact nofun
    have away := coherent.running_of_mine top rfl mine
    have alive : (s.table p).state.life = .alive := by
      rw [coherent.state_of_running away top]
      rfl
    refine lineage.write (fun p' child => ?_) (fun _ => childless ended)
      (fun _ _ => Option.some_ne_none p) ?_
      fun same => absurd same (notInit ended)
    · obtain rfl := Option.some.inj child
      exact ⟨fun same => absurd (same ▸ alive) ended, fun _ => alive⟩
    · intro free
      change (s.table np).state.life = .free at free
      rw [used] at free
      cases free
  | @runnable np pid =>
    have used : (s.table np).state = .used := (coherent.slot_top top rfl : s.Slot np .ready).1
    have ended : (s.table np).state.life ≠ .alive := by
      rw [used]
      exact nofun
    obtain ⟨rfl, p, away⟩ := family.alone top fun _ => id
    have knows := family.knows_top top away
    refine lineage.write (fun p' child => ⟨fun _ => rfl, fun _ => lineage.parents np p' child⟩)
      (fun dead => absurd rfl dead) (fun _ _ => knows.2 np rfl) nofun fun _ => rfl
  | @reparent p pp status left mine child =>
    refine lineage.write (fun p' isInit => ?_) (fun ended => childless ended)
      (fun _ _ => Option.some_ne_none _) ?_ ?_
    · obtain rfl := Option.some.inj isInit
      refine ⟨fun same => ?_, fun _ => lineage.init⟩
      rw [← same]
      exact lineage.init
    · intro free
      have orphan := lineage.free pp free
      rw [show (s.table pp).parent = some p from child] at orphan
      cases orphan
    · rintro rfl
      exact lineage.init
  | @zombie p status mine =>
    have away := coherent.running_of_mine top rfl mine
    obtain ⟨notInit, orphaned⟩ := family.knows_top top away
    have orphaned := orphaned [] rfl
    refine lineage.write (fun p' child => ⟨?_, fun _ => lineage.parents p p' child⟩)
      (fun _ x => orphaned x List.not_mem_nil) (fun _ _ => ?_) nofun fun same => absurd same notInit
    · rintro rfl
      exact absurd child (orphaned p' List.not_mem_nil)
    · refine lineage.born p notInit (.inl ?_)
      rw [coherent.state_of_running away top]
      rfl
  | @reap pp addr left dead =>
    have ended : (s.table pp).state.life ≠ .alive := by
      rw [show (s.table pp).state = .zombie from dead]
      exact nofun
    refine lineage.write nofun (fun _ => childless ended) ?_ (fun _ => rfl) fun same =>
      absurd same (notInit ended)
    rintro - (life | life) <;> cases life

/-- The steps that change children outside `wait_lock` change nothing that frames know. -/
theorem sameFamily (family : s.Family) (top : s.stack (s.running c) = frame :: rest)
    (kin : Kin (s.view c) frame instr) (outside : .wait ∉ frame.locks (s.running c).me) :
    SameFamily s.table (instr.table s.table) := by
  have coherent := family.coherent
  have write {q : ProcPtr} {proc : Proc} {next : List Frame}
      (parent : proc.parent = (s.table q).parent)
      (before : (s.table q).state ≠ .zombie) (after : proc.state ≠ .zombie) :
      SameFamily s.table (Instr.table s.table (.write q proc next)) := by
    refine ⟨fun x => ?_, fun x => ?_⟩
    all_goals
      by_cases same : x = q
      · subst same
        rw [Instr.table_write_self]
        first
          | exact parent
          | rw [ProcState.life_eq_dead, ProcState.life_eq_dead, eq_false before, eq_false after]
      · rw [Instr.table_write_of_ne same]
  cases kin with
  | same life parent => exact .of_life life parent
  | @used np pid =>
    have unused : (s.table np).state = .unused := coherent.slot_top top rfl
    refine write rfl ?_ nofun
    rw [unused]
    exact nofun
  | @free np =>
    have used : (s.table np).state = .used := coherent.slot_top top rfl
    obtain ⟨rfl, p, away⟩ := family.alone top fun _ => id
    refine write ((family.knows_top top away).1 np rfl).symm ?_ nofun
    rw [used]
    exact nofun
  | @runnable np pid =>
    have used : (s.table np).state = .used := (coherent.slot_top top rfl : s.Slot np .ready).1
    refine write rfl ?_ nofun
    rw [used]
    exact nofun
  | parent mine | reparent mine child => exact absurd (List.mem_singleton_self _) outside
  | zombie mine | reap dead => exact absurd (by simp [Frame.locks]) outside

theorem fork_other (family : s.Family) (top : s.stack (s.running c) = frame :: rest)
    (kin : Kin (s.view c) frame instr) {pc : ForkPc} (member : .fork pc ∈ s.stack (.proc p))
    (below : .proc p = s.running c → .fork pc ∈ rest) :
    (Frame.fork pc).Knows (instr.table s.table) p := by
  have knows := family.knows member
  have coherent := family.coherent
  by_cases outside : .wait ∈ frame.locks (s.running c).me
  case neg => exact (family.sameFamily top kin outside).knows knows
  have write {q : ProcPtr} {proc : Proc} {next : List Frame}
      (other : ∀ np stage, (Frame.fork pc).slot = some (np, stage) → np = q →
        (pc.unlinked = some np → proc.parent = none) ∧ (pc.linked = some np → proc.parent ≠ none)) :
      (Frame.fork pc).Knows (Instr.table s.table (.write q proc next)) p := by
    refine ⟨fun np unlinked => ?_, fun np linked => ?_⟩
    · obtain ⟨stage, slot⟩ := ForkPc.slot_of_unlinked unlinked
      by_cases same : np = q
      · rw [same, Instr.table_write_self]
        exact (other np stage slot same).1 unlinked
      · rw [Instr.table_write_of_ne same]
        exact knows.1 np unlinked
    · obtain ⟨stage, slot⟩ := ForkPc.slot_of_linked linked
      by_cases same : np = q
      · rw [same, Instr.table_write_self]
        exact (other np stage slot same).2 linked
      · rw [Instr.table_write_of_ne same]
        exact knows.2 np linked
  have living {np : ProcPtr} {stage : Stage} (slot : (Frame.fork pc).slot = some (np, stage)) :=
    family.life_of_slot member slot
  cases kin with
  | same life parent => exact (SameFamily.of_life life parent).knows knows
  | used | free | runnable => exact absurd outside (by simp [Frame.locks])
  | @parent me np pid mine =>
    refine write fun np' stage slot same => ?_
    subst same
    -- the slot is that of the call on top, and of no other
    obtain ⟨rfl, me', away⟩ := family.alone top fun _ => id
    have inside : Frame.fork (.parent np' pid) ∈ s.stack (.proc me') := by
      rw [← away, top]
      exact List.mem_cons_self
    obtain rfl := coherent.slots.owner member inside slot rfl
    cases List.mem_singleton.mp (below away.symm)
  | @reparent me pp status left mine child =>
    refine write fun np stage slot same => ⟨fun unlinked => ?_, fun _ => Option.some_ne_none _⟩
    have orphan := knows.1 np unlinked
    rw [same, show (s.table pp).parent = some me from child] at orphan
    cases orphan
  | zombie mine =>
    refine write fun np stage slot same => ?_
    rw [← same]
    exact ⟨knows.1 np, knows.2 np⟩
  | @reap pp addr left dead =>
    refine write fun np stage slot same => ?_
    have notDead := (living slot).2
    rw [same, show (s.table pp).state = .zombie from dead] at notDead
    exact absurd rfl notDead

/-- A dead process is freed by the `wait` of its parent. -/
theorem reap_of_end (family : s.Family) (top : s.stack (s.running c) = frame :: rest)
    (kin : Kin (s.view c) frame instr) (dead : (s.table q).state = .zombie)
    (after : (instr.table s.table q).state ≠ .zombie) :
    ∃ p addr left, s.running c = .proc p ∧ (s.table q).parent = some p ∧
      frame = .wait addr (.check q left) ∧
      instr = .write q Proc.freed
        [.wait addr
          (.freed q (s.table q).pid (if addr = 0 then none else some (s.table q).xstate))] := by
  have outside (np : ProcPtr) (stage : Stage) (slot : frame.slot = some (np, stage)) : q ≠ np := by
    rintro rfl
    have free := Coherent.free_of_slot (family.coherent.slot_top top slot)
    rw [dead] at free
    obtain free | free := free <;> cases free
  cases kin with
  | same life parent =>
    refine absurd (ProcState.life_eq_dead.mp ((life q).trans ?_)) after
    rw [show ((s.view c).table q).state = .zombie from dead]
    rfl
  | @reap pp addr left _ =>
    rw [Instr.table_write] at after
    split_ifs at after with same
    · subst same
      obtain ⟨-, p, away⟩ := family.alone top fun _ => id
      exact ⟨p, addr, left, away, (family.knows_top top away).2 q rfl, rfl, rfl⟩
    · exact absurd dead after
  | zombie mine =>
    rw [Instr.table_write] at after
    split_ifs at after with same
    · exact absurd rfl after
    · exact absurd dead after
  | reparent mine child =>
    rw [Instr.table_write] at after
    split_ifs at after with same
    · subst same
      exact absurd dead after
    · exact absurd dead after
  | _ =>
    rw [Instr.table_write, if_neg (outside _ _ rfl)] at after
    exact absurd dead after

variable [DecidableEq Cpu]

theorem knows_old (family : s.Family) (took : Took s c frame rest instr s')
    (kin : Kin (s.view c) frame instr) (member : g ∈ s.stack (.proc p))
    (below : .proc p = s.running c → g ∈ rest) : g.Knows s'.table p := by
  have knows := family.knows member
  rw [took.table]
  by_cases outside : .wait ∈ frame.locks (s.running c).me
  case neg => exact (family.sameFamily took.top kin outside).knows knows
  have unguarded : g.guards = false := by
    -- a second frame with `wait_lock` would be in the same thread, and one thread has it once
    by_contra guards
    obtain ⟨locked, busy⟩ := Frame.locks_of_guards (Bool.not_eq_false _ ▸ guards)
    obtain ⟨c', away, held⟩ := family.coherent.exists_holder member locked busy
    obtain rfl := Option.some.inj (held.symm.trans (family.coherent.holder_top took.top outside))
    have once := family.coherent.holds.nodup c'
    unfold locks at once
    rw [took.top] at once
    refine List.disjoint_of_nodup_append once outside ?_
    exact List.mem_flatMap.mpr ⟨g, below away.symm, by rw [away]; exact locked⟩
  refine knows.of_unguarded unguarded ?_
  rintro pc rfl
  exact family.fork_other took.top kin member below

theorem step (family : s.Family) (stepped : s.step (c, action) = some s') : s'.Family := by
  obtain ⟨frame, rest, took⟩ := exists_took stepped
  have kin := family.coherent.kin took.top (instr_acts (s.view c) frame rest action)
  refine ⟨family.coherent.step stepped, ?_, ?_⟩
  · rw [took.table]
    exact family.lineage_write took.top kin
  · intro p g member
    obtain ⟨away, isNew⟩ | ⟨old, below⟩ | rfl := took.mem_stack member
    · rw [took.table]
      refine instr_knows (family.coherent.current_of_running away.symm)
        (family.knows_top took.top away.symm)
        ?_ isNew
      rintro np pid rfl
      have unused : (s.table np).state = .unused := family.coherent.slot_top took.top rfl
      refine family.lineage.free np ?_
      rw [unused]
      rfl
    · exact family.knows_old took kin old below
    · trivial

end Family

theorem booted_family : Family (booted : Machine Cpu) where
  coherent := booted_coherent
  lineage := by
    have table (p : ProcPtr) : (booted : Machine Cpu).table p =
        if p = initproc then { Proc.freed with state := .runnable, pid := 1 } else Proc.freed := rfl
    have orphan (p : ProcPtr) : ((booted : Machine Cpu).table p).parent = none := by
      rw [table]
      split_ifs <;> rfl
    refine ⟨fun q p child => ?_, fun q notInit life => ?_, fun q _ => orphan q, ?_⟩
    · rw [orphan] at child
      cases child
    · rw [table, if_neg notInit] at life
      obtain life | life := life <;> cases life
    · rw [table, if_pos rfl]
      rfl
  knows := by
    intro p frame member
    rw [mem_booted member]
    trivial

end Machine

end Xv6.Kernel.Sched
