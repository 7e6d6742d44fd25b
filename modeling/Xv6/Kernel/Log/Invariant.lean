import Xv6.Kernel.Log.System

/-!
The invariant of the log between any two block writes.

Owns: what relates header, log blocks, home blocks and cache in each phase, that
every phase may lose power, and the preservation by each step.

Does not own: how groups are made of operations, or how much an operation may
log.
-/

namespace Xv6.Kernel.Log

open Xv6.Lib Function

/-- The disk the first `k` groups since the last boot make of its disk. -/
def System.after (s : System) (k : Nat) : Disk :=
  applyGroups s.base ((s.groups.take k).map (List.map OpWrite.write))

/-- All groups handed to `commit()`. -/
def System.landed (s : System) : Disk := s.after s.groups.length

/-- Some prefix of the groups that includes every returned commit can still be
recovered from the disk alone. -/
def Durable (g : Geometry) (s : System) : Prop :=
  ∃ k, s.returned ≤ k ∧ k ≤ s.groups.length ∧
    Recoverable g.Home g.slot (readHead (s.disk g.start)) s.disk (s.after k)

/-- The entries of the in-memory header name exactly the blocks of the writes. -/
structure Entries (g : Geometry) (blocks : List Nat) (writes : List OpWrite) : Prop where
  nodup : blocks.Nodup
  named : ∀ b, b ∈ blocks ↔ b ∈ writes.map OpWrite.block
  home : ∀ b ∈ blocks, g.Home b
  words : ∀ b ∈ blocks, b < 2 ^ 32
  fits : blocks.length ≤ logSize
  room : blocks.length < g.size

/-- Between commits: the disk holds all groups, the cache also the current writes. -/
structure Running (g : Geometry) (s : System) : Prop where
  idle : s.log.committing = false
  erased : Erased (s.disk g.start)
  returned : s.returned = s.groups.length
  entries : Entries g s.log.blocks s.current
  diskHome : ∀ b, g.Home b → s.disk b = s.landed b
  cacheHome : ∀ b, g.Home b →
    s.cache b = applyWrites s.landed (s.current.map OpWrite.write) b

/-- During a commit no operation is active and the cache holds the new group. -/
structure Committing (g : Geometry) (s : System) : Prop where
  committing : s.log.committing = true
  active : s.active = ∅
  current : s.current = []
  returned : s.returned + 1 = s.groups.length
  cacheHome : ∀ b, g.Home b → s.cache b = s.landed b

/-- In `write_log`: the header on disk still records nothing. -/
structure WritingLog (g : Geometry) (s : System) (tail : Nat) : Prop
    extends Committing g s where
  erased : Erased (s.disk g.start)
  group : ∃ writes, Entries g s.log.blocks writes
  diskHome : ∀ b, g.Home b → s.disk b = s.after s.returned b
  unlisted : ∀ b, g.Home b → b ∉ s.log.blocks → s.after s.returned b = s.landed b
  copied : ∀ (i : Nat) (inside : i < s.log.blocks.length), i < tail →
    s.disk (g.slot i) = s.landed s.log.blocks[i]

/-- In `install_trans(0)`: the header on disk records the group. -/
structure Installing (g : Geometry) (s : System) (tail : Nat) : Prop
    extends Committing g s where
  head : readHead (s.disk g.start) = s.log.blocks
  recoverable : Recoverable g.Home g.slot s.log.blocks s.disk s.landed
  installed : ∀ (i : Nat) (inside : i < s.log.blocks.length), i < tail →
    s.disk s.log.blocks[i] = s.landed s.log.blocks[i]

/-- After the second `write_head`, before `commit()` returns. -/
structure Committed (g : Geometry) (s : System) : Prop extends Committing g s where
  erased : Erased (s.disk g.start)
  empty : s.log.blocks = []
  diskHome : ∀ b, g.Home b → s.disk b = s.landed b

/-- A rebooted kernel before its first system call. -/
structure Rebooted (s : System) : Prop where
  idle : s.log.committing = false
  active : s.active = ∅
  current : s.current = []
  cache : s.cache = s.disk

/-- In the loop of `recover_from_log`. -/
structure Recovering (g : Geometry) (s : System) (tail : Nat) : Prop extends Rebooted s where
  head : readHead (s.disk g.start) = s.log.blocks
  durable : ∃ k, s.returned ≤ k ∧ k ≤ s.groups.length ∧
    Recoverable g.Home g.slot s.log.blocks s.disk (s.after k) ∧
    ∀ (i : Nat) (inside : i < s.log.blocks.length), i < tail →
      s.disk s.log.blocks[i] = s.after k s.log.blocks[i]

/-- Recovery has completed. -/
structure Recovered (g : Geometry) (s : System) : Prop extends Rebooted s where
  erased : Erased (s.disk g.start)
  empty : s.log.blocks = []
  restored : ∃ k, s.returned ≤ k ∧ k ≤ s.groups.length ∧
    ∀ b, g.Home b → s.disk b = s.after k b

/-- What holds in each phase. -/
def PhaseInv (g : Geometry) (s : System) : Phase → Prop
  | .running => Running g s
  | .writeLog tail => WritingLog g s tail
  | .installTrans tail => Installing g s tail
  | .committed => Committed g s
  | .panicked _ => Durable g s
  | .readHead => Rebooted s ∧ Durable g s
  | .recover tail => Recovering g s tail
  | .recovered => Recovered g s

/-- The invariant of every run. -/
structure Inv (g : Geometry) (s : System) : Prop where
  coherent : ∀ b, g.InLog b → s.cache b = s.disk b
  counted : s.log.outstanding = s.active.card
  phase : PhaseInv g s s.phase

/-! ### Groups -/

theorem System.after_concat_of_le {s t : System} {group : List OpWrite} (base : t.base = s.base)
    (groups : t.groups = s.groups ++ [group]) {k : Nat} (inside : k ≤ s.groups.length) :
    t.after k = s.after k := by
  rw [System.after, System.after, base, groups, List.take_append_of_le_length inside]

theorem System.landed_concat {s t : System} {group : List OpWrite} (base : t.base = s.base)
    (groups : t.groups = s.groups ++ [group]) :
    t.landed = applyWrites s.landed (group.map OpWrite.write) := by
  have whole : t.groups.take t.groups.length = s.groups ++ [group] := by
    rw [List.take_length, groups]
  rw [System.landed, System.after, whole, base, List.map_append, List.map_singleton,
    applyGroups_concat, System.landed, System.after, List.take_length]

/-! ### Entries -/

theorem Entries.nil (g : Geometry) : Entries g [] [] where
  nodup := List.nodup_nil
  named := by simp
  home := by simp
  words := by simp
  fits := Nat.zero_le _
  room := g.pos

/-- `log_write` of a home block keeps the entries and the writes in step. -/
theorem Entries.absorb {g : Geometry} {blocks : List Nat} {writes : List OpWrite}
    (entries : Entries g blocks writes) (write : OpWrite) (home : g.Home write.block)
    (word : write.block < 2 ^ 32)
    (small : ¬ (blocks.length ≥ logSize ∨ blocks.length ≥ g.size - 1)) :
    Entries g (absorb write.block blocks) (writes ++ [write]) where
  nodup := absorb_nodup entries.nodup
  named := by
    intro b
    rw [mem_absorb, entries.named b, List.map_append, List.mem_append]
    simp
  home := by
    intro b member
    rcases mem_absorb.mp member with old | new
    · exact entries.home b old
    · exact new ▸ home
  words := by
    intro b member
    rcases mem_absorb.mp member with old | new
    · exact entries.words b old
    · exact new ▸ word
  fits := by
    have grown := length_absorb_le write.block blocks
    omega
  room := by
    have grown := length_absorb_le write.block blocks
    omega

theorem Entries.applyWrites_eq {g : Geometry} {blocks : List Nat} {writes : List OpWrite}
    (entries : Entries g blocks writes) (disk : Disk) {b : Nat} (unlisted : b ∉ blocks) :
    applyWrites disk (writes.map OpWrite.write) b = disk b := by
  apply applyWrites_of_notMem
  rw [List.map_map]
  exact fun member => unlisted ((entries.named b).mpr member)

theorem Entries.slotAway {g : Geometry} {blocks : List Nat} {writes : List OpWrite}
    (entries : Entries g blocks writes) {i : Nat} (inside : i < blocks.length) :
    g.InLog (g.slot i) :=
  g.slot_inLog (Nat.lt_of_le_of_lt (Nat.succ_le_of_lt inside) entries.room)

/-! ### Every phase can lose power -/

theorem durable_of_erased {g : Geometry} {s : System} (erased : Erased (s.disk g.start)) {k : Nat}
    (low : s.returned ≤ k) (high : k ≤ s.groups.length)
    (same : ∀ b, g.Home b → s.disk b = s.after k b) : Durable g s := by
  refine ⟨k, low, high, ?_⟩
  rw [readHead_of_erased erased]
  exact Recoverable.of_nil same

theorem Running.durable {g : Geometry} {s : System} (running : Running g s) : Durable g s :=
  durable_of_erased running.erased (Nat.le_of_eq running.returned) (Nat.le_refl _) running.diskHome

theorem Inv.durable {g : Geometry} {s : System} (inv : Inv g s) : Durable g s := by
  have phase := inv.phase
  cases which : s.phase with rw [which] at phase
  | running => exact phase.durable
  | writeLog tail =>
    have bound := phase.returned
    exact durable_of_erased phase.erased (Nat.le_refl _) (by omega) phase.diskHome
  | installTrans tail =>
    have bound := phase.returned
    refine ⟨s.groups.length, by omega, Nat.le_refl _, ?_⟩
    rw [phase.head]
    exact phase.recoverable
  | committed =>
    have bound := phase.returned
    exact durable_of_erased phase.erased (by omega) (Nat.le_refl _) phase.diskHome
  | panicked panic => exact phase
  | readHead => exact phase.2
  | recover tail =>
    obtain ⟨k, low, high, recoverable, _⟩ := phase.durable
    refine ⟨k, low, high, ?_⟩
    rw [phase.head]
    exact recoverable
  | recovered =>
    obtain ⟨k, low, high, same⟩ := phase.restored
    exact durable_of_erased phase.erased low high same

/-! ### Block writes -/

section BlockWrites

variable {g : Geometry} {s : System}

@[simp] theorem System.bwrite_disk (s : System) (b : Nat) (data : Block) :
    (s.bwrite b data).disk = update s.disk b data := rfl

@[simp] theorem System.bwrite_cache (s : System) (b : Nat) (data : Block) :
    (s.bwrite b data).cache = update s.cache b data := rfl

theorem bwrite_coherent {b c : Nat} (data : Block) (same : s.cache c = s.disk c) :
    (s.bwrite b data).cache c = (s.bwrite b data).disk c := by
  rw [System.bwrite_cache, System.bwrite_disk]
  by_cases written : c = b
  · rw [written, update_self, update_self]
  · rw [update_of_ne written, update_of_ne written, same]

theorem Geometry.Home.ne_start {b : Nat} (home : g.Home b) : b ≠ g.start :=
  fun same => home (same ▸ g.start_inLog)

theorem Geometry.InLog.ne_home {b c : Nat} (inLog : g.InLog b) (home : g.Home c) : c ≠ b :=
  fun same => home (same ▸ inLog)

theorem getD_entry {tail : Nat} (inside : tail < s.log.n) :
    s.log.blocks.getD tail 0 = s.log.blocks[tail] := by
  rw [List.getD_eq_getElem?_getD, List.getElem?_eq_getElem inside, Option.getD_some]

/-- One block of `write_log`. -/
theorem WritingLog.writeLog {tail : Nat} (writing : WritingLog g s tail)
    (inside : tail < s.log.n) :
    WritingLog g { s.writeLog g tail with phase := .writeLog (tail + 1) } (tail + 1) := by
  obtain ⟨writes, entries⟩ := writing.group
  have slotIn : g.InLog (g.slot tail) := entries.slotAway inside
  refine ⟨⟨writing.committing, writing.active, writing.current, writing.returned, ?_⟩,
    ?_, ⟨writes, entries⟩, ?_, writing.unlisted, ?_⟩
  · intro b home
    exact (update_of_ne (slotIn.ne_home home) _ _).trans (writing.cacheHome b home)
  · change Erased (update s.disk (g.slot tail) _ g.start)
    rw [update_of_ne (g.slot_ne_start tail).symm]
    exact writing.erased
  · intro b home
    exact (update_of_ne (slotIn.ne_home home) _ _).trans (writing.diskHome b home)
  · intro i bound below
    change update s.disk (g.slot tail) (s.cache (s.log.blocks.getD tail 0)) (g.slot i) = _
    by_cases last : i = tail
    · subst last
      rw [update_self, getD_entry inside]
      exact writing.cacheHome _ (entries.home _ (List.getElem_mem inside))
    · rw [update_of_ne fun same => last (g.slot_injective same)]
      exact writing.copied i bound (by omega)

/-- The first `write_head`: from here on the group is durable. -/
theorem WritingLog.writeHead {tail : Nat} (writing : WritingLog g s tail)
    (done : ¬ tail < s.log.n) :
    Installing g { s.writeHead g with phase := .installTrans 0 } 0 := by
  obtain ⟨writes, entries⟩ := writing.group
  refine ⟨⟨writing.committing, writing.active, writing.current, writing.returned, ?_⟩, ?_, ?_, ?_⟩
  · intro b home
    exact (update_of_ne home.ne_start _ _).trans (writing.cacheHome b home)
  · change readHead (update s.disk g.start _ g.start) = s.log.blocks
    rw [update_self]
    exact readHead_writeHead _ entries.fits entries.words
  · refine ⟨entries.home, fun i inside => fun home => home (entries.slotAway inside), ?_, ?_⟩
    · intro i inside
      refine (update_of_ne (g.slot_ne_start i) _ _).trans ?_
      exact writing.copied i inside (Nat.lt_of_lt_of_le inside (Nat.not_lt.mp done))
    · intro b home unlisted
      refine (update_of_ne home.ne_start _ _).trans ?_
      exact (writing.diskHome b home).trans (writing.unlisted b home unlisted)
  · intro i _ below
    exact absurd below (Nat.not_lt_zero i)

theorem head_of_install {target : Disk} {tail : Nat} (data : Block)
    (recoverable : Recoverable g.Home g.slot s.log.blocks s.disk target)
    (inside : tail < s.log.n) :
    update s.disk s.log.blocks[tail] data g.start = s.disk g.start :=
  update_of_ne
    (recoverable.listedHome _ (List.getElem_mem inside)).ne_start.symm _ _

theorem installTrans_disk {tail : Nat} (inside : tail < s.log.n)
    (coherent : s.cache (g.slot tail) = s.disk (g.slot tail)) :
    (s.installTrans g tail).disk =
      update s.disk s.log.blocks[tail] (s.disk (g.slot tail)) := by
  rw [System.installTrans, System.bwrite_disk, getD_entry inside, coherent]

theorem installTrans_cache {tail : Nat} (inside : tail < s.log.n)
    (coherent : s.cache (g.slot tail) = s.disk (g.slot tail)) :
    (s.installTrans g tail).cache =
      update s.cache s.log.blocks[tail] (s.disk (g.slot tail)) := by
  rw [System.installTrans, System.bwrite_cache, getD_entry inside, coherent]

theorem installed_succ {target : Disk} {tail : Nat}
    (recoverable : Recoverable g.Home g.slot s.log.blocks s.disk target)
    (inside : tail < s.log.n)
    (installed : ∀ (i : Nat) (inside : i < s.log.blocks.length), i < tail →
      s.disk s.log.blocks[i] = target s.log.blocks[i])
    (i : Nat) (bound : i < s.log.blocks.length) (below : i < tail + 1) :
    update s.disk s.log.blocks[tail] (s.disk (g.slot tail)) s.log.blocks[i] =
      target s.log.blocks[i] := by
  apply recoverable.install_target inside
  rcases Nat.lt_succ_iff_lt_or_eq.mp below with earlier | last
  · exact .inr (installed i bound earlier)
  · subst last
    exact .inl rfl

/-- One block of `install_trans(0)`. -/
theorem Installing.installTrans {tail : Nat} (installing : Installing g s tail)
    (coherent : ∀ b, g.InLog b → s.cache b = s.disk b) (inside : tail < s.log.n) :
    Installing g { s.installTrans g tail with phase := .installTrans (tail + 1) } (tail + 1) := by
  have recoverable := installing.recoverable
  have slotIn : g.InLog (g.slot tail) := not_not.mp (recoverable.slotAway tail inside)
  have disk := installTrans_disk inside (coherent _ slotIn)
  have cache := installTrans_cache inside (coherent _ slotIn)
  refine ⟨⟨installing.committing, installing.active, installing.current, installing.returned, ?_⟩,
    ?_, ?_, ?_⟩
  · intro b home
    change (s.installTrans g tail).cache b = s.landed b
    rw [cache]
    by_cases written : b = s.log.blocks[tail]
    · rw [written, update_self]
      exact recoverable.slotValue tail inside
    · rw [update_of_ne written]
      exact installing.cacheHome b home
  · change Log.readHead ((s.installTrans g tail).disk g.start) = s.log.blocks
    rw [disk, head_of_install _ recoverable inside]
    exact installing.head
  · change Recoverable g.Home g.slot s.log.blocks (s.installTrans g tail).disk s.landed
    rw [disk]
    exact recoverable.install inside
  · intro i bound below
    change (s.installTrans g tail).disk s.log.blocks[i] = s.landed s.log.blocks[i]
    rw [disk]
    exact installed_succ recoverable inside installing.installed i bound below

/-- The second `write_head` erases a fully installed group. -/
theorem Installing.erase {tail : Nat} (installing : Installing g s tail)
    (done : ¬ tail < s.log.n) :
    Committed g { s.clear.writeHead g with phase := .committed } := by
  refine ⟨⟨installing.committing, installing.active, installing.current, installing.returned, ?_⟩,
    ?_, rfl, ?_⟩
  · intro b home
    exact (update_of_ne home.ne_start _ _).trans (installing.cacheHome b home)
  · change Erased (update s.disk g.start _ g.start)
    rw [update_self]
    exact erased_writeHead _
  · intro b home
    refine (update_of_ne home.ne_start _ _).trans ?_
    exact installing.recoverable.home_eq
      (fun i inside =>
        installing.installed i inside (Nat.lt_of_lt_of_le inside (Nat.not_lt.mp done))) home

/-- One block of the loop of `recover_from_log`. -/
theorem Recovering.installTrans {tail : Nat} (recovering : Recovering g s tail)
    (inside : tail < s.log.n) :
    Recovering g { s.installTrans g tail with phase := .recover (tail + 1) } (tail + 1) := by
  obtain ⟨k, low, high, recoverable, installed⟩ := recovering.durable
  have coherent : s.cache (g.slot tail) = s.disk (g.slot tail) := by rw [recovering.cache]
  have disk := installTrans_disk inside coherent
  have cache := installTrans_cache inside coherent
  refine ⟨⟨recovering.idle, recovering.active, recovering.current, ?_⟩, ?_,
    ⟨k, low, high, ?_, ?_⟩⟩
  · change (s.installTrans g tail).cache = (s.installTrans g tail).disk
    rw [cache, disk, recovering.cache]
  · change Log.readHead ((s.installTrans g tail).disk g.start) = s.log.blocks
    rw [disk, head_of_install _ recoverable inside]
    exact recovering.head
  · change Recoverable g.Home g.slot s.log.blocks (s.installTrans g tail).disk (s.after k)
    rw [disk]
    exact recoverable.install inside
  · intro i bound below
    change (s.installTrans g tail).disk s.log.blocks[i] = s.after k s.log.blocks[i]
    rw [disk]
    exact installed_succ recoverable inside installed i bound below

/-- The `write_head` at the end of `recover_from_log`. -/
theorem Recovering.erase {tail : Nat} (recovering : Recovering g s tail)
    (done : ¬ tail < s.log.n) :
    Recovered g { s.clear.writeHead g with phase := .recovered } := by
  obtain ⟨k, low, high, recoverable, installed⟩ := recovering.durable
  refine ⟨⟨recovering.idle, recovering.active, recovering.current, ?_⟩, ?_, rfl,
    ⟨k, low, high, ?_⟩⟩
  · change update s.cache g.start _ = update s.disk g.start _
    rw [recovering.cache]
  · change Erased (update s.disk g.start _ g.start)
    rw [update_self]
    exact erased_writeHead _
  · intro b home
    refine (update_of_ne home.ne_start _ _).trans ?_
    exact recoverable.home_eq
      (fun i inside => installed i inside (Nat.lt_of_lt_of_le inside (Nat.not_lt.mp done))) home

/-- `commit()` returns. -/
theorem Committed.return (committed : Committed g s) :
    Running g { s with
      log := { s.log with committing := false }, phase := .running,
      returned := s.returned + 1 } := by
  refine ⟨rfl, committed.erased, committed.returned, ?_, committed.diskHome, ?_⟩
  · change Entries g s.log.blocks s.current
    rw [committed.empty, committed.current]
    exact Entries.nil g
  · intro b home
    change s.cache b = applyWrites s.landed (s.current.map OpWrite.write) b
    rw [committed.current]
    exact committed.cacheHome b home

/-- The first system call after recovery starts a new history. -/
theorem Recovered.start (recovered : Recovered g s) :
    Running g { s with
      phase := .running, base := s.disk, groups := [], returned := 0, current := [] } := by
  refine ⟨recovered.idle, recovered.erased, rfl, ?_, fun b _ => rfl, ?_⟩
  · change Entries g s.log.blocks []
    rw [recovered.empty]
    exact Entries.nil g
  · intro b _
    change s.cache b = s.disk b
    rw [recovered.cache]

/-- The next step of a commit or a recovery keeps the invariant. -/
theorem Inv.advance (inv : Inv g s) : Inv g (s.advance g) := by
  have phase := inv.phase
  have coherent := inv.coherent
  unfold System.advance
  cases which : s.phase with rw [which] at phase
  | running | panicked panic => exact inv
  | writeLog tail =>
    dsimp only
    split_ifs with inside
    · exact ⟨fun b inLog => bwrite_coherent _ (coherent b inLog), inv.counted,
        phase.writeLog inside⟩
    · exact ⟨fun b inLog => bwrite_coherent _ (coherent b inLog), inv.counted,
        phase.writeHead inside⟩
  | installTrans tail =>
    dsimp only
    split_ifs with inside
    · exact ⟨fun b inLog => bwrite_coherent _ (coherent b inLog), inv.counted,
        phase.installTrans coherent inside⟩
    · refine ⟨fun b inLog => ?_, inv.counted, phase.erase inside⟩
      exact bwrite_coherent (s := s.clear) _ (coherent b inLog)
  | committed => exact ⟨coherent, inv.counted, phase.return⟩
  | readHead =>
    obtain ⟨rebooted, k, low, high, recoverable⟩ := phase
    refine ⟨coherent, inv.counted, ⟨rebooted.idle, rebooted.active, rebooted.current,
      rebooted.cache⟩, ?_, k, low, high, ?_, ?_⟩
    · change readHead (s.disk g.start) = readHead (s.cache g.start)
      rw [rebooted.cache]
    · change Recoverable g.Home g.slot (readHead (s.cache g.start)) s.disk (s.after k)
      rw [rebooted.cache]
      exact recoverable
    · intro i _ below
      exact absurd below (Nat.not_lt_zero i)
  | recover tail =>
    dsimp only
    split_ifs with inside
    · exact ⟨fun b inLog => bwrite_coherent _ (coherent b inLog), inv.counted,
        phase.installTrans inside⟩
    · refine ⟨fun b inLog => ?_, inv.counted, phase.erase inside⟩
      exact bwrite_coherent (s := s.clear) _ (coherent b inLog)
  | recovered => exact ⟨coherent, inv.counted, phase.start⟩

end BlockWrites

/-! ### Operations -/

section Operations

variable {g : Geometry} {s : System}

theorem Inv.running_or_committing (inv : Inv g s) (live : s.phase.live) :
    s.phase = .running ∨ Committing g s := by
  have phase := inv.phase
  cases which : s.phase with
  | running => exact .inl rfl
  | writeLog tail | installTrans tail | committed =>
    rw [which] at phase
    exact .inr phase.toCommitting
  | panicked _ | readHead | recover _ | recovered => simp [which, Phase.live] at live

theorem Inv.running_of_idle (inv : Inv g s) (live : s.phase.live)
    (idle : s.log.committing = false) : s.phase = .running := by
  rcases inv.running_or_committing live with running | committing
  · exact running
  · rw [committing.committing] at idle
    contradiction

/-- Operations are only active between commits. -/
theorem Inv.running_of_active (inv : Inv g s) (live : s.phase.live) {op : Nat}
    (member : op ∈ s.active) : s.phase = .running := by
  rcases inv.running_or_committing live with running | committing
  · exact running
  · rw [committing.active] at member
    exact absurd member (Finset.notMem_empty op)

theorem Inv.begun (inv : Inv g s) (live : s.phase.live) {log : Log}
    (admitted : beginOp s.log = some log) (fresh : s.nextOp ∉ s.active) : Inv g (s.begun log) := by
  obtain ⟨idle, _, rfl⟩ := beginOp_some admitted
  have which := inv.running_of_idle live idle
  have phase := inv.phase
  rw [which] at phase
  refine ⟨inv.coherent, ?_, ?_⟩
  · change s.log.outstanding + 1 = (insert s.nextOp s.active).card
    rw [Finset.card_insert_of_notMem fresh, inv.counted]
  · change PhaseInv g _ s.phase
    rw [which]
    exact ⟨phase.idle, phase.erased, phase.returned, phase.entries, phase.diskHome,
      phase.cacheHome⟩

theorem Inv.logWrite (inv : Inv g s) (live : s.phase.live) {op b : Nat} (data : Block)
    (member : op ∈ s.active) (home : g.Home b) (word : b < 2 ^ 32) :
    Inv g (s.logWrite g op b data) := by
  have which := inv.running_of_active live member
  have phase := inv.phase
  rw [which] at phase
  unfold System.logWrite
  cases written : Log.logWrite g s.log b with
  | error panic => exact ⟨inv.coherent, inv.counted, phase.durable⟩
  | ok log =>
    obtain ⟨small, rfl⟩ := logWrite_ok written
    refine ⟨?_, inv.counted, ?_⟩
    · intro c inLog
      exact (update_of_ne (inLog.ne_home home).symm _ _).trans (inv.coherent c inLog)
    · change PhaseInv g _ s.phase
      rw [which]
      refine ⟨phase.idle, phase.erased, phase.returned,
        phase.entries.absorb ⟨op, b, data⟩ home word small, phase.diskHome, ?_⟩
      intro c homeC
      change update s.cache b data c =
        applyWrites s.landed ((s.current ++ [(⟨op, b, data⟩ : OpWrite)]).map OpWrite.write) c
      rw [List.map_append, applyWrites_append, List.map_singleton, applyWrites_singleton,
        OpWrite.write]
      by_cases same : c = b
      · rw [same, update_self, update_self]
      · rw [update_of_ne same, update_of_ne same]
        exact phase.cacheHome c homeC

theorem Running.submit {t : System} (running : Running g s) (disk : t.disk = s.disk)
    (cache : t.cache = s.cache) (blocks : t.log.blocks = s.log.blocks)
    (committing : t.log.committing = true) (active : t.active = ∅) (base : t.base = s.base)
    (groups : t.groups = s.groups ++ [s.current]) (returned : t.returned = s.returned)
    (current : t.current = []) :
    WritingLog g t 0 := by
  have landed : t.landed = applyWrites s.landed (s.current.map OpWrite.write) :=
    System.landed_concat base groups
  have before : t.after t.returned = s.landed := by
    rw [returned, running.returned]
    exact System.after_concat_of_le base groups (Nat.le_refl _)
  refine ⟨⟨committing, active, current, ?_, ?_⟩, ?_, ⟨s.current, ?_⟩, ?_, ?_, ?_⟩
  · rw [returned, groups, running.returned, List.length_append, List.length_singleton]
  · intro b home
    rw [cache, landed]
    exact running.cacheHome b home
  · rw [disk]
    exact running.erased
  · rw [blocks]
    exact running.entries
  · intro b home
    rw [disk, before]
    exact running.diskHome b home
  · intro b _ unlisted
    rw [blocks] at unlisted
    rw [before, landed, running.entries.applyWrites_eq _ unlisted]
  · intro i _ below
    exact absurd below (Nat.not_lt_zero i)

/-- With nothing logged `commit()` writes nothing. -/
theorem WritingLog.skip {tail : Nat} (writing : WritingLog g s tail) (empty : s.log.blocks = []) :
    Committed g s := by
  refine ⟨writing.toCommitting, writing.erased, empty, ?_⟩
  intro b home
  rw [writing.diskHome b home]
  exact writing.unlisted b home (by simp [empty])

theorem Inv.endOp (inv : Inv g s) (live : s.phase.live) {op : Nat} (member : op ∈ s.active) :
    Inv g (s.endOp op) := by
  have which := inv.running_of_active live member
  have phase := inv.phase
  rw [which] at phase
  have counted : s.log.outstanding - 1 = (s.active.erase op).card := by
    rw [Finset.card_erase_of_mem member, inv.counted]
  unfold System.endOp
  cases ended : Log.endOp s.log with
  | error panic => exact ⟨inv.coherent, inv.counted, phase.durable⟩
  | ok log =>
    obtain ⟨idle, rfl⟩ := endOp_ok ended
    dsimp only
    split_ifs with last nonempty
    · have absent : s.active.erase op = ∅ := by
        rw [decide_eq_true_iff, counted, Finset.card_eq_zero] at last
        exact last
      refine ⟨inv.coherent, counted, ?_⟩
      change WritingLog g _ 0
      exact phase.submit rfl rfl rfl last absent rfl rfl rfl rfl
    · have absent : s.active.erase op = ∅ := by
        rw [decide_eq_true_iff, counted, Finset.card_eq_zero] at last
        exact last
      have empty : s.log.blocks = [] :=
        List.eq_nil_of_length_eq_zero (Nat.eq_zero_of_not_pos nonempty)
      refine ⟨inv.coherent, counted, ?_⟩
      change Committed g _
      refine @WritingLog.skip g _ 0 ?_ empty
      exact phase.submit rfl rfl rfl last absent rfl rfl rfl rfl
    · refine ⟨inv.coherent, counted, ?_⟩
      change PhaseInv g _ s.phase
      rw [which]
      exact ⟨by simpa using last, phase.erased, phase.returned, phase.entries, phase.diskHome,
        phase.cacheHome⟩

theorem Inv.crash (inv : Inv g s) : Inv g s.crash :=
  ⟨fun _ _ => rfl, rfl, ⟨rfl, rfl, rfl, rfl⟩, inv.durable⟩

/-- Every step keeps the invariant, given that operation numbers are fresh. -/
theorem Inv.step (inv : Inv g s) (fresh : s.nextOp ∉ s.active) {action : Action} {s' : System}
    (step : Step g s action s') : Inv g s' := by
  cases step with
  | beginOp live admitted => exact inv.begun live admitted fresh
  | logWrite live member home word => exact inv.logWrite live _ member home word
  | endOp live member => exact inv.endOp live member
  | advance => exact inv.advance
  | crash => exact inv.crash

theorem Inv.boot {disk : Disk} (erased : Erased (disk g.start)) : Inv g (System.boot disk) :=
  ⟨fun _ _ => rfl, rfl, ⟨rfl, rfl, rfl, rfl⟩, erased, rfl, 0, Nat.le_refl _, Nat.le_refl _,
    fun _ _ => rfl⟩

end Operations

end Xv6.Kernel.Log
