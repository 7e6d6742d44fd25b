import Xv6.Kernel.Virtio.Disk

/-!
The disk driver and the device together are an atomic disk.

Owns: where every descriptor and every request is in any reachable state, and the refinement
of a disk that serves each request at one moment between the call of `virtio_disk_rw` and its
return.

Does not own: the driver and the device themselves.
-/

namespace Xv6.Kernel.Virtio

open Xv6.Lib Function Multiset

/-- The descriptors of a call. -/
def Frame.idx (f : Frame) : Multiset Nat := {f.i, f.j, f.k}

/-- Two calls have different buffers and descriptors. -/
def Frame.Apart (f' f : Frame) : Prop := f'.b ≠ f.b ∧ ∀ i ∈ f'.idx, i ∉ f.idx

theorem Frame.Apart.head {f' f : Frame} (apart : f'.Apart f) : f'.i ≠ f.i := by
  intro same
  refine apart.2 f.i ?_ ?_ <;> simp [idx, same]

/-- The chains of those calls that wait. -/
def waiting (busy : Nat → Bool) (calls : Multiset Frame) : Multiset Nat :=
  (calls.filter fun f => busy f.b = true).map Frame.i

section Waiting

variable {busy : Nat → Bool} {calls : Multiset Frame} {f : Frame}

theorem waiting_cons :
    waiting busy (f ::ₘ calls) = if busy f.b = true then f.i ::ₘ waiting busy calls
      else waiting busy calls := by
  unfold waiting
  split <;> simp [*]

theorem waiting_update {value : Bool} (others : ∀ f' ∈ calls, f'.Apart f) :
    waiting (update busy f.b value) calls = waiting busy calls := by
  refine congrArg _ (filter_congr fun f' member => ?_)
  rw [update_of_ne (others f' member).1]

theorem not_mem_waiting (others : ∀ f' ∈ calls, f'.Apart f) : f.i ∉ waiting busy calls := by
  intro again
  obtain ⟨f', member, same⟩ := mem_map.mp again
  exact (others f' (mem_of_mem_filter member)).head same

end Waiting

namespace Disk

variable {d d' : Disk} {f : Frame} {i : Nat}

/-- The descriptors of a call form its request. -/
structure Formatted (d : Disk) (f : Frame) : Prop where
  first : d.desc f.i = ⟨.op f.i, 16, descNext, f.j⟩
  second : d.desc f.j = ⟨.data f.b, 1024, (if f.write then 0 else descWrite) ||| descNext, f.k⟩
  third : d.desc f.k = ⟨.status f.i, 1, descWrite, 0⟩
  op : d.ops f.i = ⟨if f.write then 1 else 0, 0, f.sector⟩

theorem Formatted.frame (formatted : d.Formatted f) (desc : ∀ i ∈ f.idx, d'.desc i = d.desc i)
    (op : d'.ops f.i = d.ops f.i) : d'.Formatted f := by
  simp only [Frame.idx, insert_eq_cons, forall_mem_cons, mem_singleton, forall_eq] at desc
  exact ⟨desc.1.trans formatted.first, desc.2.1.trans formatted.second,
    desc.2.2.trans formatted.third,
    op.trans formatted.op⟩

/-- Moreover `disk.info` knows its buffer, and the device has served it if nobody waits. -/
structure Placed (d : Disk) (busy : Nat → Bool) (f : Frame) : Prop extends d.Formatted f where
  buf : (d.info f.i).b = some f.b
  served : busy f.b = false → (d.info f.i).status = 0

theorem Placed.frame {busy busy' : Nat → Bool} (placed : d.Placed busy f)
    (desc : ∀ i ∈ f.idx, d'.desc i = d.desc i)
    (op : d'.ops f.i = d.ops f.i) (info : d'.info f.i = d.info f.i) (same : busy' f.b = busy f.b) :
    d'.Placed busy' f :=
  ⟨placed.toFormatted.frame desc op, info ▸ placed.buf, info ▸ same ▸ placed.served⟩

theorem Formatted.request (formatted : d.Formatted f) :
    d.request f.i = some (f.write, f.sector, f.b, f.i) := by
  have := formatted.op
  cases write : f.write <;>
    simp_all [Disk.request, formatted.first, formatted.second, formatted.third, descNext, descWrite]

/-- A descriptor after `free_desc`. -/
def released (d : Disk) (i : Nat) : Disk :=
  { d with desc := update d.desc i ⟨.null, 0, 0, 0⟩, free := update d.free i true }

theorem released_of_ne (d : Disk) {l : Nat} (other : l ≠ i) :
    (d.released i).desc l = d.desc l ∧ (d.released i).free l = d.free l :=
  ⟨update_of_ne other .., update_of_ne other ..⟩

theorem freeDesc_of_taken (inside : i < num) (taken : d.free i = false) :
    d.freeDesc i = .ok (d.released i) := by
  rw [freeDesc, if_neg (Nat.not_le.mpr inside), taken]
  rfl

theorem freeChain_succ (rounds : Nat) (inside : i < num) (taken : d.free i = false) :
    freeChain (rounds + 1) d i =
      if (d.desc i).flags &&& descNext ≠ 0 then freeChain rounds (d.released i) (d.desc i).next
      else .ok (d.released i) := by
  rw [freeChain, freeDesc_of_taken inside taken]
  rfl

/-- The disk after `free_chain`. -/
def freed (d : Disk) (f : Frame) : Disk := ((d.released f.i).released f.j).released f.k

theorem freed_desc {l : Nat} (out : l ∉ f.idx) : (d.freed f).desc l = d.desc l := by
  simp [Frame.idx] at out
  simp [freed, released, out]

theorem freed_free (l : Nat) : (d.freed f).free l = false ↔ l ∉ f.idx ∧ d.free l = false := by
  simp [freed, released, Frame.idx, update_apply]
  grind

theorem Formatted.freeChain (formatted : d.Formatted f) (nodup : f.idx.Nodup)
    (taken : ∀ i ∈ f.idx, i < num ∧ d.free i = false) :
    d.freeChain (num + 1) f.i = .ok (d.freed f) := by
  simp [Frame.idx] at nodup taken
  have more : ((if f.write then 0 else descWrite) ||| descNext) &&& descNext ≠ 0 := by
    cases f.write <;> decide
  obtain ⟨second, taken₂⟩ := d.released_of_ne (Ne.symm nodup.1.1)
  obtain ⟨third, taken₃⟩ := d.released_of_ne (Ne.symm nodup.1.2)
  obtain ⟨third', taken₃'⟩ := (d.released f.i).released_of_ne (Ne.symm nodup.2)
  rw [freeChain_succ num taken.1.1 taken.1.2, formatted.first,
    if_pos (show descNext &&& descNext ≠ 0 by decide), num,
    freeChain_succ 7 taken.2.1.1 (taken₂.trans taken.2.1.2), second, formatted.second, if_pos more,
    freeChain_succ 6 taken.2.2.1 (taken₃'.trans (taken₃.trans taken.2.2.2)), third', third,
      formatted.third,
    if_neg (show ¬descWrite &&& descNext ≠ 0 by decide), freed]

theorem allocDesc_eq_some {d' : Disk} (got : d.allocDesc = some (i, d')) :
    i < num ∧ d.free i = true ∧ d' = { d with free := update d.free i false } := by
  obtain ⟨i', found, made⟩ := Option.map_eq_some_iff.mp got
  cases made
  exact ⟨List.mem_range.mp (List.mem_of_find?_eq_some found), List.find?_some found, rfl⟩

theorem still_free {free : Nat → Bool} {l : Nat} :
    update free i false l = true ↔ l ≠ i ∧ free l = true := by
  simp [update_apply]

/-- `alloc3_desc` takes three free descriptors, or gives back what it took. -/
theorem alloc3Desc_cases (d : Disk) :
    (∃ desc, d.alloc3Desc = .ok (none, { d with desc := desc }) ∧ ∀ i, d.free i = false →
      desc i = d.desc i) ∨
      ∃ i j k free, d.alloc3Desc = .ok (some (i, j, k), { d with free := free }) ∧ [i, j, k].Nodup ∧
        (∀ l ∈ [i, j, k], l < num ∧ d.free l = true) ∧
        ∀ l, free l = if l ∈ [i, j, k] then false else d.free l := by
  unfold alloc3Desc
  split
  · exact .inl ⟨_, rfl, fun _ _ => rfl⟩
  rename_i i d₁ first
  obtain ⟨inside, free, rfl⟩ := allocDesc_eq_some first
  have whole {l : Nat} (isFree : d.free l = true) : update d.free l true = d.free :=
    update_eq_self_iff.mpr isFree.symm
  split
  · rw [freeDesc_of_taken inside (update_self ..)]
    refine .inl ⟨update d.desc i ⟨.null, 0, 0, 0⟩, ?_, by grind⟩
    simp [released, whole free]
  rename_i j d₂ second
  obtain ⟨inside', free', rfl⟩ := allocDesc_eq_some second
  obtain ⟨ij, free'⟩ := still_free.mp free'
  split
  · rw [freeDesc_of_taken inside (by simp [ij.symm])]
    refine .inl ⟨update (update d.desc i ⟨.null, 0, 0, 0⟩) j ⟨.null, 0, 0, 0⟩, ?_, by grind⟩
    change Prod.mk none <$> Disk.freeDesc _ j = _
    rw [freeDesc_of_taken inside' (by simp [released, ij])]
    simp [released, update_comm ij, whole free, whole free']
  rename_i k d₃ third
  obtain ⟨inside'', free'', rfl⟩ := allocDesc_eq_some third
  obtain ⟨jk, free''⟩ := still_free.mp free''
  obtain ⟨ik, free''⟩ := still_free.mp free''
  refine .inr ⟨i, j, k, _, rfl, ?_, ?_, fun l => ?_⟩
  · simp [ij.symm, ik.symm, jk.symm]
  · simp [*]
  · simp only [update_apply]
    grind

end Disk

/-- A request to the disk, with its answer once it is served. -/
structure Request where
  b : Nat
  write : Bool
  sector : UInt64
  answer : Option UInt8

/-- A disk that serves each request at one moment. -/
structure AtomicDisk (Block : Type) where
  data : Nat → Block
  stored : UInt64 → Block
  requests : Multiset Request

/-- A request may be put off, is served once, and returns after it was served with success.
Only the owner of a buffer without a request changes it otherwise. -/
inductive AtomicDisk.Step {Block : Type} (a : AtomicDisk Block) :
    Label Block → AtomicDisk Block → Prop
  | wait {b blockno write} : Step a (.rw b blockno write) a
  | start {b blockno write} (idle : ∀ r ∈ a.requests, r.b ≠ b) :
    Step a (.rw b blockno write)
      { a with requests := ⟨b, write, sectorOf blockno, none⟩ ::ₘ a.requests }
  | serve {r rest head status} (pending : a.requests = r ::ₘ rest) (unserved : r.answer = none) :
    Step a (.finish head status)
      { stored := if status = 0 ∧ r.write then update a.stored r.sector (a.data r.b) else a.stored
        data := if status = 0 ∧ ¬r.write then update a.data r.b (a.stored r.sector) else a.data
        requests := { r with answer := some status } ::ₘ rest }
  | finish {f rest} (served : a.requests = ⟨f.b, f.write, f.sector, some 0⟩ ::ₘ rest) :
    Step a (.collect f) { a with requests := rest }
  | modify {b block} (idle : ∀ r ∈ a.requests, r.b ≠ b) :
    Step a (.modify b block) { a with data := update a.data b block }
  | fetch : Step a .fetch a
  | intr : Step a .intr a

namespace System

variable {Block : Type} {s s' : System Block} {f : Frame} {label : Label Block}

/-- The chains that the device has not taken yet. -/
def queued (s : System Block) : List Nat := wrapped num s.disk.availRing s.fetched s.disk.availIdx

/-- The chains that the device has answered and the interrupt handler has not seen. -/
def finished (s : System Block) : List Nat := wrapped num s.disk.usedRing s.disk.seen s.disk.usedIdx

/-- The chains on their way. -/
def heads (s : System Block) : Multiset Nat := s.queued + s.working + s.finished

/-- The request of a call, served when the device has answered its chain. -/
def request (s : System Block) (f : Frame) : Request :=
  ⟨f.b, f.write, f.sector, if f.i ∈ s.queued + s.working then none
    else some (s.disk.info f.i).status⟩

def abstract (s : System Block) : AtomicDisk Block := ⟨s.data, s.stored, s.calls.map s.request⟩

/-- The descriptors that are not free belong to the calls, and the chains of the calls that
wait are on their way. -/
structure Sound (s : System Block) : Prop where
  placed : ∀ f ∈ s.calls, s.disk.Placed s.busy f
  apart : (s.calls.bind Frame.idx).Nodup
  taken : ∀ i, i ∈ s.calls.bind Frame.idx ↔ i < num ∧ s.disk.free i = false
  bufs : (s.calls.map Frame.b).Nodup
  heads : s.heads = waiting s.busy s.calls

/-- A step that succeeds, keeps this and is a step of the atomic disk. -/
def Refined (s : System Block) (label : Label Block) (result : Except String (System Block)) :
    Prop :=
  ∃ s', result = .ok s' ∧ s'.Sound ∧ AtomicDisk.Step s.abstract label s'.abstract

/-- The device has answered a request with an error. -/
def Failed (s : System Block) : Prop :=
  ∃ r ∈ s.abstract.requests, ∃ status, r.answer = some status ∧ status ≠ 0

namespace Sound

theorem own (sound : s.Sound) (call : f ∈ s.calls) {i : Nat} (member : i ∈ f.idx) :
    i < num ∧ s.disk.free i = false :=
  (sound.taken i).mp (mem_bind.mpr ⟨f, call, member⟩)

/-- A call among the others. -/
theorem split (sound : s.Sound) (call : f ∈ s.calls) : ∃ rest, s.calls = f ::ₘ rest ∧ f.idx.Nodup ∧
    (rest.bind Frame.idx).Nodup ∧ (rest.map Frame.b).Nodup ∧ ∀ f' ∈ rest, f'.Apart f := by
  obtain ⟨rest, calls⟩ := exists_cons_of_mem call
  have apart := sound.apart
  have bufs := sound.bufs
  rw [calls, cons_bind, nodup_add, disjoint_right] at apart
  rw [calls, map_cons, nodup_cons] at bufs
  refine ⟨rest, calls, apart.1, apart.2.1, bufs.2,
    fun f' member => ⟨fun same => ?_, fun i theirs => ?_⟩⟩
  · exact bufs.1 (same ▸ mem_map_of_mem _ member)
  · exact apart.2.2 (mem_bind.mpr ⟨f', member, theirs⟩)

/-- There are never more than two. -/
theorem few (sound : s.Sound) : s.calls.card ≤ 2 := by
  have inside : s.calls.bind Frame.idx ⊆ range num := by
    intro i member
    exact mem_range.mpr ((sound.taken i).mp member).1
  have three : card ∘ Frame.idx = fun _ => 3 := rfl
  have := card_le_card ((le_iff_subset sound.apart).mpr inside)
  rw [card_bind, three, map_const', sum_replicate, card_range, num] at this
  simp at this
  omega

theorem room (sound : s.Sound) : s.queued.length < num ∧ s.finished.length < num := by
  have heads := congrArg card sound.heads
  have := card_le_card (filter_le (fun f => s.busy f.b = true) s.calls)
  have := sound.few
  simp [System.heads, waiting, num] at heads ⊢
  omega

/-- The call of a chain that is on its way. -/
theorem pick (sound : s.Sound) {i : Nat} {others : Multiset Nat} (heads : s.heads = i ::ₘ others) :
    ∃ f rest, s.calls = f ::ₘ rest ∧ f.i = i ∧ s.busy f.b = true ∧ others = waiting s.busy rest ∧
      f.i ∉ others ∧
      ∀ f' ∈ rest, f'.Apart f := by
  rw [sound.heads] at heads
  obtain ⟨f, member, rfl⟩ := mem_map.mp (heads ▸ mem_cons_self i others)
  obtain ⟨call, busy⟩ := mem_filter.mp member
  obtain ⟨rest, calls, -, -, -, others⟩ := sound.split call
  rw [calls, waiting_cons, if_pos busy, cons_inj_right] at heads
  exact ⟨f, rest, calls, rfl, busy, heads.symm, heads ▸ not_mem_waiting others, others⟩

theorem fetch (sound : s.Sound) (present : s.fetched ≠ s.disk.availIdx) :
    s.fetch.Sound ∧ AtomicDisk.Step s.abstract .fetch s.fetch.abstract := by
  have popped : s.queued = s.disk.availRing (s.fetched.toNat % num) :: s.fetch.queued :=
    wrapped_pop (by decide) present.symm
  have moved : (s.fetch.queued + s.fetch.working : Multiset Nat) = s.queued + s.working := by
    rw [popped, System.fetch, ← cons_coe, cons_add, add_cons]
  have same : s.fetch.abstract = s.abstract := by
    unfold abstract request
    rw [moved]
    rfl
  rw [same]
  refine ⟨⟨sound.placed, sound.apart, sound.taken, sound.bufs, ?_⟩, .fetch⟩
  rw [System.heads, moved]
  exact sound.heads

theorem intr (sound : s.Sound) (present : s.disk.seen ≠ s.disk.usedIdx) :
    s.Refined .intr s.intr ∨ s.intr = .error "virtio_disk_intr status" ∧ s.Failed := by
  have popped : s.finished = _ := wrapped_pop (by decide) present.symm
  unfold System.intr
  generalize s.disk.usedRing (s.disk.seen.toNat % num) = id at popped
  have heads :
      s.heads =
        id ::ₘ (s.queued + s.working + wrapped num s.disk.usedRing
          (s.disk.seen + 1) s.disk.usedIdx) := by
    rw [System.heads, popped, ← cons_coe, add_cons]
  obtain ⟨f, rest, calls, rfl, busy, way, away, others⟩ := sound.pick heads
  have call : f ∈ s.calls := calls ▸ mem_cons_self f rest
  by_cases status : (s.disk.info f.i).status = 0
  · refine .inl
      ⟨{ s with busy := update s.busy f.b false, disk := { s.disk with seen := s.disk.seen + 1 } },
        ?_, ?_, .intr⟩
    · simp [status, (sound.placed f call).buf]
    · refine ⟨fun f' call' => ?_, sound.apart, sound.taken, sound.bufs, way.trans ?_⟩
      · have placed := sound.placed f' call'
        obtain rfl | member := mem_cons.mp (calls ▸ call')
        · exact ⟨placed.toFormatted.frame (fun _ _ => rfl) rfl, placed.buf, fun _ => status⟩
        · exact placed.frame (fun _ _ => rfl) rfl rfl (update_of_ne (others f' member).1 ..)
      · simp [calls, waiting_cons, waiting_update others]
  · refine .inr ⟨if_pos status, _, mem_map_of_mem _ call, _, if_neg fun member => ?_, status⟩
    exact away (mem_add.mpr (.inl member))

theorem finish (sound : s.Sound) {head : Nat} (working : head ∈ s.working) (status : UInt8) :
    s.Refined (.finish head status) (s.finish head status) := by
  obtain ⟨working', split⟩ := exists_cons_of_mem working
  have heads : s.heads = head ::ₘ (s.queued + working' + s.finished) := by
    rw [System.heads, split, add_cons, cons_add]
  obtain ⟨f, rest, calls, rfl, busy, way, away, others⟩ := sound.pick heads
  have call : f ∈ s.calls := calls ▸ mem_cons_self f rest
  have pushed : wrapped num (update s.disk.usedRing _ f.i) s.disk.seen (s.disk.usedIdx + 1) =
      s.finished ++ [f.i] :=
    wrapped_push (by decide) (by decide) (length_wrapped ▸ sound.room.2) f.i
  have queue : f.i ∉ (s.queued + working' : Multiset Nat) :=
    fun member => away (mem_add.mpr (.inl member))
  unfold System.finish
  have placed := sound.placed f call
  rw [placed.toFormatted.request]
  refine ⟨_, rfl, ⟨fun f' call' => ?_, sound.apart, sound.taken, sound.bufs, .trans ?_ sound.heads⟩,
    ?_⟩
  · obtain rfl | member := mem_cons.mp (calls ▸ call')
    · refine ⟨placed.toFormatted.frame (fun _ _ => rfl) rfl, ?_, fun done => ?_⟩
      · simp [placed.buf]
      · cases busy.symm.trans done
    · exact (sound.placed f' call').frame (fun _ _ => rfl) rfl
        (update_of_ne (others f' member).head ..) rfl
  · rw [heads]
    refine (congrArg (fun list : List Nat => (s.queued + s.working.erase f.i + list : Multiset Nat))
      pushed).trans ?_
    rw [split, erase_cons_head, ← coe_add, coe_singleton, ← add_assoc, add_comm,
      singleton_add]
  · have pending : s.abstract.requests =
        s.request f ::ₘ rest.map s.request := by simp [abstract, calls]
    have unserved : (s.request f).answer = none := if_pos (mem_add.mpr (.inr working))
    convert AtomicDisk.Step.serve pending unserved using 1
    refine congrArg (AtomicDisk.mk _ _) ?_
    simp only [calls, split, map_cons, erase_cons_head]
    refine congrArg₂ _ ?_ (map_congr rfl fun f' member => ?_)
    · refine (congrArg (Request.mk _ _ _) (if_neg queue)).trans ?_
      simp [request]
    · simp [request, queued, split, (others f' member).head]

theorem collect (sound : s.Sound) (call : f ∈ s.calls) (done : s.busy f.b = false) :
    s.Refined (.collect f) (s.collect f) := by
  obtain ⟨rest, calls, nodup, apart, bufs, others⟩ := sound.split call
  have formatted :
      Disk.Formatted
        { s.disk with info := update s.disk.info f.i { s.disk.info f.i with b := none } } f :=
    (sound.placed f call).toFormatted.frame (fun _ _ => rfl) rfl
  unfold System.collect
  simp only [formatted.freeChain nodup fun i => sound.own call, calls, erase_cons_head]
  have heads : s.heads = waiting s.busy rest := by simp [sound.heads, calls, waiting_cons, done]
  refine ⟨_, rfl, ⟨fun f' member => ?_, apart, fun i => ?_, bufs, heads⟩, ?_⟩
  · refine (sound.placed f' (calls ▸ mem_cons_of_mem member)).frame ?_ rfl ?_ rfl
    · exact fun i theirs => Disk.freed_desc ((others f' member).2 i theirs)
    · exact update_of_ne (others f' member).head ..
  · have taken := sound.taken i
    have away : i ∈ rest.bind Frame.idx → i ∉ f.idx := by
      rw [mem_bind]
      rintro ⟨f', member, theirs⟩
      exact (others f' member).2 i theirs
    rw [calls, cons_bind, mem_add] at taken
    simp only [Disk.freed_free]
    grind
  · have away : f.i ∉ s.heads := heads ▸ not_mem_waiting others
    rw [System.heads, mem_add, not_or] at away
    have served : s.abstract.requests =
        ⟨f.b, f.write, f.sector, some 0⟩ ::ₘ rest.map s.request := by
      simp only [abstract, calls, map_cons, request, if_neg away.1,
        (sound.placed f call).served done]
    convert AtomicDisk.Step.finish served using 1
    refine congrArg (AtomicDisk.mk _ _) (map_congr rfl fun f' member => ?_)
    simp [request, queued, Disk.freed, Disk.released, (others f' member).head]

theorem start (sound : s.Sound) (idle : ∀ f' ∈ s.calls, f'.b ≠ f.b) {free : Nat → Bool}
    (nodup : f.idx.Nodup) (inside : ∀ l ∈ f.idx, l < num ∧ s.disk.free l = true)
    (taken : ∀ l, free l = if l ∈ f.idx then false else s.disk.free l)
    (alloc : s' = { s with disk := { s.disk with free := free } }) : (s'.start f).Sound ∧
      (s'.start f).abstract =
        { s.abstract with requests := ⟨f.b, f.write, f.sector, none⟩ ::ₘ s.abstract.requests } := by
  have others : ∀ f' ∈ s.calls, f'.Apart f := by
    refine fun f' call => ⟨idle f' call, fun i old new => ?_⟩
    cases (sound.own call old).2.symm.trans (inside i new).2
  have pushed : (s'.start f).queued = s.queued ++ [f.i] := by
    subst alloc
    exact wrapped_push (by decide) (by decide) (length_wrapped ▸ sound.room.1) f.i
  subst alloc
  refine ⟨⟨fun f' call => ?_, ?_, fun i => ?_, ?_, ?_⟩, ?_⟩
  · obtain rfl | call := mem_cons.mp call
    · simp [Frame.idx] at nodup
      constructor
      · constructor <;> simp [System.start, Disk.submit, nodup]
      · simp [System.start, Disk.submit]
      · simp [System.start]
    · have other := others f' call
      refine (sound.placed f' call).frame (fun i member => ?_) (update_of_ne other.head ..)
        (update_of_ne other.head ..) (update_of_ne other.1 ..)
      have out := other.2 i member
      simp [Frame.idx] at out
      simp [System.start, Disk.submit, out]
  · rw [System.start, cons_bind, nodup_add, disjoint_right]
    refine ⟨nodup, sound.apart, fun old => ?_⟩
    obtain ⟨f', call, member⟩ := mem_bind.mp old
    exact (others f' call).2 _ member
  · have := sound.taken i
    have := inside i
    simp only [System.start, Disk.submit, cons_bind, mem_add, taken]
    grind
  · rw [System.start, map_cons, nodup_cons]
    refine ⟨fun again => ?_, sound.bufs⟩
    obtain ⟨f', call, same⟩ := mem_map.mp again
    exact idle f' call same
  · rw [System.heads, pushed, coe_eq_coe.mpr (List.perm_append_singleton ..)]
    simp [System.start, waiting_cons, waiting_update others, ← sound.heads, System.heads,
      finished, Disk.submit]
    rw [← cons_coe, cons_add, cons_add]
  · refine congrArg (AtomicDisk.mk _ _) ((map_cons ..).trans (congrArg₂ _ ?_ (map_congr rfl ?_)))
    · simp [request, pushed]
    · intro f' call
      rw [request, pushed]
      simp [request, (others f' call).head, System.start, Disk.submit]

theorem rw (sound : s.Sound) {b : Nat} (idle : ∀ f ∈ s.calls, f.b ≠ b) (blockno : UInt32)
    (write : Bool) :
    s.Refined (.rw b blockno write) (s.rw b blockno write) := by
  unfold System.rw
  obtain ⟨desc, failed, same⟩ | ⟨i, j, k, free, got, nodup, inside, taken⟩ :=
    s.disk.alloc3Desc_cases
  · rw [failed]
    refine ⟨_, rfl, ⟨fun f call => ?_, sound.2, sound.3, sound.4, sound.5⟩, .wait⟩
    exact (sound.placed f call).frame (fun i member => same i (sound.own call member).2) rfl rfl rfl
  · rw [got]
    obtain ⟨sound', abstract'⟩ :=
      sound.start (f := ⟨b, write, sectorOf blockno, i, j, k⟩) idle nodup inside taken rfl
    refine ⟨_, rfl, sound', ?_⟩
    rw [abstract']
    exact .start (by simpa [abstract, request] using idle)

theorem next (sound : s.Sound) {result : Except String (System Block)}
    (stepped : s.next label = some result) :
    s.Refined label result ∨ result = .error "virtio_disk_intr status" ∧ s.Failed := by
  revert stepped
  fun_cases System.next s label <;> rintro ⟨⟩
  case case1 b blockno write idle => exact .inl (sound.rw idle blockno write)
  case case3 f ready => exact .inl (sound.collect ready.1 ready.2)
  case case6 present => exact sound.intr present
  case case8 present => exact .inl ⟨_, rfl, sound.fetch present⟩
  case case9 head status working => exact .inl (sound.finish working status)
  case case11 b block idle =>
    refine .inl ⟨_, rfl, ⟨sound.1, sound.2, sound.3, sound.4, sound.5⟩, .modify ?_⟩
    simpa [abstract, request] using idle

end Sound

theorem Runs.sound {steps : List (System Block × Label Block)} (run : Runs steps s) : s.Sound := by
  refine run.invariant Sound ?_ fun s label s' sound stepped => ?_
  · rintro _ ⟨data, stored, rfl⟩
    constructor <;> simp [booted, heads, queued, finished, wrapped, waiting, ringContents]
  · obtain ⟨_, ⟨⟩, sound', -⟩ | ⟨⟨⟩, -⟩ := sound.next stepped
    exact sound'

/-- In every reachable state each descriptor is free or belongs to one of the calls, of which
there are at most two, and each chain whose call waits is in one place: the avail ring, the
device or the used ring. The driver does not panic and the device does not meet a malformed
chain, except that the interrupt handler panics when the device answered with an error. -/
theorem requests_safe {steps : List (System Block × Label Block)} (run : Runs steps s) :
    (s.calls.bind Frame.idx).Nodup ∧
      (∀ i, i ∈ s.calls.bind Frame.idx ↔ i < num ∧ s.disk.free i = false) ∧
      s.calls.card ≤ 2 ∧ s.heads = waiting s.busy s.calls ∧
      ∀ label message, s.next label = some (.error message) → message = "virtio_disk_intr status" ∧
        s.Failed := by
  have sound := Runs.sound run
  refine ⟨sound.apart, sound.taken, sound.few, sound.heads, fun label message failed => ?_⟩
  obtain ⟨_, ⟨⟩, -⟩ | ⟨⟨⟩, answered⟩ := sound.next failed
  exact ⟨rfl, answered⟩

/-- Two requests, to one of which the device answers with an error. -/
theorem requests_safe_error : ∃ (steps : List (System Bool × Label Bool)) (s : System Bool),
    Runs steps s ∧
    s.calls.card = 2 ∧ s.next .intr = some (.error "virtio_disk_intr status") ∧ s.Failed := by
  have played : ((booted (fun _ => true) fun _ => false).play
      [.rw 0 7 true, .rw 1 8 false, .fetch, .fetch, .finish 3 1]).map (fun s : System Bool =>
        (s.calls.card, (s.next .intr).map fun result => result.toOption.isNone)) =
          some (2, some true) := by
    decide +kernel
  obtain ⟨s, played, found⟩ := Option.map_eq_some_iff.mp played
  obtain ⟨two, found⟩ := Prod.mk.inj found
  obtain ⟨result, failed, isError⟩ := Option.map_eq_some_iff.mp found
  obtain ⟨steps, run⟩ := exists_runs played
  cases result with
  | ok s' => cases isError
  | error message =>
    obtain ⟨rfl, answered⟩ := (requests_safe run).2.2.2.2 .intr message failed
    exact ⟨steps, s, run, two, failed, answered⟩

/-- Every run of the driver and the device is a run of an atomic disk. -/
theorem refines_atomic {steps : List (System Block × Label Block)} (run : Runs steps s) :
    ∃ atomicSteps, Run (fun a => a.requests = 0) AtomicDisk.Step atomicSteps s.abstract ∧
      atomicSteps.map Prod.snd = steps.map Prod.snd := by
  induction run with
  | start initial =>
    obtain ⟨data, stored, rfl⟩ := initial
    exact ⟨[], .start rfl, rfl⟩
  | snoc earlier stepped ih =>
    obtain ⟨atomicSteps, run, same⟩ := ih
    obtain ⟨_, ⟨⟩, -, step⟩ | ⟨⟨⟩, -⟩ := (Runs.sound earlier).next stepped
    refine ⟨_, run.snoc step, ?_⟩
    rw [List.map_append, List.map_append, same]
    rfl

/-- A block is written. -/
theorem refines_atomic_write : ∃ (steps : List (System Bool × Label Bool)) (s : System Bool)
    (atomicSteps : _),
    Runs steps s ∧ s.stored 14 = true ∧ s.calls = 0 ∧
      Run (fun a => a.requests = 0) AtomicDisk.Step atomicSteps s.abstract := by
  have played : ((booted (fun _ => true) fun _ => false).play
      [.rw 0 7 true, .fetch, .finish 0 0, .intr, .collect ⟨0, true, 14, 0, 1, 2⟩]).map
      (fun s : System Bool => (s.stored 14, s.calls)) = some (true, 0) := by
    decide +kernel
  obtain ⟨s, played, found⟩ := Option.map_eq_some_iff.mp played
  obtain ⟨steps, run⟩ := exists_runs played
  obtain ⟨atomicSteps, atomic, -⟩ := refines_atomic run
  exact ⟨steps, s, atomicSteps, run, (Prod.mk.inj found).1, (Prod.mk.inj found).2, atomic⟩

end System

end Xv6.Kernel.Virtio
