import Xv6.Lib.RingBuffer
import Xv6.Lib.Transition

/-!
The driver of the virtio disk and the device it talks to.

Owns: the descriptors and the two rings of `virtio_disk.c`, what `virtio_disk_rw` does before
and after it sleeps, `virtio_disk_intr`, and a device that takes chains from the avail ring
and serves them in any order.

Does not own: the negotiation in `virtio_disk_init`, sleeping and waking.
-/

namespace Xv6.Kernel.Virtio

open Xv6.Lib Function

/-- `NUM`. -/
def num : Nat := 8

/-- What a descriptor's address points to: nothing, `disk.ops[i]`, `b->data` or
`disk.info[i].status`. -/
inductive Addr where
  | null
  | op (i : Nat)
  | data (b : Nat)
  | status (i : Nat)

/-- `struct virtq_desc`. -/
structure Desc where
  addr : Addr
  len : Nat
  flags : UInt16
  next : Nat

/-- `VRING_DESC_F_NEXT`. -/
def descNext : UInt16 := 1

/-- `VRING_DESC_F_WRITE`. -/
def descWrite : UInt16 := 2

/-- `struct virtio_blk_req`. -/
structure BlkReq where
  type : UInt32
  reserved : UInt32
  sector : UInt64

/-- An entry of `disk.info`, where no buffer is the null pointer. -/
structure Info where
  b : Option Nat
  status : UInt8

/-- `struct disk` with the queue it points to. -/
structure Disk where
  desc : Nat → Desc
  availRing : Nat → Nat
  availIdx : BitVec 16
  usedRing : Nat → Nat
  usedIdx : BitVec 16
  free : Nat → Bool
  seen : BitVec 16
  info : Nat → Info
  ops : Nat → BlkReq

/-- The local variables of a call of `virtio_disk_rw` with its descriptors. -/
structure Frame where
  b : Nat
  write : Bool
  sector : UInt64
  i : Nat
  j : Nat
  k : Nat
  deriving DecidableEq

namespace Disk

/-- `alloc_desc`; no descriptor is -1. -/
def allocDesc (d : Disk) : Option (Nat × Disk) :=
  ((List.range num).find? d.free).map fun i => (i, { d with free := update d.free i false })

/-- `free_desc`. -/
def freeDesc (d : Disk) (i : Nat) : Except String Disk :=
  if num ≤ i then .error "free_desc 1"
  else if d.free i then .error "free_desc 2"
  else .ok { d with desc := update d.desc i ⟨.null, 0, 0, 0⟩, free := update d.free i true }

/-- `free_chain`. A ninth descriptor is out of range or was freed before, so nine rounds are
enough. -/
def freeChain : Nat → Disk → Nat → Except String Disk
  | 0, d, _ => .ok d
  | rounds + 1, d, i => do
    let d' ← d.freeDesc i
    if (d.desc i).flags &&& descNext ≠ 0 then freeChain rounds d' (d.desc i).next else return d'

/-- `alloc3_desc`. -/
def alloc3Desc (d : Disk) : Except String (Option (Nat × Nat × Nat) × Disk) :=
  match d.allocDesc with
  | none => .ok (none, d)
  | some (i, d) =>
    match d.allocDesc with
    | none => do return (none, ← d.freeDesc i)
    | some (j, d) =>
      match d.allocDesc with
      | none => do return (none, ← (← d.freeDesc i).freeDesc j)
      | some (k, d) => .ok (some (i, j, k), d)

/-- `virtio_disk_rw` from the formatting of the descriptors to the notification. -/
def submit (d : Disk) (f : Frame) : Disk :=
  { d with
    ops := update d.ops f.i ⟨if f.write then 1 else 0, 0, f.sector⟩
    desc :=
      update
        (update (update d.desc f.i ⟨.op f.i, 16, descNext, f.j⟩) f.j
          ⟨.data f.b, 1024, (if f.write then 0 else descWrite) ||| descNext, f.k⟩)
        f.k ⟨.status f.i, 1, descWrite, 0⟩
    info := update d.info f.i ⟨some f.b, 0xff⟩
    availRing := update d.availRing (d.availIdx.toNat % num) f.i
    availIdx := d.availIdx + 1 }

/-- The request that the device reads from a chain: whether it writes the disk, the sector,
the buffer, and the entry of `disk.info` that gets the status. -/
def request (d : Disk) (head : Nat) : Option (Bool × UInt64 × Nat × Nat) :=
  let first := d.desc head
  let second := d.desc first.next
  let third := d.desc second.next
  match first.addr, second.addr, third.addr with
  | .op i, .data b, .status entry =>
    let write := (d.ops i).type = 1
    if first.flags = descNext ∧ first.len = 16 ∧ second.len = 1024 ∧ third.len = 1 ∧
      third.flags = descWrite ∧
        (d.ops i).type < 2 ∧ second.flags = (if write then 0 else descWrite) ||| descNext then
      some (write, (d.ops i).sector, b, entry)
    else none
  | _, _, _ => none

end Disk

/-- `uint64 sector = b->blockno * (BSIZE / 512)`, computed in 32 bits. -/
def sectorOf (blockno : UInt32) : UInt64 := (blockno * 2).toUInt64

/-- The driver's memory, the calls of `virtio_disk_rw` that wait for the device, the device's
place in the avail ring and the chains it works on, and what is stored from each sector on. -/
structure System (Block : Type) where
  disk : Disk
  busy : Nat → Bool
  data : Nat → Block
  calls : Multiset Frame
  fetched : BitVec 16
  working : Multiset Nat
  stored : UInt64 → Block

/-- What can happen next: a caller tries to get descriptors, or goes on after its request; the
interrupt handler looks at an entry; the device takes a chain, or answers one with a status;
or the owner of a buffer changes it. -/
inductive Label (Block : Type) where
  | rw (b : Nat) (blockno : UInt32) (write : Bool)
  | collect (f : Frame)
  | intr
  | fetch
  | finish (head : Nat) (status : UInt8)
  | modify (b : Nat) (block : Block)

namespace System

variable {Block : Type}

/-- `virtio_disk_rw` from its first loop to its second. -/
def start (s : System Block) (f : Frame) : System Block :=
  { s with disk := s.disk.submit f, busy := update s.busy f.b true, calls := f ::ₘ s.calls }

/-- A round of the first loop of `virtio_disk_rw`, and what follows it. -/
def rw (s : System Block) (b : Nat) (blockno : UInt32) (write : Bool) :
    Except String (System Block) := do
  match ← s.disk.alloc3Desc with
  | (none, d) => return { s with disk := d }
  | (some (i, j, k), d) => return { s with disk := d }.start ⟨b, write, sectorOf blockno, i, j, k⟩

/-- `virtio_disk_rw` after its second loop. -/
def collect (s : System Block) (f : Frame) : Except String (System Block) := do
  let d := { s.disk with info := update s.disk.info f.i { s.disk.info f.i with b := none } }
  return { s with disk := ← d.freeChain (num + 1) f.i, calls := s.calls.erase f }

/-- A round of the loop of `virtio_disk_intr`. -/
def intr (s : System Block) : Except String (System Block) :=
  let id := s.disk.usedRing (s.disk.seen.toNat % num)
  if (s.disk.info id).status ≠ 0 then .error "virtio_disk_intr status"
  else
    match (s.disk.info id).b with
    | none => .error "kerneltrap"
    | some b =>
      .ok { s with busy := update s.busy b false, disk := { s.disk with seen := s.disk.seen + 1 } }

/-- The device takes the next chain. -/
def fetch (s : System Block) : System Block :=
  { s with
    working := s.disk.availRing (s.fetched.toNat % num) ::ₘ s.working
    fetched := s.fetched + 1 }

/-- The device answers a chain: with status 0 it has moved the data. -/
def finish (s : System Block) (head : Nat) (status : UInt8) : Except String (System Block) :=
  match s.disk.request head with
  | none => .error "malformed chain"
  | some (write, sector, b, entry) =>
    .ok
      { s with
        stored := if status = 0 ∧ write then update s.stored sector (s.data b) else s.stored
        data := if status = 0 ∧ ¬write then update s.data b (s.stored sector) else s.data
        working := s.working.erase head
        disk :=
          { s.disk with
            info := update s.disk.info entry { s.disk.info entry with status := status }
            usedRing := update s.disk.usedRing (s.disk.usedIdx.toNat % num) head
            usedIdx := s.disk.usedIdx + 1 } }

/-- One step, where it is possible. A caller of `virtio_disk_rw` holds the lock of its buffer,
so nobody else starts a request for it or changes it. The rounds of `virtio_disk_intr` are
separate steps, although `vdisk_lock` is held over all of them. -/
def next (s : System Block) : Label Block → Option (Except String (System Block))
  | .rw b blockno write => if ∀ f ∈ s.calls, f.b ≠ b then some (s.rw b blockno write) else none
  | .collect f => if f ∈ s.calls ∧ s.busy f.b = false then some (s.collect f) else none
  | .intr => if s.disk.seen = s.disk.usedIdx then none else some s.intr
  | .fetch => if s.fetched = s.disk.availIdx then none else some (.ok s.fetch)
  | .finish head status => if head ∈ s.working then some (s.finish head status) else none
  | .modify b block =>
    if ∀ f ∈ s.calls, f.b ≠ b then some (.ok { s with data := update s.data b block }) else none

/-- After `virtio_disk_init`: the queue's pages are zero and all descriptors are free. -/
def booted (data : Nat → Block) (stored : UInt64 → Block) : System Block where
  disk :=
    { desc := fun _ => ⟨.null, 0, 0, 0⟩, availRing := fun _ => 0, availIdx := 0,
      usedRing := fun _ => 0, usedIdx := 0
      free := fun _ => true, seen := 0, info := fun _ => ⟨none, 0⟩, ops := fun _ => ⟨0, 0, 0⟩ }
  busy := fun _ => false
  data := data
  calls := 0
  fetched := 0
  working := 0
  stored := stored

/-- The system's runs, until a panic. -/
abbrev Runs (steps : List (System Block × Label Block)) (s : System Block) : Prop :=
  Run (fun s => ∃ data stored, s = booted data stored)
    (fun s label s' => s.next label = some (.ok s')) steps s

/-- The state that some steps lead to. -/
def play (s : System Block) (labels : List (Label Block)) : Option (System Block) :=
  Run.play (fun s label => (s.next label).bind Except.toOption) s labels

theorem exists_runs {data : Nat → Block} {stored : UInt64 → Block} {s : System Block}
    {labels : List (Label Block)}
    (played : (booted data stored).play labels = some s) : ∃ steps, Runs steps s := by
  have sound {s s' : System Block} {label : Label Block}
      (stepped : (s.next label).bind Except.toOption = some s') :
      s.next label = some (.ok s') := by
    obtain ⟨result, found, ok⟩ := Option.bind_eq_some_iff.mp stepped
    cases result <;> cases ok
    exact found
  have start : Runs [] (booted data stored) := .start ⟨data, stored, rfl⟩
  obtain ⟨steps, -, run⟩ := start.of_play sound played
  exact ⟨steps, run⟩

end System

end Xv6.Kernel.Virtio
