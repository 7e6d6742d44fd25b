import Xv6.Kernel.Vm.Pte
import Xv6.Lib.Radix
import Xv6.Lib.Wp

/-!
Physical pages, their allocator, and the page-table code of vm.c.

Owns: `kalloc` and `kfree` over a list of free pages, `walk`, `mappages`, `uvmunmap`,
the functions that allocate, free and copy user memory, and the copies between the
kernel and user memory.

Does not own: the kernel's own page table. The junk `kfree` and `kalloc` write is
kept; the links of the free list, which lie in the free pages, are not.
-/

namespace Xv6.Kernel.Vm

open Xv6.Lib

/-- The addresses the linker fixes: the end of the kernel and the trampoline page. -/
structure Layout where
  kernelEnd : UInt64
  trampoline : UInt64

/-- `KERNBASE` -/
def kernBase : UInt64 := 0x80000000

/-- `PHYSTOP` -/
def physTop : UInt64 := kernBase + 128 * 1024 * 1024

/-- The words of a page. -/
abbrev Page := Fin 512 → UInt64

/-- A page of equal bytes. -/
def junk (byte : UInt64) : Page := fun _ => byte * 0x0101010101010101

namespace Page

/-- Byte `pos` of a page becomes `byte`. -/
def setByte (page : Page) (pos : Nat) (byte : UInt8) : Page := fun word =>
  if word.val = pos / 8 then
    let shift := UInt64.ofNat (8 * (pos % 8))
    (page word &&& ~~~(0xFF <<< shift)) ||| (byte.toUInt64 <<< shift)
  else page word

/-- The bytes from `pos` on become `bytes`. -/
def write (page : Page) (pos : Nat) : List UInt8 → Page
  | [] => page
  | byte :: rest => (page.setByte pos byte).write (pos + 1) rest

end Page

/-- Physical memory by page address, the pages `kalloc` has to give, and, for calls to
come, whether `kalloc` fails although there is one. -/
structure Phys where
  mem : UInt64 → Page
  freelist : List UInt64
  refuse : List Bool

/-- The panics. The last one is not in the source: `freewalk` below the third
level. -/
inductive Panic where
  | kfree
  | walk
  | mappagesVa
  | mappagesSize
  | mappagesZero
  | remap
  | unmapAligned
  | unmapWalk
  | unmapNotMapped
  | unmapNotLeaf
  | freewalkLeaf
  | uvmcopyPte
  | uvmcopyPresent
  | uvmclear
  | loadseg
  | depth
deriving DecidableEq

abbrev VmM := EStateM Panic Phys

/-- New contents of one page. -/
def Phys.setPage (s : Phys) (pa : UInt64) (page : Page) : Phys :=
  { s with mem := Function.update s.mem pa page }

/-- The whole page becomes `page`. -/
def setPage (pa : UInt64) (page : Page) : VmM PUnit := modify fun s => s.setPage pa page

/-- A page `kfree` takes. -/
def Layout.Managed (k : Layout) (pa : UInt64) : Prop :=
  pa % pgSize = 0 ∧ k.kernelEnd ≤ pa ∧ pa < physTop

instance (k : Layout) (pa : UInt64) : Decidable (k.Managed pa) :=
  inferInstanceAs (Decidable (_ ∧ _ ∧ _))

/-- The allocator after it took `pa` back. -/
def Phys.freed (s : Phys) (pa : UInt64) : Phys :=
  { s with mem := Function.update s.mem pa (junk 1), freelist := pa :: s.freelist }

/-- `kfree` -/
def kfree (k : Layout) (pa : UInt64) : VmM PUnit :=
  if k.Managed pa then modify fun s => s.freed pa else throw .kfree

/-- The allocator after a call that had nothing to give, or refused. -/
def Phys.without (s : Phys) : Phys := { s with refuse := s.refuse.tail }

/-- The allocator after it gave `pa`. -/
def Phys.gave (s : Phys) (pa : UInt64) (rest : List UInt64) : Phys :=
  { mem := Function.update s.mem pa (junk 5), freelist := rest, refuse := s.refuse.tail }

/-- `kalloc` -/
def kalloc : VmM UInt64 := fun s =>
  if s.refuse.headD false then .ok 0 s.without
  else match s.freelist with
    | [] => .ok 0 s.without
    | r :: rest => .ok r (s.gave r rest)

/-- The address of an entry: a page-table page and an index. -/
abbrev Slot := UInt64 × Fin 512

/-- `*pte` -/
def load (slot : Slot) : VmM UInt64 := do return (← get).mem slot.1 slot.2

/-- One entry of one page. -/
def Phys.put (s : Phys) (slot : Slot) (pte : UInt64) : Phys :=
  { s with mem := Radix.store s.mem slot.1 slot.2 pte }

/-- `*pte = ...` -/
def put (slot : Slot) (pte : UInt64) : VmM PUnit := modify fun s => s.put slot pte

/-- The loop of `walk` from `level` down; it ends at level 0. -/
def walkLoop (va : UInt64) (alloc : Bool) : Nat → UInt64 → VmM (Option UInt64)
  | 0, pagetable => pure (some pagetable)
  | level + 1, pagetable => do
    let pte ← load (pagetable, px (level + 1) va)
    if pte &&& pteV ≠ 0 then
      walkLoop va alloc level (pte2pa pte)
    else if alloc then do
      let page ← kalloc
      if page = 0 then pure none
      else do
        setPage page (junk 0)
        put (pagetable, px (level + 1) va) (pointer page)
        walkLoop va alloc level page
    else pure none

/-- `walk` -/
def walk (pagetable va : UInt64) (alloc : Bool) : VmM (Option Slot) :=
  if maxVa ≤ va then throw .walk
  else do
    let low ← walkLoop va alloc 2 pagetable
    pure (low.map fun page => (page, px 0 va))

/-- `walkaddr` -/
def walkaddr (pagetable va : UInt64) : VmM UInt64 :=
  if maxVa ≤ va then pure 0
  else do
    match ← walk pagetable va false with
    | none => pure 0
    | some slot => do
      let pte ← load slot
      if pte &&& pteV = 0 then pure 0
      else if pte &&& pteU = 0 then pure 0
      else pure (pte2pa pte)

/-- The loop of `mappages` over `count` pages. -/
def mappagesLoop (pagetable perm : UInt64) : Nat → UInt64 → UInt64 → VmM Int
  | 0, _, _ => pure 0
  | count + 1, a, pa => do
    match ← walk pagetable a true with
    | none => pure (-1)
    | some slot => do
      let pte ← load slot
      if pte &&& pteV ≠ 0 then throw .remap
      else do
        put slot (leafPte pa perm)
        mappagesLoop pagetable perm count (a + pgSize) (pa + pgSize)

/-- `mappages`. From `va` to `va + size - PGSIZE` there are `size / PGSIZE` pages, also
when the sum wraps. -/
def mappages (pagetable va size pa perm : UInt64) : VmM Int :=
  if va % pgSize ≠ 0 then throw .mappagesVa
  else if size % pgSize ≠ 0 then throw .mappagesSize
  else if size = 0 then throw .mappagesZero
  else mappagesLoop pagetable perm (size.toNat / 4096) va pa

/-- `if(do_free) kfree(pa)` -/
def kfreeIf (k : Layout) (doFree : Bool) (pa : UInt64) : VmM PUnit :=
  if doFree then kfree k pa else pure ⟨⟩

/-- The loop of `uvmunmap` over `count` pages. -/
def uvmunmapLoop (k : Layout) (pagetable : UInt64) (doFree : Bool) : Nat → UInt64 → VmM PUnit
  | 0, _ => pure ⟨⟩
  | count + 1, a => do
    match ← walk pagetable a false with
    | none => throw .unmapWalk
    | some slot => do
      let pte ← load slot
      if pte &&& pteV = 0 then throw .unmapNotMapped
      else if pteFlags pte = pteV then throw .unmapNotLeaf
      else do
        kfreeIf k doFree (pte2pa pte)
        put slot 0
        uvmunmapLoop k pagetable doFree count (a + pgSize)

/-- How often a loop `for(a = first; a < last; a += PGSIZE)` runs. -/
def pagesBetween (first last : UInt64) : Nat :=
  if first < last then ((last - first).toNat + 4095) / 4096 else 0

/-- `uvmunmap` -/
def uvmunmap (k : Layout) (pagetable va npages : UInt64) (doFree : Bool) : VmM PUnit :=
  if va % pgSize ≠ 0 then throw .unmapAligned
  else uvmunmapLoop k pagetable doFree (pagesBetween va (va + npages * pgSize)) va

/-- `uvmcreate` -/
def uvmcreate : VmM UInt64 := do
  let pagetable ← kalloc
  if pagetable = 0 then pure 0
  else do
    setPage pagetable (junk 0)
    pure pagetable

/-- A value kept in an `int` and used as a `uint64` again. -/
def throughInt (n : UInt64) : UInt64 :=
  if n.toNat % 2 ^ 32 < 2 ^ 31 then UInt64.ofNat (n.toNat % 2 ^ 32)
  else UInt64.ofNat (n.toNat % 2 ^ 32 + (2 ^ 64 - 2 ^ 32))

/-- `uvmdealloc` -/
def uvmdealloc (k : Layout) (pagetable oldsz newsz : UInt64) : VmM UInt64 :=
  if oldsz ≤ newsz then pure oldsz
  else do
    if pgRoundUp newsz < pgRoundUp oldsz then
      uvmunmap k pagetable (pgRoundUp newsz)
        (throughInt ((pgRoundUp oldsz - pgRoundUp newsz) / pgSize)) true
    else pure ⟨⟩
    pure newsz

/-- The loop of `uvmalloc` over `count` pages; `oldsz` is rounded up already. -/
def uvmallocLoop (k : Layout) (pagetable oldsz newsz xperm : UInt64) : Nat → UInt64 → VmM UInt64
  | 0, _ => pure newsz
  | count + 1, a => do
    let mem ← kalloc
    if mem = 0 then do
      let _ ← uvmdealloc k pagetable a oldsz
      pure 0
    else do
      setPage mem (junk 0)
      let mapped ← mappages pagetable a pgSize mem (pteR ||| pteU ||| xperm)
      if mapped ≠ 0 then do
        kfree k mem
        let _ ← uvmdealloc k pagetable a oldsz
        pure 0
      else uvmallocLoop k pagetable oldsz newsz xperm count (a + pgSize)

/-- `uvmalloc` -/
def uvmalloc (k : Layout) (pagetable oldsz newsz xperm : UInt64) : VmM UInt64 :=
  if newsz < oldsz then pure oldsz
  else uvmallocLoop k pagetable (pgRoundUp oldsz) newsz xperm
    (pagesBetween (pgRoundUp oldsz) newsz) (pgRoundUp oldsz)

/-- The loop of `uvmcopy` over `count` pages from address `i` on. -/
def uvmcopyLoop (k : Layout) (old new : UInt64) : Nat → UInt64 → VmM Int
  | 0, _ => pure 0
  | count + 1, i => do
    match ← walk old i false with
    | none => throw .uvmcopyPte
    | some slot => do
      let pte ← load slot
      if pte &&& pteV = 0 then throw .uvmcopyPresent
      else do
        let mem ← kalloc
        if mem = 0 then do
          uvmunmap k new 0 (i / pgSize) true
          pure (-1)
        else do
          setPage mem ((← get).mem (pte2pa pte))
          let mapped ← mappages new i pgSize mem (pteFlags pte)
          if mapped ≠ 0 then do
            kfree k mem
            uvmunmap k new 0 (i / pgSize) true
            pure (-1)
          else uvmcopyLoop k old new count (i + pgSize)

/-- `uvmcopy` -/
def uvmcopy (k : Layout) (old new sz : UInt64) : VmM Int :=
  uvmcopyLoop k old new (pagesBetween 0 sz) 0

/-- `memmove` of some bytes into a page, from position `pos` on. -/
def writePage (pa : UInt64) (pos : Nat) (bytes : List UInt8) : VmM PUnit :=
  modify fun s => s.setPage pa ((s.mem pa).write pos bytes)

theorem pageSize_pos : 0 < 4096 := by decide

/-- One piece of `copyout`, within one page; whether the loop goes on. -/
def copyoutPiece (pagetable dstva : UInt64) (src : List UInt8) (tot n : Nat) : VmM Bool := do
  let dst := dstva + UInt64.ofNat tot
  let va0 := pgRoundDown dst
  if maxVa ≤ va0 then pure false
  else
    match ← walk pagetable va0 false with
    | none => pure false
    | some slot => do
      let pte ← load slot
      if pte &&& pteV = 0 ∨ pte &&& pteU = 0 ∨ pte &&& pteW = 0 then pure false
      else do
        writePage (pte2pa pte) (dst - va0).toNat ((src.drop tot).take n)
        pure true

/-- `copyout` -/
def copyout (pagetable dstva : UInt64) (src : List UInt8) : VmM Int := do
  let tot ← chunkLoop 4096 dstva.toNat src.length pageSize_pos (copyoutPiece pagetable dstva src) 0
  pure (if tot = src.length then 0 else -1)

end Xv6.Kernel.Vm
