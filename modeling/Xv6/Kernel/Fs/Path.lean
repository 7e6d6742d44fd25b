import Xv6.Lib.Fields
import Xv6.Kernel.Fs.Dir

/-!
Path names.

Owns: `skipelem` on a string and the name buffer, `namex`, `namei` and
`nameiparent` as the source computes them, the name a buffer holds, and that
repeated calls of `skipelem` go through the components of a path.

Does not own: sleep-locks; what the components lead to.
-/

namespace Xv6.Kernel.Fs

open Xv6.Lib

variable {c : Codec}

/-! ### The functions -/

/-- `'/'` -/
def slash : UInt8 := 47

/-- `ROOTINO` -/
def rootIno : UInt32 := 1

/-- `memmove(name, s, DIRSIZ)` of an element that fills the buffer; else the element
and a null byte, behind which the buffer keeps what it held. -/
def copyName (name : Mem) (element : List UInt8) : Mem :=
  if dirSiz ≤ element.length then name.copy 0 (element.take dirSiz)
  else (name.copy 0 element).copy element.length [0]

/-- `skipelem` on the bytes of the path before its null byte: the path that remains
and the name buffer, or the null pointer. -/
def skipelem (path : List UInt8) (name : Mem) : Option (List UInt8 × Mem) :=
  let s := path.dropWhile (· == slash)
  if s = [] then none
  else some ((s.dropWhile (· != slash)).dropWhile (· == slash),
    copyName name (s.takeWhile (· != slash)))

theorem skipelem_eq_none {path : List UInt8} {name : Mem} (absent : skipelem path name = none) :
    path.dropWhile (· == slash) = [] := by
  unfold skipelem at absent
  by_contra more
  rw [if_neg more] at absent
  exact absurd absent (Option.some_ne_none _)

theorem skipelem_eq_some {path rest : List UInt8} {name name' : Mem}
    (present : skipelem path name = some (rest, name')) :
    path.dropWhile (· == slash) ≠ [] ∧
      rest = ((path.dropWhile (· == slash)).dropWhile (· != slash)).dropWhile (· == slash) ∧
      name' = copyName name ((path.dropWhile (· == slash)).takeWhile (· != slash)) := by
  unfold skipelem at present
  by_cases ended : path.dropWhile (· == slash) = []
  · rw [if_pos ended] at present
    exact absurd present.symm (Option.some_ne_none _)
  · rw [if_neg ended, Option.some_inj, Prod.mk.injEq] at present
    exact ⟨ended, present.1.symm, present.2.symm⟩

/-- An element takes at least one byte of the path. -/
theorem skipelem_shorter {path rest : List UInt8} {name name' : Mem}
    (present : skipelem path name = some (rest, name')) : rest.length < path.length := by
  obtain ⟨more, rfl, _⟩ := skipelem_eq_some present
  have stopped := List.head_dropWhile_not (· == slash) more
  have skipped := (List.dropWhile_suffix (l := path) (· == slash)).length_le
  cases scan : path.dropWhile (· == slash) with
  | nil => exact absurd scan more
  | cons head tail =>
    simp only [scan, List.head_cons] at stopped
    have notSlash : head ≠ slash := by simpa using stopped
    rw [scan, List.length_cons] at skipped
    rw [List.dropWhile_cons_of_pos (by simpa using notSlash)]
    have element := (List.dropWhile_suffix (l := tail) (· != slash)).length_le
    have after := (List.dropWhile_suffix (l := tail.dropWhile (· != slash))
      (· == slash)).length_le
    omega

/-- `idup` -/
def idup (ip : Nat) : FsM c Nat := do
  modifyInode ip fun node => { node with ref := node.ref + 1 }
  pure ip

/-- The body of the loop of `namex`: `name` is the next element, `rest` the path
behind it, and `loop` goes on with the inode found. -/
def namexElement (sb : Superblock) (parent : Bool) (rest : List UInt8) (name : Mem) (ip : Nat)
    (loop : Nat → FsM c (Option (Nat × Mem))) : FsM c (Option (Nat × Mem)) := do
  ilock sb ip
  let s ← get
  if (s.itable ip).type ≠ tDir then do
    iput sb ip
    pure none
  else if parent ∧ rest = [] then pure (some (ip, name))
  else do
    let next ← dirlookup sb ip name
    match next with
    | none => do
      iput sb ip
      pure none
    | some entry => do
      iput sb ip
      loop entry.1

/-- The end of `namex`, when the loop found no element any more. -/
def namexEnd (sb : Superblock) (parent : Bool) (name : Mem) (ip : Nat) :
    FsM c (Option (Nat × Mem)) :=
  if parent then do
    iput sb ip
    pure none
  else pure (some (ip, name))

/-- The loop of `namex` and what follows it: the inode and the name buffer, or the
null pointer. -/
def namexFrom (sb : Superblock) (parent : Bool) (path : List UInt8) (name : Mem) (ip : Nat) :
    FsM c (Option (Nat × Mem)) :=
  match _element : skipelem path name with
  | none => namexEnd sb parent name ip
  | some (rest, name) => namexElement sb parent rest name ip (namexFrom sb parent rest name)
termination_by path.length
decreasing_by exact skipelem_shorter _element

/-- The inode at which `namex` starts, in a process whose current directory is
`cwd`. -/
def namexStart (cwd : Nat) (path : List UInt8) : FsM c Nat :=
  if path.head? = some slash then iget rootIno else idup cwd

/-- `namex` -/
def namex (sb : Superblock) (cwd : Nat) (parent : Bool) (path : List UInt8) (name : Mem) :
    FsM c (Option (Nat × Mem)) := do
  let ip ← namexStart cwd path
  namexFrom sb parent path name ip

/-- `namei`; `name` is the buffer on its stack. -/
def namei (sb : Superblock) (cwd : Nat) (path : List UInt8) (name : Mem) : FsM c (Option Nat) := do
  let found ← namex sb cwd false path name
  pure (found.map Prod.fst)

/-- `nameiparent` -/
def nameiparent (sb : Superblock) (cwd : Nat) (path : List UInt8) (name : Mem) :
    FsM c (Option (Nat × Mem)) :=
  namex sb cwd true path name

section Equations

variable {sb : Superblock} {parent : Bool} {path rest : List UInt8} {name name' : Mem} {ip : Nat}

theorem namexFrom_none (ended : skipelem path name = none) :
    (namexFrom sb parent path name ip : FsM c (Option (Nat × Mem))) =
      namexEnd sb parent name ip := by
  rw [namexFrom]
  split
  · rfl
  · rename_i more
    rw [ended] at more
    exact absurd more.symm (Option.some_ne_none _)

theorem namexFrom_some (more : skipelem path name = some (rest, name')) :
    (namexFrom sb parent path name ip : FsM c (Option (Nat × Mem))) =
      namexElement sb parent rest name' ip (namexFrom sb parent rest name') := by
  rw [namexFrom]
  split
  · rename_i ended
    rw [more] at ended
    exact absurd ended (Option.some_ne_none _)
  · rename_i again
    rw [more, Option.some_inj, Prod.mk.injEq] at again
    rw [← again.1, ← again.2]

end Equations

/-! ### Names -/

/-- The name a buffer of `DIRSIZ` bytes holds: what precedes its first null byte. -/
def nameOf (name : Mem) : List UInt8 := (name.read 0 dirSiz).takeWhile (· != 0)

theorem strncmp_eq_zero_iff (p q : Mem) (k n : Nat) :
    strncmp p q k n = 0 ↔
      (p.read k n).takeWhile (· != 0) = (q.read k n).takeWhile (· != 0) := by
  induction n generalizing k with
  | zero => simp [strncmp, Mem.read]
  | succ n ih =>
    have first : ∀ m : Mem, m.read k (n + 1) = m k :: m.read (k + 1) n := by
      intro m
      rw [Nat.add_comm n 1, Mem.read_append]
      simp [Mem.read]
    rw [first, first, strncmp]
    by_cases equal : p k = q k
    · by_cases ended : p k = 0
      · rw [if_neg fun both => both.1 ended, equal]
        simp [equal ▸ ended]
      · rw [if_pos ⟨ended, equal⟩, ih, ← equal,
          List.takeWhile_cons_of_pos (by simpa using ended),
          List.takeWhile_cons_of_pos (by simpa using ended), List.cons_inj_right]
    · have differ : ((p k).toNat : Int) - (q k).toNat ≠ 0 := fun zero =>
        equal (UInt8.toNat_inj.mp (by omega))
      rw [if_neg fun both => equal both.2]
      refine iff_of_false differ fun same => ?_
      by_cases ended : p k = 0
      · by_cases ended' : q k = 0
        · exact equal (ended.trans ended'.symm)
        · simp [ended, ended'] at same
      · by_cases ended' : q k = 0
        · simp [ended, ended'] at same
        · simp [ended, ended', equal] at same

theorem namecmp_eq_zero_iff (s t : Mem) : namecmp s t = 0 ↔ nameOf s = nameOf t :=
  strncmp_eq_zero_iff s t 0 dirSiz

theorem nameOf_copyName (name : Mem) {element : List UInt8} (noNul : 0 ∉ element) :
    nameOf (copyName name element) = element.take dirSiz := by
  have nonzero : ∀ byte ∈ element, (byte != 0) = true := by
    intro byte member
    have notNul : byte ≠ 0 := fun zero => noNul (zero ▸ member)
    simpa using notNul
  unfold nameOf copyName
  split_ifs with long
  · have whole := Mem.read_copy name 0 (element.take dirSiz)
    rw [List.length_take, Nat.min_eq_left long] at whole
    rw [whole, List.takeWhile_eq_self_iff]
    exact fun byte member => nonzero byte (List.mem_of_mem_take member)
  · have size : dirSiz = (element ++ [0]).length + (dirSiz - (element.length + 1)) := by
      rw [List.length_append, List.length_singleton]
      omega
    have joined := Mem.copy_append name 0 element [0]
    rw [Nat.zero_add] at joined
    rw [List.take_of_length_le (by omega), ← joined, size, Mem.read_append, Mem.read_copy,
      List.append_assoc, List.takeWhile_append_of_pos nonzero]
    simp

/-! ### The components of a path -/

/-- The components of a path, each cut to the size of a name. -/
def components (path : List UInt8) : List (List UInt8) :=
  (fields slash path).map fun field => field.take dirSiz

/-- The name buffer after each of the calls of `skipelem` until one returns 0. -/
def skipelems (path : List UInt8) (name : Mem) : List Mem :=
  match _element : skipelem path name with
  | none => []
  | some (rest, name) => name :: skipelems rest name
termination_by path.length
decreasing_by exact skipelem_shorter _element

theorem components_of_none {path : List UInt8} {name : Mem} (ended : skipelem path name = none) :
    components path = [] := by
  rw [components, ← fields_dropWhile slash path, skipelem_eq_none ended]
  rfl

/-- A call of `skipelem` puts the first component into the buffer and leaves the
path to the others. -/
theorem components_of_some {path rest : List UInt8} {name name' : Mem} (noNul : 0 ∉ path)
    (more : skipelem path name = some (rest, name')) :
    components path = nameOf name' :: components rest ∧ 0 ∉ rest := by
  obtain ⟨present, rfl, rfl⟩ := skipelem_eq_some more
  have suffix := List.dropWhile_suffix (l := path) (· == slash)
  have noNul' : 0 ∉ path.dropWhile (· == slash) := fun member => noNul (suffix.subset member)
  have noNulElement : 0 ∉ (path.dropWhile (· == slash)).takeWhile (· != slash) :=
    fun member => noNul' ((List.takeWhile_prefix _).subset member)
  refine ⟨?_, fun member => noNul' ?_⟩
  · rw [components, fields_scan present, List.map_cons,
      nameOf_copyName name noNulElement, components,
      fields_dropWhile]
  · exact ((List.dropWhile_suffix _).trans (List.dropWhile_suffix _)).subset member

/-- No path remains exactly when no component does. -/
theorem components_rest {path rest : List UInt8} {name name' : Mem}
    (more : skipelem path name = some (rest, name')) : components rest = [] ↔ rest = [] := by
  obtain ⟨-, isRest, -⟩ := skipelem_eq_some more
  constructor
  · intro absent
    by_contra present
    have trimmed : rest.dropWhile (· == slash) = rest := by
      rw [isRest, List.dropWhile_idempotent]
    rw [components, List.map_eq_nil_iff, fields_scan (by rw [trimmed]; exact present)] at absent
    exact absurd absent (List.cons_ne_nil _ _)
  · intro absent
    rw [absent]
    rfl

/-- Repeated calls of `skipelem` yield the components of the path in order, and
then 0. -/
theorem skipelems_components (path : List UInt8) (noNul : 0 ∉ path) (name : Mem) :
    (skipelems path name).map nameOf = components path := by
  generalize size : path.length = length
  induction length using Nat.strong_induction_on generalizing path name with
  | _ length ih =>
    rw [skipelems]
    split
    · rename_i ended
      rw [components_of_none ended]
      rfl
    · rename_i rest name' more
      obtain ⟨isComponents, noNulRest⟩ := components_of_some noNul more
      have shorter := skipelem_shorter more
      rw [isComponents, List.map_cons,
        ih rest.length (by omega) rest noNulRest name' rfl]

end Xv6.Kernel.Fs
