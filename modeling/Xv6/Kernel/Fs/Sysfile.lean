import Xv6.Kernel.Fs.Path

/-!
The system calls that change the name space.

Owns: `isdirempty`, `create`, `sys_link`, `sys_unlink`, `sys_mkdir` and `sys_mknod`
as the source computes them, each in a process with current directory `cwd`. A
path argument is absent when `argstr` could not fetch it; `stack` is what the name
buffers on the kernel stack held before.

Does not own: sleep-locks and transactions; there is one device.
-/

namespace Xv6.Kernel.Fs

open Xv6.Lib

variable {c : Codec}

/-- A string that `argstr` fetched: the bytes before its null byte. -/
structure PathName where
  bytes : List UInt8
  noNul : 0 ∉ bytes

/-- `"."` -/
def dot : Mem := fun k => ([46] : List UInt8).getD k 0

/-- `".."` -/
def dotDot : Mem := fun k => ([46, 46] : List UInt8).getD k 0

/-- `iunlockput` and the end of a call. -/
def putAndReturn {Result : Type} (sb : Superblock) (ip : Nat) (result : Result) : FsM c Result := do
  iput sb ip
  pure result

/-! ### `sys_link` -/

/-- Change the number of links of inode `ip` and save it. -/
def setLinks (sb : Superblock) (ip : Nat) (change : UInt16 → UInt16) : FsM c PUnit := do
  modifyInode ip fun node => { node with nlink := change node.nlink }
  iupdate sb ip

/-- The label `bad` of `sys_link`. -/
def linkBad (sb : Superblock) (ip : Nat) : FsM c Int := do
  ilock sb ip
  setLinks sb ip (· - 1)
  putAndReturn sb ip (-1)

/-- `sys_link` once the new name's directory `dp` is known. -/
def linkIn (sb : Superblock) (ip dp : Nat) (name : Mem) : FsM c Int := do
  ilock sb dp
  let s ← get
  let linked ← dirlink sb dp name (s.itable ip).inum
  if linked < 0 then do
    iput sb dp
    linkBad sb ip
  else do
    iput sb dp
    putAndReturn sb ip 0

/-- `sys_link` once the old name's inode `ip` is known. -/
def linkTo (sb : Superblock) (cwd ip : Nat) (new : List UInt8) (stack : Mem) : FsM c Int := do
  ilock sb ip
  let s ← get
  if (s.itable ip).type = tDir then putAndReturn sb ip (-1)
  else do
    setLinks sb ip (· + 1)
    let parent ← nameiparent sb cwd new stack
    match parent with
    | none => linkBad sb ip
    | some (dp, name) => linkIn sb ip dp name

/-- `sys_link` -/
def sysLink (sb : Superblock) (cwd : Nat) (old new : Option PathName) (stack : Mem) : FsM c Int :=
  match old, new with
  | some old, some new => do
    let found ← namei sb cwd old.bytes stack
    match found with
    | none => pure (-1)
    | some ip => linkTo sb cwd ip new.bytes stack
  | _, _ => pure (-1)

/-! ### `sys_unlink` -/

/-- The loop of `isdirempty` from offset `off` on. -/
def isdiremptyFrom (sb : Superblock) (dp size off : Nat) : FsM c Bool :=
  if off < size then do
    let de ← readKernel sb dp (UInt32.ofNat off) (UInt32.ofNat Dirent.bytes)
    if de.1 ≠ Dirent.bytes then throw (.panic .isdiremptyReadi)
    else if (Dirent.get de.2).inum ≠ 0 then pure false
    else isdiremptyFrom sb dp size (off + Dirent.bytes)
  else pure true
termination_by size - off
decreasing_by
  have : 0 < Dirent.bytes := by decide
  omega

/-- `isdirempty` -/
def isdirempty (sb : Superblock) (dp : Nat) : FsM c Bool := do
  let s ← get
  isdiremptyFrom sb dp (s.itable dp).size.toNat (Dirent.bytes * 2)

/-- `ip->type == T_DIR && !isdirempty(ip)` -/
def notEmptyDir (sb : Superblock) (ip : Nat) : FsM c Bool := do
  let s ← get
  if (s.itable ip).type = tDir then do
    let empty ← isdirempty sb ip
    pure (!empty)
  else pure false

/-- `if(ip->type == T_DIR){ dp->nlink--; iupdate(dp); }` -/
def unlinkParent (sb : Superblock) (ip dp : Nat) : FsM c PUnit := do
  let s ← get
  if (s.itable ip).type = tDir then setLinks sb dp (· - 1) else pure ⟨⟩

/-- The part of `sys_unlink` that takes the entry at `off` away. -/
def unlinkEntry (sb : Superblock) (ip dp off : Nat) : FsM c Int := do
  let written ← writei sb dp (kernelSource (List.replicate Dirent.bytes 0)) (UInt32.ofNat off)
    (UInt32.ofNat Dirent.bytes)
  if written ≠ Dirent.bytes then throw (.panic .unlinkWritei)
  else do
    unlinkParent sb ip dp
    iput sb dp
    setLinks sb ip (· - 1)
    putAndReturn sb ip 0

/-- `sys_unlink` once the inode `ip` and its entry in `dp` are known. -/
def unlinkInode (sb : Superblock) (ip dp off : Nat) : FsM c Int := do
  ilock sb ip
  let s ← get
  if (s.itable ip).nlink.toInt16 < 1 then throw (.panic .unlinkNlink)
  else do
    let full ← notEmptyDir sb ip
    if full then do
      iput sb ip
      putAndReturn sb dp (-1)
    else unlinkEntry sb ip dp off

/-- `sys_unlink` once the directory `dp` is known. -/
def unlinkIn (sb : Superblock) (dp : Nat) (name : Mem) : FsM c Int := do
  ilock sb dp
  if namecmp name dot = 0 ∨ namecmp name dotDot = 0 then putAndReturn sb dp (-1)
  else do
    let found ← dirlookup sb dp name
    match found with
    | none => putAndReturn sb dp (-1)
    | some (ip, off) => unlinkInode sb ip dp off

/-- `sys_unlink` -/
def sysUnlink (sb : Superblock) (cwd : Nat) (path : Option PathName) (stack : Mem) : FsM c Int :=
  match path with
  | none => pure (-1)
  | some path => do
    let parent ← nameiparent sb cwd path.bytes stack
    match parent with
    | none => pure (-1)
    | some (dp, name) => unlinkIn sb dp name

/-! ### `create` -/

/-- The label `fail` of `create`. -/
def createFail (sb : Superblock) (ip dp : Nat) : FsM c (Option Nat) := do
  setLinks sb ip fun _ => 0
  iput sb ip
  putAndReturn sb dp none

/-- The last part of `create`: the new inode `ip` gets its name. -/
def createName (sb : Superblock) (type : UInt16) (ip dp : Nat) (name : Mem) :
    FsM c (Option Nat) := do
  let s ← get
  let linked ← dirlink sb dp name (s.itable ip).inum
  if linked < 0 then createFail sb ip dp
  else if type = tDir then do
    setLinks sb dp (· + 1)
    putAndReturn sb dp (some ip)
  else putAndReturn sb dp (some ip)

/-- `create` for a directory: the entries `.` and `..`, then the name. -/
def createDots (sb : Superblock) (ip dp : Nat) (name : Mem) : FsM c (Option Nat) := do
  let s ← get
  let self ← dirlink sb ip dot (s.itable ip).inum
  if self < 0 then createFail sb ip dp
  else do
    let s ← get
    let parent ← dirlink sb ip dotDot (s.itable dp).inum
    if parent < 0 then createFail sb ip dp
    else createName sb tDir ip dp name

/-- The part of `create` with the new inode `ip`. -/
def createInode (sb : Superblock) (type major minor : UInt16) (ip dp : Nat) (name : Mem) :
    FsM c (Option Nat) := do
  ilock sb ip
  modifyInode ip fun node => { node with major := major, minor := minor, nlink := 1 }
  iupdate sb ip
  if type = tDir then createDots sb ip dp name else createName sb type ip dp name

/-- The part of `create` where the name exists. -/
def createExisting (sb : Superblock) (type : UInt16) (ip dp : Nat) : FsM c (Option Nat) := do
  iput sb dp
  ilock sb ip
  let s ← get
  if type = tFile ∧ ((s.itable ip).type = tFile ∨ (s.itable ip).type = tDevice) then pure (some ip)
  else putAndReturn sb ip none

/-- The part of `create` where the name is new. -/
def createAbsent (sb : Superblock) (type major minor : UInt16) (dp : Nat) (name : Mem) :
    FsM c (Option Nat) := do
  let new ← ialloc sb type
  match new with
  | none => putAndReturn sb dp none
  | some ip => createInode sb type major minor ip dp name

/-- `create` once the directory `dp` is known. -/
def createIn (sb : Superblock) (type major minor : UInt16) (dp : Nat) (name : Mem) :
    FsM c (Option Nat) := do
  ilock sb dp
  let found ← dirlookup sb dp name
  match found with
  | some (ip, _) => createExisting sb type ip dp
  | none => createAbsent sb type major minor dp name

/-- `create` -/
def create (sb : Superblock) (cwd : Nat) (path : List UInt8) (type major minor : UInt16)
    (stack : Mem) : FsM c (Option Nat) := do
  let parent ← nameiparent sb cwd path stack
  match parent with
  | none => pure none
  | some (dp, name) => createIn sb type major minor dp name

/-- `create` for a system call that does not keep the inode. -/
def sysCreate (sb : Superblock) (cwd : Nat) (path : Option PathName) (type major minor : UInt16)
    (stack : Mem) : FsM c Int :=
  match path with
  | none => pure (-1)
  | some path => do
    let made ← create sb cwd path.bytes type major minor stack
    match made with
    | none => pure (-1)
    | some ip => putAndReturn sb ip 0

/-- `sys_mkdir` -/
def sysMkdir (sb : Superblock) (cwd : Nat) (path : Option PathName) (stack : Mem) : FsM c Int :=
  sysCreate sb cwd path tDir 0 0 stack

/-- `sys_mknod` -/
def sysMknod (sb : Superblock) (cwd : Nat) (path : Option PathName) (major minor : UInt16)
    (stack : Mem) : FsM c Int :=
  sysCreate sb cwd path tDevice major minor stack

end Xv6.Kernel.Fs
