import Xv6.Itable
import Xv6.Threads

/-!
# The system calls on files

The calls of `kernel/sysfile.c` as programs of the threads. An action is a critical section: it runs
from an `ilock` to the point where the process releases the lock or waits for another inode while it
holds it. Locks that are held beyond an action stay in the inode table, as that of the parent
directory in `sys_unlink` while the process waits for the inode to remove, or that of a new inode
between `create` and the end of `sys_open`.
-/

namespace Xv6.Fs

open Threads Function

abbrev Code (α : Type) := Prog State Panic α

def atom {α : Type} (f : Act α) : Code α := Prog.atom f

def ndev : ℤ := 10

def oCreate (omode : ℕ) : Bool := omode / 0x200 % 2 = 1

def oTrunc (omode : ℕ) : Bool := omode / 0x400 % 2 = 1

def incShort (n : ℤ) : ℤ := Int.bmod (n + 1) 65536

def decShort (n : ℤ) : ℤ := Int.bmod (n - 1) 65536

def Dinode.incLink (ip : Dinode) : Dinode := { ip with nlink := incShort ip.nlink }

def Dinode.decLink (ip : Dinode) : Dinode := { ip with nlink := decShort ip.nlink }

variable (sb : Super) (p : ℕ)

/-- `iput` with its last lines. -/
def put (i : ℕ) : Code Unit := do
  if ← atom (iput i) then atom (dropRef i) else return ()

section namex

inductive Walk
  | fail
  | stop
  | next (inum : ℕ)

/-- The body of the loop of `namex` up to the `iput` of the directory. -/
def walk (parent last : Bool) (i : ℕ) (name : Name) : Act Walk := do
  ilock p i
  let s ← get
  if (s.ip i).type ≠ .dir then
    iunlock p i
    return .fail
  else if parent && last then
    iunlock p i
    return .stop
  else
    match ← lookup sb i name with
    | none =>
      iunlock p i
      return .fail
    | some (_, inum) =>
      iunlock p i
      return .next inum

def namexLoop (parent : Bool) : List Name → ℕ → Code (Option ℕ)
  | [], i =>
    if parent then do
      put i
      return none
    else return some i
  | name :: rest, i => do
    match ← atom (walk sb p parent rest.isEmpty i name) with
    | .fail =>
      put i
      return none
    | .stop => return some i
    | .next inum =>
      put i
      namexLoop parent rest inum

def namexStart (path : Path) : Act ℕ := do
  if path.absolute then
    iget rootino
    return rootino
  else
    let s ← get
    match (s.procs p).cwd with
    | none => Act.wait
    | some c =>
      idup c
      return c

def namex (parent : Bool) (path : Path) : Code (Option ℕ) := do
  let i ← atom (namexStart p path)
  namexLoop sb p parent path.names i

def namei (path : Path) : Code (Option ℕ) := namex sb p false path

def nameiparent (path : Path) : Code (Option ℕ) := namex sb p true path

def Path.name (path : Path) : Name := path.names.getLast?.getD []

end namex

section create

inductive Created
  | found (inum : ℕ)
  | noInode
  | created (inum : ℕ)
  | failed (inum : ℕ)

def linkDots (inum dnum : ℕ) : Act Bool := do
  if ← dirlink sb inum dot inum then dirlink sb inum dotdot dnum else return false

/-- The entries of a new inode: its own when it is a directory, then the one that names it. -/
def linkNew (dnum : ℕ) (name : Name) (type : IType) (inum : ℕ) : Act Bool :=
  if type = .dir then do
    if ← linkDots sb inum dnum then dirlink sb dnum name inum else return false
  else dirlink sb dnum name inum

def countParent (dnum : ℕ) (type : IType) : Act Unit :=
  if type = .dir then modifyInode dnum Dinode.incLink else return ()

/-- The new inode gets its fields and entries; it is locked, as its directory is. -/
def fillInode (dnum : ℕ) (name : Name) (type : IType) (major minor : ℤ) (inum : ℕ) :
    Act Created := do
  ilock p inum
  modifyInode inum fun ip => { ip with major := major, minor := minor, nlink := 1 }
  if ← linkNew sb dnum name type inum then
    countParent dnum type
    iunlock p dnum
    return .created inum
  else
    modifyInode inum fun ip => { ip with nlink := 0 }
    iunlock p inum
    return .failed inum

/-- The section of `create` on the parent directory, which stays locked when the call fails after
the inode was allocated. -/
def createIn (dnum : ℕ) (name : Name) (type : IType) (major minor : ℤ) : Act Created := do
  ilock p dnum
  match ← lookup sb dnum name with
  | some (_, inum) =>
    iunlock p dnum
    return .found inum
  | none =>
    match ← allocInode sb type with
    | none =>
      iunlock p dnum
      return .noInode
    | some inum => fillInode sb p dnum name type major minor inum

/-- An inode that exists already is what `create` of a file returns, if it is one. -/
def createFound (type : IType) (inum : ℕ) : Act Bool := do
  ilock p inum
  let s ← get
  if type = .file ∧ ((s.ip inum).type = .file ∨ (s.ip inum).type = .device) then return true
  else
    iunlock p inum
    return false

def create (path : Path) (type : IType) (major minor : ℤ) : Code (Option ℕ) := do
  match ← nameiparent sb p path with
  | none => return none
  | some dnum =>
    match ← atom (createIn sb p dnum path.name type major minor) with
    | .found inum =>
      put dnum
      if ← atom (createFound p type inum) then return some inum
      else
        put inum
        return none
    | .noInode =>
      put dnum
      return none
    | .created inum =>
      put dnum
      return some inum
    | .failed inum =>
      put inum
      atom (iunlock p dnum)
      put dnum
      return none

end create

section link

/-- The first section of `sys_link`: the count goes up before the entry is made. -/
def linkCount (i : ℕ) : Act Bool := do
  ilock p i
  let s ← get
  if (s.ip i).type = .dir then
    iunlock p i
    return false
  else
    modifyInode i Dinode.incLink
    iunlock p i
    return true

def linkEntry (dnum : ℕ) (name : Name) (i : ℕ) : Act Bool := do
  ilock p dnum
  let linked ← dirlink sb dnum name i
  iunlock p dnum
  return linked

/-- The label `bad` of `sys_link`. -/
def linkUndo (i : ℕ) : Act Unit := do
  ilock p i
  modifyInode i Dinode.decLink
  iunlock p i

def linkBad (i : ℕ) : Code ℤ := do
  atom (linkUndo p i)
  put i
  return -1

def sysLink (old new : Path) : Code ℤ := do
  match ← namei sb p old with
  | none => return -1
  | some i =>
    if ← atom (linkCount p i) then
      match ← nameiparent sb p new with
      | none => linkBad p i
      | some dnum =>
        let linked ← atom (linkEntry sb p dnum new.name i)
        put dnum
        if linked then
          put i
          return 0
        else linkBad p i
    else
      put i
      return -1

end link

section unlink

/-- The first section of `sys_unlink`; the directory stays locked when the name is found. -/
def unlinkFind (dnum : ℕ) (name : Name) : Act (Option (ℕ × ℕ)) := do
  ilock p dnum
  if name = dot ∨ name = dotdot then
    iunlock p dnum
    return none
  else
    match ← lookup sb dnum name with
    | none =>
      iunlock p dnum
      return none
    | some found => return some found

def checkEmpty (isDir : Bool) (i : ℕ) : Act Bool :=
  if isDir then onInode i fun d ip => isdirempty sb d ip else return true

/-- The entry is overwritten with zeros, and the parent loses the link of a directory's "..". -/
def eraseEntry (isDir : Bool) (dnum off : ℕ) : Act Unit := do
  let n ← onInode dnum fun d dp => writei sb d dnum dp off (List.replicate deSize 0) deSize
  if n = deSize then
    if isDir then modifyInode dnum Dinode.decLink else return ()
  else Act.fail .unlinkWritei

/-- The inode to remove is locked too: the entry is erased and the directory unlocked, or the inode
is a directory that is not empty. -/
def unlinkErase (dnum off i : ℕ) : Act Bool := do
  ilock p i
  let s ← get
  if (s.ip i).nlink < 1 then Act.fail .unlinkNlink
  else if ← checkEmpty sb ((s.ip i).type = .dir) i then
    eraseEntry sb ((s.ip i).type = .dir) dnum off
    iunlock p dnum
    return true
  else
    iunlock p i
    return false

/-- The last section of `sys_unlink`, on the inode that is still locked. -/
def unlinkCount (i : ℕ) : Act Unit := do
  modifyInode i Dinode.decLink
  iunlock p i

def sysUnlink (path : Path) : Code ℤ := do
  match ← nameiparent sb p path with
  | none => return -1
  | some dnum =>
    match ← atom (unlinkFind sb p dnum path.name) with
    | none =>
      put dnum
      return -1
    | some (off, i) =>
      if ← atom (unlinkErase sb p dnum off i) then
        put dnum
        atom (unlinkCount p i)
        put i
        return 0
      else
        put i
        atom (iunlock p dnum)
        put dnum
        return -1

end unlink

section files

def freeFd (proc : Proc) : Option ℕ := (List.range nofile).find? fun fd => proc.ofile fd = none

def setProc (f : Proc → Proc) : Act Unit :=
  modify fun s => { s with procs := update s.procs p (f (s.procs p)) }

def installFd (fd i : ℕ) : Act Unit :=
  modify fun s => { s with
    files := s.files + 1
    procs := update s.procs p { s.procs p with
      ofile := update (s.procs p).ofile fd (some i) } }

def truncFile (omode : ℕ) (type : IType) (i : ℕ) : Act Unit :=
  if oTrunc omode ∧ type = .file then truncate i else return ()

/-- `filealloc` and `fdalloc`: the first free descriptor, if there is a file for it. -/
def allocFd (s : State) : Option ℕ :=
  if s.files < nfile then freeFd (s.procs p) else none

/-- `sys_open` from its checks on, with the inode locked. The result is the descriptor, or none
after the inode has been unlocked. -/
def openInode (omode i : ℕ) : Act (Option ℕ) := do
  let s ← get
  if (s.ip i).type = .device ∧ ((s.ip i).major < 0 ∨ ndev ≤ (s.ip i).major) then
    iunlock p i
    return none
  else
    match allocFd p s with
    | none =>
      iunlock p i
      return none
    | some fd =>
      -- the file has its inode before the lock is released; within the section that is the same
      truncFile omode (s.ip i).type i
      iunlock p i
      installFd p fd i
      return some fd

/-- An existing inode is opened; a directory for reading only. -/
def openFound (omode i : ℕ) : Act Bool := do
  ilock p i
  let s ← get
  if (s.ip i).type = .dir ∧ omode ≠ 0 then
    iunlock p i
    return false
  else return true

def openLocked (omode i : ℕ) : Code ℤ := do
  match ← atom (openInode p omode i) with
  | none =>
    put i
    return -1
  | some fd => return fd

def sysOpen (path : Path) (omode : ℕ) : Code ℤ := do
  if oCreate omode then
    match ← create sb p path .file 0 0 with
    | none => return -1
    | some i => openLocked p omode i
  else
    match ← namei sb p path with
    | none => return -1
    | some i =>
      if ← atom (openFound p omode i) then openLocked p omode i
      else
        put i
        return -1

def sysMake (path : Path) (type : IType) (major minor : ℤ) : Code ℤ := do
  match ← create sb p path type major minor with
  | none => return -1
  | some i =>
    atom (iunlock p i)
    put i
    return 0

def sysMkdir (path : Path) : Code ℤ := sysMake sb p path .dir 0 0

/-- The numbers are passed to `create` as `short`. -/
def sysMknod (path : Path) (major minor : ℤ) : Code ℤ :=
  sysMake sb p path .device (Int.bmod major 65536) (Int.bmod minor 65536)

def chdirCheck (i : ℕ) : Act Bool := do
  ilock p i
  let s ← get
  iunlock p i
  return decide ((s.ip i).type = .dir)

def takeCwd : Act ℕ := do
  let s ← get
  match (s.procs p).cwd with
  | none => Act.wait
  | some c =>
    setProc p fun proc => { proc with cwd := none }
    return c

def sysChdir (path : Path) : Code ℤ := do
  match ← namei sb p path with
  | none => return -1
  | some i =>
    if ← atom (chdirCheck p i) then
      let c ← atom (takeCwd p)
      put c
      atom (setProc p fun proc => { proc with cwd := some i })
      return 0
    else
      put i
      return -1

/-- The descriptor and its file are released; what is left of `fileclose` is the `iput`. -/
def closeFd (fd : ℕ) : Act (Option ℕ) := do
  let s ← get
  match if fd < nofile then (s.procs p).ofile fd else none with
  | none => return none
  | some i =>
    modify fun s => { s with
      files := s.files - 1
      procs := update s.procs p { s.procs p with
        ofile := update (s.procs p).ofile fd none } }
    return some i

def sysClose (fd : ℕ) : Code ℤ := do
  match ← atom (closeFd p fd) with
  | none => return -1
  | some i =>
    put i
    return 0

/-- The loop of `exit` over the descriptors from `fd` on. -/
def closeAll : ℕ → ℕ → Code Unit
  | 0, _ => return ()
  | n + 1, fd => do
    let _ ← sysClose p fd
    closeAll n (fd + 1)

/-- `exit` as far as it has to do with inodes. -/
def sysExit : Code ℤ := do
  closeAll p nofile 0
  let c ← atom (takeCwd p)
  put c
  return 0

end files

inductive Call
  | open (path : List UInt8) (omode : ℕ)
  | mkdir (path : List UInt8)
  | mknod (path : List UInt8) (major minor : ℤ)
  | link (old new : List UInt8)
  | unlink (path : List UInt8)
  | chdir (path : List UInt8)
  | close (fd : ℕ)
  | exit

def syscall : Call → Code ℤ
  | .open path omode => sysOpen sb p (.parse path) omode
  | .mkdir path => sysMkdir sb p (.parse path)
  | .mknod path major minor => sysMknod sb p (.parse path) major minor
  | .link old new => sysLink sb p (.parse old) (.parse new)
  | .unlink path => sysUnlink sb p (.parse path)
  | .chdir path => sysChdir sb p (.parse path)
  | .close fd => sysClose p fd
  | .exit => sysExit p

/-- A process that has exited makes no more calls. -/
def enter : Act Unit := do
  let s ← get
  if (s.procs p).cwd = none then Act.wait else return ()

def call (c : Call) : Code Unit := do
  atom (enter p)
  let _ ← syscall sb p c
  return ()

end Xv6.Fs
