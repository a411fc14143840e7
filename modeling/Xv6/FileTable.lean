import Xv6.Runs
import Xv6.Transition

/-!
# Open files

The file table of `kernel/file.c`, the descriptor tables of the processes, and the calls that create
and drop references: `sys_open`, `sys_dup`, `sys_close`, `sys_pipe`, `fork` and `exit`, with `wait`
for the slots of processes. A call runs to its end. What the other subsystems decide is an argument
of the call: the inode that a path leads to, whether memory is available, whether `copyout`
succeeds.

`inst` numbers the files that have ever been allocated, and pipes are numbered in the same way;
`opened` and `ended` record for which of them the file has got a type, and how many calls of
`pipeclose` or `iput` it has got; `freed` counts how often the page of a pipe was freed.
-/

namespace Xv6.FileTable

open Function

def nfile : ℕ := 100

def nofile : ℕ := 16

def nproc : ℕ := 64

abbrev FileIx := Fin nfile

abbrev Fd := Fin nofile

abbrev Slot := Fin nproc

theorem nproc_pos : 0 < nproc := by decide

theorem one_lt_nproc : 1 < nproc := by decide

inductive FType
  | none
  | pipe
  | inode
  | device
  deriving DecidableEq

structure File where
  type : FType
  ref : ℕ
  readable : Bool
  writable : Bool
  pipe : ℕ
  ip : ℕ
  inst : ℕ

structure Pipe where
  readopen : Bool
  writeopen : Bool
  freed : ℕ

inductive PState
  | unused
  | live
  | zombie
  deriving DecidableEq

structure Proc where
  state : PState
  ofile : Fd → Option FileIx

structure State where
  file : FileIx → File
  pipe : ℕ → Pipe
  npipe : ℕ
  proc : Slot → Proc
  ninst : ℕ
  opened : ℕ → Bool
  ended : ℕ → ℕ

inductive Panic
  | filedup
  | fileclose
  deriving DecidableEq

abbrev M := StateT State (Except Panic)

namespace State

variable (s : State)

def setFile (f : FileIx) (x : File) : State := { s with file := update s.file f x }

def setProc (p : Slot) (x : Proc) : State := { s with proc := update s.proc p x }

def setOfile (p : Slot) (fd : Fd) (v : Option FileIx) : State :=
  s.setProc p { s.proc p with ofile := update (s.proc p).ofile fd v }

def pipeclose (ff : File) : State :=
  let x := s.pipe ff.pipe
  let y := if ff.writable then { x with writeopen := false } else { x with readopen := false }
  { s with
    pipe := update s.pipe ff.pipe
      (if y.readopen = false ∧ y.writeopen = false then { y with freed := y.freed + 1 } else y)
    ended := update s.ended ff.inst (s.ended ff.inst + 1) }

def iput (ff : File) : State :=
  { s with ended := update s.ended ff.inst (s.ended ff.inst + 1) }

end State

section file

def filealloc : M (Option FileIx) := do
  let s ← get
  match (List.finRange nfile).find? fun f => (s.file f).ref = 0 with
  | none => return none
  | some f =>
    set { s.setFile f { s.file f with ref := 1, inst := s.ninst } with ninst := s.ninst + 1 }
    return some f

def filedup (f : FileIx) : M Unit := do
  let s ← get
  if (s.file f).ref < 1 then throw .filedup
  else set (s.setFile f { s.file f with ref := (s.file f).ref + 1 })

def fileclose (f : FileIx) : M Unit := do
  let s ← get
  if (s.file f).ref < 1 then throw .fileclose
  else if 0 < (s.file f).ref - 1 then
    set (s.setFile f { s.file f with ref := (s.file f).ref - 1 })
  else
    let t := s.setFile f { s.file f with ref := 0, type := .none }
    match (s.file f).type with
    | .pipe => set (t.pipeclose (s.file f))
    | .inode | .device => set (t.iput (s.file f))
    | .none => set t

/-- `pipealloc`; `page` says whether `kalloc` returns one. -/
def pipealloc (page : Bool) : M (Option (FileIx × FileIx)) := do
  match ← filealloc with
  | none => return none
  | some f0 =>
    match ← filealloc with
    | none =>
      fileclose f0
      return none
    | some f1 =>
      if page then
        modify fun s =>
          { (s.setFile f0 { s.file f0 with
              type := .pipe, readable := true, writable := false, pipe := s.npipe }).setFile f1
            { s.file f1 with
              type := .pipe, readable := false, writable := true, pipe := s.npipe } with
            pipe := update s.pipe s.npipe ⟨true, true, 0⟩
            npipe := s.npipe + 1
            opened := update (update s.opened (s.file f0).inst true) (s.file f1).inst true }
        return some (f0, f1)
      else
        fileclose f0
        fileclose f1
        return none

end file

section sysfile

variable (p : Slot)

def fdalloc (f : FileIx) : M (Option Fd) := do
  let s ← get
  match (List.finRange nofile).find? fun fd => (s.proc p).ofile fd = none with
  | none => return none
  | some fd =>
    set (s.setOfile p fd (some f))
    return some fd

def argfd (fd : ℤ) (s : State) : Option (Fd × FileIx) :=
  if h : 0 ≤ fd ∧ fd < nofile then
    let fd' : Fd := ⟨fd.toNat, by omega⟩
    ((s.proc p).ofile fd').map fun f => (fd', f)
  else none

def sysDup (fd : ℤ) : M ℤ := do
  match argfd p fd (← get) with
  | none => return -1
  | some (_, f) =>
    match ← fdalloc p f with
    | none => return -1
    | some fd' =>
      filedup f
      return fd'.val

def sysClose (fd : ℤ) : M ℤ := do
  match argfd p fd (← get) with
  | none => return -1
  | some (fd, f) =>
    modify fun s => s.setOfile p fd none
    fileclose f
    return 0

/-- `sys_open`, where `ip` is the inode that `create` or `namei` has returned and whether it is a
device, or nothing when the call has failed before `filealloc`. -/
def sysOpen (ip : Option (ℕ × Bool)) (readable writable : Bool) : M ℤ := do
  match ip with
  | none => return -1
  | some (ip, device) =>
    match ← filealloc with
    | none => return -1
    | some f =>
      match ← fdalloc p f with
      | none =>
        fileclose f
        return -1
      | some fd =>
        modify fun s =>
          { s.setFile f { s.file f with
              type := if device then .device else .inode
              ip := ip, readable := readable, writable := writable } with
            opened := update s.opened (s.file f).inst true }
        return fd.val

/-- `sys_pipe`; `page` and `copyout` say whether `kalloc` and `copyout` succeed. -/
def sysPipe (page copyout : Bool) : M ℤ := do
  match ← pipealloc page with
  | none => return -1
  | some (rf, wf) =>
    match ← fdalloc p rf with
    | none =>
      fileclose rf
      fileclose wf
      return -1
    | some fd0 =>
      match ← fdalloc p wf with
      | none =>
        modify fun s => s.setOfile p fd0 none
        fileclose rf
        fileclose wf
        return -1
      | some fd1 =>
        if copyout then return 0
        else
          modify fun s => (s.setOfile p fd0 none).setOfile p fd1 none
          fileclose rf
          fileclose wf
          return -1

end sysfile

section proc

def dupAll (p np : Slot) : List Fd → M Unit
  | [] => return ()
  | fd :: fds => do
    match ((← get).proc p).ofile fd with
    | none => dupAll p np fds
    | some f =>
      filedup f
      modify fun s => s.setOfile np fd (some f)
      dupAll p np fds

/-- `fork`; `ok` says whether there is memory. -/
def fork (p : Slot) (ok : Bool) : M ℤ := do
  let s ← get
  match (List.finRange nproc).find? fun q => (s.proc q).state = .unused with
  | none => return -1
  | some np =>
    if ok then
      dupAll p np (List.finRange nofile)
      modify fun s => s.setProc np { s.proc np with state := .live }
      return np.val
    else return -1

def closeAll (p : Slot) : List Fd → M Unit
  | [] => return ()
  | fd :: fds => do
    match ((← get).proc p).ofile fd with
    | none => closeAll p fds
    | some f =>
      fileclose f
      modify fun s => s.setOfile p fd none
      closeAll p fds

def exit (p : Slot) : M ℤ := do
  closeAll p (List.finRange nofile)
  modify fun s => s.setProc p { s.proc p with state := .zombie }
  return 0

/-- `freeproc` of a zombie. -/
def wait (q : Slot) : M ℤ := do
  modify fun s => s.setProc q { s.proc q with state := .unused }
  return q.val

end proc

inductive Call
  | dup (fd : ℤ)
  | close (fd : ℤ)
  | open (ip : Option (ℕ × Bool)) (readable writable : Bool)
  | pipe (page copyout : Bool)
  | fork (ok : Bool)
  | exit
  | wait (q : Slot)

def Call.code (p : Slot) : Call → M ℤ
  | .dup fd => sysDup p fd
  | .close fd => sysClose p fd
  | .open ip readable writable => sysOpen p ip readable writable
  | .pipe page copyout => sysPipe p page copyout
  | .fork ok => FileTable.fork p ok
  | .exit => FileTable.exit p
  | .wait q => FileTable.wait q

structure Sys where
  state : State
  ret : ℤ
  panicked : Option Panic

def Call.enabled (s : State) (p : Slot) : Call → Bool
  | .wait q => (s.proc p).state = .live ∧ (s.proc q).state = .zombie
  | _ => (s.proc p).state = .live

def step (s : Sys) (a : Slot × Call) : Option Sys :=
  if s.panicked = none ∧ a.2.enabled s.state a.1 = true then
    match a.2.code a.1 s.state with
    | .error e => some { s with panicked := some e }
    | .ok (r, t) => some ⟨t, r, none⟩
  else none

def boot : Sys where
  state :=
    { file := fun _ => ⟨.none, 0, false, false, 0, 0, 0⟩
      pipe := fun _ => ⟨false, false, 0⟩
      npipe := 0
      proc := fun p => ⟨if p.val = 0 then .live else .unused, fun _ => none⟩
      ninst := 0
      opened := fun _ => false
      ended := fun _ => 0 }
  ret := 0
  panicked := none

end Xv6.FileTable
