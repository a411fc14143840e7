import Xv6.Inode

/-!
# The inode table and path names

The rest of `kernel/fs.c`: `iget`, `ilock`, `iput` and their like on the table of in-memory inodes,
and `skipelem`. An entry of the table is found by its inode number, so the table is a map and
`active` counts the entries in use, of which there are `NINODE`. The functions are actions on the
state of the kernel; one that waits for a sleep-lock is not enabled.
-/

namespace Xv6.Fs

def ninode : ℕ := 50

def nofile : ℕ := 16

def nfile : ℕ := 100

def rootino : ℕ := 1

structure Inode where
  ref : ℕ
  valid : Bool
  /-- The process that holds the sleep-lock. -/
  lock : Option ℕ
  copy : Dinode

/-- A process as far as it has inodes: its directory, which is 0 after `exit`, and for each open
descriptor the inode of its file. There is no `dup` or `fork` among the calls, so a file has one
descriptor. -/
structure Proc where
  cwd : Option ℕ
  ofile : ℕ → Option ℕ

structure State where
  disk : Disk
  itable : ℕ → Inode
  active : ℕ
  procs : ℕ → Proc
  /-- The number of files in use in `ftable`. -/
  files : ℕ

/-- An action: it waits, panics, or returns a value and the state after it. -/
abbrev Act (α : Type) := StateT State (ExceptT Panic Option) α

namespace Act

variable {α β : Type}

def wait : Act α := fun _ => none

def fail (e : Panic) : Act α := fun _ => some (.error e)

theorem bind_apply (x : Act α) (f : α → Act β) (s : State) : (x >>= f) s =
      match (x s : Option (Except Panic (α × State))) with
      | none => none
      | some (.error e) => some (.error e)
      | some (.ok (a, u)) => f a u := by
  change Option.bind (x s) _ = _
  rcases (x s : Option (Except Panic (α × State))) with _ | e | ⟨a, u⟩ <;> rfl

theorem bind_eq_ok {x : Act α} {f : α → Act β} {s t : State} {b : β} :
    (x >>= f) s = some (.ok (b, t)) ↔
      ∃ a u, x s = some (.ok (a, u)) ∧ f a u = some (.ok (b, t)) := by
  rw [bind_apply]
  constructor
  · intro h
    split at h
    · cases h
    · cases h
    · next a u hx => exact ⟨a, u, hx, h⟩
  · rintro ⟨a, u, hx, hf⟩
    rw [hx]
    exact hf

end Act

variable (sb : Super) (p i : ℕ)

namespace State

variable (s : State)

def setInode (e : Inode) : State := { s with itable := Function.update s.itable i e }

def ip : Dinode := (s.itable i).copy

def store (d : Disk) (ip : Dinode) : State :=
  { s with disk := d, itable := Function.update s.itable i { s.itable i with copy := ip } }

/-- The last lines of `iput`. -/
def decRef : State :=
  { s.setInode i { s.itable i with ref := (s.itable i).ref - 1 } with
    active := if (s.itable i).ref = 1 then s.active - 1 else s.active }

end State

def iget : Act Unit := fun s =>
  if 0 < (s.itable i).ref then
    some (.ok ((), s.setInode i { s.itable i with ref := (s.itable i).ref + 1 }))
  else if s.active = ninode then some (.error .igetNoInodes)
  else some (.ok ((), { s.setInode i { s.itable i with ref := 1, valid := false } with
    active := s.active + 1 }))

def idup : Act Unit := fun s =>
  some (.ok ((), s.setInode i { s.itable i with ref := (s.itable i).ref + 1 }))

def ilock : Act Unit := fun s =>
  if (s.itable i).ref < 1 then some (.error .ilock)
  else if (s.itable i).lock ≠ none then none
  else if (s.itable i).valid then
    some (.ok ((), s.setInode i { s.itable i with lock := some p }))
  else if (s.disk.dinode i).type = .none then some (.error .ilockNoType)
  else some (.ok
    ((), s.setInode i { s.itable i with lock := some p, valid := true, copy := s.disk.dinode i }))

def iunlock : Act Unit := fun s =>
  if (s.itable i).lock ≠ some p ∨ (s.itable i).ref < 1 then some (.error .iunlock)
  else some (.ok ((), s.setInode i { s.itable i with lock := none }))

def modifyInode (f : Dinode → Dinode) : Act Unit := fun s =>
  some (.ok ((), s.store i (s.disk.iupdate i (f (s.ip i))) (f (s.ip i))))

def onInode {α : Type} (f : Disk → Dinode → Except Panic (Disk × Dinode × α)) : Act α := fun s =>
  match f s.disk (s.ip i) with
  | .error e => some (.error e)
  | .ok (d, ip, a) => some (.ok (a, s.store i d ip))

def truncate : Act Unit :=
  onInode i fun d ip => (itrunc d i ip).map fun r => (r.1, r.2, ())

/-- `iput` up to its last lines: the inode is freed, which leaves the reference to be dropped, or
the reference is dropped at once. The result says which. -/
def iput : Act Bool := fun s =>
  if (s.itable i).ref = 1 ∧ (s.itable i).valid = true ∧ (s.ip i).nlink = 0 then
    if (s.itable i).lock ≠ none then none
    else
      match itrunc s.disk i (s.ip i) with
      | .error e => some (.error e)
      | .ok (d, ip) =>
        let ip := { ip with type := .none }
        let s := s.store i (d.iupdate i ip) ip
        some (.ok (true, s.setInode i { s.itable i with valid := false }))
  else some (.ok (false, s.decRef i))

/-- The last lines of `iput` after the inode has been freed. -/
def dropRef : Act Unit := fun s => some (.ok ((), s.decRef i))

/-- `dirlookup` on a locked directory, with the `iget` of what it finds. -/
def lookup (name : Name) : Act (Option (ℕ × ℕ)) := do
  match ← onInode i fun d dp => dirlookup sb d dp name with
  | none => return none
  | some (off, inum) =>
    iget inum
    return some (off, inum)

/-- `dirlink` on a locked directory. The `iput` of an entry that it finds comes right after its
`iget`: the entry has another reference or has not been read, so the inode is not freed. -/
def dirlink (name : Name) (inum : ℕ) : Act Bool := do
  match ← lookup sb i name with
  | some (_, found) =>
    dropRef found
    return false
  | none => onInode i fun d dp => writeEntry sb d i dp name inum

def allocInode (type : IType) : Act (Option ℕ) := fun s =>
  match ialloc sb s.disk type with
  | none => some (.ok (none, s))
  | some (d, inum) => (do iget inum; return some inum : Act (Option ℕ)) { s with disk := d }

/-- The next element of the path, cut to `DIRSIZ` bytes, and what follows it. -/
def skipelem (path : List UInt8) : Option (Name × List UInt8) :=
  let path := path.dropWhile (· = 47)
  if path = [] then none
  else some ((path.takeWhile (· ≠ 47)).take dirsiz, (path.dropWhile (· ≠ 47)).dropWhile (· = 47))

def elems : ℕ → List UInt8 → List Name
  | 0, _ => []
  | fuel + 1, path =>
    match skipelem path with
    | none => []
    | some (name, rest) => name :: elems fuel rest

/-- A path as `argstr` delivers it: where it starts, and its elements. -/
structure Path where
  absolute : Bool
  names : List Name

def Path.parse (bytes : List UInt8) : Path :=
  let bytes := bytes.takeWhile (· ≠ 0)
  ⟨bytes.head? = some 47, elems bytes.length bytes⟩

end Xv6.Fs
