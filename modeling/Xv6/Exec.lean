import Xv6.UserImage

/-!
# exec

`exec` and `loadseg` of `kernel/exec.c` and `sys_exec` of `kernel/sysfile.c`. A file is what `readi`
finds in it: its size and its bytes. The local variables `elf` and `ph` are read from the file's
bytes; of the kernel's stack only the array `ustack` and the buffers of `sys_exec` are in memory,
because `copyout` and `copyin` take their addresses. The state has what `exec` can leave behind:
physical memory, the process, the transactions that are open, the inodes' reference counts and the
inode locks of the process. -/

namespace Xv6.Exec

open Xv6.Vm Function

def elfMagic : ℕ := 0x464C457F

def elfProgLoad : ℕ := 1

def maxarg : ℕ := 32

def maxpath : ℕ := 128

def userstack : ℕ := 2

def sub64 (a b : ℕ) : ℕ := (a + (2 ^ 64 - b)) % 2 ^ 64

structure File where
  size : ℕ
  bytes : ℕ → UInt8
  size_lt : size < 2 ^ 32

/-- `readi` to an address of the kernel, for `uint` values: the number of bytes read. -/
def File.readi (f : File) (off n : ℕ) : ℕ :=
  if f.size < off ∨ (off + n) % 2 ^ 32 < off then 0
  else if f.size < (off + n) % 2 ^ 32 then f.size - off
  else n

def field (bytes : ℕ → UInt8) (off width : ℕ) : ℕ :=
  ofBytes ((List.range width).map fun j => (bytes (off + j)).toNat)

structure Elfhdr where
  magic : ℕ
  entry : ℕ
  phoff : ℕ
  phnum : ℕ
  deriving DecidableEq

def Elfhdr.parse (bytes : ℕ → UInt8) : Elfhdr :=
  ⟨field bytes 0 4, field bytes 24 8, field bytes 32 8, field bytes 56 2⟩

def elfhdrSize : ℕ := 64

structure Proghdr where
  type : ℕ
  flags : ℕ
  off : ℕ
  vaddr : ℕ
  filesz : ℕ
  memsz : ℕ
  deriving DecidableEq

def Proghdr.parse (bytes : ℕ → UInt8) : Proghdr :=
  ⟨field bytes 0 4, field bytes 4 4, field bytes 8 8, field bytes 16 8, field bytes 32 8,
    field bytes 40 8⟩

def proghdrSize : ℕ := 56

def flags2perm (flags : ℕ) : ℕ :=
  (if flags &&& 1 ≠ 0 then pteX else 0) ||| (if flags &&& 2 ≠ 0 then pteW else 0)

section memory

def loadsegLoop (f : File) (pagetable va offset sz : ℕ) : ℕ → ℕ → M Bool
  | 0, _ => throw .outOfRounds
  | rounds + 1, i =>
    if i < sz then do
      let pa ← walkaddr pagetable (add64 va i)
      if pa = 0 then throw .loadseg
      else
        let n := if sz - i < pgsize then sz - i else pgsize
        let off := (offset + i) % 2 ^ 32
        let tot := f.readi off n
        do
          modify fun s => s.fill pa tot fun k => f.bytes (off + k)
          if tot ≠ n then pure false
          else loadsegLoop f pagetable va offset sz rounds ((i + pgsize) % 2 ^ 32)
    else pure true

/-- `loadseg` with `uint` values for the offset and the size; the results 0 and -1 are `true` and
`false`. -/
def loadseg (f : File) (pagetable va offset sz : ℕ) : M Bool :=
  loadsegLoop f pagetable va offset sz (sz / pgsize + 2) 0

/-- The loop over the program headers that are left, with `off` as the `uint` that `readi` gets. The
result is whether all could be loaded, and `sz`. -/
def loadLoop (kend : ℕ) (f : File) (pagetable : ℕ) : ℕ → ℕ → ℕ → M (Bool × ℕ)
  | 0, _, sz => pure (true, sz)
  | n + 1, off, sz =>
    if f.readi off proghdrSize ≠ proghdrSize then pure (false, sz)
    else
      let ph := Proghdr.parse fun k => f.bytes (off + k)
      let next := (off + proghdrSize) % 2 ^ 32
      if ph.type ≠ elfProgLoad then loadLoop kend f pagetable n next sz
      else if ph.memsz < ph.filesz then pure (false, sz)
      else if add64 ph.vaddr ph.memsz < ph.vaddr then pure (false, sz)
      else if ph.vaddr % pgsize ≠ 0 then pure (false, sz)
      else do
        let sz1 ← uvmalloc kend pagetable sz (add64 ph.vaddr ph.memsz) (flags2perm ph.flags)
        if sz1 = 0 then pure (false, sz)
        else if ← loadseg f pagetable ph.vaddr (ph.off % 2 ^ 32) (ph.filesz % 2 ^ 32) then
          loadLoop kend f pagetable n next sz1
        else pure (false, sz1)

/-- The loop that pushes the argument strings, for the arguments that are left: `sp` and the part of
`ustack` that has been filled. -/
def pushArgs (pagetable stackbase : ℕ) : List ℕ → ℕ → List ℕ → M (Option (ℕ × List ℕ))
  | [], sp, ustack => pure (some (sp, ustack))
  | arg :: argv, sp, ustack =>
    if maxarg ≤ ustack.length then pure none
    else do
      let len ← strlen pgsize arg
      let sp := sub64 sp (len + 1)
      let sp := sub64 sp (sp % 16)
      if sp < stackbase then pure none
      else if ← copyout pagetable sp arg (len + 1) then
        pushArgs pagetable stackbase argv sp (ustack ++ [sp])
      else pure none

def wordByte (v j : ℕ) : UInt8 := UInt8.ofNat (v / 256 ^ j)

def storeWords (addr : ℕ) (ws : List ℕ) : M Unit :=
  modify fun s => s.fill addr (8 * ws.length) fun i => wordByte (ws.getD (i / 8) 0) (i % 8)

end memory

/-- The part of `struct proc` that `exec` reads and sets; the trapframe is given by its page. -/
structure Proc where
  pagetable : ℕ
  sz : ℕ
  trapframe : ℕ
  name : List UInt8
  deriving DecidableEq

structure Kernel where
  phys : Phys
  proc : Proc
  ops : ℕ
  ref : ℕ → ℕ
  locked : ℕ → Bool

inductive Stop
  | vm (p : Panic)
  | ilock
  | iunlock
  deriving DecidableEq

abbrev ExecM := StateT Kernel (Except Stop)

def vm {α : Type} (m : M α) : ExecM α := fun s =>
  match m s.phys with
  | .ok (a, phys) => .ok (a, { s with phys := phys })
  | .error p => .error (.vm p)

/-- What does not change: the linker's `end`, the page of the trampoline, the addresses of `ustack`
and of the buffers of `sys_exec`, where paths lead, and what is in the inodes. -/
structure Env where
  kend : ℕ
  tramp : ℕ
  ustack : ℕ
  path : ℕ
  uarg : ℕ
  lookup : List UInt8 → Option ℕ
  file : ℕ → File

def beginOp : ExecM Unit := modify fun s => { s with ops := s.ops + 1 }

def endOp : ExecM Unit := modify fun s => { s with ops := s.ops - 1 }

def namei (env : Env) (path : List UInt8) : ExecM (Option ℕ) :=
  match env.lookup path with
  | none => pure none
  | some ip => do
      modify fun s => { s with ref := update s.ref ip (s.ref ip + 1) }
      pure (some ip)

def ilock (ip : ℕ) : ExecM Unit := do
  let s ← get
  if s.ref ip < 1 then throw .ilock
  else set { s with locked := update s.locked ip true }

def iunlockput (ip : ℕ) : ExecM Unit := do
  let s ← get
  if !s.locked ip || s.ref ip < 1 then throw .iunlock
  else
    set { s with
      locked := update s.locked ip false
      ref := update s.ref ip (s.ref ip - 1) }

/-- The new address space when all is ready to change to it: the variables `pagetable`, `sz`, `sp`,
`elf.entry` and `argc`. -/
structure Program where
  pagetable : ℕ
  sz : ℕ
  sp : ℕ
  entry : ℕ
  argc : ℕ
  deriving DecidableEq

/-- The label `bad` of `exec`: `pagetable` and `ip` are `none` where the source has 0. -/
def bad (env : Env) (pagetable : Option ℕ) (sz : ℕ) (ip : Option ℕ) : ExecM (Option Program) := do
  (match pagetable with
  | none => pure ()
  | some pagetable => vm (procFreepagetable env.kend 3 pagetable sz))
  (match ip with
  | none => pure ()
  | some ip => do
      iunlockput ip
      endOp)
  pure none

def lastElement (last : List UInt8) : List UInt8 → List UInt8
  | [] => last
  | c :: s => lastElement (if c = 47 then s else last) s

def safestrcpy (name s : List UInt8) : List UInt8 :=
  s.take 15 ++ [0] ++ name.drop ((s.take 15).length + 1)

/-- `exec` from the allocation of the stack on, with the inode put back. -/
def execStack (env : Env) (pagetable sz entry : ℕ) (argv : List ℕ) : ExecM (Option Program) := do
  let sz := pgroundup sz
  let sz1 ← vm (uvmalloc env.kend pagetable sz (add64 sz ((userstack + 1) * pgsize)) pteW)
  if sz1 = 0 then bad env (some pagetable) sz none
  else do
    let sz := sz1
    vm (uvmclear pagetable (sub64 sz ((userstack + 1) * pgsize)))
    let stackbase := sub64 sz (userstack * pgsize)
    match ← vm (pushArgs pagetable stackbase argv sz []) with
    | none => bad env (some pagetable) sz none
    | some (sp, ustack) =>
      let sp := sub64 sp ((ustack.length + 1) * 8)
      let sp := sub64 sp (sp % 16)
      if sp < stackbase then bad env (some pagetable) sz none
      else do
        vm (storeWords env.ustack (ustack ++ [0]))
        if ← vm (copyout pagetable sp env.ustack ((ustack.length + 1) * 8)) then
          pure (some ⟨pagetable, sz, sp, entry, ustack.length⟩)
        else bad env (some pagetable) sz none

def execInode (env : Env) (ip : ℕ) (argv : List ℕ) : ExecM (Option Program) := do
  let f := env.file ip
  if f.readi 0 elfhdrSize ≠ elfhdrSize then bad env none 0 (some ip)
  else
    let elf := Elfhdr.parse f.bytes
    if elf.magic ≠ elfMagic then bad env none 0 (some ip)
    else do
      let s ← get
      match ← vm (procPagetable env.kend 3 env.tramp s.proc.trapframe) with
      | none => bad env none 0 (some ip)
      | some pagetable => do
          let (ok, sz) ← vm (loadLoop env.kend f pagetable elf.phnum (elf.phoff % 2 ^ 32) 0)
          if ok then do
            iunlockput ip
            endOp
            execStack env pagetable sz elf.entry argv
          else bad env (some pagetable) sz (some ip)

/-- `exec` up to the point from which on it cannot fail. -/
def prepare (env : Env) (path : List UInt8) (argv : List ℕ) : ExecM (Option Program) := do
  beginOp
  match ← namei env path with
  | none => do
      endOp
      pure none
  | some ip => do
      ilock ip
      execInode env ip argv

def commit (env : Env) (b : Program) (path : List UInt8) : ExecM (Option ℕ) := do
  let s ← get
  let old := s.proc
  vm (storeWords (old.trapframe + 120) [b.sp])
  modify fun s => { s with proc :=
    { pagetable := b.pagetable, sz := b.sz, trapframe := old.trapframe,
      name := safestrcpy old.name (lastElement path path) } }
  vm (storeWords (old.trapframe + 24) [b.entry])
  vm (storeWords (old.trapframe + 48) [b.sp])
  vm (procFreepagetable env.kend 3 old.pagetable old.sz)
  pure (some b.argc)

/-- `exec` of a path, with the addresses of the argument strings; `none` is the result -1. -/
def exec (env : Env) (path : List UInt8) (argv : List ℕ) : ExecM (Option ℕ) := do
  match ← prepare env path argv with
  | none => pure none
  | some b => commit env b path

/-- The bytes at an address up to a NUL, at most `n`. -/
def cstring (s : Phys) : ℕ → ℕ → List UInt8
  | 0, _ => []
  | n + 1, a => if s.byte a = 0 then [] else s.byte a :: cstring s n (a + 1)

def word (s : Phys) (a : ℕ) : ℕ := field s.byte a 8

def fetchaddr (env : Env) (p : Proc) (addr : ℕ) : M Bool :=
  if p.sz ≤ addr ∨ p.sz < add64 addr 8 then pure false
  else copyin p.pagetable env.uarg addr 8

/-- The loop of `sys_exec`, with `n` entries of `argv` left: whether it came to the end, and the
pages that it took. -/
def fetchArgs (env : Env) (p : Proc) (uargv : ℕ) : ℕ → List ℕ → M (Bool × List ℕ)
  | 0, argv => pure (false, argv)
  | n + 1, argv => do
      if ← fetchaddr env p (add64 uargv (8 * argv.length)) then do
        let s ← get
        let uarg := word s env.uarg
        if uarg = 0 then pure (true, argv)
        else do
          match ← kalloc with
          | none => pure (false, argv)
          | some page => do
              let r ← fetchstr p.pagetable uarg page pgsize
              if r < 0 then pure (false, argv ++ [page])
              else fetchArgs env p uargv n (argv ++ [page])
      else pure (false, argv)

def sysExec (env : Env) (upath uargv : ℕ) : ExecM (Option ℕ) := do
  let s ← get
  let r ← vm (fetchstr s.proc.pagetable upath env.path maxpath)
  if r < 0 then pure none
  else do
    let t ← get
    let path := cstring t.phys maxpath env.path
    let (ok, argv) ← vm (fetchArgs env s.proc uargv maxarg [])
    let ret ← (if ok then exec env path argv else pure none)
    vm (argv.forM (kfree env.kend))
    pure ret

end Xv6.Exec
