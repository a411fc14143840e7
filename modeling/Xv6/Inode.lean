import Xv6.Block

/-!
# Inodes, their blocks and directories

The functions of `kernel/fs.c` below the inode table, on the plain map of blocks that the buffer
cache and the log provide. The inode blocks and the bitmap blocks are typed: `Disk.dinode` and
`Disk.used`. Functions that take a locked `struct inode *ip` get its in-memory copy as an argument
and return it, so that a change of `ip->addrs` reaches the disk only where the source calls
`iupdate`. -/

namespace Xv6

open Function

def Block.write (b : Block) (off : ℕ) (bytes : List UInt8) : Block := fun k =>
  if off ≤ k then (bytes[k - off]?).getD (b k) else b k

def Block.read (b : Block) (off n : ℕ) : List UInt8 := (List.range n).map fun k => b (off + k)

namespace Fs

def ndirect : ℕ := 12

def nindirect : ℕ := 256

def maxfile : ℕ := ndirect + nindirect

def dirsiz : ℕ := 14

def deSize : ℕ := 16

inductive IType
  | none
  | dir
  | file
  | device
  deriving DecidableEq

structure Dinode where
  type : IType
  major : ℤ
  minor : ℤ
  nlink : ℤ
  size : ℕ
  /-- `NDIRECT` direct blocks and, at index `NDIRECT`, the indirect block. -/
  addrs : ℕ → ℕ

/-- What is used of the superblock; the data blocks are those from `datastart` to `size`. -/
structure Super where
  size : ℕ
  ninodes : ℕ
  datastart : ℕ
  size_lt : size < 2 ^ 32
  datastart_pos : 0 < datastart
  /-- Inode numbers fit the `ushort` of a directory entry. -/
  ninodes_le : ninodes ≤ 65536

structure Disk where
  dinode : ℕ → Dinode
  used : ℕ → Bool
  data : ℕ → Block

inductive Panic
  | freeingFreeBlock
  | bmapOutOfRange
  | igetNoInodes
  | ilock
  | ilockNoType
  | iunlock
  | dirlookupNotDir
  | dirlookupRead
  | dirlinkRead
  | isdiremptyReadi
  | unlinkNlink
  | unlinkWritei
  deriving DecidableEq

abbrev Name := List UInt8

structure Dirent where
  inum : ℕ
  name : Name
  deriving DecidableEq

def dot : Name := [46]

def dotdot : Name := [46, 46]

/-- The bytes of a `struct dirent` after `strncpy` of the name. -/
def Dirent.encode (e : Dirent) : List UInt8 :=
  UInt8.ofNat e.inum :: UInt8.ofNat (e.inum / 256) ::
    (e.name ++ List.replicate (dirsiz - e.name.length) 0)

/-- The entry in the bytes read, its name up to the end or the first zero. -/
def Dirent.decode (bytes : List UInt8) : Dirent :=
  ⟨(bytes.getD 0 0).toNat + 256 * (bytes.getD 1 0).toNat, (bytes.drop 2).takeWhile (· ≠ 0)⟩

variable (sb : Super)

namespace Disk

variable (d : Disk)

def setData (b : ℕ) (x : Block) : Disk := { d with data := update d.data b x }

def iupdate (inum : ℕ) (ip : Dinode) : Disk :=
  { d with dinode := update d.dinode inum ip }

end Disk

def Dinode.setAddr (ip : Dinode) (i addr : ℕ) : Dinode :=
  { ip with addrs := update ip.addrs i addr }

/-- The first free block, marked in use and zeroed, or 0. -/
def balloc (d : Disk) : Disk × ℕ :=
  match (List.range sb.size).find? fun b => ¬ d.used b with
  | none => (d, 0)
  | some b => (({ d with used := update d.used b true }).setData b fun _ => 0, b)

def bfree (d : Disk) (b : ℕ) : Except Panic Disk :=
  if d.used b then .ok { d with used := update d.used b false }
  else .error .freeingFreeBlock

/-- `bmap` makes sure that there is an indirect block, unless the disk is full. -/
def loadIndirect (d : Disk) (ip : Dinode) : Disk × Dinode :=
  if ip.addrs ndirect = 0 then
    let r := balloc sb d
    if r.2 = 0 then (r.1, ip) else (r.1, ip.setAddr ndirect r.2)
  else (d, ip)

def bmap (d : Disk) (ip : Dinode) (bn : ℕ) : Except Panic (Disk × Dinode × ℕ) :=
  if bn < ndirect then
    if ip.addrs bn = 0 then
      let r := balloc sb d
      if r.2 = 0 then .ok (r.1, ip, 0) else .ok (r.1, ip.setAddr bn r.2, r.2)
    else .ok (d, ip, ip.addrs bn)
  else if bn - ndirect < nindirect then
    let (d, ip) := loadIndirect sb d ip
    let ind := ip.addrs ndirect
    if ind = 0 then .ok (d, ip, 0)
    else if (d.data ind).getWord (bn - ndirect) = 0 then
      let r := balloc sb d
      if r.2 = 0 then .ok (r.1, ip, 0)
      else .ok (r.1.setData ind ((r.1.data ind).setWord (bn - ndirect) r.2), ip, r.2)
    else .ok (d, ip, (d.data ind).getWord (bn - ndirect))
  else .error .bmapOutOfRange

/-- The loops of `itrunc`: every non-zero address is freed. -/
def freeAll (d : Disk) : List ℕ → Except Panic Disk
  | [] => .ok d
  | b :: bs =>
    if b = 0 then freeAll d bs
    else
      match bfree d b with
      | .error e => .error e
      | .ok d => freeAll d bs

/-- `itrunc` up to its `iupdate`. -/
def freeBlocks (d : Disk) (ip : Dinode) : Except Panic Disk :=
  match freeAll d ((List.range ndirect).map ip.addrs) with
  | .error e => .error e
  | .ok d =>
    let ind := ip.addrs ndirect
    if ind = 0 then .ok d
    else freeAll d ((List.range nindirect).map (d.data ind).getWord ++ [ind])

def itrunc (d : Disk) (inum : ℕ) (ip : Dinode) : Except Panic (Disk × Dinode) :=
  match freeBlocks d ip with
  | .error e => .error e
  | .ok d =>
    let ip := { ip with addrs := fun _ => 0, size := 0 }
    .ok (d.iupdate inum ip, ip)

def readLoop : ℕ → Disk → Dinode → ℕ → ℕ → List UInt8 → Except Panic (Disk × Dinode × List UInt8)
  | 0, d, ip, _, _, bytes => .ok (d, ip, bytes)
  | fuel + 1, d, ip, off, n, bytes =>
    if n = 0 then .ok (d, ip, bytes)
    else
      match bmap sb d ip (off / bsize) with
      | .error e => .error e
      | .ok (d, ip, addr) =>
        if addr = 0 then .ok (d, ip, bytes)
        else
          let m := min n (bsize - off % bsize)
          readLoop fuel d ip (off + m) (n - m) (bytes ++ (d.data addr).read (off % bsize) m)

/-- `readi` to kernel memory. The sum `off + n` is one of `uint`. -/
def readi (d : Disk) (ip : Dinode) (off n : ℕ) : Except Panic (Disk × Dinode × List UInt8) :=
  if ip.size < off ∨ 2 ^ 32 ≤ off + n then .ok (d, ip, [])
  else
    let n := if ip.size < off + n then ip.size - off else n
    readLoop sb n d ip off n []

/-- The loop of `writei` at offset `off`, with `src` still to be written and the first `avail` bytes
of it readable: `either_copyin` copies what it can and then fails. The source does not log that last
buffer, so its bytes last until the buffer is recycled; a copy that is lost at once is the call with
`avail` cut down to the chunks copied before. -/
def writeLoop : ℕ → Disk → Dinode → ℕ → List UInt8 → ℕ → Except Panic (Disk × Dinode × ℕ)
  | 0, d, ip, off, _, _ => .ok (d, ip, off)
  | fuel + 1, d, ip, off, src, avail =>
    if src = [] then .ok (d, ip, off)
    else
      match bmap sb d ip (off / bsize) with
      | .error e => .error e
      | .ok (d, ip, addr) =>
        if addr = 0 then .ok (d, ip, off)
        else
          let m := min src.length (bsize - off % bsize)
          let d := d.setData addr ((d.data addr).write (off % bsize) (src.take (min m avail)))
          if avail < m then .ok (d, ip, off)
          else writeLoop fuel d ip (off + m) (src.drop m) (avail - m)

/-- `writei` of `src`, of which `avail` bytes can be read; returns the number of bytes written or
-1. -/
def writei (d : Disk) (inum : ℕ) (ip : Dinode) (off : ℕ) (src : List UInt8) (avail : ℕ) :
    Except Panic (Disk × Dinode × ℤ) :=
  if ip.size < off ∨ 2 ^ 32 ≤ off + src.length then .ok (d, ip, -1)
  else if maxfile * bsize < off + src.length then .ok (d, ip, -1)
  else
    match writeLoop sb src.length d ip off src avail with
    | .error e => .error e
    | .ok (d, ip, last) =>
      let ip := { ip with size := if ip.size < last then last else ip.size }
      .ok (d.iupdate inum ip, ip, (last - off : ℕ))

/-- The number of turns of a loop `for(; off < size; off += sizeof(de))`. -/
def slots (size off : ℕ) : ℕ := (size - off + (deSize - 1)) / deSize

def dirlookupLoop (name : Name) : ℕ → Disk → Dinode → ℕ →
    Except Panic (Disk × Dinode × Option (ℕ × ℕ))
  | 0, d, dp, _ => .ok (d, dp, none)
  | k + 1, d, dp, off =>
    match readi sb d dp off deSize with
    | .error e => .error e
    | .ok (d, dp, bytes) =>
      if bytes.length ≠ deSize then .error .dirlookupRead
      else
        let de := Dirent.decode bytes
        if de.inum ≠ 0 ∧ de.name = name then .ok (d, dp, some (off, de.inum))
        else dirlookupLoop name k d dp (off + deSize)

/-- `dirlookup` up to its `iget`: the offset of the entry and the inode it names. -/
def dirlookup (d : Disk) (dp : Dinode) (name : Name) :
    Except Panic (Disk × Dinode × Option (ℕ × ℕ)) :=
  if dp.type ≠ .dir then .error .dirlookupNotDir
  else dirlookupLoop sb name (slots dp.size 0) d dp 0

def emptyLoop : ℕ → Disk → Dinode → ℕ → Except Panic (Disk × Dinode × ℕ)
  | 0, d, dp, off => .ok (d, dp, off)
  | k + 1, d, dp, off =>
    match readi sb d dp off deSize with
    | .error e => .error e
    | .ok (d, dp, bytes) =>
      if bytes.length ≠ deSize then .error .dirlinkRead
      else if (Dirent.decode bytes).inum = 0 then .ok (d, dp, off)
      else emptyLoop k d dp (off + deSize)

/-- `dirlink` after its lookup has found nothing: the entry goes to the first empty slot. -/
def writeEntry (d : Disk) (dnum : ℕ) (dp : Dinode) (name : Name) (inum : ℕ) :
    Except Panic (Disk × Dinode × Bool) :=
  match emptyLoop sb (slots dp.size 0) d dp 0 with
  | .error e => .error e
  | .ok (d, dp, off) =>
    match writei sb d dnum dp off (Dirent.encode ⟨inum, name⟩) deSize with
    | .error e => .error e
    | .ok (d, dp, n) => .ok (d, dp, n = deSize)

def isdiremptyLoop : ℕ → Disk → Dinode → ℕ → Except Panic (Disk × Dinode × Bool)
  | 0, d, dp, _ => .ok (d, dp, true)
  | k + 1, d, dp, off =>
    match readi sb d dp off deSize with
    | .error e => .error e
    | .ok (d, dp, bytes) =>
      if bytes.length ≠ deSize then .error .isdiremptyReadi
      else if (Dirent.decode bytes).inum ≠ 0 then .ok (d, dp, false)
      else isdiremptyLoop k d dp (off + deSize)

def isdirempty (d : Disk) (dp : Dinode) : Except Panic (Disk × Dinode × Bool) :=
  isdiremptyLoop sb (slots dp.size (2 * deSize)) d dp (2 * deSize)

/-- The first free inode number from 1 on, as the loop of `ialloc` finds it. -/
def freeInode (d : Disk) : Option ℕ :=
  ((List.range sb.ninodes).drop 1).find? fun i => (d.dinode i).type = .none

def ialloc (d : Disk) (type : IType) : Option (Disk × ℕ) :=
  (freeInode sb d).map fun inum => (d.iupdate inum ⟨type, 0, 0, 0, 0, fun _ => 0⟩, inum)

end Fs
end Xv6
