import Xv6.InodeBlock
import Xv6.FreshFs
import Xv6.Runs

/-!
# The program that makes the file system image

`mkfs/mkfs.c`, which runs on the host and writes the image sector by sector, and what the kernel
sees of that image. `xint` and `xshort` give numbers the byte order in which `Block` stores them. A
failed assertion and a call of `die` are failures of the program; the files of the command line can
be opened. -/

namespace Xv6.Mkfs

open Fs

def ninodes : ℕ := 200

def fssize : ℕ := 2000

def nlog : ℕ := 30

def bpb : ℕ := bsize * 8

def nbitmap : ℕ := fssize / bpb + 1

def ninodeblocks : ℕ := ninodes / ipb + 1

def nmeta : ℕ := 2 + nlog + ninodeblocks + nbitmap

def nblocks : ℕ := fssize - nmeta

def inodestart : ℕ := 2 + nlog

def bmapstart : ℕ := 2 + nlog + ninodeblocks

def fsmagic : ℕ := 0x10203040

/-- The image file of `length` sectors, and the two counters of the program. -/
structure Image where
  sectors : ℕ → Block
  length : ℕ
  freeinode : ℕ
  freeblock : ℕ

inductive Failure
  | rootino
  | slash
  | nameLength
  | fileSize
  | bitmapSize
  | read
  deriving DecidableEq

abbrev M := StateT Image (Except Failure)

def wsect (sec : ℕ) (buf : Block) : M Unit :=
  modify fun s =>
    { s with sectors := Function.update s.sectors sec buf, length := max s.length (sec + 1) }

def rsect (sec : ℕ) : M Block := do
  let s ← get
  if sec < s.length then pure (s.sectors sec) else throw .read

/-- The store `*dip = *ip` of a `struct dinode`, given by its 64 bytes. -/
def putBytes (buf : Block) (j : ℕ) (din : Block) : Block := fun k =>
  if k / 64 = j then din (k % 64) else buf k

def winode (inum : ℕ) (din : Block) : M Unit := do
  let buf ← rsect (inodestart + inum / ipb)
  wsect (inodestart + inum / ipb) (putBytes buf (inum % ipb) din)

def rinode (inum : ℕ) : M Block := do
  let buf ← rsect (inodestart + inum / ipb)
  pure fun k => buf (64 * (inum % ipb) + k)

def size (din : Block) : ℕ := din.getWord 2

def setSize (din : Block) (n : ℕ) : Block := din.setWord 2 n

def addr (din : Block) (k : ℕ) : ℕ := din.getWord (3 + k)

def setAddr (din : Block) (k b : ℕ) : Block := din.setWord (3 + k) b

def newInode (type : IType) : Block :=
  setSize (Block.setShort (Block.setShort (fun _ => 0) 0 type.toShort) 3 1) 0

def ialloc (type : IType) : M ℕ := do
  let s ← get
  set { s with freeinode := s.freeinode + 1 }
  winode s.freeinode (newInode type)
  pure s.freeinode

def takeBlock : M ℕ := do
  let s ← get
  set { s with freeblock := s.freeblock + 1 }
  pure s.freeblock

def ensureAddr (din : Block) (k : ℕ) : M Block :=
  if addr din k = 0 then do
    let b ← takeBlock
    pure (setAddr din k b)
  else pure din

def ensureEntry (ind j : ℕ) : M ℕ := do
  let indirect ← rsect ind
  if indirect.getWord j = 0 then do
    let b ← takeBlock
    wsect ind (indirect.setWord j b)
    pure ((indirect.setWord j b).getWord j)
  else pure (indirect.getWord j)

def loadBlock (din : Block) (fbn : ℕ) : M (Block × ℕ × Block) :=
  if fbn < ndirect then do
    let din ← ensureAddr din fbn
    let buf ← rsect (addr din fbn)
    pure (din, addr din fbn, buf)
  else do
    let din ← ensureAddr din ndirect
    let x ← ensureEntry (addr din ndirect) (fbn - ndirect)
    let buf ← rsect x
    pure (din, x, buf)

def iappendLoop : ℕ → Block → ℕ → List UInt8 → M (Block × ℕ)
  | 0, din, off, _ => pure (din, off)
  | fuel + 1, din, off, src =>
    if src = [] then pure (din, off)
    else if off / bsize < maxfile then do
      let (din, x, buf) ← loadBlock din (off / bsize)
      let n1 := min src.length ((off / bsize + 1) * bsize - off)
      wsect x (buf.write (off - off / bsize * bsize) (src.take n1))
      iappendLoop fuel din (off + n1) (src.drop n1)
    else throw .fileSize

def iappend (inum : ℕ) (src : List UInt8) : M Unit := do
  let din ← rinode inum
  let (din, off) ← iappendLoop src.length din (size din) src
  winode inum (setSize din off)

/-- `buf[i/8] = buf[i/8] | (0x1 << (i%8))` -/
def setBit (buf : Block) (i : ℕ) : Block :=
  Function.update buf (i / 8) (UInt8.ofNat ((buf (i / 8)).toNat ||| 1 <<< (i % 8)))

def balloc (used : ℕ) : M Unit :=
  if used < bpb then wsect bmapstart ((List.range used).foldl setBit fun _ => 0)
  else throw .bitmapSize

/-- A file of the command line: the argument, a C string, and what the calls of `read` return. -/
structure Input where
  arg : Name
  arg_ne_zero : ∀ b ∈ arg, b ≠ 0
  reads : List (List UInt8)
  length_le : ∀ buf ∈ reads, buf.length ≤ bsize

def shortname (arg : Name) : Name :=
  if arg.take 5 = [117, 115, 101, 114, 47] then arg.drop 5 else arg

def skipUnderscore (name : Name) : Name := if name.head? = some 95 then name.tail else name

def copyFile (inum : ℕ) : List (List UInt8) → M Unit
  | [] => pure ()
  | buf :: reads =>
    if buf = [] then pure ()
    else do
      iappend inum buf
      copyFile inum reads

def addFile (rootino : ℕ) (f : Input) : M Unit :=
  if 47 ∈ shortname f.arg then throw .slash
  else if dirsiz < (skipUnderscore (shortname f.arg)).length then throw .nameLength
  else do
    let inum ← ialloc .file
    iappend rootino (Dirent.encode ⟨inum, skipUnderscore (shortname f.arg)⟩)
    copyFile inum f.reads

def superSector : Block :=
  Block.putWords (fun _ => 0) 0 [fsmagic, fssize, nblocks, ninodes, nlog, 2, inodestart, bmapstart]

/-- The root's size becomes a multiple of the block size. -/
def fixRootSize (rootino : ℕ) : M Unit := do
  let din ← rinode rootino
  winode rootino (setSize din ((size din / bsize + 1) * bsize))

def wzeroes (n : ℕ) : M Unit := (List.range n).forM fun i => wsect i fun _ => 0

def main (files : List Input) : M Unit := do
  modify fun s => { s with freeblock := nmeta }
  wzeroes fssize
  wsect 1 superSector
  let rootino ← ialloc .dir
  if rootino = Fs.rootino then do
    iappend rootino (Dirent.encode ⟨rootino, dot⟩)
    iappend rootino (Dirent.encode ⟨rootino, dotdot⟩)
    files.forM (addFile rootino)
    fixRootSize rootino
    let s ← get
    balloc s.freeblock
  else throw .rootino

def blank : Image := ⟨fun _ _ => 0, 0, 1, 0⟩

section kernel

/-- The test of a bit in `balloc` of the kernel. -/
def bit (buf : Block) (i : ℕ) : Bool := (buf (i / 8)).toNat &&& 1 <<< (i % 8) != 0

/-- The disk that the kernel sees in the sectors, with the superblock in sector 1. -/
def toDisk (sectors : ℕ → Block) : Disk where
  dinode i :=
    if i < (sectors 1).getWord 3 then readDinode ((sectors 1).getWord 6) sectors i else freeDinode
  used b := bit (sectors ((sectors 1).getWord 7 + b / bpb)) (b % bpb)
  data := sectors

end kernel

end Xv6.Mkfs
