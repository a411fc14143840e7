import Mathlib.Tactic

/-!
# Physical pages and page tables

The functions of `kernel/vm.c` that build, search and take apart page tables, with `kalloc` and
`kfree`. Physical memory is seen page by page, each page by its physical address; a page-table page
is an array of 512 PTEs in it. Values of type `uint64` are numbers, with the wrap-around written out
where the source adds or subtracts. Loops take the number of rounds they may make, and recursion its
depth.

Which page `kalloc` finds at the head of the free list depends on what other CPUs allocate and free
in between, so it is left open: `answers` says which page each call gets, and a call whose answer is
not on the list returns 0.
-/

namespace Xv6.Vm

def pgsize : ℕ := 4096

def kernbase : ℕ := 0x80000000

def phystop : ℕ := kernbase + 128 * 1024 * 1024

/-- `MAXVA`, one bit less than the largest address that three levels can translate. -/
def maxva : ℕ := 2 ^ (9 + 9 + 9 + 12 - 1)

def trampoline : ℕ := maxva - pgsize

def trapframe : ℕ := trampoline - pgsize

def pteV : ℕ := 1

def pteR : ℕ := 2

def pteW : ℕ := 4

def pteX : ℕ := 8

def pteU : ℕ := 16

def add64 (a b : ℕ) : ℕ := (a + b) % 2 ^ 64

/-- The `uint64` that an `int` is converted to. -/
def toU64 (n : ℤ) : ℕ := (n % 2 ^ 64).toNat

def pgroundup (sz : ℕ) : ℕ := add64 sz (pgsize - 1) / pgsize * pgsize

def pa2pte (pa : ℕ) : ℕ := pa >>> 12 <<< 10

def pte2pa (pte : ℕ) : ℕ := pte >>> 10 <<< 12

def pteFlags (pte : ℕ) : ℕ := pte &&& 0x3FF

def px (level va : ℕ) : ℕ := va >>> (12 + 9 * level) &&& 0x1FF

def valid (pte : ℕ) : Bool := pte &&& pteV != 0

abbrev Page := ℕ → UInt8

def ofBytes (bytes : List ℕ) : ℕ := bytes.foldr (fun b n => b + 256 * n) 0

def Page.pte (p : Page) (i : ℕ) : ℕ := ofBytes ((List.range 8).map fun j => (p (8 * i + j)).toNat)

def Page.setPte (p : Page) (i v : ℕ) : Page := fun k =>
  if k / 8 = i then UInt8.ofNat (v / 256 ^ (k % 8)) else p k

/-- The physical pages by address, `kmem.freelist`, and the pages that the next calls of `kalloc`
find at its head. -/
structure Phys where
  pages : ℕ → Page
  freelist : List ℕ
  answers : List ℕ

def Phys.pte (s : Phys) (n i : ℕ) : ℕ := (s.pages n).pte i

inductive Panic
  | walk
  | mappagesVaNotAligned
  | mappagesSizeNotAligned
  | mappagesSize
  | mappagesRemap
  | uvmunmapNotAligned
  | uvmunmapWalk
  | uvmunmapNotMapped
  | uvmunmapNotALeaf
  | freewalkLeaf
  | kfree
  | uvmcopyPte
  | uvmcopyPage
  | uvmclear
  | loadseg
  | outOfRounds
  deriving DecidableEq

abbrev M := StateT Phys (Except Panic)

def memset (pa : ℕ) (c : UInt8) : M Unit :=
  modify fun s => { s with pages := Function.update s.pages pa fun _ => c }

def setPte (n i v : ℕ) : M Unit :=
  modify fun s => { s with pages := Function.update s.pages n ((s.pages n).setPte i v) }

def kalloc : M (Option ℕ) := do
  let s ← get
  match s.answers with
  | [] => pure none
  | r :: answers =>
    if r ∈ s.freelist then
      set { s with freelist := s.freelist.erase r, answers := answers }
      memset r 5
      pure (some r)
    else
      set { s with answers := answers }
      pure none

/-- A page that `kfree` accepts; `kend` is the linker's `end`. -/
def IsPage (kend pa : ℕ) : Prop := pa % pgsize = 0 ∧ kend ≤ pa ∧ pa < phystop

instance (kend pa : ℕ) : Decidable (IsPage kend pa) := inferInstanceAs (Decidable (_ ∧ _))

def kfree (kend pa : ℕ) : M Unit :=
  if IsPage kend pa then do
    memset pa 1
    modify fun s => { s with freelist := pa :: s.freelist }
  else throw .kfree

def walkLoop (va : ℕ) (alloc : Bool) : ℕ → ℕ → M (Option ℕ)
  | 0, pagetable => pure (some pagetable)
  | level + 1, pagetable => do
      let s ← get
      let pte := s.pte pagetable (px (level + 1) va)
      if valid pte then walkLoop va alloc level (pte2pa pte)
      else if !alloc then pure none
      else
        match ← kalloc with
        | none => pure none
        | some page => do
            memset page 0
            setPte pagetable (px (level + 1) va) (pa2pte page ||| pteV)
            walkLoop va alloc level page

/-- `walk`: the PTE for `va`, by page-table page and index. -/
def walk (pagetable va : ℕ) (alloc : Bool) : M (Option (ℕ × ℕ)) :=
  if maxva ≤ va then throw .walk
  else do
    match ← walkLoop va alloc 2 pagetable with
    | none => pure none
    | some n => pure (some (n, px 0 va))

def mappagesLoop (pagetable perm last : ℕ) : ℕ → ℕ → ℕ → M Bool
  | 0, _, _ => throw .outOfRounds
  | rounds + 1, a, pa => do
      match ← walk pagetable a true with
      | none => pure false
      | some (n, i) => do
          let s ← get
          if valid (s.pte n i) then throw .mappagesRemap
          else do
            setPte n i (pa2pte pa ||| perm ||| pteV)
            if a = last then pure true
            else mappagesLoop pagetable perm last rounds (add64 a pgsize) (add64 pa pgsize)

/-- `mappages`, with the results 0 and -1 as `true` and `false`. -/
def mappages (pagetable va size pa perm : ℕ) : M Bool :=
  if va % pgsize ≠ 0 then throw .mappagesVaNotAligned
  else if size % pgsize ≠ 0 then throw .mappagesSizeNotAligned
  else if size = 0 then throw .mappagesSize
  else mappagesLoop pagetable perm ((va + size - pgsize) % 2 ^ 64) (size / pgsize) va pa

/-- The loop of `uvmunmap`. With no rounds left it has come to its end: a round adds a page, and
`last` is at most that many pages away. -/
def uvmunmapLoop (kend pagetable : ℕ) (doFree : Bool) (last : ℕ) : ℕ → ℕ → M Unit
  | 0, _ => pure ()
  | rounds + 1, a =>
    if a < last then do
      match ← walk pagetable a false with
      | none => throw .uvmunmapWalk
      | some (n, i) => do
          let s ← get
          let pte := s.pte n i
          if !valid pte then throw .uvmunmapNotMapped
          else if pteFlags pte = pteV then throw .uvmunmapNotALeaf
          else do
            (if doFree then kfree kend (pte2pa pte) else pure ())
            setPte n i 0
            uvmunmapLoop kend pagetable doFree last rounds (add64 a pgsize)
    else pure ()

def uvmunmap (kend pagetable va npages : ℕ) (doFree : Bool) : M Unit :=
  if va % pgsize ≠ 0 then throw .uvmunmapNotAligned
  else uvmunmapLoop kend pagetable doFree (add64 va (npages * pgsize)) npages va

/-- `uvmdealloc`, with the page count in an `int`. -/
def uvmdealloc (kend pagetable oldsz newsz : ℕ) : M ℕ :=
  if newsz ≥ oldsz then pure oldsz
  else do
    let npages : ℤ := Int.bmod ((pgroundup oldsz - pgroundup newsz) / pgsize : ℕ) (2 ^ 32)
    (if pgroundup newsz < pgroundup oldsz then
      uvmunmap kend pagetable (pgroundup newsz) (toU64 npages) true
    else pure ())
    pure newsz

def uvmallocLoop (kend pagetable oldsz newsz xperm : ℕ) : ℕ → ℕ → M ℕ
  | 0, _ => pure newsz
  | rounds + 1, a =>
    if a < newsz then do
      match ← kalloc with
      | none => do
          let _ ← uvmdealloc kend pagetable a oldsz
          pure 0
      | some mem => do
          memset mem 0
          if ← mappages pagetable a pgsize mem (pteR ||| pteU ||| xperm) then
            uvmallocLoop kend pagetable oldsz newsz xperm rounds (add64 a pgsize)
          else do
            kfree kend mem
            let _ ← uvmdealloc kend pagetable a oldsz
            pure 0
    else pure newsz

def uvmalloc (kend pagetable oldsz newsz xperm : ℕ) : M ℕ :=
  if newsz < oldsz then pure oldsz
  else
    let oldsz := pgroundup oldsz
    uvmallocLoop kend pagetable oldsz newsz xperm ((newsz - oldsz) / pgsize + 1) oldsz

def freeEntry (free : ℕ → M Unit) (pagetable i : ℕ) : M Unit := do
  let s ← get
  let pte := s.pte pagetable i
  if valid pte && pte &&& (pteR ||| pteW ||| pteX) == 0 then do
    free (pte2pa pte)
    setPte pagetable i 0
  else if valid pte then throw .freewalkLeaf
  else pure ()

/-- `freewalk`, for tables of at most `depth` levels. -/
def freewalk (kend : ℕ) : ℕ → ℕ → M Unit
  | 0, _ => throw .outOfRounds
  | depth + 1, pagetable => do
      (List.range 512).forM (freeEntry (freewalk kend depth) pagetable)
      kfree kend pagetable

def uvmfree (kend depth pagetable sz : ℕ) : M Unit := do
  (if sz > 0 then uvmunmap kend pagetable 0 (pgroundup sz / pgsize) true else pure ())
  freewalk kend depth pagetable

def uvmcreate : M (Option ℕ) := do
  match ← kalloc with
  | none => pure none
  | some pagetable => do
      memset pagetable 0
      pure (some pagetable)

/-- `proc_pagetable`, for a trampoline and a trapframe at these physical addresses. -/
def procPagetable (kend depth tramp tf : ℕ) : M (Option ℕ) := do
  match ← uvmcreate with
  | none => pure none
  | some pagetable => do
      if ← mappages pagetable trampoline pgsize tramp (pteR ||| pteX) then do
        if ← mappages pagetable trapframe pgsize tf (pteR ||| pteW) then
          pure (some pagetable)
        else do
          uvmunmap kend pagetable trampoline 1 false
          uvmfree kend depth pagetable 0
          pure none
      else do
        uvmfree kend depth pagetable 0
        pure none

def procFreepagetable (kend depth pagetable sz : ℕ) : M Unit := do
  uvmunmap kend pagetable trampoline 1 false
  uvmunmap kend pagetable trapframe 1 false
  uvmfree kend depth pagetable sz

/-- `growproc` of a process with the page table and size: the result 0 or -1 as `true` or `false`,
and `p->sz` after the call. -/
def growproc (kend pagetable sz : ℕ) (n : ℤ) : M (Bool × ℕ) :=
  if n > 0 then do
    let sz' ← uvmalloc kend pagetable sz (add64 sz n.toNat) pteW
    if sz' = 0 then pure (false, sz) else pure (true, sz')
  else if n < 0 then do
    let sz' ← uvmdealloc kend pagetable sz (toU64 (sz + n))
    pure (true, sz')
  else pure (true, sz)

/-- `sys_sbrk`: the old size, or `none` for -1, and `p->sz` after the call. -/
def sysSbrk (kend pagetable sz : ℕ) (n : ℤ) : M (Option ℕ × ℕ) := do
  let (ok, sz') ← growproc kend pagetable sz n
  pure (if ok then some sz else none, sz')

end Xv6.Vm
