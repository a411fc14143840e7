import Mathlib.Algebra.BigOperators.Group.Multiset.Basic
import Xv6.Ring

/-!
# The user-level memory allocator

The free blocks are a ring of headers in address order that starts at the static header `base`. A
header is seen at its address; `size` counts units of one header and is a 32-bit field. Loops take
the number of rounds they may make. `sbrk` is left open: `none` stands for an answer that the
environment does not give, `some (e, none)` for a failed call.
-/

namespace Xv6.Umalloc

open Xv6.Ring

/-- `sizeof(Header)`, the bytes of a unit. -/
def headerSize : ℕ := 16

/-- `union header` without its alignment member. -/
structure Header where
  ptr : ℕ
  size : ℕ
deriving DecidableEq, Repr

/-- The headers by address, and the static `freep`, which is 0 until the first call. -/
structure Heap where
  mem : ℕ → Header
  freep : ℕ

namespace Heap

def next (h : Heap) (a : ℕ) : ℕ := (h.mem a).ptr

def size (h : Heap) (a : ℕ) : ℕ := (h.mem a).size

def setPtr (h : Heap) (a p : ℕ) : Heap :=
  { h with mem := Function.update h.mem a { h.mem a with ptr := p } }

def setSize (h : Heap) (a n : ℕ) : Heap :=
  { h with mem := Function.update h.mem a { h.mem a with size := n % 2 ^ 32 } }

def after (a n : ℕ) : ℕ := a + headerSize * n

/-- The two conditions that end the scan of `free` at `p`: `bp` lies between `p` and the next block,
or `p` is where the addresses wrap and `bp` lies at either end. -/
def stops (h : Heap) (bp p : ℕ) : Bool :=
  (p < bp && bp < h.next p) || (h.next p ≤ p && (p < bp || bp < h.next p))

/-- The block after `p` is joined to `bp` if `bp` ends there; `bp` is linked to what follows. -/
def joinUpper (h : Heap) (bp p : ℕ) : Heap :=
  if after bp (h.size bp) = h.next p then
    let h := h.setSize bp (h.size bp + h.size (h.next p))
    h.setPtr bp (h.next (h.next p))
  else h.setPtr bp (h.next p)

/-- `bp` is joined to `p` if `p` ends there, and linked after it otherwise. -/
def joinLower (h : Heap) (bp p : ℕ) : Heap :=
  if after p (h.size p) = bp then
    let h := h.setSize p (h.size p + h.size bp)
    h.setPtr p (h.next bp)
  else h.setPtr p bp

def free (fuel : ℕ) (h : Heap) (ap : ℕ) : Option Heap := do
  let bp := ap - headerSize
  let p ← walk h.next (h.stops bp) fuel h.freep
  let h := (h.joinUpper bp p).joinLower bp p
  some { h with freep := p }

/-- What `malloc` does with a block that is large enough: an exact fit is unlinked, of a larger one
the tail is cut off. -/
def take (h : Heap) (nunits prevp p : ℕ) : Heap × ℕ :=
  if h.size p = nunits then
    ({ h.setPtr prevp (h.next p) with freep := prevp }, after p 1)
  else
    let h := h.setSize p (h.size p - nunits)
    let p := after p (h.size p)
    let h := h.setSize p nunits
    ({ h with freep := prevp }, after p 1)

/-- The header `base` on the first call of `malloc`. -/
def start (h : Heap) (base : ℕ) : Heap :=
  if h.freep = 0 then { (h.setPtr base base).setSize base 0 with freep := base } else h

end Heap

/-- The units of a request: the rounded bytes and the header. The sum is one of `unsigned long`, the
result is stored in a `uint`. -/
def nunits (nbytes : ℕ) : ℕ := ((nbytes + headerSize - 1) / headerSize + 1) % 2 ^ 32

def coreUnits (nu : ℕ) : ℕ := if nu < 4096 then 4096 else nu

def sbrkArg (nu : ℕ) : ℤ := Int.bmod (coreUnits nu * headerSize : ℕ) (2 ^ 32)

section calls

variable {E : Type} (sbrk : E → ℤ → Option (E × Option ℕ))

def morecore (fuel : ℕ) (h : Heap) (e : E) (nu : ℕ) : Option (Heap × E × ℕ) :=
  match sbrk e (sbrkArg nu) with
  | none => none
  | some (e, none) => some (h, e, 0)
  | some (e, some hp) => do
      let h ← (h.setSize hp (coreUnits nu)).free fuel (Heap.after hp 1)
      some (h, e, h.freep)

def mallocLoop (nunits : ℕ) : ℕ → Heap → E → ℕ → ℕ → Option (Heap × E × ℕ)
  | 0, _, _, _, _ => none
  | fuel + 1, h, e, prevp, p =>
    if nunits ≤ h.size p then
      let (h, ap) := h.take nunits prevp p
      some (h, e, ap)
    else if p = h.freep then do
      let (h, e, p) ← morecore sbrk fuel h e nunits
      if p = 0 then some (h, e, 0) else mallocLoop nunits fuel h e p (h.next p)
    else mallocLoop nunits fuel h e p (h.next p)

def malloc (base fuel : ℕ) (h : Heap) (e : E) (nbytes : ℕ) : Option (Heap × E × ℕ) :=
  let h := h.start base
  mallocLoop sbrk (nunits nbytes) fuel h e h.freep (h.next h.freep)

end calls

end Xv6.Umalloc
