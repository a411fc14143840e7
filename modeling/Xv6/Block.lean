import Mathlib.Tactic

/-!
# Disk blocks as bytes

A block is its bytes; only those below `bsize` are ever read or written, and `memmove` of `BSIZE`
bytes from block to block is assignment. `getWord` and `setWord` are the accesses of the source
through `int *` or `uint *`, in the byte order of the machine. The log header occupies the first
words of its block: the count, then the block numbers.
-/

namespace Xv6

open List

def bsize : ℕ := 1024

abbrev Block := ℕ → UInt8

namespace Block

def getWord (b : Block) (i : ℕ) : ℕ :=
  (b (4 * i)).toNat + 256 * (b (4 * i + 1)).toNat + 65536 * (b (4 * i + 2)).toNat +
    16777216 * (b (4 * i + 3)).toNat

def setWord (b : Block) (i v : ℕ) : Block := fun k =>
  if k / 4 = i then UInt8.ofNat (v / 256 ^ (k % 4)) else b k

theorem getWord_setWord_self (b : Block) (i v : ℕ) (hv : v < 2 ^ 32) :
    (b.setWord i v).getWord i = v := by
  have h (j : ℕ) (hj : j < 4) : (b.setWord i v (4 * i + j)).toNat = v / 256 ^ j % 256 := by
    have hdiv : (4 * i + j) / 4 = i := by omega
    have hmod : (4 * i + j) % 4 = j := by omega
    simp [setWord, hdiv, hmod]
  have h0 := h 0 (by norm_num)
  have h1 := h 1 (by norm_num)
  have h2 := h 2 (by norm_num)
  have h3 := h 3 (by norm_num)
  simp only [Nat.add_zero] at h0
  simp only [getWord, h0, h1, h2, h3]
  omega

theorem getWord_setWord_of_ne (b : Block) {i j : ℕ} (v : ℕ) (hij : j ≠ i) :
    (b.setWord i v).getWord j = b.getWord j := by
  have h (k : ℕ) (hk : k < 4) : b.setWord i v (4 * j + k) = b (4 * j + k) := by
    have hdiv : (4 * j + k) / 4 ≠ i := by omega
    simp [setWord, hdiv]
  have h0 := h 0 (by norm_num)
  simp only [Nat.add_zero] at h0
  simp only [getWord, h0, h 1 (by norm_num), h 2 (by norm_num), h 3 (by norm_num)]

/-- The loop of `write_head` that stores the block numbers from word `i` on. -/
def putWords (b : Block) (i : ℕ) : List ℕ → Block
  | [] => b
  | v :: vs => putWords (b.setWord i v) (i + 1) vs

/-- `write_head`: the count and the block numbers go into the header block. -/
def putHead (b : Block) (lh : List ℕ) : Block := (b.setWord 0 lh.length).putWords 1 lh

/-- `read_head`: the block numbers that the header block lists. -/
def getHead (b : Block) : List ℕ := (List.range (b.getWord 0)).map fun i => b.getWord (i + 1)

theorem getWord_putWords_of_lt (b : Block) (vs : List ℕ) {i j : ℕ} (hj : j < i) :
    (b.putWords i vs).getWord j = b.getWord j := by
  induction vs generalizing b i with
  | nil => rfl
  | cons v vs ih =>
    rw [putWords, ih (b.setWord i v) (by omega), getWord_setWord_of_ne _ _ (by omega)]

theorem getWord_putWords (b : Block) (vs : List ℕ) (hvs : ∀ v ∈ vs, v < 2 ^ 32) (i k : ℕ)
    (hk : k < vs.length) : (b.putWords i vs).getWord (i + k) = vs[k] := by
  induction vs generalizing b i k with
  | nil => simp at hk
  | cons v vs ih =>
    rw [putWords]
    cases k with
    | zero =>
      rw [Nat.add_zero, getWord_putWords_of_lt _ _ (by omega)]
      exact getWord_setWord_self b i v (hvs v mem_cons_self)
    | succ k =>
      have hk' : k < vs.length := by simpa using hk
      have := ih (b.setWord i v) (fun w hw => hvs w (mem_cons_of_mem _ hw)) (i + 1) k hk'
      rw [getElem_cons_succ, ← this]
      congr 1
      omega

theorem getHead_putHead (b : Block) (lh : List ℕ) (hlen : lh.length < 2 ^ 32)
    (hlh : ∀ v ∈ lh, v < 2 ^ 32) : (b.putHead lh).getHead = lh := by
  have hn : (b.putHead lh).getWord 0 = lh.length := by
    rw [putHead, getWord_putWords_of_lt _ _ (by omega), getWord_setWord_self _ _ _ hlen]
  apply ext_getElem
  · simp [getHead, hn]
  · intro k hk hk'
    have := getWord_putWords (b.setWord 0 lh.length) lh hlh 1 k hk'
    simp only [getHead, getElem_map, getElem_range]
    rw [← this, putHead, Nat.add_comm]

end Block
end Xv6
