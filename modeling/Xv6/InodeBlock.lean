import Xv6.Inode

/-!
# Inodes in the bytes of their blocks

A block of inodes has `IPB` of them, each a `struct dinode` of 64 bytes: four shorts, the size and
the addresses. `iupdate` and `ialloc` change one of them with the stores of the source, `ilock`
reads one. What they do to the inodes of all blocks together is what `Disk.iupdate` does.
-/

namespace Xv6

open Function

namespace Block

def getShort (b : Block) (i : ℕ) : ℤ :=
  Int.bmod ((b (2 * i)).toNat + 256 * (b (2 * i + 1)).toNat) 65536

def setShort (b : Block) (i : ℕ) (v : ℤ) : Block := fun k =>
  if k / 2 = i then UInt8.ofNat ((v % 65536).toNat / 256 ^ (k % 2)) else b k

theorem getShort_congr {b c : Block} {i : ℕ} (h : ∀ k, k / 2 = i → b k = c k) :
    b.getShort i = c.getShort i := by
  unfold getShort
  rw [h (2 * i) (by omega), h (2 * i + 1) (by omega)]

theorem getWord_congr {b c : Block} {i : ℕ} (h : ∀ k, k / 4 = i → b k = c k) :
    b.getWord i = c.getWord i := by
  unfold getWord
  rw [h (4 * i) (by omega), h (4 * i + 1) (by omega), h (4 * i + 2) (by omega),
    h (4 * i + 3) (by omega)]

theorem getShort_setShort_self (b : Block) (i : ℕ) {v : ℤ} (hv : -32768 ≤ v ∧ v ≤ 32767) :
    (b.setShort i v).getShort i = v := by
  have hlow : b.setShort i v (2 * i) = UInt8.ofNat (v % 65536).toNat := by
    have hdiv : 2 * i / 2 = i := by omega
    simp [setShort, hdiv]
  have hhigh : b.setShort i v (2 * i + 1) = UInt8.ofNat ((v % 65536).toNat / 256) := by
    have hdiv : (2 * i + 1) / 2 = i := by omega
    have hmod : (2 * i + 1) % 2 = 1 := by omega
    simp [setShort, hdiv, hmod]
  unfold getShort
  rw [hlow, hhigh]
  simp only [UInt8.toNat_ofNat']
  rw [Int.bmod_def]
  push_cast
  omega

theorem getShort_setShort_of_ne (b : Block) {i j : ℕ} (v : ℤ) (hij : j ≠ i) :
    (b.setShort i v).getShort j = b.getShort j :=
  getShort_congr fun k hk => by simp [setShort, show k / 2 ≠ i by omega]

theorem putWords_apply_of_ne (b : Block) (vs : List ℕ) {i k : ℕ}
    (hk : k / 4 < i ∨ i + vs.length ≤ k / 4) : b.putWords i vs k = b k := by
  induction vs generalizing b i with
  | nil => rfl
  | cons v vs ih =>
    rw [List.length_cons] at hk
    rw [putWords, ih (b.setWord i v) (by omega)]
    simp [setWord, show k / 4 ≠ i by omega]

end Block

namespace Fs

def ipb : ℕ := 16

def IType.toShort : IType → ℤ
  | .none => 0
  | .dir => 1
  | .file => 2
  | .device => 3

def IType.ofShort (v : ℤ) : IType :=
  if v = 1 then .dir else if v = 2 then .file else if v = 3 then .device else .none

def getDinode (b : Block) (j : ℕ) : Dinode where
  type := .ofShort (b.getShort (32 * j))
  major := b.getShort (32 * j + 1)
  minor := b.getShort (32 * j + 2)
  nlink := b.getShort (32 * j + 3)
  size := b.getWord (16 * j + 2)
  addrs k := if k ≤ ndirect then b.getWord (16 * j + 3 + k) else 0

/-- The stores of `iupdate`. -/
def putDinode (b : Block) (j : ℕ) (ip : Dinode) : Block :=
  ((((((b.setShort (32 * j) ip.type.toShort).setShort (32 * j + 1) ip.major).setShort (32 * j + 2)
    ip.minor).setShort (32 * j + 3) ip.nlink).setWord (16 * j + 2) ip.size)).putWords (16 * j + 3)
      ((List.range (ndirect + 1)).map ip.addrs)

/-- `memset` of the inode, then its type, as `ialloc` does. -/
def newDinode (b : Block) (j : ℕ) (type : IType) : Block :=
  Block.setShort (fun k => if k / 64 = j then 0 else b k) (32 * j) type.toShort

structure Dinode.Fits (ip : Dinode) : Prop where
  major : -32768 ≤ ip.major ∧ ip.major ≤ 32767
  minor : -32768 ≤ ip.minor ∧ ip.minor ≤ 32767
  nlink : -32768 ≤ ip.nlink ∧ ip.nlink ≤ 32767
  size : ip.size < 2 ^ 32
  addrs : ∀ k, ip.addrs k < 2 ^ 32
  rest : ∀ k, ndirect < k → ip.addrs k = 0

theorem IType.ofShort_toShort (type : IType) : IType.ofShort type.toShort = type := by
  cases type <;> decide

theorem IType.toShort_range (type : IType) : -32768 ≤ type.toShort ∧ type.toShort ≤ 32767 := by
  cases type <;> decide

section stores

variable {b c : Block} {i j : ℕ} {ip : Dinode}

theorem getDinode_congr (h : ∀ k, k / 64 = j → b k = c k) : getDinode b j = getDinode c j := by
  have hshort (m : ℕ) (hm : m < 4) : b.getShort (32 * j + m) = c.getShort (32 * j + m) :=
    Block.getShort_congr fun k hk => h k (by omega)
  have hword (m : ℕ) (hm : m < 16) : b.getWord (16 * j + m) = c.getWord (16 * j + m) :=
    Block.getWord_congr fun k hk => h k (by omega)
  have haddr (k : ℕ) : (if k ≤ ndirect then b.getWord (16 * j + 3 + k) else 0) =
      if k ≤ ndirect then c.getWord (16 * j + 3 + k) else 0 := by
    split_ifs with hk
    · have hk' : k ≤ 12 := hk
      rw [Nat.add_assoc]
      exact hword (3 + k) (by omega)
    · rfl
  simp only [getDinode, hshort 1 (by norm_num), hshort 2 (by norm_num), hshort 3 (by norm_num),
    hword 2 (by norm_num), haddr]
  rw [show b.getShort (32 * j) = c.getShort (32 * j) from hshort 0 (by norm_num)]

theorem length_addrs (ip : Dinode) : ((List.range (ndirect + 1)).map ip.addrs).length = 13 := by
  simp [ndirect]

theorem putDinode_apply_of_ne {k : ℕ} (hk : k / 64 ≠ i) (ip : Dinode) :
    putDinode b i ip k = b k := by
  have hlen := length_addrs ip
  rw [putDinode, Block.putWords_apply_of_ne _ _ (by omega)]
  simp [Block.setWord, Block.setShort, show k / 4 ≠ 16 * i + 2 by omega,
    show k / 2 ≠ 32 * i by omega, show k / 2 ≠ 32 * i + 1 by omega,
    show k / 2 ≠ 32 * i + 2 by omega, show k / 2 ≠ 32 * i + 3 by omega]

theorem getDinode_putDinode_of_ne (hij : j ≠ i) (ip : Dinode) :
    getDinode (putDinode b i ip) j = getDinode b j :=
  getDinode_congr fun k hk => putDinode_apply_of_ne (by omega) ip

theorem getShort_putDinode {m : ℕ} (hm : m < 4) : (putDinode b j ip).getShort (32 * j + m) =
      ((((b.setShort (32 * j) ip.type.toShort).setShort (32 * j + 1) ip.major).setShort (32 * j + 2)
        ip.minor).setShort (32 * j + 3) ip.nlink).getShort (32 * j + m) := by
  refine Block.getShort_congr fun k hk => ?_
  rw [putDinode, Block.putWords_apply_of_ne _ _ (by omega)]
  simp [Block.setWord, show k / 4 ≠ 16 * j + 2 by omega]

theorem getWord_addrs (h : ip.Fits) {k : ℕ} (hk : k ≤ ndirect) :
    (putDinode b j ip).getWord (16 * j + 3 + k) = ip.addrs k := by
  have hwords := Block.getWord_putWords
    (((((b.setShort (32 * j) ip.type.toShort).setShort (32 * j + 1) ip.major).setShort (32 * j + 2)
      ip.minor).setShort (32 * j + 3) ip.nlink).setWord (16 * j + 2) ip.size)
    ((List.range (ndirect + 1)).map ip.addrs) (fun v hv => by
      obtain ⟨m, -, rfl⟩ := List.mem_map.mp hv
      exact h.addrs m) (16 * j + 3) k (by rw [length_addrs]; exact Nat.lt_succ_of_le hk)
  rw [putDinode, hwords]
  simp

theorem getDinode_putDinode_self (h : ip.Fits) : getDinode (putDinode b j ip) j = ip := by
  have htype : (putDinode b j ip).getShort (32 * j) = ip.type.toShort := by
    rw [show 32 * j = 32 * j + 0 from rfl, getShort_putDinode (by norm_num),
      Block.getShort_setShort_of_ne _ _ (by omega), Block.getShort_setShort_of_ne _ _ (by omega),
      Block.getShort_setShort_of_ne _ _ (by omega)]
    exact Block.getShort_setShort_self _ _ ip.type.toShort_range
  have hmajor : (putDinode b j ip).getShort (32 * j + 1) = ip.major := by
    rw [getShort_putDinode (by norm_num), Block.getShort_setShort_of_ne _ _ (by omega),
      Block.getShort_setShort_of_ne _ _ (by omega), Block.getShort_setShort_self _ _ h.major]
  have hminor : (putDinode b j ip).getShort (32 * j + 2) = ip.minor := by
    rw [getShort_putDinode (by norm_num), Block.getShort_setShort_of_ne _ _ (by omega),
      Block.getShort_setShort_self _ _ h.minor]
  have hnlink : (putDinode b j ip).getShort (32 * j + 3) = ip.nlink := by
    rw [getShort_putDinode (by norm_num), Block.getShort_setShort_self _ _ h.nlink]
  have hsize : (putDinode b j ip).getWord (16 * j + 2) = ip.size := by
    rw [putDinode, Block.getWord_putWords_of_lt _ _ (by omega)]
    exact Block.getWord_setWord_self _ _ _ h.size
  have haddrs : (fun k => if k ≤ ndirect then (putDinode b j ip).getWord (16 * j + 3 + k) else 0) =
      ip.addrs := by
    funext k
    split_ifs with hk
    · exact getWord_addrs h hk
    · exact (h.rest k (by omega)).symm
  simp only [getDinode, htype, hmajor, hminor, hnlink, hsize, haddrs, IType.ofShort_toShort]

theorem getDinode_newDinode_of_ne (hij : j ≠ i) (type : IType) :
    getDinode (newDinode b i type) j = getDinode b j :=
  getDinode_congr fun k hk => by
    simp [newDinode, Block.setShort, show k / 2 ≠ 32 * i by omega, show k / 64 ≠ i by omega]

theorem getDinode_newDinode_self (type : IType) :
    getDinode (newDinode b j type) j = ⟨type, 0, 0, 0, 0, fun _ => 0⟩ := by
  have hzero (k : ℕ) (hk : k / 64 = j) (hne : k / 2 ≠ 32 * j) : newDinode b j type k = 0 := by
    simp [newDinode, Block.setShort, hk, hne]
  have htype : (newDinode b j type).getShort (32 * j) = type.toShort :=
    Block.getShort_setShort_self _ _ type.toShort_range
  have hshort (m : ℕ) (hm : 0 < m) (hm' : m < 4) :
      (newDinode b j type).getShort (32 * j + m) = 0 := by
    unfold Block.getShort
    rw [hzero _ (by omega) (by omega), hzero _ (by omega) (by omega)]
    simp
  have hword (m : ℕ) (hm : 2 ≤ m) (hm' : m < 16) :
      (newDinode b j type).getWord (16 * j + m) = 0 := by
    unfold Block.getWord
    rw [hzero _ (by omega) (by omega), hzero _ (by omega) (by omega), hzero _ (by omega) (by omega),
      hzero _ (by omega) (by omega)]
    rfl
  have haddrs : (fun k =>
      if k ≤ ndirect then (newDinode b j type).getWord (16 * j + 3 + k) else 0) = fun _ => 0 := by
    funext k
    split_ifs with hk
    · have hk' : k ≤ 12 := hk
      rw [Nat.add_assoc]
      exact hword (3 + k) (by omega) (by omega)
    · rfl
  simp only [getDinode, htype, hshort 1 (by norm_num) (by norm_num),
    hshort 2 (by norm_num) (by norm_num), hshort 3 (by norm_num) (by norm_num),
    hword 2 (by norm_num) (by norm_num), haddrs,
    IType.ofShort_toShort]

end stores

section blocks

def readDinode (inodestart : ℕ) (blocks : ℕ → Block) (i : ℕ) : Dinode :=
  getDinode (blocks (inodestart + i / ipb)) (i % ipb)

/-- `iupdate` on the blocks. -/
def writeDinode (inodestart : ℕ) (blocks : ℕ → Block) (i : ℕ) (ip : Dinode) : ℕ → Block :=
  update blocks (inodestart + i / ipb) (putDinode (blocks (inodestart + i / ipb)) (i % ipb) ip)

/-- `ialloc` on the blocks. -/
def markDinode (inodestart : ℕ) (blocks : ℕ → Block) (i : ℕ) (type : IType) : ℕ → Block :=
  update blocks (inodestart + i / ipb) (newDinode (blocks (inodestart + i / ipb)) (i % ipb) type)

variable {start : ℕ} {blocks : ℕ → Block}

theorem readDinode_update {i : ℕ} {b : Block} {ip : Dinode} (hself : getDinode b (i % ipb) = ip)
    (hother : ∀ j, j ≠ i % ipb → getDinode b j = getDinode (blocks (start + i / ipb)) j) (j : ℕ) :
    readDinode start (update blocks (start + i / ipb) b) j =
    update (readDinode start blocks) i ip j := by
  unfold readDinode
  by_cases hblock : j / ipb = i / ipb
  · rw [hblock, update_self]
    by_cases hji : j = i
    · subst hji
      rw [update_self, hself]
    · have hmod : j % ipb ≠ i % ipb := by
        unfold ipb at hblock ⊢
        omega
      rw [update_of_ne hji, hother _ hmod, hblock]
  · have hne : start + j / ipb ≠ start + i / ipb := by omega
    have hji : j ≠ i := by
      rintro rfl
      exact hblock rfl
    rw [update_of_ne hne, update_of_ne hji]

theorem readDinode_writeDinode {ip : Dinode} (h : ip.Fits) (i j : ℕ) :
    readDinode start (writeDinode start blocks i ip) j = update (readDinode start blocks) i ip j :=
  readDinode_update (getDinode_putDinode_self h) (fun _ hj => getDinode_putDinode_of_ne hj ip) j

theorem readDinode_markDinode (type : IType) (i j : ℕ) :
    readDinode start (markDinode start blocks i type) j =
      update (readDinode start blocks) i ⟨type, 0, 0, 0, 0, fun _ => 0⟩ j :=
  readDinode_update (getDinode_newDinode_self type)
    (fun _ hj => getDinode_newDinode_of_ne hj type) j

end blocks

end Fs
end Xv6
