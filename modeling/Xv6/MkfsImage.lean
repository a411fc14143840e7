import Xv6.Mkfs

/-!
# Appending to a file of the image

While the image is made, every block below `freeblock` is in use and every other one is zero. The
disk that the kernel would see then is `view`, and on it `iappend` does what the kernel's `writei`
at the end of the file does: `freeblock` is the first free block, so `balloc` would find it.
-/

namespace Xv6.Mkfs

open Fs Function List Nat

section bytes

def inode (din : Block) : Dinode := getDinode din 0

theorem getShort_shift (b : Block) (j m : ℕ) :
    b.getShort (32 * j + m) = Block.getShort (fun k => b (64 * j + k)) (32 * 0 + m) := by
  unfold Block.getShort
  rw [show 2 * (32 * j + m) = 64 * j + 2 * (32 * 0 + m) by ring, add_assoc]

theorem getWord_shift (b : Block) (j m : ℕ) :
    b.getWord (16 * j + m) = Block.getWord (fun k => b (64 * j + k)) (16 * 0 + m) := by
  unfold Block.getWord
  rw [show 4 * (16 * j + m) = 64 * j + 4 * (16 * 0 + m) by ring]
  simp only [add_assoc (64 * j)]

theorem inode_shift (b : Block) (j : ℕ) : inode (fun k => b (64 * j + k)) = getDinode b j := by
  unfold inode getDinode
  simp only [add_assoc, ← getShort_shift, ← getWord_shift]
  rw [show 32 * j = 32 * j + 0 from rfl, getShort_shift]

/-- What `winode` stores is the inode, and the others in the block are as before. -/
theorem getDinode_putBytes_self (buf : Block) (j : ℕ) (din : Block) :
    getDinode (putBytes buf j din) j = inode din := by
  rw [← inode_shift]
  refine getDinode_congr fun k hk => ?_
  have hdiv : (64 * j + k) / 64 = j := by omega
  have hmod : (64 * j + k) % 64 = k := by omega
  simp [putBytes, hdiv, hmod]

theorem getDinode_putBytes_of_ne (buf : Block) {i j : ℕ} (hij : j ≠ i) (din : Block) :
    getDinode (putBytes buf i din) j = getDinode buf j :=
  getDinode_congr fun k hk => by simp [putBytes, show k / 64 ≠ i by omega]

theorem size_eq (din : Block) : size din = (inode din).size := rfl

theorem addr_eq (din : Block) {k : ℕ} (hk : k ≤ ndirect) : addr din k = (inode din).addrs k := by
  simp [addr, inode, getDinode, hk]

theorem getShort_setWord (b : Block) {i m : ℕ} (v : ℕ) (hm : m / 2 ≠ i) :
    (b.setWord i v).getShort m = b.getShort m :=
  Block.getShort_congr fun k hk => by simp [Block.setWord, show k / 4 ≠ i by omega]

theorem inode_setSize (din : Block) {n : ℕ} (hn : n < 2 ^ 32) :
    inode (setSize din n) = { inode din with size := n } := by
  have hword (m : ℕ) (hm : m ≠ 2) : (din.setWord 2 n).getWord m = din.getWord m :=
    Block.getWord_setWord_of_ne _ _ hm
  have haddr (k : ℕ) : (din.setWord 2 n).getWord (3 + k) = din.getWord (3 + k) :=
    hword _ (by omega)
  simp [inode, getDinode, setSize, getShort_setWord, Block.getWord_setWord_self _ _ _ hn, haddr]

theorem inode_setAddr (din : Block) {k b : ℕ} (hk : k ≤ ndirect) (hb : b < 2 ^ 32) :
    inode (setAddr din k b) = (inode din).setAddr k b := by
  have hsize : (din.setWord (3 + k) b).getWord 2 = din.getWord 2 :=
    Block.getWord_setWord_of_ne _ _ (by omega)
  have hshort (m : ℕ) (hm : m < 4) : (din.setWord (3 + k) b).getShort m = din.getShort m :=
    getShort_setWord _ _ (by omega)
  have haddrs : (fun l => if l ≤ ndirect then (din.setWord (3 + k) b).getWord (3 + l) else 0) =
      update (fun l => if l ≤ ndirect then din.getWord (3 + l) else 0) k b := by
    funext l
    by_cases hl : l = k
    · subst hl
      rw [update_self, if_pos hk, Block.getWord_setWord_self _ _ _ hb]
    · rw [update_of_ne hl, Block.getWord_setWord_of_ne _ _ (by omega)]
  simp only [inode, getDinode, setAddr, Dinode.setAddr, mul_zero, zero_add, hsize,
    hshort 0 (by norm_num), hshort 1 (by norm_num), hshort 2 (by norm_num), hshort 3 (by norm_num),
    haddrs]

theorem inode_setShort_nlink (din : Block) {v : ℤ} (hv : -32768 ≤ v ∧ v ≤ 32767) :
    inode (din.setShort 3 v) = { inode din with nlink := v } := by
  have hword (m : ℕ) (hm : 2 ≤ m) : (din.setShort 3 v).getWord m = din.getWord m :=
    Block.getWord_congr fun k hk => by simp [Block.setShort, show k / 2 ≠ 3 by omega]
  have hshort (m : ℕ) (hm : m ≠ 3) : (din.setShort 3 v).getShort m = din.getShort m :=
    Block.getShort_setShort_of_ne _ _ hm
  have haddr (k : ℕ) : (din.setShort 3 v).getWord (3 + k) = din.getWord (3 + k) :=
    hword _ (by omega)
  simp only [inode, getDinode, mul_zero, zero_add, hshort 0 (by norm_num),
    hshort 1 (by norm_num), hshort 2 (by norm_num), hword 2 le_rfl, haddr,
    Block.getShort_setShort_self _ _ hv]

theorem inode_newInode (type : IType) : inode (newInode type) = ⟨type, 0, 0, 1, 0, fun _ => 0⟩ := by
  have hzeros : (fun _ => 0 : Block) = fun k => if k / 64 = 0 then 0 else 0 := by simp
  have hnew : inode (Block.setShort (fun _ => 0) 0 type.toShort) =
      ⟨type, 0, 0, 0, 0, fun _ => 0⟩ := by
    rw [hzeros]
    exact getDinode_newDinode_self (b := fun _ => 0) (j := 0) type
  rw [newInode, inode_setSize _ (by norm_num), inode_setShort_nlink _ (by norm_num), hnew]

end bytes

section view

/-- The disk at this moment, with the blocks below `freeblock` in use. -/
def view (s : Image) : Disk where
  dinode i := if i < ninodes then readDinode inodestart s.sectors i else freeDinode
  used b := b < s.freeblock
  data b := if b < nmeta then fun _ => 0 else s.sectors b

structure Sane (s : Image) : Prop where
  length : s.length = fssize
  nmeta_le : nmeta ≤ s.freeblock
  le : s.freeblock ≤ fssize
  zero : ∀ b, s.freeblock ≤ b → s.sectors b = fun _ => 0

structure Frame (s t : Image) : Prop where
  sane : Sane t
  freeinode : t.freeinode = s.freeinode
  super : t.sectors 1 = s.sectors 1

def Image.put (s : Image) (sec : ℕ) (buf : Block) : Image :=
  { s with sectors := update s.sectors sec buf, length := max s.length (sec + 1) }

def Image.store (s : Image) (inum : ℕ) (din : Block) : Image :=
  s.put (inodestart + inum / ipb) (putBytes (s.sectors (inodestart + inum / ipb)) (inum % ipb) din)

def Image.grab (s : Image) : Image := { s with freeblock := s.freeblock + 1 }

variable {s t u : Image} {x inum : ℕ} {buf din : Block}

theorem Image.lt_grab (s : Image) : s.freeblock < s.grab.freeblock := lt_succ_self _

theorem Frame.trans (h : Frame s t) (h' : Frame t u) : Frame s u :=
  ⟨h'.sane, h'.freeinode.trans h.freeinode, h'.super.trans h.super⟩

theorem disk_ext {d d' : Disk} (hdinode : ∀ i, d.dinode i = d'.dinode i)
    (hused : ∀ b, d.used b = d'.used b) (hdata : ∀ b, d.data b = d'.data b) : d = d' := by
  obtain ⟨dinode, used, data⟩ := d
  obtain rfl : dinode = d'.dinode := funext hdinode
  obtain rfl : used = d'.used := funext hused
  obtain rfl : data = d'.data := funext hdata
  rfl

theorem nmeta_eq : nmeta = 46 := rfl

theorem inodestart_eq : inodestart = 32 := rfl

theorem put_sectors_self : (s.put x buf).sectors x = buf := update_self ..

theorem put_sectors_of_ne {y : ℕ} (hy : y ≠ x) : (s.put x buf).sectors y = s.sectors y :=
  update_of_ne hy ..

theorem wsect_run : wsect x buf s = .ok ((), s.put x buf) := rfl

theorem rsect_run (hx : x < s.length) : rsect x s = .ok (s.sectors x, s) := by
  change (if x < s.length then pure (s.sectors x) else throw Failure.read : M Block) s = _
  rw [if_pos hx]
  rfl

theorem rsect_fails (hx : s.length ≤ x) : rsect x s = .error .read := by
  change (if x < s.length then pure (s.sectors x) else throw Failure.read : M Block) s = _
  rw [if_neg (by omega)]
  rfl

theorem ne_zero_of_nmeta_le (hx : nmeta ≤ x) : x ≠ 0 := (lt_of_lt_of_le (by decide) hx).ne'

theorem Sane.free_ne_zero (h : Sane s) : s.freeblock ≠ 0 := ne_zero_of_nmeta_le h.nmeta_le

theorem Sane.free_lt (h : Sane s) : s.freeblock < 2 ^ 32 := h.le.trans_lt (by decide)

theorem Sane.put (h : Sane s) (hx : x < s.freeblock) : Sane (s.put x buf) where
  length := by
    have hlen := h.length
    have hle := h.le
    simp only [Image.put]
    omega
  nmeta_le := h.nmeta_le
  le := h.le
  zero b hb := by
    have hne : b ≠ x := (hx.trans_le hb).ne'
    exact (update_of_ne hne ..).trans (h.zero b hb)

theorem Frame.put (h : Frame s t) (hlo : nmeta ≤ x) (hx : x < t.freeblock) :
    Frame s (t.put x buf) where
  sane := h.sane.put hx
  freeinode := h.freeinode
  super := (update_of_ne (lt_of_lt_of_le (by decide) hlo).ne ..).trans h.super

theorem store_sector_lt (hinum : inum < ninodes) : inodestart + inum / ipb < nmeta := by
  rw [nmeta_eq]
  rw [inodestart_eq]
  unfold ipb
  unfold ninodes at hinum
  omega

theorem view_put (hx : nmeta ≤ x) : view (s.put x buf) = (view s).setData x buf := by
  refine disk_ext (fun i => ?_) (fun _ => rfl) fun b => ?_
  · simp only [view, Disk.setData, Image.put]
    split_ifs with hi
    · have hne : inodestart + i / ipb ≠ x := by
        have hlt := store_sector_lt hi
        omega
      unfold readDinode
      rw [update_of_ne hne]
    · rfl
  · simp only [view, Disk.setData, Image.put]
    by_cases hb : b = x
    · subst hb
      rw [update_self, update_self, if_neg (by omega)]
    · simp only [update_of_ne hb]

/-- `winode` is the kernel's `iupdate`. -/
theorem view_store (hinum : inum < ninodes) :
    view (s.store inum din) = (view s).iupdate inum (inode din) := by
  have hlt := store_sector_lt hinum
  refine disk_ext (fun i => ?_) (fun _ => rfl) fun b => ?_
  · have hread := @readDinode_update inodestart s.sectors inum _ _
      (getDinode_putBytes_self (s.sectors (inodestart + inum / ipb)) (inum % ipb) din)
      (fun j hj => getDinode_putBytes_of_ne _ hj din) i
    simp only [view, Disk.iupdate, Image.store, Image.put, hread]
    by_cases hi : i = inum
    · subst hi
      rw [update_self, update_self, if_pos hinum]
    · rw [update_of_ne hi, update_of_ne hi]
  · simp only [view, Disk.iupdate, Image.store, Image.put]
    split_ifs with hb
    · rfl
    · exact update_of_ne (by omega) ..

theorem Sane.store (h : Sane s) (hinum : inum < ninodes) : Frame s (s.store inum din) where
  sane := h.put (by have := store_sector_lt hinum; have := h.nmeta_le; omega)
  freeinode := rfl
  super := by
    have hne : 1 ≠ inodestart + inum / ipb := by
      rw [inodestart_eq]
      unfold ipb
      omega
    exact update_of_ne hne ..

theorem inode_sector_lt (h : Sane s) (hinum : inum < ninodes) :
    inodestart + inum / ipb < s.length := by
  have hlt := store_sector_lt hinum
  have hle := h.nmeta_le
  have hle' := h.le
  have hlen := h.length
  omega

theorem winode_run (h : Sane s) (hinum : inum < ninodes) :
    winode inum din s = .ok ((), s.store inum din) :=
  bind_of_ok (rsect_run (inode_sector_lt h hinum))

theorem rinode_run (h : Sane s) (hinum : inum < ninodes) :
    ∃ din, rinode inum s = .ok (din, s) ∧ inode din = (view s).dinode inum := by
  refine ⟨_, bind_of_ok (rsect_run (inode_sector_lt h hinum)), ?_⟩
  rw [inode_shift]
  exact (if_pos hinum).symm

theorem Sane.grab (h : Sane s) (hfree : s.freeblock < fssize) : Frame s s.grab where
  sane := ⟨h.length, h.nmeta_le.trans (le_succ _), hfree, fun b hb => h.zero b (by
    have hb' : s.freeblock + 1 ≤ b := hb
    omega)⟩
  freeinode := rfl
  super := rfl

/-- The kernel would find the block that `mkfs` takes. -/
theorem balloc_view (h : Sane s) (hfree : s.freeblock < fssize) :
    Fs.balloc superblock (view s) = (view s.grab, s.freeblock) := by
  have hfind : ((List.range superblock.size).find? fun b => ¬ (view s).used b) =
      some s.freeblock := by
    rw [List.find?_range_eq_some]
    refine ⟨by simp [view], mem_range.mpr hfree, fun j hj => ?_⟩
    simp [view, hj]
  have hview : Disk.setData { view s with used := update (view s).used s.freeblock true }
      s.freeblock (fun _ => 0) = view s.grab := by
    refine disk_ext (fun _ => rfl) (fun b => ?_) fun b => ?_
    · simp only [view, Disk.setData, Image.grab, update_apply]
      split_ifs with hb
      · exact (decide_eq_true (by omega)).symm
      · exact decide_eq_decide.mpr (by omega)
    · simp only [view, Disk.setData, Image.grab, update_apply]
      split_ifs with hb hlt
      · rfl
      · rw [hb]
        exact (h.zero _ le_rfl).symm
      · rfl
      · rfl
  unfold Fs.balloc
  rw [hfind]
  exact Prod.ext hview rfl

end view

section append

/-- Blocks of a file of `n` bytes, with the indirect block. -/
def blocksFor (n : ℕ) : ℕ := (n + (bsize - 1)) / bsize + if ndirect * bsize < n then 1 else 0

structure Tight (data : ℕ → Block) (ip : Dinode) (n : ℕ) : Prop where
  mapped : ∀ bn < maxfile, addrAt data ip (position bn) ≠ 0 ↔ bn * bsize < n
  indirect : ip.addrs ndirect ≠ 0 ↔ ndirect * bsize < n

theorem blocksFor_zero : blocksFor 0 = 0 := by decide

theorem blocksFor_mono {m n : ℕ} (h : m ≤ n) : blocksFor m ≤ blocksFor n := by
  unfold blocksFor bsize ndirect
  split_ifs <;> omega

theorem blocksFor_chunk {off m : ℕ} (hm : 0 < m) (hend : off + m ≤ (off / bsize + 1) * bsize) :
    blocksFor (off + m) = blocksFor (off + 1) := by
  unfold blocksFor bsize ndirect at *
  split_ifs <;> omega

variable {ip ip' : Dinode}

theorem Tight.mono {data : ℕ → Block} {off m : ℕ} (h : Tight data ip (off + 1))
    (hm : 0 < m) (hend : off + m ≤ (off / bsize + 1) * bsize) : Tight data ip (off + m) where
  mapped bn hbn := by
    rw [h.mapped bn hbn]
    unfold bsize at *
    omega
  indirect := by
    rw [h.indirect]
    unfold bsize ndirect at *
    omega

variable {s : Image} {din : Block} {dn : ℕ → Dinode} {i off : ℕ}

theorem addrAt_range (h : Owned superblock (view s) (update dn i ip))
    (hty : ip.type ≠ .none) (pos : ℕ) (hpos : addrAt (view s).data ip pos ≠ 0) :
    nmeta ≤ addrAt (view s).data ip pos ∧ addrAt (view s).data ip pos < fssize ∧
      addrAt (view s).data ip pos < s.freeblock := by
  have hhold : holdings (view s).data (update dn i ip) (i, pos) =
      addrAt (view s).data ip pos := holdings_update_self hty pos
  have hrange := h.exact.range (i, pos) (by rwa [hhold])
  have hused := h.exact.used_of_hold (k := (i, pos)) (by rwa [hhold])
  rw [hhold] at hrange hused
  exact ⟨hrange.1, hrange.2, of_decide_eq_true hused⟩

theorem view_data {x : ℕ} (hx : nmeta ≤ x) : (view s).data x = s.sectors x := if_neg (by omega)

theorem Tight.setSize {data : ℕ → Block} {n : ℕ} (h : Tight data ip n) (m : ℕ) :
    Tight data { ip with size := m } n := ⟨h.mapped, h.indirect⟩

theorem Tight.stay {data : ℕ → Block} (h : Tight data ip off) (hoff : off / bsize * bsize < off) :
    Tight data ip (off + 1) ∧ blocksFor (off + 1) = blocksFor off := by
  refine ⟨⟨fun bn hbn => ?_, ?_⟩, ?_⟩
  · rw [h.mapped bn hbn]
    unfold bsize at *
    omega
  · rw [h.indirect]
    unfold bsize ndirect at *
    omega
  · unfold blocksFor bsize ndirect at *
    split_ifs <;> omega

/-- The offset at which a block is missing is the start of that block. -/
theorem Tight.mod_of_unmapped {data : ℕ → Block} (h : Tight data ip off)
    (hbn : off / bsize < maxfile) (hmap : addrAt data ip (position (off / bsize)) = 0) :
    off % bsize = 0 := by
  have hiff := h.mapped _ hbn
  rw [hmap] at hiff
  have hnot : ¬ off / bsize * bsize < off := fun hlt => hiff.mpr hlt rfl
  unfold bsize at *
  omega

/-- The block at `off` has been added, and the indirect block if it is the first to need it. -/
theorem Tight.step {data data' : ℕ → Block} (h : Tight data ip off)
    (hoff : off % bsize = 0) (hnew : addrAt data' ip' (position (off / bsize)) ≠ 0)
    (hind : ip'.addrs ndirect ≠ 0 ↔ ndirect ≤ off / bsize)
    (hold : ∀ pos, pos ≠ position (off / bsize) → pos ≠ ndirect →
      addrAt data' ip' pos = addrAt data ip pos) :
    Tight data' ip' (off + 1) := by
  refine ⟨fun bn hbn => ?_, ?_⟩
  · by_cases heq : bn = off / bsize
    · subst heq
      refine iff_of_true hnew ?_
      unfold bsize at *
      omega
    · have hne : position bn ≠ position (off / bsize) := fun hpos => heq (position_inj hpos)
      rw [hold _ hne (position_ne_ndirect bn), h.mapped bn hbn]
      unfold bsize at *
      omega
  · rw [hind]
    unfold bsize ndirect at *
    omega

theorem addrAt_of_holdings {data data' : ℕ → Block} {q b : ℕ}
    (hty : ip.type ≠ .none) (hty' : ip'.type ≠ .none)
    (hhold : holdings data' (update dn i ip') = update (holdings data (update dn i ip)) (i, q) b)
    (pos : ℕ) :
    addrAt data' ip' pos = if pos = q then b else addrAt data ip pos := by
  have hpos := congrFun hhold (i, pos)
  rw [holdings_update_self hty', update_apply, holdings_update_self hty] at hpos
  simpa using hpos

theorem entry_lt {bn : ℕ} (hbn : bn < maxfile) (hdirect : ¬ bn < ndirect) :
    bn - ndirect < nindirect := by
  simp only [maxfile] at hbn
  omega

/-- What `loadBlock` has done: what `bmap` does in the kernel. -/
structure Loaded (s : Image) (din : Block) (off : ℕ) (r : Block × ℕ × Block) (t : Image) :
    Prop where
  frame : Frame s t
  bmap : bmap superblock (view s) (inode din) (off / bsize) = .ok (view t, inode r.1, r.2.1)
  buf : r.2.2 = (view t).data r.2.1
  block : nmeta ≤ r.2.1 ∧ r.2.1 < t.freeblock
  count : t.freeblock + blocksFor off = s.freeblock + blocksFor (off + 1)
  tight : Tight (view t).data (inode r.1) (off + 1)

theorem setAddr_type (ip : Dinode) (k b : ℕ) : (ip.setAddr k b).type = ip.type := rfl

theorem ensureAddr_of_ne {k : ℕ} (h : addr din k ≠ 0) : ensureAddr din k s = .ok (din, s) := by
  rw [ensureAddr, if_neg h]
  rfl

theorem ensureAddr_of_zero {k : ℕ} (h : addr din k = 0) :
    ensureAddr din k s = .ok (setAddr din k s.freeblock, s.grab) := by
  rw [ensureAddr, if_pos h]
  rfl

/-- A new block becomes entry `j` of the indirect block `ind`. -/
def Image.link (s : Image) (ind j : ℕ) : Image :=
    s.grab.put ind ((s.sectors ind).setWord j s.freeblock)

theorem ensureEntry_of_ne {ind j : ℕ} (hind : ind < s.length) (hj : (s.sectors ind).getWord j ≠ 0) :
    ensureEntry ind j s = .ok ((s.sectors ind).getWord j, s) := by
  rw [ensureEntry, bind_of_ok (rsect_run hind), if_neg hj]
  rfl

theorem ensureEntry_of_zero {ind j : ℕ} (hind : ind < s.length) (hj : (s.sectors ind).getWord j = 0)
    (hfree : s.freeblock < 2 ^ 32) : ensureEntry ind j s = .ok (s.freeblock, s.link ind j) := by
  rw [ensureEntry, bind_of_ok (rsect_run hind), if_pos hj]
  change Except.ok (((s.sectors ind).setWord j s.freeblock).getWord j, _) = _
  rw [Block.getWord_setWord_self _ _ _ hfree]
  rfl

theorem ensureEntry_fails {ind j : ℕ} (hind : s.length ≤ ind) :
    ensureEntry ind j s = .error .read :=
  Fails.bind (rsect_fails hind)

theorem bmap_entry {d d₁ d₂ : Disk} {ip ip₁ : Dinode} {bn b : ℕ} (hdirect : ¬ bn < ndirect)
    (hbn : bn < maxfile) (hload : loadIndirect superblock d ip = (d₁, ip₁))
    (hind : ip₁.addrs ndirect ≠ 0)
    (hzero : (d₁.data (ip₁.addrs ndirect)).getWord (bn - ndirect) = 0)
    (halloc : Fs.balloc superblock d₁ = (d₂, b)) (hb : b ≠ 0) : bmap superblock d ip bn =
      .ok (d₂.setData (ip₁.addrs ndirect) ((d₂.data (ip₁.addrs ndirect)).setWord (bn - ndirect) b),
        ip₁, b) := by
  rw [bmap, if_neg hdirect, if_pos (entry_lt hbn hdirect), hload]
  simp only [if_neg hind, if_pos hzero, halloc, if_neg hb]

theorem addrs_range (h : Owned superblock (view s) (update dn i ip)) (hty : ip.type ≠ .none)
    (hind : ip.addrs ndirect ≠ 0) : nmeta ≤ ip.addrs ndirect ∧ ip.addrs ndirect < fssize ∧
      ip.addrs ndirect < s.freeblock := by
  have hat : addrAt (view s).data ip ndirect = ip.addrs ndirect := if_pos le_rfl
  rw [← hat] at hind ⊢
  exact addrAt_range h hty ndirect hind

section load

variable {P : Prop} (hty : (inode din).type ≠ .none) (htight : Tight (view s).data (inode din) off)
  (hbn : off / bsize < maxfile)
  (hfull : fssize + blocksFor off < s.freeblock + blocksFor (off + 1) → P)

section new

variable {s₁ : Image} {din₁ : Block}

include htight hbn hfull

theorem loadEntry_new (hframe : Frame s s₁)
    (hown : Owned superblock (view s₁) (update dn i (inode din₁))) (hty : (inode din₁).type ≠ .none)
    (hdirect : ¬ off / bsize < ndirect) (hmod : off % bsize = 0)
    (hload : loadIndirect superblock (view s) (inode din) = (view s₁, inode din₁))
    (hind : (inode din₁).addrs ndirect ≠ 0)
    (hzero : addrAt (view s₁).data (inode din₁) (position (off / bsize)) = 0)
    (hsame : ∀ pos, pos ≠ ndirect →
      addrAt (view s₁).data (inode din₁) pos = addrAt (view s).data (inode din) pos)
    (hcount : s₁.freeblock + 1 + blocksFor off = s.freeblock + blocksFor (off + 1)) :
    Yields (do
      let x ← ensureEntry (addr din₁ ndirect) (off / bsize - ndirect)
      let buf ← rsect x
      pure (din₁, x, buf)) s₁ (Loaded s din off) fun _ => P := by
  have h := hframe.sane
  have hj := entry_lt hbn hdirect
  have hrange := addrs_range hown hty hind
  have hdata := view_data (s := s₁) hrange.1
  rw [position_of_le hdirect, addrAt_entry hind hj] at hzero
  rw [addr_eq din₁ le_rfl]
  refine Yields.after
    (ensureEntry_of_zero (hrange.2.1.trans_eq h.length.symm) (by rw [← hdata]; exact hzero)
      h.free_lt) ?_
  by_cases hfree : s₁.freeblock < fssize
  · have hput : Frame s (s₁.link ((inode din₁).addrs ndirect) (off / bsize - ndirect)) :=
      (hframe.trans (h.grab hfree)).put hrange.1 (hrange.2.2.trans s₁.lt_grab)
    have hview : view (s₁.link ((inode din₁).addrs ndirect) (off / bsize - ndirect)) =
        (view s₁.grab).setData ((inode din₁).addrs ndirect)
          (((view s₁.grab).data ((inode din₁).addrs ndirect)).setWord (off / bsize - ndirect)
            s₁.freeblock) := by
      rw [Image.link, view_put hrange.1, view_data (s := s₁.grab) hrange.1]
      rfl
    have hhold : holdings (update (view s₁).data ((inode din₁).addrs ndirect)
        (((view s₁).data ((inode din₁).addrs ndirect)).setWord (off / bsize - ndirect)
          s₁.freeblock))
        (update dn i (inode din₁)) = _ := holdings_setWord hty hind
      (fun l hl htyl => hown.indirect_ne hty hind hl htyl) hj h.free_lt
    have haddrAt := addrAt_of_holdings hty hty hhold
    refine Yields.after (rsect_run (hfree.trans_eq hput.sane.length.symm)) (Yields.ret ?_)
    have hbuf :=
      view_data (s := s₁.link ((inode din₁).addrs ndirect) (off / bsize - ndirect)) h.nmeta_le
    refine ⟨hput, ?_, hbuf.symm, ⟨h.nmeta_le, s₁.lt_grab⟩, hcount, ?_⟩
    · rw [bmap_entry hdirect hbn hload hind hzero (balloc_view h hfree) h.free_ne_zero, hview]
    · rw [hview]
      refine htight.step hmod ?_ ?_ fun pos hpos hposind => ?_
      · rw [position_of_le hdirect]
        refine ne_of_eq_of_ne (haddrAt _) ?_
        rw [if_pos rfl]
        exact h.free_ne_zero
      · exact iff_of_true hind (by omega)
      · rw [position_of_le hdirect] at hpos
        exact ((haddrAt pos).trans (if_neg hpos)).trans (hsame pos hposind)
  · have hrun : rsect s₁.freeblock (s₁.link ((inode din₁).addrs ndirect) (off / bsize - ndirect)) =
        .error .read := by
      refine rsect_fails ?_
      have hlen := h.length
      simp only [Image.link, Image.put, Image.grab]
      omega
    exact Yields.stops hrun (hfull (by omega))

end new

variable (h : Sane s) (hown : Owned superblock (view s) (update dn i (inode din)))

include hty htight hbn h hown

theorem Loaded.of_mapped (hmap : addrAt (view s).data (inode din) (position (off / bsize)) ≠ 0) :
    Loaded s din off (din, addrAt (view s).data (inode din) (position (off / bsize)),
      s.sectors (addrAt (view s).data (inode din) (position (off / bsize)))) s := by
  have hrange := addrAt_range hown hty _ hmap
  obtain ⟨hsucc, hcount⟩ := htight.stay ((htight.mapped _ hbn).mp hmap)
  exact ⟨⟨h, rfl, rfl⟩, bmap_of_mapped hbn hmap, (view_data hrange.1).symm, ⟨hrange.1, hrange.2.2⟩,
    by rw [hcount], hsucc⟩

include hfull

theorem loadBlock_direct (hdirect : off / bsize < ndirect) :
    Yields (loadBlock din (off / bsize)) s (Loaded s din off) fun _ => P := by
  have hat (data : ℕ → Block) (ip : Dinode) :
      addrAt data ip (position (off / bsize)) = ip.addrs (off / bsize) := by
    simp [position, hdirect, addrAt, hdirect.le]
  rw [loadBlock, if_pos hdirect]
  by_cases hzero : addr din (off / bsize) = 0
  · refine Yields.after (ensureAddr_of_zero hzero) ?_
    rw [addr_eq din hdirect.le] at hzero
    have hmod := htight.mod_of_unmapped hbn (by rw [hat, hzero])
    have hcount : blocksFor (off + 1) = blocksFor off + 1 := by
      unfold blocksFor bsize ndirect at *
      split_ifs <;> omega
    have haddr : addr (setAddr din (off / bsize) s.freeblock) (off / bsize) = s.freeblock :=
      Block.getWord_setWord_self _ _ _ h.free_lt
    rw [haddr]
    by_cases hfree : s.freeblock < fssize
    · have hinode := inode_setAddr din hdirect.le h.free_lt
      have hgrab := h.grab hfree
      refine Yields.after (rsect_run (hfree.trans_eq hgrab.sane.length.symm)) (Yields.ret ?_)
      have hhold : holdings (view s).data
          (update dn i ((inode din).setAddr (off / bsize) s.freeblock)) = _ :=
        holdings_setAddr hty hdirect s.freeblock
      have haddrAt := addrAt_of_holdings hty (by rw [setAddr_type]; exact hty) hhold
      have hbuf : (view s.grab).data s.freeblock = s.sectors s.freeblock := view_data h.nmeta_le
      refine ⟨hgrab, ?_, hbuf.symm, ⟨h.nmeta_le, s.lt_grab⟩, ?_, ?_⟩
      · rw [bmap, if_pos hdirect, if_pos hzero, balloc_view h hfree]
        simp only [if_neg h.free_ne_zero, hinode]
      · rw [hcount]
        simp only [Image.grab]
        omega
      · rw [hinode]
        refine htight.step hmod ?_ ?_ fun pos hpos _ => ?_
        · rw [hat]
          simpa [Dinode.setAddr] using h.free_ne_zero
        · have hind : ((inode din).setAddr (off / bsize) s.freeblock).addrs ndirect =
              (inode din).addrs ndirect := update_of_ne (by omega) ..
          rw [hind, htight.indirect]
          unfold bsize ndirect at *
          omega
        · have hposition : position (off / bsize) = off / bsize := if_pos hdirect
          rw [hposition] at hpos
          exact (haddrAt pos).trans (if_neg hpos)
    · refine Yields.stops (rsect_fails ?_) (hfull (by omega))
      change s.length ≤ _
      rw [h.length]
      omega
  · refine Yields.after (ensureAddr_of_ne hzero) ?_
    rw [addr_eq din hdirect.le, ← hat (view s).data] at hzero ⊢
    have hrange := addrAt_range hown hty _ hzero
    refine Yields.after (rsect_run (hrange.2.1.trans_eq h.length.symm)) (Yields.ret ?_)
    exact Loaded.of_mapped hty htight hbn h hown hzero

theorem loadBlock_indirect (hdirect : ¬ off / bsize < ndirect) :
    Yields (loadBlock din (off / bsize)) s (Loaded s din off) fun _ => P := by
  rw [loadBlock, if_neg hdirect]
  by_cases hind : addr din ndirect = 0
  · refine Yields.after (ensureAddr_of_zero hind) ?_
    rw [addr_eq din le_rfl] at hind
    have hunmapped : addrAt (view s).data (inode din) (position (off / bsize)) = 0 := by
      rw [position_of_le hdirect]
      exact addrAt_entry_of_zero hind _
    have hmod := htight.mod_of_unmapped hbn hunmapped
    have hfirst : ¬ ndirect * bsize < off := fun hlt => htight.indirect.mpr hlt hind
    have hcount : blocksFor (off + 1) = blocksFor off + 2 := by
      unfold blocksFor bsize ndirect at *
      split_ifs <;> omega
    have hinode := inode_setAddr din (le_refl ndirect) h.free_lt
    have haddr : (inode (setAddr din ndirect s.freeblock)).addrs ndirect = s.freeblock := by
      simp only [hinode, Dinode.setAddr, update_self]
    by_cases hfree : s.freeblock < fssize
    · have hzeros (k : ℕ) : ((view s).data s.freeblock).getWord k = 0 := by
        rw [view_data h.nmeta_le, h.zero _ le_rfl]
        exact getWord_zero k
      have hload : loadIndirect superblock (view s) (inode din) =
          (view s.grab, inode (setAddr din ndirect s.freeblock)) := by
        rw [loadIndirect, if_pos hind, balloc_view h hfree]
        simp only [if_neg h.free_ne_zero, hinode]
      have hown₁ := (loadIndirect_spec hown hty).1
      rw [hload] at hown₁
      have hhold : holdings (view s).data
          (update dn i ((inode din).setAddr ndirect s.freeblock)) = _ :=
        holdings_setIndirect hty hind hzeros
      have haddrAt := addrAt_of_holdings hty (by rw [setAddr_type]; exact hty) hhold
      rw [← hinode] at haddrAt
      have hsame (pos : ℕ) (hpos : pos ≠ ndirect) :
          addrAt (view s.grab).data (inode (setAddr din ndirect s.freeblock)) pos =
            addrAt (view s).data (inode din) pos := (haddrAt pos).trans (if_neg hpos)
      refine loadEntry_new htight hbn hfull (h.grab hfree) hown₁
        (by rw [hinode, setAddr_type]; exact hty) hdirect hmod hload
        (by rw [haddr]; exact h.free_ne_zero) ?_ hsame ?_
      · rw [hsame _ (position_ne_ndirect _)]
        exact hunmapped
      · simp only [Image.grab]
        omega
    · refine Yields.stops (ensureEntry_fails ?_) (hfull (by omega))
      rw [addr_eq _ le_rfl, haddr]
      have hlen := h.length
      simp only [Image.grab]
      omega
  · refine Yields.after (ensureAddr_of_ne hind) ?_
    rw [addr_eq din le_rfl] at hind ⊢
    by_cases hmap : addrAt (view s).data (inode din) (position (off / bsize)) = 0
    · have hmod := htight.mod_of_unmapped hbn hmap
      have hcount : blocksFor (off + 1) = blocksFor off + 1 := by
        have hlt := htight.indirect.mp hind
        unfold blocksFor bsize ndirect at *
        split_ifs <;> omega
      rw [← addr_eq din le_rfl]
      exact loadEntry_new htight hbn hfull ⟨h, rfl, rfl⟩ hown hty hdirect hmod
        (if_neg hind) hind hmap (fun _ _ => rfl) (by omega)
    · have hrange := addrAt_range hown hty _ hmap
      have hrangeInd := addrs_range hown hty hind
      have hentry : addrAt (view s).data (inode din) (position (off / bsize)) =
          (s.sectors ((inode din).addrs ndirect)).getWord (off / bsize - ndirect) := by
        rw [position_of_le hdirect, addrAt_entry hind (entry_lt hbn hdirect), view_data hrangeInd.1]
      have hrun :=
        ensureEntry_of_ne (hrangeInd.2.1.trans_eq h.length.symm) (by rw [← hentry]; exact hmap)
      rw [← hentry] at hrun
      refine Yields.after hrun
        (Yields.after (rsect_run (hrange.2.1.trans_eq h.length.symm)) (Yields.ret ?_))
      exact Loaded.of_mapped hty htight hbn h hown hmap

theorem loadBlock_spec : Yields (loadBlock din (off / bsize)) s (Loaded s din off) fun _ => P := by
  by_cases hdirect : off / bsize < ndirect
  · exact loadBlock_direct hty htight hbn hfull h hown hdirect
  · exact loadBlock_indirect hty htight hbn hfull h hown hdirect

end load

section loop

structure Looped (s : Image) (din : Block) (off : ℕ) (src : List UInt8) (fuel : ℕ) (r : Block × ℕ)
    (t : Image) : Prop where
  frame : Frame s t
  last : r.2 = off + src.length
  le_maxfile : off + src.length ≤ maxfile * bsize
  writes : ∀ avail, src.length ≤ avail →
    writeLoop superblock fuel (view s) (inode din) off src avail =
      .ok (view t, inode r.1, off + src.length)
  count : t.freeblock + blocksFor off = s.freeblock + blocksFor (off + src.length)
  tight : Tight (view t).data (inode r.1) (off + src.length)

theorem Looped.nil {fuel : ℕ} (h : Sane s) (htight : Tight (view s).data (inode din) off)
    (hoff : off ≤ maxfile * bsize) : Looped s din off [] fuel (din, off) s where
  frame := ⟨h, rfl, rfl⟩
  last := rfl
  le_maxfile := hoff
  writes avail _ := by cases fuel <;> simp [writeLoop]
  count := rfl
  tight := htight

theorem grows_type {d d' : Disk} {ip ip' : Dinode} (h : Fs.Grows d ip d' ip') :
    ip'.type = ip.type := by
  rw [h.inode]

/-- The image after a turn of the loop. -/
abbrev Image.turn (t : Image) (r : Block × ℕ × Block) (off : ℕ) (chunk : List UInt8) : Image :=
  t.put r.2.1 (r.2.2.write (off % bsize) chunk)

/-- One turn of the loop stores up to the end of the block. -/
theorem Loaded.turn {r : Block × ℕ × Block} {t : Image} (hl : Loaded s din off r t)
    (chunk : List UInt8) (hown : Owned superblock (view s) (update dn i (inode din)))
    (hty : (inode din).type ≠ .none) (hbn : off / bsize < maxfile) {m : ℕ} (hm : 0 < m)
    (hend : off + m ≤ (off / bsize + 1) * bsize) : Frame s (t.turn r off chunk) ∧
      view (t.turn r off chunk) =
      (view t).setData r.2.1 (((view t).data r.2.1).write (off % bsize) chunk) ∧
      Owned superblock (view (t.turn r off chunk)) (update dn i (inode r.1)) ∧
      (inode r.1).type ≠ .none ∧
      Tight (view (t.turn r off chunk)).data (inode r.1) (off + m) := by
  have hview : view (t.turn r off chunk) =
      (view t).setData r.2.1 (((view t).data r.2.1).write (off % bsize) chunk) := by
    rw [view_put hl.block.1, hl.buf]
  obtain ⟨d', ip', x, hbmap, hown', hgrows, hx⟩ := bmap_spec hown hty hbn
  rw [hl.bmap] at hbmap
  obtain ⟨rfl, rfl, rfl⟩ : view t = d' ∧ inode r.1 = ip' ∧ r.2.1 = x := by simpa using hbmap
  have hty' : (inode r.1).type ≠ .none := by
    rw [grows_type hgrows]
    exact hty
  have hne : addrAt (view t).data (inode r.1) (position (off / bsize)) ≠ 0 := by
    rw [← hx]
    exact ne_zero_of_nmeta_le hl.block.1
  refine ⟨hl.frame.put hl.block.1 hl.block.2, hview, ?_, hty', ?_⟩
  · rw [hview, hx]
    exact hown'.setData hty' hne _
  · have htight := hl.tight.mono hm hend
    rw [hview, hx]
    refine ⟨fun bn hbn => ?_, htight.indirect⟩
    rw [hown'.addrAt_setData hty' hne, htight.mapped bn hbn]

theorem iappendLoop_spec {P : Prop} (fuel : ℕ) (src : List UInt8) (hfuel : src.length ≤ fuel)
    (h : Sane s) (hown : Owned superblock (view s) (update dn i (inode din)))
    (hty : (inode din).type ≠ .none) (htight : Tight (view s).data (inode din) off)
    (hoff : off ≤ maxfile * bsize)
    (hfull : maxfile * bsize < off + src.length ∨
      fssize + blocksFor off < s.freeblock + blocksFor (off + src.length) → P) :
    Yields (iappendLoop fuel din off src) s (Looped s din off src fuel) fun _ => P := by
  induction fuel generalizing s din off src with
  | zero =>
    obtain rfl : src = [] := length_eq_zero_iff.mp (by omega)
    exact Yields.ret (Looped.nil h htight hoff)
  | succ fuel ih =>
    rw [iappendLoop]
    by_cases hsrc : src = []
    · subst hsrc
      rw [if_pos rfl]
      exact Yields.ret (Looped.nil h htight hoff)
    have hpos : 0 < src.length := length_pos_iff.mpr hsrc
    rw [if_neg hsrc]
    by_cases hbn : off / bsize < maxfile
    swap
    · rw [if_neg hbn]
      have hge : maxfile * bsize ≤ off :=
        (le_div_iff_mul_le (by decide)).mp (not_lt.mp hbn)
      exact Yields.fail (hfull (.inl (by omega)))
    rw [if_pos hbn]
    have hload : Yields (loadBlock din (off / bsize)) s (Loaded s din off) fun _ => P :=
      loadBlock_spec hty htight hbn (fun hlt => by
        have hmono := blocksFor_mono (show off + 1 ≤ off + src.length by omega)
        exact hfull (.inr (by omega))) h hown
    refine hload.bind fun r t hl => ?_
    -- the chunk of this turn, as `mkfs` and as the kernel compute it
    have hmod : off - off / bsize * bsize = off % bsize := by
      unfold bsize
      omega
    have hchunk : (off / bsize + 1) * bsize - off = bsize - off % bsize := by
      unfold bsize
      omega
    have hdiv : off + (bsize - off % bsize) = (off / bsize + 1) * bsize := by
      unfold bsize
      omega
    simp only [hmod, hchunk]
    generalize hm : min src.length (bsize - off % bsize) = m
    have hm_pos : 0 < m := by
      have hlt : off % bsize < bsize := mod_lt _ (by decide)
      omega
    have hm_le : m ≤ src.length := by omega
    have hend : off + m ≤ (off / bsize + 1) * bsize := by omega
    have hmax : off + m ≤ maxfile * bsize :=
      hend.trans (mul_le_mul_right _ hbn)
    obtain ⟨hframe, hview, hown', hty', htight'⟩ := hl.turn (src.take m) hown hty hbn hm_pos hend
    have hlen : (src.drop m).length = src.length - m := length_drop
    have hcount := hl.count
    have hblocks := blocksFor_chunk hm_pos hend
    have hsum : off + m + (src.drop m).length = off + src.length := by omega
    refine Yields.after wsect_run ?_
    refine (ih (src.drop m) (by omega) hframe.sane hown' hty' htight' hmax ?_).mono ?_
      fun _ hP => hP
    · intro hbad
      rw [hsum, hblocks] at hbad
      exact hfull (hbad.imp_right fun hlt : _ < t.freeblock + _ => by omega)
    · intro r' u hu
      have hlast := hu.last
      have hle := hu.le_maxfile
      have htot := hu.count
      have htail := hu.tight
      rw [hsum] at hlast hle htot htail
      refine ⟨hframe.trans hu.frame, hlast, hle, fun avail havail => ?_, ?_, htail⟩
      · have hwrites := hu.writes (avail - m) (by omega)
        rw [hview, hsum] at hwrites
        rw [writeLoop, if_neg hsrc, hl.bmap]
        simp only [if_neg (ne_zero_of_nmeta_le hl.block.1), hm]
        rw [if_neg (by omega), min_eq_left (by omega : m ≤ avail)]
        exact hwrites
      · rw [hblocks] at htot
        simp only [Image.put] at htot
        omega

end loop

structure Appended (s : Image) (i : ℕ) (src : List UInt8) (t : Image) : Prop where
  frame : Frame s t
  writes : writei superblock (view s) i ((view s).dinode i) ((view s).dinode i).size
    src src.length = .ok (view t, (view t).dinode i, src.length)
  count : t.freeblock + blocksFor ((view s).dinode i).size =
    s.freeblock + blocksFor (((view s).dinode i).size + src.length)
  tight : Tight (view t).data ((view t).dinode i) (((view s).dinode i).size + src.length)

theorem Looped.inode_eq {src : List UInt8} {r : Block × ℕ} {t : Image}
    (hl : Looped s din off src src.length r t)
    (hown : Owned superblock (view s) (update dn i (inode din))) (hty : (inode din).type ≠ .none) :
    inode r.1 = { inode din with addrs := (inode r.1).addrs } := by
  obtain ⟨d', ip', last, hrun, -, hwrites, -⟩ :=
    writeLoop_spec src.length src src.length le_rfl hown hty hl.le_maxfile
  rw [hl.writes _ le_rfl] at hrun
  obtain ⟨-, rfl, -⟩ : view t = d' ∧ inode r.1 = ip' ∧
      off + src.length = last := by simpa using hrun
  exact hwrites.inode

theorem setSize_eq (h : ip' = { ip with addrs := ip'.addrs }) (n : ℕ) :
    { ip' with size := if ip'.size < ip.size + n then ip.size + n else ip'.size } =
      { ip' with size := ip.size + n } := by
  have hsize : ip'.size = ip.size := by rw [h]
  have hgrown : (if ip'.size < ip.size + n then ip.size + n else ip'.size) = ip.size + n := by
    rw [hsize]
    split_ifs <;> omega
  rw [hgrown]

theorem iappend_spec {P : Prop} (h : Sane s) (hgood : Good superblock (view s)) (hi : i < ninodes)
    (hty : ((view s).dinode i).type ≠ .none)
    (htight : Tight (view s).data ((view s).dinode i) ((view s).dinode i).size) {src : List UInt8}
    (hfull : maxfile * bsize < ((view s).dinode i).size + src.length ∨
      fssize + blocksFor ((view s).dinode i).size <
        s.freeblock + blocksFor (((view s).dinode i).size + src.length) → P) :
    Yields (iappend i src) s (fun _ t => Appended s i src t) fun _ => P := by
  obtain ⟨din, hrun, hdin⟩ := rinode_run h hi
  refine Yields.after hrun ?_
  have hown := hgood.owned_update i
  have hmax := (hgood.mapped i hty).le_maxfile
  have hsize : size din = ((view s).dinode i).size := by rw [size_eq, hdin]
  rw [← hdin] at hown hty
  rw [hsize]
  have hloop : Yields (iappendLoop src.length din ((view s).dinode i).size src) s
      (Looped s din ((view s).dinode i).size src src.length) fun _ => P :=
    iappendLoop_spec src.length src le_rfl h hown hty (by rw [hdin]; exact htight) hmax hfull
  refine hloop.bind fun r t hl => ?_
  change Yields (winode i (setSize r.1 r.2)) t _ _
  rw [hl.last]
  have hle := hl.le_maxfile
  have hbound : ((view s).dinode i).size + src.length < 2 ^ 32 :=
    hle.trans_lt (by decide)
  have hview : view (t.store i (setSize r.1 (((view s).dinode i).size + src.length))) =
      (view t).iupdate i { inode r.1 with size := ((view s).dinode i).size + src.length } := by
    rw [view_store hi, inode_setSize _ hbound]
  have hstored : (view (t.store i (setSize r.1 (((view s).dinode i).size + src.length)))).dinode i =
      { inode r.1 with size := ((view s).dinode i).size + src.length } := by
    rw [hview]
    exact update_self ..
  have hsame := hl.inode_eq hown hty
  have hwrites := hl.writes src.length le_rfl
  rw [hdin] at hsame hwrites
  refine Yields.of_runs ⟨(), _, winode_run hl.frame.sane hi, ?_⟩
  refine ⟨hl.frame.trans (hl.frame.sane.store hi), ?_, hl.count, ?_⟩
  · rw [writei, if_neg (by omega), if_neg (by omega), hwrites, hstored]
    simp only [setSize_eq hsame, hview]
    rw [show ((view s).dinode i).size + src.length - ((view s).dinode i).size = src.length by omega]
  · rw [hstored, hview]
    exact hl.tight.setSize _

end append

end Xv6.Mkfs
