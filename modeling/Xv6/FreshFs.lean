import Xv6.FsSafe

/-!
# A freshly made file system

The image that `mkfs` makes when it is given no files, and the kernel after boot with some processes
in the root directory. The layout is that of `mkfs/mkfs.c`: a boot block, the superblock, 30 log
blocks, 13 blocks of inodes and one of the bitmap stand in front of the data area.
-/

namespace Xv6.Fs

def superblock : Super where
  size := 2000
  ninodes := 200
  datastart := 46
  size_lt := by norm_num
  datastart_pos := by norm_num
  ninodes_le := by norm_num

def rootBlock : Block :=
  Block.write (Block.write (fun _ => 0) 0 (Dirent.encode ⟨rootino, dot⟩)) deSize
    (Dirent.encode ⟨rootino, dotdot⟩)

def rootDinode : Dinode := ⟨.dir, 0, 0, 1, 1024, fun k => if k = 0 then 46 else 0⟩

def freeDinode : Dinode := ⟨.none, 0, 0, 0, 0, fun _ => 0⟩

/-- The image of `mkfs` without files. -/
def image : Disk where
  dinode i := if i = rootino then rootDinode else freeDinode
  used b := b ≤ 46
  data b := if b = 46 then rootBlock else fun _ => 0

def boot (d : Disk) (n : ℕ) : State where
  disk := d
  itable i := ⟨if i = rootino then n else 0, false, none, freeDinode⟩
  active := if n = 0 then 0 else 1
  procs p := if p < n then ⟨some rootino, fun _ => none⟩ else .exited
  files := 0

/-- Only the root directory holds a block. -/
structure RootOnly (d : Disk) : Prop where
  root : d.dinode rootino = rootDinode
  other : ∀ i, i ≠ rootino → (d.dinode i).addrs = (fun _ => 0) ∧ (d.dinode i).size = 0
  used : ∀ b, d.used b = decide (b ≤ 46)

theorem RootOnly.holdings {d : Disk} (h : RootOnly d) (i pos : ℕ) :
    holdings d.data d.dinode (i, pos) = if i = rootino ∧ pos = 0 then 46 else 0 := by
  by_cases hi : i = rootino
  · subst hi
    have hty : rootDinode.type ≠ .none := by decide
    simp only [Fs.holdings, h.root, if_neg hty, true_and]
    by_cases hpos : pos = 0
    · subst hpos
      rfl
    · have haddr : rootDinode.addrs pos = 0 := if_neg hpos
      have hind : rootDinode.addrs ndirect = 0 := rfl
      simp [addrAt, haddr, hind, hpos]
  · simp [Fs.holdings, addrAt, (h.other i hi).1, hi]

theorem RootOnly.good {d : Disk} (h : RootOnly d) : Good superblock d := by
  refine ⟨⟨⟨by decide, ?_, ?_, ?_⟩, fun b hb => ?_⟩, ?_⟩
  · rintro ⟨i, pos⟩ ⟨j, pos'⟩ heq hne
    simp only [h.holdings] at heq hne
    split_ifs at heq hne with hroot hroot'
    · rw [hroot.1, hroot.2, hroot'.1, hroot'.2]
    · exact absurd rfl hne
  · rintro ⟨i, pos⟩ hne
    simp only [h.holdings] at hne ⊢
    split_ifs at hne ⊢
    · exact ⟨le_rfl, by decide⟩
    · exact absurd rfl hne
  · intro b hlo _
    have hlo' : 46 ≤ b := hlo
    rw [h.used, decide_eq_true_eq]
    constructor
    · intro hle
      refine ⟨(rootino, 0), ?_⟩
      rw [h.holdings, if_pos ⟨rfl, rfl⟩]
      omega
    · rintro ⟨⟨i, pos⟩, hhold⟩
      rw [h.holdings] at hhold
      split_ifs at hhold
      · omega
      · omega
  · have hlt : b < 46 := hb
    rw [h.used]
    exact decide_eq_true hlt.le
  · intro i hty bn hbn
    by_cases hi : i = rootino
    · subst hi
      rw [h.root] at hbn ⊢
      have hsize : rootDinode.size = 1024 := rfl
      have hzero : bn = 0 := by
        rw [hsize] at hbn
        unfold bsize at hbn
        omega
      have haddr : addrAt d.data rootDinode (position 0) = 46 := rfl
      rw [hzero, haddr]
      decide
    · rw [(h.other i hi).2] at hbn
      exact absurd hbn (Nat.not_lt_zero _)

theorem image_rootOnly : RootOnly image where
  root := rfl
  other i hi := by
    have hdn : image.dinode i = freeDinode := if_neg hi
    rw [hdn]
    exact ⟨rfl, rfl⟩
  used _ := rfl

theorem image_good : Good superblock image := image_rootOnly.good

/-- An image that `mkfs` makes: the root directory with the files that it was given. -/
structure Fresh (sb : Super) (d : Disk) : Prop where
  good : Good sb d
  zero : d.view.type 0 = .none
  inside : ∀ i, d.view.type i ≠ .none → i < sb.ninodes
  root : d.view.type rootino = .dir
  nlink : ∀ i, d.view.type i ≠ .none → d.view.nlink i = 1
  dot : d.view.ent rootino 0 = ⟨rootino, dot⟩
  dotdot : d.view.ent rootino 1 = ⟨rootino, dotdot⟩
  file : ∀ k, 2 ≤ k → (d.view.ent rootino k).inum ≠ 0 →
    (d.view.ent rootino k).name ≠ Fs.dot ∧ (d.view.ent rootino k).name ≠ Fs.dotdot ∧
      d.view.type (d.view.ent rootino k).inum = .file
  inj : ∀ k l, 2 ≤ k → 2 ≤ l → (d.view.ent rootino k).inum ≠ 0 →
    (d.view.ent rootino k).inum = (d.view.ent rootino l).inum → k = l
  named : ∀ i, d.view.type i ≠ .none → i ≠ rootino →
    d.view.type i = .file ∧ ∃ k, 2 ≤ k ∧ (d.view.ent rootino k).inum = i

theorem image_type {i : ℕ} (hi : image.view.type i ≠ .none) : i = rootino := by
  by_contra hne
  have hdn : image.dinode i = freeDinode := if_neg hne
  exact hi (by simp [Disk.view, hdn, freeDinode])

theorem image_ent {k : ℕ} (hk : 2 ≤ k) : image.view.ent rootino k = ⟨0, []⟩ := by
  have hslots : ∀ l < 64, 2 ≤ l → image.view.ent rootino l = ⟨0, []⟩ := by decide +kernel
  by_cases hlt : k < 64
  · exact hslots k hlt hk
  · have hdir : (image.dinode rootino).type = .dir := rfl
    have hsize : (image.dinode rootino).size = 1024 := rfl
    simp only [Disk.view, if_pos hdir]
    exact slot_of_gt (by rw [hsize]; unfold deSize; omega)

theorem image_fresh : Fresh superblock image where
  good := image_good
  zero := rfl
  inside i hi := by
    rw [image_type hi]
    decide
  root := rfl
  nlink i hi := by
    rw [image_type hi]
    rfl
  dot := by decide +kernel
  dotdot := by decide +kernel
  file k hk hlive := absurd (by rw [image_ent hk]) hlive
  inj k l hk _ hlive _ := absurd (by rw [image_ent hk]) hlive
  named i hi hne := absurd (image_type hi) hne

theorem uses_atRoot (i : ℕ) : (⟨some rootino, fun _ => none⟩ : Proc).uses i =
    if i = rootino then 1 else 0 := by
  by_cases hi : i = rootino
  · subst hi
    simp [Proc.uses]
  · simp [Proc.uses, hi, Ne.symm hi]

theorem boot_rest (d : Disk) (n : ℕ) : Rest n (boot d n) := by
  refine ⟨fun i _ hv => Bool.noConfusion hv, fun i => ?_, fun i => rfl, fun p hp => ?_⟩
  · have hterm : ∀ p ∈ Finset.range n,
        ((boot d n).procs p).uses i = if i = rootino then 1 else 0 := by
      intro p hp
      have hproc : (boot d n).procs p = ⟨some rootino, fun _ => none⟩ :=
        if_pos (Finset.mem_range.1 hp)
      rw [hproc, uses_atRoot]
    rw [Finset.sum_congr rfl hterm, Finset.sum_const, Finset.card_range]
    by_cases hi : i = rootino
    · simp [boot, hi]
    · simp [boot, hi]
  · exact if_neg (by omega)

end Xv6.Fs
