import Xv6.BlockRuns
import Xv6.InodeBlock

/-!
# Inodes in memory and on the disk over whole runs

On the machine of all functions and calls: an inode that is in the table and has been read equals
the inode on the disk, and every block below the size of an allocated inode is mapped, so that
`readi` allocates nothing. Blocks without a second owner are what the second part rests on.
-/

namespace Xv6.Fs

open Act Threads Transition

theorem readi_reads {sb : Super} {d : Disk} {ip : Dinode} (hmap : MappedTo d.data ip ip.size)
    (off n : ℕ) : ∃ bytes, readi sb d ip off n = .ok (d, ip, bytes) := by
  by_cases hout : ip.size < off ∨ 2 ^ 32 ≤ off + n
  · exact ⟨[], by simp only [readi, if_pos hout]⟩
  · exact ⟨_, readi_spec hmap (by omega) (by omega)⟩

def Holds (start : ℕ) (blocks : ℕ → Block) (d : Disk) : Prop :=
  ∀ i, readDinode start blocks i = d.dinode i

/-- From any state at rest with block ownership, without holes and with the bits of the blocks in
front of the data area set, every run leaves the inodes in memory equal to those on the disk and no
holes; `readi` then changes nothing, and on the blocks of inodes `iupdate` and `ialloc` of one inode
change no other one. -/
theorem inodes_match_disk_run {sb : Super} {n : ℕ} {s : State} (hrest : Rest n s)
    (hown : BlockOwnership sb s.disk) (hmapped : NoHoles s.disk)
    (hmeta : ∀ b < sb.datastart, s.disk.used b = true) {ms : List (Move Op)} {t : Pool State Panic}
    (hrun : run (step (operate sb)) (.quiet s) ms = some t) :
    (∀ i, 0 < (t.shared.itable i).ref → (t.shared.itable i).valid = true →
      (t.shared.itable i).lock = none → (t.shared.itable i).copy = t.shared.disk.dinode i) ∧
      NoHoles t.shared.disk ∧
    (∀ i, (t.shared.disk.dinode i).type ≠ .none → ∀ off m, ∃ bytes,
      readi sb t.shared.disk (t.shared.disk.dinode i) off m =
      .ok (t.shared.disk, t.shared.disk.dinode i, bytes)) ∧
    ∀ start blocks, Holds start blocks t.shared.disk → ∀ i,
      (∀ ip : Dinode, ip.Fits →
        Holds start (writeDinode start blocks i ip) (t.shared.disk.iupdate i ip)) ∧
      ∀ type, Holds start (markDinode start blocks i type)
        (t.shared.disk.iupdate i ⟨type, 0, 0, 0, 0, fun _ => 0⟩) := by
  obtain ⟨⟨G, hb⟩, -⟩ := operate_base hrest ⟨⟨hown, hmeta⟩, hmapped⟩ hrun
  refine ⟨fun i href hvalid _ => (hb.coherent i href hvalid).1, hb.good.mapped,
    fun i hty off m => readi_reads (hb.good.mapped i hty) off m, fun start blocks hholds i => ?_⟩
  have hsame : readDinode start blocks = t.shared.disk.dinode := funext hholds
  refine ⟨fun ip hfits j => ?_, fun type j => ?_⟩
  · rw [readDinode_writeDinode hfits, hsame]
    rfl
  · rw [readDinode_markDinode, hsame]
    rfl

theorem inodes_match_disk_run_writeThenMkdir :
    ∃ t, run (step (operate superblock)) (.quiet (boot image 1)) writeThenMkdir =
      some t ∧ 0 < (t.shared.itable rootino).ref ∧
      (t.shared.itable rootino).copy = t.shared.disk.dinode rootino ∧ NoHoles t.shared.disk := by
  have hrun : (run (step (operate superblock)) (.quiet (boot image 1))
      writeThenMkdir).elim false (fun t => decide (0 < (t.shared.itable rootino).ref ∧
        (t.shared.itable rootino).valid = true ∧
        (t.shared.itable rootino).lock = none)) = true := by
    decide +kernel
  obtain ⟨t, ht, hd⟩ := exists_of_elim hrun
  obtain ⟨href, hvalid, hlock⟩ := of_decide_eq_true hd
  obtain ⟨hcopy, hholes, -⟩ := inodes_match_disk_run (boot_rest image 1) image_good.owned.exact
    image_good.mapped image_good.owned.reserved ht
  exact ⟨t, ht, href, hcopy rootino href hvalid hlock, hholes⟩

section shared

def longDinode : Dinode :=
  ⟨.file, 0, 0, 1, 13 * bsize,
    fun k => if k < ndirect then 48 + k else if k = ndirect then 47 else 0⟩

def sharing : Disk where
  dinode i := if i = 2 ∨ i = 3 then longDinode else image.dinode i
  used b := b ≤ 60
  data b := if b = 47 then Block.setWord (fun _ => 0) 0 60 else image.data b

theorem sharing_noHoles : NoHoles sharing := by
  have hlong : ∀ bn < 13, addrAt sharing.data longDinode (position bn) ≠ 0 := by decide +kernel
  have hroot : addrAt sharing.data rootDinode (position 0) ≠ 0 := by decide +kernel
  intro i hty bn hbn
  by_cases hi : i = 2 ∨ i = 3
  · have hdn : sharing.dinode i = longDinode := if_pos hi
    rw [hdn] at hbn ⊢
    refine hlong bn ?_
    change bn * bsize < 13 * bsize at hbn
    exact lt_of_mul_lt_mul_right hbn (Nat.zero_le _)
  · have hdn : sharing.dinode i = image.dinode i := if_neg hi
    rw [hdn] at hty hbn ⊢
    have hone : i = rootino := by
      by_contra hne
      exact hty (by simp [image, hne, freeDinode])
    subst hone
    have hzero : bn = 0 := by
      have hsize : (image.dinode rootino).size = 1024 := rfl
      rw [hsize] at hbn
      unfold bsize at hbn
      omega
    subst hzero
    exact hroot

/-- One file is truncated, and its indirect block goes to the root directory. -/
def truncThenWrite : List (Move Op) :=
  .start 0 (.itrunc 2) :: List.replicate 4 (.step 0) ++
    .start 0 (.writei rootino 1024 (List.replicate deSize 0) deSize) :: List.replicate 4 (.step 0)

/-- Where two inodes share blocks, holes may come up in one of them when the other is truncated. -/
theorem holes_after_sharing : NoHoles sharing ∧ Rest 1 (boot sharing 1) ∧
    (∀ b < superblock.datastart, sharing.used b = true) ∧
    ∃ t, run (step (operate superblock)) (.quiet (boot sharing 1)) truncThenWrite =
      some t ∧ ¬ NoHoles t.shared.disk := by
  refine ⟨sharing_noHoles, boot_rest sharing 1, by decide +kernel, ?_⟩
  have hrun : (run (step (operate superblock)) (.quiet (boot sharing 1))
      truncThenWrite).elim false (fun t => decide ((t.shared.disk.dinode 3).type ≠ .none ∧
        12 * bsize < (t.shared.disk.dinode 3).size ∧
        addrAt t.shared.disk.data (t.shared.disk.dinode 3) (position 12) = 0)) = true := by
    decide +kernel
  obtain ⟨t, ht, hd⟩ := exists_of_elim hrun
  obtain ⟨hty, hsize, haddr⟩ := of_decide_eq_true hd
  exact ⟨t, ht, fun hholes => hholes 3 hty 12 hsize haddr⟩

end shared

end Xv6.Fs
