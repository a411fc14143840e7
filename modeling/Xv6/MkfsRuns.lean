import Xv6.BlockRuns
import Xv6.MkfsAgree

/-!
# The kernel on the image of `mkfs`

The image is a disk on which block ownership holds, so that what is kept by every run of the
kernel's calls holds from the first boot on.
-/

namespace Xv6.Mkfs

open Fs Threads Transition

variable {s : Image} {fs : List Input} {d : Disk}

theorem Made.good (h : Made s fs d) (hle : fs.length + 2 ≤ ninodes) (hroot : ¬ 64 ∣ fs.length + 2) :
    Good superblock d := by
  obtain ⟨⟨hexact, hreserved⟩, -⟩ := h.holds.good
  have hused (b : ℕ) (hb : b < superblock.size) : d.used b = (view s).used b :=
    h.used b (hb.trans (by decide))
  refine ⟨⟨?_, fun b hb => ?_⟩, (h.no_holes_iff hle).2 hroot⟩
  · rw [funext h.holdings]
    refine ⟨hexact.pos, hexact.inj, hexact.range, fun b hlo hhi => ?_⟩
    rw [hused b hhi]
    exact hexact.marked b hlo hhi
  · rw [hused b (hb.trans (by decide))]
    exact hreserved b hb

/-- Whatever files `mkfs` was given, unless the entries of the root fill a block, every run of calls
of any processes on its image keeps block ownership and maps what is below the sizes, has the inodes
in memory as they are on disk, and never frees a free block. -/
theorem mkfs_image_runs (hle : fs.length + 2 ≤ ninodes) (hroot : ¬ 64 ∣ fs.length + 2) {img : Image}
    (hmkfs : main fs blank = .ok ((), img)) {n : ℕ} {ms : List (Move Op)} {t : Pool State Panic}
    (hrun : run (step (operate superblock)) (.quiet (boot (toDisk img.sectors) n)) ms = some t) :
    BlockOwnership superblock t.shared.disk ∧ NoHoles t.shared.disk ∧
      (∀ b < superblock.datastart, t.shared.disk.used b = true) ∧
      (∀ i, 0 < (t.shared.itable i).ref → (t.shared.itable i).valid = true →
        (t.shared.itable i).copy = t.shared.disk.dinode i ∧ (t.shared.disk.dinode i).type ≠ .none) ∧
      t.failed ≠ some .freeingFreeBlock := by
  obtain ⟨-, s, hmade, -⟩ := (main_spec fs hle).of_ok hmkfs
  obtain ⟨⟨G, hb⟩, hbad⟩ := operate_base (boot_rest _ n) (hmade.good hle hroot) hrun
  exact ⟨hb.good.owned.exact, hb.good.mapped, hb.good.owned.reserved, hb.coherent, hbad⟩

/-- What `main` does after it has cleared the disk and written the superblock. -/
def populate (files : List Input) : M Unit := do
  let rootino ← ialloc .dir
  if rootino = Fs.rootino then do
    iappend rootino (Dirent.encode ⟨rootino, dot⟩)
    iappend rootino (Dirent.encode ⟨rootino, dotdot⟩)
    files.forM (addFile rootino)
    fixRootSize rootino
    let s ← get
    balloc s.freeblock
  else throw .rootino

theorem main_eq (fs : List Input) : main fs blank = populate fs formatted := by
  obtain ⟨⟨⟩, s, hzero, rfl⟩ := wzeroes_spec (s := ⟨blank.sectors, 0, 1, nmeta⟩) fssize rfl
  have hformat : wsect 1 superSector ⟨fun _ _ => 0, max 0 fssize, 1, nmeta⟩ = .ok ((), formatted) :=
    rfl
  unfold main
  rw [bind_of_ok (a := ()) (t := ⟨blank.sectors, 0, 1, nmeta⟩) rfl, bind_of_ok hzero]
  exact bind_of_ok hformat

def mkdirA : List (Move Op) := Move.whole 0 (.call (.mkdir [47, 97])) 7

theorem mkfs_image_runs_few : ∃ img t, main (emptyFiles 3) blank = .ok ((), img) ∧
    run (step (operate superblock)) (.quiet (boot (toDisk img.sectors) 1)) mkdirA = some t ∧
    (t.shared.disk.dinode 5).type = .dir ∧ (t.code 0).ended = true ∧ NoHoles t.shared.disk := by
  have hfits : Fits (emptyFiles 3) := fits_of_names (by decide) (by decide) (by decide)
  obtain ⟨⟨⟩, img, hmkfs, -⟩ :=
    ((main_spec (emptyFiles 3) (by decide)).mono (fun _ _ h => h) fun _ hnot => hnot hfits).runs
  have hmkdir : (populate (emptyFiles 3) formatted).toOption.elim false (fun r =>
      (run (step (operate superblock)) (.quiet (boot (toDisk r.2.sectors) 1)) mkdirA).elim
        false fun t =>
        decide ((t.shared.disk.dinode 5).type = .dir ∧ (t.code 0).ended = true)) =
          true := by decide +kernel
  rw [← main_eq, hmkfs] at hmkdir
  dsimp only [Except.toOption, Option.elim_some] at hmkdir
  obtain ⟨t, hrun, hdec⟩ := exists_of_elim hmkdir
  obtain ⟨htype, hended⟩ := of_decide_eq_true hdec
  exact ⟨img, t, hmkfs, hrun, htype, hended,
    (mkfs_image_runs (by decide) (by decide) hmkfs hrun).2.1⟩

end Xv6.Mkfs
