import Xv6.FreshFs

/-!
# Ownership of disk blocks over whole runs

The functions of `kernel/fs.c` and the calls on them as one machine: any number of processes make
calls, and single `writei`, `itrunc`, `ialloc`, `iput` and `dirlink` on any inode, interleaved at
their sections. Block ownership, together with the mapping of every block below the size of its
inode and the bitmap bits of the blocks in front of the data area, is kept by every step, whether
`balloc` finds a block and however many bytes can be copied.
-/

namespace Xv6.Fs

open Act Threads Function Transition

section operations

variable (sb : Super) (p : ℕ)

/-- A string as `strncpy` and `strncmp` see it in a directory entry. -/
def cname (bytes : List UInt8) : Name := (bytes.takeWhile (· ≠ 0)).take dirsiz

def lockedWrite (i off : ℕ) (src : List UInt8) (avail : ℕ) : Act ℤ := do
  ilock p i
  let n ← onInode i fun d ip => writei sb d i ip off src avail
  iunlock p i
  return n

def lockedTrunc (i : ℕ) : Act Unit := do
  ilock p i
  truncate i
  iunlock p i
  return ()

def touch (i : ℕ) : Act Unit := do
  ilock p i
  iunlock p i
  return ()

inductive Op
  | call (c : Call)
  | writei (i off : ℕ) (src : List UInt8) (avail : ℕ)
  | itrunc (i : ℕ)
  | ialloc (type : IType)
  | iput (i : ℕ)
  | dirlink (d : ℕ) (name : List UInt8) (inum : ℕ)

def within {α : Type} (i : ℕ) (x : Act α) : Code Unit := do
  atom (enter p)
  atom (iget i)
  let _ ← atom x
  put i

def operate : Op → Code Unit
  | .call c => call sb p c
  | .writei i off src avail => within p i (lockedWrite sb p i off src avail)
  | .itrunc i => within p i (lockedTrunc p i)
  | .ialloc type => do
    atom (enter p)
    match ← atom (allocInode sb type) with
    | none => return ()
    | some inum => put inum
  | .iput i => within p i (touch p i)
  | .dirlink d name inum => within p d (linkEntry sb p d (cname name) inum)

end operations

section safety

variable {sb : Super} {n p i : ℕ} {g : Ghost}

def Freeing (e : Panic) : Prop := e = .freeingFreeBlock

def anyStep (_ _ : State) : Prop := True

/-- Block ownership is part of the base invariant; the machine of links has nothing to add. -/
theorem baseRules (sb : Super) (n : ℕ) : Rules sb n (fun _ => True) anyStep anyStep Freeing where
  step _ _ _ _ _ _ _ := ⟨trivial, trivial⟩
  minor e he hbad := by
    rw [hbad] at he
    exact he
  noType _ _ _ _ _ hbad := by cases hbad
  noLink _ _ _ _ _ hbad := by cases hbad

theorem safe_section {α : Type} {x : Act α} {Q : α → Ghost → Prop}
    (h : ∀ a : Sys, a.Ok → a.ghost p = g →
      Triple (At sb n a.ghost p g a.view a.procs) x (fun e => ¬ Freeing e) fun r t =>
        ∃ v' g', At sb n a.ghost p g' v' a.procs t ∧ g'.phase = .none ∧
          (∀ q, q ≠ p → Spares a.view v' (a.ghost q)) ∧ Q r g') :
    (baseRules sb n).Run p (atom x) g Q := by
  intro s G hI hg
  obtain ⟨hb, hok, -⟩ := hI
  have hout := h (sysOf s G) hok hg s (hb.at hg)
  refine ⟨fun e he => ?_, fun r t hr _ => ?_⟩
  · rw [he] at hout
    exact hout
  · rw [hr] at hout
    obtain ⟨v', g', hat', hph, hspares, hQ⟩ := hout
    refine ⟨trivial, g', ⟨hat'.1, fun q => ?_, trivial⟩, hQ⟩
    simp only [sysOf, hat'.2.1]
    by_cases hq : q = p
    · subst hq
      rw [update_self, hph]
      exact trivial
    · rw [update_of_ne hq]
      exact (hok q).spared (hspares q hq)

theorem Panic.Minor.not_freeing {e : Panic} (h : e.Minor) : ¬ Freeing e := by
  rintro rfl
  exact h

theorem NoType.not_freeing {v : View} {e : Panic} (h : NoType v i e) : ¬ Freeing e := by
  rcases h with hminor | ⟨rfl, -⟩
  · exact hminor.not_freeing
  · exact fun h => by cases h

theorem Spares.rewritten {v v' : View} (h : Rewritten v i v') (hi : i ∉ g.locks) :
    Spares v v' g := by
  obtain ⟨e, rfl⟩ := h.1
  refine ⟨fun _ _ _ => rfl, fun j hj _ => ⟨rfl, ?_⟩⟩
  have hne : j ≠ i := by
    rintro rfl
    exact hi hj
  exact update_of_ne hne ..

theorem safe_locked {α : Type} (hp : p < n) (hph : g.phase = .none) (hi : i ∈ g.refs)
    {x : Act α} (hx : ∀ (a : Sys) (g' : Ghost), i ∈ g'.locks →
      Triple (At sb n a.ghost p g' a.view a.procs) x Panic.Minor fun _ s =>
        ∃ v', Rewritten a.view i v' ∧ At sb n a.ghost p g' v' a.procs s) :
    (baseRules sb n).Run p
      (atom do ilock p i; let r ← x; iunlock p i; return r) g fun _ g' => g' = g := by
  apply safe_section
  intro a hok hg
  refine triple_locked hp hi (fun _ he => he.not_freeing) fun hnot _ hmine => ?_
  refine Triple.bind ((hx a _ (g.mem_addLock i)).conseq (fun _ he => he.not_freeing)
    fun _ _ hs => hs) ?_
  rintro r s ⟨v', hre, hat⟩
  exact triple_unlockWith hp (Ghost.dropLock_addLock hnot) (fun _ he => he.not_freeing)
    (fun t ht => ⟨v', g, ht, hph, fun q hq => .rewritten hre (hmine q hq), rfl⟩) s hat

theorem safe_iget (hp : p < n) (hph : g.phase = .none) (i : ℕ) :
    (baseRules sb n).Run p (atom (iget i)) g fun _ g' => g' = g.addRef i := by
  apply safe_section
  intro a _ _
  refine (triple_iget hp i).conseq (fun _ he => he.not_freeing) fun _ t ht => ?_
  exact ⟨a.view, g.addRef i, ht, hph, fun q _ => .refl _ _, rfl⟩

theorem safe_allocInode (hp : p < n) (hph : g.phase = .none) (type : IType) :
    (baseRules sb n).Run p (atom (allocInode sb type)) g
      fun r g' => g' = g.afterNamex r := by
  apply safe_section
  intro a _ _
  refine (triple_allocInode hp type).conseq (fun _ he => he.not_freeing) ?_
  rintro r t ⟨v', g', halloc, ht⟩
  cases r with
  | none =>
    obtain ⟨rfl, rfl⟩ := halloc
    exact ⟨_, _, ht, hph, fun q _ => .refl _ _, rfl⟩
  | some inum =>
    obtain ⟨-, -, hfree, rfl, rfl⟩ := halloc
    refine ⟨_, _, ht, hph, fun q _ => .alloc hfree fun j hj => ?_, rfl⟩
    exact View.alloc_dots_of_ne hj type 0 0

theorem cname_ok (bytes : List UInt8) : (cname bytes).Ok := by
  refine ⟨fun b hb => ?_, List.length_take_le _ _⟩
  simpa using List.mem_takeWhile_imp ((List.take_sublist _ _).subset hb)

theorem safe_linkEntry (hp : p < n) (hph : g.phase = .none) {d : ℕ} (hd : d ∈ g.refs) {name : Name}
    (hname : name.Ok) (inum : ℕ) :
    (baseRules sb n).Run p (atom (linkEntry sb p d name inum)) g
      fun _ g' => g' = g := by
  apply safe_section
  intro a _ _
  refine (triple_linkEntry hp hd hname inum).conseq (fun _ he => he.not_freeing) ?_
  rintro r t ⟨v', hlinked, hmine, ht⟩
  refine ⟨v', g, ht, hph, fun q hq => ?_, rfl⟩
  rcases hlinked with ⟨-, rfl⟩ | ⟨-, -, -, k, -, -, rfl⟩
  · exact .refl _ _
  · exact .setEnt (hmine q hq) _ _

theorem safe_within {α : Type} {x : Act α}
    (hx : p < n → (baseRules sb n).Run p (atom x)
      (Ghost.idle.addRef i) fun _ g' => g' = Ghost.idle.addRef i) :
    (baseRules sb n).Run p (within p i x) Ghost.idle fun _ g' => g' = Ghost.idle := by
  have R := baseRules sb n
  apply Safe.bind (R.safe (sim_enter (g := Ghost.idle)))
  rintro _ _ ⟨rfl, hp⟩
  apply Safe.bind (safe_iget hp rfl i)
  rintro _ _ rfl
  apply Safe.bind (hx hp)
  rintro _ _ rfl
  exact R.safe_putTop hp (.of_none rfl rfl) i

theorem safe_operate (p : ℕ) (op : Op) :
    (baseRules sb n).Run p (operate sb p op) Ghost.idle fun _ g' =>
      g' = Ghost.idle := by
  have R := baseRules sb n
  cases op with
  | call c => exact R.safe_call p c
  | writei i off src avail =>
    refine safe_within fun hp => ?_
    exact safe_locked hp rfl (Ghost.idle.mem_addRef i) fun a g' hi =>
      triple_writei hp hi off src avail
  | itrunc i =>
    refine safe_within fun hp => ?_
    exact safe_locked hp rfl (Ghost.idle.mem_addRef i) fun a g' hi => triple_truncate hp hi
  | ialloc type =>
    apply Safe.bind (R.safe (sim_enter (g := Ghost.idle)))
    rintro _ _ ⟨rfl, hp⟩
    apply Safe.bind (safe_allocInode hp rfl type)
    rintro r _ rfl
    cases r with
    | none => exact rfl
    | some inum => exact R.safe_putTop hp (.of_none rfl rfl) inum
  | iput i =>
    refine safe_within fun hp => ?_
    refine safe_locked (x := pure ()) hp rfl (Ghost.idle.mem_addRef i) fun a g' _ => ?_
    refine Triple.pure fun s hs => ⟨a.view, ⟨⟨a.view.ent i, ?_⟩, fun _ => rfl⟩, hs⟩
    rw [update_eq_self]
  | dirlink d name inum =>
    refine safe_within fun hp => ?_
    exact safe_linkEntry hp rfl (Ghost.idle.mem_addRef d) (cname_ok name) inum

end safety

/-- The non-zero block numbers that allocated inodes hold are distinct, lie in the data area and
are the data blocks in use. -/
def BlockOwnership (sb : Super) (d : Disk) : Prop :=
  Ownership.Exact (holdings d.data d.dinode) sb.datastart sb.size d.used

def NoHoles (d : Disk) : Prop :=
  ∀ i, (d.dinode i).type ≠ .none → MappedTo d.data (d.dinode i) (d.dinode i).size

theorem operate_base {sb : Super} {n : ℕ} {s : State} (hrest : Rest n s) (hgood : Good sb s.disk)
    {ms : List (Move Op)} {t : Pool State Panic}
    (hrun : run (step (operate sb)) (.quiet s) ms = some t) :
    (∃ G, Base sb n t.shared G) ∧ t.failed ≠ some .freeingFreeBlock := by
  have hend : PoolInv (Inv sb n fun _ => True) anyStep anyStep Freeing Ghost.idle t :=
    (PoolInv.quiet (hrest.inv hgood trivial)).run (fun _ => trivial) safe_operate
      (.mono (fun _ _ _ => fun _ _ => trivial) (along_true _ ms)) hrun
  obtain ⟨hbad, G, ⟨hb, -, -⟩, -⟩ := hend
  exact ⟨⟨G, hb⟩, fun hf => hbad _ hf rfl⟩

/-- From any state with block ownership in which every block below a size is mapped and the bits of
the blocks in front of the data area are set, every run keeps all of this and never frees a free
block. -/
theorem block_ownership_run {sb : Super} {n : ℕ} {s : State} (hrest : Rest n s)
    (hown : BlockOwnership sb s.disk) (hmapped : NoHoles s.disk)
    (hmeta : ∀ b < sb.datastart, s.disk.used b = true) {ms : List (Move Op)} {t : Pool State Panic}
    (hrun : run (step (operate sb)) (.quiet s) ms = some t) :
    BlockOwnership sb t.shared.disk ∧ NoHoles t.shared.disk ∧
    (∀ b < sb.datastart, t.shared.disk.used b = true) ∧
      t.failed ≠ some .freeingFreeBlock := by
  obtain ⟨⟨G, hb⟩, hbad⟩ := operate_base hrest ⟨⟨hown, hmeta⟩, hmapped⟩ hrun
  exact ⟨hb.good.owned.exact, hb.good.mapped, hb.good.owned.reserved, hbad⟩

/-- Process 0 writes behind the end of the root directory, for `m` sections. -/
def growRoot (m : ℕ) : List (Move Op) :=
  .start 0 (.writei rootino 1024 (List.replicate deSize 0) deSize) :: List.replicate m (.step 0)

def writeThenMkdir : List (Move Op) :=
  growRoot 4 ++ .start 0 (.call (.mkdir [47, 97])) :: List.replicate 7 (.step 0)

theorem block_ownership_run_writeThenMkdir :
    ∃ t, run (step (operate superblock)) (.quiet (boot image 1)) writeThenMkdir =
      some t ∧ BlockOwnership superblock t.shared.disk ∧ NoHoles t.shared.disk ∧
      (∀ b < superblock.datastart, t.shared.disk.used b = true) ∧
      t.failed ≠ some .freeingFreeBlock := by
  have hsome : (run (step (operate superblock)) (.quiet (boot image 1))
      writeThenMkdir).isSome = true := by decide +kernel
  obtain ⟨t, ht⟩ := Option.isSome_iff_exists.1 hsome
  exact ⟨t, ht, block_ownership_run (boot_rest image 1) image_good.owned.exact image_good.mapped
    image_good.owned.reserved ht⟩

/-- The image with the bit of the last block in front of the data area cleared. -/
def unreserved : Disk := { image with used := fun b => b ≤ 46 ∧ b ≠ 45 }

theorem unreserved_ownership : BlockOwnership superblock unreserved := by
  have h := image_good.owned.exact
  refine ⟨h.pos, h.inj, h.range, fun b hlo hhi => ?_⟩
  have hlo' : 46 ≤ b := hlo
  refine Iff.trans ?_ (h.marked b hlo hhi)
  simp only [unreserved, image, decide_eq_true_eq]
  omega

/-- Without those bits ownership and mapping are not kept: the first block that `balloc` hands out,
to a write behind the end of the root directory, holds the bitmap. -/
theorem block_ownership_unreserved :
    BlockOwnership superblock unreserved ∧ NoHoles unreserved ∧ Rest 1 (boot unreserved 1) ∧
      ∃ t, run (step (operate superblock)) (.quiet (boot unreserved 1)) (growRoot 3) = some t ∧
        ¬ BlockOwnership superblock t.shared.disk := by
  refine ⟨unreserved_ownership, image_good.mapped, boot_rest unreserved 1, ?_⟩
  have hrun : (run (step (operate superblock)) (.quiet (boot unreserved 1)) (growRoot 3)).elim false
      (fun t => holdings t.shared.disk.data t.shared.disk.dinode (rootino, 1) = 45) =
      true := by decide +kernel
  obtain ⟨t, ht, hdec⟩ := exists_of_elim hrun
  have hhold := of_decide_eq_true hdec
  refine ⟨t, ht, fun hown => ?_⟩
  have hrange := hown.range (rootino, 1) (by rw [hhold]; decide)
  rw [hhold] at hrange
  exact absurd hrange.1 (by decide)

end Xv6.Fs
