import Xv6.Counting
import Xv6.FreshFs

/-!
# Counting links

The entries that count are those other than "." and "..". `named` counts the entries that name an
inode and `subdirs` those of a directory that name directories; together with one for the root they
are the links an inode has. A change of one slot changes the two counts by the weight of the old and
of the new entry.
-/

namespace Xv6.Fs

open Finset

/-- An entry in use other than "." and "..". -/
def Dirent.Plain (e : Dirent) : Prop := e.inum ≠ 0 ∧ e.name ≠ dot ∧ e.name ≠ dotdot

instance (e : Dirent) : Decidable e.Plain := inferInstanceAs (Decidable (_ ∧ _ ∧ _))

def dirSlots : ℕ := maxfile * bsize / deSize

namespace View

variable (v : View) (m : ℕ)

def named (i : ℕ) : ℕ :=
  ((range m ×ˢ range dirSlots).filter fun x =>
    (v.ent x.1 x.2).Plain ∧ (v.ent x.1 x.2).inum = i).card

def subdirs (d : ℕ) : ℕ :=
  ((range dirSlots).filter fun k =>
    (v.ent d k).Plain ∧ v.type (v.ent d k).inum = .dir).card

def links (i : ℕ) : ℕ := v.named m i + v.subdirs i + if i = rootino then 1 else 0

/-- What entry `e` of directory `d` adds to the links of inode `i`. -/
def weight (d : ℕ) (e : Dirent) (i : ℕ) : ℕ :=
  (if e.Plain ∧ e.inum = i then 1 else 0) +
    if i = d ∧ e.Plain ∧ v.type e.inum = .dir then 1 else 0

variable {v m}

theorem weight_of_not_plain {e : Dirent} (he : ¬ e.Plain) (d i : ℕ) : v.weight d e i = 0 := by
  simp [weight, he]

theorem named_setEnt {d k : ℕ} (hd : d < m) (hk : k < dirSlots) (e : Dirent) (i : ℕ) :
    (v.setEnt d k e).named m i + (if (v.ent d k).Plain ∧ (v.ent d k).inum = i then 1 else 0) =
      v.named m i + if e.Plain ∧ e.inum = i then 1 else 0 := by
  have hmem : (d, k) ∈ range m ×ˢ range dirSlots :=
    mk_mem_product (Finset.mem_range.2 hd) (Finset.mem_range.2 hk)
  have hent : (v.setEnt d k e).ent d k = e := by simp [setEnt]
  have hcard := Counting.card_filter_change hmem
    (A := fun x => (v.ent x.1 x.2).Plain ∧ (v.ent x.1 x.2).inum = i)
    (B := fun x => ((v.setEnt d k e).ent x.1 x.2).Plain ∧ ((v.setEnt d k e).ent x.1 x.2).inum = i)
    (by
      rintro ⟨d', k'⟩ hne
      have hsame : (v.setEnt d k e).ent d' k' = v.ent d' k' := by
        by_cases hd' : d' = d
        · subst hd'
          have hk' : k' ≠ k := fun h => hne (by rw [h])
          simp [setEnt, hk']
        · simp [setEnt, hd']
      simp only [hsame])
  simp only [hent] at hcard
  exact hcard

theorem subdirs_setEnt_self {d k : ℕ} (hk : k < dirSlots) (e : Dirent) :
    (v.setEnt d k e).subdirs d +
        (if (v.ent d k).Plain ∧ v.type (v.ent d k).inum = .dir then 1 else 0) =
      v.subdirs d + if e.Plain ∧ v.type e.inum = .dir then 1 else 0 := by
  have hent : (v.setEnt d k e).ent d k = e := by simp [setEnt]
  have hcard := Counting.card_filter_change (Finset.mem_range.2 hk)
    (A := fun k' => (v.ent d k').Plain ∧ v.type (v.ent d k').inum = .dir)
    (B := fun k' => ((v.setEnt d k e).ent d k').Plain ∧
      v.type ((v.setEnt d k e).ent d k').inum = .dir)
    (by
      intro k' hk'
      have hsame : (v.setEnt d k e).ent d k' = v.ent d k' := by simp [setEnt, hk']
      simp only [hsame])
  simp only [hent] at hcard
  exact hcard

theorem subdirs_setEnt_of_ne {d i : ℕ} (hi : i ≠ d) (k : ℕ) (e : Dirent) :
    (v.setEnt d k e).subdirs i = v.subdirs i := by
  have hrow : (v.setEnt d k e).ent i = v.ent i := by simp [setEnt, hi]
  have htype : (v.setEnt d k e).type = v.type := rfl
  simp only [subdirs, hrow, htype]

/-- A change of one slot changes the links by the weights of the old and of the new entry. -/
theorem links_setEnt {d k : ℕ} (hd : d < m) (hk : k < dirSlots) (e : Dirent) (i : ℕ) :
    (v.setEnt d k e).links m i + v.weight d (v.ent d k) i = v.links m i + v.weight d e i := by
  have hnamed := named_setEnt (v := v) hd hk e i
  unfold links weight
  by_cases hi : i = d
  · subst hi
    have hsub := subdirs_setEnt_self (v := v) (d := i) hk e
    simp only [true_and]
    omega
  · rw [subdirs_setEnt_of_ne hi]
    simp only [hi, false_and, if_false]
    omega

variable {v' : View}

theorem links_le (h : ∀ d k, (v'.ent d k).Plain → v'.ent d k = v.ent d k)
    (ht : ∀ d k, (v'.ent d k).Plain → v'.type (v'.ent d k).inum = .dir →
      v.type (v'.ent d k).inum = .dir) (i : ℕ) : v'.links m i ≤ v.links m i := by
  have hnamed : v'.named m i ≤ v.named m i := by
    apply card_le_card
    intro x hx
    simp only [mem_filter] at hx ⊢
    rw [← h x.1 x.2 hx.2.1]
    exact hx
  have hsub : v'.subdirs i ≤ v.subdirs i := by
    apply card_le_card
    intro k hk
    simp only [mem_filter] at hk ⊢
    refine ⟨hk.1, ?_⟩
    rw [← h i k hk.2.1]
    exact ⟨hk.2.1, ht i k hk.2.1 hk.2.2⟩
  unfold links
  omega

structure SamePlain (v v' : View) : Prop where
  old : ∀ d k, (v.ent d k).Plain → v.ent d k = v'.ent d k
  new : ∀ d k, (v'.ent d k).Plain → v'.ent d k = v.ent d k
  type : ∀ d k, (v.ent d k).Plain →
    (v.type (v.ent d k).inum = .dir ↔ v'.type (v.ent d k).inum = .dir)

theorem SamePlain.links (h : SamePlain v v') (i : ℕ) : v'.links m i = v.links m i := by
  apply le_antisymm
  · refine links_le h.new (fun d k hp hdir => ?_) i
    have heq := h.new d k hp
    rw [heq] at hp hdir ⊢
    exact (h.type d k hp).2 hdir
  · refine links_le h.old (fun d k hp hdir => ?_) i
    exact (h.type d k hp).1 hdir

/-- What holds of the view of every good disk: only directories have entries, and no more than
their size allows. -/
structure Wf (v : View) : Prop where
  dir : ∀ d k, (v.ent d k).inum ≠ 0 → v.type d = .dir
  slot : ∀ d k, (v.ent d k).inum ≠ 0 → k < dirSlots

theorem dot_not_plain (i : ℕ) : ¬ (⟨i, dot⟩ : Dirent).Plain := fun h => h.2.1 rfl

theorem dotdot_not_plain (i : ℕ) : ¬ (⟨i, dotdot⟩ : Dirent).Plain := fun h => h.2.2 rfl

theorem free_not_plain (name : Name) : ¬ (⟨0, name⟩ : Dirent).Plain := fun h => h.1 rfl

theorem dots_not_plain {inum : ℕ} (hnew : ∀ k, (v.ent inum k).inum = 0) (d k j : ℕ) :
    ¬ ((v.dots inum d k).ent inum j).Plain := by
  have hfree (j : ℕ) : ¬ (v.ent inum j).Plain := fun h => h.1 (hnew j)
  unfold dots
  split
  · exact hfree j
  · by_cases hj : j = 0
    · subst hj
      simpa [setEnt] using dot_not_plain _
    · simpa [setEnt, hj] using hfree j
  · by_cases hj : j = 1
    · subst hj
      simpa [setEnt] using dotdot_not_plain _
    · by_cases hj0 : j = 0
      · subst hj0
        simpa [setEnt] using dot_not_plain _
      · simpa [setEnt, hj, hj0] using hfree j

/-- A free inode that no entry names is taken, and gets the entries of a directory. -/
theorem SamePlain.alloc {inum : ℕ} (hnew : ∀ k, (v.ent inum k).inum = 0)
    (hnone : ∀ d k, (v.ent d k).Plain → (v.ent d k).inum ≠ inum) (type : IType) (n : ℤ) (d k : ℕ) :
    SamePlain v (((v.alloc inum type).setNlink inum n).dots inum d k) := by
  have hrow {j : ℕ} (hj : j ≠ inum) : (((v.alloc inum type).setNlink inum n).dots inum d k).ent j =
      v.ent j := by
    rw [dots_of_ne hj]
    rfl
  refine ⟨fun j l hp => ?_, fun j l hp => ?_, fun j l hp => ?_⟩
  · have hj : j ≠ inum := by
      rintro rfl
      exact hp.1 (hnew l)
    rw [hrow hj]
  · have hj : j ≠ inum := by
      rintro rfl
      exact dots_not_plain (v := (v.alloc j type).setNlink j n) hnew d k l hp
    rw [hrow hj]
  · rw [dots_type]
    have hne := hnone j l hp
    simp [View.setNlink, View.alloc, hne]

end View

theorem Good.view_wf {sb : Super} {d : Disk} (h : Good sb d) : d.view.Wf := by
  have hdir (i k : ℕ) (hk : (d.view.ent i k).inum ≠ 0) : (d.dinode i).type = .dir := by
    by_contra hne
    simp [Disk.view, hne] at hk
  refine ⟨hdir, fun i k hk => ?_⟩
  have hty := hdir i k hk
  simp only [Disk.view, if_pos hty] at hk
  have hsize : deSize * (k + 1) ≤ (d.dinode i).size := by
    by_contra hgt
    rw [slot_of_gt (by omega)] at hk
    exact hk rfl
  have hmap := (h.mapped i (by rw [hty]; decide)).le_maxfile
  unfold dirSlots
  rw [Nat.lt_div_iff_mul_lt (by decide)]
  have hde : deSize = 16 := rfl
  rw [hde] at hsize ⊢
  omega

end Xv6.Fs
