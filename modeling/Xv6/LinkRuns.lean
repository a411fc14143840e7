import Xv6.LinkBound

/-!
# Links in every run

From an image of `mkfs`, every inode that an entry names has a positive count in every state of a
tame run. The entries "." and ".." of a removed directory, which may still be somebody's working
directory, are the only exception.
-/

namespace Xv6.Fs

open Threads

variable {sb : Super} {n : ℕ} {d : Disk}

theorem Fresh.plain_iff (h : Fresh sb d) (i k : ℕ) :
    (d.view.ent i k).Plain ↔ i = rootino ∧ 2 ≤ k ∧ (d.view.ent rootino k).inum ≠ 0 := by
  constructor
  · intro hp
    have hi : i = rootino := by
      by_contra hne
      have hdir := h.good.view_wf.dir i k hp.1
      have hfile := (h.named i (by rw [hdir]; decide) hne).1
      rw [hdir] at hfile
      cases hfile
    subst hi
    refine ⟨rfl, ?_, hp.1⟩
    by_contra hlt
    obtain rfl | rfl : k = 0 ∨ k = 1 := by omega
    · rw [h.dot] at hp
      exact View.dot_not_plain _ hp
    · rw [h.dotdot] at hp
      exact View.dotdot_not_plain _ hp
  · rintro ⟨rfl, hk, hlive⟩
    obtain ⟨hdot, hdotdot, -⟩ := h.file k hk hlive
    exact ⟨hlive, hdot, hdotdot⟩

theorem Fresh.named_eq (h : Fresh sb d) {i : ℕ} (hi : d.view.type i ≠ .none) :
    d.view.named sb.ninodes i = if i = rootino then 0 else 1 := by
  by_cases hroot : i = rootino
  · rw [if_pos hroot]
    apply Finset.card_eq_zero.2
    apply Finset.filter_eq_empty_iff.2
    rintro ⟨j, k⟩ - ⟨hp, hinum⟩
    obtain ⟨rfl, hk, hlive⟩ := (h.plain_iff j k).1 hp
    have hfile := (h.file k hk hlive).2.2
    simp only at hinum
    rw [hinum, hroot, h.root] at hfile
    cases hfile
  · rw [if_neg hroot]
    apply le_antisymm
    · apply Finset.card_le_one.2
      rintro ⟨j, k⟩ hjk ⟨j', k'⟩ hjk'
      obtain ⟨-, hp, hinum⟩ := Finset.mem_filter.1 hjk
      obtain ⟨-, hp', hinum'⟩ := Finset.mem_filter.1 hjk'
      obtain ⟨rfl, hk, hlive⟩ := (h.plain_iff j k).1 hp
      obtain ⟨rfl, hk', -⟩ := (h.plain_iff j' k').1 hp'
      have hkk := h.inj k k' hk hk' hlive (by rw [hinum, hinum'])
      rw [hkk]
    · obtain ⟨-, k, hk, hinum⟩ := h.named i hi hroot
      have hne : i ≠ 0 := by
        rintro rfl
        exact hi h.zero
      have hp := (h.plain_iff rootino k).2 ⟨rfl, hk, by rwa [hinum]⟩
      by_contra hlt
      exact View.named_eq_zero h.good.view_wf h.inside (by omega) rootino k hp hinum

theorem Fresh.subdirs (h : Fresh sb d) (i : ℕ) : d.view.subdirs i = 0 := by
  apply Finset.card_eq_zero.2
  apply Finset.filter_eq_empty_iff.2
  rintro k - ⟨hp, hdir⟩
  obtain ⟨rfl, hk, hlive⟩ := (h.plain_iff i k).1 hp
  rw [(h.file k hk hlive).2.2] at hdir
  cases hdir

theorem Fresh.counted (h : Fresh sb d) (n m : ℕ) :
    (sysOf (boot d n) fun _ => Ghost.idle).Counted sb m where
  zero := h.zero
  inside := h.inside
  root := by
    change d.view.type rootino ≠ .none
    rw [h.root]
    decide
  alloc i k hp := by
    obtain ⟨rfl, hk, hlive⟩ := (h.plain_iff i k).1 hp
    change d.view.type (d.view.ent rootino k).inum ≠ .none
    rw [(h.file k hk hlive).2.2]
    decide
  nlink i hi := by
    have hnamed := h.named_eq hi
    have hpend : (sysOf (boot d n) fun _ => Ghost.idle).pend m i = 0 :=
      Finset.sum_eq_zero fun _ _ => rfl
    change d.view.nlink i = ((d.view.links sb.ninodes i + _ : ℕ) : ℤ)
    rw [h.nlink i hi, hpend, View.links, h.subdirs]
    split_ifs at hnamed ⊢ <;> omega
  rootDots := ⟨h.dot, h.dotdot, fun k hk hlive => (h.plain_iff rootino k).2 ⟨rfl, hk, hlive⟩⟩
  dots i k hp hdir := by
    obtain ⟨rfl, hk, hlive⟩ := (h.plain_iff i k).1 hp
    exact absurd ((h.file k hk hlive).2.2.symm.trans hdir) (by decide)
  tree i k hp := .inl ((h.plain_iff i k).1 hp).1

/-- An entry in use that is not "." or ".." of a directory that has left the tree. -/
def View.Standing (v : View) (d k : ℕ) : Prop :=
  (v.ent d k).inum ≠ 0 ∧ ((v.ent d k).Plain ∨ v.InTree d)

/-- A section frees an inode only when no entry names it. -/
def FreesUnnamed (s t : State) : Prop :=
  ∀ i, s.disk.view.type i ≠ .none → t.disk.view.type i = .none →
    ∀ d k, s.disk.view.Standing d k → (s.disk.view.ent d k).inum ≠ i

def TameStep (sb : Super) (n : ℕ) (s t : State) : Prop := Tame sb.ninodes n s.disk.view t.disk.view

theorem Base.inside_or_idle {s t : State} {G : ℕ → Ghost} {p : ℕ} {g' : Ghost}
    (h : Base sb n s G) (h' : Base sb n t (Function.update G p g')) :
    p < n ∨ (G p).phase = .none ∧ g'.phase = .none := by
  by_cases hp : p < n
  · exact .inl hp
  · have hidle := (h.outside p (by omega)).2
    have hidle' := (h'.outside p (by omega)).2
    rw [Function.update_self] at hidle'
    rw [hidle, hidle']
    exact .inr ⟨rfl, rfl⟩

theorem countedRules : Rules sb n (Sys.Counted sb n)
    (TameStep sb n) FreesUnnamed (· = .unlinkNlink) where
  step := by
    intro s t G p g' proc' hbase hok hL hbase' hprocs hstep htame
    have hwf := hbase.good.view_wf
    refine ⟨fun i hi hfree d k hentry => ?_, ?_⟩
    · rintro rfl
      have hpos : 1 ≤ (sysOf s G).view.nlink (s.disk.view.ent d k).inum :=
        hL.nlink_pos_of_entry hwf hentry.1 hentry.2
      rcases hstep.type_cases (s.disk.view.ent d k).inum with heq | ⟨hnone, -⟩ | ⟨hzero, -⟩
      · exact hi (heq.symm.trans hfree)
      · exact hi hnone
      · omega
    · rw [sysOf_after hprocs]
      exact hstep.counted hok hL hwf hbase'.good.view_wf htame (hbase.inside_or_idle hbase')
  minor := by
    rintro e hminor rfl
    exact hminor
  noType := by
    intro s G p i hbase hok hL hi hty heq
    cases heq
  noLink := by
    intro s G p d k i hbase hok hL hph hlink _
    have hvalid := hok p
    change (G p).phase.Valid s.disk.view (G p) at hvalid
    rw [hph] at hvalid
    obtain ⟨-, -, -, name, hent, hlive, hdot, hdotdot⟩ := hvalid
    have hplain : (s.disk.view.ent d k).Plain := by
      rw [hent]
      exact ⟨hlive, hdot, hdotdot⟩
    have hcount := hL.nlink_pos_of_entry hbase.good.view_wf hplain.1 (.inl hplain)
    change 1 ≤ s.disk.view.nlink (s.disk.view.ent d k).inum at hcount
    rw [hent] at hcount
    exact absurd hcount (by simp only; omega)

/-- The root is the only directory, and its size allows few entries. -/
def Flat (m n : ℕ) (d : Disk) : Prop :=
  (∀ i < m, (d.dinode i).type = .dir → i = rootino) ∧
    2 * ((d.dinode rootino).size / deSize) + 1 + n < 32767

instance (m n : ℕ) (d : Disk) : Decidable (Flat m n d) :=
    inferInstanceAs (Decidable ((∀ i < m, _ → _) ∧ _))

theorem Flat.tame {m : ℕ} (h : Flat m n d) (v' : View) : Tame m n d.view v' := by
  have hlive {i k : ℕ} (hi : i < m) (hp : (d.view.ent i k).Plain) :
      i = rootino ∧ k < (d.dinode rootino).size / deSize := by
    have hdir : (d.dinode i).type = .dir := by
      by_contra hne
      exact hp.1 (by simp [Disk.view, hne])
    obtain rfl := h.1 i hi hdir
    refine ⟨rfl, ?_⟩
    by_contra hge
    apply hp.1
    simp only [Disk.view, if_pos hdir]
    rw [slot_of_gt]
    simp only [deSize] at hge ⊢
    omega
  refine ⟨fun i hi => ?_, fun i hi k hdir _ _ => .inl (h.1 i hi hdir)⟩
  have hnamed : d.view.named m i ≤ (d.dinode rootino).size / deSize := by
    refine (Finset.card_le_card (t := {rootino} ×ˢ Finset.range ((d.dinode rootino).size / deSize))
      ?_).trans (by simp)
    rintro ⟨j, k⟩ hjk
    obtain ⟨hmem, hp, -⟩ := Finset.mem_filter.1 hjk
    obtain ⟨hj, hk⟩ := hlive (Finset.mem_range.1 (Finset.mem_product.1 hmem).1) hp
    exact Finset.mem_product.2 ⟨Finset.mem_singleton.2 hj, Finset.mem_range.2 hk⟩
  have hsub : d.view.subdirs i ≤ (d.dinode rootino).size / deSize := by
    refine (Finset.card_le_card (t := Finset.range ((d.dinode rootino).size / deSize)) ?_).trans
      (by simp)
    intro k hk
    exact Finset.mem_range.2 (hlive hi (Finset.mem_filter.1 hk).2.1).2
  have hsmall := h.2
  unfold View.links
  split_ifs <;> omega

def createThenLink : List (Move Call) :=
  .start 0 (.open [47, 102] 0x200) :: List.replicate 6 (.step 0) ++
    .start 0 (.link [47, 102] [47, 103]) :: List.replicate 10 (.step 0)

end Xv6.Fs
