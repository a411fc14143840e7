import Xv6.LinkCount

/-!
# Link counts are the entries

The count of an allocated inode is the number of its links and of what is pending for it in the
middle of calls. Two things could break the equation: a count that goes up from the largest `short`,
and a directory that gets entries after it was removed, since these vanish with it. `Tame` excludes
the first by a bound on the entries and the second by asking that the directory is still in the
tree. -/

namespace Xv6.Fs

open Function Finset

/-- The count that a process has still to give to the entries, or to take. -/
def Phase.pend : Phase → ℕ → ℕ
  | linking j, i | erased j, i => if i = j then 1 else 0
  | _, _ => 0

def Sys.pend (a : Sys) (n i : ℕ) : ℕ := ∑ p ∈ range n, (a.ghost p).phase.pend i

/-- The root, and what an entry other than "." and ".." names. -/
def View.InTree (v : View) (i : ℕ) : Prop :=
  i = rootino ∨ ∃ d k, (v.ent d k).Plain ∧ (v.ent d k).inum = i

/-- A step between views in which `n` processes cannot bring a count to the largest `short`, and
which adds entries only to directories that are in the tree. -/
structure Tame (m n : ℕ) (v v' : View) : Prop where
  few : ∀ i < m, v.links m i + n < 32767
  added : ∀ d < m, ∀ k, v.type d = .dir → (v'.ent d k).inum ≠ 0 →
    v'.ent d k ≠ v.ent d k → v.InTree d

/-- Directory `d` starts with "." and ".." for the parent `d'`, and these names stand nowhere
else. -/
structure View.Dots (v : View) (d' d : ℕ) : Prop where
  dot : v.ent d 0 = ⟨d, dot⟩
  dotdot : v.ent d 1 = ⟨d', dotdot⟩
  rest : ∀ k, 2 ≤ k → (v.ent d k).inum ≠ 0 → (v.ent d k).Plain

def Sys.Balanced (sb : Super) (n : ℕ) (a : Sys) : Prop :=
  ∀ i, a.view.type i ≠ .none → a.view.nlink i = (a.view.links sb.ninodes i + a.pend n i : ℕ)

structure Sys.Counted (sb : Super) (n : ℕ) (a : Sys) : Prop where
  zero : a.view.type 0 = .none
  inside : ∀ i, a.view.type i ≠ .none → i < sb.ninodes
  root : a.view.type rootino ≠ .none
  alloc : ∀ d k, (a.view.ent d k).Plain → a.view.type (a.view.ent d k).inum ≠ .none
  nlink : a.Balanced sb n
  rootDots : a.view.Dots rootino rootino
  dots : ∀ d k, (a.view.ent d k).Plain → a.view.type (a.view.ent d k).inum = .dir →
    a.view.Dots d (a.view.ent d k).inum
  tree : ∀ d k, (a.view.ent d k).Plain → a.view.InTree d

theorem incShort_of_lt {x : ℤ} (hlo : -32768 ≤ x) (hhi : x < 32767) : incShort x = x + 1 := by
  unfold incShort
  rw [Int.bmod_eq_of_le] <;> omega

theorem decShort_of_pos {x : ℤ} (hlo : 1 ≤ x) (hhi : x ≤ 32767) : decShort x = x - 1 := by
  unfold decShort
  rw [Int.bmod_eq_of_le] <;> omega

theorem Super.mod_inum {sb : Super} {i : ℕ} (hi : i < sb.ninodes) : i % 65536 = i := by
  have hle := sb.ninodes_le
  exact Nat.mod_eq_of_lt (by omega)

section step

variable {sb : Super} {n p d k i inum : ℕ} {a : Sys} {v' : View} {g' : Ghost} {proc' : Proc}
    {v : View} {name : Name}
  {type : IType}

theorem Sys.Ok.pend_eq_zero (hok : a.Ok) (hi : a.view.type i = .none) : a.pend n i = 0 := by
  apply sum_eq_zero
  intro q _
  have hq := hok q
  cases hph : (a.ghost q).phase with
  | none | found | dropping => rfl
  | linking j =>
    rw [hph] at hq
    have hne : i ≠ j := by
      rintro rfl
      exact hq.2.2 hi
    simp [Phase.pend, hne]
  | erased j =>
    rw [hph] at hq
    have hne : i ≠ j := by
      rintro rfl
      exact hq.2.2.1 hi
    simp [Phase.pend, hne]

theorem View.named_eq_zero {m : ℕ} (hwf : v.Wf)
    (hin : ∀ d, v.type d ≠ .none → d < m) (h : v.named m i = 0) (d k : ℕ)
    (hp : (v.ent d k).Plain) : (v.ent d k).inum ≠ i := by
  rintro rfl
  have hd : d < m := hin d (by rw [hwf.dir d k hp.1]; decide)
  have hmem : (d, k) ∈ (range m ×ˢ range dirSlots).filter fun x =>
      (v.ent x.1 x.2).Plain ∧ (v.ent x.1 x.2).inum = (v.ent d k).inum :=
    Finset.mem_filter.2 ⟨mk_mem_product (Finset.mem_range.2 hd)
      (Finset.mem_range.2 (hwf.slot d k hp.1)), hp, rfl⟩
  rw [Finset.card_eq_zero.1 h] at hmem
  exact notMem_empty _ hmem

theorem View.Wf.links_pos (hwf : v.Wf) {m : ℕ} (hin : ∀ d, v.type d ≠ .none → d < m)
    (hp : (v.ent d k).Plain) : 0 < v.links m (v.ent d k).inum := by
  have hnamed : v.named m (v.ent d k).inum ≠ 0 := fun hzero =>
    View.named_eq_zero hwf hin hzero d k hp rfl
  unfold View.links
  omega

theorem Sys.Counted.links_pos_of_inTree (hb : a.Counted sb n) (hwf : a.view.Wf)
    (hi : a.view.InTree i) : 0 < a.view.links sb.ninodes i := by
  obtain rfl | ⟨d, k, hp, rfl⟩ := hi
  · simp [View.links]
  · exact hwf.links_pos hb.inside hp

theorem Sys.Counted.nlink_pos (hb : a.Counted sb n) (hwf : a.view.Wf)
    (hi : a.view.type i ≠ .none) (htree : a.view.InTree i) : 1 ≤ a.view.nlink i := by
  have heq := hb.nlink i hi
  have hpos := hb.links_pos_of_inTree hwf htree
  omega

theorem Phase.pend_le (ph : Phase) (i : ℕ) : ph.pend i ≤ 1 := by
  cases ph with
  | none | found | dropping => exact Nat.zero_le 1
  | linking | erased =>
    simp only [Phase.pend]
    split_ifs <;> omega

theorem Sys.Counted.nlink_lt (hb : a.Counted sb n) (htame : Tame sb.ninodes n a.view v')
    (hi : a.view.type i ≠ .none) : 0 ≤ a.view.nlink i ∧ a.view.nlink i < 32767 := by
  have heq := hb.nlink i hi
  have hfew := htame.few i (hb.inside i hi)
  have hpend : a.pend n i ≤ (range n).card • 1 :=
    sum_le_card_nsmul _ _ _ fun q _ => (a.ghost q).phase.pend_le i
  simp only [card_range, smul_eq_mul] at hpend
  omega

theorem View.weight_file (hi : v.type i ≠ .dir) (d : ℕ) (name : Name) (j : ℕ) :
    v.weight d ⟨i, name⟩ j = if (⟨i, name⟩ : Dirent).Plain ∧ j = i then 1 else 0 := by
  have hcomm : (i = j) = (j = i) := propext eq_comm
  simp only [View.weight, hi, and_false, if_false, Nat.add_zero, hcomm]

theorem Sys.Counted.links_free (hb : a.Counted sb n) (hwf : a.view.Wf)
    (hi : a.view.type i = .none) : a.view.links sb.ninodes i = 0 := by
  have hnamed : a.view.named sb.ninodes i = 0 := by
    apply Finset.card_eq_zero.2
    apply Finset.filter_eq_empty_iff.2
    rintro ⟨d, k⟩ - ⟨hplain, hinum⟩
    exact hb.alloc d k hplain (by rw [hinum, hi])
  have hsub : a.view.subdirs i = 0 := by
    apply Finset.card_eq_zero.2
    apply Finset.filter_eq_empty_iff.2
    rintro k - ⟨hplain, -⟩
    have hdir := hwf.dir i k hplain.1
    rw [hi] at hdir
    cases hdir
  have hroot : i ≠ rootino := by
    rintro rfl
    exact hb.root hi
  simp only [View.links, hnamed, hsub, if_neg hroot]

theorem View.Wf.ent_free (hwf : v.Wf) (hi : v.type i ≠ .dir) (k : ℕ) : (v.ent i k).inum = 0 := by
  by_contra hne
  exact hi (hwf.dir i k hne)

theorem Sys.Counted.not_named (hb : a.Counted sb n) (hi : a.view.type i = .none) (d k : ℕ)
    (hp : (a.view.ent d k).Plain) : (a.view.ent d k).inum ≠ i := by
  rintro rfl
  exact hb.alloc d k hp hi

theorem Sys.Counted.fresh (hb : a.Counted sb n) (hwf : a.view.Wf)
    (hi : a.view.type inum = .none) (type : IType) (x : ℤ) (d m : ℕ) :
    View.SamePlain a.view (((a.view.alloc inum type).setNlink inum x).dots inum d m) :=
  View.SamePlain.alloc (hwf.ent_free (by rw [hi]; decide)) (hb.not_named hi) type x d m

def View.prepared (v : View) (d inum : ℕ) (type : IType) : View :=
  ((v.alloc inum type).setNlink inum 1).dots inum d (if type = .dir then 2 else 0)

theorem View.made_eq (v : View) (d inum k : ℕ) (name : Name) (type : IType) :
    v.made d inum k name type =
      if type = .dir then ((v.prepared d inum type).setEnt d k ⟨inum % 65536, name⟩).setNlink d
        (incShort (v.nlink d))
      else (v.prepared d inum type).setEnt d k ⟨inum % 65536, name⟩ := by
  unfold View.made View.prepared
  split_ifs <;> rfl

theorem View.made_type (v : View) (d inum k : ℕ) (name : Name) (type : IType) :
    (v.made d inum k name type).type = update v.type inum type := by
  have hprep : (v.prepared d inum type).type = update v.type inum type := by
    unfold View.prepared
    rw [View.dots_type]
    rfl
  rw [View.made_eq]
  split_ifs <;> exact hprep

theorem View.made_nlink (hne : d ≠ inum) (k : ℕ) (name : Name)
    (type : IType) (j : ℕ) : (v.made d inum k name type).nlink j =
      if j = inum then 1 else if j = d ∧ type = .dir then incShort (v.nlink d) else v.nlink j := by
  have hprep : (v.prepared d inum type).nlink j = if j = inum then 1 else v.nlink j := by
    unfold View.prepared
    rw [View.dots_nlink]
    by_cases hj : j = inum
    · simp [View.setNlink, hj]
    · simp [View.setNlink, View.alloc, hj]
  rw [View.made_eq]
  by_cases hty : type = .dir
  · rw [if_pos hty]
    by_cases hj : j = d
    · simp [View.setNlink, hj, hne, hty]
    · simp [View.setNlink, View.setEnt, hj, hprep]
  · simp [hty, View.setEnt, hprep]

theorem View.prepared_ent (hne : d ≠ inum) (type : IType) :
    (v.prepared d inum type).ent d = v.ent d := by
  unfold View.prepared
  rw [View.dots_of_ne hne]
  rfl

theorem View.made_ent (v : View) (d inum k : ℕ) (name : Name) (type : IType) :
    (v.made d inum k name type).ent d k = ⟨inum % 65536, name⟩ := by
  rw [View.made_eq]
  split_ifs
  · simp [View.setNlink, View.setEnt]
  · simp [View.setEnt]

theorem Sys.Counted.ne_zero (hb : a.Counted sb n) (hi : a.view.type i ≠ .none) : i ≠ 0 := by
  rintro rfl
  exact hi hb.zero

theorem Sys.Counted.dots_of_inTree (hb : a.Counted sb n) (hwf : a.view.Wf)
    (hdir : a.view.type d = .dir) (htree : a.view.InTree d) : ∃ d', a.view.InTree d' ∧
    a.view.type d' ≠ .none ∧ a.view.Dots d' d := by
  obtain rfl | ⟨d', k, hp, rfl⟩ := htree
  · exact ⟨rootino, .inl rfl, hb.root, hb.rootDots⟩
  · refine ⟨d', hb.tree d' k hp, ?_, hb.dots d' k hp hdir⟩
    rw [hwf.dir d' k hp.1]
    decide

theorem Sys.Counted.inTree_of_vacant (hb : a.Counted sb n) (htame : Tame sb.ninodes n a.view v')
    (hvacant : a.view.Vacant d k name) (hlive : (v'.ent d k).inum ≠ 0) : a.view.InTree d := by
  refine htame.added d (hb.inside d (by rw [hvacant.dir]; decide)) k hvacant.dir hlive fun heq => ?_
  rw [heq] at hlive
  exact hlive hvacant.free

/-- A name that is new in a directory with "." and ".." is none of the two. -/
theorem View.Dots.plain {d' : ℕ} (h : v.Dots d' d) (hd' : d' ≠ 0) (hd : d ≠ 0)
    (hvacant : v.Vacant d k name) (hi : i ≠ 0) : (⟨i, name⟩ : Dirent).Plain := by
  have hdot := hvacant.fresh 0
  have hdotdot := hvacant.fresh 1
  rw [h.dot] at hdot
  rw [h.dotdot] at hdotdot
  exact ⟨hi, (hdot hd).symm, (hdotdot hd').symm⟩

theorem Sys.Counted.plain_of_vacant (hb : a.Counted sb n) (hwf : a.view.Wf)
    (htame : Tame sb.ninodes n a.view v') (hvacant : a.view.Vacant d k name)
    (hent : v'.ent d k = ⟨i, name⟩) (hi : i ≠ 0) : (⟨i, name⟩ : Dirent).Plain := by
  have htree := hb.inTree_of_vacant htame hvacant (by rw [hent]; exact hi)
  obtain ⟨d', -, hty, hdots⟩ := hb.dots_of_inTree hwf hvacant.dir htree
  exact hdots.plain (hb.ne_zero hty) (hb.ne_zero (by rw [hvacant.dir]; decide)) hvacant hi

section balanced

variable (hp : p < n ∨ (a.ghost p).phase = .none ∧ g'.phase = .none)

include hp

theorem Sys.pend_after (i : ℕ) :
    (a.after p v' g' proc').pend n i + (a.ghost p).phase.pend i = a.pend n i + g'.phase.pend i := by
  rcases hp with hp | ⟨hnone, hnone'⟩
  · have hsum := Counting.sum_change (S := range n) (f := fun q => (a.ghost q).phase.pend i)
      (e := fun q => (update a.ghost p g' q).phase.pend i) (Finset.mem_range.2 hp) (by
        intro q hq
        simp only [update_of_ne hq])
    simp only [update_self] at hsum
    exact hsum
  · have hsame (q : ℕ) :=
      view_update (f := a.ghost) (x := g') (i := p) (Phase.pend ·.phase i) q (by rw [hnone, hnone'])
    simp only [Sys.pend, Sys.after, hsame, hnone, hnone']

/-- The equation after a step, in terms of what was pending before it. -/
theorem Sys.Balanced.of (h : ∀ j, v'.type j ≠ .none → v'.nlink j + ((a.ghost p).phase.pend j : ℕ) =
      (v'.links sb.ninodes j + a.pend n j + g'.phase.pend j : ℕ)) :
      (a.after p v' g' proc').Balanced sb n := by
  intro j hj
  have hpend : (a.after p v' g' proc').pend n j + _ = _ := Sys.pend_after hp j
  have hj := h j hj
  change v'.nlink j = (v'.links sb.ninodes j + _ : ℕ)
  omega

theorem Sys.Balanced.same (hb : a.Balanced sb n)
    (hph : ∀ i, g'.phase.pend i = (a.ghost p).phase.pend i) :
    (a.after p a.view g' proc').Balanced sb n := by
  refine .of hp fun j hj => ?_
  rw [hb j hj, hph j]
  norm_cast

theorem Sys.Balanced.setNlink (hb : a.Balanced sb n) {x : ℤ}
    (hother : ∀ j, j ≠ i → g'.phase.pend j = (a.ghost p).phase.pend j)
    (hx : x + (a.ghost p).phase.pend i = a.view.nlink i + g'.phase.pend i) :
    (a.after p (a.view.setNlink i x) g' proc').Balanced sb n := by
  refine .of hp fun j hj => ?_
  have hold := hb j hj
  change update a.view.nlink i x j + _ = (a.view.links sb.ninodes j + _ + _ : ℕ)
  rcases eq_or_ne j i with rfl | hji
  · rw [update_self]
    omega
  · rw [update_of_ne hji, hother j hji]
    omega

/-- A freed inode has no link, so no entry that counts names it, and it has none itself. -/
theorem Sys.Balanced.free (hb : a.Counted sb n) (hwf : a.view.Wf)
    (hty : a.view.type i ≠ .none) (hzero : a.view.nlink i = 0)
    (hph : ∀ j, g'.phase.pend j = (a.ghost p).phase.pend j) :
    (a.after p (a.view.free i) g' proc').Balanced sb n := by
  have hout : ¬ a.view.InTree i := fun htree => by
    have hpos := hb.nlink_pos hwf hty htree
    omega
  have hdir {d k : ℕ} (hp : (a.view.ent d k).Plain) : d ≠ i := by
    rintro rfl
    exact hout (hb.tree d k hp)
  have hinum {d k : ℕ} (hp : (a.view.ent d k).Plain) : (a.view.ent d k).inum ≠ i := fun h =>
    hout (.inr ⟨d, k, hp, h⟩)
  have hsame : View.SamePlain a.view (a.view.free i) := by
    refine ⟨fun d k hp => ?_, fun d k hp => ?_, fun d k hp => ?_⟩
    · simp [View.free, hdir hp]
    · by_cases hd : d = i
      · subst hd
        exact absurd hp (by simpa [View.free] using View.free_not_plain [])
      · simp [View.free, hd]
    · simp [View.free, hinum hp]
  refine .of hp fun j hj => ?_
  have hne : j ≠ i := by
    rintro rfl
    simp [View.free] at hj
  have hold := hb.nlink j (by simpa [View.free, hne] using hj)
  change a.view.nlink j + _ = _
  rw [hsame.links, hph j]
  omega

/-- An entry is erased: what it counted for is pending, except for the directory's own count. -/
theorem Sys.Balanced.erase (hb : a.Counted sb n) (hwf : a.view.Wf)
    (hdir : a.view.type d = .dir) (hent : a.view.ent d k = ⟨i, name⟩)
    (hplain : (a.view.ent d k).Plain) (hne : i ≠ d)
    (hsmall : a.view.nlink d < 32767)
    (hph : (a.ghost p).phase.pend = fun _ => 0) (hph' : g'.phase = .erased i) :
    (a.after p (a.view.erase d k i) g' proc').Balanced sb n := by
  have hdty : a.view.type d ≠ .none := by rw [hdir]; decide
  -- the weight of the erased entry
  have hlinks (j : ℕ) : (a.view.erase d k i).links sb.ninodes j + ((if j = i then 1 else 0) +
      if j = d ∧ a.view.type i = .dir then 1 else 0) = a.view.links sb.ninodes j := by
    have hslots :=
      View.links_setEnt (v := a.view) (hb.inside d hdty) (hwf.slot d k hplain.1) ⟨0, []⟩ j
    have hweight : a.view.weight d (a.view.ent d k) j =
        (if j = i then 1 else 0) + if j = d ∧ a.view.type i = .dir then 1 else 0 := by
      rw [hent] at hplain ⊢
      have hcomm : (i = j) = (j = i) := propext eq_comm
      simp only [View.weight, hplain, true_and, hcomm]
    have hview : (a.view.erase d k i).links sb.ninodes j =
        (a.view.setEnt d k ⟨0, []⟩).links sb.ninodes j := by
      unfold View.erase
      split_ifs <;> rfl
    rw [hweight, View.weight_of_not_plain (View.free_not_plain [])] at hslots
    rw [hview]
    omega
  have hnlink (j : ℕ) : (a.view.erase d k i).nlink j =
      a.view.nlink j - if j = d ∧ a.view.type i = .dir then 1 else 0 := by
    unfold View.erase
    by_cases hi : a.view.type i = .dir
    · rw [if_pos hi]
      by_cases hj : j = d
      · subst hj
        have heq := hb.nlink j hdty
        have hone := hlinks j
        simp only [true_and, hi, if_true] at hone
        have hdec := decShort_of_pos (x := a.view.nlink j) (by omega) hsmall.le
        simp [View.setNlink, hdec, hi]
      · simp [View.setNlink, View.setEnt, hj]
    · simp [View.setEnt, hi]
  have htype : (a.view.erase d k i).type = a.view.type := by
    unfold View.erase
    split_ifs <;> rfl
  refine .of hp fun j hj => ?_
  have hold := hb.nlink j (by rwa [htype] at hj)
  have hchange := hlinks j
  rw [hnlink, hph, hph']
  simp only [Phase.pend]
  push_cast at hold ⊢
  split_ifs at hchange ⊢ <;> omega

theorem Sys.Balanced.linkEntry (hb : a.Counted sb n)
    (hdir : a.view.type d = .dir) (hfree : (a.view.ent d k).inum = 0) (hk : k < dirSlots)
    (hi : a.view.type i ≠ .dir) (hplain : (⟨i, name⟩ : Dirent).Plain)
    (hph : (a.ghost p).phase = .linking i)
    (hph' : g'.phase = .none) : (a.after p (a.view.setEnt d k ⟨i, name⟩) g' proc').Balanced
    sb n := by
  refine .of hp fun j hj => ?_
  have hold := hb.nlink j hj
  have hslots := View.links_setEnt (v := a.view) (hb.inside d (by rw [hdir]; decide)) hk ⟨i, name⟩ j
  rw [View.weight_of_not_plain (fun h => h.1 hfree), View.weight_file hi, Nat.add_zero] at hslots
  change a.view.nlink j + _ = _
  rw [hph, hph', hslots]
  simp only [Phase.pend, hplain, true_and]
  split_ifs <;> omega

theorem Sys.Balanced.failed (hok : a.Ok) (hb : a.Counted sb n) (hwf : a.view.Wf)
    (hfree : a.view.type inum = .none) (type : IType) (d m : ℕ)
    (hph : ∀ i, g'.phase.pend i = (a.ghost p).phase.pend i) :
    (a.after p ((a.view.alloc inum type).dots inum d m) g' proc').Balanced sb n := by
  have hview : (a.view.alloc inum type).dots inum d m =
      ((a.view.alloc inum type).setNlink inum 0).dots inum d m := by
    congr 1
    simp [View.setNlink, View.alloc]
  refine .of hp fun j hj => ?_
  have hlinks : ((a.view.alloc inum type).dots inum d m).links sb.ninodes j =
      a.view.links sb.ninodes j := by
    rw [hview]
    exact (hb.fresh hwf hfree type 0 d m).links j
  rw [View.dots_nlink, hlinks, hph j]
  rcases eq_or_ne j inum with rfl | hji
  · have hnlink : (a.view.alloc j type).nlink j = 0 := by simp [View.alloc]
    rw [hb.links_free hwf hfree, hok.pend_eq_zero hfree]
    omega
  · have hold := hb.nlink j (by rwa [← (View.alloc_dots_of_ne (v := a.view) hji type d m).1])
    have hnlink : (a.view.alloc inum type).nlink j = a.view.nlink j := by simp [View.alloc, hji]
    omega

theorem Sys.Balanced.created (hok : a.Ok) (hb : a.Counted sb n) (hwf : a.view.Wf)
    (hfree : a.view.type inum = .none) (hlive : inum % 65536 = inum)
    (hplain : (⟨inum, name⟩ : Dirent).Plain) (hdir : a.view.type d = .dir)
    (hslot : (a.view.ent d k).inum = 0)
    (hk : k < dirSlots) (hinc : type = .dir → incShort (a.view.nlink d) = a.view.nlink d + 1)
    (hph : ∀ i, g'.phase.pend i = (a.ghost p).phase.pend i) :
    (a.after p (a.view.made d inum k name type) g' proc').Balanced sb n := by
  have hdty : a.view.type d ≠ .none := by rw [hdir]; decide
  have hne : d ≠ inum := by
    rintro rfl
    exact hdty hfree
  have hweight (j : ℕ) : (a.view.prepared d inum type).weight d ⟨inum, name⟩ j =
      (if j = inum then 1 else 0) + if j = d ∧ type = .dir then 1 else 0 := by
    have hcomm : (inum = j) = (j = inum) := propext eq_comm
    have htype : (a.view.prepared d inum type).type inum = type := by
      unfold View.prepared
      rw [View.dots_type]
      simp [View.setNlink, View.alloc]
    simp only [View.weight, hcomm, htype, hplain, true_and]
  have hlinks (j : ℕ) : (a.view.made d inum k name type).links sb.ninodes j =
      a.view.links sb.ninodes
      j + ((if j = inum then 1 else 0) + if j = d ∧ type = .dir then 1 else 0) := by
    have hslots :=
      View.links_setEnt (v := a.view.prepared d inum type) (hb.inside d hdty) hk ⟨inum, name⟩ j
    have hsame : (a.view.prepared d inum type).links sb.ninodes j =
      a.view.links sb.ninodes j := (hb.fresh hwf hfree type 1 d _).links j
    have hold : ¬ ((a.view.prepared d inum type).ent d k).Plain := by
      rw [View.prepared_ent hne]
      exact fun h => h.1 hslot
    rw [hweight, View.weight_of_not_plain hold, hsame, Nat.add_zero] at hslots
    rw [View.made_eq, hlive, ← hslots]
    split_ifs <;> rfl
  refine .of hp fun j hj => ?_
  rw [hlinks, View.made_nlink hne, hph j]
  rcases eq_or_ne j inum with rfl | hji
  · have hjd : ¬ (j = d ∧ type = .dir) := fun h => hne h.1.symm
    rw [if_pos rfl, if_pos rfl, if_neg hjd, hb.links_free hwf hfree, hok.pend_eq_zero hfree]
    omega
  · have hty : (a.view.made d inum k name type).type j = a.view.type j := by
      rw [View.made_type, update_of_ne hji]
    have hold := hb.nlink j (by rwa [← hty])
    rw [if_neg hji, if_neg hji]
    by_cases hjd : j = d ∧ type = .dir
    · have hself : a.view.nlink j = a.view.nlink d := by rw [hjd.1]
      rw [if_pos hjd, if_pos hjd, hinc hjd.2]
      omega
    · rw [if_neg hjd, if_neg hjd]
      omega

end balanced

/-- The count goes down by what was pending. -/
theorem Sys.Counted.decrement (hb : a.Counted sb n) (htame : Tame sb.ninodes n a.view v')
    (hp : p < n) (hi : a.view.type i ≠ .none)
    (hpend : ∀ j, (a.ghost p).phase.pend j = if j = i then 1 else 0)
    (hnone : ∀ j, g'.phase.pend j = 0) :
    (a.after p (a.view.setNlink i (decShort (a.view.nlink i))) g' proc').Balanced sb n := by
  have heq := hb.nlink i hi
  have hone : (a.ghost p).phase.pend i ≤ a.pend n i :=
    single_le_sum (f := fun q => (a.ghost q).phase.pend i) (fun _ _ => Nat.zero_le _)
      (Finset.mem_range.2 hp)
  have hself := hpend i
  rw [if_pos rfl] at hself
  refine hb.nlink.setNlink (.inl hp) (fun j hj => ?_) ?_
  · rw [hpend, hnone, if_neg hj]
  · rw [hself, hnone, decShort_of_pos (by omega) (hb.nlink_lt htame hi).2.le]
    omega

theorem Step.balanced (h : Step sb a p v' g' proc') (hok : a.Ok) (hb : a.Counted sb n)
    (hwf : a.view.Wf) (hwf' : v'.Wf) (htame : Tame sb.ninodes n a.view v')
    (hp : p < n ∨ (a.ghost p).phase = .none ∧ g'.phase = .none) :
    (a.after p v' g' proc').Balanced sb n := by
  have hvalid := hok p
  have hsettle (g : Ghost) (i j : ℕ) : (g.settle i).phase.pend j = g.phase.pend j := by
    unfold Ghost.settle
    split_ifs with hdrop
    · rw [hdrop]
      rfl
    · rfl
  have hlt (hne : (a.ghost p).phase ≠ .none) : p < n := hp.resolve_right fun h => hne h.1
  cases h with
  | quiet keeps => exact hb.nlink.same hp fun i => by rw [keeps.phase]
  | drop => exact hb.nlink.same hp fun i => hsettle _ _ i
  | free nlink type => exact .free hp hb hwf type nlink fun i => hsettle _ _ i
  | found phase | refuse phase => exact hb.nlink.same hp fun i => by rw [phase]; rfl
  | @erase d k i phase _ unlocked =>
    rw [phase] at hvalid
    obtain ⟨hlock, -, hdir, name, hent, hpos, hdot, hdotdot⟩ := hvalid
    have hne : i ≠ d := by
      rintro rfl
      exact unlocked hlock
    have hplain : (a.view.ent d k).Plain := by
      rw [hent]
      exact ⟨hpos, hdot, hdotdot⟩
    have hsmall := (hb.nlink_lt htame (by rw [hdir]; decide)).2
    exact .erase hp hb hwf hdir hent hplain hne hsmall (by rw [phase]; rfl) rfl
  | @count i phase =>
    rw [phase] at hvalid
    exact hb.decrement htame (hlt (by simp [phase])) hvalid.2.2.1 (fun j => by rw [phase]; rfl)
      fun _ => rfl
  | @linkCount i phase _ _ type =>
    obtain ⟨hlo, hhi⟩ := hb.nlink_lt htame type
    refine hb.nlink.setNlink hp (fun j hj => ?_) ?_
    · rw [phase]
      simp [Phase.pend, hj]
    · rw [phase, incShort_of_lt (by omega) hhi]
      simp [Phase.pend]
  | @linkEntry d k i name phase _ _ vacant =>
    rw [phase] at hvalid
    have hlive := Super.mod_inum (hb.inside i hvalid.2.2)
    have hpos := hb.ne_zero hvalid.2.2
    have hent : (a.view.setEnt d k ⟨i % 65536, name⟩).ent d k =
        ⟨i, name⟩ := by simp [View.setEnt, hlive]
    have hk : k < dirSlots := hwf'.slot d k (by rw [hent]; exact hpos)
    have hplain := hb.plain_of_vacant hwf htame vacant hent hpos
    rw [hlive]
    exact .linkEntry hp hb vacant.dir vacant.free hk hvalid.2.1 hplain phase rfl
  | @linkUndo i phase =>
    rw [phase] at hvalid
    exact hb.decrement htame (hlt (by simp [phase])) hvalid.2.2 (fun j => by rw [phase]; rfl)
      fun _ => rfl
  | @created d k inum name type phase _ _ vacant pos lt free some =>
    have hlive := Super.mod_inum lt
    have hent : (a.view.made d inum k name type).ent d k =
        ⟨inum, name⟩ := by rw [View.made_ent, hlive]
    have hk : k < dirSlots := hwf'.slot d k (by rw [hent]; exact pos.ne')
    have hplain := hb.plain_of_vacant hwf htame vacant hent pos.ne'
    obtain ⟨hlo, hhi⟩ := hb.nlink_lt htame (i := d) (by rw [vacant.dir]; decide)
    exact .created hp hok hb hwf free hlive hplain vacant.dir vacant.free hk
      (fun _ => incShort_of_lt (by omega) hhi) fun _ => rfl
  | failed phase _ _ _ free => exact .failed hp hok hb hwf free _ _ _ fun i => by rw [phase]; rfl

theorem Step.type_cases (h : Step sb a p v' g' proc') (j : ℕ) : v'.type j = a.view.type j ∨
    (a.view.type j = .none ∧ 0 < j ∧ j < sb.ninodes) ∨
      (a.view.nlink j = 0 ∧ a.view.type j ≠ .none ∧ v'.type j = .none) := by
  cases h with
  | quiet | drop | found | refuse | count | linkCount | linkEntry | linkUndo => exact .inl rfl
  | erase =>
    unfold View.erase
    split_ifs <;> exact .inl rfl
  | @free i nlink type =>
    by_cases hj : j = i
    · subst hj
      exact .inr (.inr ⟨nlink, type, by simp [View.free]⟩)
    · exact .inl (by simp [View.free, hj])
  | @created d k inum name type _ _ _ _ pos lt free =>
    by_cases hj : j = inum
    · subst hj
      exact .inr (.inl ⟨free, pos, lt⟩)
    · rw [View.made_type, update_of_ne hj]
      exact .inl rfl
  | @failed d m inum type _ _ pos lt free =>
    by_cases hj : j = inum
    · subst hj
      exact .inr (.inl ⟨free, pos, lt⟩)
    · exact .inl (View.alloc_dots_of_ne hj _ _ _).1

theorem View.setEnt_cases (v : View) (d k : ℕ) (e : Dirent) (d' k' : ℕ) :
    (d' = d ∧ k' = k ∧ (v.setEnt d k e).ent d' k' = e) ∨
    (v.setEnt d k e).ent d' k' = v.ent d' k' := by
  by_cases hd : d' = d
  · by_cases hk : k' = k
    · exact .inl ⟨hd, hk, by simp [View.setEnt, hd, hk]⟩
    · exact .inr (by simp [View.setEnt, hd, hk])
  · exact .inr (by simp [View.setEnt, hd])

theorem View.erase_ent (v : View) (d k i : ℕ) :
    (v.erase d k i).ent = (v.setEnt d k ⟨0, []⟩).ent := by
  unfold View.erase
  split_ifs <;> rfl

/-- Where a live entry comes from. -/
inductive Origin (sb : Super) (a : Sys) (p : ℕ) (v' : View) (d k : ℕ) : Prop
  | old (ent : v'.ent d k = a.view.ent d k)
  | entry {i : ℕ} {name : Name} (ent : v'.ent d k = ⟨i, name⟩) (pos : i ≠ 0)
      (vacant : a.view.Vacant d k name) (type : v'.type i ≠ .none)
      (source : (a.ghost p).phase = .linking i ∨
        (a.view.type i = .none ∧ (v'.type i = .dir → v'.Dots d i)))
  | dots (new : a.view.type d = .none) (ent : ¬ (v'.ent d k).Plain)

theorem View.dots_cases (hnew : ∀ k, (v.ent inum k).inum = 0) (d m : ℕ)
    {d' k' : ℕ} (hlive : ((v.dots inum d m).ent d' k').inum ≠ 0) :
    (d' ≠ inum ∧ (v.dots inum d m).ent d' k' = v.ent d' k') ∨
      (d' = inum ∧ ((k' = 0 ∧ (v.dots inum d m).ent d' k' = ⟨inum % 65536, dot⟩) ∨
        (k' = 1 ∧ (v.dots inum d m).ent d' k' = ⟨d % 65536, dotdot⟩))) := by
  by_cases hd : d' = inum
  · subst hd
    refine .inr ⟨rfl, ?_⟩
    unfold View.dots at hlive ⊢
    split at hlive
    · exact absurd (hnew k') hlive
    · rcases v.setEnt_cases d' 0 ⟨d' % 65536, dot⟩ d' k' with ⟨-, hk, hent⟩ | hent
      · exact .inl ⟨hk, hent⟩
      · rw [hent] at hlive
        exact absurd (hnew k') hlive
    · rcases (v.setEnt d' 0 ⟨d' % 65536, dot⟩).setEnt_cases d' 1 ⟨d % 65536, dotdot⟩ d' k' with
        ⟨-, hk, hent⟩ | hent
      · exact .inr ⟨hk, hent⟩
      · rcases v.setEnt_cases d' 0 ⟨d' % 65536, dot⟩ d' k' with ⟨-, hk, hent'⟩ | hent'
        · exact .inl ⟨hk, hent.trans hent'⟩
        · rw [hent, hent'] at hlive
          exact absurd (hnew k') hlive
  · exact .inl ⟨hd, by rw [View.dots_of_ne hd]⟩

theorem View.made_ent_eq (v : View) (d inum k : ℕ) (name : Name) (type : IType) :
    (v.made d inum k name type).ent =
    ((v.prepared d inum type).setEnt d k ⟨inum % 65536, name⟩).ent := by
  rw [View.made_eq]
  split_ifs <;> rfl

/-- A new directory has its two entries. -/
theorem View.made_dots (hne : d ≠ inum) (hnew : ∀ k, (v.ent inum k).inum = 0)
    (hinum : inum % 65536 = inum) (hd : d % 65536 = d) (k : ℕ) (name : Name) :
    (v.made d inum k name .dir).Dots d inum := by
  have hent : (v.made d inum k name .dir).ent inum = (v.prepared d inum .dir).ent inum := by
    rw [View.made_ent_eq]
    simp [View.setEnt, hne.symm]
  have hrow : (v.prepared d inum .dir).ent inum =
      update (update (v.ent inum) 0 ⟨inum, dot⟩) 1 ⟨d, dotdot⟩ := by
    simp [View.prepared, View.dots, View.setEnt, View.setNlink, View.alloc, hinum, hd]
  refine ⟨?_, ?_, fun j hj hlive => ?_⟩
  · rw [hent, hrow]
    simp
  · rw [hent, hrow]
    simp
  · rw [hent, hrow, update_of_ne (by omega), update_of_ne (by omega)] at hlive
    exact absurd (hnew j) hlive

theorem Step.origin (h : Step sb a p v' g' proc') (hok : a.Ok) (hwf : a.view.Wf)
    (hin : ∀ i, a.view.type i ≠ .none → i < sb.ninodes) (hzero : a.view.type 0 = .none)
    (hlive : (v'.ent d k).inum ≠ 0) : Origin sb a p v' d k := by
  have hnew {i : ℕ} (hi : a.view.type i = .none) (k : ℕ) : (a.view.ent i k).inum = 0 :=
    hwf.ent_free (by rw [hi]; decide) k
  have hdots {v : View} {inum : ℕ} (d' m : ℕ) (hv : v.ent = a.view.ent)
      (hi : a.view.type inum = .none)
      (hrow : v'.ent d k = (v.dots inum d' m).ent d k) : Origin sb a p v' d k := by
    rw [hrow] at hlive
    rcases View.dots_cases (fun k => by rw [hv]; exact hnew hi k) d' m hlive with
      ⟨-, hold⟩ | ⟨rfl, ⟨-, hent⟩ | ⟨-, hent⟩⟩
    · exact .old (by rw [hrow, hold, hv])
    · refine .dots hi ?_
      rw [hrow, hent]
      exact View.dot_not_plain _
    · refine .dots hi ?_
      rw [hrow, hent]
      exact View.dotdot_not_plain _
  cases h with
  | quiet | drop | found | refuse | count | linkCount | linkUndo => exact .old rfl
  | @erase d' k' i =>
    rw [View.erase_ent] at hlive
    rcases a.view.setEnt_cases d' k' ⟨0, []⟩ d k with ⟨-, -, hentry⟩ | hentry
    · rw [hentry] at hlive
      exact absurd rfl hlive
    · exact .old (by rw [View.erase_ent, hentry])
  | @free i =>
    by_cases hd : d = i
    · subst hd
      simp [View.free] at hlive
    · exact .old (by simp [View.free, hd])
  | @linkEntry d' k' i name phase _ _ vacant =>
    have hvalid := hok p
    rw [phase] at hvalid
    have hpos : i ≠ 0 := by
      rintro rfl
      exact hvalid.2.2 hzero
    rcases a.view.setEnt_cases d' k' ⟨i % 65536, name⟩ d k with ⟨rfl, rfl, hentry⟩ | hentry
    · rw [Super.mod_inum (hin i hvalid.2.2)] at hentry ⊢
      exact .entry hentry hpos vacant hvalid.2.2 (.inl phase)
    · exact .old hentry
  | @created d' k' inum name type _ _ _ vacant pos lt free some =>
    have hd' : a.view.type d' ≠ .none := by
      rw [vacant.dir]
      decide
    have hne : d' ≠ inum := by
      rintro rfl
      exact hd' free
    rcases (a.view.prepared d' inum type).setEnt_cases d' k' ⟨inum % 65536, name⟩ d k with
      ⟨rfl, rfl, -⟩ | hentry
    · have hty : (a.view.made d inum k name type).type inum = type := by
        rw [View.made_type, update_self]
      refine .entry (by rw [View.made_ent, Super.mod_inum lt]) pos.ne' vacant (by rwa [hty])
        (.inr ⟨free, ?_⟩)
      intro hdir
      rw [hty] at hdir
      subst hdir
      exact View.made_dots hne (hnew free) (Super.mod_inum lt) (Super.mod_inum (hin d hd')) k name
    · refine hdots (v := (a.view.alloc inum type).setNlink inum 1) d' (if type = .dir then 2 else 0)
        rfl free ?_
      rw [View.made_ent_eq, hentry]
      rfl
  | @failed d' m inum type _ _ pos lt free =>
    exact hdots (v := a.view.alloc inum type) d' m rfl free rfl

/-- What becomes of a live entry: it stays, or its directory is freed, or it is erased, and then it
counted and the directory that it may have named is empty. -/
theorem Step.ent_cases (h : Step sb a p v' g' proc') (hok : a.Ok) (hwf : a.view.Wf)
    (hlive : (a.view.ent d k).inum ≠ 0) :
    v'.ent d k = a.view.ent d k ∨ (a.view.nlink d = 0 ∧ v'.type d = .none) ∨
      ((a.view.ent d k).Plain ∧ (a.view.type (a.view.ent d k).inum = .dir →
        ∀ m, 2 ≤ m → (v'.ent (a.view.ent d k).inum m).inum = 0)) := by
  have hne {inum : ℕ} (hi : a.view.type inum = .none) : d ≠ inum := by
    rintro rfl
    exact hlive (hwf.ent_free (by rw [hi]; decide) k)
  cases h with
  | quiet | drop | found | refuse | count | linkCount | linkUndo => exact .inl rfl
  | @erase d' k' i phase _ unlocked _ _ empty =>
    have hvalid := hok p
    rw [phase] at hvalid
    obtain ⟨hlock, -, -, name, hent, hpos, hdot, hdotdot⟩ := hvalid
    have hne : i ≠ d' := by
      rintro rfl
      exact unlocked hlock
    rw [View.erase_ent]
    rcases a.view.setEnt_cases d' k' ⟨0, []⟩ d k with ⟨rfl, rfl, -⟩ | hold
    · refine .inr (.inr ?_)
      rw [hent]
      refine ⟨⟨hpos, hdot, hdotdot⟩, fun hdir m hm => ?_⟩
      simpa [View.setEnt, hne] using empty hdir m hm
    · exact .inl hold
  | @free i nlink type =>
    by_cases hd : d = i
    · subst hd
      exact .inr (.inl ⟨nlink, by simp [View.free]⟩)
    · exact .inl (by simp [View.free, hd])
  | @linkEntry d' k' i name _ _ _ vacant =>
    rcases a.view.setEnt_cases d' k' ⟨i % 65536, name⟩ d k with ⟨rfl, rfl, -⟩ | hold
    · exact absurd vacant.free hlive
    · exact .inl hold
  | @created d' k' inum name type _ _ _ vacant _ _ free =>
    rw [View.made_ent_eq]
    rcases (a.view.prepared d' inum type).setEnt_cases d' k' ⟨inum % 65536, name⟩ d
      k with ⟨rfl, rfl, -⟩ | hold
    · exact absurd vacant.free hlive
    · refine .inl (hold.trans ?_)
      unfold View.prepared
      rw [View.dots_of_ne (hne free)]
      rfl
  | failed _ _ _ _ free => exact .inl (congrFun (View.alloc_dots_of_ne (hne free) _ _ _).2 k)

theorem Step.type_stays (h : Step sb a p v' g' proc') (hb : a.Counted sb n) (hwf : a.view.Wf)
    (hi : a.view.type i ≠ .none) (htree : a.view.InTree i) : v'.type i = a.view.type i := by
  rcases h.type_cases i with heq | ⟨hnone, -⟩ | ⟨hzero, -⟩
  · exact heq
  · exact absurd hnone hi
  · have hpos := hb.nlink_pos hwf hi htree
    omega

/-- The first entries of a directory stay as long as it is not freed. -/
theorem View.Dots.step {d' : ℕ} (hdots : a.view.Dots d' d) (h : Step sb a p v' g' proc')
    (hok : a.Ok) (hb : a.Counted sb n) (hwf : a.view.Wf) (hd' : d' ≠ 0) (hd : a.view.type d ≠ .none)
    (hd1 : v'.type d ≠ .none) : v'.Dots d' d := by
  have hstay {k : ℕ} (hlive : (a.view.ent d k).inum ≠ 0) (hnot : ¬ (a.view.ent d k).Plain) :
      v'.ent d k = a.view.ent d k := by
    rcases h.ent_cases hok hwf hlive with heq | ⟨-, hfreed⟩ | ⟨hplain, -⟩
    · exact heq
    · exact absurd hfreed hd1
    · exact absurd hplain hnot
  have hdot := hdots.dot
  have hdotdot := hdots.dotdot
  refine ⟨?_, ?_, fun k hk hlive => ?_⟩
  · rw [hstay, hdot]
    · rw [hdot]
      exact hb.ne_zero hd
    · rw [hdot]
      exact dot_not_plain _
  · rw [hstay, hdotdot]
    · rw [hdotdot]
      exact hd'
    · rw [hdotdot]
      exact dotdot_not_plain _
  · rcases h.origin hok hwf hb.inside hb.zero hlive with hold | ⟨hent, hpos, hvacant, -⟩ | ⟨hnew, -⟩
    · rw [hold] at hlive ⊢
      exact hdots.rest k hk hlive
    · rw [hent]
      exact hdots.plain hd' (hb.ne_zero hd) hvacant hpos
    · exact absurd hnew hd

/-- A directory that has an entry after the step, and was in the tree before it, is in the tree. -/
theorem Step.inTree (h : Step sb a p v' g' proc') (hok : a.Ok) (hb : a.Counted sb n)
    (hwf : a.view.Wf) (htree : a.view.InTree d) (hdir : a.view.type d = .dir)
    (hplain : (v'.ent d k).Plain) : v'.InTree d := by
  have hty := h.type_stays hb hwf (by rw [hdir]; decide) htree
  obtain ⟨d', -, hd', hdots⟩ := hb.dots_of_inTree hwf hdir htree
  have hdots' :=
    hdots.step h hok hb hwf (hb.ne_zero hd') (by rw [hdir]; decide) (by rw [hty, hdir]; decide)
  have hk : 2 ≤ k := by
    by_contra hlt
    obtain rfl | rfl : k = 0 ∨ k = 1 := by omega
    · rw [hdots'.dot] at hplain
      exact View.dot_not_plain _ hplain
    · rw [hdots'.dotdot] at hplain
      exact View.dotdot_not_plain _ hplain
  obtain rfl | ⟨e, l, hp, rfl⟩ := htree
  · exact .inl rfl
  · rcases h.ent_cases hok hwf hp.1 with heq | ⟨hzero, -⟩ | ⟨-, hempty⟩
    · exact .inr ⟨e, l, by rwa [heq], by rw [heq]⟩
    · have hpos := hb.nlink_pos hwf (by rw [hwf.dir e l hp.1]; decide) (hb.tree e l hp)
      omega
    · exact absurd (hempty hdir k hk) hplain.1

theorem Step.inside (h : Step sb a p v' g' proc')
    (hin : ∀ i, a.view.type i ≠ .none → i < sb.ninodes) (hi : v'.type i ≠ .none) :
    i < sb.ninodes := by
  rcases h.type_cases i with heq | ⟨-, -, hlt⟩ | ⟨-, -, hnone⟩
  · exact hin i (by rwa [← heq])
  · exact hlt
  · exact absurd hnone hi

/-- The equation is kept by every step that is tame. -/
theorem Step.counted (h : Step sb a p v' g' proc') (hok : a.Ok) (hb : a.Counted sb n)
    (hwf : a.view.Wf) (hwf' : v'.Wf) (htame : Tame sb.ninodes n a.view v')
    (hp : p < n ∨ (a.ghost p).phase = .none ∧ g'.phase = .none) :
    (a.after p v' g' proc').Counted sb n where
  zero := by
    rcases h.type_cases 0 with heq | ⟨-, hpos, -⟩ | ⟨-, hty, -⟩
    · exact heq.trans hb.zero
    · omega
    · exact absurd hb.zero hty
  inside i hi := h.inside hb.inside hi
  root := by
    have hroot := hb.root
    rwa [← h.type_stays hb hwf hb.root (.inl rfl)] at hroot
  alloc d k hplain := by
    have hplain' : (v'.ent d k).Plain := hplain
    change v'.type (v'.ent d k).inum ≠ .none
    rcases h.origin hok hwf hb.inside hb.zero hplain'.1 with hold | ⟨hent, -, -, hty, -⟩ | ⟨-, hnot⟩
    · rw [hold] at hplain' ⊢
      have hty := hb.alloc d k hplain'
      rwa [h.type_stays hb hwf hty (.inr ⟨d, k, hplain', rfl⟩)]
    · rw [hent]
      exact hty
    · exact absurd hplain' hnot
  nlink := h.balanced hok hb hwf hwf' htame hp
  rootDots := by
    have hroot := hb.root
    rw [← h.type_stays hb hwf hb.root (.inl rfl)] at hroot
    exact hb.rootDots.step h hok hb hwf (by decide) hb.root hroot
  dots d k hplain hdir := by
    have hplain' : (v'.ent d k).Plain := hplain
    have hdir' : v'.type (v'.ent d k).inum = .dir := hdir
    change v'.Dots d (v'.ent d k).inum
    rcases h.origin hok hwf hb.inside hb.zero
      hplain'.1 with hold | ⟨hent, -, -, hty, hsource⟩ | ⟨-, hnot⟩
    · rw [hold] at hplain' hdir' ⊢
      have hty := hb.alloc d k hplain'
      have hstay := h.type_stays hb hwf hty (.inr ⟨d, k, hplain', rfl⟩)
      have hd : d ≠ 0 := hb.ne_zero (by rw [hwf.dir d k hplain'.1]; decide)
      exact (hb.dots d k hplain' (hstay ▸ hdir')).step h hok hb hwf hd hty (by rw [hdir']; decide)
    · rw [hent] at hdir' ⊢
      rcases hsource with hph | ⟨-, hdots⟩
      · have hvalid := hok p
        rw [hph] at hvalid
        rcases h.type_cases _ with heq | ⟨hnone, -⟩ | ⟨-, -, hnone⟩
        · exact absurd (heq.symm.trans hdir') hvalid.2.1
        · exact absurd hnone hvalid.2.2
        · exact absurd hnone hty
      · exact hdots hdir'
    · exact absurd hplain' hnot
  tree d k hplain := by
    have hplain' : (v'.ent d k).Plain := hplain
    rcases h.origin hok hwf hb.inside hb.zero
      hplain'.1 with hold | ⟨-, -, hvacant, -, -⟩ | ⟨-, hnot⟩
    · have hplain₀ := hplain'
      rw [hold] at hplain₀
      exact h.inTree hok hb hwf (hb.tree d k hplain₀) (hwf.dir d k hplain₀.1) hplain'
    · exact h.inTree hok hb hwf (hb.inTree_of_vacant htame hvacant hplain'.1) hvacant.dir hplain'
    · exact absurd hplain' hnot

/-- An entry that counts, or any entry of a directory in the tree, names an inode with a link. -/
theorem Sys.Counted.nlink_pos_of_entry (hb : a.Counted sb n) (hwf : a.view.Wf)
    (hlive : (a.view.ent d k).inum ≠ 0) (hentry : (a.view.ent d k).Plain ∨ a.view.InTree d) :
    1 ≤ a.view.nlink (a.view.ent d k).inum := by
  by_cases hplain : (a.view.ent d k).Plain
  · exact hb.nlink_pos hwf (hb.alloc d k hplain) (.inr ⟨d, k, hplain, rfl⟩)
  · have htree := hentry.resolve_left hplain
    have hdir := hwf.dir d k hlive
    obtain ⟨d', htree', hd', hdots⟩ := hb.dots_of_inTree hwf hdir htree
    have hk : k < 2 := by
      by_contra hge
      exact hplain (hdots.rest k (by omega) hlive)
    obtain rfl | rfl : k = 0 ∨ k = 1 := by omega
    · rw [hdots.dot]
      exact hb.nlink_pos hwf (by rw [hdir]; decide) htree
    · rw [hdots.dotdot]
      exact hb.nlink_pos hwf hd' htree'

end step

end Xv6.Fs
