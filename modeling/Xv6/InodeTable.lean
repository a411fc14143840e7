import Xv6.Counting

/-!
# The table of inodes

The entries of `itable` in `kernel/fs.c` and the sections of `iget`, `idup` and `iput` under
`itable.lock` that change reference counts. An entry is free when its count is zero; the others
carry different inodes, so the table is full exactly when it has `ninode` inodes.
-/

namespace Xv6.InodeTable

open Function List

def ninode : ℕ := 50

/-- `ref` is an `int` in the source. It counts pointers to the entry: the current directories of the
NPROC processes, the NFILE open files, and the few that a call holds in local variables. So it stays
far below 2^31. -/
structure Entry where
  dev : ℕ
  inum : ℕ
  ref : ℕ
  valid : Bool

def Entry.key (x : Entry) : ℕ × ℕ := (x.dev, x.inum)

abbrev Table := ℕ → Entry

namespace Table

variable (t : Table)

def iget (dev inum : ℕ) : Option (ℕ × Table) :=
  match (List.range ninode).find? fun e => 0 < (t e).ref ∧ (t e).dev = dev ∧ (t e).inum = inum with
  | some e => some (e, update t e { t e with ref := (t e).ref + 1 })
  | none =>
    match (List.range ninode).find? fun e => (t e).ref = 0 with
    | some e => some (e, update t e ⟨dev, inum, 1, false⟩)
    | none => none

def idup (e : ℕ) : Table := update t e { t e with ref := (t e).ref + 1 }

/-- The end of `iput`. -/
def drop (e : ℕ) : Table := update t e { t e with ref := (t e).ref - 1 }

def setValid (e : ℕ) (b : Bool) : Table := update t e { t e with valid := b }

def keys : Finset (ℕ × ℕ) :=
  ((Finset.range ninode).filter fun e => 0 < (t e).ref).image fun e => (t e).key

structure Wf : Prop where
  unique : ∀ e e', 0 < (t e).ref → 0 < (t e').ref → (t e).key = (t e').key → e = e'
  bound : ∀ e, 0 < (t e).ref → e < ninode

end Table

section wf

variable {t u : Table} {dev inum e : ℕ}

theorem Table.mem_keys (h : t.Wf) {k : ℕ × ℕ} :
    k ∈ t.keys ↔ ∃ e, 0 < (t e).ref ∧ (t e).key = k := by
  simp only [Table.keys, Finset.mem_image, Finset.mem_filter, Finset.mem_range]
  constructor
  · rintro ⟨e, ⟨-, hpos⟩, hk⟩
    exact ⟨e, hpos, hk⟩
  · rintro ⟨e, hpos, hk⟩
    exact ⟨e, ⟨h.bound e hpos, hpos⟩, hk⟩

theorem Table.iget_some (hget : t.iget dev inum = some (e, u)) : e < ninode ∧
    ((0 < (t e).ref ∧ (t e).key = (dev, inum) ∧ u = t.idup e) ∨
      ((t e).ref = 0 ∧ (∀ e' < ninode, 0 < (t e').ref → (t e').key ≠ (dev, inum)) ∧
        u = update t e ⟨dev, inum, 1, false⟩)) := by
  unfold Table.iget at hget
  split at hget
  · rename_i x hfind
    have hx := List.find?_some hfind
    have hmem := mem_of_find?_eq_some hfind
    simp only [decide_eq_true_eq] at hx
    cases hget
    exact ⟨mem_range.mp hmem, .inl ⟨hx.1, Prod.ext hx.2.1 hx.2.2, rfl⟩⟩
  · rename_i hnone
    split at hget
    · rename_i x hfind
      have hx := List.find?_some hfind
      have hmem := mem_of_find?_eq_some hfind
      simp only [decide_eq_true_eq] at hx
      cases hget
      refine ⟨mem_range.mp hmem, .inr ⟨hx, fun e' he' hpos hk => ?_, rfl⟩⟩
      have hno := List.find?_eq_none.mp hnone e' (mem_range.mpr he')
      simp only [decide_eq_true_eq] at hno
      exact hno ⟨hpos, congrArg Prod.fst hk, congrArg Prod.snd hk⟩
    · cases hget

theorem Table.iget_none_iff : t.iget dev inum = none ↔ ∀ e < ninode, 0 < (t e).ref ∧
    (t e).key ≠ (dev, inum) := by
  constructor
  · intro hget e he
    unfold Table.iget at hget
    split at hget
    · cases hget
    · rename_i hnone
      split at hget
      · cases hget
      · rename_i hfull
        have hno := List.find?_eq_none.mp hnone e (mem_range.mpr he)
        have hpos := List.find?_eq_none.mp hfull e (mem_range.mpr he)
        simp only [decide_eq_true_eq] at hno hpos
        have hpos' : 0 < (t e).ref := by omega
        exact ⟨hpos', fun hk => hno ⟨hpos', congrArg Prod.fst hk, congrArg Prod.snd hk⟩⟩
  · intro hall
    cases hget : t.iget dev inum with
    | none => rfl
    | some x =>
      obtain ⟨he, hx⟩ := Table.iget_some (e := x.1) (u := x.2) hget
      have hfull := hall x.1 he
      rcases hx with ⟨-, hk, -⟩ | ⟨hzero, -⟩
      · exact absurd hk hfull.2
      · omega

theorem Table.Wf.card_keys (h : t.Wf) :
    t.keys.card = ((Finset.range ninode).filter fun e => 0 < (t e).ref).card := by
  refine Finset.card_image_of_injOn ?_
  intro e he e' he' hk
  exact h.unique e e' (Finset.mem_filter.mp he).2 (Finset.mem_filter.mp he').2 hk

/-- `iget` panics exactly if the inode does not fit beside those in the table. -/
theorem Table.Wf.iget_none_iff_card (h : t.Wf) (dev inum : ℕ) :
    t.iget dev inum = none ↔ ninode < (insert (dev, inum) t.keys).card := by
  have hle : t.keys.card ≤ ninode := by
    rw [h.card_keys]
    exact (Finset.card_filter_le _ _).trans (Finset.card_range ninode).le
  rw [Table.iget_none_iff]
  constructor
  · intro hall
    have hfull : ((Finset.range ninode).filter fun e => 0 < (t e).ref) = Finset.range ninode :=
      Finset.filter_true_of_mem fun e he => (hall e (Finset.mem_range.mp he)).1
    have hnew : (dev, inum) ∉ t.keys := by
      rw [Table.mem_keys h]
      rintro ⟨e, hpos, hk⟩
      exact (hall e (h.bound e hpos)).2 hk
    rw [Finset.card_insert_of_notMem hnew, h.card_keys, hfull, Finset.card_range]
    exact Nat.lt_succ_self _
  · intro hcard e he
    have hnew : (dev, inum) ∉ t.keys := by
      intro hmem
      rw [Finset.insert_eq_of_mem hmem] at hcard
      omega
    rw [Finset.card_insert_of_notMem hnew, h.card_keys] at hcard
    have hfull : ((Finset.range ninode).filter fun e => 0 < (t e).ref) = Finset.range ninode :=
      Finset.eq_of_subset_of_card_le (Finset.filter_subset _ _) (by rw [Finset.card_range]; omega)
    have hpos : 0 < (t e).ref := by
      have hmem := Finset.mem_range.mpr he
      rw [← hfull] at hmem
      exact (Finset.mem_filter.mp hmem).2
    exact ⟨hpos, fun hk => hnew ((Table.mem_keys h).mpr ⟨e, hpos, hk⟩)⟩

theorem Table.Wf.of_live (h : t.Wf) (hlive : ∀ e, 0 < (u e).ref → 0 < (t e).ref)
    (hkey : ∀ e, (u e).key = (t e).key) : u.Wf where
  unique e e' he he' hk := h.unique e e' (hlive e he) (hlive e' he') (by rwa [hkey, hkey] at hk)
  bound e he := h.bound e (hlive e he)

theorem Table.Wf.idup (h : t.Wf) (hpos : 0 < (t e).ref) : (t.idup e).Wf := by
  refine h.of_live (fun e' he' => ?_) (fun e' => ?_)
  · by_cases hee : e' = e
    · exact hee ▸ hpos
    · simpa [Table.idup, hee] using he'
  · by_cases hee : e' = e
    · subst hee
      simp [Table.idup, Entry.key]
    · simp [Table.idup, hee]

theorem Table.drop_apply (t : Table) (e e' : ℕ) :
    (t.drop e e').key = (t e').key ∧ (t.drop e e').valid = (t e').valid ∧
      (t.drop e e').ref = if e' = e then (t e).ref - 1 else (t e').ref := by
  by_cases hne : e' = e
  · subst hne
    simp [Table.drop, Entry.key]
  · simp [Table.drop, hne]

theorem Table.setValid_apply (t : Table) (e : ℕ) (b : Bool) (e' : ℕ) :
    (t.setValid e b e').key = (t e').key ∧ (t.setValid e b e').ref = (t e').ref ∧
      (t.setValid e b e').valid = if e' = e then b else (t e').valid := by
  by_cases hne : e' = e
  · subst hne
    simp [Table.setValid, Entry.key]
  · simp [Table.setValid, hne]

theorem Table.Wf.drop (h : t.Wf) : (t.drop e).Wf := by
  refine h.of_live (fun e' he' => ?_) (fun e' => (t.drop_apply e e').1)
  rw [(t.drop_apply e e').2.2] at he'
  split_ifs at he' with hee
  · subst hee
    omega
  · exact he'

theorem Table.Wf.setValid (h : t.Wf) (b : Bool) : (t.setValid e b).Wf :=
  h.of_live (fun e' he' => by rwa [(t.setValid_apply e b e').2.1] at he')
    (fun e' => (t.setValid_apply e b e').1)

theorem Table.Wf.iget (h : t.Wf) (hget : t.iget dev inum = some (e, u)) : u.Wf := by
  obtain ⟨he, ⟨hpos, -, rfl⟩ | ⟨-, hnew, rfl⟩⟩ := Table.iget_some hget
  · exact h.idup hpos
  · have hother {e' : ℕ} (hne : e' ≠ e) (hpos : 0 < (t e').ref) : (t e').key ≠ (dev, inum) :=
      hnew e' (h.bound e' hpos) hpos
    constructor
    · intro a b ha hb hk
      by_cases hae : a = e <;> by_cases hbe : b = e
      · rw [hae, hbe]
      · subst hae
        simp only [update_self, update_of_ne hbe] at hb hk
        exact absurd hk.symm (hother hbe hb)
      · subst hbe
        simp only [update_self, update_of_ne hae] at ha hk
        exact absurd hk (hother hae ha)
      · simp only [update_of_ne hae, update_of_ne hbe] at ha hb hk
        exact h.unique a b ha hb hk
    · intro a ha
      by_cases hae : a = e
      · exact hae ▸ he
      · rw [update_of_ne hae] at ha
        exact h.bound a ha

/-- One reference more for the inode asked for; the others keep theirs, with their inodes. -/
theorem Table.iget_change (hget : t.iget dev inum = some (e, u)) :
    (u e).key = (dev, inum) ∧ (u e).ref = (t e).ref + 1 ∧ (∀ e', e' ≠ e → u e' = t e') ∧
      ∀ e', 0 < (t e').ref → (u e').key = (t e').key := by
  obtain ⟨-, ⟨hpos, hk, rfl⟩ | ⟨hzero, -, rfl⟩⟩ := Table.iget_some hget
  · have hself : (t.idup e e).key = (t e).key := by simp [Table.idup, Entry.key]
    refine ⟨hself.trans hk, by simp [Table.idup], fun e' hne => by simp [Table.idup, hne], ?_⟩
    intro e' _
    by_cases hne : e' = e
    · exact hne ▸ hself
    · simp [Table.idup, hne]
  · refine ⟨by simp [Entry.key], by simp [hzero], fun e' hne => by simp [hne], ?_⟩
    intro e' hpos
    have hne : e' ≠ e := by
      rintro rfl
      omega
    simp [hne]

end wf

end Xv6.InodeTable
