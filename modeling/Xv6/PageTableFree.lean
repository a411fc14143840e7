import Xv6.PageTableInv

/-!
# Taking page tables apart

`uvmunmap` clears PTEs of the last level and may free the pages they go to; `freewalk` frees the
nodes of a table that maps nothing. Together with the results about `walk` and `mappages` this is
what the table is for: a finite map from pages to PTEs.
-/

namespace Xv6.Vm

open Xv6.Radix List Nat Option

section uvmunmap

variable {kend root a k pte : ℕ} {s t u : Phys} {doFree : Bool}

/-- The table after `k` pages from `a` on have been unmapped, and their physical pages freed. -/
structure Unmaps (kend : ℕ) (s t : Phys) (root a k : ℕ) (freed : List ℕ) : Prop where
  table : Table kend t root
  nodes : t.nodes root = s.nodes root
  free : t.freelist.Perm (freed ++ s.freelist)
  frame : ∀ x, x ∉ s.nodes root → x ∉ freed → t.pages x = s.pages x
  lookup : ∀ x < 2 ^ 39, t.lookup root x =
    if a ≤ x ∧ x < a + k * pgsize then none else s.lookup root x

def Phys.targets (s : Phys) (root a : ℕ) : ℕ → List ℕ
  | 0 => []
  | k + 1 => (pte2pa ((s.lookup root a).getD 0)) :: s.targets root (a + pgsize) k

theorem reach_of_lookup {va : ℕ} (h : s.lookup root va = some pte) :
    ∃ n, reach s.child (path va) root = some n ∧ s.pte n (px 0 va) = pte ∧ valid pte = true := by
  rw [Phys.lookup, bind_eq_some_iff] at h
  obtain ⟨n, hn, hval⟩ := h
  split at hval
  next hv =>
    cases hval
    exact ⟨n, hn, rfl, hv⟩
  next => cases hval

def freed (s : Phys) (pa : ℕ) : Phys :=
  { s with pages := Function.update s.pages pa fun _ => 1, freelist := pa :: s.freelist }

theorem kfree_runs {pa : ℕ} (hpa : IsPage kend pa) :
    Runs (kfree kend pa) s fun _ t => t = freed s pa := by
  refine ⟨(), freed s pa, ?_, rfl⟩
  rw [kfree, if_pos hpa]
  rfl

theorem Table.freed {pa : ℕ} (hs : Table kend s root) (hpa : IsPage kend pa)
    (hnode : pa ∉ s.nodes root) (hfree : pa ∉ s.freelist) :
    Table kend (freed s pa) root ∧ (freed s pa).nodes root = s.nodes root ∧
      (∀ is : List ℕ, is.length ≤ 2 → (∀ j ∈ is, j ∈ range 512) →
        reach (Vm.freed s pa).child is root = reach s.child is root) ∧
      ∀ va, (Vm.freed s pa).lookup root va = s.lookup root va := by
  have hpages : ∀ x, x ≠ pa → (Vm.freed s pa).pages x = s.pages x := by
    intro x hx
    simp [Vm.freed, hx]
  obtain ⟨htable, hnodes, -, hreach⟩ := hs.of_inner (t := Vm.freed s pa)
    (fun x hx => hpages x fun heq => hnode (heq ▸ inner_subset hx))
    (nodup_cons.2 ⟨hfree, hs.free_nodup⟩)
    (fun p hp => (mem_cons.1 hp).elim (fun h => h ▸ hpa) (hs.free_pages p))
    (fun p hp => (mem_cons.1 hp).elim (fun h => h ▸ hnode) (hs.free_fresh p))
  refine ⟨htable, hnodes, hreach, fun va => ?_⟩
  refine lookup_congr (hreach (path va) le_rfl fun _ hj => path_mem hj) fun n hn => hpages n ?_
  rintro rfl
  exact hnode (hs.leaf_mem hn).1

theorem Table.unmap_one (hs : Table kend s root) (ha : a < 2 ^ 39) (hal : a % pgsize = 0) {n : ℕ}
    (hr : reach s.child (path a) root = some n) :
    Unmaps kend s (written s n (px 0 a) 0) root a 1 [] := by
  obtain ⟨htable, hnodes, -, hlookup⟩ := hs.write ha hr (by norm_num : 0 < 2 ^ 64)
  have hpage (x : ℕ) : x / pgsize = a / pgsize ↔ a ≤ x ∧ x < a + 1 * pgsize := by
    unfold pgsize at hal ⊢
    omega
  refine ⟨htable, hnodes, List.Perm.refl _, fun x hx _ => ?_, fun x hx => ?_⟩
  · exact written_pages fun heq => hx (heq ▸ (hs.leaf_mem hr).1)
  · rw [hlookup x hx]
    simp only [hpage x]
    rfl

theorem Unmaps.append {fr fr' : List ℕ} (h : Unmaps kend s t root a 1 fr)
    (h' : Unmaps kend t u root (a + pgsize) k fr') :
    Unmaps kend s u root a (k + 1) (fr' ++ fr) := by
  refine ⟨h'.table, h'.nodes.trans h.nodes, ?_, fun x hx hfr => ?_, fun x hx => ?_⟩
  · rw [append_assoc]
    exact h'.free.trans (h.free.append_left fr')
  · rw [mem_append, not_or] at hfr
    rw [h'.frame x (by rw [h.nodes]; exact hx) hfr.1, h.frame x hx hfr.2]
  · rw [h'.lookup x hx, h.lookup x hx, add_mul, one_mul]
    by_cases hlow : x < a + pgsize
    · rw [if_neg (by omega)]
      by_cases hax : a ≤ x
      · rw [if_pos ⟨hax, hlow⟩, if_pos ⟨hax, by omega⟩]
      · rw [if_neg fun h => hax h.1, if_neg fun h => hax h.1]
    · by_cases hin : x < a + pgsize + k * pgsize
      · rw [if_pos ⟨by omega, hin⟩, if_pos ⟨by omega, by omega⟩]
      · rw [if_neg (by omega), if_neg (by omega), if_neg (by omega)]

/-- What `uvmunmap` needs of the pages it unmaps: they are mapped, and if they are to be freed, to
different pages that are in no other use. -/
structure Mapped (kend : ℕ) (s : Phys) (root a k : ℕ) (doFree : Bool) : Prop where
  bound : a + k * pgsize ≤ maxva
  leaf : ∀ j < k, ∃ pte, s.lookup root (a + j * pgsize) = some pte ∧ pteFlags pte ≠ pteV
  target : doFree = true → (s.targets root a k).Nodup ∧ ∀ p ∈ s.targets root a k,
    IsPage kend p ∧ p ∉ s.nodes root ∧ p ∉ s.freelist

theorem targets_congr (h : ∀ j < k, t.lookup root (a + j * pgsize) =
    s.lookup root (a + j * pgsize)) : t.targets root a k = s.targets root a k := by
  induction k generalizing a with
  | zero => rfl
  | succ k ih =>
    have h0 := h 0 (succ_pos k)
    rw [zero_mul, add_zero] at h0
    rw [Phys.targets, Phys.targets, h0]
    congr 1
    refine ih fun j hj => ?_
    have hnext := h (j + 1) (by omega)
    rwa [show a + (j + 1) * pgsize = a + pgsize + j * pgsize by ring] at hnext

theorem Mapped.tail {fr : List ℕ} (h : Mapped kend s root a (k + 1) doFree)
    (hu : Unmaps kend s t root a 1 fr)
    (hfr : fr = if doFree then [pte2pa ((s.lookup root a).getD 0)] else []) :
    Mapped kend t root (a + pgsize) k doFree := by
  have hbound : a + pgsize + k * pgsize ≤ maxva := by
    have := h.bound
    rw [add_mul, one_mul] at this
    omega
  have hlook : ∀ j < k, t.lookup root (a + pgsize + j * pgsize) =
      s.lookup root (a + pgsize + j * pgsize) := by
    intro j hj
    have hlt : j * pgsize + pgsize ≤ k * pgsize := by
      rw [← succ_mul]
      exact mul_le_mul_right pgsize hj
    have hpg : 0 < pgsize := by decide
    have hmax := maxva_lt
    rw [hu.lookup _ (by omega), if_neg (by omega)]
  refine ⟨hbound, fun j hj => ?_, fun hd => ?_⟩
  · rw [hlook j hj]
    have hleaf := h.leaf (j + 1) (by omega)
    rwa [show a + (j + 1) * pgsize = a + pgsize + j * pgsize by ring] at hleaf
  · rw [targets_congr hlook, hu.nodes]
    obtain ⟨hnodup, hall⟩ := h.target hd
    rw [Phys.targets, nodup_cons] at hnodup
    refine ⟨hnodup.2, fun p hp => ?_⟩
    obtain ⟨hP, hnode, hfree⟩ := hall p (mem_cons_of_mem _ hp)
    refine ⟨hP, hnode, fun hmem => ?_⟩
    rw [hu.free.mem_iff, mem_append, hfr, hd] at hmem
    rcases hmem with hmem | hmem
    · simp only [if_true, mem_singleton] at hmem
      exact hnodup.1 (hmem ▸ hp)
    · exact hfree hmem

theorem uvmunmapLoop_spec (hs : Table kend s root) (hal : a % pgsize = 0)
    (hm : Mapped kend s root a k doFree) :
    Runs (uvmunmapLoop kend root doFree (a + k * pgsize) k a) s fun _ t => ∃ fr,
      Unmaps kend s t root a k fr ∧ fr.Perm (if doFree then s.targets root a k else []) := by
  induction k generalizing s a with
  | zero =>
    refine Runs.ret ⟨[], ⟨hs, rfl, List.Perm.refl _, fun _ _ _ => rfl, fun x _ => ?_⟩, ?_⟩
    · rw [if_neg (by omega)]
    · cases doFree <;> simp [Phys.targets]
  | succ k ih =>
    have hpg : 0 < pgsize := by decide
    have hlast : a + (k + 1) * pgsize = a + pgsize + k * pgsize := by ring
    have hbound := hm.bound
    have hmax := maxva_lt
    rw [hlast] at hbound
    have hamax : a < maxva := by omega
    have ha39 : a < 2 ^ 39 := by omega
    obtain ⟨pte, hpte, hflags⟩ := hm.leaf 0 (succ_pos k)
    rw [zero_mul, add_zero] at hpte
    obtain ⟨n, hn, hread, hval⟩ := reach_of_lookup hpte
    have hnext : add64 a pgsize = a + pgsize := by
      rw [add64, mod_eq_of_lt]
      rw [maxva_eq] at hbound
      omega
    rw [uvmunmapLoop, if_pos (by omega)]
    refine (walk_spec hs false hamax).bind ?_
    rintro r t ⟨-, -, hsame, -⟩
    obtain ⟨rfl, rfl⟩ := hsame rfl
    rw [hn]
    refine Runs.reads ?_
    change Runs (if (!valid (t.pte n (px 0 a))) = true then _ else _) _ _
    rw [hread, hval, if_neg (by simp), if_neg hflags]
    -- the state before the PTE is cleared, and what has been freed
    have hstep : ∃ t₁ fr, fr = (if doFree then [pte2pa pte] else []) ∧
        (if doFree then kfree kend (pte2pa pte) else pure () : M Unit) t = .ok ((), t₁) ∧
        Unmaps kend t (written t₁ n (px 0 a) 0) root a 1 fr := by
      cases hd : doFree with
      | false => exact ⟨t, [], rfl, rfl, hs.unmap_one ha39 hal hn⟩
      | true =>
        obtain ⟨-, hall⟩ := hm.target hd
        have hmem : pte2pa pte ∈ t.targets root a (k + 1) := by
          rw [Phys.targets, hpte]
          exact mem_cons_self
        obtain ⟨hP, hnode, hfree⟩ := hall _ hmem
        obtain ⟨htable, hnodes, hreach, hlookup⟩ := hs.freed hP hnode hfree
        have hn' : reach (freed t (pte2pa pte)).child (path a) root = some n := by
          rw [hreach _ le_rfl fun _ hj => path_mem hj, hn]
        have hone := htable.unmap_one ha39 hal hn'
        refine ⟨freed t (pte2pa pte), [pte2pa pte], rfl, ?_, hone.table,
          hone.nodes.trans hnodes, ?_, fun x hx hfr => ?_, fun x hx => ?_⟩
        · obtain ⟨_, t₂, hk, rfl⟩ := kfree_runs (s := t) hP
          exact hk
        · exact hone.free
        · rw [hone.frame x (by rw [hnodes]; exact hx) (by simp)]
          simp only [mem_singleton] at hfr
          simp [freed, hfr]
        · rw [hone.lookup x hx, hlookup]
    obtain ⟨t₁, fr, hfr, hk, hun⟩ := hstep
    have hk' : Runs (if doFree then kfree kend (pte2pa pte) else pure () : M Unit) t
        fun _ u => u = t₁ := ⟨(), t₁, hk, rfl⟩
    refine hk'.bind ?_
    rintro - u rfl
    refine Runs.modifies ?_
    change Runs _ (written u n (px 0 a) 0) _
    rw [hnext, hlast]
    have htail := hm.tail hun (by rw [hfr, hpte]; rfl)
    refine (ih hun.table (by unfold pgsize at hal ⊢; omega) htail).mono ?_
    rintro - v ⟨fr', hunmaps, hperm⟩
    refine ⟨fr' ++ fr, hun.append hunmaps, ?_⟩
    cases hd : doFree with
    | false =>
      rw [hd] at hperm hfr
      simp only [Bool.false_eq_true, if_false] at hperm hfr ⊢
      rw [hfr, append_nil]
      exact hperm
    | true =>
      rw [hd] at hperm hfr
      simp only [if_true] at hperm hfr ⊢
      have hlook : ∀ j < k, (written u n (px 0 a) 0).lookup root (a + pgsize + j * pgsize) =
          t.lookup root (a + pgsize + j * pgsize) := by
        intro j hj
        have hlt : j * pgsize + pgsize ≤ k * pgsize := by
          rw [← succ_mul]
          exact mul_le_mul_right pgsize hj
        rw [hun.lookup _ (by omega), if_neg (by omega)]
      rw [targets_congr hlook] at hperm
      rw [hfr, Phys.targets, hpte]
      exact (hperm.append_right _).trans (perm_append_singleton _ _)

end uvmunmap

section freewalk

variable {kend root l n : ℕ} {s t u : Phys}

/-- A tree of page-table pages without a mapping, as `freewalk` needs it. -/
structure Bare (kend : ℕ) (s : Phys) (l n : ℕ) : Prop where
  nodup : (Radix.nodes s.child (range 512) l n).Nodup
  plain : ∀ m ∈ Radix.inner s.child (range 512) l n, ∀ i < 512,
    valid (s.pte m i) = true → s.pte m i &&& (pteR ||| pteW ||| pteX) = 0
  pages : ∀ m ∈ Radix.nodes s.child (range 512) l n, IsPage kend m
  empty : ∀ is : List ℕ, is.length = l → (∀ i ∈ is, i ∈ range 512) → ∀ m,
    reach s.child is n = some m → ∀ i < 512, valid (s.pte m i) = false

theorem Bare.child {i c : ℕ} (h : Bare kend s (l + 1) n) (hi : i < 512)
    (hc : s.child n i = some c) : Bare kend s l c := by
  have hmem := mem_range.2 hi
  refine ⟨(nodup_child h.nodup hmem hc).1, fun m hm => ?_, fun m hm => ?_, fun is hl his m hm => ?_⟩
  · exact h.plain m (mem_inner_succ.2 (.inr ⟨i, hmem, c, hc, hm⟩))
  · exact h.pages m (mem_nodes_succ.2 (.inr ⟨i, hmem, c, hc, hm⟩))
  · refine h.empty (i :: is) (by rw [length_cons, hl]) ?_ m ?_
    · intro j hj
      rcases mem_cons.1 hj with rfl | hj
      · exact hmem
      · exact his j hj
    · rw [reach, hc]
      exact hm

theorem Bare.congr (h : Bare kend s l n)
    (hpages : ∀ x ∈ Radix.nodes s.child (range 512) l n, u.pages x = s.pages x) :
    Bare kend u l n ∧ Radix.nodes u.child (range 512) l n =
    Radix.nodes s.child (range 512) l n := by
  have hchild : ∀ x ∈ Radix.inner s.child (range 512) l n, u.child x = s.child x :=
    fun x hx => child_congr (hpages x (inner_subset hx))
  have hnodes := nodes_congr hchild
  have hin := inner_congr hchild
  have hpte : ∀ x ∈ Radix.nodes s.child (range 512) l n, ∀ i, u.pte x i = s.pte x i := by
    intro x hx i
    rw [Phys.pte, Phys.pte, hpages x hx]
  refine ⟨⟨?_, ?_, ?_, fun is hl his m hm i hi => ?_⟩, hnodes⟩
  · rw [hnodes]
    exact h.nodup
  · rw [hin]
    intro m hm i hi hval
    rw [hpte m (inner_subset hm)] at hval ⊢
    exact h.plain m hm i hi hval
  · rw [hnodes]
    exact h.pages
  · rw [reach_congr hchild hl.le his] at hm
    rw [hpte m (mem_of_reach hm hl.le his)]
    exact h.empty is hl his m hm i hi

def Phys.below (s : Phys) (l n i : ℕ) : List ℕ :=
  ((s.child n i).map (Radix.nodes s.child (range 512) l)).getD []

def Frees (s t : Phys) (freed : List ℕ) : Prop :=
  t.freelist.Perm (freed ++ s.freelist) ∧ ∀ x ∉ freed, t.pages x = s.pages x

/-- The loop of `freewalk` over some of the PTEs of `n`, in a state in which these and the trees
below them are as in `s`. -/
theorem freewalk_entries {free : ℕ → M Unit} (h : Bare kend s (l + 1) n)
    (ih : ∀ {u : Phys} {c : ℕ}, Bare kend u l c → Runs (free c) u fun _ t =>
      Frees u t (Radix.nodes u.child (range 512) l c)) {is : List ℕ} (hnd : is.Nodup)
        (his : ∀ i ∈ is, i < 512)
    (hpte : ∀ i ∈ is, u.pte n i = s.pte n i)
    (hbelow : ∀ i ∈ is, ∀ x ∈ s.below l n i, u.pages x = s.pages x) :
    Runs (is.forM (freeEntry free n)) u
    (fun _ t => t.freelist.Perm (is.flatMap (s.below l n) ++ u.freelist) ∧
        ∀ x, x ≠ n → x ∉ is.flatMap (s.below l n) → t.pages x = u.pages x) := by
  induction is generalizing u with
  | nil => exact Runs.ret ⟨List.Perm.refl _, fun _ _ _ => rfl⟩
  | cons i is ihl =>
    rw [nodup_cons] at hnd
    have hi := his i mem_cons_self
    have his' : ∀ j ∈ is, j < 512 := fun j hj => his j (mem_cons_of_mem i hj)
    have hpi := hpte i mem_cons_self
    rw [List.forM]
    refine Runs.bind (Q := fun _ t => t.freelist.Perm (s.below l n i ++ u.freelist) ∧
      (∀ x, x ≠ n → x ∉ s.below l n i → t.pages x = u.pages x) ∧
      ∀ j, j ≠ i → t.pte n j = u.pte n j) (Runs.reads ?_) ?_
    · by_cases hval : valid (s.pte n i) = true
      · have hc : s.child n i = some (pte2pa (s.pte n i)) := by rw [Phys.child, if_pos hval]
        have hbel : s.below l n i = Radix.nodes s.child (range 512) l (pte2pa (s.pte n i)) := by
          rw [Phys.below, hc]
          rfl
        have hplain := h.plain n (mem_inner_succ.2 (.inl rfl)) i hi hval
        obtain ⟨hbare, hnodes⟩ := (h.child hi hc).congr (u := u) fun x hx =>
          hbelow i mem_cons_self x (hbel ▸ hx)
        have hroot : n ∉ s.below l n i := by
          rw [hbel]
          exact (nodup_child h.nodup (mem_range.2 hi) hc).2
        simp only [hpi, hval, hplain, BEq.rfl, Bool.and_self, if_true]
        refine (ih hbare).bind ?_
        rintro - t ⟨hfree, hframe⟩
        rw [hnodes, ← hbel] at hfree hframe
        refine ⟨(), written t n i 0, rfl, hfree, fun x hxn hx => ?_, fun j hj => ?_⟩
        · rw [written_pages hxn, hframe x hx]
        · rw [written_pte (by norm_num), if_neg hj, Phys.pte, Phys.pte, hframe n hroot]
      · have hnone : s.below l n i = [] := by
          rw [Phys.below, Phys.child, if_neg hval]
          rfl
        simp only [hpi, hval, Bool.false_and, Bool.false_eq_true, if_false]
        rw [hnone]
        exact Runs.ret ⟨List.Perm.refl _, fun _ _ _ => rfl, fun _ _ => rfl⟩
    · rintro - t ⟨hfree, hframe, hrow⟩
      have hapart : ∀ j ∈ is, ∀ x ∈ s.below l n j, x ≠ n ∧ x ∉ s.below l n i := by
        intro j hj x hx
        have hj' := mem_range.2 (his' j hj)
        unfold Phys.below at hx ⊢
        cases hd : s.child n j with
        | none =>
          rw [hd] at hx
          cases hx
        | some d =>
          rw [hd] at hx
          have hxd : x ∈ Radix.nodes s.child (range 512) l d := hx
          refine ⟨fun heq => (nodup_child h.nodup hj' hd).2 (heq ▸ hxd), ?_⟩
          cases hc : s.child n i with
          | none => exact not_mem_nil
          | some c =>
            have hij : j ≠ i := fun heq => hnd.1 (heq ▸ hj)
            exact disjoint_children h.nodup hj' (mem_range.2 hi) hij hd hc hxd
      refine (ihl hnd.2 his' (fun j hj => ?_) (fun j hj x hx => ?_)).mono ?_
      · rw [hrow j fun heq => hnd.1 (heq ▸ hj), hpte j (mem_cons_of_mem i hj)]
      · obtain ⟨hxn, hxi⟩ := hapart j hj x hx
        rw [hframe x hxn hxi, hbelow j (mem_cons_of_mem i hj) x hx]
      · rintro - v ⟨hfree', hframe'⟩
        rw [flatMap_cons]
        refine ⟨?_, fun x hxn hx => ?_⟩
        · refine hfree'.trans ((hfree.append_left _).trans ?_)
          rw [append_assoc]
          exact perm_append_comm_assoc _ _ _
        · rw [mem_append, not_or] at hx
          rw [hframe' x hxn hx.2, hframe x hxn hx.1]

theorem freewalk_leaf {free : ℕ → M Unit} (h : Bare kend s 0 n) {is : List ℕ}
    (his : ∀ i ∈ is, i < 512) : Runs (is.forM (freeEntry free n)) s fun _ t => t = s := by
  induction is with
  | nil => exact Runs.ret rfl
  | cons i is ih =>
    have hval := h.empty [] rfl (by simp) n rfl i (his i mem_cons_self)
    rw [List.forM]
    refine Runs.bind (Q := fun _ t => t = s) (Runs.reads ?_) ?_
    · simp only [hval, Bool.false_and, Bool.false_eq_true, if_false]
      exact Runs.ret rfl
    · rintro - t rfl
      exact ih fun j hj => his j (mem_cons_of_mem i hj)

/-- `freewalk` of a table without mappings frees each of its pages once. -/
theorem freewalk_spec (depth : ℕ) (h : Bare kend s l n) :
    Runs (freewalk kend (depth + l + 1) n) s fun _ t =>
      Frees s t (Radix.nodes s.child (range 512) l n) := by
  induction l generalizing s n with
  | zero =>
    rw [freewalk]
    refine (freewalk_leaf h fun i hi => mem_range.1 hi).bind ?_
    rintro - t rfl
    refine (kfree_runs (h.pages n self_mem_nodes)).mono ?_
    rintro - u rfl
    refine ⟨List.Perm.refl _, fun x hx => ?_⟩
    have hxn : x ≠ n := fun heq => hx (heq ▸ self_mem_nodes)
    simp [freed, hxn]
  | succ l ih =>
    rw [freewalk]
    refine (freewalk_entries h (fun hb => ih hb) nodup_range
      (fun i hi => mem_range.1 hi) (fun _ _ => rfl) fun _ _ _ _ => rfl).bind ?_
    rintro - t ⟨hfree, hframe⟩
    refine (kfree_runs (h.pages n self_mem_nodes)).mono ?_
    rintro - u rfl
    refine ⟨hfree.cons n, fun x hx => ?_⟩
    have hxn : x ≠ n := fun heq => hx (heq ▸ self_mem_nodes)
    have hxb : x ∉ (range 512).flatMap (s.below l n) := fun hmem =>
      hx (mem_cons_of_mem n hmem)
    have hpg : (freed t n).pages x = t.pages x := by simp [freed, hxn]
    rw [hpg, hframe x hxn hxb]

theorem Table.bare (hs : Table kend s root) (hnone : ∀ va < 2 ^ 39, s.lookup root va = none) :
    Bare kend s 2 root := by
  refine ⟨hs.nodup, hs.plain, hs.pages, fun is hl his m hm i hi => ?_⟩
  obtain ⟨i₂, i₁, rfl⟩ := length_eq_two.1 hl
  have h2 := mem_range.1 (his i₂ (by simp))
  have h1 := mem_range.1 (his i₁ (by simp))
  -- the address with these indices
  have hlook := hnone (i₂ * 2 ^ 30 + i₁ * 2 ^ 21 + i * 2 ^ 12) (by omega)
  have hpath : path (i₂ * 2 ^ 30 + i₁ * 2 ^ 21 + i * 2 ^ 12) = [i₂, i₁] := by
    simp only [path, px_eq, List.cons.injEq, and_true]
    norm_num
    omega
  have hpx : px 0 (i₂ * 2 ^ 30 + i₁ * 2 ^ 21 + i * 2 ^ 12) = i := by
    rw [px_eq]
    norm_num
    omega
  rw [Phys.lookup, hpath, hm, bind_some, hpx] at hlook
  by_contra hval
  rw [if_pos (by simpa using hval)] at hlook
  cases hlook

end freewalk

section map

variable {kend root va perm npages : ℕ} {s : Phys} {doFree : Bool}

theorem pteFlags_leafPte (pa : ℕ) (hperm : perm < 1024) :
    pteFlags (leafPte pa perm) = perm ||| pteV := by
  obtain ⟨f, hf, heq, -, rfl⟩ := leafPte_eq pa hperm
  have hmask : pteFlags (leafPte pa perm) = leafPte pa perm % 2 ^ 10 :=
    and_two_pow_sub_one_eq_mod _ 10
  rw [hmask, heq]
  omega

theorem mappages_spec (va size pa perm : ℕ) (hs : Table kend s root) (hva : va < maxva)
    (hal : va % pgsize = 0) (hsize : size % pgsize = 0) (hpos : 0 < size) (h64 : size < 2 ^ 64)
    (hpa : pa < 2 ^ 64) (hperm : perm < 1024) :
    Yields (mappages root va size pa perm) s
      (fun r t => ∃ j new, Maps kend s t root va pa perm j new ∧ j * pgsize ≤ size ∧
        (r = true → j * pgsize = size) ∧
        (r = false → j * pgsize < size)) (fun e => e = .walk ∧ maxva < va + size ∨
        e = .mappagesRemap ∧ ∃ x < maxva, va ≤ x ∧ x < va + size ∧ s.lookup root x ≠ none) := by
  obtain ⟨rounds, rfl⟩ : ∃ k, size = k * pgsize := ⟨size / pgsize, by unfold pgsize at *; omega⟩
  have hpg : 0 < pgsize := by decide
  have hrounds : 0 < rounds := Nat.pos_of_mul_pos_right hpos
  have hle : rounds ≤ 2 ^ 52 := by
    unfold pgsize at h64
    omega
  have hlast : (va + rounds * pgsize - pgsize) % 2 ^ 64 =
      (va + (rounds - 1) * pgsize) % 2 ^ 64 := by
    rw [show va + rounds * pgsize - pgsize = va + (rounds - 1) * pgsize by
      unfold pgsize; omega]
  have hva40 : va < 2 ^ 40 := by
    have := maxva_lt
    omega
  unfold mappages
  rw [if_neg (by omega), if_neg (by omega), if_neg (by omega), hlast, Nat.mul_div_cancel _ hpg]
  refine (mappagesLoop_spec hs hva40 hal hpa hperm hrounds hle).mono ?_ ?_
  · rintro r t ⟨j, new, hmaps, hj, htrue, hfalse⟩
    refine ⟨j, new, hmaps, mul_le_mul_right _ hj, fun h => ?_, fun h => ?_⟩
    · rw [(htrue h).1]
    · exact mul_lt_mul_of_pos_right (hfalse h) hpg
  · exact fun _ h => h

theorem uvmunmap_spec (hs : Table kend s root) (hal : va % pgsize = 0)
    (hm : Mapped kend s root va npages doFree) : Runs (uvmunmap kend root va npages doFree) s
    fun _ t => ∃ fr, Unmaps kend s t root va npages fr ∧
      fr.Perm (if doFree then s.targets root va npages else []) := by
  have hlast : add64 va (npages * pgsize) = va + npages * pgsize := by
    have hbound := hm.bound
    rw [maxva_eq] at hbound
    rw [add64, mod_eq_of_lt (by omega)]
  unfold uvmunmap
  rw [if_neg (by omega), hlast]
  exact uvmunmapLoop_spec hs hal hm

/-- A page table that shares no node is a finite map from pages to PTEs: `walk` finds its entries,
`mappages` adds a range or leaves what was mapped, `uvmunmap` removes a range, and `freewalk` frees
the nodes of an empty one. -/
theorem page_table_is_map (hs : Table kend s root) :
    -- `walk` finds the PTE of the map, changes nothing without allocation and no lookup with it
    (∀ y < maxva, ∀ alloc, ∃ r t, walk root y alloc s = .ok (r, t) ∧ Table kend t root ∧
      (∀ x, t.lookup root x = s.lookup root x) ∧
      (alloc = false → t = s ∧ s.lookup root y =
        r.bind fun p => if valid (s.pte p.1 p.2) then some (s.pte p.1 p.2) else none)) ∧
    (∀ va < maxva, va % pgsize = 0 →
      -- `mappages`, and when it returns
      (∀ size pa perm, size % pgsize = 0 → 0 < size → size < 2 ^ 64 → pa < 2 ^ 64 → perm < 1024 →
        (∀ r t, mappages root va size pa perm s = .ok (r, t) → Table kend t root ∧
          (r = true → ∀ x < maxva, t.lookup root x =
            if va ≤ x ∧ x < va + size then
              some (leafPte ((pa + (x - va) / pgsize * pgsize) % 2 ^ 64) perm)
            else s.lookup root x) ∧
          (r = false → ∀ x < maxva, s.lookup root x ≠ none → t.lookup root x = s.lookup root x)) ∧
        (va + size ≤ maxva → (∀ x, va ≤ x → x < va + size → s.lookup root x = none) →
          ∃ r t, mappages root va size pa perm s = .ok (r, t))) ∧
      -- `uvmunmap`
      (∀ npages doFree, Mapped kend s root va npages doFree →
        ∃ t, uvmunmap kend root va npages doFree s = .ok ((), t) ∧ Table kend t root ∧ ∀ x < maxva,
        t.lookup root x =
            if va ≤ x ∧ x < va + npages * pgsize then none else s.lookup root x)) ∧
    -- `freewalk`
    ((∀ x < 2 ^ 39, s.lookup root x = none) → ∀ depth ≥ 3,
      ∃ t, freewalk kend depth root s = .ok ((), t) ∧
      t.freelist.Perm (s.nodes root ++ s.freelist)) := by
  refine ⟨fun y hy alloc => ?_, fun va hva hal => ⟨fun size pa perm hsize hpos h64 hpa hperm => ?_,
    fun npages doFree hm => ?_⟩, fun hnone depth hdepth => ?_⟩
  · obtain ⟨r, t, hw, new, hgrows, hsame, -⟩ := walk_spec hs alloc hy
    refine ⟨r, t, hw, hgrows.table, hgrows.lookup, fun halloc => ?_⟩
    obtain ⟨rfl, rfl⟩ := hsame halloc
    refine ⟨rfl, ?_⟩
    rw [Phys.lookup]
    cases reach t.child (path y) root with
    | none => rw [bind_none, map_none, bind_none]
    | some n => rw [bind_some, map_some, bind_some]
  · have hspec := mappages_spec va size pa perm hs hva hal hsize hpos h64 hpa hperm
    refine ⟨fun r t hm => ?_, fun hbound hfree => ?_⟩
    · obtain ⟨j, new, hmaps, -, htrue, -⟩ := hspec.of_ok hm
      refine ⟨hmaps.table, fun hr x hx => ?_, fun _ x hx hne => ?_⟩
      · rw [hmaps.lookup x (lt_trans hx maxva_lt), htrue hr]
      · have hx39 := lt_trans hx maxva_lt
        rw [hmaps.lookup x hx39, if_neg fun hin => hne (hmaps.unmapped x hx39 hin.1 hin.2)]
    · suffices hruns : ∀ e, _ → False by
        obtain ⟨r, t, hm, -⟩ := Yields.runs (hspec.mono (fun _ _ h => h) hruns)
        exact ⟨r, t, hm⟩
      rintro e (⟨-, hlt⟩ | ⟨-, x, -, hax, hxa, hne⟩)
      · omega
      · exact hne (hfree x hax hxa)
  · obtain ⟨_, t, hu, fr, hun, -⟩ := uvmunmap_spec hs hal hm
    exact ⟨t, hu, hun.table, fun x hx => hun.lookup x (lt_trans hx maxva_lt)⟩
  · obtain ⟨k, rfl⟩ := Nat.exists_eq_add_of_le hdepth
    obtain ⟨_, t, hf, hfree, -⟩ := freewalk_spec k (hs.bare hnone)
    refine ⟨t, ?_, hfree⟩
    rw [add_comm 3 k]
    exact hf

theorem Table.empty (hzero : s.pages root = fun _ => 0) (hroot : IsPage kend root)
    (hnodup : s.freelist.Nodup) (hpages : ∀ p ∈ s.freelist, IsPage kend p)
    (hfresh : root ∉ s.freelist) :
    Table kend s root ∧ ∀ x, s.lookup root x = none := by
  have hchild : ∀ i, s.child root i = none := by
    intro i
    simp [Phys.child, Phys.pte, hzero, Page.pte_zero, valid]
  have hnodes : s.nodes root = [root] := nodes_bare hchild
  refine ⟨⟨?_, ?_, ?_, hnodup, hpages, ?_⟩, fun x => ?_⟩
  · rw [hnodes]
    exact nodup_singleton root
  · intro n hn i _ hval
    rw [inner_bare hchild n hn] at hval
    simp [Phys.pte, hzero, Page.pte_zero, valid] at hval
  · intro n hn
    rw [hnodes] at hn
    rwa [mem_singleton.1 hn]
  · intro p hp hmem
    rw [hnodes] at hmem
    exact hfresh (mem_singleton.1 hmem ▸ hp)
  · rw [Phys.lookup, path, reach, hchild, bind_none, bind_none]

def smallPhys : Phys := ⟨fun _ _ => 0, [kernbase + 8192, kernbase + 12288],
  [kernbase + 12288, kernbase + 8192]⟩

theorem page_table_is_map_small : ∃ t, mappages (kernbase + 4096) 0 pgsize (kernbase + 16384)
    (pteR ||| pteU) smallPhys
        = .ok (true, t) ∧ Table kernbase t (kernbase + 4096) ∧
      t.lookup (kernbase + 4096) 0 = some (leafPte (kernbase + 16384) (pteR ||| pteU)) := by
  have hempty : Table kernbase smallPhys (kernbase + 4096) ∧ ∀ x,
      smallPhys.lookup (kernbase + 4096) x = none :=
    Table.empty rfl (by decide) (by decide) (by decide) (by decide)
  have hmap := (page_table_is_map hempty.1).2.1 0 (by decide) (by decide)
  have hcall := hmap.1 pgsize (kernbase + 16384) (pteR ||| pteU) (by decide) (by decide)
    (by decide) (by decide) (by decide)
  have hrun :
      (match mappages (kernbase + 4096) 0 pgsize (kernbase + 16384) (pteR ||| pteU) smallPhys with
      | .ok (r, _) => r
      | .error _ => false) = true := by
    decide +kernel
  split at hrun
  next r t hok =>
    subst hrun
    obtain ⟨htable, hlookup, -⟩ := hcall.1 true t hok
    refine ⟨t, hok, htable, ?_⟩
    rw [hlookup rfl 0 (by decide), if_pos (by decide)]
    rfl
  next => cases hrun

end map

end Xv6.Vm
