import Xv6.Radix
import Xv6.Runs
import Xv6.PageTable

/-!
# A page table is a finite map

A page table whose nodes are not shared is a radix tree of depth two over its PTEs. `lookup` is the
map that it stands for. Each store that the code makes is one of two changes of the tree: a fresh
page is put in as a node, which changes no lookup, or a PTE of the last level is set, which changes
the lookup of one page.
-/

namespace Xv6.Vm

open Xv6.Radix List Function Nat

section bits

variable {pte pa va perm level : ℕ}

theorem valid_iff : valid pte = true ↔ pte % 2 = 1 := by
  simp only [valid, pteV, and_one_is_mod, bne_iff_ne, ne_eq]
  omega

theorem pte2pa_eq : pte2pa pte = pte / 1024 * 4096 := by
  simp [pte2pa, shiftRight_eq_div_pow, shiftLeft_eq]

theorem px_eq : px level va = va / 2 ^ (12 + 9 * level) % 512 := by
  rw [px, shiftRight_eq_div_pow]
  exact and_two_pow_sub_one_eq_mod _ 9

theorem px_lt : px level va < 512 := by
  rw [px_eq]
  exact mod_lt _ (by norm_num)

theorem px_mem : px level va ∈ range 512 := mem_range.2 px_lt

def leafPte (pa perm : ℕ) : ℕ := pa2pte pa ||| perm ||| pteV

theorem leafPte_eq (pa : ℕ) (hperm : perm < 1024) :
    ∃ f < 1024, leafPte pa perm = pa / 4096 * 1024 + f ∧ f % 2 = 1 ∧ f = perm ||| pteV := by
  have hf : perm ||| pteV < 2 ^ 10 := or_lt_two_pow hperm (by decide)
  refine ⟨perm ||| pteV, hf, ?_, ?_, rfl⟩
  · have hshift : pa2pte pa = (pa / 4096) <<< 10 := by
      rw [pa2pte, shiftRight_eq_div_pow]
    rw [leafPte, Nat.or_assoc, hshift, ← Nat.shiftLeft_add_eq_or_of_lt hf, Nat.shiftLeft_eq]
  · simp [pteV]

theorem valid_leafPte (hperm : perm < 1024) : valid (leafPte pa perm) = true := by
  obtain ⟨f, hf, heq, hodd, -⟩ := leafPte_eq pa hperm
  rw [valid_iff, heq]
  omega

theorem pte2pa_leafPte (hperm : perm < 1024) : pte2pa (leafPte pa perm) = pa / 4096 * 4096 := by
  obtain ⟨f, hf, heq, -, -⟩ := leafPte_eq pa hperm
  rw [pte2pa_eq, heq]
  omega

theorem leafPte_lt (hpa : pa < 2 ^ 64) (hperm : perm < 1024) : leafPte pa perm < 2 ^ 64 := by
  obtain ⟨f, hf, heq, -, -⟩ := leafPte_eq pa hperm
  rw [heq]
  omega

theorem pointer_eq : pa2pte pa ||| pteV = leafPte pa 0 := by simp [leafPte]

theorem plain_pointer : leafPte pa 0 &&& (pteR ||| pteW ||| pteX) = 0 := by
  have h1 : pteV &&& (pteR ||| pteW ||| pteX) = 0 := by decide
  have h2 : pa2pte pa &&& (pteR ||| pteW ||| pteX) = 0 := by
    have hmask : pteR ||| pteW ||| pteX = 14 := by decide
    have hlt : (14 : ℕ) < 2 ^ 10 := by norm_num
    rw [hmask, pa2pte, shiftLeft_eq, ← mod_eq_of_lt hlt, ← and_two_pow_sub_one_eq_mod,
      Nat.and_comm 14, ← Nat.and_assoc, Nat.and_two_pow_sub_one_eq_mod]
    simp
  rw [leafPte, or_zero, and_or_distrib_right, h1, h2, or_zero]

end bits

section page

variable {p : Page} {i j v : ℕ}

theorem ofBytes_range (n v : ℕ) :
    ofBytes ((range n).map fun j => v / 256 ^ j % 256) = v % 256 ^ n := by
  induction n generalizing v with
  | zero => simp [ofBytes, mod_one]
  | succ n ih =>
    have hshift : (fun j => v / 256 ^ (j + 1) % 256) = fun j => v / 256 / 256 ^ j % 256 := by
      funext j
      rw [Nat.div_div_eq_div_mul, ← Nat.pow_succ']
    have htail : ofBytes ((range n).map fun j => v / 256 ^ (j + 1) % 256) = v / 256 % 256 ^ n := by
      rw [hshift]
      exact ih (v / 256)
    rw [range_succ_eq_map, map_cons, map_map]
    have hcons : ofBytes ((v / 256 ^ 0 % 256) :: (range n).map
        ((fun j => v / 256 ^ j % 256) ∘ succ)) = v % 256 + 256 * (v / 256 % 256 ^ n) := by
      rw [← htail]
      simp [ofBytes, Function.comp_def]
    rw [hcons, Nat.pow_succ', Nat.mod_mul]

theorem Page.pte_setPte_self (hv : v < 2 ^ 64) : (p.setPte i v).pte i = v := by
  have hbytes : (range 8).map (fun j => (p.setPte i v (8 * i + j)).toNat) =
      (range 8).map fun j => v / 256 ^ j % 256 := by
    refine map_congr_left fun j hj => ?_
    rw [mem_range] at hj
    have hdiv : (8 * i + j) / 8 = i := by omega
    have hmod : (8 * i + j) % 8 = j := by omega
    simp [Page.setPte, hdiv, hmod]
  rw [Page.pte, hbytes, ofBytes_range]
  exact mod_eq_of_lt hv

theorem Page.pte_setPte_of_ne (hj : j ≠ i) : (p.setPte i v).pte j = p.pte j := by
  unfold Page.pte
  congr 1
  refine map_congr_left fun k hk => ?_
  rw [mem_range] at hk
  have hdiv : (8 * j + k) / 8 ≠ i := by omega
  simp [Page.setPte, hdiv]

theorem Page.pte_zero : Page.pte (fun _ => 0) i = 0 := by
  simp [Page.pte, ofBytes, range_succ]

end page

namespace Phys

variable (s : Phys) (root : ℕ)

def child (n i : ℕ) : Option ℕ := if valid (s.pte n i) then some (pte2pa (s.pte n i)) else none

def nodes : List ℕ := Radix.nodes s.child (range 512) 2 root

def inner : List ℕ := Radix.inner s.child (range 512) 2 root

end Phys

def path (va : ℕ) : List ℕ := [px 2 va, px 1 va]

def Phys.lookup (s : Phys) (root va : ℕ) : Option ℕ :=
  (reach s.child (path va) root).bind fun n =>
    if valid (s.pte n (px 0 va)) then some (s.pte n (px 0 va)) else none

theorem path_mem {va i : ℕ} (hi : i ∈ path va) : i ∈ range 512 := by
  simp only [path, mem_cons, not_mem_nil, or_false] at hi
  rcases hi with rfl | rfl <;> exact px_mem

theorem page_eq_of_px {va va' : ℕ} (hpath : path va = path va') (h0 : px 0 va = px 0 va')
    (hva : va < 2 ^ 39) (hva' : va' < 2 ^ 39) : va / pgsize = va' / pgsize := by
  simp only [path, List.cons.injEq, and_true, px_eq] at hpath h0
  norm_num at hpath h0
  unfold pgsize
  omega

theorem px_of_page_eq {va va' : ℕ} (h : va / pgsize = va' / pgsize) :
    path va = path va' ∧ px 0 va = px 0 va' := by
  unfold pgsize at h
  simp only [path, px_eq, List.cons.injEq, and_true]
  norm_num
  omega

/-- A page table that shares no node, and a free list that has none of them. The PTEs above the last
level are pointers without permissions, as `walk` writes them. -/
structure Table (kend : ℕ) (s : Phys) (root : ℕ) : Prop where
  nodup : (s.nodes root).Nodup
  plain : ∀ n ∈ s.inner root, ∀ i < 512, valid (s.pte n i) = true →
    s.pte n i &&& (pteR ||| pteW ||| pteX) = 0
  pages : ∀ n ∈ s.nodes root, IsPage kend n
  free_nodup : s.freelist.Nodup
  free_pages : ∀ p ∈ s.freelist, IsPage kend p
  free_fresh : ∀ p ∈ s.freelist, p ∉ s.nodes root

/-- The table after pages have been put in as nodes: no lookup has changed, and no page but these
and the nodes above the last level. -/
structure Grows (kend : ℕ) (s t : Phys) (root : ℕ) (new : List ℕ) : Prop where
  table : Table kend t root
  nodes : (t.nodes root).Perm (new ++ s.nodes root)
  free : s.freelist.Perm (new ++ t.freelist)
  inner : ∀ x ∈ t.inner root, x ∈ new ∨ x ∈ s.inner root
  frame : ∀ x, x ∉ new → x ∉ s.inner root → t.pages x = s.pages x
  lookup : ∀ va, t.lookup root va = s.lookup root va

namespace Grows

variable {kend root : ℕ} {s t u : Phys} {new new' : List ℕ}

theorem refl (hs : Table kend s root) : Grows kend s s root [] :=
  ⟨hs, by simp, by simp, fun x hx => .inr hx, fun _ _ _ => rfl, fun _ => rfl⟩

theorem trans (h : Grows kend s t root new) (h' : Grows kend t u root new') :
    Grows kend s u root (new' ++ new) := by
  refine ⟨h'.table, ?_, ?_, fun x hx => ?_, fun x hx hin => ?_, fun va => ?_⟩
  · rw [append_assoc]
    exact h'.nodes.trans (h.nodes.append_left new')
  · refine h.free.trans ((h'.free.append_left new).trans ?_)
    rw [append_assoc]
    exact perm_append_comm_assoc new new' u.freelist
  · rcases h'.inner x hx with hx | hx
    · exact .inl (mem_append_left _ hx)
    · rcases h.inner x hx with hx | hx
      · exact .inl (mem_append_right _ hx)
      · exact .inr hx
  · rw [mem_append, not_or] at hx
    rw [h'.frame x hx.1 fun hmem => (h.inner x hmem).elim hx.2 hin, h.frame x hx.2 hin]
  · rw [h'.lookup, h.lookup]

end Grows

section stores

variable {kend root n i v : ℕ} {s t : Phys}

theorem child_congr {x : ℕ} (h : t.pages x = s.pages x) : t.child x = s.child x := by
  funext j
  rw [Phys.child, Phys.child, Phys.pte, Phys.pte, h]

def linked (s : Phys) (page n i : ℕ) : Phys :=
  { s with
    pages := update (update s.pages page fun _ => 0) n ((s.pages n).setPte i (leafPte page 0))
    freelist := s.freelist.erase page }

theorem inserts_linked {page : ℕ} (hpage : IsPage kend page) (hn : n ≠ page)
    (hfree : valid (s.pte n i) = false) : Inserts s.child (linked s page n i).child n i page := by
  have hlt : leafPte page 0 < 2 ^ 64 := leafPte_lt
    (lt_trans hpage.2.2 (by unfold phystop kernbase; norm_num)) (by norm_num)
  have hrow : ∀ j, (linked s page n i).pte n j =
      if j = i then leafPte page 0 else s.pte n j := by
    intro j
    have hpg : (linked s page n i).pages n = (s.pages n).setPte i (leafPte page 0) := by
      simp [linked]
    rw [Phys.pte, hpg]
    by_cases hj : j = i
    · subst hj
      rw [if_pos rfl, Page.pte_setPte_self hlt]
    · rw [if_neg hj, Page.pte_setPte_of_ne hj, Phys.pte]
  refine ⟨?_, ?_, ?_, ?_⟩
  · simp [Phys.child, hfree]
  · have hval : valid (leafPte page 0) = true := valid_leafPte (by norm_num)
    have hback : pte2pa (leafPte page 0) = page := by
      rw [pte2pa_leafPte (by norm_num)]
      have := hpage.1
      unfold pgsize at this
      omega
    simp [Phys.child, hrow, hval, hback]
  · intro j
    have hpg : (linked s page n i).pages page = fun _ => 0 := by
      simp [linked, Ne.symm hn]
    simp [Phys.child, Phys.pte, hpg, Page.pte_zero, valid]
  · intro x j hx hnj
    by_cases hxn : x = n
    · subst hxn
      rw [Phys.child, Phys.child, hrow, if_neg (hnj rfl)]
    · have hpg : (linked s page n i).pages x = s.pages x := by
        simp [linked, hxn, hx]
      rw [child_congr hpg]

theorem lookup_congr {va : ℕ} (hreach : reach t.child (path va) root = reach s.child (path va) root)
    (hpage : ∀ n, reach s.child (path va) root = some n → t.pages n = s.pages n) :
    t.lookup root va = s.lookup root va := by
  rw [Phys.lookup, Phys.lookup, hreach]
  cases hr : reach s.child (path va) root with
  | none => rw [Option.bind_none, Option.bind_none]
  | some n => rw [Option.bind_some, Option.bind_some, Phys.pte, Phys.pte, hpage n hr]

theorem Table.link {page : ℕ} {is : List ℕ} (hs : Table kend s root) (hpage : page ∈ s.freelist)
    (hr : reach s.child is root = some n) (hl : is.length < 2) (his : ∀ j ∈ is, j ∈ range 512)
    (hi : i < 512) (hfree : valid (s.pte n i) = false) :
    Grows kend s (linked s page n i) root [page] ∧
    reach (linked s page n i).child (is ++ [i]) root = some page := by
  have hfresh := hs.free_fresh page hpage
  have hP := hs.free_pages page hpage
  have hnode : n ∈ s.nodes root := mem_of_reach hr hl.le his
  have hninner : n ∈ s.inner root := mem_inner_of_reach hr hl his
  have hne : n ≠ page := fun heq => hfresh (heq ▸ hnode)
  have hins := inserts_linked hP hne hfree
  set t := linked s page n i with t_def
  have hperm : (t.nodes root).Perm (page :: s.nodes root) :=
    hins.nodes_perm nodup_range (mem_range.2 hi) hs.nodup hr hl his hfresh
  have hinner : ∀ x ∈ t.inner root, x ∈ [page] ∨ x ∈ s.inner root := fun x hx =>
    (hins.mem_inner hfresh hx).imp_left fun h => mem_singleton.2 h
  have hframe : ∀ x, x ≠ page → x ≠ n → t.pages x = s.pages x := by
    intro x hxp hxn
    simp [t_def, linked, hxp, hxn]
  have hfreelist : t.freelist = s.freelist.erase page := rfl
  have hnotnew : ∀ js, js.length ≤ 2 → (∀ j ∈ js, j ∈ range 512) → ∀ ks, ks <+: js →
      reach s.child ks root ≠ some page := fun js hlen hjs ks hks h =>
    hfresh (mem_of_reach h (hks.length_le.trans hlen) fun j hj => hjs j (hks.subset hj))
  refine ⟨⟨⟨?_, ?_, ?_, ?_, ?_, ?_⟩, hperm, ?_, hinner, fun x hx hin => ?_, fun va => ?_⟩, ?_⟩
  · rw [hperm.nodup_iff, nodup_cons]
    exact ⟨hfresh, hs.nodup⟩
  · intro x hx j hj hval
    have hrow : t.child x j = some (pte2pa (t.pte x j)) := by simp [Phys.child, hval]
    rcases hinner x hx with hx | hx
    · rw [mem_singleton.1 hx, hins.bare] at hrow
      cases hrow
    · by_cases hxn : x = n ∧ j = i
      · obtain ⟨rfl, rfl⟩ := hxn
        have hlt : leafPte page 0 < 2 ^ 64 := leafPte_lt
          (lt_trans hP.2.2 (by unfold phystop kernbase; norm_num)) (by norm_num)
        have hpg : t.pages x = (s.pages x).setPte j (leafPte page 0) := by simp [t_def, linked]
        rw [Phys.pte, hpg, Page.pte_setPte_self hlt]
        exact plain_pointer
      · have hxp : x ≠ page := fun heq => hfresh (heq ▸ inner_subset hx)
        have hsame : t.pte x j = s.pte x j := by
          by_cases hxn' : x = n
          · subst hxn'
            have hpg : t.pages x = (s.pages x).setPte i (leafPte page 0) := by simp [t_def, linked]
            rw [Phys.pte, hpg, Page.pte_setPte_of_ne fun heq => hxn ⟨rfl, heq⟩, Phys.pte]
          · rw [Phys.pte, Phys.pte, hframe x hxp hxn']
        rw [hsame] at hval ⊢
        exact hs.plain x hx j hj hval
  · intro x hx
    rcases mem_cons.1 (hperm.mem_iff.1 hx) with rfl | hx
    · exact hP
    · exact hs.pages x hx
  · exact hs.free_nodup.erase page
  · exact fun p hp => hs.free_pages p (mem_of_mem_erase hp)
  · intro p hp hmem
    rw [hfreelist, hs.free_nodup.mem_erase_iff] at hp
    rcases mem_cons.1 (hperm.mem_iff.1 hmem) with heq | hmem
    · exact hp.1 heq
    · exact hs.free_fresh p hp.2 hmem
  · rw [hfreelist]
    exact perm_cons_erase hpage
  · rw [mem_singleton] at hx
    exact hframe x hx fun heq => hin (heq ▸ hninner)
  · -- a path that ends in the new page ends in PTEs that are zero
    have hcases := hins.reach_cases (hnotnew (path va) le_rfl fun j hj => path_mem hj)
    rcases hcases with hsame | ⟨hnone, hnone' | hnew⟩
    · refine lookup_congr hsame fun m hm => ?_
      have hmn : m ∉ s.inner root :=
        not_mem_inner_of_reach hs.nodup hm rfl fun j hj => path_mem hj
      have hmp : m ≠ page := fun heq =>
        hfresh (heq ▸ mem_of_reach hm le_rfl fun j hj => path_mem hj)
      exact hframe m hmp fun heq => hmn (heq ▸ hninner)
    · simp [Phys.lookup, hnone, hnone']
    · have hbare := hins.bare (px 0 va)
      have hval : valid (t.pte page (px 0 va)) = false := by
        by_contra hv
        simp only [Bool.not_eq_false] at hv
        simp [Phys.child, hv] at hbare
      simp [Phys.lookup, hnone, hnew, hval]
  · rw [reach_append]
    rcases hins.reach_cases (hnotnew is hl.le his) with hsame | ⟨hnone, -⟩
    · rw [hsame, hr, Option.bind_some, reach, hins.link, Option.bind_some, reach]
    · rw [hr] at hnone
      cases hnone

def written (s : Phys) (n i v : ℕ) : Phys :=
  { s with pages := update s.pages n ((s.pages n).setPte i v) }

theorem written_pages {x : ℕ} (hx : x ≠ n) : (written s n i v).pages x = s.pages x := by
  simp [written, hx]

theorem written_pte (hv : v < 2 ^ 64) (j : ℕ) :
    (written s n i v).pte n j = if j = i then v else s.pte n j := by
  have hpg : (written s n i v).pages n = (s.pages n).setPte i v := by simp [written]
  rw [Phys.pte, hpg]
  by_cases hj : j = i
  · subst hj
    rw [if_pos rfl, Page.pte_setPte_self hv]
  · rw [if_neg hj, Page.pte_setPte_of_ne hj, Phys.pte]

/-- Pages that are not above the last level can change without a change of the tree. -/
theorem Table.of_inner (hs : Table kend s root)
    (hinner : ∀ x ∈ s.inner root, t.pages x = s.pages x) (hnodup : t.freelist.Nodup)
    (hpages : ∀ p ∈ t.freelist, IsPage kend p) (hfresh : ∀ p ∈ t.freelist, p ∉ s.nodes root) :
    Table kend t root ∧ t.nodes root = s.nodes root ∧ t.inner root = s.inner root ∧
      ∀ is : List ℕ, is.length ≤ 2 → (∀ j ∈ is, j ∈ range 512) →
        reach t.child is root = reach s.child is root := by
  have hchild : ∀ x ∈ s.inner root, t.child x = s.child x := fun x hx =>
    child_congr (hinner x hx)
  have hnodes : t.nodes root = s.nodes root := nodes_congr hchild
  have hin : t.inner root = s.inner root := inner_congr hchild
  refine ⟨⟨?_, ?_, ?_, hnodup, hpages, ?_⟩, hnodes, hin, fun is hl his => reach_congr hchild hl his⟩
  · rw [hnodes]
    exact hs.nodup
  · intro n hn j hj hval
    rw [hin] at hn
    rw [Phys.pte, hinner n hn] at hval ⊢
    exact hs.plain n hn j hj hval
  · rw [hnodes]
    exact hs.pages
  · rw [hnodes]
    exact hfresh

theorem Table.of_pages (hs : Table kend s root) (hfree : t.freelist = s.freelist)
    (hinner : ∀ x ∈ s.inner root, t.pages x = s.pages x) :
    Table kend t root ∧ t.nodes root = s.nodes root ∧ t.inner root = s.inner root ∧
      ∀ is : List ℕ, is.length ≤ 2 → (∀ j ∈ is, j ∈ range 512) →
      reach t.child is root = reach s.child is root :=
  hs.of_inner hinner (hfree ▸ hs.free_nodup) (hfree ▸ hs.free_pages) (hfree ▸ hs.free_fresh)

theorem Table.leaf_mem (hs : Table kend s root) {va : ℕ}
    (hr : reach s.child (path va) root = some n) : n ∈ s.nodes root ∧ n ∉ s.inner root :=
  ⟨mem_of_reach hr le_rfl fun _ hj => path_mem hj,
    not_mem_inner_of_reach hs.nodup hr rfl fun _ hj => path_mem hj⟩

/-- The nodes keep their contents: the table is there still, and every lookup is as before. -/
theorem Table.of_nodes (hs : Table kend s root)
    (hsame : ∀ x ∈ s.nodes root, t.pages x = s.pages x) (hnodup : t.freelist.Nodup)
    (hpages : ∀ p ∈ t.freelist, IsPage kend p) (hfresh : ∀ p ∈ t.freelist, p ∉ s.nodes root) :
    Table kend t root ∧ t.nodes root = s.nodes root ∧ ∀ va,
    t.lookup root va = s.lookup root va := by
  obtain ⟨htable, hnodes, -, hreach⟩ :=
    hs.of_inner (fun x hx => hsame x (inner_subset hx)) hnodup hpages hfresh
  refine ⟨htable, hnodes, fun va => ?_⟩
  exact lookup_congr (hreach (path va) le_rfl fun _ hj => path_mem hj) fun n hn =>
    hsame n (hs.leaf_mem hn).1

/-- The PTE of the last level for `va` is set: the lookup of its page changes, and no other. -/
theorem Table.write (hs : Table kend s root) {va : ℕ} (hva : va < 2 ^ 39)
    (hr : reach s.child (path va) root = some n) (hv : v < 2 ^ 64) :
    Table kend (written s n (px 0 va) v) root ∧
    (written s n (px 0 va) v).nodes root = s.nodes root ∧
    (written s n (px 0 va) v).inner root = s.inner root ∧
    ∀ x < 2 ^ 39, (written s n (px 0 va) v).lookup root x =
      if x / pgsize = va / pgsize then (if valid v then some v else none) else s.lookup root x := by
  obtain ⟨hnode, hinner⟩ := hs.leaf_mem hr
  obtain ⟨htable, hnodes, hin, hreach⟩ := hs.of_pages (t := written s n (px 0 va) v) rfl
    fun x hx => written_pages fun heq => hinner (heq ▸ hx)
  refine ⟨htable, hnodes, hin, fun x hx => ?_⟩
  have hrx := hreach (path x) le_rfl fun j hj => path_mem hj
  by_cases hsame : path x = path va
  · have hlook : (written s n (px 0 va) v).lookup root x =
        if valid ((written s n (px 0 va) v).pte n (px 0 x)) then
          some ((written s n (px 0 va) v).pte n (px 0 x)) else none := by
      rw [Phys.lookup, hrx, hsame, hr, Option.bind_some]
    have hold : s.lookup root x =
        if valid (s.pte n (px 0 x)) then some (s.pte n (px 0 x)) else none := by
      rw [Phys.lookup, hsame, hr, Option.bind_some]
    rw [hlook, hold, written_pte hv]
    by_cases h0 : px 0 x = px 0 va
    · rw [if_pos h0, if_pos (page_eq_of_px hsame h0 hx hva)]
    · have hne : ¬ x / pgsize = va / pgsize := fun heq => h0 (px_of_page_eq heq).2
      rw [if_neg h0, if_neg hne]
  · have hne : ¬ x / pgsize = va / pgsize := fun heq => hsame (px_of_page_eq heq).1
    rw [if_neg hne]
    refine lookup_congr hrx fun m hm => written_pages ?_
    rintro rfl
    exact hsame (reach_inj hs.nodup hm hr rfl le_rfl (fun _ hj => path_mem hj)
      fun _ hj => path_mem hj)

end stores

section walk

variable {kend root va : ℕ} {s : Phys}

/-- `kalloc` returns 0 and changes nothing else, or takes a page from the free list. -/
theorem kalloc_cases (s : Phys) :
    (∃ answers, kalloc s = .ok (none, { s with answers := answers })) ∨ ∃ page ∈ s.freelist,
    ∃ answers, kalloc s = .ok (some page,
      { pages := update s.pages page fun _ => 5
        freelist := s.freelist.erase page
        answers := answers }) := by
  obtain ⟨pages, freelist, answers⟩ := s
  cases answers with
  | nil => exact .inl ⟨[], rfl⟩
  | cons r answers =>
    by_cases hr : r ∈ freelist
    · right
      refine ⟨r, hr, answers, ?_⟩
      change (if r ∈ freelist then _ else _ : M (Option ℕ)) _ = _
      rw [if_pos hr]
      rfl
    · left
      refine ⟨answers, ?_⟩
      change (if r ∈ freelist then _ else _ : M (Option ℕ)) _ = _
      rw [if_neg hr]
      rfl

theorem Grows.answers (hs : Table kend s root) (answers : List ℕ) :
    Grows kend s { s with answers := answers } root [] := by
  obtain ⟨htable, hnodes, hinner, hreach⟩ :=
    hs.of_pages (t := { s with answers := answers }) rfl fun _ _ => rfl
  refine ⟨htable, by rw [hnodes, nil_append], by simp, fun x hx => ?_, fun _ _ _ => rfl,
    fun va => ?_⟩
  · rw [hinner] at hx
    exact .inr hx
  · exact lookup_congr (hreach (path va) le_rfl fun _ hj => path_mem hj) fun _ _ => rfl

def upper (va : ℕ) : ℕ → List ℕ
  | 0 => []
  | level + 1 => px (level + 1) va :: upper va level

/-- The part of `walk` that makes a new page-table page. -/
theorem Table.extend {pagetable i : ℕ} {is : List ℕ} (hs : Table kend s root)
    (hr : reach s.child is root = some pagetable) (hl : is.length < 2)
    (his : ∀ j ∈ is, j ∈ range 512) (hi : i < 512)
    (hfree : valid (s.pte pagetable i) = false) {page : ℕ} (hpage : page ∈ s.freelist)
    (answers : List ℕ) :
    Runs (do memset page 0; setPte pagetable i (pa2pte page ||| pteV) : M Unit)
      { pages := update s.pages page fun _ => 5
        freelist := s.freelist.erase page
        answers := answers }
      (fun _ t => Grows kend s t root [page] ∧ reach t.child (is ++ [i]) root = some page) := by
  have hne : pagetable ≠ page := fun heq =>
    hs.free_fresh page hpage (heq ▸ mem_of_reach hr hl.le his)
  obtain ⟨hgrows, hreach⟩ := hs.link hpage hr hl his hi hfree
  refine ⟨(), { linked s page pagetable i with answers := answers }, ?_, ?_, ?_⟩
  · have hstate : ∀ t : Phys,
        t = { linked s page pagetable i with answers := answers } →
        (.ok ((), t) : Except Panic (Unit × Phys)) =
          .ok ((), { linked s page pagetable i with answers := answers }) := by
      rintro t rfl
      rfl
    refine hstate _ ?_
    simp only [linked, pointer_eq, Phys.mk.injEq, and_self, and_true]
    rw [update_idem, update_of_ne hne]
  · have hsame := hgrows.trans (Grows.answers hgrows.table answers)
    exact hsame
  · obtain ⟨-, -, -, hcongr⟩ := hgrows.table.of_pages
      (t := { linked s page pagetable i with answers := answers }) rfl fun _ _ => rfl
    have hpath : ∀ j ∈ is ++ [i], j ∈ range 512 := by
      intro j hj
      rcases mem_append.1 hj with hj | hj
      · exact his j hj
      · rw [mem_singleton.1 hj]
        exact mem_range.2 hi
    rw [hcongr _ (by rw [length_append, length_singleton]; omega) hpath]
    exact hreach

/-- `walk` without allocation follows the tree; with allocation it makes the nodes it needs, or
stops where there is no page left. -/
theorem walkLoop_spec (alloc : Bool) {level pagetable : ℕ} {is : List ℕ} (hs : Table kend s root)
    (hr : reach s.child is root = some pagetable) (his : is ++ upper va level = path va) :
    Runs (walkLoop va alloc level pagetable) s (fun r t => ∃ new, Grows kend s t root new ∧
      (alloc = false → t = s ∧ r = reach s.child (path va) root) ∧
      ∀ n, r = some n → reach t.child (path va) root = some n) := by
  induction level generalizing s pagetable is with
  | zero =>
    rw [upper, append_nil] at his
    subst his
    refine Runs.ret ⟨[], Grows.refl hs, fun _ => ⟨rfl, hr.symm⟩, fun n hn => ?_⟩
    rw [← hn, hr]
  | succ level ih =>
    have hlen : is.length + (level + 1) = 2 := by
      have h := congrArg length his
      have hupper : ∀ l, (upper va l).length = l := by
        intro l
        induction l with
        | zero => rfl
        | succ l ihl => rw [upper, length_cons, ihl]
      rw [length_append, hupper] at h
      exact h
    have hmem : ∀ j ∈ is, j ∈ range 512 := fun j hj =>
      path_mem (show j ∈ path va from his ▸ mem_append_left _ hj)
    have hrest : (is ++ [px (level + 1) va]) ++ upper va level = path va := by
      rw [← his, upper, append_assoc, singleton_append]
    rw [walkLoop]
    refine Runs.reads ?_
    by_cases hval : valid (s.pte pagetable (px (level + 1) va)) = true
    · rw [if_pos hval]
      refine ih hs ?_ hrest
      rw [reach_append, hr, Option.bind_some, reach, Phys.child, if_pos hval,
        Option.bind_some, reach]
    · have hfree : valid (s.pte pagetable (px (level + 1) va)) = false := by simpa using hval
      have hnone : reach s.child (path va) root = none := by
        rw [← hrest, reach_append, reach_append, hr, Option.bind_some, reach, Phys.child,
          if_neg hval, Option.bind_none, Option.bind_none]
      rw [if_neg hval]
      cases alloc with
      | false =>
        refine Runs.ret ⟨[], Grows.refl hs, fun _ => ⟨rfl, hnone.symm⟩, ?_⟩
        rintro n ⟨⟩
      | true =>
        rcases kalloc_cases s with ⟨answers, hk⟩ | ⟨page, hpage, answers, hk⟩
        · have hk' : Runs kalloc s fun r t => r = none ∧ t = { s with answers := answers } :=
            ⟨none, _, hk, rfl, rfl⟩
          refine hk'.bind ?_
          rintro r t ⟨rfl, rfl⟩
          refine Runs.ret ⟨[], Grows.answers hs answers, fun h => Bool.noConfusion h, ?_⟩
          rintro n ⟨⟩
        · have hk' : Runs kalloc s fun r t => r = some page ∧ t =
              { pages := update s.pages page fun _ => 5
                freelist := s.freelist.erase page
                answers := answers } := ⟨some page, _, hk, rfl, rfl⟩
          refine hk'.bind ?_
          rintro r t ⟨rfl, rfl⟩
          have hext := hs.extend hr (by omega) hmem px_lt hfree hpage answers
          change Runs (memset page 0 >>= fun _ => setPte pagetable (px (level + 1) va) _ >>=
            fun _ => walkLoop va true level page) _ _
          rw [← bind_assoc]
          refine hext.bind ?_
          rintro - t ⟨hgrows, hreach⟩
          refine (ih hgrows.table hreach hrest).mono ?_
          rintro r u ⟨new, hgrows', -, hfound⟩
          exact ⟨new ++ [page], hgrows.trans hgrows', fun h => Bool.noConfusion h, hfound⟩

theorem walk_panics (alloc : Bool) (hva : maxva ≤ va) : Fails (walk root va alloc) s .walk := by
  unfold Fails walk
  rw [if_pos hva]
  rfl

theorem walk_spec (hs : Table kend s root) (alloc : Bool) (hva : va < maxva) :
    Runs (walk root va alloc) s (fun r t => ∃ new, Grows kend s t root new ∧
      (alloc = false → t = s ∧ r = (reach s.child (path va) root).map fun n => (n, px 0 va)) ∧
      ∀ n i, r = some (n, i) → i = px 0 va ∧ reach t.child (path va) root = some n) := by
  unfold walk
  rw [if_neg (not_le.2 hva)]
  have hroot : reach s.child [] root = some root := rfl
  refine (walkLoop_spec alloc hs hroot rfl).bind ?_
  rintro r t ⟨new, hgrows, hsame, hfound⟩
  cases r with
  | none =>
    refine Runs.ret ⟨new, hgrows, fun h => ⟨(hsame h).1, ?_⟩, ?_⟩
    · rw [← (hsame h).2]
      rfl
    · rintro n i ⟨⟩
  | some m =>
    refine Runs.ret ⟨new, hgrows, fun h => ⟨(hsame h).1, ?_⟩, ?_⟩
    · rw [← (hsame h).2]
      rfl
    · rintro n i ⟨⟩
      exact ⟨rfl, hfound m rfl⟩

end walk

section mappages

variable {kend root va pa perm a rounds : ℕ} {s t u : Phys} {new : List ℕ}

/-- The table after `j` pages from `a` on have been mapped, which were not mapped before. -/
structure Maps (kend : ℕ) (s t : Phys) (root a pa perm j : ℕ) (new : List ℕ) : Prop where
  table : Table kend t root
  nodes : (t.nodes root).Perm (new ++ s.nodes root)
  free : s.freelist.Perm (new ++ t.freelist)
  frame : ∀ x, x ∉ new → x ∉ s.nodes root → t.pages x = s.pages x
  lookup : ∀ x < 2 ^ 39, t.lookup root x =
    if a ≤ x ∧ x < a + j * pgsize then
      some (leafPte ((pa + (x - a) / pgsize * pgsize) % 2 ^ 64) perm)
    else s.lookup root x
  unmapped : ∀ x < 2 ^ 39, a ≤ x → x < a + j * pgsize → s.lookup root x = none

theorem Grows.maps (h : Grows kend s t root new) : Maps kend s t root a pa perm 0 new := by
  refine ⟨h.table, h.nodes, h.free, fun x hx hn => h.frame x hx fun hin => hn (inner_subset hin),
    fun x _ => ?_, fun x _ hax hxa => ?_⟩
  · rw [if_neg (by omega), h.lookup]
  · omega

theorem maxva_eq : maxva = 274877906944 := by norm_num [maxva]

theorem maxva_lt : maxva < 2 ^ 39 := by
  rw [maxva_eq]
  norm_num

theorem Grows.map_one (h : Grows kend s t root new) {n : ℕ} (ha : a < maxva) (hal : a % pgsize = 0)
    (hr : reach t.child (path a) root = some n) (hpa : pa < 2 ^ 64) (hperm : perm < 1024)
    (hfree : valid (t.pte n (px 0 a)) = false) :
    Maps kend s (written t n (px 0 a) (leafPte pa perm)) root a pa perm 1 new := by
  obtain ⟨htable, hnodes, -, hlookup⟩ :=
    h.table.write (lt_trans ha maxva_lt) hr (leafPte_lt hpa hperm)
  have hnone : t.lookup root a = none := by
    rw [Phys.lookup, hr, Option.bind_some, hfree]
    rfl
  have hpage (x : ℕ) : x / pgsize = a / pgsize ↔ a ≤ x ∧ x < a + 1 * pgsize := by
    unfold pgsize at hal ⊢
    omega
  refine ⟨htable, by rw [hnodes]; exact h.nodes, h.free, fun x hx hn => ?_, fun x hx => ?_,
    fun x hx hax hxa => ?_⟩
  · have hmem : n ∈ t.nodes root := (h.table.leaf_mem hr).1
    rw [written_pages fun heq => ?_]
    · exact h.frame x hx fun hin => hn (inner_subset hin)
    · rw [← heq, h.nodes.mem_iff, mem_append] at hmem
      exact hmem.elim hx hn
  · rw [hlookup x hx, h.lookup]
    by_cases hin : x / pgsize = a / pgsize
    · have hin' := (hpage x).1 hin
      have hzero : (x - a) / pgsize = 0 := by
        rw [Nat.div_eq_zero_iff]
        omega
      rw [if_pos hin, if_pos hin', if_pos (valid_leafPte hperm), hzero, zero_mul, add_zero,
        mod_eq_of_lt hpa]
    · rw [if_neg hin, if_neg fun h => hin ((hpage x).2 h)]
  · have hsame := px_of_page_eq ((hpage x).2 ⟨hax, hxa⟩)
    rw [← h.lookup, Phys.lookup, hsame.1, hsame.2]
    exact hnone

theorem Maps.append {j : ℕ} {new' : List ℕ} (h : Maps kend s t root a pa perm 1 new)
    (h' : Maps kend t u root (a + pgsize) (add64 pa pgsize) perm j new') :
    Maps kend s u root a pa perm (j + 1) (new' ++ new) := by
  refine ⟨h'.table, ?_, ?_, fun x hx hn => ?_, fun x hx => ?_, fun x hx hax hxa => ?_⟩
  · rw [append_assoc]
    exact h'.nodes.trans (h.nodes.append_left new')
  · refine h.free.trans ((h'.free.append_left new).trans ?_)
    rw [append_assoc]
    exact perm_append_comm_assoc new new' u.freelist
  · rw [mem_append, not_or] at hx
    rw [h'.frame x hx.1 fun hmem => ?_, h.frame x hx.2 hn]
    rw [h.nodes.mem_iff, mem_append] at hmem
    exact hmem.elim hx.2 hn
  · rw [h'.lookup x hx, h.lookup x hx, add_mul, one_mul]
    by_cases hlow : x < a + pgsize
    · rw [if_neg (by omega)]
      by_cases hax : a ≤ x
      · rw [if_pos ⟨hax, hlow⟩, if_pos ⟨hax, by omega⟩]
      · rw [if_neg fun h => hax h.1, if_neg fun h => hax h.1]
    · by_cases hin : x < a + pgsize + j * pgsize
      · have hdiv : (x - a) / pgsize * pgsize = (x - (a + pgsize)) / pgsize * pgsize + pgsize := by
          unfold pgsize at hlow ⊢
          omega
        have hwrap (k : ℕ) : (add64 pa pgsize + k) % 2 ^ 64 = (pa + (k + pgsize)) % 2 ^ 64 := by
          unfold add64
          omega
        rw [if_pos ⟨by omega, hin⟩, if_pos ⟨by omega, by omega⟩, hdiv, hwrap]
      · rw [if_neg (by omega), if_neg (by omega), if_neg (by omega)]
  · by_cases hlow : x < a + pgsize
    · exact h.unmapped x hx hax (by omega)
    · have hnone := h'.unmapped x hx (by omega) (by rw [add_mul] at hxa; omega)
      rw [h.lookup x hx, if_neg (by omega)] at hnone
      exact hnone

/-- `mappages` maps all its pages, or stops before one for which there is no page-table page; it
panics only at a page that is mapped, or that lies beyond `MAXVA`. -/
theorem mappagesLoop_spec (hs : Table kend s root) (ha : a < 2 ^ 40) (hal : a % pgsize = 0)
    (hpa : pa < 2 ^ 64) (hperm : perm < 1024) (hpos : 0 < rounds) (hrounds : rounds ≤ 2 ^ 52) :
    Yields (mappagesLoop root perm ((a + (rounds - 1) * pgsize) % 2 ^ 64) rounds a pa) s
      (fun r t => ∃ j new, Maps kend s t root a pa perm j new ∧ j ≤ rounds ∧
        (r = true → j = rounds ∧ a + rounds * pgsize ≤ maxva) ∧ (r = false → j < rounds))
      (fun e => e = .walk ∧ maxva < a + rounds * pgsize ∨
        e = .mappagesRemap ∧ ∃ x < maxva, a ≤ x ∧ x < a + rounds * pgsize ∧
        s.lookup root x ≠ none) := by
  induction rounds generalizing s a pa with
  | zero => omega
  | succ rounds ih =>
    rw [mappagesLoop]
    by_cases hmax : maxva ≤ a
    · refine Yields.stops (walk_panics true hmax) (.inl ⟨rfl, ?_⟩)
      rw [add_mul]
      unfold pgsize
      omega
    · have hle : a + pgsize ≤ maxva := by
        rw [maxva_eq] at hmax ⊢
        unfold pgsize at hal ⊢
        omega
      refine Yields.bind (.of_runs (walk_spec hs true (not_le.1 hmax))) ?_
      rintro r t ⟨new, hgrows, -, hfound⟩
      cases r with
      | none =>
        refine Yields.ret ⟨0, new, hgrows.maps, zero_le _, fun h => Bool.noConfusion h, fun _ => ?_⟩
        omega
      | some ni =>
        obtain ⟨n, i⟩ := ni
        obtain ⟨rfl, hreach⟩ := hfound n i rfl
        refine Yields.reads ?_
        by_cases hval : valid (t.pte n (px 0 a)) = true
        · rw [if_pos hval]
          refine Yields.fail (.inr ⟨rfl, a, not_le.1 hmax, le_rfl, ?_, ?_⟩)
          · rw [add_mul, one_mul]
            have hpg : 0 < pgsize := by decide
            exact lt_of_lt_of_le (Nat.lt_add_of_pos_right hpg)
              (Nat.add_le_add_left (Nat.le_add_left _ _) a)
          · rw [← hgrows.lookup, Phys.lookup, hreach, Option.bind_some, if_pos hval]
            simp
        · rw [if_neg hval]
          have hone := hgrows.map_one (not_le.1 hmax) hal hreach hpa hperm (by simpa using hval)
          refine Yields.modifies ?_
          change Yields _ (written t n (px 0 a) (leafPte pa perm)) _ _
          have hlast : a = (a + (rounds + 1 - 1) * pgsize) % 2 ^ 64 ↔ rounds = 0 := by
            unfold pgsize
            omega
          by_cases hend : rounds = 0
          · subst hend
            rw [if_pos (hlast.2 rfl)]
            refine Yields.ret ⟨1, new, hone, le_rfl, fun _ => ⟨rfl, ?_⟩,
              fun h => Bool.noConfusion h⟩
            rw [zero_add, one_mul]
            exact hle
          · rw [if_neg fun h => hend (hlast.1 h)]
            have hnext : add64 a pgsize = a + pgsize := by
              unfold add64 pgsize
              omega
            have hsame : (a + (rounds + 1 - 1) * pgsize) % 2 ^ 64 =
                (a + pgsize + (rounds - 1) * pgsize) % 2 ^ 64 := by
              rw [show a + (rounds + 1 - 1) * pgsize = a + pgsize + (rounds - 1) * pgsize by
                unfold pgsize; omega]
            have hsize : a + pgsize + rounds * pgsize = a + (rounds + 1) * pgsize := by
              unfold pgsize
              omega
            rw [hnext, hsame]
            have ha' : a + pgsize < 2 ^ 40 := by
              rw [maxva_eq] at hmax
              unfold pgsize
              omega
            have hpa' : add64 pa pgsize < 2 ^ 64 := mod_lt _ (by norm_num)
            refine (ih hone.table ha' (by unfold pgsize at hal ⊢; omega) hpa' (by omega)
              (by omega)).mono ?_ ?_
            · rintro r u ⟨j, new', hmaps, hj, htrue, hfalse⟩
              refine ⟨j + 1, new' ++ new, hone.append hmaps, by omega, fun h => ?_, fun h => ?_⟩
              · obtain ⟨rfl, hle⟩ := htrue h
                rw [hsize] at hle
                exact ⟨rfl, hle⟩
              · have := hfalse h
                omega
            · rintro e (⟨rfl, hlt⟩ | ⟨rfl, x, hx, hax, hxa, hne⟩)
              · rw [hsize] at hlt
                exact .inl ⟨rfl, hlt⟩
              · rw [hsize] at hxa
                refine .inr ⟨rfl, x, hx, by omega, hxa, ?_⟩
                rw [hone.lookup x (lt_trans hx maxva_lt), if_neg (by omega)] at hne
                exact hne

end mappages

end Xv6.Vm
