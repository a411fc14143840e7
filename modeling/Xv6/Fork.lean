import Xv6.UserCopy

/-!
# Copying an address space

`uvmcopy` of `kernel/vm.c`, with which `fork` gives the child the memory of the parent, and
`freeproc` of `kernel/proc.c`, which takes the child apart again if a page is missing. `fork` sets
`np->sz` only after `uvmcopy` has succeeded, so `freeproc` sees the size 0 then and unmaps nothing
of the user range itself: `uvmcopy` must have left it empty.
-/

namespace Xv6.Vm

open Xv6.Radix List Function Nat

/-- The label `err` of `uvmcopy`, after a failure at the address `i`. -/
def uvmcopyErr (kend new i : ℕ) : M Bool := do
  uvmunmap kend new 0 (i / pgsize) true
  pure false

def uvmcopyLoop (kend old new sz : ℕ) : ℕ → ℕ → M Bool
  | 0, _ => throw .outOfRounds
  | rounds + 1, i =>
    if i < sz then do
      match ← walk old i false with
      | none => throw .uvmcopyPte
      | some (n, j) => do
          let s ← get
          let pte := s.pte n j
          if !valid pte then throw .uvmcopyPage
          else do
            match ← kalloc with
            | none => uvmcopyErr kend new i
            | some mem => do
                memmove mem (pte2pa pte) pgsize
                if ← mappages new i pgsize mem (pteFlags pte) then
                  uvmcopyLoop kend old new sz rounds (add64 i pgsize)
                else do
                  kfree kend mem
                  uvmcopyErr kend new i
    else pure true

def uvmcopy (kend old new sz : ℕ) : M Bool := uvmcopyLoop kend old new sz (sz / pgsize + 2) 0

def freeproc (kend depth tf pagetable sz : ℕ) : M Unit := do
  (if tf ≠ 0 then kfree kend tf else pure ())
  (if pagetable ≠ 0 then procFreepagetable kend depth pagetable sz else pure ())

section other

variable {kend root root' lo : ℕ} {s u : Phys} {ms : List Leaf} {new : List ℕ}

theorem Built.other (h : Built kend s u root lo ms new) (ho : Table kend s root')
    (hdis : ∀ n ∈ s.nodes root', n ∉ s.nodes root) :
    Table kend u root' ∧ u.nodes root' = s.nodes root' ∧ ∀ va,
    u.lookup root' va = s.lookup root' va := by
  have hpages : ∀ n ∈ s.nodes root', u.pages n = s.pages n := fun n hn =>
    h.frame n (fun hfree => ho.free_fresh n hfree hn) (hdis n hn)
  exact ho.of_nodes hpages h.table.free_nodup h.table.free_pages fun p hp =>
    ho.free_fresh p (h.free_subset hp)

theorem pteFlags_lt (pte : ℕ) : pteFlags pte < 1024 := lt_of_le_of_lt and_le_right (by decide)

/-- The flags of a valid PTE have the bit that `mappages` adds. -/
theorem pteFlags_or_pteV {pte : ℕ} (h : valid pte = true) :
    pteFlags pte ||| pteV = pteFlags pte := by
  rw [valid_iff] at h
  refine eq_of_testBit_eq fun i => ?_
  cases i with
  | zero => simp [pteFlags, pteV, h]
  | succ i =>
    rw [testBit_or]
    simp [pteV, testBit_succ]

end other

section uvmcopy

variable {kend old new sz k : ℕ} {s t u : Phys} {ms : List Leaf} {nodes : List ℕ}

/-- What `fork` gives to `uvmcopy`: the parent has all pages of its size, the child none of them,
the tables share no node, and the parent's pages are neither free nor part of the child's table. -/
structure Copyable (kend : ℕ) (s : Phys) (old new sz : ℕ) : Prop where
  parent : Table kend s old
  child : Table kend s new
  mapped : ∀ x < npages sz * pgsize, x < maxva ∧ ∃ pte, s.lookup old x = some pte ∧
    pteFlags pte ≠ pteV
  unmapped : ∀ x < npages sz * pgsize, s.lookup new x = none
  nodes : ∀ n ∈ s.nodes old, n ∉ s.nodes new
  own : ∀ x < npages sz * pgsize, ∀ pte, s.lookup old x = some pte → pte2pa pte ∉ s.freelist ∧
    pte2pa pte ∉ s.nodes new

theorem Copyable.bound (h : Copyable kend s old new sz) : npages sz * pgsize ≤ maxva := by
  rcases Nat.eq_zero_or_pos (npages sz * pgsize) with hzero | hpos
  · rw [hzero]
    exact zero_le _
  · have := (h.mapped (npages sz * pgsize - 1) (by omega)).1
    omega

def Leaf.CopyOf (m : Leaf) (s : Phys) (old x : ℕ) : Prop :=
  ∃ pte, s.lookup old x = some pte ∧ m.perm = pteFlags pte ∧ ∀ k < pgsize,
    m.bytes k = s.pages (pte2pa pte) k

/-- What `uvmcopy` asks for at the page `va` of the parent, of which `pte` is the PTE: `kalloc` for
the copy and `mappages` for its mapping. -/
def copyPage (new va pte : ℕ) : M Bool := do
  match ← kalloc with
  | none => pure false
  | some mem => do
      memmove mem (pte2pa pte) pgsize
      mappages new va pgsize mem (pteFlags pte)

/-- `kalloc` and `mappages` have succeeded for `i` pages from `s` on, which leads to the state. -/
inductive Granted (old new : ℕ) (s : Phys) : ℕ → Phys → Prop
  | start : Granted old new s 0 s
  | page {i pte : ℕ} {u v : Phys} : Granted old new s i u → s.lookup old (i * pgsize) = some pte →
      copyPage new (i * pgsize) pte u = .ok (true, v) → Granted old new s (i + 1) v

/-- At one of the pages, after they have succeeded for those before it, `kalloc` or `mappages`
fails. -/
def Refused (old new sz : ℕ) (s : Phys) : Prop :=
  ∃ i < npages sz, ∃ u v pte, Granted old new s i u ∧ s.lookup old (i * pgsize) = some pte ∧
    copyPage new (i * pgsize) pte u = .ok (false, v)

theorem Granted.unique {i : ℕ} (h : Granted old new s i t) (h' : Granted old new s i u) :
    t = u := by
  induction h generalizing u with
  | start =>
    cases h'
    rfl
  | page _ hpte hcopy ih =>
    cases h' with
    | page h' hpte' hcopy' =>
      cases ih h'
      cases hpte.symm.trans hpte'
      cases hcopy.symm.trans hcopy'
      rfl

theorem Granted.not_refused (h : Granted old new s (npages sz) t) : ¬ Refused old new sz s := by
  rintro ⟨i, hi, u, v, pte, hu, hpte, hfail⟩
  generalize npages sz = n at h hi
  induction h with
  | start => omega
  | page h hpte' hcopy ih =>
    rcases Nat.lt_succ_iff_lt_or_eq.1 hi with hlt | rfl
    · exact ih hlt
    · cases hu.unique h
      cases hpte.symm.trans hpte'
      cases hcopy.symm.trans hfail

structure Copies (kend : ℕ) (s u : Phys) (old new : ℕ) (ms : List Leaf) (nodes : List ℕ) :
    Prop where
  built : Built kend s u new 0 ms nodes
  copy : ∀ j (m : Leaf), ms[j]? = some m → m.CopyOf s old (j * pgsize)
  granted : Granted old new s ms.length u

theorem uvmcopyErr_spec (hc : Copyable kend s old new sz) (h : Built kend s u new 0 ms nodes)
    (hlen : ms.length ≤ npages sz) : Runs (uvmcopyErr kend new (ms.length * pgsize)) u fun r t =>
      r = false ∧ Built kend s t new 0 [] nodes := by
  have hle : ms.length * pgsize ≤ npages sz * pgsize := mul_le_mul_right _ hlen
  have hmapped := h.mapped hc.child (by have := hc.bound; omega)
  unfold uvmcopyErr
  rw [Nat.mul_div_cancel _ (by decide : 0 < pgsize)]
  refine (uvmunmap_spec h.table (by decide) hmapped).bind ?_
  rintro - t ⟨fr, hun, hfr⟩
  refine Runs.ret ⟨rfl, h.undo hc.child (fun x _ hx => hc.unmapped x (by omega)) hun hfr⟩

theorem Copies.fill {page pte : ℕ} (h : Copies kend s u old new ms nodes) (answers : List ℕ)
    (hc : Copyable kend s old new sz) (hpage : page ∈ u.freelist) (hfree : pte2pa pte ∉ s.freelist)
    (hnode : pte2pa pte ∉ s.nodes new) :
    let w : Phys := { pages := update u.pages page fun _ => 5
                      freelist := u.freelist.erase page
                      answers := answers }
    let v := w.fill page pgsize fun i => w.byte (pte2pa pte + i)
    Took u v page ∧ ∀ k < pgsize, v.pages page k = s.pages (pte2pa pte) k := by
  intro w v
  have hal := (hc.child.free_pages page (h.built.free_subset hpage)).1
  have hne : pte2pa pte ≠ page := fun heq => hfree (heq ▸ h.built.free_subset hpage)
  refine ⟨⟨hpage, fun x hx => ?_, rfl⟩, fun k hk => ?_⟩
  · exact (fill_page _ hal le_rfl le_rfl hx).trans (update_of_ne hx ..)
  · have hsrc : (pte2pa pte + k) / pgsize * pgsize = pte2pa pte ∧
        (pte2pa pte + k) % pgsize = k := by
      have := pte2pa_mod pte
      unfold pgsize at *
      omega
    have hstore : v.pages page k = w.byte (pte2pa pte + k) := by
      change (if _ ∧ _ ∧ _ ∧ _ then _ else _) = _
      rw [if_pos ⟨hal, hk, by omega, by omega⟩, Nat.add_sub_cancel_left]
    have hkeep : w.pages (pte2pa pte) = u.pages (pte2pa pte) := by simp [w, hne]
    rw [hstore, Phys.byte, hsrc.1, hsrc.2, ← h.built.frame _ hfree hnode, hkeep]

theorem Copies.walk {x pte : ℕ} (h : Copies kend s u old new ms nodes)
    (hc : Copyable kend s old new sz) (hx : x < npages sz * pgsize)
    (hpte : s.lookup old x = some pte) :
    ∃ n j, Vm.walk old x false u = .ok (some (n, j), u) ∧ u.pte n j = pte ∧ valid pte = true := by
  obtain ⟨htable, -, hlookup⟩ := h.built.other hc.parent hc.nodes
  rw [← hlookup] at hpte
  have hmax := hc.bound
  rcases walk_reads htable (show x < maxva by omega) with ⟨-, hnone⟩ | ⟨n, j, hwalk, hval⟩
  · rw [hnone] at hpte
    cases hpte
  · rw [hpte] at hval
    split at hval
    next hv =>
      cases hval
      exact ⟨n, j, hwalk, rfl, hv⟩
    next => cases hval

theorem Copies.push {m : Leaf} {nodes' : List ℕ} (h : Copies kend s u old new ms nodes)
    (hb : Built kend s t new 0 (ms ++ [m]) nodes') (hm : m.CopyOf s old (ms.length * pgsize))
    (hg : Granted old new s (ms.length + 1) t) : Copies kend s t old new (ms ++ [m]) nodes' := by
  refine ⟨hb, fun i m' hi => ?_, by rwa [length_append, length_singleton]⟩
  rcases lt_or_ge i ms.length with hold | hge
  · rw [List.getElem?_append_left hold] at hi
    exact h.copy i m' hi
  · rw [List.getElem?_append_right hge, List.getElem?_singleton] at hi
    split at hi
    next heq =>
      obtain rfl : i = ms.length := by omega
      cases hi
      exact hm
    next => cases hi

theorem uvmcopyLoop_spec {rounds : ℕ} (hc : Copyable kend s old new sz)
    (h : Copies kend s u old new ms nodes) (hlen : ms.length ≤ npages sz)
    (hrounds : npages sz < ms.length + rounds) :
    Runs (uvmcopyLoop kend old new sz rounds (ms.length * pgsize)) u fun r t =>
      (r = true ∧ ∃ (ms' : List Leaf) (nodes' : List ℕ), Copies kend s t old new ms' nodes' ∧
        ms'.length = npages sz) ∨
      (r = false ∧ Refused old new sz s ∧ ∃ nodes', Built kend s t new 0 [] nodes') := by
  induction rounds generalizing u ms nodes with
  | zero => omega
  | succ rounds ih =>
    have hpg : pgsize = 4096 := rfl
    have hbound := hc.bound
    have hmax := maxva_eq
    rw [uvmcopyLoop]
    by_cases hi : ms.length * pgsize < sz
    swap
    · rw [if_neg hi]
      refine Runs.ret (.inl ⟨rfl, ms, nodes, h, ?_⟩)
      rw [hpg] at hi
      unfold npages at hlen ⊢
      omega
    rw [if_pos hi]
    have hlt : ms.length < npages sz := by
      rw [hpg] at hi
      unfold npages
      omega
    have hnext : (ms.length + 1) * pgsize ≤ npages sz * pgsize := mul_le_mul_right _ hlt
    have hin : ms.length * pgsize < npages sz * pgsize := mul_lt_mul_of_pos_right hlt (by decide)
    rw [add_mul, one_mul] at hnext
    obtain ⟨-, pte, hpte, hleaf⟩ := hc.mapped _ hin
    obtain ⟨hfree, hnode⟩ := hc.own _ hin pte hpte
    obtain ⟨n, j, hwalk, heq, hvalid⟩ := h.walk hc hin hpte
    refine Runs.bind (Q := fun r t => r = some (n, j) ∧ t = u) ⟨_, _, hwalk, rfl, rfl⟩ ?_
    rintro r v ⟨rfl, rfl⟩
    refine Runs.reads ?_
    dsimp only
    rw [heq, hvalid, Bool.not_true, if_neg (by simp)]
    rcases kalloc_cases v with ⟨answers, hkal⟩ | ⟨page, hpage, answers, hkal⟩
    · -- no page for the data
      refine Runs.bind (Q := fun r t => r = none ∧ t = { v with answers := answers })
        ⟨none, _, hkal, rfl, rfl⟩ ?_
      rintro r w ⟨rfl, rfl⟩
      refine (uvmcopyErr_spec hc (h.built.answers answers) hlen).mono ?_
      rintro r t ⟨rfl, ht⟩
      exact .inr ⟨rfl, ⟨_, hlt, v, _, pte, h.granted, hpte, bind_of_ok hkal⟩, nodes, ht⟩
    · refine Runs.bind (Q := fun r t => r = some page ∧ t =
        { pages := update v.pages page fun _ => 5
          freelist := v.freelist.erase page
          answers := answers }) ⟨some page, _, hkal, rfl, rfl⟩ ?_
      rintro r w ⟨rfl, rfl⟩
      refine Runs.modifies ?_
      obtain ⟨htook, hbytes⟩ := h.fill answers hc hpage hfree hnode
      revert htook hbytes
      generalize hfill : Phys.fill _ page pgsize _ = w
      intro htook hbytes
      have hok : (⟨page, pteFlags pte, w.pages page⟩ : Leaf).Ok := by
        refine ⟨pteFlags_lt pte, ?_⟩
        rw [pteFlags_or_pteV hvalid]
        exact hleaf
      have hrun := h.built.mapNext hc.child htook rfl (by rw [add_mul]; omega) hok fun x _ hx' =>
        hc.unmapped x (by omega)
      rw [zero_add] at hrun
      obtain ⟨r, t, hmap, nodes', hm⟩ := hrun
      have hcopy : copyPage new (ms.length * pgsize) pte v = .ok (r, t) := by
        rw [← hfill] at hmap
        exact (bind_of_ok hkal).trans hmap
      refine Runs.bind (Q := fun r' t' => r' = r ∧ t' = t) ⟨_, _, hmap, rfl, rfl⟩ ?_
      rintro r t ⟨rfl, rfl⟩
      rcases hm with ⟨rfl, hstep⟩ | ⟨rfl, hback⟩
      · -- the page is mapped, and the loop goes on
        have hsucc : (ms ++ [(⟨page, pteFlags pte, w.pages page⟩ : Leaf)]).length =
            ms.length + 1 := by simp
        have hadd : add64 (ms.length * pgsize) pgsize =
            (ms ++ [(⟨page, pteFlags pte, w.pages page⟩ : Leaf)]).length * pgsize := by
          rw [hsucc, add_mul, one_mul, add64, mod_eq_of_lt (by omega)]
        rw [if_pos rfl, hadd]
        exact ih (h.push hstep ⟨pte, hpte, rfl, hbytes⟩ (h.granted.page hpte hcopy))
          (by omega) (by omega)
      · -- there is no page-table page for it
        rw [if_neg (by simp)]
        refine (kfree_runs (h.built.table.free_pages page hpage)).bind ?_
        rintro - x rfl
        refine (uvmcopyErr_spec hc hback hlen).mono ?_
        rintro r u ⟨rfl, hu⟩
        exact .inr ⟨rfl, ⟨_, hlt, v, t, pte, h.granted, hpte, hcopy⟩, _, hu⟩

theorem uvmcopy_spec (hc : Copyable kend s old new sz) : Runs (uvmcopy kend old new sz) s fun r t =>
      (r = true ∧ ∃ (ms : List Leaf) (nodes : List ℕ), Copies kend s t old new ms nodes ∧
        ms.length = npages sz) ∨
      (r = false ∧ Refused old new sz s ∧ ∃ nodes, Built kend s t new 0 [] nodes) := by
  have hrounds : npages sz < 0 + (sz / pgsize + 2) := by
    unfold npages pgsize
    omega
  have hrun := uvmcopyLoop_spec hc ⟨Built.refl hc.child, nofun, .start⟩ (zero_le _) hrounds
  rwa [length_nil, zero_mul] at hrun

def Unused (s : Phys) (root : ℕ) : Prop :=
  ∀ x < 2 ^ 39, ∀ pte, s.lookup root x = some pte → pte2pa pte ∉ s.freelist

structure Duplicate (kend : ℕ) (s t : Phys) (old new sz : ℕ) : Prop where
  copy : ∀ x < npages sz * pgsize, ∃ pte pte', s.lookup old x = some pte ∧
    t.lookup new x = some pte' ∧ pteFlags pte' = pteFlags pte ∧
    (∀ k < pgsize, t.pages (pte2pa pte') k = s.pages (pte2pa pte) k) ∧
    pte2pa pte' ∈ s.freelist ∧ pte2pa pte' ∉ t.freelist ∧ pte2pa pte' ∉ t.nodes new
  apart : ∀ x < npages sz * pgsize, ∀ y < npages sz * pgsize, ∀ pte pte',
    t.lookup new x = some pte → t.lookup new y = some pte' → pte2pa pte = pte2pa pte' →
    x / pgsize = y / pgsize
  rest : ∀ x < 2 ^ 39, npages sz * pgsize ≤ x → t.lookup new x = s.lookup new x

theorem Copies.duplicate (h : Copies kend s t old new ms nodes) (hc : Copyable kend s old new sz)
    (hlen : ms.length = npages sz) : Duplicate kend s t old new sz := by
  obtain ⟨hnodup, hown⟩ := h.built.own hc.child
  refine ⟨fun x hx => ?_, fun x hx y hy pte pte' hpte hpte' heq => ?_, fun x hx hge => ?_⟩
  · obtain ⟨m, hmem, hm, hlook, hpa⟩ := h.built.leaf_at hc.child (by rwa [hlen])
    obtain ⟨pte, hpte, hperm, hbytes⟩ := h.copy _ m hm
    obtain ⟨-, -, -, hval⟩ := reach_of_lookup hpte
    refine ⟨pte, m.pte, ?_, hlook, ?_, fun k hk => ?_, ?_⟩
    · rw [← hpte]
      exact lookup_page (Nat.mul_div_cancel _ (by decide)).symm
    · rw [Leaf.pte, pteFlags_leafPte _ (h.built.ok m hmem).lt, hperm, pteFlags_or_pteV hval]
    · rw [hpa, h.built.bytes m hmem, hbytes k hk]
    · obtain ⟨hfree, hnode, hout⟩ := hown m.page (mem_map_of_mem hmem)
      rw [hpa]
      exact ⟨hfree, hout, hnode⟩
  · rw [← hlen] at hx hy
    obtain ⟨m, -, hm, hlook, hpa⟩ := h.built.leaf_at hc.child hx
    obtain ⟨m', -, hm', hlook', hpa'⟩ := h.built.leaf_at hc.child hy
    rw [hlook] at hpte
    rw [hlook'] at hpte'
    cases hpte
    cases hpte'
    rw [hpa, hpa'] at heq
    -- the same page stands at one place of the list only
    have hj : (ms.map Leaf.page)[x / pgsize]? = some m.page := by rw [List.getElem?_map, hm]; rfl
    have hj' : (ms.map Leaf.page)[y / pgsize]? =
        some m.page := by rw [List.getElem?_map, hm', heq]; rfl
    exact (List.getElem?_inj (List.getElem?_eq_some_iff.1 hj).1 hnodup).1 (hj.trans hj'.symm)
  · refine h.built.old x hx ?_
    rw [hlen]
    omega

/-- The child's pages are mapped nowhere else, if no free page was mapped. -/
theorem Duplicate.alone (h : Duplicate kend s t old new sz) (hnew : Unused s new) {x y : ℕ}
    (hx : x < npages sz * pgsize) (hy : y < 2 ^ 39) (hne : x / pgsize ≠ y / pgsize) {pte pte' : ℕ}
    (hpte : t.lookup new x = some pte) (hpte' : t.lookup new y = some pte') :
    pte2pa pte ≠ pte2pa pte' := by
  intro heq
  by_cases hin : y < npages sz * pgsize
  · exact hne (h.apart x hx y hin pte pte' hpte hpte' heq)
  · rw [h.rest y hy (not_lt.1 hin)] at hpte'
    obtain ⟨-, q, -, hq, -, -, hfree, -⟩ := h.copy x hx
    rw [hpte] at hq
    cases hq
    exact hnew y hy pte' hpte' (heq ▸ hfree)

theorem freeproc_spec {tf : ℕ} (hkend : kernbase ≤ kend) (hs : UserMem kend s new 0)
    (hup : Upper s new) (ht : IsPage kend tf) (hnode : tf ∉ s.nodes new)
    (hfree : tf ∉ s.freelist) (depth : ℕ) : Runs (freeproc kend (depth + 3) tf new 0) s fun _ t =>
      t.freelist.Perm (s.nodes new ++ (tf :: s.freelist)) := by
  obtain ⟨htable, hnodes, -, hlookup⟩ := hs.table.freed ht hnode hfree
  have hpos : 0 < kend := lt_of_lt_of_le (by decide) hkend
  have hroot : IsPage kend new := hs.table.pages new self_mem_nodes
  unfold freeproc
  rw [if_pos (by have := ht.2.1; omega), if_pos (by have := hroot.2.1; omega)]
  refine (kfree_runs ht).bind ?_
  rintro - u rfl
  refine (procFreepagetable_spec hkend (hs.congr htable (fun x _ => hlookup x) nofun)
    (hup.congr fun x _ _ => hlookup x) depth).mono ?_
  rintro - t ⟨hperm, -⟩
  rw [hnodes] at hperm
  exact hperm

/-- `uvmcopy` copies all pages, or leaves the child as it was but for new page-table pages, and then
`freeproc` frees all that the child has. -/
theorem uvmcopy_exact (hkend : kernbase ≤ kend) (hc : Copyable kend s old new sz) :
    Runs (uvmcopy kend old new sz) s fun r t =>
      -- the parent's table and memory, and those of others, are unchanged
      (∀ x, x ∉ s.freelist → x ∉ s.nodes new → t.pages x = s.pages x) ∧
      (∀ x, t.lookup old x = s.lookup old x) ∧
      (r = false ↔ Refused old new sz s) ∧
      (r = true → Duplicate kend s t old new sz ∧
        -- the pages are mapped nowhere else
        (Unused s new → ∀ x < npages sz * pgsize, ∀ y < 2 ^ 39, x / pgsize ≠ y / pgsize →
          ∀ pte pte', t.lookup new x = some pte → t.lookup new y = some pte' →
          pte2pa pte ≠ pte2pa pte') ∧
        ∀ root, Table kend s root → (∀ n ∈ s.nodes root, n ∉ s.nodes new) → Unused s root →
          ∀ x < npages sz * pgsize, ∀ y < 2 ^ 39, ∀ pte pte',
            t.lookup new x = some pte → t.lookup root y = some pte' → pte2pa pte ≠ pte2pa pte') ∧
      (r = false → (∀ x < npages sz * pgsize, t.lookup new x = none) ∧
        -- all pages that are not nodes of the child's table are back
        (∃ nodes, (t.nodes new).Perm (nodes ++ s.nodes new) ∧
          s.freelist.Perm (nodes ++ t.freelist)) ∧
        ∀ depth ≥ 3, ∀ tf, UserMem kend s new 0 → Upper s new → IsPage kend tf →
          tf ∉ s.nodes new → tf ∉ s.freelist →
          Runs (freeproc kend depth tf new 0) t fun _ u =>
            u.freelist.Perm (tf :: (s.nodes new ++ s.freelist))) := by
  refine (uvmcopy_spec hc).mono ?_
  have hmax := maxva_lt
  have hbound := hc.bound
  rintro r t (⟨rfl, ms, nodes, hcopies, hlen⟩ | ⟨rfl, hrefused, nodes, hbuilt⟩)
  · have hdup := hcopies.duplicate hc hlen
    have hgranted := hcopies.granted
    rw [hlen] at hgranted
    refine ⟨hcopies.built.frame, (hcopies.built.other hc.parent hc.nodes).2.2,
      iff_of_false Bool.noConfusion hgranted.not_refused, fun _ => ⟨hdup, ?_, ?_⟩, nofun⟩
    · exact fun hnew x hx y hy hne pte pte' => hdup.alone hnew hx hy hne
    · intro root hroot hdis hunused x hx y hy pte pte' hpte hpte' heq
      rw [(hcopies.built.other hroot hdis).2.2] at hpte'
      obtain ⟨-, q, -, hq, -, -, hfree, -⟩ := hdup.copy x hx
      rw [hpte] at hq
      cases hq
      exact hunused y hy pte' hpte' (heq ▸ hfree)
  · have hsame : ∀ x < 2 ^ 39, t.lookup new x = s.lookup new x := fun x hx =>
      hbuilt.old x hx (by rw [length_nil, zero_mul]; omega)
    refine ⟨hbuilt.frame, (hbuilt.other hc.parent hc.nodes).2.2, iff_of_true rfl hrefused, nofun,
      fun _ => ⟨fun x hx => ?_, ⟨nodes, hbuilt.nodes, hbuilt.free⟩, ?_⟩⟩
    · rw [hsame x (by omega)]
      exact hc.unmapped x hx
    · intro depth hdepth tf huser hup htp hnode hfree
      obtain ⟨d, rfl⟩ := Nat.exists_eq_add_of_le hdepth
      rw [add_comm]
      have htrap := trapframe_eq
      have huser' : UserMem kend t new 0 :=
        huser.congr hbuilt.table (fun x hx => hsame x (by omega)) nofun
      obtain ⟨hout, hout'⟩ := hbuilt.outside hfree hnode
      refine (freeproc_spec hkend huser' (hup.congr fun x hx _ => hsame x hx) htp hout' hout d).mono
        ?_
      rintro - u hperm
      refine hperm.trans (perm_middle.trans (List.Perm.cons _ ?_))
      have hall : (nodes ++ s.nodes new ++ t.freelist).Perm (s.nodes new ++ s.freelist) := by
        rw [append_assoc]
        exact (perm_append_comm_assoc _ _ _).trans (hbuilt.free.symm.append_left _)
      exact (hbuilt.nodes.append_right _).trans hall

theorem uvmcopy_exact_onePage : ∃ s, Copyable kernbase s tablePage (userPage + 4096) 100 ∧
    Runs (uvmcopy kernbase tablePage (userPage + 4096) 100) s fun r t =>
      r = true ∧ Duplicate kernbase s t tablePage (userPage + 4096) 100 := by
  obtain ⟨s, hone, hs, hlookup, hnodes, hfree, hzero⟩ := exists_onePage
  have hnew : IsPage kernbase (userPage + 4096) := by decide
  have hout : userPage + 4096 ∉ s.freelist := fun hmem => by
    have := hfree _ hmem
    omega
  obtain ⟨hchild, hnone⟩ :=
    Table.empty (hzero _ (le_add_right _ _)) hnew hs.free_nodup hs.free_pages hout
  have hchildNodes : s.nodes (userPage + 4096) = [userPage + 4096] := nodes_bare fun i => by
    simp [Phys.child, Phys.pte, hzero, Page.pte_zero, valid]
  have hpages : npages 100 * pgsize = pgsize := by decide
  have hmax := maxva_eq
  have hc : Copyable kernbase s tablePage (userPage + 4096) 100 := by
    refine ⟨hs, hchild, fun x hx => ?_, fun x _ => hnone x, fun n hn hmem => ?_,
      fun x hx pte hpte => ?_⟩
    · rw [hpages] at hx
      have hlt : x < maxva := by
        unfold pgsize at hx
        omega
      refine ⟨hlt, _, by rw [hlookup x (by omega), if_pos hx], by decide⟩
    · have := hnodes n hn
      rw [hchildNodes, mem_singleton] at hmem
      omega
    · rw [hpages] at hx
      rw [hlookup x (by unfold pgsize at hx; omega), if_pos hx] at hpte
      cases hpte
      rw [show pte2pa (leafPte userPage (pteR ||| pteW ||| pteU)) = userPage by decide, hchildNodes,
        mem_singleton]
      refine ⟨fun hmem => ?_, by omega⟩
      have := hfree _ hmem
      omega
  obtain ⟨r, t, hrun, -, -, -, hdup, -⟩ := uvmcopy_exact le_rfl hc
  have heval : onePage.toOption.elim false (fun one =>
      (uvmcopy kernbase tablePage (userPage + 4096) 100 one.2).toOption.elim false Prod.fst) =
        true := by
    decide +kernel
  rw [hone] at heval
  change (uvmcopy kernbase tablePage (userPage + 4096) 100 s).toOption.elim false Prod.fst =
    true at heval
  rw [hrun] at heval
  obtain rfl : r = true := heval
  exact ⟨s, hc, true, t, hrun, rfl, (hdup rfl).1⟩

end uvmcopy

end Xv6.Vm
