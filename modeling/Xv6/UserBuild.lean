import Xv6.PageTableFree

/-!
# Building a range of user pages

`uvmalloc` and `uvmcopy` map fresh pages one after the other from an address on, and give all of
them back when one is missing. `Built` says what the table and memory are like in between: which
pages have been mapped, with which permissions and contents, and which pages have become page-table
pages. Everything that is taken comes from the free list, and no page changes but these and the
nodes of the table. -/

namespace Xv6.Vm

open Xv6.Radix List Function Nat

structure Leaf where
  page : ℕ
  perm : ℕ
  bytes : Page

def Leaf.pte (m : Leaf) : ℕ := leafPte m.page m.perm

structure Leaf.Ok (m : Leaf) : Prop where
  lt : m.perm < 1024
  leaf : m.perm ||| pteV ≠ pteV

structure Took (u v : Phys) (page : ℕ) : Prop where
  mem : page ∈ u.freelist
  pages : ∀ x, x ≠ page → v.pages x = u.pages x
  free : v.freelist = u.freelist.erase page

/-- The table after the pages `ms` have been mapped from `lo` on. -/
structure Built (kend : ℕ) (s u : Phys) (root lo : ℕ) (ms : List Leaf) (new : List ℕ) : Prop where
  table : Table kend u root
  nodes : (u.nodes root).Perm (new ++ s.nodes root)
  free : s.freelist.Perm (new ++ (ms.map Leaf.page ++ u.freelist))
  frame : ∀ x, x ∉ s.freelist → x ∉ s.nodes root → u.pages x = s.pages x
  bytes : ∀ m ∈ ms, u.pages m.page = m.bytes
  old : ∀ x < 2 ^ 39, ¬ (lo ≤ x ∧ x < lo + ms.length * pgsize) → u.lookup root x = s.lookup root x
  leaf : ∀ j m, ms[j]? = some m → ∀ x, lo + j * pgsize ≤ x → x < lo + (j + 1) * pgsize →
    u.lookup root x = some m.pte
  ok : ∀ m ∈ ms, m.Ok

section targets

variable {root a k m : ℕ} {s t : Phys}

theorem targets_add (s : Phys) (root a m k : ℕ) : s.targets root a (m + k) =
    s.targets root a m ++ s.targets root (a + m * pgsize) k := by
  induction m generalizing a with
  | zero => simp [Phys.targets]
  | succ m ih =>
    rw [succ_add, Phys.targets, Phys.targets, ih, cons_append,
      show a + pgsize + m * pgsize = a + (m + 1) * pgsize by ring]

@[simp] theorem length_targets : (s.targets root a k).length = k := by
  induction k generalizing a with
  | zero => rfl
  | succ k ih => rw [Phys.targets, length_cons, ih]

theorem pte2pa_leafPte_page {kend page perm : ℕ} (hpage : IsPage kend page) (hperm : perm < 1024) :
    pte2pa (leafPte page perm) = page := by
  have hal := hpage.1
  rw [pte2pa_leafPte hperm]
  unfold pgsize at hal
  omega

theorem targets_of_leaf {ms : List Leaf}
    (hleaf : ∀ j m, ms[j]? = some m → s.lookup root (a + j * pgsize) = some m.pte)
    (hback : ∀ m ∈ ms, pte2pa m.pte = m.page) : s.targets root a ms.length = ms.map Leaf.page := by
  induction ms generalizing a with
  | nil => rfl
  | cons m ms ih =>
    have hfirst := hleaf 0 m rfl
    rw [zero_mul, add_zero] at hfirst
    have hrest : s.targets root (a + pgsize) ms.length = ms.map Leaf.page := by
      refine ih (fun j m' hj => ?_) fun m' hm' => hback m' (mem_cons_of_mem m hm')
      have hnext := hleaf (j + 1) m' hj
      rwa [show a + (j + 1) * pgsize = a + pgsize + j * pgsize by ring] at hnext
    rw [length_cons, Phys.targets, hfirst, Option.getD_some, hback m mem_cons_self, hrest, map_cons]

theorem length_le_of_isPage {kend : ℕ} (hkend : kernbase ≤ kend) {l : List ℕ} (hl : l.Nodup)
    (hpages : ∀ p ∈ l, IsPage kend p) : l.length ≤ 32768 := by
  have hinj : (l.map (· / pgsize)).Nodup := by
    refine (nodup_map_iff_inj_on hl).2 fun x hx y hy heq => ?_
    have h1 := (hpages x hx).1
    have h2 := (hpages y hy).1
    unfold pgsize at heq h1 h2
    omega
  have hsub : (l.map (· / pgsize)).toFinset ⊆ Finset.Ico 524288 557056 := by
    intro q hq
    rw [mem_toFinset, mem_map] at hq
    obtain ⟨p, hp, rfl⟩ := hq
    obtain ⟨-, h1, h2⟩ := hpages p hp
    unfold phystop kernbase at *
    unfold pgsize
    rw [Finset.mem_Ico]
    omega
  have hcard := Finset.card_le_card hsub
  rw [toFinset_card_of_nodup hinj, length_map, card_Ico] at hcard
  omega

end targets

def npages (sz : ℕ) : ℕ := (sz + 4095) / 4096

theorem pgroundup_eq {sz : ℕ} (hsz : sz < 2 ^ 40) : pgroundup sz = npages sz * pgsize := by
  unfold pgroundup add64 npages pgsize
  omega

section built

variable {kend root lo page j a pa fl : ℕ} {s t u v : Phys} {ms : List Leaf} {m : Leaf}
    {new new' : List ℕ}

theorem page_end (hj : ms[j]? = some m) : j * pgsize + pgsize ≤ ms.length * pgsize := by
  have hlt : j < ms.length := (List.getElem?_eq_some_iff.1 hj).1
  have hend : (j + 1) * pgsize ≤ ms.length * pgsize := mul_le_mul_right _ hlt
  rwa [add_mul, one_mul] at hend

theorem isPage_lt (hP : IsPage kend page) :
    page < 2 ^ 64 := lt_trans hP.2.2 (by unfold phystop kernbase; norm_num)

theorem Table.take (hs : Table kend s root) (ht : Took s t page) :
    Table kend t root ∧ t.nodes root = s.nodes root ∧ ∀ va,
    t.lookup root va = s.lookup root va := by
  have hfresh := hs.free_fresh page ht.mem
  exact hs.of_nodes (fun x hx => ht.pages x fun heq => hfresh (heq ▸ hx))
    (by rw [ht.free]; exact hs.free_nodup.erase page)
    (fun p hp => hs.free_pages p (mem_of_mem_erase (ht.free ▸ hp)))
    (fun p hp => hs.free_fresh p (mem_of_mem_erase (ht.free ▸ hp)))

theorem Built.refl (hs : Table kend s root) : Built kend s s root lo [] [] :=
  ⟨hs, by simp, by simp, fun _ _ _ => rfl, nofun, fun _ _ _ => rfl, nofun, nofun⟩

theorem Took.ne {x : ℕ} (ht : Took u v page) (hx : x ∉ u.freelist) : x ≠ page := fun heq =>
  hx (heq ▸ ht.mem)

/-- The page that is taken stays apart from the table while `mappages` runs. -/
theorem Took.apart (ht : Took u v page) (hu : Table kend u root)
    (hm : Maps kend v t root a pa fl j new') : page ∉ new' ∧ page ∉ t.nodes root ∧
    page ∉ t.freelist := by
  obtain ⟨-, hnodes, -⟩ := hu.take ht
  have hout : page ∉ new' ++ t.freelist := by
    rw [← hm.free.mem_iff, ht.free]
    exact hu.free_nodup.not_mem_erase
  rw [mem_append, not_or] at hout
  refine ⟨hout.1, fun hmem => ?_, hout.2⟩
  rw [hm.nodes.mem_iff, mem_append, hnodes] at hmem
  exact hmem.elim hout.1 (hu.free_fresh page ht.mem)

theorem Took.perm (ht : Took u v page) (hm : Maps kend v t root a pa fl j new') :
    u.freelist.Perm (new' ++ (page :: t.freelist)) := by
  have hfirst : u.freelist.Perm (page :: v.freelist) := by
    rw [ht.free]
    exact perm_cons_erase ht.mem
  exact hfirst.trans ((hm.free.cons page).trans perm_middle.symm)

variable (h : Built kend s u root lo ms new)

include h

theorem Built.free_subset {p : ℕ} (hp : p ∈ u.freelist) : p ∈ s.freelist := by
  rw [h.free.mem_iff]
  simp [hp]

theorem Built.node_cases {p : ℕ} (hp : p ∈ u.nodes root) :
    p ∈ s.freelist ∨ p ∈ s.nodes root := by
  rw [h.nodes.mem_iff, mem_append] at hp
  refine hp.imp_left fun hp => ?_
  rw [h.free.mem_iff]
  exact mem_append_left _ hp

theorem Built.outside {x : ℕ} (hfree : x ∉ s.freelist) (hnode : x ∉ s.nodes root) :
    x ∉ u.freelist ∧ x ∉ u.nodes root :=
  ⟨fun hx => hfree (h.free_subset hx), fun hx => (h.node_cases hx).elim hfree hnode⟩

theorem Built.free_step {l : List ℕ} (hperm : u.freelist.Perm (new' ++ l)) :
    s.freelist.Perm ((new' ++ new) ++ (ms.map Leaf.page ++ l)) := by
  refine h.free.trans (((hperm.append_left _).append_left new).trans ?_)
  rw [append_assoc]
  exact ((perm_append_comm_assoc _ new' _).append_left new).trans
    (perm_append_comm_assoc new new' _)

theorem Built.answers (answers : List ℕ) :
    Built kend s { u with answers := answers } root lo ms new := by
  have hgr := Grows.answers h.table answers
  refine ⟨hgr.table, hgr.nodes.trans h.nodes, h.free, h.frame, h.bytes, fun x hx hout => ?_,
    fun j m hj x hx hx' => ?_, h.ok⟩
  · rw [hgr.lookup, h.old x hx hout]
  · rw [hgr.lookup]
    exact h.leaf j m hj x hx hx'

section maps

variable (ht : Took u v page) (hm : Maps kend v t root a pa fl j new')

include ht hm

/-- What `mappages` leaves alone while the page is taken. -/
theorem Built.map_frame {x : ℕ} (hpage : x ≠ page) (hfree : x ∉ u.freelist)
    (hnode : x ∉ u.nodes root) : t.pages x = u.pages x := by
  obtain ⟨-, hnodes, -⟩ := h.table.take ht
  rw [hm.frame x (fun hx => hfree ?_) (by rw [hnodes]; exact hnode), ht.pages x hpage]
  have hmem : x ∈ v.freelist := hm.free.mem_iff.2 (mem_append_left _ hx)
  rw [ht.free] at hmem
  exact mem_of_mem_erase hmem

theorem Built.nodes_step : (t.nodes root).Perm ((new' ++ new) ++ s.nodes root) := by
  obtain ⟨-, hnodes, -⟩ := h.table.take ht
  rw [append_assoc]
  refine hm.nodes.trans (List.Perm.append_left new' ?_)
  rw [hnodes]
  exact h.nodes

end maps

variable (hs : Table kend s root)

include hs

theorem Built.own : (ms.map Leaf.page).Nodup ∧
      ∀ p ∈ ms.map Leaf.page, p ∈ s.freelist ∧ p ∉ u.nodes root ∧ p ∉ u.freelist := by
  have hnd := hs.free_nodup
  rw [h.free.nodup_iff, nodup_append, nodup_append] at hnd
  obtain ⟨-, ⟨hds, -, hdf⟩, hnew⟩ := hnd
  refine ⟨hds, fun p hp => ?_⟩
  have hmem : p ∈ s.freelist := by
    rw [h.free.mem_iff]
    simp only [mem_append]
    exact .inr (.inl hp)
  refine ⟨hmem, fun hn => ?_, fun hf => hdf p hp p hf rfl⟩
  rw [h.nodes.mem_iff, mem_append] at hn
  rcases hn with hn | hn
  · exact hnew p hn p (mem_append_left _ hp) rfl
  · exact hs.free_fresh p hmem hn

theorem Built.step (ht : Took u v m.page) (hbytes : v.pages m.page = m.bytes) (hok : m.Ok)
    (hlo : lo + (ms.length + 1) * pgsize ≤ maxva)
    (hm : Maps kend v t root (lo + ms.length * pgsize) m.page m.perm 1 new') :
    Built kend s t root lo (ms ++ [m]) (new' ++ new) := by
  obtain ⟨-, hnodes, hlookup⟩ := h.table.take ht
  obtain ⟨hnew, hnode, hfree⟩ := ht.apart h.table hm
  obtain ⟨hnodup, hown⟩ := h.own hs
  have hP := h.table.free_pages m.page ht.mem
  have hpage64 := isPage_lt hP
  have hend : lo + (ms.length + 1) * pgsize = lo + ms.length * pgsize + 1 * pgsize := by ring
  have hmax := maxva_lt
  have hold : ∀ x < 2 ^ 39,
      ¬ (lo + ms.length * pgsize ≤ x ∧ x < lo + ms.length * pgsize + 1 * pgsize) →
      t.lookup root x = u.lookup root x := by
    intro x hx hout
    rw [hm.lookup x hx, if_neg hout, hlookup]
  refine ⟨hm.table, h.nodes_step ht hm, ?_, fun x hxf hxn => ?_, fun m' hm' => ?_,
    fun x hx hout => ?_, fun j m' hj x hx hx' => ?_, fun m' hm' => ?_⟩
  · have hstep := h.free_step (ht.perm hm)
    rwa [append_cons (ms.map Leaf.page), ← map_singleton, ← map_append] at hstep
  · obtain ⟨huf, hun⟩ := h.outside hxf hxn
    rw [h.map_frame ht hm (ht.ne huf) huf hun, h.frame x hxf hxn]
  · rcases mem_append.1 hm' with hm' | hm'
    · obtain ⟨-, hun, huf⟩ := hown m'.page (mem_map_of_mem hm')
      rw [h.map_frame ht hm (ht.ne huf) huf hun, h.bytes m' hm']
    · rw [mem_singleton.1 hm', hm.frame m.page hnew fun hmem => ?_, hbytes]
      rw [hnodes] at hmem
      exact h.table.free_fresh _ ht.mem hmem
  · rw [length_append, length_singleton] at hout
    rw [hold x hx (by omega), h.old x hx (by omega)]
  · rcases lt_or_ge j ms.length with hlt | hge
    · rw [List.getElem?_append_left hlt] at hj
      have hle : (j + 1) * pgsize ≤ ms.length * pgsize := mul_le_mul_right _ hlt
      rw [hold x (by omega) (by omega)]
      exact h.leaf j m' hj x hx hx'
    · obtain ⟨rfl, rfl⟩ : j = ms.length ∧ m' = m := by
        rw [List.getElem?_append_right hge, List.getElem?_singleton] at hj
        split at hj
        next heq => exact ⟨by omega, (Option.some.inj hj).symm⟩
        next => cases hj
      have hzero : (x - (lo + ms.length * pgsize)) / pgsize = 0 := by
        rw [Nat.div_eq_zero_iff]
        omega
      rw [hm.lookup x (by omega), if_pos ⟨hx, by omega⟩, hzero, zero_mul, add_zero,
        mod_eq_of_lt hpage64, Leaf.pte]
  · rcases mem_append.1 hm' with hm' | hm'
    · exact h.ok m' hm'
    · rw [mem_singleton.1 hm']
      exact hok

theorem Built.giveBack (ht : Took u v page) (hlo : lo + ms.length * pgsize ≤ maxva)
    (hm : Maps kend v t root (lo + ms.length * pgsize) pa fl 0 new') :
    Built kend s (freed t page) root lo ms (new' ++ new) := by
  obtain ⟨-, -, hlookup⟩ := h.table.take ht
  obtain ⟨-, hnode, hfree⟩ := ht.apart h.table hm
  obtain ⟨htable, hnodes, -, hlookup'⟩ :=
    hm.table.freed (h.table.free_pages page ht.mem) hnode hfree
  obtain ⟨-, hown⟩ := h.own hs
  have hmax := maxva_lt
  have hsame : ∀ x < 2 ^ 39, (freed t page).lookup root x = u.lookup root x := by
    intro x hx
    rw [hlookup', hm.lookup x hx, if_neg (by omega), hlookup]
  have hpages : ∀ x, x ∉ u.freelist → x ∉ u.nodes root → (freed t page).pages x = u.pages x := by
    intro x hxf hxn
    rw [← h.map_frame ht hm (ht.ne hxf) hxf hxn]
    exact update_of_ne (ht.ne hxf) ..
  refine ⟨htable, ?_, h.free_step (ht.perm hm), fun x hxf hxn => ?_, fun m' hm' => ?_,
    fun x hx hout => ?_, fun j m' hj x hx hx' => ?_, h.ok⟩
  · rw [hnodes]
    exact h.nodes_step ht hm
  · obtain ⟨huf, hun⟩ := h.outside hxf hxn
    rw [hpages x huf hun, h.frame x hxf hxn]
  · obtain ⟨-, hun, huf⟩ := hown m'.page (mem_map_of_mem hm')
    rw [hpages _ huf hun, h.bytes m' hm']
  · rw [hsame x hx, h.old x hx hout]
  · have hle := page_end hj
    rw [hsame x (by rw [add_mul] at hx'; omega)]
    exact h.leaf j m' hj x hx hx'

theorem Built.isPage (hm : m ∈ ms) : IsPage kend m.page :=
    hs.free_pages _ ((h.own hs).2 _ (mem_map_of_mem hm)).1

theorem Built.targets : u.targets root lo ms.length = ms.map Leaf.page := by
  refine targets_of_leaf (fun j m hj => h.leaf j m hj _ le_rfl ?_) fun m hm => ?_
  · have hpg : 0 < pgsize := by decide
    rw [add_mul, one_mul]
    omega
  · exact pte2pa_leafPte_page (h.isPage hs hm) (h.ok m hm).lt

theorem Built.leaf_of {x : ℕ} (hx : lo ≤ x) (hx' : x < lo + ms.length * pgsize) :
    ∃ m ∈ ms, ms[(x - lo) / pgsize]? = some m ∧ u.lookup root x = some m.pte ∧
    pte2pa m.pte = m.page := by
  have hpg : 0 < pgsize := by decide
  have hlt : (x - lo) / pgsize < ms.length := by
    rw [div_lt_iff_lt_mul hpg]
    omega
  obtain ⟨m, hm⟩ : ∃ m, ms[(x - lo) / pgsize]? = some m := ⟨_, List.getElem?_eq_getElem hlt⟩
  have hmem : m ∈ ms := mem_of_getElem? hm
  have hdiv := div_mul_le_self (x - lo) pgsize
  have hend := lt_div_mul_add hpg (a := x - lo)
  exact ⟨m, hmem, hm, h.leaf _ m hm x (by omega) (by rw [add_mul, one_mul]; omega),
    pte2pa_leafPte_page (h.isPage hs hmem) (h.ok m hmem).lt⟩

theorem Built.flags {x : ℕ} (hx : lo ≤ x) (hx' : x < lo + ms.length * pgsize) :
    ∃ pte, u.lookup root x = some pte ∧ pteFlags pte ≠ pteV := by
  obtain ⟨m, hmem, -, hlook, -⟩ := h.leaf_of hs hx hx'
  refine ⟨_, hlook, ?_⟩
  rw [Leaf.pte, pteFlags_leafPte _ (h.ok m hmem).lt]
  exact (h.ok m hmem).leaf

theorem Built.mapped (hlo : lo + ms.length * pgsize ≤ maxva) :
    Mapped kend u root lo ms.length true := by
  obtain ⟨hnodup, hown⟩ := h.own hs
  refine ⟨hlo, fun j hj => h.flags hs (le_add_right _ _) ?_, fun _ => ?_⟩
  · exact Nat.add_lt_add_left (mul_lt_mul_of_pos_right hj (by decide)) lo
  · rw [h.targets hs]
    exact ⟨hnodup, fun p hp => ⟨hs.free_pages p (hown p hp).1, (hown p hp).2⟩⟩

theorem Built.undo {fr : List ℕ}
    (hnone : ∀ x, lo ≤ x → x < lo + ms.length * pgsize → s.lookup root x = none)
    (hun : Unmaps kend u t root lo ms.length fr) (hfr : fr.Perm (u.targets root lo ms.length)) :
    Built kend s t root lo [] new := by
  rw [h.targets hs] at hfr
  refine ⟨hun.table, by rw [hun.nodes]; exact h.nodes, ?_, fun x hxf hxn => ?_, nofun,
    fun x hx _ => ?_, nofun, nofun⟩
  · refine h.free.trans (List.Perm.append_left new ?_)
    exact (hfr.symm.append_right _).trans hun.free.symm
  · obtain ⟨huf, hunode⟩ := h.outside hxf hxn
    rw [hun.frame x hunode fun hmem => ?_, h.frame x hxf hxn]
    exact hxf ((h.own hs).2 x (hfr.mem_iff.1 hmem)).1
  · rw [hun.lookup x hx]
    split
    next hin => exact (hnone x hin.1 hin.2).symm
    next hout => exact h.old x hx hout

theorem Built.length_le (hkend : kernbase ≤ kend) : ms.length ≤ 32768 := by
  obtain ⟨hnodup, hown⟩ := h.own hs
  have hle := length_le_of_isPage hkend hnodup fun p hp => hs.free_pages p (hown p hp).1
  rwa [length_map] at hle

end built

theorem Built.leaf_at {kend root : ℕ} {s u : Phys} {ms : List Leaf} {new : List ℕ}
    (h : Built kend s u root 0 ms new) (hs : Table kend s root) {x : ℕ}
    (hx : x < ms.length * pgsize) :
    ∃ m ∈ ms, ms[x / pgsize]? = some m ∧ u.lookup root x = some m.pte ∧ pte2pa m.pte = m.page :=
  h.leaf_of hs (Nat.zero_le x) (by rwa [zero_add])

section uvmalloc

variable {kend root lo k : ℕ} {s t u : Phys} {ms : List Leaf} {new : List ℕ}

/-- `uvmdealloc` from the end of a range of `k` mapped pages to its beginning. -/
theorem uvmdealloc_spec {oldsz newsz : ℕ} (hs : Table kend s root) (hold : oldsz < 2 ^ 39)
    (hle : newsz ≤ oldsz) (hk : npages oldsz = npages newsz + k)
    (hm : Mapped kend s root (npages newsz * pgsize) k true) :
    Runs (uvmdealloc kend root oldsz newsz) s fun r t => r = newsz ∧ ∃ fr,
      Unmaps kend s t root (npages newsz * pgsize) k fr ∧
      fr.Perm (s.targets root (npages newsz * pgsize) k) := by
  have hnil : ∀ {a : ℕ}, Unmaps kend s s root a 0 [] := fun {a} =>
    ⟨hs, rfl, List.Perm.refl _, fun _ _ _ => rfl, fun x _ => by rw [if_neg (by omega)]⟩
  have hpg : 0 < pgsize := by decide
  unfold uvmdealloc
  by_cases hge : newsz ≥ oldsz
  · obtain rfl : newsz = oldsz := le_antisymm hle hge
    obtain rfl : k = 0 := by omega
    rw [if_pos hge]
    exact Runs.ret ⟨rfl, [], hnil, List.Perm.refl _⟩
  · rw [if_neg hge, pgroundup_eq (by omega), pgroundup_eq (by omega), hk, add_mul,
      Nat.add_sub_cancel_left, Nat.mul_div_cancel _ hpg]
    dsimp only
    have hklt : k < 2 ^ 28 := by
      unfold npages at hk
      omega
    have hcount : toU64 (Int.bmod (k : ℕ) (2 ^ 32)) = k := by
      have hb : Int.bmod (k : ℕ) (2 ^ 32) = (k : ℤ) := by
        rw [Int.bmod_eq_of_le] <;> omega
      rw [hb, toU64]
      omega
    rcases Nat.eq_zero_or_pos k with rfl | hkpos
    · rw [if_neg (by omega)]
      exact Runs.bind (Runs.ret (Q := fun _ t => t = s) rfl) fun _ t h =>
        Runs.ret (by subst h; exact ⟨rfl, [], hnil, List.Perm.refl _⟩)
    · have hlt : npages newsz * pgsize < npages newsz * pgsize + k * pgsize :=
        Nat.lt_add_of_pos_right (Nat.mul_pos hkpos hpg)
      rw [if_pos hlt, hcount]
      have hal : npages newsz * pgsize % pgsize = 0 := mul_mod_left _ _
      refine (uvmunmap_spec hs hal hm).bind ?_
      rintro - t ⟨fr, hun, hperm⟩
      exact Runs.ret ⟨rfl, fr, hun, hperm⟩

def heapLeaf (xperm page : ℕ) : Leaf := ⟨page, pteR ||| pteU ||| xperm, fun _ => 0⟩

theorem heapLeaf_ok {xperm : ℕ} (hx : pteR ||| pteU ||| xperm < 1024) (page : ℕ) :
    (heapLeaf xperm page).Ok := by
  refine ⟨hx, fun heq => ?_⟩
  have hbit := congrArg (testBit · 1) heq
  simp only [heapLeaf, pteR, pteU, pteV, testBit_or] at hbit
  have hR : testBit 2 1 = true := by decide
  have hV : testBit 1 1 = false := by decide
  rw [hR, hV] at hbit
  simp at hbit

theorem mappages_one {a pa perm : ℕ} (hs : Table kend s root) (hal : a % pgsize = 0)
    (ha : a + pgsize ≤ maxva) (hpa : pa < 2 ^ 64) (hperm : perm < 1024)
    (hfree : ∀ x, a ≤ x → x < a + pgsize → s.lookup root x = none) :
    Runs (mappages root a pgsize pa perm) s fun r t => ∃ new,
      (r = true ∧ Maps kend s t root a pa perm 1 new) ∨
      (r = false ∧ Maps kend s t root a pa perm 0 new) := by
  have hpg : pgsize = 4096 := rfl
  have hspec :=
    mappages_spec a pgsize pa perm hs (by omega) hal (by decide) (by decide) (by decide) hpa hperm
  refine (Yields.runs (hspec.mono (fun _ _ h => h) ?_)).mono ?_
  · rintro e (⟨-, hlt⟩ | ⟨-, x, -, hax, hxa, hne⟩)
    · omega
    · exact hne (hfree x hax hxa)
  · rintro r t ⟨j, new, hm, -, htrue, hfalse⟩
    refine ⟨new, ?_⟩
    cases r with
    | true =>
      obtain rfl : j = 1 := by
        have := htrue rfl
        rw [hpg] at this
        omega
      exact .inl ⟨rfl, hm⟩
    | false =>
      obtain rfl : j = 0 := by
        have := hfalse rfl
        rw [hpg] at this
        omega
      exact .inr ⟨rfl, hm⟩

/-- The page that has been taken is mapped, or is given back since there is no page-table page for
it. -/
theorem Built.mapNext {page perm : ℕ} {v : Phys} (h : Built kend s u root lo ms new)
    (hs : Table kend s root) (ht : Took u v page) (hal : lo % pgsize = 0)
    (hlo : lo + (ms.length + 1) * pgsize ≤ maxva)
    (hok : (⟨page, perm, v.pages page⟩ : Leaf).Ok)
    (hnone : ∀ x, lo + ms.length * pgsize ≤ x → x < lo + ms.length * pgsize + pgsize →
      s.lookup root x = none) :
    Runs (mappages root (lo + ms.length * pgsize) pgsize page perm) v fun r t => ∃ new',
      (r = true ∧ Built kend s t root lo (ms ++ [⟨page, perm, v.pages page⟩]) new') ∨
      (r = false ∧ Built kend s (freed t page) root lo ms new') := by
  obtain ⟨htable, -, hlookup⟩ := h.table.take ht
  have hmax := maxva_lt
  have hend : lo + (ms.length + 1) * pgsize = lo + ms.length * pgsize + pgsize := by ring
  refine (mappages_one htable (by rw [add_mul_mod_self_right]; exact hal) (by omega)
    (isPage_lt (h.table.free_pages page ht.mem)) hok.lt fun x hx hx' => ?_).mono ?_
  · rw [hlookup, h.old x (by omega) (by omega)]
    exact hnone x hx hx'
  · rintro r t ⟨new', ⟨rfl, hm⟩ | ⟨rfl, hm⟩⟩
    · exact ⟨_, .inl ⟨rfl, h.step hs ht rfl hok hlo hm⟩⟩
    · exact ⟨_, .inr ⟨rfl, h.giveBack hs ht (by omega) hm⟩⟩

theorem Built.dealloc (h : Built kend s u root lo ms new) (hs : Table kend s root)
    (hal : lo % pgsize = 0) (hlo : lo + ms.length * pgsize ≤ maxva)
    (hnone : ∀ x, lo ≤ x → x < lo + ms.length * pgsize → s.lookup root x = none) :
    Runs (uvmdealloc kend root (lo + ms.length * pgsize) lo) u
    fun _ t => Built kend s t root lo [] new := by
  have hmax := maxva_lt
  obtain ⟨q, rfl⟩ : ∃ q, lo = q * pgsize := ⟨lo / pgsize, by unfold pgsize at *; omega⟩
  have hnp : ∀ j : ℕ, npages (j * pgsize) = j := by
    intro j
    unfold npages pgsize
    omega
  have hmapped : Mapped kend u root (npages (q * pgsize) * pgsize) ms.length true := by
    rw [hnp]
    exact h.mapped hs hlo
  refine (uvmdealloc_spec h.table (by omega) (le_add_right _ _) ?_ hmapped).mono ?_
  · rw [hnp, ← add_mul, hnp]
  · rintro r t ⟨-, fr, hun, hfr⟩
    rw [hnp] at hun hfr
    exact h.undo hs hnone hun hfr

/-- The loop of `uvmalloc`, for every new size: it ends with all pages, or with none and nothing
changed but for new page-table pages. There are too few pages to go beyond the user range. -/
theorem uvmallocLoop_built {newsz rounds xperm : ℕ} {ds : List ℕ} (hkend : kernbase ≤ kend)
    (hs : Table kend s root) (hal : lo % pgsize = 0) (hlo : lo ≤ 2 ^ 36)
    (hx : pteR ||| pteU ||| xperm < 1024)
    (hnone : ∀ x, lo ≤ x → x < 2 ^ 37 + pgsize → s.lookup root x = none)
    (h : Built kend s u root lo (ds.map (heapLeaf xperm)) new)
    (hk : ds.length = 0 ∨ lo + (ds.length - 1) * pgsize < newsz)
    (hrounds : newsz ≤ lo + ds.length * pgsize + rounds * pgsize) :
    Runs (uvmallocLoop kend root lo newsz xperm rounds (lo + ds.length * pgsize)) u fun r t =>
      (r = newsz ∧ ∃ (ds' : List ℕ) (new' : List ℕ),
        Built kend s t root lo (ds'.map (heapLeaf xperm)) new' ∧ newsz ≤ lo + ds'.length * pgsize ∧
        (ds'.length = 0 ∨ lo + (ds'.length - 1) * pgsize < newsz)) ∨
      (r = 0 ∧ lo < newsz ∧ ∃ new', Built kend s t root lo [] new') := by
  induction rounds generalizing u ds new with
  | zero =>
    refine Runs.ret (.inl ⟨rfl, ds, new, h, ?_, hk⟩)
    rwa [zero_mul, add_zero] at hrounds
  | succ rounds ih =>
    have hpg : pgsize = 4096 := rfl
    have hmaxv := maxva_eq
    have hlen := h.length_le hs hkend
    rw [length_map] at hlen
    have hmul : ds.length * pgsize ≤ 2 ^ 27 := by
      rw [hpg]
      omega
    rw [uvmallocLoop]
    by_cases ha : lo + ds.length * pgsize < newsz
    swap
    · rw [if_neg ha]
      exact Runs.ret (.inl ⟨rfl, ds, new, h, by omega, hk⟩)
    rw [if_pos ha]
    have hundo : ∀ {v : Phys} {new' : List ℕ},
        Built kend s v root lo (ds.map (heapLeaf xperm)) new' →
        Runs (uvmdealloc kend root (lo + ds.length * pgsize) lo) v fun _ t =>
          Built kend s t root lo [] new' := by
      intro v new' hv
      have hrun := hv.dealloc hs hal (by rw [length_map]; omega) fun x hx hx' => ?_
      · rwa [length_map] at hrun
      · rw [length_map] at hx'
        exact hnone x hx (by omega)
    rcases kalloc_cases u with ⟨answers, hkal⟩ | ⟨page, hpage, answers, hkal⟩
    · -- no page for the data
      refine Runs.bind (Q := fun r t => r = none ∧ t = { u with answers := answers })
        ⟨none, _, hkal, rfl, rfl⟩ ?_
      rintro r v ⟨rfl, rfl⟩
      refine (hundo (h.answers answers)).bind ?_
      rintro - w hw
      exact Runs.ret (.inr ⟨rfl, by omega, new, hw⟩)
    · refine Runs.bind (Q := fun r t => r = some page ∧ t =
        { pages := update u.pages page fun _ => 5
          freelist := u.freelist.erase page
          answers := answers }) ⟨some page, _, hkal, rfl, rfl⟩ ?_
      rintro r v ⟨rfl, rfl⟩
      refine Runs.modifies ?_
      generalize hv : ({ pages := update (update u.pages page fun _ => 5) page fun _ => 0
                         freelist := u.freelist.erase page
                         answers := answers } : Phys) = v
      have ht : Took u v page := by
        rw [← hv]
        exact ⟨hpage, fun x hx => by simp [hx], rfl⟩
      have hzero : v.pages page = fun _ => 0 := by
        rw [← hv]
        exact update_self ..
      have hlength : (ds.map (heapLeaf xperm)).length = ds.length := length_map _
      have hmap := h.mapNext hs ht hal (by rw [hlength, add_mul]; omega)
        (show Leaf.Ok ⟨page, pteR ||| pteU ||| xperm, _⟩ by rw [hzero]; exact heapLeaf_ok hx page)
      rw [hlength, hzero] at hmap
      refine (hmap fun x hx hx' => hnone x (by omega) (by omega)).bind ?_
      rintro r t ⟨new', ⟨rfl, hstep⟩ | ⟨rfl, hback⟩⟩
      · -- the page is mapped, and the loop goes on
        have hds : ds.map (heapLeaf xperm) ++ [heapLeaf xperm page] =
            (ds ++ [page]).map (heapLeaf xperm) := by simp
        have hsucc : (ds ++ [page]).length = ds.length + 1 := by simp
        have hnext : add64 (lo + ds.length * pgsize) pgsize =
            lo + (ds ++ [page]).length * pgsize := by
          rw [hsucc, add_mul, one_mul, ← add_assoc, add64, mod_eq_of_lt (by omega)]
        rw [if_pos rfl, hnext]
        refine ih (hds ▸ hstep) (.inr ?_) ?_
        · rwa [hsucc, Nat.add_sub_cancel]
        · rw [hsucc]
          rw [add_mul, one_mul] at hrounds ⊢
          omega
      · -- there is no page-table page for it
        rw [if_neg (by simp)]
        refine (kfree_runs (h.table.free_pages page hpage)).bind ?_
        rintro - w rfl
        refine (hundo hback).bind ?_
        rintro - w hw
        exact Runs.ret (.inr ⟨rfl, by omega, _, hw⟩)

theorem uvmalloc_built {oldsz newsz xperm : ℕ} (hkend : kernbase ≤ kend) (hs : Table kend s root)
    (hold : oldsz ≤ 2 ^ 35) (hle : oldsz ≤ newsz) (hx : pteR ||| pteU ||| xperm < 1024)
    (hnone : ∀ x, npages oldsz * pgsize ≤ x → x < 2 ^ 37 + pgsize → s.lookup root x = none) :
    Runs (uvmalloc kend root oldsz newsz xperm) s
    fun r t => (r = newsz ∧ ∃ (ds : List ℕ) (new : List ℕ),
        Built kend s t root (npages oldsz * pgsize) (ds.map (heapLeaf xperm)) new ∧
        npages newsz = npages oldsz + ds.length) ∨
      (r = 0 ∧ npages oldsz * pgsize < newsz ∧ ∃ new,
        Built kend s t root (npages oldsz * pgsize) [] new) := by
  have hpg : pgsize = 4096 := rfl
  have hstart : npages oldsz * pgsize ≤ 2 ^ 36 := by
    unfold npages pgsize
    omega
  have hcall : uvmalloc kend root oldsz newsz xperm =
      uvmallocLoop kend root (npages oldsz * pgsize) newsz xperm
        ((newsz - npages oldsz * pgsize) / pgsize + 1)
        (npages oldsz * pgsize + ([] : List ℕ).length * pgsize) := by
    unfold uvmalloc
    rw [if_neg (not_lt.2 hle), pgroundup_eq (by omega), length_nil, zero_mul]
    simp only [add_zero]
  rw [hcall]
  refine (uvmallocLoop_built hkend hs (mul_mod_left _ _) hstart hx hnone (Built.refl hs) (.inl rfl)
    (by rw [hpg, length_nil]; omega)).mono ?_
  rintro r t (⟨rfl, ds, new, hbuilt, hend, hlast⟩ | ⟨rfl, hlt, new, hbuilt⟩)
  · refine .inl ⟨rfl, ds, new, hbuilt, ?_⟩
    rw [hpg] at hend hlast
    unfold npages at hend hlast ⊢
    omega
  · exact .inr ⟨rfl, hlt, new, hbuilt⟩

end uvmalloc

end Xv6.Vm
