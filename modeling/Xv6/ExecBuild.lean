import Xv6.Exec

/-!
# The address space that exec builds

Until `exec` commits, all that it has taken comes from the free list: the nodes of the new page
table and the pages mapped in it. `Building` says so, and that nothing else has changed, with the
new image as a list of leaves. From it follows what each of the exits of `exec` needs: the new table
can be freed with the size reached so far, and the old address space is as it was.
-/

namespace Xv6.Exec

open Xv6.Vm Xv6.Radix List Nat

section lifting

variable {α : Type} {m : M α} {s : Kernel} {Q : α → Phys → Prop}

theorem runs_vm (h : Runs m s.phys Q) :
    Runs (vm m) s fun a t => ∃ phys, Q a phys ∧ t = { s with phys := phys } := by
  obtain ⟨a, phys, hrun, hq⟩ := h
  refine ⟨a, { s with phys := phys }, ?_, phys, hq, rfl⟩
  rw [vm, hrun]

end lifting

/-- A page that neither is free nor belongs to the address space. -/
structure Spare (kend : ℕ) (s : Phys) (root sz q : ℕ) : Prop where
  page : IsPage kend q
  free : q ∉ s.freelist
  node : q ∉ s.nodes root
  target : q ∉ s.targets root 0 (npages sz)

/-- A new address space with the pages `ms`, made of pages that were free in `s`. -/
structure Building (kend tramp tf : ℕ) (s u : Phys) (pt : ℕ) (ms : List Leaf) : Prop where
  built : ∃ s₀ nodes, UserSpace kend s₀ pt 0 tramp tf ∧
    s.freelist.Perm (s₀.nodes pt ++ s₀.freelist) ∧ (∀ x, x ∉ s.freelist → s₀.pages x = s.pages x) ∧
    Built kend s₀ u pt 0 ms nodes

section building

variable {kend tramp tf pt sz : ℕ} {s t u : Phys} {ms : List Leaf}

theorem Building.own (h : Building kend tramp tf s u pt ms) :
    (ms.map Leaf.page).Nodup ∧ (∀ p ∈ ms.map Leaf.page, p ∈ s.freelist) ∧
    (∀ p ∈ u.nodes pt, p ∈ s.freelist) ∧ ∀ p ∈ u.freelist, p ∈ s.freelist := by
  obtain ⟨s₀, nodes, hspace, hperm, -, hb⟩ := h.built
  obtain ⟨hnodup, hown⟩ := hb.own hspace.mem.table
  have hsub : ∀ p, p ∈ s₀.freelist → p ∈ s.freelist := fun p hp =>
    hperm.mem_iff.2 (mem_append_right _ hp)
  refine ⟨hnodup, fun p hp => hsub p (hown p hp).1, fun p hp => ?_,
    fun p hp => hsub p (hb.free_subset hp)⟩
  rcases hb.node_cases hp with hp | hp
  · exact hsub p hp
  · exact hperm.mem_iff.2 (mem_append_left _ hp)

theorem Building.frame (h : Building kend tramp tf s u pt ms) {x : ℕ}
    (hx : x ∉ s.freelist) : u.pages x = s.pages x := by
  obtain ⟨s₀, nodes, -, hperm, hframe, hb⟩ := h.built
  have hout : x ∉ s₀.nodes pt ∧ x ∉ s₀.freelist := by
    rwa [hperm.mem_iff, mem_append, not_or] at hx
  rw [hb.frame x hout.2 hout.1, hframe x hx]

theorem Building.table (h : Building kend tramp tf s u pt ms) : Table kend u pt := by
  obtain ⟨s₀, nodes, -, -, -, hb⟩ := h.built
  exact hb.table

theorem Building.length_le (h : Building kend tramp tf s u pt ms)
    (hkend : kernbase ≤ kend) : ms.length ≤ 32768 := by
  obtain ⟨s₀, nodes, hspace, -, -, hb⟩ := h.built
  exact hb.length_le hspace.mem.table hkend

theorem Building.space (h : Building kend tramp tf s u pt ms) (hkend : kernbase ≤ kend)
    (hsz : npages sz = ms.length) : UserSpace kend u pt sz tramp tf := by
  obtain ⟨s₀, nodes, hspace, -, -, hb⟩ := h.built
  exact hb.space hspace hkend hsz

theorem Building.targets (h : Building kend tramp tf s u pt ms)
    (hsz : npages sz = ms.length) : u.targets pt 0 (npages sz) = ms.map Leaf.page := by
  obtain ⟨s₀, nodes, hspace, -, -, hb⟩ := h.built
  rw [hsz]
  exact hb.targets hspace.mem.table

theorem Building.spare (h : Building kend tramp tf s u pt ms)
    (hsz : npages sz = ms.length) {q : ℕ} (hq : q ∉ s.freelist) :
    q ∉ u.freelist ∧ q ∉ u.nodes pt ∧ q ∉ u.targets pt 0 (npages sz) := by
  obtain ⟨-, hpages, hnodes, hfree⟩ := h.own
  rw [h.targets hsz]
  exact ⟨fun hmem => hq (hfree q hmem), fun hmem => hq (hnodes q hmem),
    fun hmem => hq (hpages q hmem)⟩

theorem Building.perm (h : Building kend tramp tf s u pt ms) (hsz : npages sz = ms.length) :
    s.freelist.Perm (u.nodes pt ++ (u.targets pt 0 (npages sz) ++ u.freelist)) := by
  obtain ⟨s₀, nodes, -, hperm, -, hb⟩ := h.built
  rw [h.targets hsz]
  refine hperm.trans ?_
  have hnodes := hb.nodes.symm.append_right (ms.map Leaf.page ++ u.freelist)
  refine List.Perm.trans ?_ hnodes
  rw [append_assoc]
  exact (hb.free.append_left _).trans (perm_append_comm_assoc _ _ _)

theorem Building.other {root : ℕ} (h : Building kend tramp tf s u pt ms) (hs : Table kend s root) :
    Table kend u root ∧ u.nodes root = s.nodes root ∧ ∀ va,
    u.lookup root va = s.lookup root va := by
  have hpages : ∀ n ∈ s.nodes root, u.pages n = s.pages n := fun n hn =>
    h.frame fun hfree => hs.free_fresh n hfree hn
  obtain ⟨-, -, -, hfree⟩ := h.own
  exact hs.of_nodes hpages h.table.free_nodup h.table.free_pages fun p hp =>
    hs.free_fresh p (hfree p hp)

theorem Building.uvmalloc {newsz xperm : ℕ} (h : Building kend tramp tf s u pt ms)
    (hkend : kernbase ≤ kend) (hsz : npages sz = ms.length) (hx : pteR ||| pteU ||| xperm < 1024) :
    Runs (uvmalloc kend pt sz newsz xperm) u fun r t =>
      (r = max sz newsz ∧ ∃ ds : List ℕ,
        Building kend tramp tf s t pt (ms ++ ds.map (heapLeaf xperm)) ∧
        npages r = (ms ++ ds.map (heapLeaf xperm)).length) ∨
      (r = 0 ∧ Building kend tramp tf s t pt ms) := by
  have hlen := h.length_le hkend
  have htrap := trapframe_eq
  have hmaxv := maxva_eq
  have hpg : pgsize = 4096 := rfl
  have hsz35 : sz ≤ 2 ^ 35 := by
    unfold npages at hsz
    omega
  by_cases hlt : newsz < sz
  · unfold Vm.uvmalloc
    rw [if_pos hlt]
    refine Runs.ret (.inl ⟨(max_eq_left hlt.le).symm, [], ?_, ?_⟩)
    · simpa using h
    · simpa using hsz
  · have huser := (h.space hkend hsz).mem
    obtain ⟨s₀, nodes, hspace, hperm, hframe, hb⟩ := h.built
    refine (uvmalloc_built hkend hb.table hsz35 (not_lt.1 hlt) hx fun x hge hx => ?_).mono ?_
    · exact huser.unmapped x (by omega) hge
    have hlow : npages sz * pgsize = 0 + ms.length * pgsize := by rw [hsz, zero_add]
    rw [hlow]
    rintro r t (⟨rfl, ds, new, hbuilt, hpages⟩ | ⟨rfl, -, new, hbuilt⟩)
    · refine .inl ⟨(max_eq_right (not_lt.1 hlt)).symm, ds, ?_, ?_⟩
      · have hds := hbuilt.length_le hb.table hkend
        rw [length_map] at hds
        refine ⟨s₀, _, hspace, hperm, hframe, hb.trans hbuilt hspace.mem.table ?_⟩
        rw [length_map, hpg]
        omega
      · rw [hpages, hsz, length_append, length_map]
    · have htrans := hb.trans hbuilt hspace.mem.table (by rw [length_nil, hpg]; omega)
      rw [append_nil] at htrans
      exact .inr ⟨rfl, s₀, _, hspace, hperm, hframe, htrans⟩

theorem Building.stored {a n : ℕ} {f : ℕ → UInt8} (h : Building kend tramp tf s u pt ms)
    (hst : Stored u t (fun i => u.phys pt (a + i)) f n) (hn : a + n ≤ ms.length * pgsize) :
    Building kend tramp tf s t pt (store ms a n f) := by
  obtain ⟨s₀, nodes, hspace, hperm, hframe, hb⟩ := h.built
  exact ⟨s₀, nodes, hspace, hperm, hframe, hb.stored hspace.mem.table hst hn⟩

/-- What holds of the kernel when `exec` is called: the trampoline is part of its code, and the
trapframe is not free. -/
structure Ground (kend tramp tf : ℕ) (s : Phys) : Prop where
  kend_le : kernbase ≤ kend
  aligned : tramp % pgsize = 0
  pos : 0 < tramp
  code : tramp < kend
  page : IsPage kend tf
  free : tf ∉ s.freelist

theorem Ground.congr (hg : Ground kend tramp tf s) (hfree : t.freelist = s.freelist) :
    Ground kend tramp tf t :=
  ⟨hg.kend_le, hg.aligned, hg.pos, hg.code, hg.page, by rw [hfree]; exact hg.free⟩

theorem Building.kernelPages (h : Building kend tramp tf s u pt ms)
    (hg : Ground kend tramp tf s) (hsz : npages sz = ms.length) :
    KernelPages kend u pt sz tramp tf := by
  obtain ⟨-, hnode, htarget⟩ := h.spare hsz hg.free
  exact ⟨hg.aligned, hg.pos, hg.code, hg.page, hnode, htarget⟩

theorem npages_mul (k : ℕ) : npages (k * pgsize) = k := by
  unfold npages pgsize
  omega

theorem Building.leaves (h : Building kend tramp tf s u pt ms)
    (hg : Ground kend tramp tf s) : Leaves u pt := by
  have hsz := npages_mul ms.length
  exact (h.space hg.kend_le hsz).leaves (h.kernelPages hg hsz) hg.kend_le

theorem Building.apart (h : Building kend tramp tf s u pt ms)
    (hg : Ground kend tramp tf s) {buf len q : ℕ}
    (hbuf : ∀ i < len, (buf + i) / pgsize * pgsize = q) (hq : kend ≤ q) (hframe : q ≠ tf)
    (hfree : q ∉ s.freelist) : Apart u pt buf len := by
  have hsz := npages_mul ms.length
  exact (h.space hg.kend_le hsz).apart (h.kernelPages hg hsz) hbuf hq hframe (h.spare hsz hfree).2.2

theorem Building.max_le (h : Building kend tramp tf s u pt ms)
    (hg : Ground kend tramp tf s) : ms.length * pgsize ≤ 2 ^ 27 := by
  have := h.length_le hg.kend_le
  unfold pgsize
  omega

theorem Building.usable {x : ℕ} {write : Bool} (h : Building kend tramp tf s u pt ms)
    (hg : Ground kend tramp tf s) (hx : x < ms.length * pgsize)
    (hperm : ∀ m, ms[x / pgsize]? = some m →
      m.perm &&& pteU ≠ 0 ∧ (write = true → m.perm &&& pteW ≠ 0)) : Usable u pt write x := by
  have hmax := h.max_le hg
  have hmaxv := maxva_eq
  obtain ⟨s₀, nodes, hspace, -, -, hb⟩ := h.built
  obtain ⟨m, -, hm, -, -⟩ := hb.leaf_at hspace.mem.table hx
  exact hb.usable hspace.mem.table (by omega) hx hm (hperm m hm).1 (hperm m hm).2

theorem Building.copyout {src len q : ℕ} (h : Building kend tramp tf s u pt ms) (dst : ℕ)
    (hg : Ground kend tramp tf s) (hbuf : ∀ i < len, (src + i) / pgsize * pgsize = q)
    (hq : kend ≤ q) (hframe : q ≠ tf) (hfree : q ∉ s.freelist)
    (hn : dst + len ≤ ms.length * pgsize) (huse : ∀ i < len, ∀ m, ms[(dst + i) / pgsize]? = some m →
      m.perm &&& pteU ≠ 0 ∧ m.perm &&& pteW ≠ 0) :
      Runs (copyout pt dst src len) u fun r t => r = true ∧
      Building kend tramp tf s t pt (store ms dst len fun i => u.byte (src + i)) := by
  refine (copyout_spec dst h.table (h.leaves hg) (h.apart hg hbuf hq hframe hfree)).mono ?_
  rintro r t ⟨m, hm⟩
  have hr : r = true := hm.true_iff.2 fun i hi => h.usable hg (by omega) fun m hm =>
    ⟨(huse i hi m hm).1, fun _ => (huse i hi m hm).2⟩
  obtain rfl := hm.all hr
  exact ⟨hr, h.stored hm.stored hn⟩

end building

section loadseg

variable {kend tramp tf pt : ℕ} {s u : Phys} {ms : List Leaf} {f : File}

theorem readi_le (f : File) (off n : ℕ) : f.readi off n ≤ n := by
  unfold File.readi
  have := f.size_lt
  split
  · exact zero_le _
  next hin =>
    split
    next h => omega
    next => exact le_rfl

theorem readi_all {off n : ℕ} (hoff : off < 2 ^ 32) (hn : 0 < n) (hn' : n < 2 ^ 32)
    (h : f.readi off n = n) : off + n ≤ f.size := by
  have := f.size_lt
  unfold File.readi at h
  split at h
  · omega
  next hin =>
    split at h
    next => omega
    next => omega

def UserPages (ms : List Leaf) : Prop := ∀ m ∈ ms, m.perm &&& pteU ≠ 0

/-- The loop of `loadseg` after the first `i` bytes, or all, have been stored. The pages are there
and the user may read them, so that `walkaddr` finds them. -/
theorem loadsegLoop_spec {va offset sz i rounds : ℕ} (hg : Ground kend tramp tf s)
    (h : Building kend tramp tf s u pt (store ms va (min i sz) fun k => f.bytes (offset + k)))
    (hU : UserPages ms) (hva : va % pgsize = 0) (hend : va + sz ≤ ms.length * pgsize)
    (hi : i % pgsize = 0) (hle : i < sz + pgsize) (hoff : offset < 2 ^ 32)
    (hread : i = 0 ∨ offset + min i sz ≤ f.size) (hrounds : sz + pgsize ≤ i + rounds * pgsize) :
    Runs (loadsegLoop f pt va offset sz rounds i) u fun r t =>
      (r = true ∧ (sz = 0 ∨ offset + sz ≤ f.size) ∧ Building kend tramp tf s t pt
        (store ms va sz fun k => f.bytes (offset + k))) ∨
      (r = false ∧ ∃ n g, Building kend tramp tf s t pt (store ms va n g)) := by
  induction rounds generalizing u i with
  | zero => omega
  | succ rounds ih =>
    have hpg : pgsize = 4096 := rfl
    have hmax := h.max_le hg
    rw [length_store] at hmax
    have hsize := f.size_lt
    rw [loadsegLoop]
    by_cases hlt : i < sz
    swap
    · rw [if_neg hlt]
      rw [min_eq_right (not_lt.1 hlt)] at h hread
      refine Runs.ret (.inl ⟨rfl, ?_, h⟩)
      rcases hread with rfl | hread
      · exact .inl (by omega)
      · exact .inr hread
    rw [if_pos hlt]
    rw [min_eq_left hlt.le] at h hread
    have hoffset : (offset + i) % 2 ^ 32 = offset + i := mod_eq_of_lt (by omega)
    have hadd : add64 va i = va + i := by
      rw [add64, mod_eq_of_lt (by omega)]
    have hal : (va + i) % pgsize = 0 := by
      rw [add_mod, hva, hi]
      rfl
    -- the page is there
    have husable : Usable u pt false (va + i) := by
      refine h.usable hg (by rw [length_store]; omega) fun m hm => ?_
      rw [getElem?_store, Option.map_eq_some_iff] at hm
      obtain ⟨m₀, hm₀, rfl⟩ := hm
      exact ⟨hU m₀ (mem_of_getElem? hm₀), fun hw => Bool.noConfusion hw⟩
    obtain ⟨pa, hwalk, hzero, hpa⟩ := walkaddr_spec (va + i) h.table (h.leaves hg).ne_zero
    have hne : pa ≠ 0 := fun heq => hzero.1 heq husable
    have hphys : pa = u.phys pt (va + i) := by
      rw [hpa hne, Phys.phys, hal, add_zero]
    refine Runs.bind (Q := fun r t => r = pa ∧ t = u)
      ⟨pa, u, by rw [hadd]; exact hwalk, rfl, rfl⟩ ?_
    rintro r v ⟨rfl, rfl⟩
    rw [if_neg hne, hoffset]
    obtain ⟨n, hn⟩ : ∃ n, (if sz - i < pgsize then sz - i else pgsize) = n := ⟨_, rfl⟩
    have hnle : n = min (sz - i) pgsize := by
      rw [← hn]
      split <;> omega
    rw [hn]
    refine Runs.modifies ?_
    have htot := readi_le f (offset + i) n
    have hst : Stored v (v.fill r (f.readi (offset + i) n) fun k => f.bytes (offset + i + k))
        (fun k => v.phys pt (va + i + k)) (fun k => f.bytes (offset + (i + k)))
        (f.readi (offset + i) n) := by
      refine (Stored.fill v r _ _).congr (fun k hk => ?_) fun k _ => by rw [add_assoc]
      rw [hphys, phys_add (by omega)]
    have hb := h.stored hst (by rw [length_store]; omega)
    rw [store_store (f := fun k => f.bytes (offset + k))] at hb
    by_cases hall : f.readi (offset + i) n = n
    swap
    · rw [if_pos hall]
      exact Runs.ret (.inr ⟨rfl, _, _, hb⟩)
    rw [if_neg (not_not.2 hall)]
    have hfile := readi_all (f := f) (by omega) (by omega) (by omega) hall
    have hnext : (i + pgsize) % 2 ^ 32 = i + pgsize := mod_eq_of_lt (by omega)
    have hmin : i + f.readi (offset + i) n = min (i + pgsize) sz := by omega
    rw [hmin] at hb
    rw [hnext]
    refine ih hb ?_ (by omega) (.inr (by omega)) ?_
    · rw [add_mod_right]
      exact hi
    · rw [add_mul, one_mul] at hrounds
      omega

theorem loadseg_spec {va offset sz : ℕ} (hg : Ground kend tramp tf s)
    (h : Building kend tramp tf s u pt ms) (hU : UserPages ms)
    (hva : va % pgsize = 0) (hend : va + sz ≤ ms.length * pgsize) (hoff : offset < 2 ^ 32) :
    Runs (loadseg f pt va offset sz) u fun r t =>
      (r = true ∧ (sz = 0 ∨ offset + sz ≤ f.size) ∧ Building kend tramp tf s t pt
        (store ms va sz fun k => f.bytes (offset + k))) ∨
      (r = false ∧ ∃ n g, Building kend tramp tf s t pt (store ms va n g)) := by
  refine loadsegLoop_spec hg ?_ hU hva hend (zero_mod _) ?_ hoff (.inl rfl) ?_
  · rwa [zero_min, store_zero]
  · unfold pgsize
    omega
  · unfold pgsize
    omega

end loadseg

def headers (f : File) : ℕ → ℕ → List Proghdr
  | 0, _ => []
  | n + 1, off =>
    let ph := Proghdr.parse fun k => f.bytes (off + k)
    (if ph.type = elfProgLoad then [ph] else []) ++ headers f n ((off + proghdrSize) % 2 ^ 32)

/-- How the segments change the image: each adds zero pages up to its end, all with its own
permissions, and its part of the file is stored. -/
def Loads (f : File) : List Proghdr → List Leaf → List Leaf → Prop
  | [], ms, ms' => ms' = ms
  | ph :: phs, ms, ms' => ph.filesz ≤ ph.memsz ∧ ph.vaddr % pgsize = 0 ∧
      (ph.filesz = 0 ∨ ph.off % 2 ^ 32 + ph.filesz ≤ f.size) ∧
      ∃ ds : List ℕ, ms.length + ds.length = max ms.length (npages (ph.vaddr + ph.memsz)) ∧
        Loads f phs (store (ms ++ ds.map (heapLeaf (flags2perm ph.flags))) ph.vaddr ph.filesz
          fun k => f.bytes (ph.off % 2 ^ 32 + k)) ms'

section loadLoop

variable {kend tramp tf pt : ℕ} {s u : Phys} {ms : List Leaf} {f : File}

theorem ofBytes_lt {l : List ℕ} (hl : ∀ b ∈ l, b < 256) : ofBytes l < 256 ^ l.length := by
  induction l with
  | nil => exact one_pos
  | cons b l ih =>
    have hb := hl b mem_cons_self
    have hrest := ih fun c hc => hl c (mem_cons_of_mem b hc)
    change b + 256 * ofBytes l < _
    rw [length_cons, pow_succ]
    omega

theorem field_lt (bytes : ℕ → UInt8) (off width : ℕ) : field bytes off width < 256 ^ width := by
  have hlt : field bytes off width <
      256 ^ ((List.range width).map fun j => (bytes (off + j)).toNat).length := by
    refine ofBytes_lt fun b hb => ?_
    rw [mem_map] at hb
    obtain ⟨j, -, rfl⟩ := hb
    exact UInt8.toNat_lt _
  rwa [length_map, length_range] at hlt

theorem parse_lt (bytes : ℕ → UInt8) : (Proghdr.parse bytes).vaddr < 2 ^ 64 ∧
    (Proghdr.parse bytes).memsz < 2 ^ 64 := by
  have hpow : 256 ^ 8 = 2 ^ 64 := by norm_num
  rw [← hpow]
  exact ⟨field_lt bytes 16 8, field_lt bytes 40 8⟩

theorem flags2perm_ok (flags : ℕ) : pteR ||| pteU ||| flags2perm flags < 1024 ∧
    (pteR ||| pteU ||| flags2perm flags) &&& pteU ≠ 0 := by
  unfold flags2perm
  split <;> split <;> decide

theorem UserPages.grow {xperm : ℕ} (h : UserPages ms) (hx : (pteR ||| pteU ||| xperm) &&& pteU ≠ 0)
    (ds : List ℕ) : UserPages (ms ++ ds.map (heapLeaf xperm)) := by
  intro m hm
  rcases mem_append.1 hm with hm | hm
  · exact h m hm
  · obtain ⟨d, -, rfl⟩ := mem_map.1 hm
    exact hx

theorem UserPages.store {a n : ℕ} {g : ℕ → UInt8} (h : UserPages ms) :
    UserPages (store ms a n g) := by
  intro m hm
  obtain ⟨j, hj⟩ := mem_iff_getElem?.1 hm
  rw [getElem?_store, Option.map_eq_some_iff] at hj
  obtain ⟨m₀, hm₀, rfl⟩ := hj
  exact h m₀ (mem_of_getElem? hm₀)

/-- The loop over the program headers. Whatever they say, the image is one of pages that the user
may read, up to the size reached. -/
theorem loadLoop_spec {n off sz : ℕ} (hg : Ground kend tramp tf s)
    (h : Building kend tramp tf s u pt ms) (hsz : npages sz = ms.length)
    (hU : UserPages ms) (hoff : off < 2 ^ 32) : Runs (loadLoop kend f pt n off sz) u fun r t =>
      ∃ ms', Building kend tramp tf s t pt ms' ∧ npages r.2 = ms'.length ∧
        (r.1 = true → Loads f (headers f n off) ms ms' ∧
          (n = 0 ∨ off + n * proghdrSize ≤ f.size)) := by
  induction n generalizing u ms off sz with
  | zero => exact Runs.ret ⟨ms, h, hsz, fun _ => ⟨rfl, .inl rfl⟩⟩
  | succ n ih =>
    have hsize := f.size_lt
    have hph : proghdrSize = 56 := rfl
    rw [loadLoop]
    by_cases hread : f.readi off proghdrSize = proghdrSize
    swap
    · rw [if_pos hread]
      exact Runs.ret ⟨ms, h, hsz, nofun⟩
    rw [if_neg (not_not.2 hread)]
    have hfile := readi_all hoff (by decide) (by decide) hread
    have hnext : (off + proghdrSize) % 2 ^ 32 = off + proghdrSize := mod_eq_of_lt (by omega)
    dsimp only
    rw [headers]
    obtain ⟨hvaddr, hmemsz⟩ := parse_lt fun k => f.bytes (off + k)
    generalize (Proghdr.parse fun k => f.bytes (off + k)) = ph at hvaddr hmemsz ⊢
    rw [hnext]
    have hlast : (n = 0 ∨ off + proghdrSize + n * proghdrSize ≤ f.size) →
        (n + 1 = 0 ∨ off + (n + 1) * proghdrSize ≤ f.size) := by
      rw [add_mul, one_mul]
      rintro (rfl | hn)
      · exact .inr (by omega)
      · exact .inr (by omega)
    by_cases hload : ph.type = elfProgLoad
    swap
    · rw [if_pos hload, if_neg hload, nil_append]
      refine (ih h hsz hU (by omega)).mono ?_
      rintro r t ⟨ms', hb, hpages, hok⟩
      exact ⟨ms', hb, hpages, fun hr => ⟨(hok hr).1, hlast (hok hr).2⟩⟩
    rw [if_neg (not_not.2 hload), if_pos hload]
    have hbad : ∀ {v : Phys} {k : ℕ} {ms' : List Leaf},
        Building kend tramp tf s v pt ms' → npages k = ms'.length →
        Runs (pure (false, k) : M (Bool × ℕ)) v fun r t =>
          ∃ ms', Building kend tramp tf s t pt ms' ∧ npages r.2 = ms'.length ∧
            (r.1 = true → Loads f ([ph] ++ headers f n (off + proghdrSize)) ms ms' ∧
              (n + 1 = 0 ∨ off + (n + 1) * proghdrSize ≤ f.size)) := fun hb hk =>
      Runs.ret ⟨_, hb, hk, nofun⟩
    by_cases hsizes : ph.memsz < ph.filesz
    · rw [if_pos hsizes]
      exact hbad h hsz
    rw [if_neg hsizes]
    by_cases hwrap : add64 ph.vaddr ph.memsz < ph.vaddr
    · rw [if_pos hwrap]
      exact hbad h hsz
    rw [if_neg hwrap]
    by_cases hal : ph.vaddr % pgsize = 0
    swap
    · rw [if_pos hal]
      exact hbad h hsz
    rw [if_neg (not_not.2 hal)]
    have hadd : add64 ph.vaddr ph.memsz = ph.vaddr + ph.memsz := by
      unfold add64 at hwrap ⊢
      omega
    rw [hadd]
    obtain ⟨hperm, hread⟩ := flags2perm_ok ph.flags
    refine (h.uvmalloc hg.kend_le hsz hperm).bind ?_
    rintro sz1 v (⟨hsz1, ds, hb, hpages⟩ | ⟨rfl, hb⟩)
    swap
    · rw [if_pos rfl]
      exact hbad hb hsz
    by_cases hzero : sz1 = 0
    · rw [if_pos hzero]
      obtain rfl : sz = sz1 := by omega
      exact hbad hb hpages
    rw [if_neg hzero]
    -- the segment lies within the pages that are there now
    have hle : sz1 ≤ (ms ++ ds.map (heapLeaf (flags2perm ph.flags))).length * pgsize := by
      rw [← hpages]
      unfold npages pgsize
      omega
    have hmax := hb.max_le hg
    have hsegment : ph.vaddr + ph.memsz ≤ sz1 := by omega
    have hfilesz : ph.filesz % 2 ^ 32 = ph.filesz := mod_eq_of_lt (by omega)
    have hU' : UserPages (ms ++ ds.map (heapLeaf (flags2perm ph.flags))) :=
      UserPages.grow hU hread ds
    rw [hfilesz]
    refine (loadseg_spec hg hb hU' hal (by omega) (mod_lt _ (by norm_num))).bind ?_
    rintro r t (⟨rfl, hoffs, hb'⟩ | ⟨rfl, k, g, hb'⟩)
    swap
    · rw [if_neg (by simp)]
      exact hbad hb' (by rw [length_store]; exact hpages)
    rw [if_pos rfl]
    refine (ih hb' (by rw [length_store]; exact hpages) hU'.store (by omega)).mono ?_
    rintro r w ⟨ms', hb'', hpages', hok⟩
    refine ⟨ms', hb'', hpages',
      fun hr => ⟨⟨not_lt.1 hsizes, hal, hoffs, ds, ?_, (hok hr).1⟩, hlast (hok hr).2⟩⟩
    rw [length_append, length_map] at hpages
    rw [← hpages, hsz1, ← hsz]
    unfold npages
    omega

end loadLoop

end Xv6.Exec
