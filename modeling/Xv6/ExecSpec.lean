import Xv6.ExecStack

/-!
# What exec does

`exec` returns for every file, whatever its headers say, and for every answer of `kalloc`. If it
fails, all that it took is back and nothing else has changed: `Undone`. If it succeeds, the process
has the new address space, whose image is given by `Builds`, and the pages of the old one are free.
-/

namespace Xv6.Exec

open Xv6.Vm Xv6.Radix Function List Nat

section spaces

variable {kend root sz tramp tf pt : ℕ} {s t u s' u' : Phys} {ms : List Leaf}

theorem UserSpace.of_lookup (h : UserSpace kend s root sz tramp tf) (ht : Table kend t root)
    (hnodes : t.nodes root = s.nodes root) (hlookup : ∀ x, t.lookup root x = s.lookup root x)
    (hfree : ∀ p ∈ s.targets root 0 (npages sz), p ∉ t.freelist) :
    UserSpace kend t root sz tramp tf ∧
      t.targets root 0 (npages sz) = s.targets root 0 (npages sz) := by
  refine ⟨⟨h.mem.congr ht (fun x _ => hlookup x) fun p hp => ⟨?_, hfree p hp⟩, fun x hx hge => ?_⟩,
    targets_congr fun j _ => hlookup _⟩
  · rw [hnodes]
    exact (h.mem.own p hp).2.1
  · rw [hlookup, h.upper x hx hge]

theorem UserSpace.untouched (h : UserSpace kend s root sz tramp tf)
    (hfree : t.freelist = s.freelist) (hpages : ∀ x ∈ s.nodes root, t.pages x = s.pages x) :
    UserSpace kend t root sz tramp tf ∧ t.nodes root = s.nodes root ∧
      t.targets root 0 (npages sz) = s.targets root 0 (npages sz) := by
  obtain ⟨htable, hnodes, hlookup⟩ := h.mem.table.untouched hfree hpages
  obtain ⟨hspace, htargets⟩ := UserSpace.of_lookup h htable hnodes hlookup fun p hp => by
    rw [hfree]
    exact (h.mem.own p hp).2.2
  exact ⟨hspace, hnodes, htargets⟩

theorem Building.old (h : Building kend tramp tf s u pt ms)
    (hs : UserSpace kend s root sz tramp tf) :
    UserSpace kend u root sz tramp tf ∧ u.nodes root = s.nodes root ∧
      u.targets root 0 (npages sz) = s.targets root 0 (npages sz) := by
  obtain ⟨htable, hnodes, hlookup⟩ := h.other hs.mem.table
  obtain ⟨-, -, -, hfree⟩ := h.own
  obtain ⟨hspace, htargets⟩ := UserSpace.of_lookup hs htable hnodes hlookup fun p hp hmem =>
    (hs.mem.own p hp).2.2 (hfree p hmem)
  exact ⟨hspace, hnodes, htargets⟩

theorem Building.elsewhere {q : ℕ} (h : Building kend tramp tf s u pt ms)
    (hq : q ∉ s.freelist) (hsf : s'.freelist = s.freelist) (huf : u'.freelist = u.freelist)
    (hsp : ∀ x, x ≠ q → s'.pages x = s.pages x) (hup : ∀ x, x ≠ q → u'.pages x = u.pages x)
    (hsame : u'.pages q = s'.pages q) : Building kend tramp tf s' u' pt ms := by
  obtain ⟨s₀, nodes, hspace, hperm, hframe, hb⟩ := h.built
  have hout : q ∉ s₀.nodes pt ∧ q ∉ s₀.freelist := by
    rwa [hperm.mem_iff, mem_append, not_or] at hq
  let s₀' : Phys := { s₀ with pages := update s₀.pages q (s'.pages q) }
  have hpages : ∀ x, x ≠ q → s₀'.pages x = s₀.pages x := fun x hx => update_of_ne hx ..
  have hpageq : s₀'.pages q = s'.pages q := update_self ..
  obtain ⟨hspace', hnodes, -⟩ := UserSpace.untouched (t := s₀') hspace rfl fun x hx =>
    hpages x fun heq => hout.1 (heq ▸ hx)
  refine ⟨s₀', nodes, hspace', ?_, fun x hx => ?_, ?_⟩
  · rw [hsf, hnodes]
    exact hperm
  · by_cases hxq : x = q
    · rw [hxq, hpageq]
    · rw [hpages x hxq, hsp x hxq, hframe x (by rwa [hsf] at hx)]
  · exact hb.elsewhere hspace.mem.table hout.2 hout.1 rfl huf hpages hup (hsame.trans hpageq.symm)

theorem Building.fill {q a n : ℕ} {f : ℕ → UInt8} (h : Building kend tramp tf s u pt ms)
    (hq : q ∉ s.freelist) (hal : q % pgsize = 0) (ha : q ≤ a) (hn : a + n ≤ q + pgsize) :
    Building kend tramp tf (s.fill a n f) (u.fill a n f) pt ms := by
  refine h.elsewhere hq rfl rfl (fun x hx => fill_page f hal ha hn hx)
    (fun x hx => fill_page f hal ha hn hx) ?_
  funext k
  change (if _ ∧ _ ∧ _ ∧ _ then _ else _) = if _ ∧ _ ∧ _ ∧ _ then _ else _
  rw [h.frame hq]

theorem Building.uvmclear {j : ℕ} {m : Leaf} (h : Building kend tramp tf s u pt ms)
    (hkend : kernbase ≤ kend) (hj : ms[j]? = some m)
    (hok : Leaf.Ok ⟨m.page, clearU m.perm, m.bytes⟩) :
    Runs (uvmclear pt (j * pgsize)) u fun _ t =>
      Building kend tramp tf s t pt (ms.set j ⟨m.page, clearU m.perm, m.bytes⟩) := by
  have hlen := h.length_le hkend
  have hmaxv := maxva_eq
  have hpg : pgsize = 4096 := rfl
  obtain ⟨s₀, nodes, hspace, hperm, hframe, hb⟩ := h.built
  refine (uvmclear_spec hb hspace.mem.table (by rw [hpg]; omega) hj hok).mono ?_
  rintro - t ht
  exact ⟨s₀, nodes, hspace, hperm, hframe, ht⟩

end spaces

structure Undone (s t : Phys) : Prop where
  free : t.freelist.Perm s.freelist
  pages : ∀ x, x ∉ s.freelist → t.pages x = s.pages x

/-- The call fails, and all that was taken is back. -/
abbrev Failed {α : Type} (s : Kernel) (r : Option α) (t : Kernel) : Prop :=
  r = none ∧ ∃ q, Undone s.phys q ∧ t = { s with phys := q }

/-- A new address space is being built, of which the process does not know yet. -/
abbrev Ongoing (env : Env) (s : Kernel) : Phys → ℕ → List Leaf → Prop :=
  Building env.kend env.tramp s.proc.trapframe s.phys

def acquired (s : Kernel) (ip : ℕ) : Kernel :=
  { s with
    ops := s.ops + 1
    ref := update s.ref ip (s.ref ip + 1)
    locked := update s.locked ip true }

section bad

variable {env : Env} {tf pt sz ip : ℕ} {s t : Kernel} {p : Phys} {ms : List Leaf}

theorem Building.free (h : Building env.kend env.tramp tf s.phys p pt ms)
    (hkend : kernbase ≤ env.kend) (hsz : npages sz = ms.length) :
    Runs (procFreepagetable env.kend 3 pt sz) p fun _ q => Undone s.phys q := by
  have hspace := h.space hkend hsz
  refine (procFreepagetable_spec hkend hspace.mem hspace.to_upper 0).mono ?_
  rintro - q ⟨hperm, hpages⟩
  refine ⟨hperm.trans (h.perm hsz).symm, fun x hx => ?_⟩
  obtain ⟨-, hnode, htarget⟩ := h.spare hsz hx
  rw [hpages x hnode htarget, h.frame hx]

theorem iunlockput_spec (hl : t.locked ip = true) (hr : 1 ≤ t.ref ip) :
    Runs (iunlockput ip) t fun _ v => v = { t with
        locked := update t.locked ip false
        ref := update t.ref ip (t.ref ip - 1) } := by
  unfold iunlockput
  refine Runs.reads ?_
  rw [if_neg (by simp [hl]; omega)]
  exact Runs.writes rfl

theorem release_spec (hs : s.locked ip = false) :
    Runs (iunlockput ip >>= fun _ => endOp) { acquired s ip with phys := p } fun _ t =>
      t = { s with phys := p } := by
  refine (iunlockput_spec (by simp [acquired]) (by simp [acquired])).bind ?_
  rintro - t rfl
  refine ⟨(), _, rfl, ?_⟩
  have hlocked : update (update s.locked ip true) ip false = s.locked := by
    rw [update_idem, ← hs, update_eq_self]
  simp [acquired, hlocked]

theorem bad_inode (hs : s.locked ip = false) {pagetable : Option ℕ}
    (hpt : Runs (match pagetable with
      | none => pure ()
      | some pagetable => vm (procFreepagetable env.kend 3 pagetable sz))
        { acquired s ip with phys := p }
      fun _ t => ∃ q, Undone s.phys q ∧ t = { acquired s ip with phys := q }) :
    Runs (bad env pagetable sz (some ip)) { acquired s ip with phys := p } (Failed s) := by
  unfold bad
  refine hpt.bind ?_
  rintro - t ⟨q, hq, rfl⟩
  refine (release_spec hs).bind ?_
  rintro - t rfl
  exact Runs.ret ⟨rfl, q, hq, rfl⟩

theorem bad_early (hs : s.locked ip = false) (hp : Undone s.phys p) :
    Runs (bad env none sz (some ip)) { acquired s ip with phys := p } (Failed s) :=
  bad_inode hs (Runs.ret ⟨p, hp, rfl⟩)

theorem bad_loading (hs : s.locked ip = false)
    (h : Building env.kend env.tramp tf s.phys p pt ms) (hkend : kernbase ≤ env.kend)
    (hsz : npages sz = ms.length) :
    Runs (bad env (some pt) sz (some ip)) { acquired s ip with phys := p } (Failed s) := by
  refine bad_inode hs ((runs_vm (h.free hkend hsz)).mono ?_)
  rintro - t ⟨q, hq, rfl⟩
  exact ⟨q, hq, rfl⟩

theorem bad_stack (h : Building env.kend env.tramp tf s.phys p pt ms)
    (hkend : kernbase ≤ env.kend) (hsz : npages sz = ms.length) :
    Runs (bad env (some pt) sz none) { s with phys := p } (Failed s) := by
  unfold bad
  refine (runs_vm (h.free hkend hsz)).bind ?_
  rintro - t ⟨q, hq, rfl⟩
  exact Runs.ret ⟨rfl, q, hq, rfl⟩

end bad

def HasImage (s : Phys) (pt : ℕ) (ms : List Leaf) : Prop :=
  ∀ x < ms.length * pgsize, ∃ m, ms[x / pgsize]? = some m ∧ s.lookup pt x = some m.pte ∧
    pte2pa m.pte = m.page ∧ s.pages m.page = m.bytes

section words

variable {s : Phys} {a b v : ℕ}

theorem field_congr {byte byte' : ℕ → UInt8} {width : ℕ}
    (h : ∀ j < width, byte' (a + j) = byte (a + j)) : field byte' a width = field byte a width := by
  unfold field
  congr 1
  refine map_congr_left fun j hj => ?_
  rw [h j (mem_range.1 hj)]

theorem field_of_bytes {byte : ℕ → UInt8} (h : ∀ j < 8, byte (a + j) = wordByte v j) :
    field byte a 8 = v % 2 ^ 64 := by
  have hpow : 256 ^ 8 = 2 ^ 64 := by norm_num
  rw [field, ← hpow, ← ofBytes_range 8 v]
  congr 1
  refine map_congr_left fun j hj => ?_
  rw [h j (mem_range.1 hj), wordByte, UInt8.toNat_ofNat']

def setWord (s : Phys) (a v : ℕ) : Phys := s.fill a 8 fun i => wordByte ([v].getD (i / 8) 0) (i % 8)

theorem word_setWord : word (setWord s a v) a = v % 2 ^ 64 := by
  refine field_of_bytes fun j hj => ?_
  have hbyte := (Stored.fill s a 8 fun i => wordByte ([v].getD (i / 8) 0) (i % 8)).bytes j hj
  rw [setWord, hbyte, div_eq_of_lt hj, mod_eq_of_lt hj]
  rfl

theorem word_setWord_of_ne (h : b + 8 ≤ a ∨ a + 8 ≤ b) : word (setWord s a v) b = word s b := by
  refine field_congr fun j hj => ?_
  exact (Stored.fill s a 8 _).byte fun i hi => by omega

end words

section commit

variable {kend root sz newsz tramp tf pt : ℕ} {s u v : Phys} {ms : List Leaf}

theorem Building.image (h : Building kend tramp tf s u pt ms) : HasImage u pt ms := by
  obtain ⟨s₀, nodes, hspace, -, -, hb⟩ := h.built
  intro x hx
  obtain ⟨m, hmem, hm, hlook, hpa⟩ := hb.leaf_at hspace.mem.table hx
  exact ⟨m, hm, hlook, hpa, hb.bytes m hmem⟩

theorem Building.freed (h : Building kend tramp tf s u pt ms)
    (hs : UserSpace kend s root sz tramp tf) (hkend : kernbase ≤ kend)
    (hsz : npages newsz = ms.length)
    (hperm : v.freelist.Perm (u.nodes root ++ (u.targets root 0 (npages sz) ++ u.freelist)))
    (hpages : ∀ x, x ∉ u.nodes root → x ∉ u.targets root 0 (npages sz) → v.pages x = u.pages x) :
    UserSpace kend v pt newsz tramp tf ∧ HasImage v pt ms ∧
      (s.nodes root ++ (s.targets root 0 (npages sz) ++ s.freelist)).Perm
        (v.nodes pt ++ (v.targets pt 0 (npages newsz) ++ v.freelist)) := by
  obtain ⟨hold, hnodes, htargets⟩ := h.old hs
  obtain ⟨-, hown, hpt, hfree⟩ := h.own
  have hspace := h.space hkend hsz
  -- what was free is no part of the old space
  have hout : ∀ x, x ∈ s.freelist → x ∉ u.nodes root ∧ x ∉ u.targets root 0 (npages sz) := by
    intro x hx
    rw [hnodes, htargets]
    exact ⟨hs.mem.table.free_fresh x hx, fun hmem => (hs.mem.own x hmem).2.2 hx⟩
  have hkeep : ∀ x, x ∈ s.freelist → v.pages x = u.pages x := fun x hx =>
    hpages x (hout x hx).1 (hout x hx).2
  have hnodup : (u.nodes root ++ (u.targets root 0 (npages sz) ++ u.freelist)).Nodup := by
    refine nodup_append.2 ⟨hold.mem.table.nodup,
      nodup_append.2 ⟨hold.mem.nodup, h.table.free_nodup, ?_⟩, ?_⟩
    · rintro p hp q hq rfl
      exact (hold.mem.own p hp).2.2 hq
    · rintro p hp q hq rfl
      rcases mem_append.1 hq with hq | hq
      · exact (hold.mem.own p hq).2.1 hp
      · exact hold.mem.table.free_fresh p hq hp
  have hfreed : ∀ p ∈ v.freelist, IsPage kend p ∧ p ∉ u.nodes pt ∧
      p ∉ u.targets pt 0 (npages newsz) := by
    intro p hp
    rw [hperm.mem_iff, mem_append, mem_append] at hp
    rw [h.targets hsz]
    rcases hp with hp | hp | hp
    · exact ⟨hold.mem.table.pages p hp, fun hmem => (hout p (hpt p hmem)).1 hp,
        fun hmem => (hout p (hown p hmem)).1 hp⟩
    · exact ⟨(hold.mem.own p hp).1, fun hmem => (hout p (hpt p hmem)).2 hp,
        fun hmem => (hout p (hown p hmem)).2 hp⟩
    · refine ⟨h.table.free_pages p hp, h.table.free_fresh p hp, fun hmem => ?_⟩
      rw [← h.targets hsz] at hmem
      exact (hspace.mem.own p hmem).2.2 hp
  obtain ⟨htable, hvnodes, hlookup⟩ := h.table.of_nodes (t := v) (fun x hx => hkeep x (hpt x hx))
    (hperm.nodup_iff.2 hnodup) (fun p hp => (hfreed p hp).1) fun p hp => (hfreed p hp).2.1
  obtain ⟨hvspace, hvtargets⟩ := UserSpace.of_lookup hspace htable hvnodes hlookup fun p hp hmem =>
    (hfreed p hmem).2.2 hp
  refine ⟨hvspace, fun x hx => ?_, ?_⟩
  · obtain ⟨m, hm, hlook, hpa, hbytes⟩ := h.image x hx
    refine ⟨m, hm, by rw [hlookup, hlook], hpa, ?_⟩
    rw [hkeep _ (hown _ (mem_map_of_mem (mem_of_getElem? hm))), hbytes]
  · rw [perm_iff_count]
    intro p
    have h1 := hperm.count_eq p
    have h2 := (h.perm hsz).count_eq p
    rw [hnodes, htargets] at h1
    rw [hvnodes, hvtargets]
    simp only [count_append] at h1 h2 ⊢
    omega

end commit

/-- What holds when `exec` is called: the process is well formed and holds no inode lock, the
kernel's pages are in no other use, and there is room for the arguments' addresses. -/
structure Ready (env : Env) (s : Kernel) (argv : List ℕ) : Prop where
  ground : Ground env.kend env.tramp s.proc.trapframe s.phys
  space : UserSpace env.kend s.phys s.proc.pagetable s.proc.sz env.tramp s.proc.trapframe
  frame : Spare env.kend s.phys s.proc.pagetable s.proc.sz s.proc.trapframe
  stack : Spare env.kend s.phys s.proc.pagetable s.proc.sz (env.ustack / pgsize * pgsize)
  stack_ne : env.ustack / pgsize * pgsize ≠ s.proc.trapframe
  ustack : env.ustack % pgsize + maxarg * 8 ≤ pgsize
  args : ∀ a ∈ argv, IsArg env.kend s.proc.trapframe s.phys a
  argc : argv.length < maxarg
  unlocked : ∀ ip, s.locked ip = false

structure Committed (env : Env) (s t : Kernel) (pt sz sp entry : ℕ) (path : List UInt8)
    (ms : List Leaf) : Prop where
  proc : t.proc = ⟨pt, sz, s.proc.trapframe, safestrcpy s.proc.name (lastElement path path)⟩
  ops : t.ops = s.ops
  ref : t.ref = s.ref
  locked : t.locked = s.locked
  pages : npages sz = ms.length
  space : UserSpace env.kend t.phys pt sz env.tramp s.proc.trapframe
  image : HasImage t.phys pt ms
  a1 : word t.phys (s.proc.trapframe + 120) = sp
  epc : word t.phys (s.proc.trapframe + 24) = entry
  sp : word t.phys (s.proc.trapframe + 48) = sp
  perm : (s.phys.nodes s.proc.pagetable ++
      (s.phys.targets s.proc.pagetable 0 (npages s.proc.sz) ++ s.phys.freelist)).Perm
    (t.phys.nodes pt ++ (t.phys.targets pt 0 (npages sz) ++ t.phys.freelist))
  rest : ∀ x, x ∉ s.phys.freelist → x ∉ s.phys.nodes s.proc.pagetable →
    x ∉ s.phys.targets s.proc.pagetable 0 (npages s.proc.sz) → x ≠ s.proc.trapframe →
    x ≠ env.ustack / pgsize * pgsize → t.phys.pages x = s.phys.pages x

section commit

variable {env : Env} {s : Kernel} {argv : List ℕ} {pt sz sp entry : ℕ} {path : List UInt8}
  {ms : List Leaf} {s' p : Phys}

theorem Building.setWord (off v : ℕ) (h : Building env.kend env.tramp s.proc.trapframe s' p pt ms)
    (hg : Ground env.kend env.tramp s.proc.trapframe s') (hoff : off + 8 ≤ pgsize) :
    Building env.kend env.tramp s.proc.trapframe (setWord s' (s.proc.trapframe + off) v)
      (Exec.setWord p (s.proc.trapframe + off) v) pt ms :=
  h.fill hg.free hg.page.1 (le_add_right _ _) (by omega)

theorem setWord_pages {q off v x : ℕ} (hq : q % pgsize = 0) (hoff : off + 8 ≤ pgsize) (hx : x ≠ q) :
    (setWord s' (q + off) v).pages x = s'.pages x :=
  fill_page _ hq (le_add_right _ _) (by omega) hx

theorem word_page {t : Phys} {q off : ℕ} (hq : q % pgsize = 0) (hoff : off + 8 ≤ pgsize)
    (h : t.pages q = s'.pages q) : word t (q + off) = word s' (q + off) := by
  refine field_congr fun j hj => ?_
  rw [add_assoc, byte_page hq (by omega), byte_page hq (by omega), h]

/-- The end of `exec`, in a state in which only the page of `ustack` has changed. -/
theorem commit_spec (hr : Ready env s argv)
    (h : Building env.kend env.tramp s.proc.trapframe s' p pt ms)
    (hfree : s'.freelist = s.phys.freelist)
    (hpages : ∀ x, x ≠ env.ustack / pgsize * pgsize → s'.pages x = s.phys.pages x)
    (hsz : npages sz = ms.length) (hsp : sp < 2 ^ 64) (hentry : entry < 2 ^ 64) (argc : ℕ) :
    Runs (commit env ⟨pt, sz, sp, entry, argc⟩ path) { s with phys := p } fun r t =>
      r = some argc ∧ Committed env s t pt sz sp entry path ms := by
  have htf := hr.frame.page.1
  have hg := hr.ground.congr hfree
  -- the state from which the new space is built, with the stores to the trapframe
  let tf := s.proc.trapframe
  let s₃ := setWord (setWord (setWord s' (tf + 120) sp) (tf + 24) entry) (tf + 48) sp
  let p₃ := setWord (setWord (setWord p (tf + 120) sp) (tf + 24) entry) (tf + 48) sp
  have hpg : pgsize = 4096 := rfl
  have h₃ : Building env.kend env.tramp tf s₃ p₃ pt ms := by
    have h₁ := h.setWord 120 sp hg (by decide)
    have h₂ := h₁.setWord 24 entry (hg.congr rfl) (by decide)
    exact h₂.setWord 48 sp (hg.congr rfl) (by decide)
  have hpages₃ : ∀ x, x ≠ tf → x ≠ env.ustack / pgsize * pgsize → s₃.pages x = s.phys.pages x := by
    intro x hx hq
    rw [setWord_pages htf (by decide) hx, setWord_pages htf (by decide) hx,
      setWord_pages htf (by decide) hx, hpages x hq]
  have hfree₃ : s₃.freelist = s.phys.freelist := hfree
  obtain ⟨hspace₃, hnodes₃, htargets₃⟩ := UserSpace.untouched hr.space hfree₃ fun x hx =>
    hpages₃ x (fun heq : x = s.proc.trapframe => hr.frame.node (heq ▸ hx))
      fun heq => hr.stack.node (heq ▸ hx)
  obtain ⟨hold, hnodes, htargets⟩ := h₃.old hspace₃
  unfold commit
  refine Runs.reads ?_
  dsimp only
  refine Runs.bind (Q := fun _ t => t = { s with phys := setWord p (tf + 120) sp })
    ⟨(), _, rfl, rfl⟩ ?_
  rintro - t₁ rfl
  refine Runs.modifies ?_
  refine Runs.bind (Q := fun _ t => t =
    { phys := setWord (setWord p (tf + 120) sp) (tf + 24) entry
      proc := ⟨pt, sz, tf, safestrcpy s.proc.name (lastElement path path)⟩
      ops := s.ops, ref := s.ref, locked := s.locked }) ⟨(), _, rfl, rfl⟩ ?_
  rintro - t₂ rfl
  refine Runs.bind (Q := fun _ t => t =
    { phys := p₃
      proc := ⟨pt, sz, tf, safestrcpy s.proc.name (lastElement path path)⟩
      ops := s.ops, ref := s.ref, locked := s.locked }) ⟨(), _, rfl, rfl⟩ ?_
  rintro - t₃ rfl
  refine (runs_vm (procFreepagetable_spec hr.ground.kend_le hold.mem hold.to_upper 0)).bind ?_
  rintro - t ⟨v, ⟨hperm, hkeep⟩, rfl⟩
  obtain ⟨hspace, himage, hall⟩ := h₃.freed hspace₃ hr.ground.kend_le hsz hperm hkeep
  rw [hnodes₃, htargets₃, hfree₃] at hall
  rw [hnodes, htargets, hnodes₃, htargets₃] at hkeep
  have hframe : v.pages tf = s₃.pages tf := by
    rw [hkeep tf hr.frame.node hr.frame.target, h₃.frame (by rw [hfree₃]; exact hr.ground.free)]
  have hword : ∀ {off}, off + 8 ≤ pgsize → word v (tf + off) = word s₃ (tf + off) := fun hoff =>
    word_page htf hoff hframe
  refine Runs.ret
    ⟨rfl, ⟨rfl, rfl, rfl, rfl, hsz, hspace, himage, ?_, ?_, ?_, hall, fun x hx hn ht hxf hxq => ?_⟩⟩
  · rw [hword (by decide), word_setWord_of_ne (by omega), word_setWord_of_ne (by omega),
      word_setWord, mod_eq_of_lt hsp]
  · rw [hword (by decide), word_setWord_of_ne (by omega), word_setWord, mod_eq_of_lt hentry]
  · rw [hword (by decide), word_setWord, mod_eq_of_lt hsp]
  · rw [hkeep x hn ht, h₃.frame (by rw [hfree₃]; exact hx), hpages₃ x hxf hxq]

end commit

def stackLeaves (guard : ℕ) (ds : List ℕ) : List Leaf :=
  ⟨guard, clearU (pteR ||| pteU ||| pteW), fun _ => 0⟩ :: ds.map (heapLeaf pteW)

def arrayByte (us : List ℕ) (i : ℕ) : UInt8 := wordByte ((us ++ [0]).getD (i / 8) 0) (i % 8)

/-- How the stack is added to the image: a guard page and the pages of the stack, the strings from
their end on, and the array below them. -/
structure Stacks (s : Phys) (argv : List ℕ) (ms₁ ms : List Leaf) (sp : ℕ) : Prop where
  pushed : ∃ guard ds sp' us ms₃, ds.length = userstack ∧ us.length = argv.length ∧
    Pushes s ((ms₁.length + 1) * pgsize) argv ((ms₁.length + 1 + userstack) * pgsize) []
      (ms₁ ++ stackLeaves guard ds) sp' us ms₃ ∧
    (argv.length + 1) * 8 ≤ sp' ∧ sp = (sp' - (argv.length + 1) * 8) / 16 * 16 ∧
    (ms₁.length + 1) * pgsize ≤ sp ∧ ms = store ms₃ sp ((argv.length + 1) * 8) (arrayByte us)

section execStack

variable {env : Env} {s : Kernel} {argv : List ℕ} {pt sz entry : ℕ} {path : List UInt8}
  {ms₁ : List Leaf} {p : Phys}

theorem writable_stack (guard : ℕ) (ds : List ℕ) :
    Writable (ms₁ ++ stackLeaves guard ds) ((ms₁.length + 1) * pgsize) := by
  intro j m hj hm
  have hlt : ms₁.length + 1 ≤ j := le_of_mul_le_mul_right hj (by decide)
  rw [List.getElem?_append_right (by omega), stackLeaves] at hm
  obtain ⟨i, rfl⟩ := Nat.exists_eq_add_of_le hlt
  rw [show ms₁.length + 1 + i - ms₁.length = i + 1 by omega, List.getElem?_cons_succ,
    List.getElem?_map, Option.map_eq_some_iff] at hm
  obtain ⟨d, -, rfl⟩ := hm
  exact (by decide : (pteR ||| pteU ||| pteW) &&& pteU ≠ 0 ∧ (pteR ||| pteU ||| pteW) &&& pteW ≠ 0)

theorem guard_ok (guard : ℕ) : Leaf.Ok ⟨guard, clearU (pteR ||| pteU ||| pteW), fun _ => 0⟩ :=
  have hperm : clearU (pteR ||| pteU ||| pteW) < 1024 ∧
      clearU (pteR ||| pteU ||| pteW) ||| pteV ≠ pteV := by
    decide
  ⟨hperm.1, hperm.2⟩

/-- The new address space is complete; of the memory besides it only the page of `ustack` has
changed. -/
structure Prepared (env : Env) (s t : Kernel) (argv : List ℕ) (ms₁ : List Leaf) (b : Program) :
    Prop where
  sz : b.sz = (ms₁.length + 1 + userstack) * pgsize
  argc : b.argc = argv.length
  sp : b.sp < 2 ^ 64
  image : ∃ ms s', Stacks s.phys argv ms₁ ms b.sp ∧ npages b.sz = ms.length ∧
    Building env.kend env.tramp s.proc.trapframe s' t.phys b.pagetable ms ∧
    s'.freelist = s.phys.freelist ∧
    ∀ x, x ≠ env.ustack / pgsize * pgsize → s'.pages x = s.phys.pages x
  state : t = { s with phys := t.phys }

theorem Building.allocStack (hg : Ground env.kend env.tramp s.proc.trapframe s.phys)
    (h : Ongoing env s p pt ms₁) :
    Runs (Vm.uvmalloc env.kend pt (ms₁.length * pgsize)
        (add64 (ms₁.length * pgsize) ((userstack + 1) * pgsize)) pteW) p fun r t =>
      (r = (ms₁.length + 1 + userstack) * pgsize ∧ ∃ (guard : ℕ) (ds : List ℕ),
        ds.length = userstack ∧ Ongoing env s t pt (ms₁ ++ (guard :: ds).map (heapLeaf pteW))) ∨
      (r = 0 ∧ Ongoing env s t pt ms₁) := by
  have hlen := h.length_le hg.kend_le
  have hadd : add64 (ms₁.length * pgsize) ((userstack + 1) * pgsize) =
      (ms₁.length + 1 + userstack) * pgsize := by
    have hstack : userstack = 2 := rfl
    have hpg : pgsize = 4096 := rfl
    rw [add64, mod_eq_of_lt (by rw [hstack, hpg]; omega)]
    ring
  rw [hadd]
  refine (h.uvmalloc hg.kend_le (npages_mul _) (by decide)).mono ?_
  rintro r t (⟨hr, ds, hb, hpages⟩ | hnone)
  · have hmax := mul_le_mul_right pgsize (show ms₁.length ≤ ms₁.length + 1 + userstack by omega)
    rw [max_eq_right hmax] at hr
    rw [hr, npages_mul, length_append, length_map] at hpages
    obtain ⟨guard, ds, rfl⟩ := exists_cons_of_length_pos (show 0 < ds.length by omega)
    rw [length_cons] at hpages
    exact .inl ⟨hr, guard, ds, by omega, hb⟩
  · exact .inr hnone

theorem Building.clearGuard {guard : ℕ} {ds : List ℕ} (hkend : kernbase ≤ env.kend)
    (h : Ongoing env s p pt (ms₁ ++ (guard :: ds).map (heapLeaf pteW))) :
    Runs (Vm.uvmclear pt (ms₁.length * pgsize)) p fun _ t =>
      Ongoing env s t pt (ms₁ ++ stackLeaves guard ds) := by
  have hat : (ms₁ ++ (guard :: ds).map (heapLeaf pteW))[ms₁.length]? =
      some (heapLeaf pteW guard) := by
    rw [List.getElem?_append_right le_rfl, Nat.sub_self]
    rfl
  have hset : (ms₁ ++ (guard :: ds).map (heapLeaf pteW)).set ms₁.length
      ⟨guard, clearU (pteR ||| pteU ||| pteW), fun _ => 0⟩ = ms₁ ++ stackLeaves guard ds := by
    rw [set_append_right _ _ le_rfl, Nat.sub_self]
    rfl
  have hok : Leaf.Ok ⟨guard, clearU (pteR ||| pteU ||| pteW), fun _ => 0⟩ := guard_ok guard
  refine (h.uvmclear hkend hat hok).mono fun _ t hb => ?_
  change Building
    _ _ _ _ _ _ (List.set _ _ ⟨guard, clearU (pteR ||| pteU ||| pteW), fun _ => 0⟩) at hb
  rwa [hset] at hb

theorem Building.copyArray {ms : List Leaf} {us : List ℕ} {lo sp : ℕ} (hr : Ready env s argv)
    (h : Ongoing env s p pt ms) (hw : Writable ms lo)
    (hlo : lo % pgsize = 0) (hsp : lo ≤ sp)
    (hend : sp + (argv.length + 1) * 8 ≤ ms.length * pgsize) :
    Runs (Vm.copyout pt sp env.ustack ((argv.length + 1) * 8))
      (p.fill env.ustack ((argv.length + 1) * 8) (arrayByte us)) fun r t => r = true ∧
        ∃ s', Building env.kend env.tramp s.proc.trapframe s' t pt
            (store ms sp ((argv.length + 1) * 8) (arrayByte us)) ∧ s'.freelist = s.phys.freelist ∧
          ∀ x, x ≠ env.ustack / pgsize * pgsize → s'.pages x = s.phys.pages x := by
  -- the array lies within the page of `ustack`
  have hargc := hr.argc
  have hmaxarg : maxarg = 32 := rfl
  have hq : env.ustack / pgsize * pgsize + env.ustack % pgsize = env.ustack := page_add_offset _
  have hustack := hr.ustack
  have hfits : env.ustack + (argv.length + 1) * 8 ≤
      env.ustack / pgsize * pgsize + pgsize := by omega
  have hfilled :=
    h.fill (a := env.ustack) (n := (argv.length + 1) * 8) (f := arrayByte us) hr.stack.free
      (mul_mod_left _ _) (div_mul_le_self _ _) hfits
  have hsrc : ∀ i < (argv.length + 1) * 8,
      (env.ustack + i) / pgsize * pgsize = env.ustack / pgsize * pgsize := by
    unfold pgsize at *
    omega
  refine (hfilled.copyout sp (hr.ground.congr rfl) hsrc hr.stack.page.2.1 hr.stack_ne
    hr.stack.free hend fun i hi => hw.at hlo (by omega)).mono ?_
  rintro r t ⟨rfl, hb⟩
  rw [store_congr (Stored.fill p env.ustack ((argv.length + 1) * 8) (arrayByte us)).bytes] at hb
  exact ⟨rfl, _, hb, rfl, fun x hx =>
    fill_page _ (mul_mod_left _ _) (div_mul_le_self _ _) hfits hx⟩

theorem execStack_spec (hr : Ready env s argv)
    (h : Ongoing env s p pt ms₁) (hsz : npages sz = ms₁.length) :
    Runs (execStack env pt sz entry argv) { s with phys := p } fun r t =>
      Failed s r t ∨
      ∃ b, r = some b ∧ b.entry = entry ∧ Prepared env s t argv ms₁ b := by
  have hg := hr.ground
  have hpg : pgsize = 4096 := rfl
  have hlen := h.length_le hg.kend_le
  have hround : pgroundup sz = ms₁.length * pgsize := by
    rw [pgroundup_eq (by unfold npages at hsz; omega), hsz]
  have hbad : ∀ {q : Phys} {ms : List Leaf} {k : ℕ},
      Ongoing env s q pt ms → npages k = ms.length →
      Runs (bad env (some pt) k none) { s with phys := q } fun r t =>
        Failed s r t ∨
        ∃ b, r = some b ∧ b.entry = entry ∧ Prepared env s t argv ms₁ b := fun hb hk =>
    (bad_stack hb hg.kend_le hk).mono fun _ _ hq => .inl hq
  unfold execStack
  dsimp only
  rw [hround]
  refine (runs_vm (h.allocStack hg)).bind ?_
  rintro top t ⟨p₁, ⟨htop, guard, ds, hds, hb⟩ | ⟨rfl, hb⟩, rfl⟩
  swap
  · rw [if_pos rfl]
    exact hbad hb (npages_mul _)
  have htop' : top = ms₁.length * 4096 + 12288 := by
    rw [htop, show userstack = 2 from rfl, hpg]
    omega
  rw [if_neg (by omega)]
  have hguard : sub64 top ((userstack + 1) * pgsize) = ms₁.length * pgsize := by
    rw [show (userstack + 1) * pgsize = 12288 from rfl, sub64_eq (by omega) (by omega), hpg]
    omega
  have hbase : sub64 top (userstack * pgsize) = (ms₁.length + 1) * pgsize := by
    rw [show userstack * pgsize = 8192 from rfl, sub64_eq (by omega) (by omega), hpg]
    omega
  rw [hguard, hbase]
  refine (runs_vm (hb.clearGuard hg.kend_le)).bind ?_
  rintro - t ⟨p₂, hb₂, rfl⟩
  have hlen₂ : (ms₁ ++ stackLeaves guard ds).length = ms₁.length + 1 + userstack := by
    rw [length_append, stackLeaves, length_cons, length_map, hds]
    omega
  -- the strings
  have hpush : Runs (pushArgs pt ((ms₁.length + 1) * pgsize) argv top []) p₂ _ :=
    pushArgs_spec hg hb₂ hr.args (Nat.mul_mod_left _ _)
      (show pgsize ≤ (ms₁.length + 1) * pgsize from Nat.le_mul_of_pos_left _ (Nat.succ_pos _))
    (writable_stack guard ds) (by rw [htop]; exact mul_le_mul_right _ (by omega))
    (by rw [hlen₂, htop])
  refine (runs_vm hpush).bind ?_
  rintro r t ⟨p₃, ⟨ms₃, hb₃, hlen₃, hw₃, hok⟩, rfl⟩
  rw [hlen₂] at hlen₃
  have hpages₃ : npages top = ms₃.length := by rw [htop, npages_mul, hlen₃]
  cases r with
  | none => exact hbad hb₃ hpages₃
  | some r =>
    obtain ⟨sp', us⟩ := r
    obtain ⟨hlow, hhigh, hus, hpushes⟩ := hok sp' us rfl
    rw [length_nil, zero_add] at hus
    have hargc := hr.argc
    have hmaxarg : maxarg = 32 := rfl
    rw [hlen₂, ← htop] at hhigh
    rw [hpg] at hlow
    dsimp only
    rw [hus, sub64_align (by omega) (by omega)]
    obtain ⟨sp, hsp⟩ : ∃ sp, (sp' - (argv.length + 1) * 8) / 16 * 16 = sp := ⟨_, rfl⟩
    rw [hsp]
    by_cases hsmall : sp < (ms₁.length + 1) * pgsize
    · rw [if_pos hsmall]
      exact hbad hb₃ hpages₃
    rw [if_neg hsmall]
    -- the array below the strings
    have hcount : 8 * (us ++ [0]).length = (argv.length + 1) * 8 := by
      rw [length_append, length_singleton, hus, mul_comm]
    refine Runs.bind (Q :=
      fun _ t => t = { s with phys := p₃.fill env.ustack ((argv.length + 1) * 8) (arrayByte us) })
        ⟨(), _, rfl, by rw [hcount]; rfl⟩ ?_
    rintro - t rfl
    refine (runs_vm (hb₃.copyArray hr hw₃ (mul_mod_left _ _) (not_lt.1 hsmall)
      (by rw [hlen₃, ← htop]; omega))).bind ?_
    rintro ok t ⟨p₅, ⟨rfl, s', hb₅, hfree, hkeep⟩, rfl⟩
    rw [if_pos rfl]
    have hstacks : Stacks s.phys argv ms₁ (store ms₃ sp ((argv.length + 1) * 8) (arrayByte us))
        sp :=
      ⟨guard, ds, sp', us, ms₃, hds, hus, by rw [← htop]; exact hpushes, by omega, hsp.symm,
        not_lt.1 hsmall, rfl⟩
    exact Runs.ret (.inr ⟨_, rfl, rfl, htop, rfl, by dsimp only; omega, ⟨_, s', hstacks,
      by rw [length_store]; exact hpages₃, hb₅, hfree, hkeep⟩, rfl⟩)

end execStack

def File.elf (f : File) : Elfhdr := Elfhdr.parse f.bytes

/-- The file has an ELF header and its program headers, and the segments give the image. -/
structure Loaded (f : File) (ms : List Leaf) : Prop where
  size : elfhdrSize ≤ f.size
  magic : f.elf.magic = elfMagic
  table : f.elf.phnum = 0 ∨ f.elf.phoff % 2 ^ 32 + f.elf.phnum * proghdrSize ≤ f.size
  loads : Loads f (headers f f.elf.phnum (f.elf.phoff % 2 ^ 32)) [] ms

/-- What `exec` ends with: nothing has changed, or the process has the image of the file. -/
def Executed (env : Env) (path : List UInt8) (argv : List ℕ) (s : Kernel) (r : Option ℕ)
    (t : Kernel) : Prop :=
  (r = none ∧ ∃ q, Undone s.phys q ∧ t = { s with phys := q }) ∨
  (r = some argv.length ∧ ∃ ip pt ms₁ ms sp, env.lookup path = some ip ∧ Loaded (env.file ip) ms₁ ∧
    Stacks s.phys argv ms₁ ms sp ∧ Committed env s t pt ((ms₁.length + 1 + userstack) * pgsize) sp
      (env.file ip).elf.entry path ms)

section exec

variable {env : Env} {s : Kernel} {argv : List ℕ} {path : List UInt8} {ip : ℕ}

theorem Undone.refl (s : Phys) : Undone s s := ⟨List.Perm.refl _, fun _ _ => rfl⟩

theorem execInode_spec (hr : Ready env s argv) (ip : ℕ) :
    Runs (execInode env ip argv) (acquired s ip) fun r t =>
      Failed s r t ∨
      ∃ b ms₁, r = some b ∧ b.entry = (env.file ip).elf.entry ∧ Loaded (env.file ip) ms₁ ∧
        Prepared env s t argv ms₁ b := by
  have hg := hr.ground
  have hbad : ∀ {p : Phys}, Undone s.phys p →
      Runs (bad env none 0 (some ip)) { acquired s ip with phys := p } fun r t => Failed s r t ∨
        ∃ b ms₁, r = some b ∧ b.entry = (env.file ip).elf.entry ∧ Loaded (env.file ip) ms₁ ∧
          Prepared env s t argv ms₁ b := fun hp =>
    (bad_early (hr.unlocked ip) hp).mono fun _ _ h => .inl h
  unfold execInode
  dsimp only
  by_cases hread : (env.file ip).readi 0 elfhdrSize = elfhdrSize
  swap
  · rw [if_pos hread]
    exact hbad (Undone.refl _)
  rw [if_neg (not_not.2 hread)]
  have hsize := readi_all (by norm_num) (by decide) (by decide) hread
  change Runs (if (env.file ip).elf.magic ≠ elfMagic then _ else _) _ _
  by_cases hmagic : (env.file ip).elf.magic = elfMagic
  swap
  · rw [if_pos hmagic]
    exact hbad (Undone.refl _)
  rw [if_neg (not_not.2 hmagic)]
  refine Runs.reads ?_
  have htf : s.proc.trapframe < 2 ^ 64 :=
    lt_trans hg.page.2.2 (by unfold phystop kernbase; norm_num)
  have htp : env.tramp < 2 ^ 64 := lt_trans (lt_of_lt_of_le hg.code hg.page.2.1) htf
  refine (runs_vm (s := acquired s ip) (procPagetable_spec hr.space.mem.table.free_nodup
    hr.space.mem.table.free_pages htp htf 0)).bind ?_
  rintro r t ⟨p, ⟨hframe, hr'⟩, rfl⟩
  cases r with
  | none => exact hbad ⟨hr', hframe⟩
  | some pt =>
    have hb : Ongoing env s p pt [] :=
      ⟨p, [], hr'.1, hr'.2, hframe, Built.refl hr'.1.mem.table⟩
    refine (runs_vm
      (loadLoop_spec hg hb (by decide) (forall_mem_nil _) (mod_lt _ (by norm_num)))).bind ?_
    rintro ⟨ok, sz⟩ t ⟨p₁, ⟨ms₁, hb₁, hpages, hok⟩, rfl⟩
    cases ok with
    | false =>
      rw [if_neg (by simp)]
      exact (bad_loading (hr.unlocked ip) hb₁ hg.kend_le hpages).mono fun _ _ h => .inl h
    | true =>
      rw [if_pos rfl]
      obtain ⟨hloads, htable⟩ := hok rfl
      have hloaded : Loaded (env.file ip) ms₁ := ⟨by omega, hmagic, htable, hloads⟩
      rw [← bind_assoc]
      refine (release_spec (hr.unlocked ip)).bind ?_
      rintro - t rfl
      refine (execStack_spec hr hb₁ hpages).mono ?_
      rintro r t (h | ⟨b, rfl, hentry, hprep⟩)
      · exact .inl h
      · exact .inr ⟨b, ms₁, rfl, hentry, hloaded, hprep⟩

theorem prepare_spec (hr : Ready env s argv) (path : List UInt8) :
    Runs (prepare env path argv) s fun r t =>
      Failed s r t ∨
      ∃ ip b ms₁, env.lookup path = some ip ∧ r = some b ∧ b.entry = (env.file ip).elf.entry ∧
        Loaded (env.file ip) ms₁ ∧ Prepared env s t argv ms₁ b := by
  unfold prepare
  refine Runs.modifies ?_
  unfold namei
  cases hip : env.lookup path with
  | none =>
    refine Runs.bind (Q := fun r t => r = none ∧ t = { s with ops := s.ops + 1 })
      (Runs.ret ⟨rfl, rfl⟩) ?_
    rintro r t ⟨rfl, rfl⟩
    refine ⟨none, s, rfl, .inl ⟨rfl, s.phys, Undone.refl _, rfl⟩⟩
  | some ip =>
    refine Runs.bind (Q := fun r t => r = some ip ∧ t =
      { s with ops := s.ops + 1, ref := update s.ref ip (s.ref ip + 1) })
      ⟨some ip, _, rfl, rfl, rfl⟩ ?_
    rintro r t ⟨rfl, rfl⟩
    refine Runs.bind (Q := fun _ t => t = acquired s ip) ?_ ?_
    · unfold ilock
      refine Runs.reads ?_
      rw [if_neg (by simp)]
      exact Runs.writes rfl
    · rintro - t rfl
      refine (execInode_spec hr ip).mono ?_
      rintro r t (h | ⟨b, ms₁, hb⟩)
      · exact .inl h
      · exact .inr ⟨ip, b, ms₁, rfl, hb⟩

theorem exec_spec (hr : Ready env s argv) (path : List UInt8) :
    Runs (exec env path argv) s (Executed env path argv s) := by
  unfold exec
  refine (prepare_spec hr path).bind ?_
  rintro r t (⟨rfl, h⟩ | ⟨ip, ⟨pt, sz, sp, entry, argc⟩, ms₁, hip, rfl, hentry, hloaded, hprep⟩)
  · exact Runs.ret (.inl ⟨rfl, h⟩)
  · obtain ⟨hsz, hargc, hsp, ⟨ms, s', hstacks, hpages, hb, hfree, hrest⟩, ht⟩ := hprep
    dsimp only at hsz hargc hsp hstacks hpages hb hentry
    subst hsz hargc
    have hlt : entry < 2 ^ 64 := by
      have hpow : 256 ^ 8 = 2 ^ 64 := by norm_num
      rw [hentry, ← hpow]
      exact field_lt _ 24 8
    rw [ht]
    refine (commit_spec hr hb hfree hrest hpages hsp hlt _).mono ?_
    rintro r v ⟨rfl, hcommit⟩
    rw [hentry] at hcommit
    exact .inr ⟨rfl, ip, pt, ms₁, ms, sp, hip, hloaded, hstacks, hcommit⟩

end exec

end Xv6.Exec
