import Xv6.ExecSpec

/-!
# The system call exec

`sys_exec` copies the path to its stack and each argument to a page of its own, calls `exec`, and
frees the pages of the arguments again, whatever `exec` returned. The user's pointers are arbitrary.
In between the pages of the arguments are missing from the free list, and nothing else has changed
but the kernel's stack: `Fetching`.
-/

namespace Xv6.Exec

open Xv6.Vm Xv6.Radix List Function

/-- What holds when `sys_exec` is called: as for `exec`, with the buffers in the page of its stack.
-/
structure SysReady (env : Env) (s : Kernel) : Prop where
  ground : Ground env.kend env.tramp s.proc.trapframe s.phys
  space : UserSpace env.kend s.phys s.proc.pagetable s.proc.sz env.tramp s.proc.trapframe
  frame : Spare env.kend s.phys s.proc.pagetable s.proc.sz s.proc.trapframe
  stack : Spare env.kend s.phys s.proc.pagetable s.proc.sz (env.ustack / pgsize * pgsize)
  stack_ne : env.ustack / pgsize * pgsize ≠ s.proc.trapframe
  ustack : env.ustack % pgsize + maxarg * 8 ≤ pgsize
  path : ∀ i < maxpath, (env.path + i) / pgsize * pgsize = env.ustack / pgsize * pgsize
  uarg : ∀ i < 8, (env.uarg + i) / pgsize * pgsize = env.ustack / pgsize * pgsize
  unlocked : ∀ ip, s.locked ip = false

structure Fetching (stack : ℕ) (s u : Phys) (argv : List ℕ) : Prop where
  perm : s.freelist.Perm (argv ++ u.freelist)
  pages : ∀ x, x ∉ s.freelist → x ≠ stack → u.pages x = s.pages x

def Strings (u : Phys) (argv : List ℕ) : Prop := ∀ a ∈ argv, ∃ len < pgsize, IsString u a len

section fetching

variable {kend root sz tramp tf stack q : ℕ} {s t u : Phys} {argv : List ℕ}

theorem Fetching.refl (s : Phys) : Fetching stack s s [] := ⟨List.Perm.refl _, fun _ _ _ => rfl⟩

theorem Fetching.free_subset (h : Fetching stack s u argv) {p : ℕ} (hp : p ∈ u.freelist) :
    p ∈ s.freelist :=
  h.perm.mem_iff.2 (mem_append_right _ hp)

theorem Fetching.arg_mem (h : Fetching stack s u argv) {p : ℕ} (hp : p ∈ argv) : p ∈ s.freelist :=
  h.perm.mem_iff.2 (mem_append_left _ hp)

theorem Fetching.space (h : Fetching stack s u argv)
    (hs : UserSpace kend s root sz tramp tf) (hstack : stack ∉ s.nodes root) :
    UserSpace kend u root sz tramp tf ∧ u.nodes root = s.nodes root ∧
      u.targets root 0 (npages sz) = s.targets root 0 (npages sz) ∧ ∀ x,
      u.lookup root x = s.lookup root x := by
  have hpages : ∀ n ∈ s.nodes root, u.pages n = s.pages n := fun n hn =>
    h.pages n (fun hfree => hs.mem.table.free_fresh n hfree hn) fun heq => hstack (heq ▸ hn)
  have hnodup : u.freelist.Nodup :=
    (nodup_append.1 (h.perm.nodup_iff.1 hs.mem.table.free_nodup)).2.1
  obtain ⟨htable, hnodes, hlookup⟩ := hs.mem.table.of_nodes hpages hnodup
    (fun p hp => hs.mem.table.free_pages p (h.free_subset hp))
    (fun p hp => hs.mem.table.free_fresh p (h.free_subset hp))
  obtain ⟨hspace, htargets⟩ := UserSpace.of_lookup hs htable hnodes hlookup fun p hp hmem =>
    (hs.mem.own p hp).2.2 (h.free_subset hmem)
  exact ⟨hspace, hnodes, htargets, hlookup⟩

theorem Stored.off_page {addr : ℕ → ℕ} {f : ℕ → UInt8} {m x : ℕ} (h : Stored u t addr f m)
    (hbuf : ∀ i < m, addr i / pgsize * pgsize = q) (hx : x ≠ q) : t.pages x = u.pages x := by
  by_cases hal : x % pgsize = 0
  · exact h.page hal fun i hi heq => hx (heq.symm.trans (hbuf i hi))
  · funext k
    exact h.frame x k fun i _ hp => absurd hp hal

theorem IsString.congr {a len : ℕ} (h : IsString u a len) (ha : a % pgsize = 0)
    (hlen : len < pgsize) (hpage : t.pages a = u.pages a) : IsString t a len := by
  have hbyte : ∀ i < pgsize, t.byte (a + i) = u.byte (a + i) := fun i hi => by
    rw [byte_page ha hi, byte_page ha hi, hpage]
  refine ⟨fun i hi => ?_, ?_⟩
  · rw [hbyte i (by omega)]
    exact h.first i hi
  · rw [hbyte len hlen]
    exact h.nul

theorem Strings.congr (h : Strings u argv) (hal : ∀ a ∈ argv, a % pgsize = 0)
    (hpages : ∀ a ∈ argv, t.pages a = u.pages a) : Strings t argv := by
  intro a ha
  obtain ⟨len, hlen, hstr⟩ := h a ha
  exact ⟨len, hlen, hstr.congr (hal a ha) hlen (hpages a ha)⟩

theorem Fetching.off_stack (h : Fetching stack s u argv) (hfree : t.freelist = u.freelist)
    (hpages : ∀ x, x ≠ stack → t.pages x = u.pages x) : Fetching stack s t argv :=
  ⟨by rw [hfree]; exact h.perm, fun x hx hne => (hpages x hne).trans (h.pages x hx hne)⟩

theorem Fetching.take (h : Fetching stack s u argv) (hq : q ∈ u.freelist)
    (hfree : t.freelist = u.freelist.erase q) (hpages : ∀ x, x ≠ q → t.pages x = u.pages x) :
    Fetching stack s t (argv ++ [q]) := by
  refine ⟨?_, fun x hx hne => ?_⟩
  · rw [hfree, append_assoc]
    exact h.perm.trans ((perm_cons_erase hq).append_left argv)
  · rw [hpages x fun heq => hx (heq ▸ h.free_subset hq), h.pages x hx hne]

end fetching

section fetchArgs

variable {env : Env} {s : Kernel} {u : Phys} {argv : List ℕ}

theorem SysReady.kernelPages (hr : SysReady env s)
    (h : Fetching (env.ustack / pgsize * pgsize) s.phys u argv) :
    KernelPages env.kend u s.proc.pagetable s.proc.sz env.tramp s.proc.trapframe := by
  obtain ⟨-, hnodes, htargets, -⟩ := h.space hr.space hr.stack.node
  exact ⟨hr.ground.aligned, hr.ground.pos, hr.ground.code,
    hr.ground.page, by rw [hnodes]; exact hr.frame.node, by rw [htargets]; exact hr.frame.target⟩

theorem SysReady.buffer (hr : SysReady env s)
    (h : Fetching (env.ustack / pgsize * pgsize) s.phys u argv) {buf len q : ℕ}
    (hbuf : ∀ i < len, (buf + i) / pgsize * pgsize = q) (hq : env.kend ≤ q)
    (hframe : q ≠ s.proc.trapframe) (hnode : q ∉ s.phys.nodes s.proc.pagetable)
    (htarget : q ∉ s.phys.targets s.proc.pagetable 0 (npages s.proc.sz)) :
    Table env.kend u s.proc.pagetable ∧
    (∀ x < maxva, ∀ pte, u.lookup s.proc.pagetable x = some pte → pte2pa pte ≠ 0) ∧
    Apart u s.proc.pagetable buf len ∧ NotInTable u s.proc.pagetable buf len := by
  obtain ⟨hspace, hnodes, htargets, -⟩ := h.space hr.space hr.stack.node
  have hk := hr.kernelPages h
  refine ⟨hspace.mem.table, (hspace.leaves hk hr.ground.kend_le).ne_zero,
    hspace.apart hk hbuf hq hframe (by rw [htargets]; exact htarget), fun i hi => ?_⟩
  rw [hbuf i hi, hnodes]
  exact hnode

theorem fetchaddr_spec (hr : SysReady env s)
    (h : Fetching (env.ustack / pgsize * pgsize) s.phys u argv) (addr : ℕ) :
    Runs (fetchaddr env s.proc addr) u fun _ t => t.freelist = u.freelist ∧
      ∀ x, x ≠ env.ustack / pgsize * pgsize → t.pages x = u.pages x := by
  unfold fetchaddr
  by_cases hbad : s.proc.sz ≤ addr ∨ s.proc.sz < add64 addr 8
  · rw [if_pos hbad]
    exact Runs.ret ⟨rfl, fun _ _ => rfl⟩
  rw [if_neg hbad]
  obtain ⟨ht, hl, hbuf, hout⟩ :=
    hr.buffer h hr.uarg hr.stack.page.2.1 hr.stack_ne hr.stack.node hr.stack.target
  refine (copyin_spec addr ht hl hbuf hout).mono ?_
  rintro r t ⟨m, hm⟩
  exact ⟨hm.stored.freelist, fun x hx =>
    Stored.off_page hm.stored (fun i hi => hr.uarg i (by have := hm.le; omega)) hx⟩

theorem fetchArgs_spec {n uargv : ℕ} (hr : SysReady env s)
    (h : Fetching (env.ustack / pgsize * pgsize) s.phys u argv) (hstr : Strings u argv)
    (hn : argv.length + n = maxarg) : Runs (fetchArgs env s.proc uargv n argv) u fun r t =>
      Fetching (env.ustack / pgsize * pgsize) s.phys t r.2 ∧
        (r.1 = true → r.2.length < maxarg ∧ Strings t r.2) := by
  induction n generalizing u argv with
  | zero => exact Runs.ret ⟨h, nofun⟩
  | succ n ih =>
    have hpage : ∀ {a}, a ∈ s.phys.freelist → IsPage env.kend a := fun ha =>
      hr.space.mem.table.free_pages _ ha
    rw [fetchArgs]
    refine (fetchaddr_spec hr h _).bind ?_
    rintro ok v ⟨hfree, hpages⟩
    have hv := h.off_stack hfree hpages
    have hstrv : Strings v argv := hstr.congr (fun a ha => (hpage (h.arg_mem ha)).1) fun a ha =>
      hpages a fun heq => hr.stack.free (heq ▸ h.arg_mem ha)
    cases ok with
    | false =>
      rw [if_neg (by simp)]
      exact Runs.ret ⟨hv, nofun⟩
    | true =>
      rw [if_pos rfl]
      refine Runs.reads ?_
      dsimp only
      by_cases hzero : word v env.uarg = 0
      · rw [if_pos hzero]
        exact Runs.ret ⟨hv, fun _ => ⟨by dsimp only; omega, hstrv⟩⟩
      rw [if_neg hzero]
      rcases kalloc_cases v with ⟨answers, hkal⟩ | ⟨page, hmem, answers, hkal⟩
      · refine Runs.bind (Q := fun r t => r = none ∧ t = { v with answers := answers })
          ⟨none, _, hkal, rfl, rfl⟩ ?_
        rintro r t ⟨rfl, rfl⟩
        exact Runs.ret ⟨hv.off_stack rfl fun _ _ => rfl, nofun⟩
      · refine Runs.bind (Q := fun r t => r = some page ∧ t =
          { pages := update v.pages page fun _ => 5
            freelist := v.freelist.erase page
            answers := answers }) ⟨some page, _, hkal, rfl, rfl⟩ ?_
        rintro r w ⟨rfl, rfl⟩
        generalize hw : ({ pages := update v.pages page fun _ => 5
                           freelist := v.freelist.erase page
                           answers := answers } : Phys) = w
        have hwfree : w.freelist = v.freelist.erase page := by rw [← hw]
        have hwpages : ∀ x, x ≠ page → w.pages x = v.pages x := by
          intro x hx
          rw [← hw]
          exact update_of_ne hx ..
        have htake := hv.take hmem hwfree hwpages
        have hfreepage := hv.free_subset hmem
        have hal := (hpage hfreepage).1
        have hbuf : ∀ i < pgsize, (page + i) / pgsize * pgsize = page := by
          unfold pgsize at *
          omega
        obtain ⟨ht, hl, hapart, hout⟩ := hr.buffer htake hbuf (hpage hfreepage).2.1
          (fun heq => hr.ground.free (heq ▸ hfreepage))
          (hr.space.mem.table.free_fresh page hfreepage)
          fun htarget => (hr.space.mem.own page htarget).2.2 hfreepage
        refine (fetchstr_spec (word v env.uarg) ht hl hapart hout (by decide)).bind ?_
        rintro len t hlen
        -- the string goes to the new page
        obtain ⟨m, r, hm⟩ : ∃ m r, Fetched w t s.proc.pagetable (word v env.uarg) page
            pgsize r m := by
          rcases hlen with ⟨k, -, -, hm, -⟩ | ⟨-, m, hm⟩
          · exact ⟨_, _, hm⟩
          · exact ⟨_, _, hm⟩
        have htpages : ∀ x, x ≠ page → t.pages x = v.pages x := fun x hx =>
          (Stored.off_page hm.stored (fun i hi => hbuf i (by have := hm.le; omega)) hx).trans
            (hwpages x hx)
        have hfetch := hv.take hmem (hm.stored.freelist.trans hwfree) htpages
        rcases hlen with ⟨k, hk, rfl, -, hnul, hfirst⟩ | ⟨rfl, -⟩
        · rw [if_neg (by omega)]
          refine ih hfetch (fun a ha => ?_) ?_
          · rcases mem_append.1 ha with ha | ha
            · have hold : ∀ a ∈ argv, t.pages a = v.pages a := fun a ha => htpages a fun heq => by
                have hnd := hv.perm.nodup_iff.1 hr.space.mem.table.free_nodup
                exact (nodup_append.1 hnd).2.2 a ha page hmem heq
              exact hstrv.congr (fun a ha => (hpage (h.arg_mem ha)).1) hold a ha
            · rw [mem_singleton.1 ha]
              exact ⟨k, hk, hfirst, hnul⟩
          · rw [length_append, length_singleton]
            omega
        · rw [if_pos (by decide)]
          exact Runs.ret ⟨hfetch, nofun⟩

end fetchArgs

section freeing

variable {kend root sz tramp tf : ℕ} {s t : Phys} {argv : List ℕ}

theorem freeArgs_spec (hpages : ∀ a ∈ argv, IsPage kend a) :
    Runs (argv.forM (kfree kend)) s fun _ t => t.freelist.Perm (argv ++ s.freelist) ∧
      ∀ x, x ∉ argv → t.pages x = s.pages x := by
  induction argv generalizing s with
  | nil => exact Runs.ret ⟨List.Perm.refl _, fun _ _ => rfl⟩
  | cons a argv ih =>
    change Runs (kfree kend a >>= fun _ => argv.forM (kfree kend)) s _
    refine (kfree_runs (hpages a mem_cons_self)).bind ?_
    rintro - u rfl
    refine (ih fun b hb => hpages b (mem_cons_of_mem a hb)).mono ?_
    rintro - t ⟨hperm, hkeep⟩
    refine ⟨hperm.trans perm_middle, fun x hx => ?_⟩
    rw [mem_cons, not_or] at hx
    rw [hkeep x hx.2]
    exact update_of_ne hx.1 ..

theorem UserSpace.more_free (h : UserSpace kend s root sz tramp tf)
    (hperm : t.freelist.Perm (argv ++ s.freelist)) (hkeep : ∀ x, x ∉ argv → t.pages x = s.pages x)
    (hnodup : (argv ++ s.freelist).Nodup) (hpages : ∀ a ∈ argv, IsPage kend a)
    (hnode : ∀ a ∈ argv, a ∉ s.nodes root) :
    t.nodes root = s.nodes root ∧ t.targets root 0 (npages sz) = s.targets root 0 (npages sz) := by
  have hcase : ∀ {p}, p ∈ t.freelist → p ∈ argv ∨ p ∈ s.freelist := fun hp =>
    mem_append.1 (hperm.mem_iff.1 hp)
  have hsame : ∀ n ∈ s.nodes root, t.pages n = s.pages n :=
    fun n hn => hkeep n fun hmem => hnode n hmem hn
  obtain ⟨-, hnodes, hlookup⟩ := h.mem.table.of_nodes hsame (hperm.nodup_iff.2 hnodup)
    (fun p hp => (hcase hp).elim (hpages p) (h.mem.table.free_pages p))
    (fun p hp => (hcase hp).elim (hnode p) (h.mem.table.free_fresh p))
  exact ⟨hnodes, targets_congr fun j _ => hlookup _⟩

end freeing

structure Unchanged (stack : ℕ) (s t : Kernel) : Prop where
  proc : t.proc = s.proc
  ops : t.ops = s.ops
  ref : t.ref = s.ref
  locked : t.locked = s.locked
  free : t.phys.freelist.Perm s.phys.freelist
  pages : ∀ x, x ∉ s.phys.freelist → x ≠ stack → t.phys.pages x = s.phys.pages x

section sysExec

variable {env : Env} {s : Kernel} {u : Phys} {argv : List ℕ}

theorem SysReady.ready (hr : SysReady env s)
    (h : Fetching (env.ustack / pgsize * pgsize) s.phys u argv)
    (hargc : argv.length < maxarg) (hstr : Strings u argv) :
    Ready env { s with phys := u } argv := by
  obtain ⟨hspace, hnodes, htargets, -⟩ := h.space hr.space hr.stack.node
  have hspare : ∀ {q}, Spare env.kend s.phys s.proc.pagetable s.proc.sz q →
      Spare env.kend u s.proc.pagetable s.proc.sz q := fun hq =>
    ⟨hq.page, fun hmem => hq.free (h.free_subset hmem), by rw [hnodes]; exact hq.node,
      by rw [htargets]; exact hq.target⟩
  refine ⟨⟨hr.ground.kend_le, hr.ground.aligned, hr.ground.pos, hr.ground.code, hr.ground.page,
    (hspare hr.frame).free⟩, hspace, hspare hr.frame, hspare hr.stack, hr.stack_ne, hr.ustack,
    fun a ha => ?_,
    hargc, hr.unlocked⟩
  have hmem := h.arg_mem ha
  refine ⟨hr.space.mem.table.free_pages a hmem, fun hfree => ?_,
    fun heq => hr.ground.free (heq ▸ hmem), hstr a ha⟩
  exact (nodup_append.1 (h.perm.nodup_iff.1 hr.space.mem.table.free_nodup)).2.2 a ha a hfree rfl

def SamePages (s t : Kernel) : Prop :=
  (s.phys.nodes s.proc.pagetable ++
    (s.phys.targets s.proc.pagetable 0 (npages s.proc.sz) ++ s.phys.freelist)).Perm
  (t.phys.nodes t.proc.pagetable ++
    (t.phys.targets t.proc.pagetable 0 (npages t.proc.sz) ++ t.phys.freelist))

theorem SysReady.success (hr : SysReady env s)
    (h : Fetching (env.ustack / pgsize * pgsize) s.phys u argv) {pt sz sp entry : ℕ}
    {path : List UInt8} {ms : List Leaf} {t : Kernel}
    (hc : Committed env { s with phys := u } t pt sz sp entry path ms) :
    Runs (vm (argv.forM (kfree env.kend))) t fun _ w => SamePages s w := by
  obtain ⟨hspace, hnodes, htargets, -⟩ := h.space hr.space hr.stack.node
  have hpages : ∀ a ∈ argv, IsPage env.kend a := fun a ha =>
    hr.space.mem.table.free_pages a (h.arg_mem ha)
  refine (runs_vm (freeArgs_spec hpages)).mono ?_
  rintro - w ⟨q, ⟨hperm, hkeep⟩, rfl⟩
  have hall := hc.perm
  dsimp only at hall
  rw [hnodes, htargets] at hall
  have hnd := h.perm.nodup_iff.1 hr.space.mem.table.free_nodup
  -- the pages of the arguments are not among those of the new process
  have hout : ∀ a ∈ argv, a ∉ t.phys.nodes pt ++
      (t.phys.targets pt 0 (npages sz) ++ t.phys.freelist) := by
    intro a ha hmem
    rw [← hall.mem_iff, mem_append, mem_append] at hmem
    rcases hmem with hmem | hmem | hmem
    · exact hr.space.mem.table.free_fresh a (h.arg_mem ha) hmem
    · exact (hr.space.mem.own a hmem).2.2 (h.arg_mem ha)
    · exact (nodup_append.1 hnd).2.2 a ha a hmem rfl
  simp only [mem_append, not_or] at hout
  have hnodup : (argv ++ t.phys.freelist).Nodup :=
    nodup_append.2 ⟨(nodup_append.1 hnd).1, hc.space.mem.table.free_nodup, by
      rintro a ha b hb rfl
      exact (hout a ha).2.2 hb⟩
  obtain ⟨hn, ht⟩ :=
    UserSpace.more_free hc.space hperm hkeep hnodup hpages fun a ha => (hout a ha).1
  unfold SamePages
  rw [hc.proc]
  dsimp only
  rw [hn, ht, perm_iff_count]
  intro p
  have h1 := hall.count_eq p
  have h2 := hperm.count_eq p
  have h3 := h.perm.count_eq p
  simp only [count_append] at h1 h2 h3 ⊢
  omega

theorem SysReady.failure (hr : SysReady env s)
    (h : Fetching (env.ustack / pgsize * pgsize) s.phys u argv) {q : Phys} (hq : Undone u q) :
    Runs (vm (argv.forM (kfree env.kend))) { s with phys := q } fun _ w =>
      Unchanged (env.ustack / pgsize * pgsize) s w := by
  have hpages : ∀ a ∈ argv, IsPage env.kend a := fun a ha =>
    hr.space.mem.table.free_pages a (h.arg_mem ha)
  refine (runs_vm (freeArgs_spec hpages)).mono ?_
  rintro - w ⟨v, ⟨hperm, hkeep⟩, rfl⟩
  refine ⟨rfl, rfl, rfl, rfl, ?_, fun x hx hne => ?_⟩
  · exact hperm.trans ((hq.free.append_left argv).trans h.perm.symm)
  · rw [hkeep x fun hmem => hx (h.arg_mem hmem), hq.pages x fun hmem => hx (h.free_subset hmem),
      h.pages x hx hne]

theorem sysExec_spec (hr : SysReady env s) (upath uargv : ℕ) :
    Runs (sysExec env upath uargv) s fun r t =>
      (r = none ∧ Unchanged (env.ustack / pgsize * pgsize) s t) ∨ (∃ n, r = some n) ∧
        SamePages s t := by
  unfold sysExec
  refine Runs.reads ?_
  obtain ⟨ht, hl, hbuf, hout⟩ :=
    hr.buffer (Fetching.refl s.phys) hr.path hr.stack.page.2.1 hr.stack_ne hr.stack.node
      hr.stack.target
  refine (runs_vm (fetchstr_spec upath ht hl hbuf hout (by decide))).bind ?_
  rintro len t ⟨p, hlen, rfl⟩
  obtain ⟨m, ok, hm⟩ : ∃ m ok, Fetched s.phys p s.proc.pagetable upath env.path maxpath ok m := by
    rcases hlen with ⟨k, -, -, hm, -⟩ | ⟨-, m, hm⟩
    · exact ⟨_, _, hm⟩
    · exact ⟨_, _, hm⟩
  have hp : Fetching (env.ustack / pgsize * pgsize) s.phys p [] :=
    (Fetching.refl s.phys).off_stack hm.stored.freelist fun x hx =>
      Stored.off_page hm.stored (fun i hi => hr.path i (by have := hm.le; omega)) hx
  by_cases hneg : len < 0
  · rw [if_pos hneg]
    exact Runs.ret (.inl ⟨rfl, rfl, rfl, rfl, rfl, by rw [hm.stored.freelist], hp.pages⟩)
  rw [if_neg hneg]
  refine Runs.reads ?_
  dsimp only
  generalize cstring p maxpath env.path = path
  refine (runs_vm (fetchArgs_spec hr hp (by simp [Strings]) rfl)).bind ?_
  rintro ⟨ok, argv⟩ t ⟨v, ⟨hv, hok⟩, rfl⟩
  cases ok with
  | false =>
    refine Runs.bind (Q := fun r t => r = none ∧ t = { s with phys := v }) (Runs.ret ⟨rfl, rfl⟩) ?_
    rintro r t ⟨rfl, rfl⟩
    refine (hr.failure hv (Undone.refl v)).bind ?_
    rintro - w hw
    exact Runs.ret (.inl ⟨rfl, hw⟩)
  | true =>
    obtain ⟨hargc, hstr⟩ := hok rfl
    refine (exec_spec (hr.ready hv hargc hstr) path).bind ?_
    rintro r t (⟨rfl, q, hq, rfl⟩ | ⟨rfl, ip, pt, ms₁, ms, sp, -, -, -, hc⟩)
    · refine (hr.failure hv hq).bind ?_
      rintro - w hw
      exact Runs.ret (.inl ⟨rfl, hw⟩)
    · refine (hr.success hv hc).bind ?_
      rintro - w hw
      exact Runs.ret (.inr ⟨⟨_, rfl⟩, hw⟩)

end sysExec

section demo

def leBytes (n v : ℕ) : List UInt8 := (List.range n).map fun j => wordByte v j

def elfBytes (ph : Proghdr) : List UInt8 :=
  leBytes 4 elfMagic ++ leBytes 20 0 ++ leBytes 8 0 ++ leBytes 8 64 ++ leBytes 16 0 ++
  leBytes 2 1 ++ leBytes 6 0 ++ leBytes 4 ph.type ++ leBytes 4 ph.flags ++ leBytes 8 ph.off ++
  leBytes 8 ph.vaddr ++ leBytes 8 0 ++ leBytes 8 ph.filesz ++ leBytes 8 ph.memsz ++ leBytes 8 0

def elfFile (ph : Proghdr) : File := ⟨120, fun i => (elfBytes ph).getD i 0, by norm_num⟩

def demoPhys : Phys :=
  let free := (List.range 16).map fun i => kernbase + (i + 1) * 4096
  ⟨fun _ _ => 0, free, free⟩

/-- A kernel of one page of code, with a trapframe and a stack behind the free pages, and with one
file. -/
def demoEnv (f : File) : Env where
  kend := kernbase + 4096
  tramp := kernbase
  ustack := kernbase + 18 * 4096
  path := kernbase + 18 * 4096 + 1024
  uarg := kernbase + 18 * 4096 + 2048
  lookup := fun _ => some 1
  file := fun _ => f

def demoKernel (pt : ℕ) (p : Phys) : Kernel where
  phys := p
  proc := ⟨pt, 0, kernbase + 17 * 4096, List.replicate 16 0⟩
  ops := 0
  ref := fun _ => 0
  locked := fun _ => false

def demoArg : ℕ := kernbase + 19 * 4096

theorem exists_demo (f : File) : ∃ pt p,
    procPagetable (kernbase + 4096) 3 kernbase (kernbase + 17 * 4096) demoPhys = .ok (some pt, p) ∧
      SysReady (demoEnv f) (demoKernel pt p) ∧ Ready (demoEnv f) (demoKernel pt p) [] ∧
      Ready (demoEnv f) (demoKernel pt p) [demoArg] := by
  obtain ⟨r, p, hrun, hframe, hspec⟩ := @procPagetable_spec (kernbase + 4096) demoPhys kernbase
    (kernbase + 17 * 4096) (by decide) (by decide) (by decide) (by decide) 0
  have hsome :
      ((procPagetable (kernbase + 4096) 3 kernbase (kernbase + 17 * 4096) demoPhys).toOption.bind
      Prod.fst).isSome := by
    decide +kernel
  cases r with
  | none =>
    rw [hrun] at hsome
    cases hsome
  | some pt =>
    obtain ⟨hspace, hperm⟩ := hspec
    -- what was not free at first is in no use
    have hspare : ∀ {q}, IsPage (kernbase + 4096) q → q ∉ demoPhys.freelist →
        Spare (kernbase + 4096) p pt 0 q := by
      intro q hq hout
      rw [hperm.mem_iff, mem_append, not_or] at hout
      exact ⟨hq, hout.2, hout.1, not_mem_nil⟩
    have htf := hspare (q := kernbase + 17 * 4096) (by decide) (by decide)
    have hstack := hspare (q := kernbase + 18 * 4096) (by decide) (by decide)
    have hground : Ground (kernbase + 4096) kernbase (kernbase + 17 * 4096) p :=
      ⟨by decide, by decide, by decide, by decide, htf.page, htf.free⟩
    have hpage : ∀ off < pgsize, (kernbase + 18 * 4096 + off) / pgsize * pgsize =
        kernbase + 18 * 4096 := by
      unfold kernbase pgsize
      omega
    have hustack : (demoEnv f).ustack / pgsize * pgsize = kernbase + 18 * 4096 :=
      hpage 0 (by decide)
    have hsys : SysReady (demoEnv f) (demoKernel pt p) := by
      have hroom : (kernbase + 18 * 4096) % pgsize + maxarg * 8 ≤ pgsize := by decide
      have hne : kernbase + 18 * 4096 ≠ kernbase + 17 * 4096 := by decide
      refine ⟨hground, hspace, htf, ?_, ?_, hroom, fun i hi => ?_, fun i hi => ?_, fun _ => rfl⟩
      · rw [hustack]
        exact hstack
      · rw [hustack]
        exact hne
      · rw [hustack]
        change (kernbase + 18 * 4096 + 1024 + i) / pgsize * pgsize = _
        rw [Nat.add_assoc]
        exact hpage _ (by unfold maxpath at hi; unfold pgsize; omega)
      · rw [hustack]
        change (kernbase + 18 * 4096 + 2048 + i) / pgsize * pgsize = _
        rw [Nat.add_assoc]
        exact hpage _ (by unfold pgsize; omega)
    have harg := hspare (q := demoArg) (by decide) (by decide)
    have hzero : p.pages demoArg = fun _ => 0 := hframe demoArg (by decide)
    have hstring : IsString p demoArg 0 := by
      refine ⟨fun i hi => absurd hi (Nat.not_lt_zero i), ?_⟩
      rw [byte_page harg.page.1 (by decide), hzero]
    have hready : ∀ argv : List ℕ, argv.length < maxarg →
        (∀ a ∈ argv, IsArg (kernbase + 4096) (kernbase + 17 * 4096) p a) →
        Ready (demoEnv f) (demoKernel pt p) argv := fun argv hargc hargs =>
      ⟨hsys.ground, hsys.space, hsys.frame, hsys.stack, hsys.stack_ne, hsys.ustack, hargs, hargc,
        hsys.unlocked⟩
    refine ⟨pt, p, hrun, hsys, hready [] (by decide) (by simp),
      hready [demoArg] (by decide) fun a ha => ?_⟩
    rw [mem_singleton.1 ha]
    exact ⟨harg.page, harg.free, by decide, 0, by decide, hstring⟩

end demo

section calls

variable {env : Env} {s : Kernel} {argv : List ℕ}

/-- `exec` reaches no panic, whatever is in the file and whenever `kalloc` fails. -/
theorem exec_never_panics (hr : Ready env s argv) (path : List UInt8) :
    ∃ r t, exec env path argv s = .ok (r, t) ∧ (r = none ∨ r = some argv.length) := by
  obtain ⟨r, t, hrun, h⟩ := exec_spec hr path
  refine ⟨r, t, hrun, ?_⟩
  rcases h with ⟨rfl, -⟩ | ⟨rfl, -⟩
  · exact .inl rfl
  · exact .inr rfl

theorem exec_never_panics_demo :
    ∃ s, Ready (demoEnv (elfFile ⟨1, 7, 2 ^ 40, 4096, 2 ^ 63, 2 ^ 64 - 4097⟩)) s
      [demoArg] ∧
    ∃ r t, exec (demoEnv (elfFile ⟨1, 7, 2 ^ 40, 4096, 2 ^ 63, 2 ^ 64 - 4097⟩)) [] [demoArg] s =
    .ok (r, t) ∧
      (r = none ∨ r = some 1) := by
  obtain ⟨pt, p, -, -, -, hr⟩ := exists_demo (elfFile ⟨1, 7, 2 ^ 40, 4096, 2 ^ 63, 2 ^ 64 - 4097⟩)
  exact ⟨_, hr, exec_never_panics hr []⟩

/-- The process and the kernel are as before: page table, size, user memory, trapframe and name, the
set of free pages, the references, locks and transactions. -/
structure AsBefore (s t : Kernel) : Prop where
  proc : t.proc = s.proc
  lookup : ∀ va, t.phys.lookup s.proc.pagetable va = s.phys.lookup s.proc.pagetable va
  memory : ∀ va < npages s.proc.sz * pgsize,
    t.phys.byte (t.phys.phys s.proc.pagetable va) = s.phys.byte (s.phys.phys s.proc.pagetable va)
  frame : t.phys.pages s.proc.trapframe = s.phys.pages s.proc.trapframe
  free : t.phys.freelist.Perm s.phys.freelist
  ref : t.ref = s.ref
  unlocked : ∀ ip, t.locked ip = false
  ops : t.ops = s.ops

theorem Unchanged.asBefore {t : Kernel} (h : Unchanged (env.ustack / pgsize * pgsize) s t)
    (hr : SysReady env s) : AsBefore s t := by
  have hf : Fetching (env.ustack / pgsize * pgsize) s.phys t.phys [] := ⟨h.free.symm, h.pages⟩
  obtain ⟨-, -, -, hlookup⟩ := hf.space hr.space hr.stack.node
  refine ⟨h.proc, hlookup, fun va hva => ?_, h.pages _ hr.frame.free (Ne.symm hr.stack_ne),
    h.free, h.ref, fun ip => by rw [h.locked]; exact hr.unlocked ip, h.ops⟩
  obtain ⟨pte, hpte, -⟩ := hr.space.mem.mapped va hva
  have hmem := mem_of_getElem? (target_at hva hpte)
  have hpage := (phys_page s.phys s.proc.pagetable va).1
  rw [hpte, Option.getD_some] at hpage
  rw [phys_congr hlookup, Phys.byte, Phys.byte, hpage]
  rw [h.pages _ (hr.space.mem.own _ hmem).2.2 fun heq => hr.stack.target (heq ▸ hmem)]

/-- A failed `exec` changes nothing, and `sys_exec` gives back the pages of the arguments. -/
theorem failed_exec_changes_nothing (hr : SysReady env s) :
    (∀ argv path, Ready env s argv →
      Runs (exec env path argv) s fun r t => r = none → AsBefore s t) ∧
    ∀ upath uargv, Runs (sysExec env upath uargv) s fun r t =>
      (r = none → AsBefore s t) ∧ ((∃ n, r = some n) → SamePages s t) := by
  refine ⟨fun argv path hready => ?_, fun upath uargv => ?_⟩
  · refine (exec_spec hready path).mono ?_
    rintro r t (⟨-, q, hq, rfl⟩ | ⟨rfl, -⟩)
    · intro _
      exact Unchanged.asBefore ⟨rfl, rfl, rfl, rfl, hq.free, fun x hx _ => hq.pages x hx⟩ hr
    · exact nofun
  · refine (sysExec_spec hr upath uargv).mono ?_
    rintro r t (⟨rfl, h⟩ | ⟨⟨n, rfl⟩, h⟩)
    · exact ⟨fun _ => h.asBefore hr, nofun⟩
    · exact ⟨nofun, fun _ => h⟩

theorem failed_exec_changes_nothing_demo :
    ∃ s, SysReady (demoEnv (elfFile ⟨1, 7, 2 ^ 40, 4096, 2 ^ 63, 2 ^ 64 - 4097⟩)) s ∧
      Runs (exec (demoEnv (elfFile ⟨1, 7, 2 ^ 40, 4096, 2 ^ 63, 2 ^ 64 - 4097⟩)) [] [demoArg]) s
        fun r t => r = none → AsBefore s t := by
  obtain ⟨pt, p, -, hsys, -, hr⟩ :=
    exists_demo (elfFile ⟨1, 7, 2 ^ 40, 4096, 2 ^ 63, 2 ^ 64 - 4097⟩)
  exact ⟨_, hsys, (failed_exec_changes_nothing hsys).1 [demoArg] [] hr⟩

end calls

end Xv6.Exec
