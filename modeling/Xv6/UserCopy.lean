import Xv6.UserMemory

/-!
# Copies between the kernel and a user address space

`copyout`, `copyin`, `copyinstr` and `fetchstr`. They go through a range of user addresses page by
page and look each page up; the physical page is then an address of the kernel like that of the
buffer. What they do to memory is said byte by byte: `Stored` lists the bytes that have been stored,
in the order of the range, and says that nothing else has changed.
-/

namespace Xv6.Vm

open Xv6.Radix List Nat

def Phys.byte (s : Phys) (a : ℕ) : UInt8 := s.pages (a / pgsize * pgsize) (a % pgsize)

/-- The state after the bytes `f 0`, ..., `f (n - 1)` have been stored from the address `dst` on. -/
def Phys.fill (s : Phys) (dst n : ℕ) (f : ℕ → UInt8) : Phys :=
  { s with pages := fun p k =>
      if p % pgsize = 0 ∧ k < pgsize ∧ dst ≤ p + k ∧ p + k < dst + n then f (p + k - dst)
      else s.pages p k }

def memmove (dst src n : ℕ) : M Unit := modify fun s => s.fill dst n fun i => s.byte (src + i)

def setByte (dst : ℕ) (c : UInt8) : M Unit := modify fun s => s.fill dst 1 fun _ => c

def pgrounddown (a : ℕ) : ℕ := a / pgsize * pgsize

/-- `walkaddr`, with 0 for an address that is not mapped. -/
def walkaddr (pagetable va : ℕ) : M ℕ :=
  if maxva ≤ va then pure 0
  else do
    match ← walk pagetable va false with
    | none => pure 0
    | some (n, i) => do
        let s ← get
        let pte := s.pte n i
        if !valid pte then pure 0
        else if pte &&& pteU = 0 then pure 0
        else pure (pte2pa pte)

def copyoutLoop (pagetable : ℕ) : ℕ → ℕ → ℕ → ℕ → M Bool
  | 0, _, _, _ => throw .outOfRounds
  | rounds + 1, dstva, src, len =>
    if len = 0 then pure true
    else
      let va0 := pgrounddown dstva
      if maxva ≤ va0 then pure false
      else do
        match ← walk pagetable va0 false with
        | none => pure false
        | some (n, i) => do
            let s ← get
            let pte := s.pte n i
            if !valid pte || pte &&& pteU == 0 || pte &&& pteW == 0 then pure false
            else do
              let n := min (pgsize - (dstva - va0)) len
              memmove (pte2pa pte + (dstva - va0)) src n
              copyoutLoop pagetable rounds (add64 va0 pgsize) (src + n) (len - n)

def copyout (pagetable dstva src len : ℕ) : M Bool :=
  copyoutLoop pagetable (len / pgsize + 3) dstva src len

def copyinLoop (pagetable : ℕ) : ℕ → ℕ → ℕ → ℕ → M Bool
  | 0, _, _, _ => throw .outOfRounds
  | rounds + 1, dst, srcva, len =>
    if len = 0 then pure true
    else do
      let va0 := pgrounddown srcva
      let pa0 ← walkaddr pagetable va0
      if pa0 = 0 then pure false
      else do
        let n := min (pgsize - (srcva - va0)) len
        memmove dst (pa0 + (srcva - va0)) n
        copyinLoop pagetable rounds (dst + n) (add64 va0 pgsize) (len - n)

def copyin (pagetable dst srcva len : ℕ) : M Bool :=
  copyinLoop pagetable (len / pgsize + 3) dst srcva len

/-- The inner loop of `copyinstr` over `n` bytes of a page from the address `p` on: `got_null`,
`max` and `dst` after it. -/
def copyinstrBytes : ℕ → ℕ → ℕ → ℕ → M (Bool × ℕ × ℕ)
  | 0, _, dst, max => pure (false, dst, max)
  | n + 1, p, dst, max => do
      let s ← get
      if s.byte p = 0 then do
        setByte dst 0
        pure (true, dst, max)
      else do
        setByte dst (s.byte p)
        copyinstrBytes n (p + 1) (dst + 1) (max - 1)

def copyinstrLoop (pagetable : ℕ) : ℕ → ℕ → ℕ → ℕ → M Bool
  | 0, _, _, _ => throw .outOfRounds
  | rounds + 1, dst, srcva, max =>
    if max = 0 then pure false
    else do
      let va0 := pgrounddown srcva
      let pa0 ← walkaddr pagetable va0
      if pa0 = 0 then pure false
      else do
        let n := min (pgsize - (srcva - va0)) max
        let (gotNull, dst, max) ← copyinstrBytes n (pa0 + (srcva - va0)) dst max
        if gotNull then pure true
        else copyinstrLoop pagetable rounds dst (add64 va0 pgsize) max

def copyinstr (pagetable dst srcva max : ℕ) : M Bool :=
  copyinstrLoop pagetable (max / pgsize + 3) dst srcva max

/-- `strlen`, for strings of less than `rounds` bytes. -/
def strlen : ℕ → ℕ → M ℕ
  | 0, _ => throw .outOfRounds
  | rounds + 1, a => do
      let s ← get
      if s.byte a = 0 then pure 0 else (· + 1) <$> strlen rounds (a + 1)

def fetchstr (pagetable addr buf : ℕ) (max : ℤ) : M ℤ := do
  if ← copyinstr pagetable buf addr (toU64 max) then
    (fun n : ℕ => Int.bmod n (2 ^ 32)) <$> strlen (toU64 max) buf
  else pure (-1)

section stores

variable {s t u : Phys} {addr addr' : ℕ → ℕ} {f f' : ℕ → UInt8} {dst n m a p k : ℕ}

/-- The bytes `f 0`, ..., `f (m - 1)` have been stored at the addresses `addr`, and nothing else has
changed. -/
structure Stored (s t : Phys) (addr : ℕ → ℕ) (f : ℕ → UInt8) (m : ℕ) : Prop where
  bytes : ∀ i < m, t.byte (addr i) = f i
  frame : ∀ p k, (∀ i < m, p % pgsize = 0 → k < pgsize → p + k ≠ addr i) → t.pages p k = s.pages p k
  freelist : t.freelist = s.freelist
  answers : t.answers = s.answers

theorem page_add_offset (a : ℕ) : a / pgsize * pgsize + a % pgsize = a := div_add_mod' a pgsize

theorem Stored.refl (s : Phys) (addr : ℕ → ℕ) (f : ℕ → UInt8) : Stored s s addr f 0 :=
  ⟨fun _ hi => absurd hi (not_lt_zero _), fun _ _ _ => rfl, rfl, rfl⟩

theorem Stored.fill (s : Phys) (dst n : ℕ) (f : ℕ → UInt8) :
    Stored s (s.fill dst n f) (dst + ·) f n := by
  refine ⟨fun i hi => ?_, fun p k hout => ?_, rfl, rfl⟩
  · have hk : (dst + i) % pgsize < pgsize := mod_lt _ (by decide)
    change (if _ ∧ _ ∧ _ ∧ _ then _ else _) = _
    rw [page_add_offset,
      if_pos ⟨Nat.mul_mod_left _ _, hk, Nat.le_add_right _ _, Nat.add_lt_add_left hi _⟩,
      Nat.add_sub_cancel_left]
  · refine if_neg fun hin => ?_
    obtain ⟨hp, hk, hlow, hhigh⟩ := hin
    exact hout (p + k - dst) (by omega) hp hk (by omega)

theorem fill_page {x : ℕ} (f : ℕ → UInt8) (hp : p % pgsize = 0) (hdst : p ≤ dst)
    (hn : dst + n ≤ p + pgsize) (hx : x ≠ p) : (s.fill dst n f).pages x = s.pages x := by
  funext k
  refine if_neg fun hin => hx ?_
  obtain ⟨hal, hk, hlow, hhigh⟩ := hin
  unfold pgsize at *
  omega

theorem Stored.byte (h : Stored s t addr f m) (ha : ∀ i < m, a ≠ addr i) : t.byte a = s.byte a :=
  h.frame _ _ fun i hi _ _ => by rw [page_add_offset]; exact ha i hi

theorem Stored.page (h : Stored s t addr f m) (hp : p % pgsize = 0)
    (hout : ∀ i < m, addr i / pgsize * pgsize ≠ p) : t.pages p = s.pages p := by
  funext k
  refine h.frame p k fun i hi _ hk heq => hout i hi ?_
  rw [← heq]
  unfold pgsize at hp hk ⊢
  omega

theorem Stored.congr (h : Stored s t addr f m) (haddr : ∀ i < m, addr' i = addr i)
    (hf : ∀ i < m, f' i = f i) : Stored s t addr' f' m := by
  refine ⟨fun i hi => ?_, fun p k hout => h.frame p k fun i hi => ?_, h.freelist, h.answers⟩
  · rw [haddr i hi, hf i hi]
    exact h.bytes i hi
  · rw [← haddr i hi]
    exact hout i hi

theorem Stored.append (h : Stored s u addr f n) (h' : Stored u t addr' f' m)
    (hrest : ∀ i < m, addr (n + i) = addr' i ∧ f (n + i) = f' i)
    (hne : ∀ i < n, ∀ j < m, addr i ≠ addr (n + j)) : Stored s t addr f (n + m) := by
  replace h' := h'.congr (fun i hi => (hrest i hi).1) fun i hi => (hrest i hi).2
  refine ⟨fun i hi => ?_, fun p k hout => ?_, h'.freelist.trans h.freelist,
    h'.answers.trans h.answers⟩
  · by_cases hin : i < n
    · rw [h'.byte fun j hj => hne i hin j hj, h.bytes i hin]
    · obtain ⟨j, rfl⟩ := Nat.exists_eq_add_of_le (not_lt.1 hin)
      exact h'.bytes j (by omega)
  · rw [h'.frame p k fun j hj => hout (n + j) (by omega), h.frame p k fun i hi => hout i (by omega)]

end stores

section lookups

variable {kend root va x y : ℕ} {s t : Phys} {write : Bool}

theorem lookup_page (h : x / pgsize = y / pgsize) : s.lookup root x = s.lookup root y := by
  obtain ⟨hpath, h0⟩ := px_of_page_eq h
  rw [Phys.lookup, Phys.lookup, hpath, h0]

def Phys.phys (s : Phys) (root va : ℕ) : ℕ := pte2pa ((s.lookup root va).getD 0) + va % pgsize

/-- The user may read the address, or write it if `write` is set. -/
def Usable (s : Phys) (root : ℕ) (write : Bool) (va : ℕ) : Prop :=
  va < maxva ∧ ∃ pte, s.lookup root va = some pte ∧ pte &&& pteU ≠ 0 ∧
    (write = true → pte &&& pteW ≠ 0)

theorem pte2pa_mod (pte : ℕ) : pte2pa pte % pgsize = 0 := by
  rw [pte2pa_eq]
  exact mul_mod_left _ _

theorem phys_page (s : Phys) (root va : ℕ) :
    s.phys root va / pgsize * pgsize = pte2pa ((s.lookup root va).getD 0) ∧
      s.phys root va % pgsize = va % pgsize := by
  have hmod := pte2pa_mod ((s.lookup root va).getD 0)
  unfold Phys.phys pgsize at *
  omega

theorem phys_add {i : ℕ} (h : va % pgsize + i < pgsize) :
    s.phys root (va + i) = s.phys root va + i := by
  have hpage : (va + i) / pgsize = va / pgsize := by
    unfold pgsize at h ⊢
    omega
  have hoff : (va + i) % pgsize = va % pgsize + i := by
    unfold pgsize at h ⊢
    omega
  rw [Phys.phys, Phys.phys, lookup_page hpage, hoff, add_assoc]

theorem Usable.page (h : Usable s root write x) (hpage : x / pgsize = y / pgsize) :
    Usable s root write y := by
  obtain ⟨hx, pte, hpte, hflags⟩ := h
  refine ⟨?_, pte, by rw [← lookup_page hpage]; exact hpte, hflags⟩
  rw [maxva_eq] at hx ⊢
  unfold pgsize at hpage
  omega

/-- The table does not change with pages that are not part of it. -/
theorem Table.untouched (hs : Table kend s root) (hfree : t.freelist = s.freelist)
    (hpages : ∀ x ∈ s.nodes root, t.pages x = s.pages x) :
    Table kend t root ∧ t.nodes root = s.nodes root ∧ ∀ va,
    t.lookup root va = s.lookup root va := by
  obtain ⟨htable, hnodes, -, hreach⟩ := hs.of_pages hfree fun x hx => hpages x (inner_subset hx)
  refine ⟨htable, hnodes, fun va => ?_⟩
  exact lookup_congr (hreach (path va) le_rfl fun _ hj => path_mem hj) fun n hn =>
    hpages n (hs.leaf_mem hn).1

/-- `walk` without allocation changes nothing, and finds the PTE. -/
theorem walk_reads (hs : Table kend s root) (hva : va < maxva) :
    (walk root va false s = .ok (none, s) ∧ s.lookup root va = none) ∨
    ∃ n i, walk root va false s = .ok (some (n, i), s) ∧
      s.lookup root va = if valid (s.pte n i) then some (s.pte n i) else none := by
  obtain ⟨r, t, hrun, -, -, hsame, -⟩ := walk_spec hs false hva
  obtain ⟨rfl, rfl⟩ := hsame rfl
  cases hr : reach t.child (path va) root with
  | none =>
    rw [hr] at hrun
    exact .inl ⟨hrun, by rw [Phys.lookup, hr, Option.bind_none]⟩
  | some n =>
    rw [hr] at hrun
    exact .inr ⟨n, px 0 va, hrun, by rw [Phys.lookup, hr, Option.bind_some]⟩

/-- The leaf mappings of a table go to different pages other than 0 that are not part of the
table. -/
structure Leaves (s : Phys) (root : ℕ) : Prop where
  inj : ∀ x < maxva, ∀ y < maxva, ∀ pte pte', s.lookup root x = some pte →
    s.lookup root y = some pte' → pte2pa pte = pte2pa pte' → x / pgsize = y / pgsize
  ne_zero : ∀ x < maxva, ∀ pte, s.lookup root x = some pte → pte2pa pte ≠ 0
  not_node : ∀ x < maxva, ∀ pte, s.lookup root x = some pte → pte2pa pte ∉ s.nodes root

def Apart (s : Phys) (root buf len : ℕ) : Prop :=
  ∀ i < len, ∀ x < maxva, ∀ pte, s.lookup root x = some pte →
    pte2pa pte ≠ (buf + i) / pgsize * pgsize

def NotInTable (s : Phys) (root buf len : ℕ) :
    Prop := ∀ i < len, (buf + i) / pgsize * pgsize ∉ s.nodes root

theorem Usable.lookup (h : Usable s root write va) :
    s.lookup root va = some ((s.lookup root va).getD 0) := by
  obtain ⟨-, pte, hpte, -⟩ := h
  rw [hpte]
  rfl

/-- No page is mapped to 0, which `walkaddr` returns for an address without a page. -/
def NoNull (s : Phys) (root : ℕ) : Prop := ∀ x < maxva, ∀ pte, s.lookup root x = some pte →
    pte2pa pte ≠ 0

theorem Leaves.phys_ne (hl : Leaves s root) (hx : Usable s root write x)
    (hy : Usable s root write y) (hne : x ≠ y) : s.phys root x ≠ s.phys root y := by
  intro heq
  obtain ⟨hpx, hox⟩ := phys_page s root x
  obtain ⟨hpy, hoy⟩ := phys_page s root y
  rw [heq] at hpx hox
  have hpage := hl.inj x hx.1 y hy.1 _ _ hx.lookup hy.lookup (hpx.symm.trans hpy)
  have hoff : x % pgsize = y % pgsize := hox.symm.trans hoy
  apply hne
  rw [← page_add_offset x, ← page_add_offset y, hpage, hoff]

theorem usable_chunk {n : ℕ} (h : Usable s root write (pgrounddown va))
    (hn : n ≤ pgsize - va % pgsize) (i : ℕ) (hi : i < n) : Usable s root write (va + i) := by
  refine h.page ?_
  unfold pgrounddown pgsize at *
  omega

theorem pgrounddown_usable : Usable s root write (pgrounddown va) ↔ Usable s root write va := by
  have hpage : pgrounddown va / pgsize = va / pgsize := by
    unfold pgrounddown
    exact Nat.mul_div_cancel _ (by decide)
  exact ⟨fun h => h.page hpage, fun h => h.page hpage.symm⟩

theorem sub_pgrounddown (va : ℕ) : va - pgrounddown va = va % pgsize := by
  unfold pgrounddown pgsize
  omega

theorem phys_pgrounddown (s : Phys) (root va : ℕ) :
    pte2pa ((s.lookup root (pgrounddown va)).getD 0) + va % pgsize = s.phys root va := by
  have hpage : pgrounddown va / pgsize = va / pgsize := by
    unfold pgrounddown
    exact Nat.mul_div_cancel _ (by decide)
  rw [lookup_page hpage, Phys.phys]

end lookups

section copyout

variable {kend root va va' n m len buf : ℕ} {s t u : Phys} {write r : Bool} {addr addr' : ℕ → ℕ}
  {f f' : ℕ → UInt8}

/-- The table, the leaf mappings and the buffer are as before when bytes of user pages have been
stored. -/
theorem Stored.user (h : Stored s u (fun i => s.phys root (va + i)) f n) (hs : Table kend s root)
    (hl : Leaves s root) (hbuf : Apart s root buf len)
    (hu : ∀ i < n, Usable s root write (va + i)) :
    (Table kend u root ∧ u.nodes root = s.nodes root ∧ ∀ x, u.lookup root x = s.lookup root x) ∧
      ∀ i < len, u.byte (buf + i) = s.byte (buf + i) := by
  refine ⟨hs.untouched h.freelist fun x hx => ?_, fun i hi => h.byte fun j hj heq => ?_⟩
  · refine h.page (hs.pages x hx).1 fun i hi heq => ?_
    rw [(phys_page s root (va + i)).1] at heq
    exact hl.not_node _ (hu i hi).1 _ (hu i hi).lookup (heq ▸ hx)
  · refine hbuf i hi (va + j) (hu j hj).1 _ (hu j hj).lookup ?_
    rw [heq, (phys_page s root (va + j)).1]

theorem Leaves.congr (hl : Leaves s root) (hnodes : t.nodes root = s.nodes root)
    (hlookup : ∀ x, t.lookup root x = s.lookup root x) : Leaves t root := by
  refine ⟨fun x hx y hy pte pte' hp hp' => ?_, fun x hx pte hp => ?_, fun x hx pte hp => ?_⟩
  · rw [hlookup] at hp hp'
    exact hl.inj x hx y hy pte pte' hp hp'
  · rw [hlookup] at hp
    exact hl.ne_zero x hx pte hp
  · rw [hlookup] at hp
    rw [hnodes]
    exact hl.not_node x hx pte hp

theorem Usable.congr (hlookup : ∀ x, t.lookup root x = s.lookup root x) :
    Usable t root write va ↔ Usable s root write va := by
  unfold Usable
  rw [hlookup]

theorem phys_congr (hlookup : ∀ x, t.lookup root x = s.lookup root x) :
    t.phys root va = s.phys root va := by
  unfold Phys.phys
  rw [hlookup]

theorem Apart.tail (h : Apart s root buf len)
    (hlookup : ∀ x, t.lookup root x = s.lookup root x) : Apart t root (buf + n) (len - n) := by
  intro i hi x hx pte hpte
  rw [hlookup] at hpte
  rw [add_assoc]
  exact h (n + i) (by omega) x hx pte hpte

/-- What a transfer of `len` bytes from `va` on ends with: the first `m` bytes have been stored, and
if these are not all, the next one is at an address that may not be used. -/
structure Copied (s t : Phys) (root : ℕ) (write : Bool) (va : ℕ) (addr : ℕ → ℕ) (f : ℕ → UInt8)
    (len : ℕ) (r : Bool) (m : ℕ) : Prop where
  le : m ≤ len
  stored : Stored s t addr f m
  usable : ∀ i < m, Usable s root write (va + i)
  all : r = true → m = len
  bad : r = false → m < len ∧ ¬ Usable s root write (va + m)

theorem Copied.nothing (hlen : len = 0) :
    Copied s s root write va addr f len true 0 :=
  ⟨zero_le _, .refl .., fun i hi => absurd hi (not_lt_zero i), fun _ => hlen.symm,
    fun h => (nomatch h)⟩

theorem Copied.stop (hlen : len ≠ 0)
    (hbad : ¬ Usable s root write va) : Copied s s root write va addr f len false 0 :=
  ⟨zero_le _, .refl .., fun i hi => absurd hi (not_lt_zero i), fun h => (nomatch h),
    fun _ => ⟨pos_of_ne_zero hlen, hbad⟩⟩

theorem Copied.true_iff (h : Copied s t root write va addr f len r m) :
    r = true ↔ ∀ i < len, Usable s root write (va + i) := by
  constructor
  · intro hr
    rw [← h.all hr]
    exact h.usable
  · intro hall
    by_contra hr
    obtain ⟨hlt, hbad⟩ := h.bad (Bool.eq_false_iff.2 hr)
    exact hbad (hall m hlt)

/-- After the first `n` bytes the transfer goes on at `va'`, which is the next address if any are
left. -/
theorem Copied.append (h : Stored s u addr f n) (hn : n ≤ len)
    (hu : ∀ i < n, Usable s root write (va + i)) (hlookup : ∀ x, u.lookup root x = s.lookup root x)
    (hnext : n = len ∨ va' = va + n) (h' : Copied u t root write va' addr' f' (len - n) r m)
    (hrest : ∀ i < m, addr (n + i) = addr' i ∧ f (n + i) = f' i)
    (hne : ∀ i < n, ∀ j < m, addr i ≠ addr (n + j)) :
    Copied s t root write va addr f len r (n + m) := by
  have hle := h'.le
  refine ⟨by omega, h.append h'.stored hrest hne, fun i hi => ?_, fun hr => ?_, fun hr => ?_⟩
  · by_cases hin : i < n
    · exact hu i hin
    · obtain ⟨j, rfl⟩ := Nat.exists_eq_add_of_le (not_lt.1 hin)
      have hj := (Usable.congr hlookup).1 (h'.usable j (by omega))
      rwa [hnext.resolve_left (by omega), add_assoc] at hj
  · have := h'.all hr
    omega
  · obtain ⟨hlt, hbad⟩ := h'.bad hr
    refine ⟨by omega, fun hgood => hbad ((Usable.congr hlookup).2 ?_)⟩
    rwa [hnext.resolve_left (by omega), add_assoc]

theorem chunk_eq (va len : ℕ) (hlen : len ≠ 0) :
    ∃ n, min (pgsize - va % pgsize) len = n ∧ 0 < n ∧ n ≤ len ∧ n ≤ pgsize - va % pgsize ∧
      (n = len ∨ pgrounddown va + pgsize = va + n) := by
  have hmod : va % pgsize < pgsize := mod_lt _ (by decide)
  refine ⟨_, rfl, ?_, min_le_right _ _, min_le_left _ _, ?_⟩
  · omega
  · have := page_add_offset va
    unfold pgrounddown
    omega

theorem rounds_left {va n len rounds : ℕ} (hnext : n = len ∨ pgrounddown va + pgsize = va + n)
    (hrounds : va % pgsize + len ≤ (rounds + 1) * pgsize) :
    (pgrounddown va + pgsize) % pgsize + (len - n) ≤ rounds * pgsize := by
  unfold pgrounddown pgsize at *
  omega

theorem rounds_enough (va len : ℕ) : va % pgsize + len ≤ (len / pgsize + 2) * pgsize := by
  have hmod : va % pgsize < pgsize := mod_lt _ (by decide)
  have hdiv := page_add_offset len
  have hoff : len % pgsize < pgsize := mod_lt _ (by decide)
  rw [add_mul]
  omega

theorem add64_pgsize {a : ℕ} (ha : a < maxva) : add64 a pgsize = a + pgsize := by
  rw [maxva_eq] at ha
  rw [add64, mod_eq_of_lt]
  unfold pgsize
  omega

/-- One round of `copyout`: it stops at a page that the user may not write, or fills it up to its
end. -/
theorem copyoutLoop_round (rounds dstva src : ℕ) {len : ℕ} (hs : Table kend s root)
    (hlen : len ≠ 0) :
    (¬ Usable s root true dstva ∧ copyoutLoop root (rounds + 1) dstva src len s = .ok (false, s)) ∨
    (Usable s root true dstva ∧ copyoutLoop root (rounds + 1) dstva src len s =
      copyoutLoop root rounds (pgrounddown dstva + pgsize) (src + min (pgsize - dstva % pgsize) len)
        (len - min (pgsize - dstva % pgsize) len)
        (s.fill (s.phys root dstva) (min (pgsize - dstva % pgsize) len)
          fun i => s.byte (src + i))) := by
  rw [← pgrounddown_usable, copyoutLoop, if_neg hlen, sub_pgrounddown]
  by_cases hmax : maxva ≤ pgrounddown dstva
  · rw [if_pos hmax]
    exact .inl ⟨fun h => absurd h.1 (not_lt.2 hmax), rfl⟩
  rw [if_neg hmax]
  have hnext := add64_pgsize (not_le.1 hmax)
  rcases walk_reads hs (not_le.1 hmax) with ⟨hrun, hnone⟩ | ⟨n, i, hrun, hlook⟩
  · refine .inl ⟨fun h => ?_, bind_of_ok hrun⟩
    rw [h.lookup] at hnone
    cases hnone
  · rw [bind_of_ok hrun]
    by_cases hgood : valid (s.pte n i) = true ∧ s.pte n i &&& pteU ≠ 0 ∧ s.pte n i &&& pteW ≠ 0
    · obtain ⟨hv, hU, hW⟩ := hgood
      rw [if_pos hv] at hlook
      refine .inr ⟨⟨not_le.1 hmax, _, hlook, hU, fun _ => hW⟩, ?_⟩
      have hphys := phys_pgrounddown s root dstva
      rw [hlook, Option.getD_some] at hphys
      change (if (!valid (s.pte n i) || _ || _) = true then _ else _ : M Bool) s = _
      rw [if_neg (by simp [hv, hU, hW]), hnext, hphys]
      rfl
    · refine .inl ⟨fun h => hgood ?_, ?_⟩
      · obtain ⟨-, pte, hpte, hU, hW⟩ := h
        rw [hlook] at hpte
        split at hpte
        next hv =>
          cases hpte
          exact ⟨hv, hU, hW rfl⟩
        next => cases hpte
      · change (if (!valid (s.pte n i) || _ || _) = true then _ else _ : M Bool) s = _
        rw [if_pos]
        · rfl
        · simp only [not_and_or, not_not] at hgood
          rcases hgood with hv | hU | hW
          · simp [hv]
          · simp [hU]
          · simp [hW]

theorem copyoutLoop_spec {rounds dstva src len : ℕ} (hs : Table kend s root) (hl : Leaves s root)
    (hbuf : Apart s root src len) (hrounds : dstva % pgsize + len ≤ rounds * pgsize) :
    Runs (copyoutLoop root (rounds + 1) dstva src len) s fun r t => ∃ m,
      Copied s t root true dstva (fun i => s.phys root (dstva + i)) (fun i => s.byte (src + i))
      len r m := by
  induction rounds generalizing s dstva src len with
  | zero =>
    obtain rfl : len = 0 := by omega
    exact Runs.ret ⟨0, .nothing rfl⟩
  | succ rounds ih =>
    by_cases hlen : len = 0
    · rw [copyoutLoop, if_pos hlen]
      exact Runs.ret ⟨0, .nothing hlen⟩
    rcases copyoutLoop_round (rounds + 1) dstva src hs hlen with ⟨hbad, hrun⟩ | ⟨hgood, hrun⟩
    · exact ⟨_, _, hrun, 0, .stop hlen hbad⟩
    obtain ⟨n, hn, hpos, hle, hroom, hnext⟩ := chunk_eq dstva len hlen
    rw [hn] at hrun
    have hu := usable_chunk (pgrounddown_usable.2 hgood) hroom
    have hstored : Stored s (s.fill (s.phys root dstva) n fun i => s.byte (src + i))
        (fun i => s.phys root (dstva + i)) (fun i => s.byte (src + i)) n :=
      (Stored.fill s (s.phys root dstva) n _).congr (fun i hi => phys_add (by omega)) fun _ _ => rfl
    generalize s.fill (s.phys root dstva) n (fun i => s.byte (src + i)) = u at hrun hstored
    obtain ⟨⟨htable, hnodes, hlookup⟩, hsrc⟩ := hstored.user hs hl hbuf hu
    obtain ⟨r, t, hrest, m, hm⟩ := @ih u (pgrounddown dstva + pgsize) (src + n) (len - n) htable
      (hl.congr hnodes hlookup) (hbuf.tail hlookup) (rounds_left hnext hrounds)
    have hlast := hm.le
    have hpage : len - n ≠ 0 → pgrounddown dstva + pgsize = dstva + n := by omega
    refine ⟨r, t, hrun.trans hrest, n + m, .append hstored hle hu hlookup hnext hm
      (fun i hi => ⟨?_, ?_⟩) fun i hi j hj => ?_⟩
    · rw [phys_congr hlookup, hpage (by omega), add_assoc]
    · rw [add_assoc, hsrc (n + i) (by omega)]
    · have hj' := hm.usable j hj
      rw [Usable.congr hlookup, hpage (by omega), add_assoc] at hj'
      exact hl.phys_ne (hu i hi) hj' (by omega)

theorem copyout_spec (dstva : ℕ) {src len : ℕ} (hs : Table kend s root) (hl : Leaves s root)
    (hbuf : Apart s root src len) : Runs (copyout root dstva src len) s fun r t => ∃ m,
      Copied s t root true dstva (fun i => s.phys root (dstva + i))
      (fun i => s.byte (src + i)) len r m :=
  copyoutLoop_spec hs hl hbuf (rounds_enough dstva len)

end copyout

section copyin

variable {kend root buf len n dst max : ℕ} {s t u : Phys}

/-- `walkaddr` finds the page of an address that the user may read, and 0 for all others. -/
theorem walkaddr_spec (va : ℕ) (hs : Table kend s root) (hl : NoNull s root) :
    ∃ pa, walkaddr root va s = .ok (pa, s) ∧ (pa = 0 ↔ ¬ Usable s root false va) ∧
      (pa ≠ 0 → pa = pte2pa ((s.lookup root va).getD 0)) := by
  unfold walkaddr
  by_cases hmax : maxva ≤ va
  · rw [if_pos hmax]
    exact ⟨0, rfl, iff_of_true rfl fun h => absurd h.1 (not_lt.2 hmax), fun h => absurd rfl h⟩
  rw [if_neg hmax]
  rcases walk_reads hs (not_le.1 hmax) with ⟨hrun, hnone⟩ | ⟨n, i, hrun, hlook⟩
  · refine ⟨0, bind_of_ok hrun, iff_of_true rfl fun h => ?_, fun h => absurd rfl h⟩
    rw [h.lookup] at hnone
    cases hnone
  · rw [bind_of_ok hrun]
    change ∃ pa,
      (if (!valid (s.pte n i)) = true then _ else if s.pte n i &&& pteU = 0 then _ else _ : M ℕ) s =
      _ ∧ _
    cases hv : valid (s.pte n i) with
    | false =>
      rw [hv, if_neg (by simp)] at hlook
      refine ⟨0, rfl, iff_of_true rfl fun h => ?_, fun h => absurd rfl h⟩
      rw [h.lookup] at hlook
      cases hlook
    | true =>
      rw [hv, if_pos rfl] at hlook
      rw [if_neg (by simp)]
      by_cases hU : s.pte n i &&& pteU = 0
      · rw [if_pos hU]
        refine ⟨0, rfl, iff_of_true rfl fun h => ?_, fun h => absurd rfl h⟩
        obtain ⟨-, pte, hpte, hU', -⟩ := h
        rw [hlook] at hpte
        exact hU' (Option.some.inj hpte ▸ hU)
      · rw [if_neg hU, hlook]
        refine ⟨_, rfl, iff_of_false (hl va (not_le.1 hmax) _ hlook) (not_not.2 ?_), fun _ => rfl⟩
        exact ⟨not_le.1 hmax, _, hlook, hU, fun h => (nomatch h)⟩

/-- What both loops find out about the page of an address. -/
theorem walkaddr_round (srcva : ℕ) (hs : Table kend s root) (hl : NoNull s root) :
    (¬ Usable s root false srcva ∧ walkaddr root (pgrounddown srcva) s = .ok (0, s)) ∨
    (Usable s root false srcva ∧ add64 (pgrounddown srcva) pgsize = pgrounddown srcva + pgsize ∧
      ∃ pa ≠ 0, walkaddr root (pgrounddown srcva) s = .ok (pa, s) ∧
        pa + srcva % pgsize = s.phys root srcva) := by
  rw [← pgrounddown_usable]
  obtain ⟨pa, hrun, hzero, hpa⟩ := walkaddr_spec (pgrounddown srcva) hs hl
  by_cases hgood : Usable s root false (pgrounddown srcva)
  · have hne : pa ≠ 0 := fun h => hzero.1 h hgood
    refine .inr ⟨hgood, add64_pgsize hgood.1, pa, hne, hrun, ?_⟩
    rw [hpa hne, phys_pgrounddown]
  · rw [hzero.2 hgood] at hrun
    exact .inl ⟨hgood, hrun⟩

theorem copyinLoop_round (rounds dst srcva : ℕ) (hs : Table kend s root) (hl : NoNull s root)
    (hlen : len ≠ 0) :
    (¬ Usable s root false srcva ∧ copyinLoop root (rounds + 1) dst srcva len s = .ok (false, s)) ∨
    (Usable s root false srcva ∧ copyinLoop root (rounds + 1) dst srcva len s =
      copyinLoop root rounds (dst + min (pgsize - srcva % pgsize) len) (pgrounddown srcva + pgsize)
        (len - min (pgsize - srcva % pgsize) len)
        (s.fill dst (min (pgsize - srcva % pgsize) len)
          fun i => s.byte (s.phys root srcva + i))) := by
  rw [copyinLoop, if_neg hlen, sub_pgrounddown]
  rcases walkaddr_round srcva hs hl with ⟨hbad, hrun⟩ | ⟨hgood, hnext, pa, hne, hrun, hphys⟩
  · rw [bind_of_ok hrun, if_pos rfl]
    exact .inl ⟨hbad, rfl⟩
  · rw [bind_of_ok hrun, if_neg hne, hnext, hphys]
    exact .inr ⟨hgood, rfl⟩

/-- Bytes of the buffer are no part of the table, and no bytes of the user. -/
theorem Stored.buffer {f : ℕ → UInt8} (h : Stored s u (buf + ·) f n) (hn : n ≤ len)
    (hs : Table kend s root) (hbuf : Apart s root buf len) (hout : NotInTable s root buf len) :
    (Table kend u root ∧ u.nodes root = s.nodes root ∧ ∀ x, u.lookup root x = s.lookup root x) ∧
      ∀ va, Usable s root false va → u.byte (s.phys root va) = s.byte (s.phys root va) := by
  refine ⟨hs.untouched h.freelist fun x hx => ?_, fun va hva => h.byte fun j hj heq => ?_⟩
  · refine h.page (hs.pages x hx).1 fun i hi heq => ?_
    exact hout i (by omega) (heq ▸ hx)
  · refine hbuf j (by omega) va hva.1 _ hva.lookup ?_
    rw [← heq, (phys_page s root va).1]

theorem NotInTable.tail (h : NotInTable s root buf len)
    (hnodes : t.nodes root = s.nodes root) : NotInTable t root (buf + n) (len - n) := by
  intro i hi
  rw [hnodes, add_assoc]
  exact h (n + i) (by omega)

theorem copyinLoop_spec {rounds srcva : ℕ} (hs : Table kend s root) (hl : NoNull s root)
    (hbuf : Apart s root dst len) (hout : NotInTable s root dst len)
    (hrounds : srcva % pgsize + len ≤ rounds * pgsize) :
    Runs (copyinLoop root (rounds + 1) dst srcva len) s fun r t => ∃ m,
      Copied s t root false srcva (dst + ·) (fun i => s.byte (s.phys root (srcva + i)))
      len r m := by
  induction rounds generalizing s dst srcva len with
  | zero =>
    obtain rfl : len = 0 := by omega
    exact Runs.ret ⟨0, .nothing rfl⟩
  | succ rounds ih =>
    by_cases hlen : len = 0
    · rw [copyinLoop, if_pos hlen]
      exact Runs.ret ⟨0, .nothing hlen⟩
    rcases copyinLoop_round (rounds + 1) dst srcva hs hl hlen with ⟨hbad, hrun⟩ | ⟨hgood, hrun⟩
    · exact ⟨_, _, hrun, 0, .stop hlen hbad⟩
    obtain ⟨n, hn, hpos, hle, hroom, hnext⟩ := chunk_eq srcva len hlen
    rw [hn] at hrun
    have hu := usable_chunk (pgrounddown_usable.2 hgood) hroom
    have hstored : Stored s (s.fill dst n fun i => s.byte (s.phys root srcva + i)) (dst + ·)
        (fun i => s.byte (s.phys root (srcva + i))) n :=
      (Stored.fill s dst n _).congr (fun _ _ => rfl) fun i hi => by rw [phys_add (by omega)]
    generalize s.fill dst n (fun i => s.byte (s.phys root srcva + i)) = u at hrun hstored
    obtain ⟨⟨htable, hnodes, hlookup⟩, hsrc⟩ := hstored.buffer hle hs hbuf hout
    obtain ⟨r, t, hrest, m, hm⟩ := @ih (len - n) (dst + n) u (pgrounddown srcva + pgsize) htable
      (fun x hx pte hpte => hl x hx pte (hlookup x ▸ hpte)) (hbuf.tail hlookup) (hout.tail hnodes)
      (rounds_left hnext hrounds)
    have hlast := hm.le
    have hpage : len - n ≠ 0 → pgrounddown srcva + pgsize = srcva + n := by omega
    refine ⟨r, t, hrun.trans hrest, n + m, .append hstored hle hu hlookup hnext hm
      (fun i hi => ⟨(add_assoc dst n i).symm, ?_⟩) fun i hi j hj => ?_⟩
    · have hi' := (Usable.congr hlookup).1 (hm.usable i hi)
      rw [phys_congr hlookup, hsrc _ hi', hpage (by omega), add_assoc]
    · omega

theorem copyin_spec (srcva : ℕ) (hs : Table kend s root) (hl : NoNull s root)
    (hbuf : Apart s root dst len) (hout : NotInTable s root dst len) :
    Runs (copyin root dst srcva len) s fun r t => ∃ m,
      Copied s t root false srcva (dst + ·) (fun i => s.byte (s.phys root (srcva + i))) len r m :=
  copyinLoop_spec hs hl hbuf hout (rounds_enough srcva len)

/-- `copyout` and `copyin` for every address and every length: they return 0 exactly if the user may
write, or read, all of the range, and they transfer the bytes of the range, in order, up to the
first that may not be used. -/
theorem copies_exact (va : ℕ) (hs : Table kend s root) (hl : Leaves s root)
    (hbuf : Apart s root buf len) : Runs (copyout root va buf len) s (fun r t =>
      (r = true ↔ ∀ i < len, Usable s root true (va + i)) ∧
      (∀ x, t.lookup root x = s.lookup root x) ∧ ∃ m ≤ len, (r = true → m = len) ∧
        (∀ i < m, Usable s root true (va + i)) ∧
        Stored s t (fun i => s.phys root (va + i)) (fun i => s.byte (buf + i)) m) ∧
    (NotInTable s root buf len → Runs (copyin root buf va len) s fun r t =>
      (r = true ↔ ∀ i < len, Usable s root false (va + i)) ∧
      (∀ x, t.lookup root x = s.lookup root x) ∧ ∃ m ≤ len, (r = true → m = len) ∧
        (∀ i < m, Usable s root false (va + i)) ∧
        Stored s t (buf + ·) (fun i => s.byte (s.phys root (va + i))) m) := by
  refine ⟨(copyout_spec va hs hl hbuf).mono ?_,
    fun hout => (copyin_spec va hs hl.ne_zero hbuf hout).mono ?_⟩
  · rintro r t ⟨m, hm⟩
    exact ⟨hm.true_iff, (hm.stored.user hs hl hbuf hm.usable).1.2.2, m, hm.le, hm.all,
      hm.usable, hm.stored⟩
  · rintro r t ⟨m, hm⟩
    exact ⟨hm.true_iff, (hm.stored.buffer hm.le hs hbuf hout).1.2.2, m, hm.le, hm.all,
      hm.usable, hm.stored⟩

end copyin

section copyinstr

variable {kend root dst srcva max m k : ℕ} {s t u : Phys} {r : Bool}

/-- The bytes of one page: they are copied up to the first NUL, or all of them. -/
theorem copyinstrBytes_spec {n p : ℕ} (hne : ∀ i < n, ∀ j < n, p + j ≠ dst + i) :
    Runs (copyinstrBytes n p dst max) s fun r t =>
      (r.1 = true ∧ ∃ k < n, (∀ i < k, s.byte (p + i) ≠ 0) ∧ s.byte (p + k) = 0 ∧
        Stored s t (dst + ·) (fun i => s.byte (p + i)) (k + 1)) ∨
      (r = (false, dst + n, max - n) ∧ (∀ i < n, s.byte (p + i) ≠ 0) ∧
        Stored s t (dst + ·) (fun i => s.byte (p + i)) n) := by
  induction n generalizing s p dst max with
  | zero => exact Runs.ret (.inr ⟨rfl, fun i hi => absurd hi (not_lt_zero i), .refl ..⟩)
  | succ n ih =>
    have hone : Stored s (s.fill dst 1 fun _ => s.byte p) (dst + ·)
        (fun i => s.byte (p + i)) 1 := by
      refine (Stored.fill s dst 1 _).congr (fun _ _ => rfl) fun i hi => ?_
      obtain rfl : i = 0 := by omega
      rfl
    rw [copyinstrBytes]
    refine Runs.reads ?_
    by_cases hz : s.byte p = 0
    · rw [if_pos hz]
      refine Runs.modifies (Runs.ret (.inl ⟨rfl, 0, succ_pos n, fun i hi => by omega, hz, ?_⟩))
      rw [← hz]
      exact hone
    · rw [if_neg hz]
      refine Runs.modifies ?_
      generalize s.fill dst 1 (fun _ => s.byte p) = u at hone
      have hsame : ∀ i < n, u.byte (p + 1 + i) = s.byte (p + (1 + i)) := by
        intro i hi
        rw [add_assoc]
        refine hone.byte fun j hj => ?_
        obtain rfl : j = 0 := by omega
        exact hne 0 (succ_pos n) (1 + i) (by omega)
      have hfirst : ∀ k ≤ n, (∀ i < k, u.byte (p + 1 + i) ≠ 0) → ∀ i < k + 1,
          s.byte (p + i) ≠ 0 := by
        intro k hk hrest i hi
        cases i with
        | zero => exact hz
        | succ i =>
          have hi' := hrest i (by omega)
          rwa [hsame i (by omega), add_comm 1 i] at hi'
      have hrest : ∀ {t : Phys} {k : ℕ}, k ≤ n →
          Stored u t (dst + 1 + ·) (fun i => u.byte (p + 1 + i)) k →
          Stored s t (dst + ·) (fun i => s.byte (p + i)) (k + 1) := by
        intro t k hk h
        rw [add_comm k 1]
        exact hone.append h (fun i hi => ⟨(add_assoc dst 1 i).symm, (hsame i (by omega)).symm⟩)
          fun i _ j _ => by omega
      refine (ih fun i hi j hj => ?_).mono ?_
      · have := hne (1 + i) (by omega) (1 + j) (by omega)
        omega
      · rintro r t (⟨hr, k, hk, hpre, hnul, hst⟩ | ⟨rfl, hpre, hst⟩)
        · refine .inl ⟨hr, k + 1, by omega, hfirst k hk.le hpre, ?_, hrest hk hst⟩
          rw [hsame k hk, add_comm 1 k] at hnul
          exact hnul
        · refine .inr ⟨?_, hfirst n le_rfl hpre, hrest le_rfl hst⟩
          simp only [Prod.mk.injEq, true_and]
          omega

/-- What `copyinstr` ends with: the first `m` bytes of the string have been stored. The last of them
is the first NUL, or there is none among them and the next byte may not be read or is one too
many. -/
structure Fetched (s t : Phys) (root srcva dst max : ℕ) (r : Bool) (m : ℕ) : Prop where
  le : m ≤ max
  stored : Stored s t (dst + ·) (fun i => s.byte (s.phys root (srcva + i))) m
  usable : ∀ i < m, Usable s root false (srcva + i)
  nul : r = true → ∃ k, m = k + 1 ∧ s.byte (s.phys root (srcva + k)) = 0 ∧ ∀ i < k,
    s.byte (s.phys root (srcva + i)) ≠ 0
  none : r = false → (∀ i < m, s.byte (s.phys root (srcva + i)) ≠ 0) ∧
    (m < max → ¬ Usable s root false (srcva + m))

theorem Fetched.stop (hbad : 0 < max → ¬ Usable s root false srcva) :
    Fetched s s root srcva dst max false 0 :=
  ⟨zero_le _, .refl .., fun i hi => absurd hi (not_lt_zero i), fun h => (nomatch h),
    fun _ => ⟨fun i hi => absurd hi (not_lt_zero i), hbad⟩⟩

theorem Fetched.append {srcva' n : ℕ}
    (h : Stored s u (dst + ·) (fun i => s.byte (s.phys root (srcva + i))) n) (hn : n ≤ max)
    (hu : ∀ i < n, Usable s root false (srcva + i))
    (hpre : ∀ i < n, s.byte (s.phys root (srcva + i)) ≠ 0)
    (hlookup : ∀ x, u.lookup root x = s.lookup root x)
    (hsame : ∀ va, Usable s root false va → u.byte (s.phys root va) = s.byte (s.phys root va))
    (hnext : n = max ∨ srcva' = srcva + n) (h' : Fetched u t root srcva' (dst + n) (max - n) r m) :
    Fetched s t root srcva dst max r (n + m) := by
  have hle := h'.le
  have hva (i : ℕ) (hi : max - n ≠ 0) : srcva' + i = srcva + (n + i) := by omega
  have hu' : ∀ i < m, Usable s root false (srcva + (n + i)) := by
    intro i hi
    rw [← hva i (by omega)]
    exact (Usable.congr hlookup).1 (h'.usable i hi)
  have hbyte : ∀ i < m, u.byte (u.phys root (srcva' + i)) =
      s.byte (s.phys root (srcva + (n + i))) := by
    intro i hi
    rw [phys_congr hlookup, hva i (by omega), hsame _ (hu' i hi)]
  have hsplit {Q : ℕ → Prop} (hlow : ∀ i < n, Q i) {k : ℕ} (hhigh : ∀ i < k, Q (n + i)) :
      ∀ i < n + k, Q i := by
    intro i hi
    by_cases hin : i < n
    · exact hlow i hin
    · obtain ⟨j, rfl⟩ := Nat.exists_eq_add_of_le (not_lt.1 hin)
      exact hhigh j (by omega)
  refine ⟨by omega, ?_, hsplit hu hu', fun hr => ?_, fun hr => ?_⟩
  · exact h.append h'.stored (fun i hi => ⟨(add_assoc dst n i).symm, (hbyte i hi).symm⟩)
      fun i _ j _ => by omega
  · obtain ⟨k, rfl, hnul, hrest⟩ := h'.nul hr
    refine ⟨n + k, rfl, ?_, hsplit hpre fun i hi => ?_⟩
    · rw [← hbyte k (lt_succ_self k)]
      exact hnul
    · rw [← hbyte i (by omega)]
      exact hrest i hi
  · obtain ⟨hrest, hbad⟩ := h'.none hr
    refine ⟨hsplit hpre fun i hi => ?_, fun hlt hgood => hbad (by omega) ?_⟩
    · rw [← hbyte i hi]
      exact hrest i hi
    · rw [Usable.congr hlookup, hva m (by omega)]
      exact hgood

theorem copyinstrLoop_spec {rounds : ℕ} (hs : Table kend s root) (hl : NoNull s root)
    (hbuf : Apart s root dst max) (hout : NotInTable s root dst max)
    (hrounds : srcva % pgsize + max ≤ rounds * pgsize) :
    Runs (copyinstrLoop root (rounds + 1) dst srcva max) s
    fun r t => ∃ m, Fetched s t root srcva dst max r m := by
  induction rounds generalizing s dst srcva max with
  | zero =>
    obtain rfl : max = 0 := by omega
    exact Runs.ret ⟨0, .stop fun h => absurd h (lt_irrefl 0)⟩
  | succ rounds ih =>
    rw [copyinstrLoop]
    by_cases hmax : max = 0
    · rw [if_pos hmax]
      exact Runs.ret ⟨0, .stop fun h => absurd hmax h.ne'⟩
    rw [if_neg hmax]
    dsimp only
    rw [sub_pgrounddown]
    rcases walkaddr_round srcva hs hl with ⟨hbad, hwalk⟩ | ⟨hgood, hadd, pa, hne, hwalk, hphys⟩
    · exact ⟨_, _, bind_of_ok hwalk, 0, .stop fun _ => hbad⟩
    refine Runs.bind (Q := fun a t => a = pa ∧ t = s) ⟨pa, s, hwalk, rfl, rfl⟩ ?_
    rintro a t ⟨rfl, rfl⟩
    obtain ⟨n, hn, hpos, hle, hroom, hnext⟩ := chunk_eq srcva max hmax
    have hu := usable_chunk (pgrounddown_usable.2 hgood) hroom
    rw [if_neg hne, hadd, hphys, hn]
    have hapart : ∀ i < n, ∀ j < n, t.phys root srcva + j ≠ dst + i := by
      intro i hi j hj heq
      refine hbuf i (by omega) (srcva + j) (hu j hj).1 _ (hu j hj).lookup ?_
      rw [← heq, ← phys_add (by omega), (phys_page t root (srcva + j)).1]
    have hbyte : ∀ i < n, t.byte (t.phys root srcva + i) = t.byte (t.phys root (srcva + i)) := by
      intro i hi
      rw [phys_add (by omega)]
    refine (copyinstrBytes_spec hapart).bind ?_
    rintro ⟨gotNull, dst', max'⟩ u (⟨hr, k, hk, hpre, hnul, hst⟩ | ⟨hr, hpre, hst⟩)
    · -- the page has the NUL
      obtain rfl : gotNull = true := hr
      have hbyte' : ∀ i < k + 1, t.byte (t.phys root (srcva + i)) =
          t.byte (t.phys root srcva + i) :=
        fun i hi => (hbyte i (by omega)).symm
      dsimp only
      rw [if_pos rfl]
      refine Runs.ret ⟨k + 1, by omega, hst.congr (fun _ _ => rfl) hbyte',
        fun i hi => hu i (by omega), fun _ => ⟨k, rfl, ?_, fun i hi => ?_⟩, fun h => (nomatch h)⟩
      · rw [hbyte' k (lt_succ_self k)]
        exact hnul
      · rw [hbyte' i (by omega)]
        exact hpre i hi
    · -- the string goes on
      obtain ⟨rfl, rfl, rfl⟩ : gotNull = false ∧ dst' = dst + n ∧ max' = max - n := by
        simpa only [Prod.mk.injEq] using hr
      have hst' : Stored t u (dst + ·) (fun i => t.byte (t.phys root (srcva + i))) n :=
        hst.congr (fun _ _ => rfl) fun i hi => (hbyte i hi).symm
      obtain ⟨⟨htable, hnodes, hlookup⟩, hsame⟩ := hst'.buffer hle hs hbuf hout
      have hpre' : ∀ i < n, t.byte (t.phys root (srcva + i)) ≠ 0 := fun i hi => by
        rw [← hbyte i hi]
        exact hpre i hi
      dsimp only
      rw [if_neg (by simp)]
      refine (@ih (dst + n) (pgrounddown srcva + pgsize) (max - n) u htable
        (fun x hx pte hpte => hl x hx pte (hlookup x ▸ hpte)) (hbuf.tail hlookup) (hout.tail hnodes)
        (rounds_left hnext hrounds)).mono ?_
      rintro r v ⟨m, hm⟩
      exact ⟨n + m, .append hst' hle hu hpre' hlookup hsame hnext hm⟩

theorem copyinstr_spec (srcva : ℕ) (hs : Table kend s root) (hl : NoNull s root)
    (hbuf : Apart s root dst max) (hout : NotInTable s root dst max) :
    Runs (copyinstr root dst srcva max) s fun r t => ∃ m, Fetched s t root srcva dst max r m :=
  copyinstrLoop_spec hs hl hbuf hout (rounds_enough srcva max)

structure UserString (s : Phys) (root srcva k : ℕ) : Prop where
  nul : s.byte (s.phys root (srcva + k)) = 0
  first : ∀ i < k, s.byte (s.phys root (srcva + i)) ≠ 0
  usable : ∀ i ≤ k, Usable s root false (srcva + i)

theorem UserString.unique {k' : ℕ} (h : UserString s root srcva k)
    (h' : UserString s root srcva k') : k = k' := by
  rcases lt_trichotomy k k' with hlt | heq | hlt
  · exact absurd h.nul (h'.first k hlt)
  · exact heq
  · exact absurd h'.nul (h.first k' hlt)

theorem Fetched.string (h : Fetched s t root srcva dst max true m) :
    ∃ k, m = k + 1 ∧ UserString s root srcva k := by
  obtain ⟨k, rfl, hnul, hfirst⟩ := h.nul rfl
  exact ⟨k, rfl, hnul, hfirst, fun i hi => h.usable i (by omega)⟩

theorem Fetched.no_string (h : Fetched s t root srcva dst max false m)
    (hk : k < max) (hstr : UserString s root srcva k) : False := by
  obtain ⟨hfirst, hbad⟩ := h.none rfl
  by_cases hm : k < m
  · exact hfirst k hm hstr.nul
  · exact hbad (by omega) (hstr.usable m (by omega))

theorem strlen_spec {rounds buf : ℕ} (hk : k < rounds) (hnul : s.byte (buf + k) = 0)
    (hfirst : ∀ i < k, s.byte (buf + i) ≠ 0) : strlen rounds buf s = .ok (k, s) := by
  induction rounds generalizing buf k with
  | zero => omega
  | succ rounds ih =>
    rw [strlen]
    change (if s.byte buf = 0 then _ else _ : M ℕ) s = _
    cases k with
    | zero =>
      rw [add_zero] at hnul
      rw [if_pos hnul]
      rfl
    | succ k =>
      have hne := hfirst 0 (succ_pos k)
      rw [add_zero] at hne
      rw [if_neg hne]
      have hrest : strlen rounds (buf + 1) s = .ok (k, s) := by
        refine ih (by omega) ?_ fun i hi => ?_
        · rw [add_assoc, add_comm 1 k]
          exact hnul
        · rw [add_assoc, add_comm 1 i]
          exact hfirst (i + 1) (by omega)
      exact map_of_ok hrest

/-- `fetchstr` returns the length of the string that it has copied to the buffer, or -1. -/
theorem fetchstr_spec (srcva : ℕ) (hs : Table kend s root) (hl : NoNull s root)
    (hbuf : Apart s root dst max) (hout : NotInTable s root dst max) (hmax : max < 2 ^ 31) :
    Runs (fetchstr root srcva dst max) s fun n t =>
      (∃ k < max, n = k ∧ Fetched s t root srcva dst max true (k + 1) ∧ t.byte (dst + k) = 0 ∧
        ∀ i < k, t.byte (dst + i) ≠ 0) ∨
        (n = -1 ∧ ∃ m, Fetched s t root srcva dst max false m) := by
  have hu64 : toU64 (max : ℤ) = max := by
    unfold toU64
    omega
  unfold fetchstr
  rw [hu64]
  refine (copyinstr_spec srcva hs hl hbuf hout).bind ?_
  rintro r t ⟨m, hm⟩
  cases r with
  | false => exact Runs.ret (.inr ⟨rfl, m, hm⟩)
  | true =>
    obtain ⟨k, rfl, hstr⟩ := hm.string
    have hk : k < max := hm.le
    have hbyte : ∀ i < k + 1, t.byte (dst + i) = s.byte (s.phys root (srcva + i)) := hm.stored.bytes
    have hnul : t.byte (dst + k) = 0 := (hbyte k (lt_succ_self k)).trans hstr.nul
    have hfirst : ∀ i < k, t.byte (dst + i) ≠ 0 := fun i hi => by
      rw [hbyte i (by omega)]
      exact hstr.first i hi
    refine ⟨(k : ℤ), t, ?_, .inl ⟨k, hk, rfl, hm, hnul, hfirst⟩⟩
    have hint : Int.bmod (k : ℕ) (2 ^ 32) = (k : ℤ) := by
      rw [Int.bmod_eq_of_le] <;> omega
    have hrun : ((fun n : ℕ => Int.bmod n (2 ^ 32)) <$> strlen max dst) t =
        .ok (Int.bmod (k : ℕ) (2 ^ 32), t) := map_of_ok (strlen_spec hk hnul hfirst)
    rw [hint] at hrun
    exact hrun

/-- `copyinstr` returns 0 exactly if a string of less than `max` bytes is at the address, and then
the buffer has it with its NUL; it stores at most `max` bytes, and those it stores are the first
bytes at the address. `fetchstr` returns the length of the string in the buffer, or -1. -/
theorem copyinstr_exact (srcva dst max : ℕ) (hs : Table kend s root)
    (hl : ∀ x < maxva, ∀ pte, s.lookup root x = some pte → pte2pa pte ≠ 0)
    (hbuf : Apart s root dst max) (hout : NotInTable s root dst max) :
    Runs (copyinstr root dst srcva max) s (fun r t =>
      (r = true ↔ ∃ k < max, UserString s root srcva k) ∧ (∀ k < max, UserString s root srcva k →
        Stored s t (dst + ·) (fun i => s.byte (s.phys root (srcva + i))) (k + 1)) ∧
      ∃ m ≤ max, (∀ i < m, Usable s root false (srcva + i)) ∧
        Stored s t (dst + ·) (fun i => s.byte (s.phys root (srcva + i))) m) ∧
    (max < 2 ^ 31 → Runs (fetchstr root srcva dst max) s fun n t =>
      (∃ k < max, n = k ∧ UserString s root srcva k ∧ t.byte (dst + k) = 0 ∧
        ∀ i < k, t.byte (dst + i) = s.byte (s.phys root (srcva + i)) ∧ t.byte (dst + i) ≠ 0) ∨
      (n = -1 ∧ ¬ ∃ k < max, UserString s root srcva k)) := by
  have hspec := copyinstr_spec srcva hs hl hbuf hout
  refine ⟨hspec.mono ?_, fun hmax => ?_⟩
  · rintro r t ⟨m, hm⟩
    refine ⟨?_, fun k hk hstr => ?_, m, hm.le, hm.usable, hm.stored⟩
    · constructor
      · rintro rfl
        obtain ⟨k, rfl, hstr⟩ := hm.string
        exact ⟨k, hm.le, hstr⟩
      · rintro ⟨k, hk, hstr⟩
        by_contra hr
        obtain rfl : r = false := Bool.eq_false_iff.2 hr
        exact hm.no_string hk hstr
    · cases r with
      | false => exact (hm.no_string hk hstr).elim
      | true =>
        obtain ⟨k', rfl, hstr'⟩ := hm.string
        rw [hstr.unique hstr']
        exact hm.stored
  · refine (fetchstr_spec srcva hs hl hbuf hout hmax).mono ?_
    rintro n t (⟨k, hk, rfl, hm, hnul, hfirst⟩ | ⟨rfl, m, hm⟩)
    · obtain ⟨k', heq, hstr⟩ := hm.string
      obtain rfl : k = k' := Nat.succ.inj heq
      exact .inl ⟨k, hk, rfl, hstr, hnul, fun i hi => ⟨hm.stored.bytes i (by omega), hfirst i hi⟩⟩
    · refine .inr ⟨rfl, ?_⟩
      rintro ⟨k, hk, hstr⟩
      exact hm.no_string hk hstr

end copyinstr

section onePage

def userPage : ℕ := kernbase + 36864

def tablePage : ℕ := kernbase + 4096

/-- A new table in which the page 0 has been mapped. -/
def onePage : Except Panic (Bool × Phys) :=
  mappages tablePage 0 pgsize userPage (pteR ||| pteW ||| pteU)
    (taken freshPhys tablePage freshPhys.answers.tail)

/-- There is no other mapping in it, and memory from the page mapped on is zero. -/
theorem exists_onePage : ∃ s, onePage = .ok (true, s) ∧ Table kernbase s tablePage ∧
    (∀ x < 2 ^ 39, s.lookup tablePage x =
      if x < pgsize then some (leafPte userPage (pteR ||| pteW ||| pteU)) else none) ∧
    (∀ n ∈ s.nodes tablePage, n < userPage) ∧ (∀ p ∈ s.freelist, p < userPage) ∧
    ∀ x, userPage ≤ x → s.pages x = fun _ => 0 := by
  set s := taken freshPhys tablePage freshPhys.answers.tail with s_def
  obtain ⟨htable, hnone⟩ : Table kernbase s tablePage ∧ ∀ x, s.lookup tablePage x = none :=
    Table.empty (by simp [s_def, taken]) (by decide) (by decide) (by decide) (by decide)
  obtain ⟨r, t, hrun, new, hm⟩ := @mappages_one kernbase tablePage s 0 userPage
    (pteR ||| pteW ||| pteU) htable (by decide) (by decide) (by decide) (by decide)
    fun x _ _ => hnone x
  have hr : r = true := by
    have heval : onePage.toOption.elim false Prod.fst = true := by decide +kernel
    rwa [show onePage = .ok (r, t) from hrun] at heval
  subst hr
  obtain ⟨-, hm⟩ | ⟨hr, -⟩ := hm
  swap
  · cases hr
  have hroot : s.nodes tablePage = [tablePage] := nodes_bare fun i => by
    simp [Phys.child, Phys.pte, s_def, taken, Page.pte_zero, valid]
  have hfree : ∀ n ∈ s.freelist, n < userPage := by decide
  have hnew : ∀ n ∈ new, n < userPage := fun n hn =>
    hfree n (hm.free.mem_iff.2 (mem_append_left _ hn))
  refine ⟨t, hrun, hm.table, fun x hx => ?_, fun n hn => ?_, fun p hp => ?_, fun x hx => ?_⟩
  · rw [hm.lookup x hx, hnone, one_mul, zero_add]
    by_cases hlt : x < pgsize
    · rw [if_pos ⟨Nat.zero_le x, hlt⟩, if_pos hlt, Nat.sub_zero, Nat.div_eq_of_lt hlt]
      rfl
    · rw [if_neg fun h => hlt h.2, if_neg hlt]
  · rw [hm.nodes.mem_iff, hroot, mem_append, mem_singleton] at hn
    rcases hn with hn | rfl
    · exact hnew n hn
    · decide
  · exact hfree p (hm.free.mem_iff.2 (mem_append_right _ hp))
  · have hout : x ≠ tablePage := by
      unfold userPage at hx
      unfold tablePage
      omega
    rw [hm.frame x (fun hmem => by have := hnew x hmem; omega) (by rw [hroot]; simpa using hout)]
    simp [s_def, taken, freshPhys]

theorem onePage_apart {s : Phys} {root : ℕ} (hlookup : ∀ x < 2 ^ 39, s.lookup root x =
    if x < pgsize then some (leafPte userPage (pteR ||| pteW ||| pteU)) else none)
    (hnodes : ∀ n ∈ s.nodes root, n < userPage) : Leaves s root ∧
      Apart s root (userPage + 4096) 100 ∧ NotInTable s root (userPage + 4096) 100 ∧
      ∀ x < pgsize, Usable s root true x := by
  have hmax := maxva_lt
  have hpte {x pte : ℕ} (hx : x < maxva) (h : s.lookup root x = some pte) :
      x < pgsize ∧ pte2pa pte = userPage := by
    rw [hlookup x (by omega)] at h
    split at h
    next hlt =>
      cases h
      exact ⟨hlt, by decide⟩
    next => cases h
  have hbuf : ∀ i < 100, (userPage + 4096 + i) / pgsize * pgsize = userPage + 4096 := by
    unfold userPage kernbase pgsize
    omega
  refine ⟨⟨fun x hx y hy pte pte' h h' _ => ?_, fun x hx pte h => ?_, fun x hx pte h hmem => ?_⟩,
    fun i hi x hx pte h => ?_, fun i hi hmem => ?_, fun x hx => ?_⟩
  · rw [div_eq_of_lt (hpte hx h).1, div_eq_of_lt (hpte hy h').1]
  · rw [(hpte hx h).2]
    decide
  · have := hnodes _ hmem
    rw [(hpte hx h).2] at this
    omega
  · rw [(hpte hx h).2, hbuf i hi]
    omega
  · have := hnodes _ hmem
    rw [hbuf i hi] at this
    omega
  · have hlt : x < maxva := by
      rw [maxva_eq]
      unfold pgsize at hx
      omega
    refine ⟨hlt, _, by rw [hlookup x (by omega), if_pos hx], by decide, fun _ => by decide⟩

theorem copies_exact_onePage : ∃ s root, Table kernbase s root ∧ Leaves s root ∧
    Runs (copyout root 10 (userPage + 4096) 100) s fun r t =>
      r = true ∧ ∀ i < 100, t.byte (t.phys root (10 + i)) = s.byte (userPage + 4096 + i) := by
  obtain ⟨s, -, hs, hlookup, hnodes, -, -⟩ := exists_onePage
  obtain ⟨hl, hbuf, -, husable⟩ := onePage_apart hlookup hnodes
  refine ⟨s, tablePage, hs, hl, (copies_exact 10 hs hl hbuf).1.mono ?_⟩
  rintro r t ⟨hiff, hsame, m, -, hall, -, hstored⟩
  have hr : r = true := hiff.2 fun i hi => husable _ (by unfold pgsize; omega)
  refine ⟨hr, fun i hi => ?_⟩
  rw [phys_congr hsame]
  exact hstored.bytes i (by rw [hall hr]; exact hi)

/-- The byte at 4090 is 0, and so it is the end of an empty string. -/
theorem copyinstr_exact_onePage : ∃ s, Table kernbase s tablePage ∧ UserString s tablePage 4090 0 ∧
    Runs (copyinstr tablePage (userPage + 4096) 4090 100) s fun r t =>
      r = true ∧ t.byte (userPage + 4096) = 0 := by
  obtain ⟨s, -, hs, hlookup, hnodes, -, hzero⟩ := exists_onePage
  obtain ⟨hl, hbuf, hout, husable⟩ := onePage_apart hlookup hnodes
  have hstr : UserString s tablePage 4090 0 := by
    refine ⟨?_, nofun, fun i hi => ?_⟩
    · rw [Phys.phys, hlookup _ (by decide), if_pos (by decide), Phys.byte, hzero _ (by decide)]
    · obtain rfl : i = 0 := by omega
      obtain ⟨hlt, pte, hpte, hu, -⟩ := husable 4090 (by decide)
      exact ⟨hlt, pte, hpte, hu, nofun⟩
  refine ⟨s, hs, hstr, ?_⟩
  refine (copyinstr_exact 4090 (userPage + 4096) 100 hs hl.ne_zero hbuf hout).1.mono fun r t h => ?_
  obtain ⟨hiff, hstored, -⟩ := h
  exact ⟨hiff.2 ⟨0, by decide, hstr⟩, ((hstored 0 (by decide) hstr).bytes 0 one_pos).trans hstr.nul⟩

end onePage

end Xv6.Vm
