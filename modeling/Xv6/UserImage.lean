import Xv6.Fork

/-!
# The image of a new address space

`exec` builds an address space from its first page on: pages are added at the end, bytes are stored
in the pages that are there, and the guard page of the stack is taken from the user. The leaves of
`Built` say all that is in the new space, so each of these operations is one on the list of leaves.
-/

namespace Xv6.Vm

open Xv6.Radix List Nat Option

def clearU (pte : ℕ) : ℕ := pte &&& (2 ^ 64 - 1 - pteU)

def uvmclear (pagetable va : ℕ) : M Unit := do
  match ← walk pagetable va false with
  | none => throw .uvmclear
  | some (n, i) => do
      let s ← get
      setPte n i (clearU (s.pte n i))

/-- The page at the address `va` after the bytes `f 0`, ..., `f (n - 1)` have been stored from the
address `a` on. -/
def Leaf.store (m : Leaf) (va a n : ℕ) (f : ℕ → UInt8) : Leaf :=
  ⟨m.page, m.perm,
    fun k => if k < pgsize ∧ a ≤ va + k ∧ va + k < a + n then f (va + k - a) else m.bytes k⟩

def store (ms : List Leaf) (a n : ℕ) (f : ℕ → UInt8) : List Leaf :=
  ms.mapIdx fun j m => m.store (j * pgsize) a n f

def imageByte (ms : List Leaf) (a : ℕ) : UInt8 :=
  (ms[a / pgsize]?).elim 0 fun m => m.bytes (a % pgsize)

section leaves

variable {ms ms' : List Leaf} {a n x : ℕ} {f : ℕ → UInt8}

@[simp] theorem length_store : (store ms a n f).length = ms.length := by simp [store]

theorem getElem?_store (j : ℕ) :
    (store ms a n f)[j]? = ms[j]?.map fun m => m.store (j * pgsize) a n f := getElem?_mapIdx

theorem store_pages : (store ms a n f).map Leaf.page = ms.map Leaf.page := by
  apply ext_getElem?
  intro j
  rw [getElem?_map, getElem?_map, getElem?_store, Option.map_map]
  rfl

theorem div_lt_length (hx : x < ms.length * pgsize) : x / pgsize < ms.length :=
  Nat.div_lt_of_lt_mul (by rwa [Nat.mul_comm])

theorem imageByte_store (hx : x < ms.length * pgsize) :
    imageByte (store ms a n f) x = if a ≤ x ∧ x < a + n then f (x - a) else imageByte ms x := by
  have hmod : x % pgsize < pgsize := mod_lt _ (by decide)
  obtain ⟨m, hm⟩ : ∃ m, ms[x / pgsize]? = some m := ⟨_, getElem?_eq_getElem (div_lt_length hx)⟩
  rw [imageByte, imageByte, getElem?_store, hm, map_some, elim_some, elim_some, Leaf.store]
  dsimp only
  rw [page_add_offset]
  by_cases hin : a ≤ x ∧ x < a + n
  · rw [if_pos ⟨hmod, hin⟩, if_pos hin]
  · rw [if_neg fun h => hin h.2, if_neg hin]

theorem imageByte_append (hx : x < ms.length * pgsize) :
    imageByte (ms ++ ms') x = imageByte ms x := by
  rw [imageByte, imageByte, getElem?_append_left (div_lt_length hx)]

@[simp] theorem store_zero : store ms a 0 f = ms := by
  apply ext_getElem?
  intro j
  have hleaf : ∀ m : Leaf, m.store (j * pgsize) a 0 f = m := by
    intro m
    have hbytes : (m.store (j * pgsize) a 0 f).bytes = m.bytes := by
      funext k
      exact if_neg (by omega)
    cases m
    rw [Leaf.store] at hbytes ⊢
    congr
  rw [getElem?_store]
  simp [hleaf]

theorem store_store (n' : ℕ) : store (store ms a n f) (a + n) n' (fun k => f (n + k)) =
    store ms a (n + n') f := by
  apply ext_getElem?
  intro j
  rw [getElem?_store, getElem?_store, getElem?_store, Option.map_map]
  congr 1
  funext m
  have hbytes :
      ((m.store (j * pgsize) a n f).store (j * pgsize) (a + n) n' fun k => f (n + k)).bytes =
      (m.store (j * pgsize) a (n + n') f).bytes := by
    funext k
    change (if _ ∧ _ ∧ _ then _ else if _ ∧ _ ∧ _ then _ else _) = if _ ∧ _ ∧ _ then _ else _
    by_cases hsecond : k < pgsize ∧ a + n ≤ j * pgsize + k ∧ j * pgsize + k < a + n + n'
    · rw [if_pos hsecond, if_pos (by omega), show n + (j * pgsize + k - (a + n)) =
        j * pgsize + k - a by omega]
    · rw [if_neg hsecond]
      by_cases hfirst : k < pgsize ∧ a ≤ j * pgsize + k ∧ j * pgsize + k < a + n
      · rw [if_pos hfirst, if_pos (by omega)]
      · rw [if_neg hfirst, if_neg (by omega)]
  change Leaf.mk _ _ _ = Leaf.mk _ _ _
  exact congrArg (Leaf.mk m.page m.perm) hbytes

end leaves

section clearU

variable {page perm : ℕ}

theorem testBit_clearU (pte i : ℕ) : (clearU pte).testBit i =
    (pte.testBit i && (decide (i < 64) && !testBit pteU i)) := by
  have hmask : 2 ^ 64 - 1 - pteU = 2 ^ 64 - (pteU + 1) := by decide
  rw [clearU, testBit_and, hmask, testBit_two_pow_sub_succ (by decide)]

theorem clearU_leafPte (hpage : page < 2 ^ 64) (hperm : perm < 1024) :
    clearU (leafPte page perm) = leafPte page (clearU perm) := by
  refine eq_of_testBit_eq fun i => ?_
  have hlt := leafPte_lt hpage hperm
  by_cases hi : i < 64
  · have hpa : i = 4 → (pa2pte page).testBit i = false := by
      rintro rfl
      rw [pa2pte, testBit_shiftLeft]
      rfl
    rw [testBit_clearU, leafPte, leafPte]
    simp only [testBit_or, testBit_clearU, hi, decide_true, Bool.true_and]
    by_cases h4 : i = 4
    · subst h4
      have hU : testBit pteU 4 = true := by decide
      have hV : testBit pteV 4 = false := by decide
      rw [hpa rfl, hU, hV]
      simp
    · have hU : testBit pteU i = false := by
        rw [pteU, show 16 = 2 ^ 4 from rfl, testBit_two_pow]
        exact decide_eq_false (Ne.symm h4)
      rw [hU, Bool.not_false, Bool.and_true, Bool.and_true]
  · have hbig : ∀ {v : ℕ}, v < 2 ^ 64 → v.testBit i = false := fun hv =>
      Nat.testBit_lt_two_pow (lt_of_lt_of_le hv (Nat.pow_le_pow_right (by decide) (not_lt.1 hi)))
    have hclear : clearU perm < 1024 := lt_of_le_of_lt and_le_left hperm
    rw [testBit_clearU, hbig hlt, hbig (leafPte_lt hpage hclear), Bool.false_and]

end clearU

theorem byte_page {s : Phys} {p k : ℕ} (hp : p % pgsize = 0) (hk : k < pgsize) :
    s.byte (p + k) = s.pages p k := by
  have hsplit : (p + k) / pgsize * pgsize = p ∧ (p + k) % pgsize = k := by
    unfold pgsize at *
    omega
  rw [Phys.byte, hsplit.1, hsplit.2]

section built

variable {kend root lo : ℕ} {s t u : Phys} {ms ms' : List Leaf} {new new' : List ℕ}

theorem Built.trans (h : Built kend s u root lo ms new)
    (h' : Built kend u t root (lo + ms.length * pgsize) ms' new') (hs : Table kend s root)
    (hmax : lo + (ms.length + ms'.length) * pgsize ≤ maxva) :
    Built kend s t root lo (ms ++ ms') (new' ++ new) := by
  have hmaxv := maxva_lt
  obtain ⟨-, hown⟩ := h.own hs
  rw [add_mul] at hmax
  refine ⟨h'.table, ?_, ?_, fun x hx hx' => ?_, fun m hm => ?_, fun x hx hout => ?_,
    fun j m hj x hx hx' => ?_, fun m hm => ?_⟩
  · rw [append_assoc]
    exact h'.nodes.trans (h.nodes.append_left _)
  · rw [map_append, append_assoc (ms.map Leaf.page)]
    exact h.free_step h'.free
  · obtain ⟨hf, hn⟩ := h.outside hx hx'
    rw [h'.frame x hf hn, h.frame x hx hx']
  · rcases mem_append.1 hm with hm | hm
    · obtain ⟨-, hn, hf⟩ := hown m.page (mem_map_of_mem hm)
      rw [h'.frame _ hf hn, h.bytes m hm]
    · exact h'.bytes m hm
  · rw [length_append, add_mul] at hout
    rw [h'.old x hx (by omega), h.old x hx (by omega)]
  · rcases lt_or_ge j ms.length with hlt | hge
    · rw [getElem?_append_left hlt] at hj
      have hle : (j + 1) * pgsize ≤ ms.length * pgsize := mul_le_mul_right _ hlt
      rw [h'.old x (by omega) (by omega)]
      exact h.leaf j m hj x hx hx'
    · rw [getElem?_append_right hge] at hj
      obtain ⟨i, rfl⟩ := Nat.exists_eq_add_of_le hge
      rw [Nat.add_sub_cancel_left] at hj
      rw [add_mul] at hx
      rw [add_assoc, add_mul] at hx'
      exact h'.leaf i m hj x (by omega) (by omega)
  · exact (mem_append.1 hm).elim (h.ok m) (h'.ok m)

/-- The table and memory after a page that is no part of either has changed. -/
theorem Built.elsewhere {s' u' : Phys} {q : ℕ} (h : Built kend s u root lo ms new)
    (hs : Table kend s root) (hq : q ∉ s.freelist) (hq' : q ∉ s.nodes root)
    (hsf : s'.freelist = s.freelist)
    (huf : u'.freelist = u.freelist) (hsp : ∀ x, x ≠ q → s'.pages x = s.pages x)
    (hup : ∀ x, x ≠ q → u'.pages x = u.pages x) (hsame : u'.pages q = s'.pages q) :
    Built kend s' u' root lo ms new := by
  obtain ⟨-, hsn, hsl⟩ := hs.untouched hsf fun x hx => hsp x fun heq => hq' (heq ▸ hx)
  obtain ⟨huq, huq'⟩ := h.outside hq hq'
  obtain ⟨hut, hun, hul⟩ := h.table.untouched huf fun x hx => hup x fun heq => huq' (heq ▸ hx)
  refine ⟨hut, by rw [hun, hsn]; exact h.nodes, by rw [hsf, huf]; exact h.free, fun x hx hx' => ?_,
    fun m hm => ?_, fun x hx hout => ?_, fun j m hj x hx hx' => ?_, h.ok⟩
  · by_cases hxq : x = q
    · rw [hxq, hsame]
    · rw [hsf] at hx
      rw [hsn] at hx'
      rw [hup x hxq, hsp x hxq, h.frame x hx hx']
  · have hmem := ((h.own hs).2 m.page (mem_map_of_mem hm)).1
    rw [hup _ fun heq => hq (heq ▸ hmem), h.bytes m hm]
  · rw [hul, hsl, h.old x hx hout]
  · rw [hul]
    exact h.leaf j m hj x hx hx'

theorem leafPte_and_ne {page perm bit : ℕ} (h : perm &&& bit ≠ 0) :
    leafPte page perm &&& bit ≠ 0 := by
  intro hzero
  rw [leafPte, and_or_distrib_right, or_eq_zero_iff, and_or_distrib_right, or_eq_zero_iff] at hzero
  exact h hzero.1.2

variable (h : Built kend s u root 0 ms new) (hs : Table kend s root)

include h hs

theorem Built.phys {x : ℕ} (hx : x < ms.length * pgsize) :
    ∃ m ∈ ms, ms[x / pgsize]? = some m ∧ u.phys root x = m.page + x % pgsize := by
  obtain ⟨m, hmem, hm, hlook, hpa⟩ := h.leaf_at hs hx
  exact ⟨m, hmem, hm, by rw [Phys.phys, hlook, getD_some, hpa]⟩

theorem Built.phys_at {j k : ℕ} {l : Leaf}
    (hj : ms[j]? = some l) (hk : k < pgsize) : u.phys root (j * pgsize + k) = l.page + k := by
  have hend := page_end hj
  obtain ⟨l', -, hl', hphys⟩ := h.phys hs (x := j * pgsize + k) (by omega)
  have hsplit : (j * pgsize + k) / pgsize = j ∧ (j * pgsize + k) % pgsize = k := by
    unfold pgsize at *
    omega
  rw [hsplit.1, hj] at hl'
  rw [hphys, hsplit.2, Option.some.inj hl']

theorem Built.phys_eq {x m : ℕ} {l : Leaf}
    (hx : x < ms.length * pgsize) (hm : ms[m]? = some l) {k : ℕ} (hk : k < pgsize)
    (heq : u.phys root x = l.page + k) : x = m * pgsize + k := by
  obtain ⟨l', hmem', hm', hphys⟩ := h.phys hs hx
  have h1 := (h.isPage hs (mem_of_getElem? hm)).1
  have h2 := (h.isPage hs hmem').1
  have hlt : x % pgsize < pgsize := mod_lt _ (by decide)
  rw [hphys] at heq
  obtain ⟨hpage, hoff⟩ : l'.page = l.page ∧ x % pgsize = k := by
    unfold pgsize at *
    omega
  have hj : (ms.map Leaf.page)[x / pgsize]? = some l.page := by rw [getElem?_map, hm', ← hpage]; rfl
  have hj' : (ms.map Leaf.page)[m]? = some l.page := by rw [getElem?_map, hm]; rfl
  have hidx :=
    (List.getElem?_inj (List.getElem?_eq_some_iff.1 hj).1 (h.own hs).1).1 (hj.trans hj'.symm)
  rw [← hidx, ← hoff, page_add_offset]

theorem Built.stored {a n : ℕ} {f : ℕ → UInt8}
    (hst : Stored u t (fun i => u.phys root (a + i)) f n) (hn : a + n ≤ ms.length * pgsize) :
    Built kend s t root 0 (store ms a n f) new := by
  obtain ⟨hnodup, hown⟩ := h.own hs
  -- a page that is none of the leaves does not change
  have hother : ∀ x, x % pgsize = 0 → x ∉ ms.map Leaf.page → t.pages x = u.pages x := by
    intro x hal hx
    refine hst.page hal fun i hi heq => hx ?_
    obtain ⟨m, hmem, hm, hlook, hpa⟩ := h.leaf_at hs (x := a + i) (by omega)
    rw [(phys_page u root (a + i)).1, hlook, getD_some, hpa] at heq
    exact heq ▸ mem_map_of_mem hmem
  obtain ⟨htable, hnodes, hlookup⟩ := h.table.untouched hst.freelist fun x hx =>
    hother x (h.table.pages x hx).1 fun hmem => (hown x hmem).2.1 hx
  refine ⟨htable, by rw [hnodes]; exact h.nodes, ?_, fun x hx hx' => ?_, fun m hm => ?_,
    fun x hx hout => ?_, fun j m hj x hx hx' => ?_, fun m hm => ?_⟩
  · rw [store_pages, hst.freelist]
    exact h.free
  · rw [← h.frame x hx hx']
    funext k
    by_cases hal : x % pgsize = 0
    · rw [hother x hal fun hmem => hx (hown x hmem).1]
    · exact hst.frame x k fun i _ hp => absurd hp hal
  · obtain ⟨j, hj⟩ := mem_iff_getElem?.1 hm
    rw [getElem?_store, map_eq_some_iff] at hj
    obtain ⟨m₀, hm₀, rfl⟩ := hj
    have hmem := mem_of_getElem? hm₀
    have hal := (h.isPage hs hmem).1
    funext k
    change t.pages m₀.page k = if _ ∧ _ ∧ _ then _ else _
    split
    next hin =>
      obtain ⟨hk, hlow, hhigh⟩ := hin
      have hend := page_end hm₀
      obtain ⟨i, hi⟩ := Nat.exists_eq_add_of_le hlow
      have hphys : u.phys root (a + i) = m₀.page + k := by
        rw [← hi]
        exact h.phys_at hs hm₀ hk
      have hbyte := hst.bytes i (by omega)
      rw [hphys, byte_page hal hk] at hbyte
      rw [hbyte, hi, Nat.add_sub_cancel_left]
    next hout =>
      rw [← h.bytes m₀ hmem]
      refine hst.frame _ k fun i hi _ hk heq => hout ?_
      have hx := h.phys_eq hs (by omega) hm₀ hk heq.symm
      exact ⟨hk, by omega, by omega⟩
  · rw [length_store] at hout
    rw [hlookup, h.old x hx hout]
  · rw [getElem?_store, map_eq_some_iff] at hj
    obtain ⟨m₀, hm₀, rfl⟩ := hj
    rw [hlookup]
    exact h.leaf j m₀ hm₀ x hx hx'
  · obtain ⟨j, hj⟩ := mem_iff_getElem?.1 hm
    rw [getElem?_store, map_eq_some_iff] at hj
    obtain ⟨m₀, hm₀, rfl⟩ := hj
    exact ⟨(h.ok m₀ (mem_of_getElem? hm₀)).lt, (h.ok m₀ (mem_of_getElem? hm₀)).leaf⟩

/-- A page of the range gets other permissions. -/
theorem Built.chmod {j n perm : ℕ} {m : Leaf}
    (hmax : ms.length * pgsize ≤ maxva) (hj : ms[j]? = some m)
    (hr : reach u.child (path (j * pgsize)) root = some n) (hok : Leaf.Ok ⟨m.page, perm, m.bytes⟩) :
    Built kend s (written u n (px 0 (j * pgsize)) (leafPte m.page perm)) root 0
      (ms.set j ⟨m.page, perm, m.bytes⟩) new := by
  have hmaxv := maxva_lt
  have hpg : 0 < pgsize := by decide
  have hlt : j < ms.length := (List.getElem?_eq_some_iff.1 hj).1
  have hend := page_end hj
  obtain ⟨-, hown⟩ := h.own hs
  obtain ⟨hnode, -⟩ := h.table.leaf_mem hr
  obtain ⟨htable, hnodes, -, hlookup⟩ := h.table.write (show j * pgsize < 2 ^ 39 by omega) hr
    (leafPte_lt (isPage_lt (h.isPage hs (mem_of_getElem? hj))) hok.lt)
  rw [Nat.mul_div_cancel _ hpg, valid_leafPte hok.lt, if_pos rfl] at hlookup
  have hpages : (ms.set j ⟨m.page, perm, m.bytes⟩).map Leaf.page = ms.map Leaf.page := by
    apply ext_getElem?
    intro i
    rw [getElem?_map, getElem?_map, getElem?_set]
    split
    next heq =>
      subst heq
      rw [hj]
      rfl
    next => rfl
  have hframe : ∀ x, x ∉ u.nodes root →
      (written u n (px 0 (j * pgsize)) (leafPte m.page perm)).pages x = u.pages x := fun x hx =>
    written_pages fun heq => hx (heq ▸ hnode)
  refine ⟨htable, by rw [hnodes]; exact h.nodes, by rw [hpages]; exact h.free, fun x hx hx' => ?_,
    fun l hl => ?_, fun x hx hout => ?_, fun i l hi x hx hx' => ?_, fun l hl => ?_⟩
  · rw [hframe x (h.outside hx hx').2, h.frame x hx hx']
  · obtain ⟨i, hi⟩ := mem_iff_getElem?.1 hl
    rw [getElem?_set] at hi
    split at hi
    next heq =>
      cases hi
      have hmem := mem_of_getElem? hj
      rw [hframe _ (hown m.page (mem_map_of_mem hmem)).2.1]
      exact h.bytes m hmem
    next =>
      have hmem := mem_of_getElem? hi
      rw [hframe _ (hown l.page (mem_map_of_mem hmem)).2.1]
      exact h.bytes l hmem
  · rw [length_set] at hout
    have hne : x / pgsize ≠ j := by
      rintro rfl
      have h1 := div_mul_le_self x pgsize
      have h2 := lt_div_mul_add hpg (a := x)
      omega
    rw [hlookup x hx, if_neg hne, h.old x hx hout]
  · have hdiv : x / pgsize = i := by
      rw [zero_add] at hx hx'
      exact Nat.div_eq_of_lt_le hx hx'
    have hle := page_end hi
    rw [length_set] at hle
    rw [hlookup x (by rw [add_mul] at hx'; omega), hdiv]
    rw [getElem?_set] at hi
    split at hi
    next heq =>
      cases hi
      rw [if_pos heq.symm]
      rfl
    next hne =>
      rw [if_neg (Ne.symm hne)]
      exact h.leaf i l hi x hx hx'
  · rcases mem_or_eq_of_mem_set hl with hl | rfl
    · exact h.ok l hl
    · exact hok

theorem uvmclear_spec {j : ℕ} {m : Leaf}
    (hmax : ms.length * pgsize ≤ maxva) (hj : ms[j]? = some m)
    (hok : Leaf.Ok ⟨m.page, clearU m.perm, m.bytes⟩) :
    Runs (uvmclear root (j * pgsize)) u fun _ t =>
      Built kend s t root 0 (ms.set j ⟨m.page, clearU m.perm, m.bytes⟩) new := by
  have hpg : 0 < pgsize := by decide
  have hend := page_end hj
  have hlook : u.lookup root (j * pgsize) = some m.pte := by
    refine h.leaf j m hj _ (by omega) ?_
    rw [zero_add, add_mul]
    omega
  obtain ⟨n, hr, hpte, -⟩ := reach_of_lookup hlook
  have hmem := mem_of_getElem? hj
  unfold uvmclear
  refine (walk_spec h.table false (show j * pgsize < maxva by omega)).bind ?_
  rintro r t ⟨-, -, hsame, -⟩
  obtain ⟨rfl, rfl⟩ := hsame rfl
  rw [hr]
  refine Runs.reads ?_
  refine Runs.writes (s := t) ?_
  rw [hpte, Leaf.pte, clearU_leafPte (isPage_lt (h.isPage hs hmem)) (h.ok m hmem).lt]
  exact h.chmod hs hmax hj hr hok

theorem Built.usable {x : ℕ} {m : Leaf} {write : Bool} (hmax : ms.length * pgsize ≤ maxva)
    (hx : x < ms.length * pgsize) (hm : ms[x / pgsize]? = some m) (hU : m.perm &&& pteU ≠ 0)
    (hW : write = true → m.perm &&& pteW ≠ 0) :
    Usable u root write x := by
  obtain ⟨m', -, hm', hlook, -⟩ := h.leaf_at hs hx
  rw [hm] at hm'
  cases hm'
  exact ⟨by omega, m.pte, hlook, leafPte_and_ne hU, fun hw => leafPte_and_ne (hW hw)⟩

end built

section space

variable {kend root sz tramp tf : ℕ} {s u : Phys} {ms : List Leaf} {new : List ℕ}

theorem getElem?_targets {a j k : ℕ} (hj : j < k) : (s.targets root a k)[j]? =
    some (pte2pa ((s.lookup root (a + j * pgsize)).getD 0)) := by
  induction k generalizing a j with
  | zero => omega
  | succ k ih =>
    cases j with
    | zero => rw [Phys.targets, getElem?_cons_zero, zero_mul, add_zero]
    | succ j =>
      rw [Phys.targets, getElem?_cons_succ, ih (by omega),
        show a + pgsize + j * pgsize = a + (j + 1) * pgsize by ring]

theorem target_at {x pte : ℕ} (hx : x < npages sz * pgsize) (hpte : s.lookup root x = some pte) :
    (s.targets root 0 (npages sz))[x / pgsize]? = some (pte2pa pte) := by
  have hpage : s.lookup root (x / pgsize * pgsize) = some pte := by
    rw [← hpte]
    exact lookup_page (Nat.mul_div_cancel _ (by decide))
  rw [getElem?_targets (Nat.div_lt_of_lt_mul (by rwa [Nat.mul_comm])), Nat.zero_add,
    hpage, getD_some]

/-- The pages that every address space has besides its own: the trampoline is part of the kernel's
code, and the trapframe is in no other use. -/
structure KernelPages (kend : ℕ) (s : Phys) (root sz tramp tf : ℕ) : Prop where
  aligned : tramp % pgsize = 0
  pos : 0 < tramp
  code : tramp < kend
  page : IsPage kend tf
  node : tf ∉ s.nodes root
  target : tf ∉ s.targets root 0 (npages sz)

theorem UserSpace.lookup_cases (h : UserSpace kend s root sz tramp tf)
    (hk : KernelPages kend s root sz tramp tf) {x pte : ℕ} (hx : x < maxva)
    (hpte : s.lookup root x = some pte) : (s.targets root 0 (npages sz))[x / pgsize]? =
    some (pte2pa pte) ∨
    (x / pgsize = trapframe / pgsize ∧ pte2pa pte = tf) ∨
    (x / pgsize = trampoline / pgsize ∧ pte2pa pte = tramp) := by
  obtain ⟨htrap, htramp, hmaxv, -⟩ := user_layout
  have hal := hk.page.1
  have hal' := hk.aligned
  by_cases hlow : x < npages sz * pgsize
  · exact .inl (target_at hlow hpte)
  by_cases hmid : x < trapframe
  · rw [h.mem.unmapped x hmid (not_lt.1 hlow)] at hpte
    cases hpte
  rw [h.upper x (by omega) (not_lt.1 hmid), upperPte] at hpte
  split at hpte
  next hin =>
    cases hpte
    refine .inr (.inl ⟨?_, ?_⟩)
    · unfold pgsize at *
      omega
    · rw [pte2pa_leafPte (by decide)]
      unfold pgsize at hal
      omega
  next =>
    split at hpte
    next hin =>
      cases hpte
      refine .inr (.inr ⟨?_, ?_⟩)
      · unfold pgsize at *
        omega
      · rw [pte2pa_leafPte (by decide)]
        unfold pgsize at hal'
        omega
    next => cases hpte

theorem UserSpace.leaves (h : UserSpace kend s root sz tramp tf)
    (hk : KernelPages kend s root sz tramp tf) (hkend : kernbase ≤ kend) : Leaves s root := by
  have hpos : 0 < kend := lt_of_lt_of_le (by decide) hkend
  have hne : tf ≠ tramp := by
    have := hk.page.2.1
    have := hk.code
    omega
  have hown : ∀ {j p : ℕ}, (s.targets root 0 (npages sz))[j]? = some p →
      p ∈ s.targets root 0 (npages sz) ∧ p ≠ tf ∧ p ≠ tramp := by
    intro j p hj
    have hmem := mem_of_getElem? hj
    refine ⟨hmem, fun heq => hk.target (heq ▸ hmem), ?_⟩
    have := (h.mem.own p hmem).1.2.1
    have := hk.code
    omega
  refine ⟨fun x hx y hy pte pte' hpte hpte' heq => ?_, fun x hx pte hpte => ?_,
    fun x hx pte hpte => ?_⟩
  · rcases h.lookup_cases hk hx hpte with hj | ⟨hdx, hpx⟩ | ⟨hdx, hpx⟩ <;>
      rcases h.lookup_cases hk hy hpte' with hj' | ⟨hdy, hpy⟩ | ⟨hdy, hpy⟩
    · rw [← heq] at hj'
      exact (List.getElem?_inj (List.getElem?_eq_some_iff.1 hj).1 h.mem.nodup).1 (hj.trans hj'.symm)
    · exact absurd (heq.trans hpy) (hown hj).2.1
    · exact absurd (heq.trans hpy) (hown hj).2.2
    · exact absurd (heq.symm.trans hpx) (hown hj').2.1
    · exact hdx.trans hdy.symm
    · exact absurd (hpx.symm.trans (heq.trans hpy)) hne
    · exact absurd (heq.symm.trans hpx) (hown hj').2.2
    · exact absurd (hpy.symm.trans (heq.symm.trans hpx)) hne
    · exact hdx.trans hdy.symm
  · rcases h.lookup_cases hk hx hpte with hj | ⟨-, hpx⟩ | ⟨-, hpx⟩
    · have := (h.mem.own _ (hown hj).1).1.2.1
      omega
    · have := hk.page.2.1
      omega
    · have := hk.pos
      omega
  · rcases h.lookup_cases hk hx hpte with hj | ⟨-, hpx⟩ | ⟨-, hpx⟩
    · exact (h.mem.own _ (hown hj).1).2.1
    · rw [hpx]
      exact hk.node
    · rw [hpx]
      intro hmem
      have := (h.mem.table.pages _ hmem).2.1
      have := hk.code
      omega

theorem UserSpace.apart (h : UserSpace kend s root sz tramp tf)
    (hk : KernelPages kend s root sz tramp tf) {buf len q : ℕ}
    (hbuf : ∀ i < len, (buf + i) / pgsize * pgsize = q) (hq : kend ≤ q) (hframe : q ≠ tf)
    (htarget : q ∉ s.targets root 0 (npages sz)) : Apart s root buf len := by
  intro i hi x hx pte hpte heq
  rw [hbuf i hi] at heq
  rcases h.lookup_cases hk hx hpte with hj | ⟨-, hpx⟩ | ⟨-, hpx⟩
  · exact htarget (heq ▸ mem_of_getElem? hj)
  · exact hframe (heq.symm.trans hpx)
  · have := hk.code
    omega

theorem Built.space (h : Built kend s u root 0 ms new)
    (hs : UserSpace kend s root 0 tramp tf) (hkend : kernbase ≤ kend)
    (hsz : npages sz = ms.length) : UserSpace kend u root sz tramp tf := by
  have hlen := h.length_le hs.mem.table hkend
  have hsz37 : sz < 2 ^ 37 := by
    unfold npages at hsz
    omega
  have hzero : npages 0 * pgsize = 0 := by decide
  have htrap := trapframe_eq
  refine ⟨hs.mem.grown hsz37 (hsz.trans (zero_add _).symm) (hzero ▸ h), fun x hx hxt => ?_⟩
  rw [h.old x hx ?_, hs.upper x hx hxt]
  have hle : ms.length * pgsize ≤ 2 ^ 27 := by
    unfold pgsize
    omega
  omega

end space

end Xv6.Vm
