import Xv6.Transition
import Xv6.UserBuild

/-!
# The size of a process and its mappings

`growproc` keeps the user mappings of a process in step with `p->sz`: they are the pages below the
rounded size, each to a page of its own. Growing takes pages one by one and gives all of them back
when one is missing; shrinking gives back the pages above the new size.
-/

namespace Xv6.Vm

open Xv6.Radix List Function Nat

/-- The user mappings are exactly the pages below the rounded size, each to a page of its own that
is neither free nor part of the table. -/
structure UserMem (kend : ℕ) (s : Phys) (root sz : ℕ) : Prop where
  table : Table kend s root
  bound : sz ≤ trapframe
  mapped : ∀ x < npages sz * pgsize, ∃ pte, s.lookup root x = some pte ∧ pteFlags pte ≠ pteV
  unmapped : ∀ x < trapframe, npages sz * pgsize ≤ x → s.lookup root x = none
  nodup : (s.targets root 0 (npages sz)).Nodup
  own : ∀ p ∈ s.targets root 0 (npages sz), IsPage kend p ∧ p ∉ s.nodes root ∧ p ∉ s.freelist

theorem trapframe_eq :
    trapframe = 274877898752 := by norm_num [trapframe, trampoline, maxva, pgsize]

theorem user_layout : trapframe = 274877898752 ∧ trampoline = 274877902848 ∧ maxva = 274877906944 ∧
    pgsize = 4096 :=
  ⟨trapframe_eq, by norm_num [trampoline, maxva, pgsize], maxva_eq, rfl⟩

section shrink

variable {kend root sz lo k : ℕ} {s t : Phys}

theorem UserMem.npages_le (hs : UserMem kend s root sz) (hkend : kernbase ≤ kend) :
    npages sz ≤ 32768 := by
  have hle := length_le_of_isPage hkend hs.nodup fun p hp => (hs.own p hp).1
  rwa [length_targets] at hle

theorem UserMem.suffix {m : ℕ} (hs : UserMem kend s root sz) (hmk : m + k = npages sz)
    (hmax : npages sz * pgsize ≤ maxva) : Mapped kend s root (m * pgsize) k true := by
  have hsplit := targets_add s root 0 m k
  rw [zero_add, hmk] at hsplit
  have hnd := hs.nodup
  rw [hsplit, nodup_append] at hnd
  refine ⟨?_, fun j hj => ?_, fun _ => ⟨hnd.2.1, fun p hp => ?_⟩⟩
  · rw [← add_mul, hmk]
    exact hmax
  · refine hs.mapped _ ?_
    rw [← add_mul]
    exact mul_lt_mul_of_pos_right (by omega) (by decide)
  · refine hs.own p ?_
    rw [hsplit]
    exact mem_append_right _ hp

theorem UserMem.le_trapframe (hs : UserMem kend s root sz) : npages sz * pgsize ≤ trapframe := by
  have hbound := hs.bound
  rw [trapframe_eq] at hbound ⊢
  unfold npages pgsize
  omega

theorem UserMem.congr (hs : UserMem kend s root sz) (ht : Table kend t root)
    (hlook : ∀ x < trapframe, t.lookup root x = s.lookup root x)
    (hown : ∀ p ∈ s.targets root 0 (npages sz), p ∉ t.nodes root ∧ p ∉ t.freelist) :
    UserMem kend t root sz := by
  have hle := hs.le_trapframe
  have htargets : t.targets root 0 (npages sz) = s.targets root 0 (npages sz) := by
    refine targets_congr fun j hj => hlook _ ?_
    have hlt : j * pgsize < npages sz * pgsize := mul_lt_mul_of_pos_right hj (by decide)
    omega
  refine ⟨ht, hs.bound, fun x hx => ?_, fun x hx hnx => ?_, htargets ▸ hs.nodup, fun p hp => ?_⟩
  · rw [hlook x (by omega)]
    exact hs.mapped x hx
  · rw [hlook x hx]
    exact hs.unmapped x hx hnx
  · rw [htargets] at hp
    exact ⟨(hs.own p hp).1, hown p hp⟩

theorem UserMem.shrink {newsz : ℕ} {fr : List ℕ} (hs : UserMem kend s root sz)
    (hkend : kernbase ≤ kend) (hle : newsz ≤ sz) (hk : npages sz = npages newsz + k)
    (hun : Unmaps kend s t root (npages newsz * pgsize) k fr)
    (hfr : fr.Perm (s.targets root (npages newsz * pgsize) k)) :
    UserMem kend t root newsz ∧ ∀ x < 2 ^ 39, npages sz * pgsize ≤ x →
    t.lookup root x = s.lookup root x := by
  have hsmall := hs.npages_le hkend
  have htrap := trapframe_eq
  have hend : npages newsz * pgsize + k * pgsize = npages sz * pgsize := by rw [hk, add_mul]
  have hpages : npages sz * pgsize ≤ 2 ^ 27 := by
    unfold pgsize
    omega
  have hlow : ∀ x < npages newsz * pgsize, t.lookup root x = s.lookup root x := by
    intro x hx
    rw [hun.lookup x (by omega), if_neg (by omega)]
  have hsplit := targets_add s root 0 (npages newsz) k
  rw [zero_add, ← hk] at hsplit
  have hsame : t.targets root 0 (npages newsz) = s.targets root 0 (npages newsz) := by
    refine targets_congr fun j hj => ?_
    rw [zero_add]
    exact hlow _ (mul_lt_mul_of_pos_right hj (by decide))
  have hnd := hs.nodup
  rw [hsplit, nodup_append] at hnd
  refine ⟨⟨hun.table, hle.trans hs.bound, fun x hx => ?_, fun x hx hnx => ?_, ?_, fun p hp => ?_⟩,
    fun x hx hnx => ?_⟩
  · rw [hlow x hx]
    exact hs.mapped x (by omega)
  · rw [hun.lookup x (by omega)]
    split
    · rfl
    · exact hs.unmapped x hx (by omega)
  · rw [hsame]
    exact hnd.1
  · rw [hsame] at hp
    have hp' : p ∈ s.targets root 0 (npages sz) := by
      rw [hsplit]
      exact mem_append_left _ hp
    obtain ⟨hP, hnode, hfree⟩ := hs.own p hp'
    refine ⟨hP, by rw [hun.nodes]; exact hnode, fun hmem => ?_⟩
    rw [hun.free.mem_iff, mem_append, hfr.mem_iff] at hmem
    rcases hmem with hmem | hmem
    · exact hnd.2.2 p hp p hmem rfl
    · exact hfree hmem
  · rw [hun.lookup x hx, if_neg (by omega)]

end shrink

section grow

variable {kend root sz : ℕ} {s t : Phys} {ms : List Leaf} {new : List ℕ}

def taken (s : Phys) (page : ℕ) (answers : List ℕ) : Phys :=
  { pages := update (update s.pages page fun _ => 5) page fun _ => 0
    freelist := s.freelist.erase page
    answers := answers }

theorem heap_perm : pteR ||| pteU ||| pteW < 1024 := by decide

theorem UserMem.grown {newsz : ℕ} (hs : UserMem kend s root sz) (hnew : newsz < 2 ^ 37)
    (hk : npages newsz = npages sz + ms.length)
    (h : Built kend s t root (npages sz * pgsize) ms new) : UserMem kend t root newsz := by
  have htrap := trapframe_eq
  have hend : npages newsz * pgsize = npages sz * pgsize + ms.length * pgsize := by rw [hk, add_mul]
  have hbound : npages newsz * pgsize < 2 ^ 38 := by
    unfold npages pgsize
    omega
  obtain ⟨hnd, hown⟩ := h.own hs.table
  have hlow : t.targets root 0 (npages sz) = s.targets root 0 (npages sz) := by
    refine targets_congr fun j hj => ?_
    have hlt : j * pgsize < npages sz * pgsize := mul_lt_mul_of_pos_right hj (by decide)
    exact h.old _ (by omega) (by omega)
  have hsplit := targets_add t root 0 (npages sz) ms.length
  rw [zero_add, ← hk, hlow, h.targets hs.table] at hsplit
  refine ⟨h.table, by omega, fun x hx => ?_, fun x hx hnx => ?_, ?_, fun p hp => ?_⟩
  · by_cases hold : x < npages sz * pgsize
    · rw [h.old x (by omega) (by omega)]
      exact hs.mapped x hold
    · exact h.flags hs.table (by omega) (by omega)
  · rw [h.old x (by omega) (by omega)]
    exact hs.unmapped x hx (by omega)
  · rw [hsplit, nodup_append]
    refine ⟨hs.nodup, hnd, fun p hp q hq heq => ?_⟩
    exact (hs.own p hp).2.2 (heq ▸ (hown q hq).1)
  · rw [hsplit, mem_append] at hp
    rcases hp with hp | hp
    · obtain ⟨hP, hnode, hfree⟩ := hs.own p hp
      have hout : p ∉ new ++ (ms.map Leaf.page ++ t.freelist) := by
        rw [← h.free.mem_iff]
        exact hfree
      simp only [mem_append, not_or] at hout
      refine ⟨hP, fun hmem => ?_, hout.2.2⟩
      rw [h.nodes.mem_iff, mem_append] at hmem
      exact hmem.elim hout.1 hnode
    · exact ⟨hs.table.free_pages p (hown p hp).1, (hown p hp).2⟩

/-- What a call of `growproc` leaves behind: the mappings agree with the size, those above the user
range are as before, and after a failure so are the size and all mappings, and no page is missing
but for page-table pages. -/
structure Resized (kend : ℕ) (s : Phys) (root sz : ℕ) (r : Bool × ℕ) (t : Phys) : Prop where
  user : UserMem kend t root r.2
  above : ∀ x < 2 ^ 39, trapframe ≤ x → t.lookup root x = s.lookup root x
  failed : r.1 = false → r.2 = sz ∧ (∀ x < 2 ^ 39, t.lookup root x = s.lookup root x) ∧
    ∃ new, (t.nodes root).Perm (new ++ s.nodes root) ∧ s.freelist.Perm (new ++ t.freelist)

theorem growproc_spec {n : ℤ} (hkend : kernbase ≤ kend) (hs : UserMem kend s root sz)
    (hn : n < 2 ^ 31) (hn' : -2 ^ 31 ≤ n) :
    Runs (growproc kend root sz n) s (Resized kend s root sz) := by
  have hsmall := hs.npages_le hkend
  have htrap := trapframe_eq
  have hpg : pgsize = 4096 := rfl
  have hsz : sz ≤ npages sz * pgsize := by
    unfold npages pgsize
    omega
  have hsz27 : npages sz * pgsize ≤ 2 ^ 27 := by
    rw [hpg]
    omega
  have hsame : Resized kend s root sz (true, sz) s :=
    ⟨hs, fun _ _ _ => rfl, fun h => Bool.noConfusion h⟩
  unfold growproc
  rcases lt_trichotomy n 0 with hneg | rfl | hpos
  · rw [if_neg (by omega), if_pos hneg]
    rcases le_or_gt 0 ((sz : ℤ) + n) with hge | hlt
    · -- the new size is smaller, and the pages above it go
      obtain ⟨newsz, hnewsz⟩ := Int.eq_ofNat_of_zero_le hge
      have hu64 : toU64 ((sz : ℤ) + n) = newsz := by
        rw [hnewsz, toU64]
        omega
      have hle : newsz ≤ sz := by omega
      obtain ⟨k, hk⟩ : ∃ k, npages sz = npages newsz + k := by
        refine ⟨npages sz - npages newsz, ?_⟩
        have : npages newsz ≤ npages sz := by
          unfold npages
          omega
        omega
      have hmapped := hs.suffix hk.symm (by rw [maxva_eq]; omega)
      rw [hu64]
      refine (uvmdealloc_spec hs.table (by omega) hle hk hmapped).bind ?_
      rintro r t ⟨rfl, fr, hun, hfr⟩
      obtain ⟨huser, habove⟩ := hs.shrink hkend hle hk hun hfr
      refine Runs.ret ⟨huser, fun x hx hxt => habove x hx (by omega), fun h => Bool.noConfusion h⟩
    · -- the difference wraps around, and nothing happens
      have hwrap : toU64 ((sz : ℤ) + n) ≥ sz := by
        unfold toU64
        omega
      have hnop : Runs (uvmdealloc kend root sz (toU64 ((sz : ℤ) + n))) s
          fun r t => r = sz ∧ t = s := by
        unfold uvmdealloc
        rw [if_pos hwrap]
        exact Runs.ret ⟨rfl, rfl⟩
      refine hnop.bind ?_
      rintro r t ⟨rfl, rfl⟩
      exact Runs.ret hsame
  · exact Runs.ret hsame
  · rw [if_pos hpos]
    obtain ⟨d, rfl⟩ := Int.eq_ofNat_of_zero_le hpos.le
    have hadd : add64 sz (Int.toNat (d : ℤ)) = sz + d := by
      rw [Int.toNat_natCast, add64, mod_eq_of_lt (by omega)]
    have hdpos : 0 < d := by exact_mod_cast hpos
    rw [hadd]
    refine (uvmalloc_built hkend hs.table (by omega) (le_add_right sz d) heap_perm fun x hx hx' =>
      hs.unmapped x (by omega) hx).bind ?_
    rintro r t (⟨rfl, ds, new, hbuilt, hlen⟩ | ⟨rfl, hlt, new, hbuilt⟩)
    · rw [if_neg (by omega)]
      have hk : npages (sz + d) = npages sz + (ds.map (heapLeaf pteW)).length := by
        rw [length_map]
        exact hlen
      refine Runs.ret ⟨hs.grown (by omega) hk hbuilt, fun x hx hxt => hbuilt.old x hx fun hin => ?_,
        fun h => Bool.noConfusion h⟩
      have hin2 := hin.2
      rw [← add_mul, ← hk, hpg] at hin2
      unfold npages at hin2
      omega
    · rw [if_pos rfl]
      have hback : ∀ x < 2 ^ 39, t.lookup root x = s.lookup root x := fun x hx =>
        hbuilt.old x hx (by rw [length_nil]; omega)
      exact Runs.ret ⟨hs.grown (by omega) rfl hbuilt, fun x hx _ => hback x hx,
        fun _ => ⟨rfl, hback, new, hbuilt.nodes, hbuilt.free⟩⟩

end grow

section runs

variable {kend root sz : ℕ} {s t u : Phys}

theorem UserMem.answers (hs : UserMem kend s root sz) (answers : List ℕ) :
    UserMem kend { s with answers := answers } root sz ∧
      (∀ x, Phys.lookup { s with answers := answers } root x = s.lookup root x) ∧
      (Phys.nodes { s with answers := answers } root).Perm (s.nodes root) := by
  have hgr := Grows.answers hs.table answers
  refine ⟨hs.congr hgr.table (fun x _ => hgr.lookup x)
    fun p hp => ⟨fun hmem => (hs.own p hp).2.1 ?_, (hs.own p hp).2.2⟩, hgr.lookup, hgr.nodes⟩
  rwa [hgr.nodes.mem_iff, nil_append] at hmem

/-- A call `growproc(n)`, with the answers that `kalloc` gives in it. It is no step if it panics. -/
def growStep (kend root : ℕ) (s : Phys × ℕ) (c : ℤ × List ℕ) : Option (Phys × ℕ) :=
  match growproc kend root s.2 c.1 { s.1 with answers := c.2 } with
  | .ok ((_, sz), t) => some (t, sz)
  | .error _ => none

/-- The trapframe and the trampoline are all that is mapped above the user range. -/
structure Upper (s : Phys) (root : ℕ) : Prop where
  mapped : ∀ x, trapframe ≤ x → x < maxva → ∃ pte, s.lookup root x = some pte ∧ pteFlags pte ≠ pteV
  unmapped : ∀ x < 2 ^ 39, maxva ≤ x → s.lookup root x = none

theorem Upper.congr (h : Upper s root)
    (heq : ∀ x < 2 ^ 39, trapframe ≤ x → t.lookup root x = s.lookup root x) : Upper t root := by
  have hmax := maxva_lt
  have htrap : trapframe ≤ maxva := by decide
  refine ⟨fun x hx hx' => ?_, fun x hx hx' => ?_⟩
  · rw [heq x (by omega) hx]
    exact h.mapped x hx hx'
  · rw [heq x hx (by omega)]
    exact h.unmapped x hx hx'

theorem growStep_spec {n : ℤ} (hkend : kernbase ≤ kend) (hs : UserMem kend s root sz)
    (hup : Upper s root) (hn : n < 2 ^ 31) (hn' : -2 ^ 31 ≤ n) (answers : List ℕ) :
    ∃ r t, growproc kend root sz n { s with answers := answers } = .ok (r, t) ∧
      Resized kend s root sz r t ∧ Upper t root := by
  obtain ⟨hs', hlookup, hnodes⟩ := hs.answers answers
  obtain ⟨r, t, hrun, huser, habove, hfailed⟩ := growproc_spec hkend hs' hn hn'
  have habove' : ∀ x < 2 ^ 39, trapframe ≤ x → t.lookup root x = s.lookup root x := by
    intro x hx hxt
    rw [habove x hx hxt, hlookup]
  refine ⟨r, t, hrun, ⟨huser, habove', fun hr => ?_⟩, hup.congr habove'⟩
  obtain ⟨hsz, hsame, new, hn1, hn2⟩ := hfailed hr
  refine ⟨hsz, fun x hx => ?_, new, hn1.trans (hnodes.append_left new), hn2⟩
  rw [hsame x hx, hlookup]

theorem unmap_page {va : ℕ} (hs : Table kend s root) (hal : va % pgsize = 0)
    (hva : va + pgsize ≤ maxva) (hm : ∃ pte, s.lookup root va = some pte ∧ pteFlags pte ≠ pteV) :
    Runs (uvmunmap kend root va 1 false) s fun _ t => Table kend t root ∧
      t.nodes root = s.nodes root ∧ t.freelist.Perm s.freelist ∧
      (∀ x, x ∉ s.nodes root → t.pages x = s.pages x) ∧
      ∀ x < 2 ^ 39, t.lookup root x =
      if va ≤ x ∧ x < va + pgsize then none else s.lookup root x := by
  have hmapped : Mapped kend s root va 1 false := by
    refine ⟨by rwa [one_mul], fun j hj => ?_, fun h => Bool.noConfusion h⟩
    obtain rfl : j = 0 := by omega
    rwa [zero_mul, add_zero]
  refine (uvmunmap_spec hs hal hmapped).mono ?_
  rintro - t ⟨fr, hun, hfr⟩
  have hnil : fr = [] := List.Perm.eq_nil hfr
  refine ⟨hun.table, hun.nodes, ?_, fun x hx => hun.frame x hx (by simp [hnil]), fun x hx => ?_⟩
  · have hfree := hun.free
    rwa [hnil, nil_append] at hfree
  · rw [hun.lookup x hx, one_mul]

theorem procFreepagetable_spec (hkend : kernbase ≤ kend) (hs : UserMem kend s root sz)
    (hup : Upper s root) (depth : ℕ) :
    Runs (procFreepagetable kend (depth + 3) root sz) s fun _ t =>
      t.freelist.Perm (s.nodes root ++ (s.targets root 0 (npages sz) ++ s.freelist)) ∧
      ∀ x, x ∉ s.nodes root → x ∉ s.targets root 0 (npages sz) → t.pages x = s.pages x := by
  have hsmall := hs.npages_le hkend
  obtain ⟨htrap, htramp, hmaxv, hpg⟩ := user_layout
  have hsz27 : npages sz * pgsize ≤ 2 ^ 27 := by
    rw [hpg]
    omega
  unfold procFreepagetable
  refine (unmap_page hs.table (by decide) (by omega)
    (hup.mapped trampoline (by omega) (by omega))).bind ?_
  rintro - t₁ ⟨ht₁, hn₁, hf₁, hp₁, hl₁⟩
  have hframe : ∃ pte, t₁.lookup root trapframe = some pte ∧ pteFlags pte ≠ pteV := by
    rw [hl₁ _ (by omega), if_neg (by omega)]
    exact hup.mapped trapframe le_rfl (by omega)
  refine (unmap_page ht₁ (by decide) (by omega) hframe).bind ?_
  rintro - t₂ ⟨ht₂, hn₂, hf₂, hp₂, hl₂⟩
  have hlow : ∀ x < trapframe, t₂.lookup root x = s.lookup root x := by
    intro x hx
    rw [hl₂ x (by omega), if_neg (by omega), hl₁ x (by omega), if_neg (by omega)]
  have hhigh : ∀ x < 2 ^ 39, trapframe ≤ x → t₂.lookup root x = none := by
    intro x hx hxt
    rw [hl₂ x hx, hl₁ x hx]
    by_cases h1 : x < trapframe + pgsize
    · rw [if_pos ⟨hxt, h1⟩]
    · rw [if_neg (by omega)]
      by_cases h2 : x < trampoline + pgsize
      · rw [if_pos ⟨by omega, h2⟩]
      · rw [if_neg (by omega)]
        exact hup.unmapped x hx (by omega)
  have htargets : t₂.targets root 0 (npages sz) = s.targets root 0 (npages sz) := by
    refine targets_congr fun j hj => hlow _ ?_
    have hlt : j * pgsize < npages sz * pgsize := mul_lt_mul_of_pos_right hj (by decide)
    omega
  have hfree₂ : t₂.freelist.Perm s.freelist := hf₂.trans hf₁
  have hnodes₂ : t₂.nodes root = s.nodes root := hn₂.trans hn₁
  have hpages₂ : ∀ x, x ∉ s.nodes root → t₂.pages x = s.pages x := fun x hx =>
    (hp₂ x (by rwa [hn₁])).trans (hp₁ x hx)
  have hs₂ : UserMem kend t₂ root sz := hs.congr ht₂ hlow fun p hp =>
    ⟨by rw [hnodes₂]; exact (hs.own p hp).2.1,
      fun hmem => (hs.own p hp).2.2 (hfree₂.mem_iff.1 hmem)⟩
  have habove : ∀ x < 2 ^ 39, npages sz * pgsize ≤ x → t₂.lookup root x = none := by
    intro x hx hge
    rcases lt_or_ge x trapframe with hxt | hxt
    · exact hs₂.unmapped x hxt hge
    · exact hhigh x hx hxt
  -- the data pages
  have hdata : Runs (if sz > 0 then uvmunmap kend root 0 (pgroundup sz / pgsize) true
      else pure () : M Unit) t₂ fun _ t₃ => Table kend t₃ root ∧ t₃.nodes root = s.nodes root ∧
        t₃.freelist.Perm (s.targets root 0 (npages sz) ++ s.freelist) ∧
        (∀ x, x ∉ s.nodes root → x ∉ s.targets root 0 (npages sz) → t₃.pages x = s.pages x) ∧
        ∀ x < 2 ^ 39, t₃.lookup root x = none := by
    have hmapped := hs₂.suffix (zero_add (npages sz)) (by omega)
    have hcount : pgroundup sz / pgsize = npages sz := by
      rw [pgroundup_eq (by have := hs.bound; omega)]
      exact Nat.mul_div_cancel _ (by decide)
    rw [zero_mul] at hmapped
    by_cases hpos : sz > 0
    · rw [if_pos hpos, hcount]
      refine (uvmunmap_spec ht₂ (by decide) hmapped).mono ?_
      rintro - t₃ ⟨fr, hun, hfr⟩
      rw [if_pos rfl, htargets] at hfr
      refine ⟨hun.table, hun.nodes.trans hnodes₂, hun.free.trans (hfr.append hfree₂),
        fun x hx hx' => ?_, fun x hx => ?_⟩
      · rw [hun.frame x (by rwa [hnodes₂]) fun hmem => hx' (hfr.mem_iff.1 hmem), hpages₂ x hx]
      · rw [hun.lookup x hx, zero_add]
        split_ifs with hin
        · rfl
        · exact habove x hx (by omega)
    · obtain rfl : sz = 0 := by omega
      rw [if_neg hpos]
      exact Runs.ret ⟨ht₂, hnodes₂, hfree₂, fun x hx _ => hpages₂ x hx,
        fun x hx => habove x hx (by simp [npages])⟩
  unfold uvmfree
  refine hdata.bind ?_
  rintro - t₃ ⟨ht₃, hn₃, hf₃, hp₃, hnone⟩
  refine (freewalk_spec depth (ht₃.bare hnone)).mono ?_
  rintro - t₄ ⟨hf₄, hp₄⟩
  change t₄.freelist.Perm (t₃.nodes root ++ t₃.freelist) at hf₄
  change ∀ x ∉ t₃.nodes root, t₄.pages x = t₃.pages x at hp₄
  rw [hn₃] at hf₄ hp₄
  exact ⟨hf₄.trans (hf₃.append_left _), fun x hx hx' => (hp₄ x hx).trans (hp₃ x hx hx')⟩

theorem map_page {va pa perm : ℕ} (hs : Table kend s root) (hal : va % pgsize = 0)
    (hva : va + pgsize ≤ maxva) (hpa : pa < 2 ^ 64) (hperm : perm < 1024)
    (hfree : ∀ x, va ≤ x → x < va + pgsize → s.lookup root x = none) :
    Runs (mappages root va pgsize pa perm) s fun r t => ∃ new, Table kend t root ∧
      (t.nodes root).Perm (new ++ s.nodes root) ∧ s.freelist.Perm (new ++ t.freelist) ∧
      (∀ x, x ∉ s.freelist → x ∉ s.nodes root → t.pages x = s.pages x) ∧
      ∀ x < 2 ^ 39, t.lookup root x = if r = true ∧ va ≤ x ∧ x < va + pgsize then
        some (leafPte pa perm) else s.lookup root x := by
  have hpg : pgsize = 4096 := rfl
  refine (mappages_one hs hal hva hpa hperm hfree).mono ?_
  rintro r t ⟨new, hr⟩
  have hframe : ∀ {j}, Maps kend s t root va pa perm j new → ∀ x, x ∉ s.freelist →
      x ∉ s.nodes root → t.pages x = s.pages x := fun hm x hx => hm.frame x fun hmem =>
    hx (hm.free.mem_iff.2 (mem_append_left _ hmem))
  rcases hr with ⟨rfl, hm⟩ | ⟨rfl, hm⟩
  · refine ⟨new, hm.table, hm.nodes, hm.free, hframe hm, fun x hx => ?_⟩
    rw [hm.lookup x hx, one_mul]
    by_cases hin : va ≤ x ∧ x < va + pgsize
    · have hzero : (x - va) / pgsize = 0 := by
        rw [Nat.div_eq_zero_iff]
        omega
      rw [if_pos hin, if_pos ⟨rfl, hin⟩, hzero, zero_mul, add_zero, mod_eq_of_lt hpa]
    · rw [if_neg hin, if_neg fun h => hin h.2]
  · refine ⟨new, hm.table, hm.nodes, hm.free, hframe hm, fun x hx => ?_⟩
    rw [hm.lookup x hx, if_neg (by omega), if_neg (by simp)]

theorem uvmfree_empty (hs : Table kend s root) (hnone : ∀ x < 2 ^ 39, s.lookup root x = none)
    (depth : ℕ) : Runs (uvmfree kend (depth + 3) root 0) s fun _ t => Frees s t (s.nodes root) := by
  unfold uvmfree
  rw [if_neg (by omega)]
  refine Runs.bind (Q := fun _ t => t = s) (Runs.ret rfl) ?_
  rintro - t rfl
  exact freewalk_spec depth (hs.bare hnone)

def upperPte (tramp tf x : ℕ) : Option ℕ :=
  if trapframe ≤ x ∧ x < trapframe + pgsize then some (leafPte tf (pteR ||| pteW))
  else if trampoline ≤ x ∧ x < trampoline + pgsize then some (leafPte tramp (pteR ||| pteX))
  else none

structure UserSpace (kend : ℕ) (s : Phys) (root sz tramp tf : ℕ) : Prop where
  mem : UserMem kend s root sz
  upper : ∀ x < 2 ^ 39, trapframe ≤ x → s.lookup root x = upperPte tramp tf x

theorem UserSpace.to_upper {tramp tf : ℕ}
    (h : UserSpace kend s root sz tramp tf) : Upper s root := by
  obtain ⟨htrap, htramp, hmaxv, hpg⟩ := user_layout
  refine ⟨fun x hx hx' => ?_, fun x hx hx' => ?_⟩
  · rw [h.upper x (by omega) hx, upperPte]
    by_cases hin : x < trapframe + pgsize
    · rw [if_pos ⟨hx, hin⟩]
      refine ⟨_, rfl, ?_⟩
      rw [pteFlags_leafPte _ (by decide)]
      decide
    · rw [if_neg (by omega), if_pos (by omega)]
      refine ⟨_, rfl, ?_⟩
      rw [pteFlags_leafPte _ (by decide)]
      decide
  · rw [h.upper x hx (by omega), upperPte, if_neg (by omega), if_neg (by omega)]

/-- A table that is being made: it has what has left the free list, and nothing else has changed. -/
structure Making (kend : ℕ) (s t : Phys) (pt : ℕ) : Prop where
  table : Table kend t pt
  free : s.freelist.Perm (t.nodes pt ++ t.freelist)
  pages : ∀ x, x ∉ s.freelist → t.pages x = s.pages x

theorem uvmcreate_making (hnd : s.freelist.Nodup) (hpages : ∀ p ∈ s.freelist, IsPage kend p) :
    Runs uvmcreate s fun r t => (r = none ∧ t.freelist = s.freelist ∧ t.pages = s.pages) ∨
      ∃ pt, r = some pt ∧ Making kend s t pt ∧ ∀ x, t.lookup pt x = none := by
  unfold uvmcreate
  rcases kalloc_cases s with ⟨answers, hk⟩ | ⟨pt, hpt, answers, hk⟩
  · exact ⟨none, _, bind_of_ok hk, .inl ⟨rfl, rfl, rfl⟩⟩
  · refine ⟨some pt, taken s pt answers, bind_of_ok hk, .inr ⟨pt, rfl, ?_⟩⟩
    have hempty : Table kend (taken s pt answers) pt ∧ ∀ x,
        (taken s pt answers).lookup pt x = none :=
      Table.empty (by simp [taken]) (hpages pt hpt) (hnd.erase pt)
        (fun p hp => hpages p (mem_of_mem_erase hp)) hnd.not_mem_erase
    have hnodes : (taken s pt answers).nodes pt = [pt] := nodes_bare fun i => by
      simp [Phys.child, Phys.pte, taken, Page.pte_zero, valid]
    refine ⟨⟨hempty.1, ?_, fun x hx => ?_⟩, hempty.2⟩
    · rw [hnodes]
      exact perm_cons_erase hpt
    · have hne : x ≠ pt := fun heq => hx (heq ▸ hpt)
      simp [taken, hne]

namespace Making

variable {pt : ℕ}

/-- What the table has is not outside the free list. -/
theorem outside (h : Making kend s t pt) {x : ℕ} (hx : x ∉ s.freelist) :
    x ∉ t.freelist ∧ x ∉ t.nodes pt := by
  rw [h.free.mem_iff, mem_append, not_or] at hx
  exact hx.symm

theorem map {va pa perm : ℕ} (h : Making kend s t pt) (hal : va % pgsize = 0)
    (hva : va + pgsize ≤ maxva) (hpa : pa < 2 ^ 64) (hperm : perm < 1024)
    (hfree : ∀ x, va ≤ x → x < va + pgsize → t.lookup pt x = none) :
    Runs (mappages pt va pgsize pa perm) t fun r u => Making kend s u pt ∧
      ∀ x < 2 ^ 39, u.lookup pt x = if r = true ∧ va ≤ x ∧ x < va + pgsize then
        some (leafPte pa perm) else t.lookup pt x := by
  refine (map_page h.table hal hva hpa hperm hfree).mono ?_
  rintro r u ⟨new, htable, hnodes, hfree', hpages, hlook⟩
  refine ⟨⟨htable, ?_, fun x hx => ?_⟩, hlook⟩
  · refine h.free.trans ((hfree'.append_left _).trans ?_)
    refine (perm_append_comm_assoc _ _ _).trans ?_
    rw [← append_assoc]
    exact hnodes.symm.append_right _
  · obtain ⟨hfreelist, hnode⟩ := h.outside hx
    exact (hpages x hfreelist hnode).trans (h.pages x hx)

theorem unmap {va : ℕ} (h : Making kend s t pt) (hal : va % pgsize = 0) (hva : va + pgsize ≤ maxva)
    (hm : ∃ pte, t.lookup pt va = some pte ∧ pteFlags pte ≠ pteV) :
    Runs (uvmunmap kend pt va 1 false) t fun _ u => Making kend s u pt ∧
      ∀ x < 2 ^ 39, u.lookup pt x = if va ≤ x ∧ x < va + pgsize then none else t.lookup pt x := by
  refine (unmap_page h.table hal hva hm).mono ?_
  rintro - u ⟨htable, hnodes, hfree, hpages, hlook⟩
  refine ⟨⟨htable, ?_, fun x hx => (hpages x (h.outside hx).2).trans (h.pages x hx)⟩, hlook⟩
  rw [hnodes]
  exact h.free.trans (hfree.symm.append_left _)

/-- An empty table is given back. -/
theorem discard (h : Making kend s t pt) (hnone : ∀ x < 2 ^ 39, t.lookup pt x = none) (depth : ℕ) :
    Runs (uvmfree kend (depth + 3) pt 0) t fun _ u => u.freelist.Perm s.freelist ∧
      ∀ x, x ∉ s.freelist → u.pages x = s.pages x := by
  refine (uvmfree_empty h.table hnone depth).mono ?_
  rintro - u ⟨hfree, hpages⟩
  exact ⟨hfree.trans h.free.symm, fun x hx => (hpages x (h.outside hx).2).trans (h.pages x hx)⟩

/-- With the trapframe and the trampoline the table is that of a process without memory. -/
theorem userSpace {tramp tf : ℕ} (h : Making kend s t pt)
    (hlook : ∀ x < 2 ^ 39, t.lookup pt x = upperPte tramp tf x) :
    UserSpace kend t pt 0 tramp tf := by
  obtain ⟨htrap, htramp, hmaxv, hpg⟩ := user_layout
  refine ⟨⟨h.table, zero_le _, fun x hx => ?_, fun x hx _ => ?_, nodup_nil, fun p hp => ?_⟩,
    fun x hx _ => hlook x hx⟩
  · simp [npages] at hx
  · rw [hlook x (by omega), upperPte, if_neg (by omega), if_neg (by omega)]
  · cases hp

end Making

/-- `proc_pagetable` makes a table with the trapframe and the trampoline and an empty user range, or
gives back every page it took. -/
theorem procPagetable_spec {tramp tf : ℕ} (hnd : s.freelist.Nodup)
    (hpages : ∀ p ∈ s.freelist, IsPage kend p) (htp : tramp < 2 ^ 64)
    (hfp : tf < 2 ^ 64) (depth : ℕ) :
    Runs (procPagetable kend (depth + 3) tramp tf) s fun r t =>
      (∀ x, x ∉ s.freelist → t.pages x = s.pages x) ∧
      match r with
      | some pt => UserSpace kend t pt 0 tramp tf ∧ s.freelist.Perm (t.nodes pt ++ t.freelist)
      | none => t.freelist.Perm s.freelist := by
  obtain ⟨htrap, htramp, hmaxv, hpg⟩ := user_layout
  unfold procPagetable
  refine (uvmcreate_making hnd hpages).bind ?_
  rintro _ t₀ (⟨rfl, hfree, hsame⟩ | ⟨pt, rfl, hmake, hempty⟩)
  · exact Runs.ret ⟨fun x _ => congrFun hsame x, hfree ▸ List.Perm.refl _⟩
  · refine (hmake.map (by decide) (by omega) htp (by decide) fun x _ _ => hempty x).bind ?_
    rintro ok₁ t₁ ⟨hmake₁, hlook₁⟩
    cases ok₁ with
    | false =>
      rw [if_neg (by simp)]
      refine (hmake₁.discard (fun x hx => ?_) depth).bind fun _ _ h => Runs.ret ⟨h.2, h.1⟩
      rw [hlook₁ x hx, if_neg (by simp), hempty]
    | true =>
      rw [if_pos rfl]
      refine (hmake₁.map (by decide) (by omega) hfp (by decide) fun x hx hx' => ?_).bind ?_
      · rw [hlook₁ x (by omega), if_neg (by omega), hempty]
      rintro ok₂ t₂ ⟨hmake₂, hlook₂⟩
      cases ok₂ with
      | false =>
        rw [if_neg (by simp)]
        have hone : ∃ pte, t₂.lookup pt trampoline = some pte ∧ pteFlags pte ≠ pteV := by
          rw [hlook₂ _ (by omega), if_neg (by simp), hlook₁ _ (by omega),
            if_pos ⟨rfl, le_rfl, by omega⟩]
          refine ⟨_, rfl, ?_⟩
          rw [pteFlags_leafPte _ (by decide)]
          decide
        refine (hmake₂.unmap (by decide) (by omega) hone).bind ?_
        rintro - t₃ ⟨hmake₃, hlook₃⟩
        refine (hmake₃.discard (fun x hx => ?_) depth).bind fun _ _ h => Runs.ret ⟨h.2, h.1⟩
        rw [hlook₃ x hx]
        split
        · rfl
        next hout => rw [hlook₂ x hx, if_neg (by simp), hlook₁ x hx,
          if_neg fun h => hout h.2, hempty]
      | true =>
        rw [if_pos rfl]
        refine Runs.ret ⟨hmake₂.pages, hmake₂.userSpace fun x hx => ?_, hmake₂.free⟩
        rw [hlook₂ x hx, hlook₁ x hx, hempty]
        simp only [true_and, upperPte]

/-- Every sequence of calls of `growproc`, with `kalloc` failing at any call, keeps the size and the
mappings of a process in step, and never panics; a failed call changes neither and gives back its
pages; afterwards the process can be freed. -/
theorem growproc_keeps_mappings (hkend : kernbase ≤ kend) (hs : UserMem kend s root sz)
    (hup : Upper s root) (calls : List (ℤ × List ℕ))
    (hcalls : ∀ c ∈ calls, -2 ^ 31 ≤ c.1 ∧ c.1 < 2 ^ 31) :
    ∃ t sz', Transition.run (growStep kend root) (s, sz) calls = some (t, sz') ∧
    UserMem kend t root sz' ∧
      (∀ n : ℤ, -2 ^ 31 ≤ n → n < 2 ^ 31 → ∀ answers, ∃ r u,
        growproc kend root sz' n { t with answers := answers } = .ok (r, u) ∧
        Resized kend t root sz' r u) ∧
      ∀ depth ≥ 3, ∃ u, procFreepagetable kend depth root sz' t = .ok ((), u) ∧
        u.freelist.Perm (t.nodes root ++ (t.targets root 0 (npages sz') ++ t.freelist)) := by
  -- the calls one by one: each returns, and its result meets the conditions of the next
  have hrun : ∃ t sz', Transition.run (growStep kend root) (s, sz) calls = some (t, sz') ∧
      UserMem kend t root sz' ∧ Upper t root := by
    induction calls generalizing s sz with
    | nil => exact ⟨s, sz, rfl, hs, hup⟩
    | cons c calls ih =>
      have hc := hcalls c mem_cons_self
      obtain ⟨⟨ok, sz₁⟩, t₁, hcall, hres, hup₁⟩ := growStep_spec hkend hs hup hc.2 hc.1 c.2
      have hstep : growStep kend root (s, sz) c = some (t₁, sz₁) := by
        rw [growStep, hcall]
      obtain ⟨t, sz', hrest, huser, hupper⟩ := ih hres.user hup₁ fun d hd =>
        hcalls d (mem_cons_of_mem c hd)
      exact ⟨t, sz', by rw [Transition.run, hstep]; exact hrest, huser, hupper⟩
  obtain ⟨t, sz', hrun, huser, hupper⟩ := hrun
  refine ⟨t, sz', hrun, huser, fun n hn hn' answers => ?_, fun depth hdepth => ?_⟩
  · obtain ⟨r, u, hcall, hres, -⟩ := growStep_spec hkend huser hupper hn' hn answers
    exact ⟨r, u, hcall, hres⟩
  · obtain ⟨k, rfl⟩ := Nat.exists_eq_add_of_le hdepth
    obtain ⟨_, u, hfree, hperm, -⟩ := procFreepagetable_spec hkend huser hupper k
    rw [add_comm k 3] at hfree
    exact ⟨u, hfree, hperm⟩

def freshPhys : Phys :=
  let free := (List.range 8).map fun i => kernbase + (i + 1) * 4096
  ⟨fun _ _ => 0, free, free⟩

/-- A process without memory. -/
theorem exists_fresh : ∃ pt s, procPagetable kernbase 3 kernbase (kernbase + 36864) freshPhys =
    .ok (some pt, s) ∧
      UserMem kernbase s pt 0 ∧ Upper s pt := by
  obtain ⟨r, s, hrun, hspec⟩ := @procPagetable_spec kernbase freshPhys kernbase
    (kernbase + 36864) (by decide) (by decide) (by decide) (by decide) 0
  have hsome : ((procPagetable kernbase 3 kernbase (kernbase + 36864) freshPhys).toOption.bind
      Prod.fst).isSome := by
    decide +kernel
  cases r with
  | none =>
    rw [hrun] at hsome
    cases hsome
  | some pt => exact ⟨pt, s, hrun, hspec.2.1.mem, hspec.2.1.to_upper⟩

theorem growproc_keeps_mappings_fresh :
    ∃ pt s t sz', procPagetable kernbase 3 kernbase (kernbase + 36864) freshPhys
        = .ok (some pt, s) ∧ Transition.run (growStep kernbase pt) (s, 0)
        [(5000, [kernbase + 28672, kernbase + 32768]), (-3000, []), (9000, [])] = some (t, sz') ∧
      UserMem kernbase t pt sz' := by
  obtain ⟨pt, s, hrun, huser, hup⟩ := exists_fresh
  obtain ⟨t, sz', hcalls, hres, -⟩ := growproc_keeps_mappings le_rfl huser hup
    [(5000, [kernbase + 28672, kernbase + 32768]), (-3000, []), (9000, [])] (by decide)
  exact ⟨pt, s, t, sz', hrun, hcalls, hres⟩

end runs

section sbrk

variable {kend root sz : ℕ} {s t : Phys}

theorem uvmallocLoop_result (lo newsz xperm rounds a : ℕ) (s : Phys) :
    Yields (uvmallocLoop kend root lo newsz xperm rounds a) s (fun r _ => r = newsz ∨ r = 0)
    fun _ => True := by
  induction rounds generalizing a s with
  | zero => exact .ret (.inl rfl)
  | succ rounds ih =>
    rw [uvmallocLoop]
    split
    · refine .bind .any fun page t _ => ?_
      cases page with
      | none => exact .bind .any fun _ _ _ => .ret (.inr rfl)
      | some mem =>
        refine .modifies (.bind .any fun ok u _ => ?_)
        cases ok with
        | true => exact ih _ u
        | false => exact .bind .any fun _ _ _ => .bind .any fun _ _ _ => .ret (.inr rfl)
    · exact .ret (.inl rfl)

theorem uvmdealloc_result (oldsz newsz : ℕ) (s : Phys) :
    Yields (uvmdealloc kend root oldsz newsz) s (fun r _ => r = min oldsz newsz) fun _ => True := by
  unfold uvmdealloc
  split
  · exact .ret (by omega)
  · exact .bind .any fun _ _ _ => .ret (by omega)

def Reports (sz : ℕ) (n : ℤ) (ok : Bool) (sz' : ℕ) : Prop :=
  if ok then (sz' : ℤ) = sz + n else sz' = sz

theorem growproc_result {n : ℤ} (hlow : 0 ≤ (sz : ℤ) + n) (hhigh : (sz : ℤ) + n < 2 ^ 64)
    (s : Phys) :
    Yields (growproc kend root sz n) s (fun r _ => Reports sz n r.1 r.2) fun _ => True := by
  unfold growproc
  rcases lt_trichotomy n 0 with hneg | rfl | hpos
  · rw [if_neg (by omega), if_pos hneg]
    refine .bind (uvmdealloc_result sz _ s) fun r t hr => .ret ?_
    have hu64 : toU64 ((sz : ℤ) + n) = ((sz : ℤ) + n).toNat := by
      rw [toU64, Int.emod_eq_of_lt hlow hhigh]
    rw [hu64] at hr
    change (r : ℤ) = sz + n
    omega
  · exact .ret (by simp [Reports])
  · rw [if_pos hpos]
    have hadd : add64 sz n.toNat = sz + n.toNat := by
      rw [add64, mod_eq_of_lt (by omega)]
    have hcall : Yields (uvmalloc kend root sz (add64 sz n.toNat) pteW) s
        (fun r _ => r = sz + n.toNat ∨ r = 0) fun _ => True := by
      unfold uvmalloc
      rw [hadd, if_neg (by omega)]
      exact uvmallocLoop_result ..
    refine .bind hcall fun r t hr => ?_
    split
    · exact .ret rfl
    · refine .ret ?_
      change (r : ℤ) = sz + n
      omega

/-- A process that is to shrink by more than its size is left as it is, with the result 0. -/
theorem growproc_wraps {n : ℤ} (hsz : sz ≤ trapframe) (hn : -2 ^ 31 ≤ n) (hlt : (sz : ℤ) + n < 0)
    (s : Phys) : growproc kend root sz n s = .ok ((true, sz), s) := by
  have htrap := trapframe_eq
  have hwrap : toU64 ((sz : ℤ) + n) ≥ sz := by
    unfold toU64
    omega
  rw [growproc, if_neg (by omega), if_pos (by omega), uvmdealloc, if_pos hwrap]
  rfl

theorem sysSbrk_runs {n : ℤ} {Q : Option ℕ × ℕ → Phys → Prop}
    (h : Runs (growproc kend root sz n) s fun r t => Q (if r.1 then some sz else none, r.2) t) :
    Runs (sysSbrk kend root sz n) s Q :=
  h.bind fun _ _ hQ => .ret hQ

/-- `growproc` and `sys_sbrk` do what they report, for every size and every `int`, exactly if the
process is not to shrink by more than its size. -/
theorem sbrk_reports_iff {n : ℤ} (hkend : kernbase ≤ kend) (hs : UserMem kend s root sz)
    (hn : -2 ^ 31 ≤ n) (hn' : n < 2 ^ 31) :
    (Runs (growproc kend root sz n) s (fun r _ => Reports sz n r.1 r.2) ∧
      Runs (sysSbrk kend root sz n) s fun r _ =>
        (∀ addr, r.1 = some addr → addr = sz ∧ (r.2 : ℤ) = sz + n) ∧ (r.1 = none → r.2 = sz)) ↔
          0 ≤ (sz : ℤ) + n := by
  constructor
  · rintro ⟨⟨r, t, hrun, hreports⟩, -⟩
    by_contra hlt
    rw [growproc_wraps hs.bound hn (by omega)] at hrun
    cases hrun
    change (sz : ℤ) = sz + n at hreports
    omega
  · intro hge
    have htrap := trapframe_eq
    have hbound := hs.bound
    obtain ⟨⟨ok, sz'⟩, t, hrun, -⟩ := growproc_spec hkend hs hn' hn
    have hreports : Reports sz n ok sz' := (growproc_result hge (by omega) s).of_ok hrun
    refine ⟨⟨_, t, hrun, hreports⟩, sysSbrk_runs ⟨_, t, hrun, ?_⟩⟩
    cases ok with
    | true =>
      refine ⟨fun addr haddr => ?_, fun h => by cases h⟩
      exact ⟨(Option.some.inj haddr).symm, hreports⟩
    | false => exact ⟨fun addr haddr => (nomatch haddr), fun _ => hreports⟩

theorem sbrk_reports_iff_fresh :
    ∃ pt s, procPagetable kernbase 3 kernbase (kernbase + 36864) freshPhys = .ok (some pt, s) ∧
      Runs (growproc kernbase pt 0 5000) s fun r _ => Reports 0 5000 r.1 r.2 := by
  obtain ⟨pt, s, hrun, huser, -⟩ := exists_fresh
  exact ⟨pt, s, hrun, ((sbrk_reports_iff le_rfl huser (by decide) (by decide)).mpr (by decide)).1⟩

/-- A process of 5000 bytes that has been made by `proc_pagetable` and `growproc`. -/
theorem exists_grown : ∃ pt s, UserMem kernbase s pt 5000 ∧ Upper s pt := by
  obtain ⟨pt, s, hrun, huser, hup⟩ := exists_fresh
  obtain ⟨⟨ok, sz⟩, t, hgrow, hres, hup'⟩ :=
    growStep_spec le_rfl huser hup (by decide : (5000 : ℤ) < 2 ^ 31) (by decide) s.answers
  have hsize : sz = 5000 := by
    have heval : (procPagetable kernbase 3 kernbase (kernbase + 36864) freshPhys).toOption.elim
        false (fun r =>
        r.1.elim false fun pt => (growproc kernbase pt 0 5000 r.2).toOption.elim false fun g =>
          decide (g.1.2 = 5000)) = true := by
      decide +kernel
    rw [hrun] at heval
    change (growproc kernbase pt 0 5000 s).toOption.elim false _ = true at heval
    rw [show growproc kernbase pt 0 5000 s = .ok ((ok, sz), t) from hgrow] at heval
    exact of_decide_eq_true heval
  subst hsize
  exact ⟨pt, t, hres.user, hup'⟩

/-- A process of 5000 bytes asks to shrink by 5001 bytes: it keeps its size, and `sbrk` succeeds. -/
theorem sbrk_below_zero : ∃ s pt, UserMem kernbase s pt 5000 ∧
      sysSbrk kernbase pt 5000 (-5001) s = .ok ((some 5000, 5000), s) ∧
      ¬ Reports 5000 (-5001) true 5000 := by
  obtain ⟨pt, s, huser, -⟩ := exists_grown
  have hcall : growproc kernbase pt 5000 (-5001) s = .ok ((true, 5000), s) :=
    growproc_wraps (by decide) (by decide) (by decide) s
  obtain ⟨r, t, hrun, rfl, rfl⟩ :=
    sysSbrk_runs (Q := fun r t => r = (some 5000, 5000) ∧ t = s) ⟨_, s, hcall, rfl, rfl⟩
  refine ⟨t, pt, huser, hrun, ?_⟩
  unfold Reports
  decide

end sbrk

end Xv6.Vm
