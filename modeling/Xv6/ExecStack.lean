import Xv6.ExecBuild

/-!
# The stack that exec sets up

The strings are pushed one below the other from the top of the stack, each at a multiple of 16, and
the array of their addresses below them. The pages of the stack are there and can be written, so
that no `copyout` fails; what can fail is only that the stack is too small.
-/

namespace Xv6.Exec

open Xv6.Vm List

section arithmetic

variable {a b : ℕ}

theorem sub64_eq (hb : b ≤ a) (ha : a < 2 ^ 64) : sub64 a b = a - b := by
  unfold sub64
  omega

/-- `sp -= n; sp -= sp % 16` -/
theorem sub64_align (hb : b ≤ a) (ha : a < 2 ^ 64) :
    sub64 (sub64 a b) (sub64 a b % 16) = (a - b) / 16 * 16 := by
  rw [sub64_eq hb ha, sub64_eq (Nat.mod_le _ _) (by omega)]
  omega

end arithmetic

structure IsString (s : Phys) (a len : ℕ) : Prop where
  first : ∀ i < len, s.byte (a + i) ≠ 0
  nul : s.byte (a + len) = 0

/-- An argument of `exec`: a page of the kernel with a string that ends in it. -/
structure IsArg (kend tf : ℕ) (s : Phys) (a : ℕ) : Prop where
  page : IsPage kend a
  free : a ∉ s.freelist
  frame : a ≠ tf
  string : ∃ len < pgsize, IsString s a len

/-- How the strings are pushed: the stack pointer, the addresses pushed so far and the image before
and after. -/
def Pushes (s : Phys) (stackbase : ℕ) : List ℕ → ℕ → List ℕ → List Leaf → ℕ → List ℕ →
    List Leaf → Prop
  | [], sp, us, ms, sp', us', ms' => sp' = sp ∧ us' = us ∧ ms' = ms
  | a :: argv, sp, us, ms, sp', us', ms' => ∃ len p, IsString s a len ∧ len + 1 ≤ sp ∧
      p = (sp - (len + 1)) / 16 * 16 ∧ stackbase ≤ p ∧
      Pushes s stackbase argv p (us ++ [p]) (store ms p (len + 1) fun i => s.byte (a + i))
      sp' us' ms'

section leaves

variable {ms ms' : List Leaf} {a n : ℕ} {f g : ℕ → UInt8}

theorem store_congr (h : ∀ k < n, f k = g k) : store ms a n f = store ms a n g := by
  apply ext_getElem?
  intro j
  rw [getElem?_store, getElem?_store]
  congr 1
  funext m
  refine congrArg (Leaf.mk m.page m.perm) (funext fun k => ?_)
  split
  next hin => rw [h _ (by omega)]
  next => rfl

def Writable (ms : List Leaf) (base : ℕ) : Prop :=
  ∀ j m, base ≤ j * pgsize → ms[j]? = some m → m.perm &&& pteU ≠ 0 ∧ m.perm &&& pteW ≠ 0

theorem Writable.store {base : ℕ} (h : Writable ms base) : Writable (store ms a n f) base := by
  intro j m hj hm
  rw [getElem?_store, Option.map_eq_some_iff] at hm
  obtain ⟨m₀, hm₀, rfl⟩ := hm
  exact h j m₀ hj hm₀

theorem Writable.at {base x : ℕ} (h : Writable ms base) (hbase : base % pgsize = 0)
    (hx : base ≤ x) (m : Leaf)
    (hm : ms[x / pgsize]? = some m) : m.perm &&& pteU ≠ 0 ∧ m.perm &&& pteW ≠ 0 := by
  refine h _ m ?_ hm
  unfold pgsize at *
  omega

end leaves

section pushArgs

variable {kend tramp tf pt stackbase : ℕ} {s u : Phys} {ms : List Leaf}

theorem Building.byte (h : Building kend tramp tf s u pt ms) {a i : ℕ}
    (ha : a % pgsize = 0) (hfree : a ∉ s.freelist) (hi : i < pgsize) :
    u.byte (a + i) = s.byte (a + i) := by
  rw [byte_page ha hi, byte_page ha hi, h.frame hfree]

theorem pushArgs_spec {argv us : List ℕ} {sp : ℕ} (hg : Ground kend tramp tf s)
    (h : Building kend tramp tf s u pt ms) (hargv : ∀ a ∈ argv, IsArg kend tf s a)
    (hbase : stackbase % pgsize = 0) (hpos : pgsize ≤ stackbase) (hw : Writable ms stackbase)
    (hlow : stackbase ≤ sp) (hhigh : sp ≤ ms.length * pgsize) :
    Runs (pushArgs pt stackbase argv sp us) u fun r t => ∃ ms',
      Building kend tramp tf s t pt ms' ∧ ms'.length = ms.length ∧ Writable ms' stackbase ∧
      ∀ sp' us', r = some (sp', us') → stackbase ≤ sp' ∧ sp' ≤ ms.length * pgsize ∧
        us'.length = us.length + argv.length ∧ Pushes s stackbase argv sp us ms sp' us' ms' := by
  induction argv generalizing u sp us ms with
  | nil =>
    refine Runs.ret ⟨ms, h, rfl, hw, fun sp' us' heq => ?_⟩
    cases heq
    exact ⟨hlow, hhigh, rfl, rfl, rfl, rfl⟩
  | cons a argv ih =>
    obtain ⟨hpage, hfree, hframe, len, hlen, hstr⟩ := hargv a mem_cons_self
    have hmax := h.max_le hg
    have hpg : pgsize = 4096 := rfl
    rw [pushArgs]
    by_cases hmaxarg : maxarg ≤ us.length
    · rw [if_pos hmaxarg]
      exact Runs.ret ⟨ms, h, rfl, hw, nofun⟩
    rw [if_neg hmaxarg]
    have hbyte : ∀ i < pgsize, u.byte (a + i) = s.byte (a + i) :=
      fun i hi => h.byte hpage.1 hfree hi
    have hstrlen : strlen pgsize a u = .ok (len, u) := by
      refine strlen_spec hlen ?_ fun i hi => ?_
      · rw [hbyte len hlen]
        exact hstr.nul
      · rw [hbyte i (by omega)]
        exact hstr.first i hi
    refine Runs.bind (Q := fun r t => r = len ∧ t = u) ⟨len, u, hstrlen, rfl, rfl⟩ ?_
    rintro r v ⟨rfl, rfl⟩
    dsimp only
    rw [sub64_align (by omega) (by omega)]
    obtain ⟨p, hp⟩ : ∃ p, (sp - (r + 1)) / 16 * 16 = p := ⟨_, rfl⟩
    rw [hp]
    by_cases hsmall : p < stackbase
    · rw [if_pos hsmall]
      exact Runs.ret ⟨ms, h, rfl, hw, nofun⟩
    rw [if_neg hsmall]
    have hsrc : ∀ i < r + 1, (a + i) / pgsize * pgsize = a := by
      have hal := hpage.1
      unfold pgsize at *
      omega
    refine (h.copyout p hg hsrc hpage.2.1 hframe hfree (by omega) fun i hi =>
      hw.at hbase (by omega)).bind ?_
    rintro ok t ⟨rfl, hb⟩
    rw [if_pos rfl]
    rw [store_congr (g := fun i => s.byte (a + i)) fun i hi => hbyte i (by omega)] at hb
    refine (ih hb (fun b hb => hargv b (mem_cons_of_mem a hb)) hw.store (by omega)
      (by rw [length_store]; omega)).mono ?_
    rintro r' w ⟨ms', hb', hlen', hw', hok⟩
    rw [length_store] at hlen'
    refine ⟨ms', hb', hlen', hw', fun sp' us' heq => ?_⟩
    obtain ⟨h1, h2, h3, h4⟩ := hok sp' us' heq
    rw [length_store] at h2
    refine ⟨h1, h2, ?_, r, p, hstr, by omega, hp.symm, by omega, h4⟩
    rw [h3, length_append, length_singleton, length_cons]
    omega

end pushArgs

end Xv6.Exec
