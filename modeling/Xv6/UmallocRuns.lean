import Xv6.Transition
import Xv6.UmallocSound

/-!
# Runs of `malloc` and `free`

A run is a list of calls, stores into memory that is not the allocator's, and actions of the
environment that answers `sbrk`. Two environments are looked at: one that may answer with any fresh
memory, and a process whose break moves as the kernel moves it.
-/

namespace Xv6.Umalloc

open List Function Nat Transition

/-- What answers `sbrk`, with the memory (address and units) that it has given so far. -/
structure Env (E A : Type) where
  sbrk : E → ℤ → Option (E × Option ℕ)
  act : E → A → Option E
  segs : E → List (ℕ × ℕ)

namespace Env

variable {E A : Type} (V : Env E A)

def obtained (e : E) : Multiset ℕ := ((V.segs e).map fun s => slots s.1 s.2).sum

def units (e : E) : ℕ := ((V.segs e).map Prod.snd).sum

theorem card_obtained (e : E) : (V.obtained e).card = V.units e := by
  unfold obtained units
  induction V.segs e with
  | nil => rfl
  | cons s l ih => simp [ih]

theorem mem_obtained {e : E} {x : ℕ} : x ∈ V.obtained e ↔ ∃ s ∈ V.segs e, x ∈ slots s.1 s.2 := by
  unfold obtained
  induction V.segs e with
  | nil => simp
  | cons s l ih => simp [ih]

/-- A request for `n` units fails, or gives memory above `base` and above all that was given
before. -/
structure Lawful (base : ℕ) (ok : E → Prop) : Prop where
  fails : ∀ {e e' n}, ok e → 0 < n → V.sbrk e ((n * headerSize : ℕ) : ℤ) = some (e', none) →
    ok e' ∧ V.segs e' = V.segs e
  grows : ∀ {e e' n a}, ok e → 0 < n → V.sbrk e ((n * headerSize : ℕ) : ℤ) = some (e', some a) →
    ok e' ∧ base + headerSize ≤ a ∧ headerSize ∣ a ∧ (∀ x ∈ V.obtained e, x < a) ∧
    V.segs e' = (a, n) :: V.segs e
  acts : ∀ {e e' x}, ok e → V.act e x = some e' → ok e' ∧ V.segs e' = V.segs e

end Env

/-- The requests whose rounded size fits the `int` argument of `sbrk`. -/
def Modest (nbytes : ℕ) : Prop := coreUnits (nunits nbytes) * headerSize < 2 ^ 31

instance (nbytes : ℕ) : Decidable (Modest nbytes) := inferInstanceAs (Decidable (_ < _))

section requests

variable {nbytes nu : ℕ}

theorem coreUnits_pos : 0 < coreUnits nu := by
  unfold coreUnits
  split <;> omega

theorem le_coreUnits : nu ≤ coreUnits nu := by
  unfold coreUnits
  split <;> omega

theorem Modest.sbrkArg (hm : Modest nbytes) :
    sbrkArg (nunits nbytes) = (coreUnits (nunits nbytes) * headerSize : ℕ) := by
  unfold Umalloc.sbrkArg
  rw [Int.bmod_eq_of_le]
  · have : (0 : ℤ) ≤ (coreUnits (nunits nbytes) * headerSize : ℕ) := Int.natCast_nonneg _
    norm_num
    omega
  · have : ((coreUnits (nunits nbytes) * headerSize : ℕ) : ℤ) < 2 ^ 31 := by
      exact_mod_cast hm
    norm_num at this ⊢
    omega

theorem bytes_le_nunits (hn : nbytes < 2 ^ 32) :
    nbytes + headerSize ≤ headerSize * nunits nbytes := by
  unfold nunits headerSize
  omega

end requests

namespace Env

variable {E A : Type} {V : Env E A} {base : ℕ} {ok : E → Prop} {e e' : E} {h h' : Heap}
  {F : List ℕ} {live : List Live} {fuel nbytes r : ℕ}

theorem Lawful.morecore (hV : V.Lawful base ok) (hok : ok e) (hmod : Modest nbytes)
    (hm : morecore V.sbrk fuel h e (nunits nbytes) = some (h', e', r)) :
    ok e' ∧ V.units e ≤ V.units e' := by
  obtain ⟨_ | a, hs⟩ := morecore_answer hm <;> rw [hmod.sbrkArg] at hs
  · obtain ⟨hok', hsegs⟩ := hV.fails hok coreUnits_pos hs
    exact ⟨hok', by rw [units, units, hsegs]⟩
  · obtain ⟨hok', -, -, -, hsegs⟩ := hV.grows hok coreUnits_pos hs
    refine ⟨hok', ?_⟩
    rw [units, units, hsegs, map_cons, sum_cons]
    exact le_add_left _ _

theorem Lawful.mallocLoop (hV : V.Lawful base ok) (hmod : Modest nbytes) (hok : ok e)
    {prevp p : ℕ} (hm : mallocLoop V.sbrk (nunits nbytes) fuel h e prevp p = some (h', e', r)) :
    ok e' ∧ V.units e ≤ V.units e' := by
  induction fuel generalizing h e prevp p with
  | zero => simp [Umalloc.mallocLoop] at hm
  | succ fuel ih =>
    rw [Umalloc.mallocLoop] at hm
    split at hm
    · cases hm
      exact ⟨hok, le_rfl⟩
    split at hm
    · simp only [Option.bind_eq_bind, Option.bind_eq_some_iff] at hm
      obtain ⟨⟨h₁, e₁, p₁⟩, hcore, hrest⟩ := hm
      obtain ⟨hok₁, hle₁⟩ := hV.morecore hok hmod hcore
      split at hrest
      · cases hrest
        exact ⟨hok₁, hle₁⟩
      · obtain ⟨hok₂, hle₂⟩ := ih hok₁ hrest
        exact ⟨hok₂, hle₁.trans hle₂⟩
    · exact ih hok hm

theorem loop_of_fits (sbrk : E → ℤ → Option (E × Option ℕ)) (e : E) {S : Multiset ℕ} {nu bytes : ℕ}
    (hs : Sound base h F live S) (hS : S.card < 2 ^ 32)
    (hnu : bytes + headerSize ≤ headerSize * nu) (hfits : ∃ a ∈ F, nu ≤ h.size a) :
    ∃ h' F' hdr, Sound base h' F' (⟨hdr, nu, bytes⟩ :: live) S ∧ ∀ k,
      Umalloc.mallocLoop sbrk nu (F.length + k) h e h.freep (h.next h.freep) =
      some (h', e, Heap.after hdr 1) := by
  obtain ⟨q, hq, x, hx, hqx, hxfits, hloop⟩ :=
    hs.listed.mallocLoop_of_fits sbrk e hfits le_rfl
  obtain ⟨F', hdr, hap, hs'⟩ := hs.take hS hnu hq hx hqx hxfits
  rw [hap] at hloop
  exact ⟨_, F', hdr, hs', mallocLoop_mono hloop⟩

/-- No block is large enough and `sbrk` answers: `malloc` takes what it has asked for to be there,
and returns a block of it. -/
theorem malloc_of_answer {sbrk : E → ℤ → Option (E × Option ℕ)} {S : Multiset ℕ} {a : ℕ}
    (hs : Sound base (h.start base) F live S) (hbase : 0 < base) (hn : nbytes < 2 ^ 32)
    (hsmall : ∀ b ∈ F, (h.start base).size b < nunits nbytes)
    (hsbrk : sbrk e (sbrkArg (nunits nbytes)) = some (e', some a)) (habove : base + headerSize ≤ a)
    (hdvd : headerSize ∣ a) (hfresh : ∀ x ∈ S, x < a)
    (hcard : (S + slots a (coreUnits (nunits nbytes))).card < 2 ^ 32) :
    ∃ h' F' hdr N, Sound base h' F' (⟨hdr, nunits nbytes, nbytes⟩ :: live)
        (S + slots a (coreUnits (nunits nbytes))) ∧
      ∀ k, malloc sbrk base (N + k) h e nbytes = some (h', e', Heap.after hdr 1) := by
  have hcore : coreUnits (nunits nbytes) < 2 ^ 32 := by
    rw [Multiset.card_add, card_slots] at hcard
    omega
  have hgrown := hs.grow coreUnits_pos hcore habove hdvd hfresh
  obtain ⟨h₁, F₁, hfree, hs₁, b, hb, hbfits⟩ := hgrown.free hcard le_rfl
  obtain ⟨h', F', hdr, hs', hloop⟩ := loop_of_fits sbrk e' hs₁ hcard (bytes_le_nunits hn)
    ⟨b, hb, le_coreUnits.trans hbfits⟩
  refine ⟨h', F', hdr, F.length + F₁.length + F.length, hs', fun k => ?_⟩
  have hfreep : h₁.freep ≠ 0 := by
    have := hs₁.listed.base_le _ hs₁.listed.freep
    omega
  have hfuel : F.length + F₁.length + F.length + k = (F.length + (F₁.length + k)) + F.length := by
    omega
  have hfuel' : F.length + (F₁.length + k) = F₁.length + (F.length + k) := by omega
  rw [malloc, hfuel, hs.listed.mallocLoop_of_small hsmall, morecore_of_grows hsbrk hfree,
    Option.bind_some, if_neg hfreep, hfuel', hloop]

inductive Returned (base : ℕ) (live : List Live) (nbytes : ℕ) (h : Heap) (S : Multiset ℕ) :
    ℕ → Prop
  | null {F : List ℕ} (hs : Sound base h F live S) : Returned base live nbytes h S 0
  | block {F : List ℕ} {hdr : ℕ} (hs : Sound base h F (⟨hdr, nunits nbytes, nbytes⟩ :: live) S) :
      Returned base live nbytes h S (Heap.after hdr 1)

section malloc

variable (hV : V.Lawful base ok) (hbase : 0 < base) (hok : ok e) (hn : nbytes < 2 ^ 32)
  (hmod : Modest nbytes) (hs : Sound base (h.start base) F live (V.obtained e))

include hs hn in
theorem malloc_of_fits (hS : V.units e < 2 ^ 32)
    (hfits : ∃ a ∈ F, nunits nbytes ≤ (h.start base).size a) :
    ∃ h' r N, Returned base live nbytes h' (V.obtained e) r ∧
      ∀ k, malloc V.sbrk base (N + k) h e nbytes = some (h', e, r) := by
  obtain ⟨h', F', hdr, hs', hloop⟩ := loop_of_fits V.sbrk e hs
    (by rw [card_obtained]; exact hS) (bytes_le_nunits hn) hfits
  exact ⟨h', _, F.length, .block hs', hloop⟩

include hV hok hmod hs in
theorem malloc_of_fails (hsmall : ∀ a ∈ F, (h.start base).size a < nunits nbytes)
    (hsbrk : V.sbrk e (sbrkArg (nunits nbytes)) = some (e', none)) :
    ∃ h' r N, Returned base live nbytes h' (V.obtained e') r ∧
      ∀ k, malloc V.sbrk base (N + k) h e nbytes = some (h', e', r) := by
  have hsbrk' := hsbrk
  rw [hmod.sbrkArg] at hsbrk'
  obtain ⟨-, hsegs⟩ := hV.fails hok coreUnits_pos hsbrk'
  have hobt : V.obtained e' = V.obtained e := by rw [obtained, obtained, hsegs]
  rw [← hobt] at hs
  refine ⟨h.start base, 0, F.length, .null hs, fun k => ?_⟩
  rw [malloc, add_comm, hs.listed.mallocLoop_of_small hsmall, Umalloc.morecore, hsbrk]
  rfl

include hV hbase hok hn hmod hs in
theorem malloc_of_grows (hsmall : ∀ a ∈ F, (h.start base).size a < nunits nbytes) {a : ℕ}
    (hsbrk : V.sbrk e (sbrkArg (nunits nbytes)) = some (e', some a)) (hS : V.units e' < 2 ^ 32) :
    ∃ h' r N, Returned base live nbytes h' (V.obtained e') r ∧
      ∀ k, malloc V.sbrk base (N + k) h e nbytes = some (h', e', r) := by
  have hsbrk' := hsbrk
  rw [hmod.sbrkArg] at hsbrk'
  obtain ⟨-, habove, hdvd, hfresh, hsegs⟩ := hV.grows hok coreUnits_pos hsbrk'
  have hobt : V.obtained e' = V.obtained e + slots a (coreUnits (nunits nbytes)) := by
    rw [obtained, obtained, hsegs, map_cons, sum_cons, add_comm]
  obtain ⟨h', F', hdr, N, hs', hall⟩ := malloc_of_answer hs hbase hn hsmall hsbrk habove hdvd hfresh
    (by rw [← hobt, card_obtained]; exact hS)
  rw [← hobt] at hs'
  exact ⟨h', _, N, .block hs', hall⟩

include hV hbase hok hn hmod hs in
/-- `malloc` returns if `sbrk` answers when it is asked and the units stay in 32 bits. -/
theorem malloc_returns (hS : V.units e < 2 ^ 32)
    (hsbrk : (∀ a ∈ F, (h.start base).size a < nunits nbytes) →
      ∃ e₁ a, V.sbrk e (sbrkArg (nunits nbytes)) = some (e₁, a) ∧ V.units e₁ < 2 ^ 32) :
    ∃ h' e' r N, Returned base live nbytes h' (V.obtained e') r ∧
      ∀ k, malloc V.sbrk base (N + k) h e nbytes = some (h', e', r) := by
  by_cases hfits : ∃ a ∈ F, nunits nbytes ≤ (h.start base).size a
  · obtain ⟨h', r, N, hret⟩ := malloc_of_fits hn hs hS hfits
    exact ⟨h', e, r, N, hret⟩
  · push Not at hfits
    obtain ⟨e₁, _ | a, hsb, hS₁⟩ := hsbrk hfits
    · obtain ⟨h', r, N, hret⟩ := malloc_of_fails hV hok hmod hs hfits hsb
      exact ⟨h', e₁, r, N, hret⟩
    · obtain ⟨h', r, N, hret⟩ := malloc_of_grows hV hbase hok hn hmod hs hfits hsb hS₁
      exact ⟨h', e₁, r, N, hret⟩

include hV hbase hok hn hmod hs in
theorem malloc_sound (hm : malloc V.sbrk base fuel h e nbytes = some (h', e', r))
    (hS : V.units e' < 2 ^ 32) : Returned base live nbytes h' (V.obtained e') r := by
  have hle := (hV.mallocLoop hmod hok hm).2
  have hreturns := malloc_returns hV hbase hok hn hmod hs (lt_of_le_of_lt hle hS) fun hsmall => ?_
  · obtain ⟨h₁, e₁, r₁, N, hret, hall⟩ := hreturns
    -- a call that returns for enough rounds returns the same as for fewer
    have hN := hall fuel
    rw [add_comm, malloc, mallocLoop_mono hm N] at hN
    cases hN
    exact hret
  · -- the first answer of `sbrk` bounds the units from below, whatever the loop does then
    have hlong := mallocLoop_mono hm F.length
    rw [hs.listed.mallocLoop_of_small hsmall] at hlong
    obtain ⟨⟨h₁, e₁, p₁⟩, hcore, hrest⟩ := Option.bind_eq_some_iff.1 hlong
    have hS₁ : V.units e₁ < 2 ^ 32 := by
      refine lt_of_le_of_lt ?_ hS
      split at hrest
      · cases hrest
        exact le_rfl
      · exact (hV.mallocLoop hmod (hV.morecore hok hmod hcore).1 hrest).2
    obtain ⟨a, hsb⟩ := morecore_answer hcore
    exact ⟨_, _, hsb, hS₁⟩

end malloc

end Env

/-- A call with the rounds that its loops may make, a store of the program, or an action of the
environment. -/
inductive Call (A : Type)
  | malloc (fuel : ℕ) (nbytes : UInt32)
  | free (fuel : ℕ) (ap : ℕ)
  | store (a : ℕ) (v : Header)
  | env (x : A)

structure Sys (E : Type) where
  heap : Heap
  env : E
  live : List Live

section runs

variable {E A : Type} (V : Env E A) (base : ℕ)

/-- The program may store behind the headers of its blocks, and into memory that is neither `base`
nor from `sbrk`. -/
def Sys.mayStore (s : Sys E) (a : ℕ) : Bool :=
  s.live.any (fun b => b.hdr < a && Heap.after a 1 ≤ Heap.after b.hdr b.units && headerSize ∣
    a - b.hdr) ||
  (a != base && (V.segs s.env).all fun seg => a < seg.1 || Heap.after seg.1 seg.2 ≤ a)

def step (s : Sys E) : Call A → Option (Sys E)
  | .malloc fuel nbytes =>
    (malloc V.sbrk base fuel s.heap s.env nbytes.toNat).map fun (h, e, ap) =>
      if ap = 0 then ⟨h, e, s.live⟩
      else
        let hdr := ap - headerSize
        ⟨h, e, ⟨hdr, h.size hdr, nbytes.toNat⟩ :: s.live⟩
  | .free fuel ap =>
    match s.live.find? fun b => Heap.after b.hdr 1 == ap with
    | none => none
    | some b => (s.heap.free fuel ap).map fun h => { s with heap := h, live := s.live.erase b }
  | .store a v =>
    if s.mayStore V base a then
      some { s with heap := { s.heap with mem := update s.heap.mem a v } }
    else none
  | .env x => (V.act s.env x).map fun e => { s with env := e }

def Call.Modest : Call A → Prop
  | .malloc _ nbytes => Umalloc.Modest nbytes.toNat
  | _ => True

instance decidableModest : (c : Call A) → Decidable c.Modest
  | .malloc _ nbytes => inferInstanceAs (Decidable (Umalloc.Modest nbytes.toNat))
  | .free _ _ | .store _ _ | .env _ => isTrue trivial

def Sys.start (mem : ℕ → Header) (e : E) : Sys E := ⟨⟨mem, 0⟩, e, []⟩

def Sys.Inv (s : Sys E) : Prop :=
  (s.heap.freep = 0 ∧ s.live = [] ∧ V.segs s.env = []) ∨
  ∃ F, Sound base s.heap F s.live (V.obtained s.env)

variable {V base} {s t : Sys E} {c : Call A} {ok : E → Prop}

theorem sound_base (h : Heap) (hfreep : h.freep = 0) : Sound base (h.start base) [base] [] 0 := by
  have hstart : h.start base = { (h.setPtr base base).setSize base 0 with freep := base } :=
    if_pos hfreep
  rw [hstart]
  set h' : Heap := { (h.setPtr base base).setSize base 0 with freep := base } with hdef
  have hnext : h'.next base = base := by simp [hdef]
  have hsize : h'.size base = 0 := by simp [hdef]
  refine ⟨⟨?_, by simp, by simp, hsize, by simp, by simp, by simp [hdef]⟩,
    ?_, by simp, by simp, by simp⟩
  · rw [Ring.isRing_cons, nil_append, isChain_cons_cons]
    exact ⟨hnext, .singleton base⟩
  · simp [hsize, slots, liveUnits]

theorem Sys.Inv.start (hs : s.Inv V base) (hbase : 0 < base) :
    ∃ F, Sound base (s.heap.start base) F s.live (V.obtained s.env) := by
  rcases hs with ⟨hfreep, hlive, hsegs⟩ | ⟨F, hF⟩
  · refine ⟨[base], ?_⟩
    have hobt : V.obtained s.env = 0 := by
      rw [Env.obtained, hsegs]
      rfl
    rw [hlive, hobt]
    exact sound_base s.heap hfreep
  · have hfreep : s.heap.freep ≠ 0 := by
      have := hF.listed.base_le _ hF.listed.freep
      omega
    refine ⟨F, ?_⟩
    rwa [show s.heap.start base = s.heap from if_neg hfreep]

theorem Env.Returned.inv {live : List Live} {nbytes : UInt32} {h : Heap} {e : E} {ap : ℕ}
    (hr : Env.Returned base live nbytes.toNat h (V.obtained e) ap) :
    Sys.Inv V base (if ap = 0 then ⟨h, e, live⟩
      else ⟨h, e, ⟨ap - headerSize, h.size (ap - headerSize), nbytes.toNat⟩ :: live⟩) := by
  cases hr with
  | null hs =>
    rw [if_pos rfl]
    exact .inr ⟨_, hs⟩
  | @block F hdr hs =>
    have hap : Heap.after hdr 1 - headerSize = hdr := by simp [Heap.after]
    have hne : Heap.after hdr 1 ≠ 0 := by simp [Heap.after, headerSize]
    rw [if_neg hne, hap, (hs.live_ok _ mem_cons_self).1]
    exact .inr ⟨_, hs⟩

/-- A unit of a caller's block after the first is no header. -/
theorem Sys.Inv.store {a : ℕ} {v : Header} (hs : s.Inv V base) (ha : s.mayStore V base a = true) :
    Sys.Inv V base { s with heap := { s.heap with mem := update s.heap.mem a v } } := by
  rcases hs with hfresh | ⟨F, hF⟩
  · exact .inl hfresh
  · refine .inr ⟨F, ?_⟩
    -- the address is a unit behind a header, or no unit at all
    have hcases : (∃ b ∈ s.live, ∃ i, 0 < i ∧ i < b.units ∧ a = b.hdr + headerSize * i) ∨
        (a ≠ base ∧ a ∉ V.obtained s.env) := by
      unfold Sys.mayStore at ha
      rw [Bool.or_eq_true, any_eq_true, Bool.and_eq_true, all_eq_true] at ha
      rcases ha with ⟨b, hb, hab⟩ | ⟨hne, hout⟩
      · left
        simp only [Bool.and_eq_true, decide_eq_true_eq] at hab
        obtain ⟨⟨hlt, hle⟩, i, hi⟩ := hab
        unfold Heap.after headerSize at hle
        refine ⟨b, hb, i, ?_, ?_, by omega⟩ <;> unfold headerSize at hi <;> omega
      · right
        refine ⟨by simpa using hne, fun hmem => ?_⟩
        obtain ⟨seg, hseg, hslot⟩ := V.mem_obtained.1 hmem
        have hlt := lt_after_of_mem_slots hslot
        have := hout seg hseg
        simp only [Bool.or_eq_true, decide_eq_true_eq] at this
        omega
    have hfree : a ∉ F := by
      rcases hcases with ⟨b, hb, i, hpos, hlt, rfl⟩ | ⟨hne, hout⟩
      · intro hmem
        have hunit : b.hdr + headerSize * i ∈ liveUnits s.live :=
          mem_liveUnits.2 ⟨b, hb, mem_slots.2 ⟨i, hlt, rfl⟩⟩
        have hb' := hF.base_lt_hdr hb
        exact hF.disjoint (hF.free_mem hmem (by omega)) hunit
      · exact fun hmem => hout (hF.free_subset (hF.free_mem hmem hne))
    have hlive : ∀ c ∈ s.live, c.hdr ≠ a := by
      intro c hc heq
      rcases hcases with ⟨b, hb, i, hpos, hlt, rfl⟩ | ⟨-, hout⟩
      · have hpos' : 0 < headerSize * i := mul_pos (by decide) hpos
        by_cases hcb : c = b
        · subst hcb
          omega
        · have hcmem : c ∈ s.live.erase b := (mem_erase_of_ne hcb).2 hc
          refine (hF.perm (perm_cons_erase hb)).disjoint_cons (mem_slots.2 ⟨i, hlt, rfl⟩) ?_
          rw [← heq]
          exact mem_liveUnits.2 ⟨c, hcmem, self_mem_slots (hF.units_pos hc)⟩
      · exact hout (heq ▸ hF.live_subset (hF.hdr_mem hc))
    refine hF.congr (fun b hb => ?_) (fun b hb => ?_) rfl
    · exact update_of_ne (fun heq : b = a => hfree (heq ▸ hb)) _ _
    · exact update_of_ne (hlive b hb) _ _

/-- The environment stays in order and gives nothing twice; as long as the units fit 32 bits, so
does the heap. -/
def Sys.Good (V : Env E A) (base : ℕ) (ok : E → Prop) (s : Sys E) : Prop :=
  ok s.env ∧ (V.units s.env < 2 ^ 32 → s.Inv V base)

theorem step_good (hV : V.Lawful base ok) (hbase : 0 < base) (hs : s.Good V base ok)
    (hc : c.Modest) (hstep : step V base s c = some t) : t.Good V base ok := by
  obtain ⟨hok, hinv⟩ := hs
  cases c with
  | malloc fuel nbytes =>
    simp only [step, Option.map_eq_some_iff] at hstep
    obtain ⟨⟨h', e', ap⟩, hm, rfl⟩ := hstep
    obtain ⟨hok', hle⟩ := hV.mallocLoop hc hok hm
    have henv : (if ap = 0 then (⟨h', e', s.live⟩ : Sys E)
        else ⟨h', e', ⟨ap - headerSize, h'.size (ap - headerSize), nbytes.toNat⟩ :: s.live⟩).env
        = e' := by
      split <;> rfl
    refine ⟨by simpa only [henv] using hok', fun hS => ?_⟩
    rw [henv] at hS
    obtain ⟨F, hF⟩ := (hinv (lt_of_le_of_lt hle hS)).start hbase
    exact (Env.malloc_sound hV hbase hok nbytes.toNat_lt hc hF hm hS).inv
  | free fuel ap =>
    simp only [step] at hstep
    split at hstep
    · cases hstep
    next b hfind =>
      simp only [Option.map_eq_some_iff] at hstep
      obtain ⟨h', hfree, rfl⟩ := hstep
      refine ⟨hok, fun hS => ?_⟩
      have hb := mem_of_find?_eq_some hfind
      obtain rfl : Heap.after b.hdr 1 = ap := by
        simpa using List.find?_some hfind
      rcases hinv hS with ⟨-, hlive, -⟩ | ⟨F, hF⟩
      · rw [hlive] at hb
        cases hb
      · obtain ⟨h₁, F', hfree₁, hs', -⟩ := (hF.perm (perm_cons_erase hb)).free
          (by rw [Env.card_obtained]; exact hS) le_rfl
        have heq := free_mono hfree F.length
        rw [add_comm, free_mono hfree₁ fuel] at heq
        cases heq
        exact .inr ⟨F', hs'⟩
  | store a v =>
    simp only [step] at hstep
    split at hstep
    next ha =>
      cases hstep
      exact ⟨hok, fun hS => (hinv hS).store ha⟩
    · cases hstep
  | env x =>
    simp only [step, Option.map_eq_some_iff] at hstep
    obtain ⟨e', he, rfl⟩ := hstep
    obtain ⟨hok', hsegs⟩ := hV.acts hok he
    refine ⟨hok', fun hS => ?_⟩
    have hunits : V.units s.env < 2 ^ 32 := by
      rw [Env.units, ← hsegs]
      exact hS
    rcases hinv hunits with ⟨hfreep, hlive, hnil⟩ | ⟨F, hF⟩
    · exact .inl ⟨hfreep, hlive, hsegs.trans hnil⟩
    · have hobt : V.obtained e' = V.obtained s.env := by rw [Env.obtained, Env.obtained, hsegs]
      refine .inr ⟨F, ?_⟩
      rw [hobt]
      exact hF

theorem run_good (hV : V.Lawful base ok) (hbase : 0 < base) {mem : ℕ → Header} {e : E}
    (he : ok e) (hsegs : V.segs e = []) {calls : List (Call A)} (hcalls : ∀ c ∈ calls, c.Modest)
    (hrun : run (step V base) (Sys.start mem e) calls = some s) : s.Good V base ok :=
  run_invariant (fun _ _ _ hs hc hstep => step_good hV hbase hs hc hstep)
    ⟨he, fun _ => .inl ⟨rfl, rfl, hsegs⟩⟩ (along_of_forall hcalls _) hrun

def InMemory (segs : List (ℕ × ℕ)) (a n : ℕ) : Prop :=
  ∀ x, a ≤ x → x < Heap.after a n → ∃ seg ∈ segs, seg.1 ≤ x ∧ x < Heap.after seg.1 seg.2

theorem inMemory_of_slots {e : E} {a n : ℕ} (hsub : ∀ x ∈ slots a n, x ∈ V.obtained e) :
    InMemory (V.segs e) a n := by
  intro x hax hxn
  unfold Heap.after headerSize at hxn
  have hslot : a + headerSize * ((x - a) / headerSize) ∈ slots a n :=
    mem_slots.2 ⟨(x - a) / headerSize, by unfold headerSize; omega, rfl⟩
  obtain ⟨seg, hseg, hmem⟩ := V.mem_obtained.1 (hsub _ hslot)
  obtain ⟨i, hi, heq⟩ := mem_slots.1 hmem
  unfold headerSize at heq
  refine ⟨seg, hseg, ?_, ?_⟩
  · omega
  · unfold Heap.after headerSize
    omega

def Apart (x y : ℕ × ℕ) : Prop := Heap.after x.1 x.2 ≤ y.1 ∨ Heap.after y.1 y.2 ≤ x.1

/-- A heap in order: the callers' blocks have their bytes behind the header, the free blocks are a
ring in address order without adjacent blocks, all lie in memory from `sbrk` with no byte in common,
and no unit is lost. -/
structure HeapOk (base : ℕ) (s : Sys E) (segs : List (ℕ × ℕ)) (F : List ℕ) : Prop where
  listed : Listed base s.heap F
  bytes : ∀ b ∈ s.live, headerSize + b.bytes ≤ headerSize * b.units
  aligned : ∀ b ∈ s.live, headerSize ∣ Heap.after b.hdr 1
  live_inside : ∀ b ∈ s.live, InMemory segs b.hdr b.units
  free_inside : ∀ a ∈ F, InMemory segs a (s.heap.size a)
  live_apart : s.live.Pairwise fun b c => Apart (b.hdr, b.units) (c.hdr, c.units)
  free_apart : ∀ b ∈ s.live, ∀ a ∈ F, Apart (b.hdr, b.units) (a, s.heap.size a)
  total : (F.map s.heap.size).sum + (s.live.map Live.units).sum = (segs.map Prod.snd).sum

theorem Sound.live_pairwise {h : Heap} {F : List ℕ} {live : List Live} {S : Multiset ℕ}
    (hs : Sound base h F live S) :
    live.Pairwise fun b c => Apart (b.hdr, b.units) (c.hdr, c.units) := by
  have hsub : ∀ l : List Live, l.Sublist live → l.Pairwise fun b c =>
      Apart (b.hdr, b.units) (c.hdr, c.units) := by
    intro l
    induction l with
    | nil => exact fun _ => .nil
    | cons b l ih =>
      intro hl
      rw [pairwise_cons]
      refine ⟨fun c hc => ?_, ih ((sublist_cons_self b l).trans hl)⟩
      obtain ⟨m, hm⟩ := hl.exists_perm_append
      have hmem : c ∈ l ++ m := mem_append_left m hc
      exact (hs.perm hm).live_apart hmem
  exact hsub live (List.Sublist.refl live)

theorem Sound.heapOk {F : List ℕ} (hs : Sound base s.heap F s.live (V.obtained s.env)) :
    HeapOk base s (V.segs s.env) F := by
  refine ⟨hs.listed, fun b hb => ?_, fun b hb => ?_, fun b hb => ?_, fun a ha => ?_,
    hs.live_pairwise, fun b hb a ha => (hs.apart hb ha).symm, ?_⟩
  · have := (hs.live_ok b hb).2
    omega
  · exact Dvd.dvd.add (hs.hdr_dvd hb) (dvd_mul_right _ _)
  · exact inMemory_of_slots fun x hx => hs.live_subset (mem_liveUnits.2 ⟨b, hb, hx⟩)
  · exact inMemory_of_slots fun x hx => hs.free_subset (Heap.mem_units.2 ⟨a, ha, hx⟩)
  · rw [hs.card, Env.card_obtained]
    rfl

end runs

/-- An environment that answers with any fresh aligned memory, or fails: the answers to the next
requests, and what was given. Other users of `sbrk` show as gaps. -/
structure Grants where
  segs : List (ℕ × ℕ)
  answers : List ℕ

def grants (base : ℕ) : Env Grants (List ℕ) where
  sbrk e n :=
    match e.answers with
    | [] => some (e, none)
    | a :: answers =>
      if 0 < n ∧ base + headerSize ≤ a ∧ headerSize ∣ a ∧
          ∀ seg ∈ e.segs, Heap.after seg.1 seg.2 ≤ a then
        some (⟨(a, n.toNat / headerSize) :: e.segs, answers⟩, some a)
      else none
  act e answers := some { e with answers := answers }
  segs := Grants.segs

theorem lawful_grants (base : ℕ) : (grants base).Lawful base fun _ => True := by
  refine ⟨?_, ?_, ?_⟩
  · intro e e' n _ _ hs
    simp only [grants] at hs
    split at hs
    · cases hs
      exact ⟨trivial, rfl⟩
    · split at hs <;> simp at hs
  · intro e e' n a _ _ hs
    simp only [grants] at hs
    split at hs
    · simp at hs
    · split at hs
      next hfresh =>
        cases hs
        refine ⟨trivial, hfresh.2.1, hfresh.2.2.1, fun x hx => ?_, ?_⟩
        · obtain ⟨seg, hseg, hslot⟩ := (grants base).mem_obtained.1 hx
          exact (lt_after_of_mem_slots hslot).2.trans_le (hfresh.2.2.2 seg hseg)
        · have hn : ((n * headerSize : ℕ) : ℤ).toNat / headerSize = n := by
            rw [Int.toNat_natCast]
            exact Nat.mul_div_cancel n (by decide)
          simp only [grants, hn]
      · simp at hs
  · intro e e' answers _ hs
    cases hs
    exact ⟨trivial, rfl⟩

/-- In every run of `malloc` and `free` with requests below 2 ^ 31 bytes, as long as `sbrk` has
given less than 2 ^ 32 units, the heap is in order and the next call returns. -/
theorem heap_sound {base : ℕ} (hbase : 0 < base) {mem : ℕ → Header}
    {calls : List (Call (List ℕ))} {s : Sys Grants} (hcalls : ∀ c ∈ calls, c.Modest)
    (hrun : run (step (grants base) base) (Sys.start mem ⟨[], []⟩) calls = some s)
    (hunits : (grants base).units s.env < 2 ^ 32) :
    ((s.heap.freep = 0 ∧ s.live = [] ∧ s.env.segs = []) ∨ ∃ F, HeapOk base s s.env.segs F) ∧
    (∀ nbytes : UInt32, Modest nbytes.toNat → ∀ e a,
      (grants base).sbrk s.env (sbrkArg (nunits nbytes.toNat)) = some (e, a) →
      (grants base).units e < 2 ^ 32 →
      ∃ N, ∀ fuel ≥ N, (step (grants base) base s (.malloc fuel nbytes)).isSome) ∧
      (∀ b ∈ s.live, ∃ N, ∀ fuel ≥ N,
      (step (grants base) base s (.free fuel (Heap.after b.hdr 1))).isSome) := by
  have hgood := run_good (lawful_grants base) hbase trivial rfl hcalls hrun
  have hinv := hgood.2 hunits
  refine ⟨?_, fun nbytes hmod e a hsbrk hS => ?_, fun b hb => ?_⟩
  · rcases hinv with hfresh | ⟨F, hF⟩
    · exact .inl hfresh
    · exact .inr ⟨F, hF.heapOk⟩
  · obtain ⟨F, hF⟩ := hinv.start hbase
    obtain ⟨h', e', r, N, -, hret⟩ := Env.malloc_returns (lawful_grants base) hbase trivial
      nbytes.toNat_lt hmod hF hunits fun _ => ⟨e, a, hsbrk, hS⟩
    refine ⟨N, fun fuel hfuel => ?_⟩
    obtain ⟨k, rfl⟩ := Nat.exists_eq_add_of_le hfuel
    rw [step, hret k]
    rfl
  · rcases hinv with ⟨-, hlive, -⟩ | ⟨F, hF⟩
    · rw [hlive] at hb
      cases hb
    · obtain ⟨h', F', hfree, -, -⟩ := (hF.perm (perm_cons_erase hb)).free
        (by rw [Env.card_obtained]; exact hunits) le_rfl
      refine ⟨F.length, fun fuel hfuel => ?_⟩
      obtain ⟨k, rfl⟩ := Nat.exists_eq_add_of_le hfuel
      have hfind : ∃ c, s.live.find? (fun c => Heap.after c.hdr 1 == Heap.after b.hdr 1) =
          some c := by
        rw [← Option.isSome_iff_exists, List.find?_isSome]
        exact ⟨b, hb, by simp⟩
      obtain ⟨c, hc⟩ := hfind
      rw [step, hc, free_mono hfree k]
      rfl

def someCalls : List (Call (List ℕ)) :=
  [.env [4096], .malloc 9 100, .malloc 9 200, .env [131072], .malloc 9 80000,
    .free 9 (Heap.after 69280 1), .malloc 9 10]

theorem heap_sound_someCalls :
    ∃ s, run (step (grants 64) 64) (Sys.start (fun _ => ⟨0, 0⟩) ⟨[], []⟩) someCalls
        = some s ∧ s.live.length = 3 ∧ ∃ F, HeapOk 64 s s.env.segs F := by
  have hrun : (run (step (grants 64) 64) (Sys.start (fun _ => ⟨0, 0⟩) ⟨[], []⟩)
      someCalls).elim false (fun s => decide (s.live.length = 3 ∧ (grants 64).units s.env < 2 ^ 32))
      = true := by
    decide +kernel
  obtain ⟨s, hs, hd⟩ := exists_of_elim hrun
  obtain ⟨hlive, hunits⟩ := of_decide_eq_true hd
  have hcalls : ∀ c ∈ someCalls, c.Modest := by decide +kernel
  rcases (heap_sound (by decide) hcalls hs hunits).1 with ⟨-, hnil, -⟩ | hok
  · rw [hnil] at hlive
    cases hlive
  · exact ⟨s, hs, hlive, hok⟩

theorem Listed.eq_pair {base x : ℕ} {h : Heap} {F : List ℕ} (hF : Listed base h F)
    (hb : h.next base = x) (hx : h.next x = base) (hne : x ≠ base) : F = [base, x] := by
  obtain ⟨L, rfl⟩ := hF.head_eq
  have hchain := Ring.isRing_cons.1 hF.ring
  have hnd := hF.nodup
  rcases L with _ | ⟨y, _ | ⟨z, L⟩⟩
  · rw [nil_append, isChain_cons_cons] at hchain
    exact absurd (hb.symm.trans hchain.1) hne
  · rw [cons_append, isChain_cons_cons] at hchain
    rw [hb.symm.trans hchain.1]
  · rw [cons_append, cons_append, isChain_cons_cons, isChain_cons_cons] at hchain
    have hy : x = y := hb.symm.trans hchain.1
    have hz : base = z := by
      rw [← hx, hy]
      exact hchain.2.1
    simp [hz] at hnd

/-- 33 blocks of 2 ^ 27 - 1 units in one piece of memory, then all given back. -/
def hugeCalls : List (Call (List ℕ)) :=
  let unit := 2 ^ 27 - 1
  (List.range 33).flatMap (fun i =>
    [.env [4096 + i * (unit * headerSize)], .malloc 4 (UInt32.ofNat ((unit - 1) * headerSize))]) ++
  (List.range 33).map fun i => .free 4 (Heap.after (4096 + i * (unit * headerSize)) 1)

theorem size_overflows_after_frees :
    ∃ s, run (step (grants 64) 64) (Sys.start (fun _ => ⟨0, 0⟩) ⟨[], []⟩) hugeCalls = some s ∧
      (∀ c ∈ hugeCalls, c.Modest) ∧ s.heap.freep ≠ 0 ∧ ∀ F, ¬ HeapOk 64 s s.env.segs F := by
  have hrun : (run (step (grants 64) 64) (Sys.start (fun _ => ⟨0, 0⟩) ⟨[], []⟩)
      hugeCalls).elim false (fun s => decide (s.heap.freep ≠ 0 ∧ s.live = [] ∧
        s.heap.next 64 = 4096 ∧ s.heap.next 4096 = 64 ∧
        s.heap.size 64 + s.heap.size 4096 < (s.env.segs.map Prod.snd).sum)) = true := by
    decide +kernel
  obtain ⟨s, hs, hd⟩ := exists_of_elim hrun
  obtain ⟨hfreep, hlive, hb, hx, hsum⟩ := of_decide_eq_true hd
  refine ⟨s, hs, by decide +kernel, hfreep, fun F hF => ?_⟩
  have htotal := hF.total
  rw [hF.listed.eq_pair hb hx (by decide), hlive] at htotal
  simp only [map_cons, map_nil, sum_cons, sum_nil] at htotal
  omega

/-- A process as `sys_sbrk` sees it: its size, whether the kernel is out of pages, and the memory
that the allocator has from it. -/
structure Process where
  sz : ℕ
  refuse : Bool
  segs : List (ℕ × ℕ)

inductive ProcessAct
  | refuse (b : Bool)
  | sbrk (n : ℕ)

def physSize : ℕ := 2 ^ 27

/-- `growproc`: a shrink below zero wraps around in `uvmdealloc` and leaves the size as it is. -/
def Process.growproc (p : Process) (n : ℤ) : Option ℕ :=
  if 0 < n then
    if p.refuse || physSize < p.sz + n.toNat then none else some (p.sz + n.toNat)
  else if n < 0 then
    let newsz := ((p.sz + n) % 2 ^ 64).toNat
    some (if p.sz ≤ newsz then p.sz else newsz)
  else some p.sz

def below (sz : ℕ) (seg : ℕ × ℕ) : ℕ × ℕ := (seg.1, min seg.2 ((sz - seg.1) / headerSize))

/-- `sys_sbrk`: the answer is the old size. -/
def process : Env Process ProcessAct where
  sbrk p n :=
    match p.growproc n with
    | none => some (p, none)
    | some sz =>
      some ({ p with
        sz := sz
        segs := if p.sz < sz then (p.sz, (sz - p.sz) / headerSize) :: p.segs
          else p.segs.map (below sz) }, some p.sz)
  act p
    | .refuse b => some { p with refuse := b }
    | .sbrk n =>
      if p.refuse || physSize < Heap.after p.sz n then some p
      else some { p with sz := Heap.after p.sz n }
  segs := Process.segs

theorem process_sbrk {p : Process} {n : ℤ} {sz : ℕ} (hp : p.growproc n = some sz) :
    process.sbrk p n = some ({ p with
      sz := sz
      segs := if p.sz < sz then (p.sz, (sz - p.sz) / headerSize) :: p.segs
        else p.segs.map (below sz) }, some p.sz) := by
  simp only [process, hp]

/-- All memory from `sbrk` lies below the size of the process, which is a whole number of units and
no more than there is. -/
def Process.Ok (base : ℕ) (p : Process) : Prop :=
  base + headerSize ≤ p.sz ∧ headerSize ∣ p.sz ∧ p.sz ≤ physSize ∧
  (∀ x ∈ process.obtained p, x < p.sz) ∧ headerSize * process.units p ≤ p.sz

theorem lawful_process (base : ℕ) : process.Lawful base (Process.Ok base) := by
  refine ⟨?_, ?_, ?_⟩
  · intro p p' n hp hn hs
    simp only [process] at hs
    split at hs
    · cases hs
      exact ⟨hp, rfl⟩
    · simp at hs
  · intro p p' n a hp hn hs
    obtain ⟨hbase, hdvd, hphys, hbelow, hunits⟩ := hp
    have hpos : 0 < n * headerSize := mul_pos hn (by decide)
    have hgrow : p.growproc ((n * headerSize : ℕ) : ℤ) =
        if p.refuse || decide (physSize < p.sz + n * headerSize) then none
        else some (p.sz + n * headerSize) := by
      unfold Process.growproc
      rw [if_pos (by exact_mod_cast hpos), Int.toNat_natCast]
    simp only [process, hgrow] at hs
    split at hs
    · simp at hs
    next sz hsz =>
      split at hsz
      · cases hsz
      next hroom =>
        cases hsz
        have hlt : p.sz < p.sz + n * headerSize := by omega
        have hback : (p.sz + n * headerSize - p.sz) / headerSize = n := by
          rw [Nat.add_sub_cancel_left]
          exact Nat.mul_div_cancel n (by decide)
        simp only [hlt, if_true, hback, Option.some.injEq, Prod.mk.injEq] at hs
        obtain ⟨rfl, rfl⟩ := hs
        have hsegs : process.segs { p with
            sz := p.sz + n * headerSize, segs := (p.sz, n) :: p.segs } = (p.sz, n) :: p.segs := rfl
        have hroom' : p.sz + n * headerSize ≤ physSize := by
          simp only [Bool.or_eq_true, decide_eq_true_eq, not_or, not_lt] at hroom
          exact hroom.2
        refine ⟨⟨by simp only; omega, ?_, hroom', ?_, ?_⟩, hbase, hdvd, hbelow, hsegs⟩
        · exact Dvd.dvd.add hdvd (dvd_mul_left _ _)
        · intro x hx
          rw [Env.obtained, hsegs, map_cons, sum_cons, Multiset.mem_add] at hx
          rcases hx with hx | hx
          · rw [mul_comm n]
            exact (lt_after_of_mem_slots hx).2
          · exact (hbelow x hx).trans hlt
        · rw [Env.units, hsegs, map_cons, sum_cons, mul_add, mul_comm n]
          have : headerSize * (p.segs.map Prod.snd).sum ≤ p.sz := hunits
          simp only
          omega
  · intro p p' x hp hs
    obtain ⟨hbase, hdvd, hphys, hbelow, hunits⟩ := hp
    cases x with
    | refuse b =>
      cases hs
      exact ⟨⟨hbase, hdvd, hphys, hbelow, hunits⟩, rfl⟩
    | sbrk n =>
      simp only [process] at hs
      split at hs
      · cases hs
        exact ⟨⟨hbase, hdvd, hphys, hbelow, hunits⟩, rfl⟩
      next hroom =>
        cases hs
        have hle : p.sz ≤ Heap.after p.sz n := le_add_right _ _
        have hroom' : Heap.after p.sz n ≤ physSize := by
          simp only [Bool.or_eq_true, decide_eq_true_eq, not_or, not_lt] at hroom
          exact hroom.2
        refine ⟨⟨hbase.trans hle, ?_, hroom', ?_, hunits.trans hle⟩, rfl⟩
        · exact Dvd.dvd.add hdvd (dvd_mul_right _ _)
        · exact fun x hx => lt_of_lt_of_le (hbelow x hx) hle

/-- The result of `malloc(nbytes)`: 0, or bytes that all lie in memory from `sbrk`. -/
def Safe (segs : List (ℕ × ℕ)) (nbytes ap : ℕ) : Prop :=
  ap = 0 ∨ ∀ k < nbytes, ∃ seg ∈ segs, seg.1 ≤ ap + k ∧ ap + k < Heap.after seg.1 seg.2

def Process.start (sz : ℕ) : Process := ⟨sz, false, []⟩

theorem Process.start_ok {base sz : ℕ} (hbase : base + headerSize ≤ sz) (hdvd : headerSize ∣ sz)
    (hsz : sz ≤ physSize) : (Process.start sz).Ok base := by
  refine ⟨hbase, hdvd, hsz, fun x hx => ?_, zero_le _⟩
  simp [Env.obtained, process, Process.start] at hx

theorem Process.Ok.units_lt {base : ℕ} {p : Process} (hp : p.Ok base) :
    process.units p < 2 ^ 32 := by
  obtain ⟨-, -, hphys, -, hunits⟩ := hp
  unfold physSize at hphys
  unfold headerSize at hunits
  omega

theorem Env.Returned.safe {E A : Type} {V : Env E A} {base nbytes ap : ℕ} {live : List Live}
    {h : Heap} {e : E} (hr : Env.Returned base live nbytes h (V.obtained e) ap) :
    Safe (V.segs e) nbytes ap := by
  cases hr with
  | null hs => exact .inl rfl
  | @block F hdr hs =>
    right
    intro k hk
    have hok := (hs.live_ok _ mem_cons_self).2
    have hin : InMemory (V.segs e) hdr (nunits nbytes) := inMemory_of_slots fun x hx =>
      hs.live_subset (mem_liveUnits.2 ⟨_, mem_cons_self, hx⟩)
    refine hin _ ?_ ?_
    · unfold Heap.after
      omega
    · simp only [Heap.after, mul_one] at hok ⊢
      omega

/-- A request that does not fit asks for less memory than it needs, or for none, and gets it. -/
theorem growproc_of_not_modest {nbytes sz : ℕ} (hn : nbytes < 2 ^ 32) (hmod : ¬ Modest nbytes)
    (hsz : sz + headerSize ≤ physSize) :
    ∃ sz', (Process.start sz).growproc (sbrkArg (nunits nbytes)) = some sz' ∧
    sz' ≤ sz + headerSize := by
  have hcore : coreUnits (nunits nbytes) = nunits nbytes := by
    by_contra hne
    unfold coreUnits at hne
    split at hne
    next hlt =>
      refine hmod ?_
      unfold Modest coreUnits headerSize
      rw [if_pos hlt]
      norm_num
    next => exact hne rfl
  have hge : 2 ^ 31 ≤ nunits nbytes * 16 := by
    unfold Modest headerSize at hmod
    rw [hcore] at hmod
    omega
  have hle : nunits nbytes ≤ 2 ^ 28 + 1 := by
    unfold nunits headerSize
    omega
  -- the argument is 16 for the largest requests, and not positive for all others
  rcases lt_or_ge (2 ^ 28) (nunits nbytes) with hbig | hsmall
  · have harg : sbrkArg (nunits nbytes) = 16 := by
      unfold sbrkArg headerSize
      rw [hcore, show nunits nbytes = 2 ^ 28 + 1 by omega]
      decide
    refine ⟨sz + headerSize, ?_, le_rfl⟩
    unfold headerSize at hsz ⊢
    rw [harg]
    have hroom : ¬ physSize < sz + 16 := by omega
    simp [Process.growproc, Process.start, hroom]
  · have harg : sbrkArg (nunits nbytes) ≤ 0 := by
      have hval : sbrkArg (nunits nbytes) = (nunits nbytes * 16 : ℕ) - 2 ^ 32 := by
        unfold sbrkArg headerSize
        rw [hcore, Int.bmod_def]
        have hcast : ((nunits nbytes * 16 : ℕ) : ℤ) = (nunits nbytes : ℤ) * 16 := by push_cast; rfl
        rw [hcast]
        norm_num
        split <;> omega
      rw [hval]
      push_cast
      omega
    rcases lt_or_eq_of_le harg with hneg | hzero
    · have hgrow : (Process.start sz).growproc (sbrkArg (nunits nbytes)) =
          some (if sz ≤ ((sz + sbrkArg (nunits nbytes)) % 2 ^ 64).toNat then sz
            else ((sz + sbrkArg (nunits nbytes)) % 2 ^ 64).toNat) := by
        unfold Process.growproc
        rw [if_neg (by omega), if_pos hneg]
        rfl
      refine ⟨_, hgrow, ?_⟩
      split <;> omega
    · refine ⟨sz, ?_, le_add_right _ _⟩
      rw [hzero]
      simp [Process.growproc, Process.start]

/-- `sbrk` answers such a request with the old size, as if the memory were there. -/
theorem sbrk_of_not_modest {nbytes sz : ℕ} (hn : nbytes < 2 ^ 32) (hmod : ¬ Modest nbytes)
    (hsz : sz + headerSize ≤ physSize) :
    ∃ p, process.sbrk (Process.start sz) (sbrkArg (nunits nbytes)) = some (p, some sz) ∧
      ∀ seg ∈ p.segs, Heap.after seg.1 seg.2 ≤ sz + headerSize := by
  obtain ⟨sz', hgrow, hsz'⟩ := growproc_of_not_modest hn hmod hsz
  refine ⟨⟨sz', false, if sz < sz' then [(sz, (sz' - sz) / headerSize)] else []⟩, ?_, ?_⟩
  · rw [process_sbrk hgrow]
    rfl
  · intro seg hseg
    simp only at hseg
    split at hseg
    · obtain rfl := mem_singleton.1 hseg
      simp only [Heap.after, headerSize] at hsz' ⊢
      omega
    · cases hseg

/-- The first call of `malloc`, for a request that does not fit, returns memory that the process
does not have. -/
theorem malloc_unsafe {base nbytes sz : ℕ} (mem : ℕ → Header) (hbase : 0 < base)
    (habove : base + headerSize ≤ sz) (hdvd : headerSize ∣ sz) (hsz : sz + headerSize ≤ physSize)
    (hn : nbytes < 2 ^ 32) (hmod : ¬ Modest nbytes) :
    ∃ N h p ap, (∀ k, malloc process.sbrk base (N + k) ⟨mem, 0⟩ (Process.start sz) nbytes
      = some (h, p, ap)) ∧ ¬ Safe p.segs nbytes ap := by
  have hs : Sound base (Heap.start ⟨mem, 0⟩ base) [base] [] 0 := sound_base ⟨mem, 0⟩ rfl
  have hsmall : ∀ a ∈ [base], (Heap.start ⟨mem, 0⟩ base).size a < nunits nbytes := by
    intro a ha
    rw [mem_singleton.1 ha, hs.listed.base_size]
    unfold nunits headerSize
    omega
  have hcard : (0 + slots sz (coreUnits (nunits nbytes))).card < 2 ^ 32 := by
    rw [Multiset.card_add, card_slots]
    unfold coreUnits nunits headerSize
    split
    · decide
    · simp
      omega
  obtain ⟨p, hsbrk, hsegs⟩ := sbrk_of_not_modest hn hmod hsz
  obtain ⟨h', F', hdr, N, hs', hall⟩ :=
    Env.malloc_of_answer hs hbase hn hsmall hsbrk habove hdvd (by simp) hcard
  refine ⟨N, h', p, Heap.after hdr 1, hall, ?_⟩
  have hhdr : sz ≤ hdr := by
    have hmem := hs'.live_subset (hs'.hdr_mem mem_cons_self)
    rw [zero_add] at hmem
    obtain ⟨i, -, rfl⟩ := mem_slots.1 hmem
    exact le_add_right _ _
  have hlarge : 2 ^ 31 ≤ nbytes + 47 := by
    unfold Modest coreUnits nunits headerSize at hmod
    split at hmod <;> omega
  rintro (hzero | hin)
  · simp [Heap.after, headerSize] at hzero
  · obtain ⟨seg, hseg, -, hlt⟩ := hin (nbytes - 1) (by omega)
    have hend := hsegs seg hseg
    simp only [Heap.after, headerSize] at hlt hend
    omega

/-- A request that fits returns in every state that a run of such requests reaches, and the result
is safe. -/
theorem malloc_safe {base sz nbytes : ℕ} (hbase : 0 < base) (habove : base + headerSize ≤ sz)
    (hdvd : headerSize ∣ sz) (hsz : sz ≤ physSize) (hn : nbytes < 2 ^ 32) (hmod : Modest nbytes)
    {mem : ℕ → Header} {calls : List (Call ProcessAct)} {s : Sys Process}
    (hcalls : ∀ c ∈ calls, c.Modest)
    (hrun : run (step process base) (Sys.start mem (Process.start sz)) calls = some s) :
    ∃ N h p ap, (∀ k, malloc process.sbrk base (N + k) s.heap s.env nbytes = some (h, p, ap)) ∧
      Safe p.segs nbytes ap := by
  have hV := lawful_process base
  obtain ⟨hok, hinv⟩ := run_good hV hbase (Process.start_ok habove hdvd hsz) rfl hcalls hrun
  obtain ⟨F, hF⟩ := (hinv hok.units_lt).start hbase
  obtain ⟨h, p, ap, N, hret, hall⟩ :=
    Env.malloc_returns hV hbase hok hn hmod hF hok.units_lt fun _ => by
    rw [hmod.sbrkArg]
    rcases hsb : process.sbrk s.env ((coreUnits (nunits nbytes) * headerSize : ℕ) : ℤ)
      with _ | ⟨e, _ | a⟩
    · simp only [process] at hsb
      split at hsb <;> cases hsb
    · exact ⟨e, _, rfl, (hV.fails hok coreUnits_pos hsb).1.units_lt⟩
    · exact ⟨e, _, rfl, (hV.grows hok coreUnits_pos hsb).1.units_lt⟩
  exact ⟨N, h, p, ap, hall, hret.safe⟩

/-- The argument of `sbrk` is the one that `morecore` means exactly for the requests that fit, and
these are exactly the requests that in every state of the heap return, given enough rounds, with a
safe result. -/
theorem malloc_safe_iff {base sz : ℕ} (hbase : 0 < base) (habove : base + headerSize ≤ sz)
    (hdvd : headerSize ∣ sz) (hsz : sz + headerSize ≤ physSize) (nbytes : UInt32) :
    (Modest nbytes.toNat ↔
      sbrkArg (nunits nbytes.toNat) = (coreUnits (nunits nbytes.toNat) * headerSize : ℕ)) ∧
    (Modest nbytes.toNat ↔ ∀ (mem : ℕ → Header) (calls : List (Call ProcessAct)) (s : Sys Process),
      (∀ c ∈ calls, c.Modest) →
      run (step process base) (Sys.start mem (Process.start sz)) calls = some s →
      ∃ N h p ap,
      (∀ fuel ≥ N, malloc process.sbrk base fuel s.heap s.env nbytes.toNat = some (h, p, ap)) ∧
        Safe p.segs nbytes.toNat ap) := by
  refine ⟨⟨Modest.sbrkArg, fun harg => ?_⟩,
    ⟨fun hmod mem calls s hcalls hrun => ?_, fun hsafe => ?_⟩⟩
  · have hlt : sbrkArg (nunits nbytes.toNat) < (2 ^ 32 + 1) / 2 := by
      unfold sbrkArg
      exact Int.bmod_lt (by norm_num)
    rw [harg] at hlt
    unfold Modest
    norm_num at hlt ⊢
    omega
  · obtain ⟨N, h, p, ap, hall, hap⟩ :=
      malloc_safe hbase habove hdvd (by omega) nbytes.toNat_lt hmod hcalls hrun
    refine ⟨N, h, p, ap, fun fuel hfuel => ?_, hap⟩
    obtain ⟨k, rfl⟩ := Nat.exists_eq_add_of_le hfuel
    exact hall k
  · by_contra hmod
    obtain ⟨N, h, p, ap, hall, hunsafe⟩ :=
      malloc_unsafe (fun _ => ⟨0, 0⟩) hbase habove hdvd hsz nbytes.toNat_lt hmod
    obtain ⟨M, h', p', ap', hall', hap⟩ := hsafe _ [] _ (by simp) rfl
    cases (hall M).symm.trans (hall' (N + M) (le_add_left _ _))
    exact hunsafe hap

theorem malloc_safe_iff_page : ∃ N h p ap,
    (∀ fuel ≥ N, malloc process.sbrk 64 fuel ⟨fun _ => ⟨0, 0⟩, 0⟩ (Process.start 4096) 100
      = some (h, p, ap)) ∧ Safe p.segs 100 ap ∧ ap ≠ 0 := by
  obtain ⟨N, h, p, ap, hall, hap⟩ := (@malloc_safe_iff 64 4096 (by decide) (by decide) (by decide)
    (by decide) 100).2.1 (by decide) (fun _ => ⟨0, 0⟩) [] _ (by simp) rfl
  refine ⟨N, h, p, ap, hall, hap, ?_⟩
  have hrun : (malloc process.sbrk 64 4 ⟨fun _ => ⟨0, 0⟩, 0⟩ (Process.start 4096) 100).elim false
      (fun r => decide (r.2.2 ≠ 0)) = true := by
    decide +kernel
  obtain ⟨r, hr, hne⟩ := exists_of_elim hrun
  have hN := hall (4 + N) (le_add_left _ _)
  simp only [malloc, Sys.start] at hN hr
  rw [show UInt32.toNat 100 = 100 from rfl, mallocLoop_mono hr N] at hN
  cases hN
  exact of_decide_eq_true hne

/-- The largest request: `sbrk(16)` for a block of 2 ^ 28 + 1 units. -/
theorem malloc_outside_memory :
    ∃ h p ap, malloc process.sbrk 64 4 ⟨fun _ => ⟨0, 0⟩, 0⟩ (Process.start 4096) (2 ^ 32 - 1) =
    some (h, p, ap) ∧
      sbrkArg (nunits (2 ^ 32 - 1)) = 16 ∧ p.sz = 4112 ∧ ¬ Safe p.segs (2 ^ 32 - 1) ap := by
  have hrun : (malloc process.sbrk 64 4 ⟨fun _ => ⟨0, 0⟩, 0⟩ (Process.start 4096)
      (2 ^ 32 - 1)).elim false (fun r => decide (r.2.1.sz = 4112 ∧ r.2.1.segs = [(4096, 1)] ∧
        r.2.2 = 4112)) = true := by
    decide +kernel
  obtain ⟨⟨h, p, ap⟩, hm, hd⟩ := exists_of_elim hrun
  obtain ⟨hsz, hsegs, hap⟩ := of_decide_eq_true hd
  simp only at hsz hsegs hap
  refine ⟨h, p, ap, hm, by decide, hsz, ?_⟩
  rintro (hzero | hin)
  · omega
  · obtain ⟨seg, hseg, -, hlt⟩ := hin 0 (by norm_num)
    rw [hsegs, mem_singleton] at hseg
    subst hseg
    simp only [Heap.after, headerSize] at hlt
    omega

end Xv6.Umalloc
