import Xv6.UmallocInv

/-!
# The heap of the allocator

Every unit that `sbrk` has given belongs to exactly one block, which is free or a caller's. `malloc`
and `free` keep this, for every environment that answers `sbrk` with memory above all it gave
before.
-/

namespace Xv6.Umalloc

open Xv6.Ring List Nat Option

/-- A caller's block: the header's address, the units with the header, and the bytes asked for. -/
structure Live where
  hdr : ℕ
  units : ℕ
  bytes : ℕ
deriving DecidableEq, Repr

def liveUnits (live : List Live) : Multiset ℕ := (live.map fun b => slots b.hdr b.units).sum

section liveUnits

variable {b : Live} {live live' : List Live}

@[simp] theorem liveUnits_cons : liveUnits (b :: live) = slots b.hdr b.units + liveUnits live := by
  simp [liveUnits]

theorem liveUnits_perm (hp : live.Perm live') : liveUnits live = liveUnits live' :=
  (hp.map _).sum_eq

theorem card_liveUnits : (liveUnits live).card = (live.map Live.units).sum := by
  induction live with
  | nil => rfl
  | cons b live ih => simp [ih]

theorem mem_liveUnits {x : ℕ} : x ∈ liveUnits live ↔ ∃ b ∈ live, x ∈ slots b.hdr b.units := by
  induction live with
  | nil => simp [liveUnits]
  | cons b live ih => simp [ih]

end liveUnits

theorem apart_of_disjoint {a b m n : ℕ} (hd : ∀ x ∈ slots a m, x ∉ slots b n) (ha : headerSize ∣ a)
    (hb : headerSize ∣ b) (hm : 0 < m) (hn : 0 < n) : Heap.after a m ≤ b ∨ Heap.after b n ≤ a := by
  obtain ⟨i, rfl⟩ := ha
  obtain ⟨j, rfl⟩ := hb
  unfold Heap.after
  by_contra hcon
  push Not at hcon
  rw [← mul_add, ← mul_add] at hcon
  have h1 : j < i + m := Nat.lt_of_mul_lt_mul_left hcon.1
  have h2 : i < j + n := Nat.lt_of_mul_lt_mul_left hcon.2
  rcases le_total i j with hij | hij
  · refine hd (headerSize * j) (mem_slots.2 ⟨j - i, by omega, ?_⟩) (self_mem_slots hn)
    rw [← mul_add]
    congr 1
    omega
  · refine hd (headerSize * i) (self_mem_slots hm) (mem_slots.2 ⟨i - j, by omega, ?_⟩)
    rw [← mul_add]
    congr 1
    omega

/-- The units `S` from `sbrk` are those of the free list `F` and of the callers' blocks. -/
structure Sound (base : ℕ) (h : Heap) (F : List ℕ) (live : List Live) (S : Multiset ℕ) : Prop where
  listed : Listed base h F
  split : h.units F + liveUnits live = S
  nodup : S.Nodup
  above : ∀ x ∈ S, base + headerSize ≤ x ∧ headerSize ∣ x
  live_ok : ∀ b ∈ live, h.size b.hdr = b.units ∧ b.bytes + headerSize ≤ headerSize * b.units

namespace Sound

variable {base : ℕ} {h h' : Heap} {F F' : List ℕ} {live live' : List Live} {S : Multiset ℕ}
  {b c : Live} {a fuel : ℕ}

section

variable (hs : Sound base h F live S)
include hs

theorem disjoint {x : ℕ} (hx : x ∈ h.units F) : x ∉ liveUnits live := by
  have hn := hs.nodup
  rw [← hs.split, Multiset.nodup_add] at hn
  exact fun hl => Multiset.disjoint_left.1 hn.2.2 hx hl

theorem units_pos (hb : b ∈ live) : 0 < b.units := by
  have hle := (hs.live_ok b hb).2
  by_contra hzero
  obtain hu : b.units = 0 := by omega
  rw [hu] at hle
  simp [headerSize] at hle

theorem hdr_mem (hb : b ∈ live) : b.hdr ∈ liveUnits live :=
  mem_liveUnits.2 ⟨b, hb, self_mem_slots (hs.units_pos hb)⟩

theorem live_subset {x : ℕ} (hx : x ∈ liveUnits live) : x ∈ S := by
  rw [← hs.split, Multiset.mem_add]
  exact .inr hx

theorem free_subset {x : ℕ} (hx : x ∈ h.units F) : x ∈ S := by
  rw [← hs.split, Multiset.mem_add]
  exact .inl hx

theorem base_lt_hdr (hb : b ∈ live) : base < b.hdr := by
  have hle := (hs.above b.hdr (hs.live_subset (hs.hdr_mem hb))).1
  have : 0 < headerSize := by decide
  omega

theorem hdr_dvd (hb : b ∈ live) : headerSize ∣ b.hdr :=
    (hs.above _ (hs.live_subset (hs.hdr_mem hb))).2

theorem free_mem (ha : a ∈ F) (hne : a ≠ base) : a ∈ h.units F :=
  Heap.mem_units.2 ⟨a, ha, self_mem_slots (hs.listed.size_pos a ha hne)⟩

theorem hdr_not_mem (hb : b ∈ live) : b.hdr ∉ F := by
  intro hmem
  by_cases hne : b.hdr = base
  · have := hs.base_lt_hdr hb
    omega
  · exact hs.disjoint (hs.free_mem hmem hne) (hs.hdr_mem hb)

theorem apart (hb : b ∈ live) (ha : a ∈ F) :
    Heap.after a (h.size a) ≤ b.hdr ∨ Heap.after b.hdr b.units ≤ a := by
  by_cases hne : a = base
  · subst hne
    have := hs.base_lt_hdr hb
    rw [hs.listed.base_size]
    exact .inl (by simp only [Heap.after]; omega)
  · refine apart_of_disjoint (fun x hx hx' => ?_) ?_ ?_ (hs.listed.size_pos a ha hne)
      (hs.units_pos hb)
    · exact hs.disjoint (Heap.mem_units.2 ⟨a, ha, hx⟩) (mem_liveUnits.2 ⟨b, hb, hx'⟩)
    · exact (hs.above a (hs.free_subset (hs.free_mem ha hne))).2
    · exact hs.hdr_dvd hb

theorem perm (hp : live.Perm live') : Sound base h F live' S := by
  refine ⟨hs.listed, ?_, hs.nodup, hs.above, fun b hb => hs.live_ok b (hp.mem_iff.2 hb)⟩
  rw [← liveUnits_perm hp]
  exact hs.split

theorem card : (F.map h.size).sum + (live.map Live.units).sum = S.card := by
  rw [← hs.split, Multiset.card_add, Heap.card_units, card_liveUnits]

end

theorem disjoint_cons (hs : Sound base h F (b :: live) S) {x : ℕ} (hx : x ∈ slots b.hdr b.units) :
    x ∉ liveUnits live := by
  have hn := hs.nodup
  rw [← hs.split, liveUnits_cons, Multiset.nodup_add, Multiset.nodup_add] at hn
  exact Multiset.disjoint_left.1 hn.2.1.2.2 hx

theorem hdr_ne (hs : Sound base h F (b :: live) S) (hc : c ∈ live) : c.hdr ≠ b.hdr := by
  intro heq
  refine hs.disjoint_cons (self_mem_slots (hs.units_pos mem_cons_self)) (heq ▸ ?_)
  exact mem_liveUnits.2 ⟨c, hc, self_mem_slots (hs.units_pos (mem_cons_of_mem b hc))⟩

theorem live_apart (hs : Sound base h F (b :: live) S) (hc : c ∈ live) :
    Heap.after b.hdr b.units ≤ c.hdr ∨ Heap.after c.hdr c.units ≤ b.hdr := by
  have hcm := mem_cons_of_mem b hc
  refine apart_of_disjoint (fun x hx hx' => ?_) (hs.hdr_dvd mem_cons_self) (hs.hdr_dvd hcm)
    (hs.units_pos mem_cons_self) (hs.units_pos hcm)
  exact hs.disjoint_cons hx (mem_liveUnits.2 ⟨c, hc, hx'⟩)

/-- Stores into memory that is no header of a block change nothing. -/
theorem congr (hs : Sound base h F live S) (hF : ∀ a ∈ F, h'.mem a = h.mem a)
    (hlive : ∀ b ∈ live, h'.mem b.hdr = h.mem b.hdr) (hfreep : h'.freep = h.freep) :
    Sound base h' F live S := by
  have hsize : ∀ a ∈ F, h'.size a = h.size a := fun a ha => Heap.size_congr (hF a ha)
  obtain ⟨⟨hring, hbm, hbl, hbs, hpos, hgaps, hfp⟩, hsplit, hnodup, habove, hok⟩ := hs
  refine ⟨⟨?_, hbm, hbl, ?_, ?_, ?_, hfreep ▸ hfp⟩, ?_, hnodup, habove, fun b hb => ?_⟩
  · exact hring.congr fun a ha => Heap.next_congr (hF a ha)
  · rw [hsize base hbm, hbs]
  · intro a ha hne
    rw [hsize a ha]
    exact hpos a ha hne
  · refine hgaps.imp_of_mem fun {a b} ha _ hab => ?_
    rwa [hsize a ha]
  · rw [Heap.units_congr hsize, hsplit]
  · rw [Heap.size_congr (hlive b hb)]
    exact hok b hb

theorem free (hs : Sound base h F (b :: live) S) (hS : S.card < 2 ^ 32) (hfuel : F.length ≤ fuel) :
    ∃ h' F', h.free fuel (Heap.after b.hdr 1) = some h' ∧ Sound base h' F' live S ∧ ∃ a ∈ F',
    b.units ≤ h'.size a := by
  have hb : b ∈ b :: live := mem_cons_self
  have hsize := (hs.live_ok b hb).1
  have hcard := hs.card
  rw [map_cons, sum_cons] at hcard
  obtain ⟨h', F', hfree, hF'⟩ := hs.listed.free_spec (hs.base_lt_hdr hb)
    (by rw [hsize]; exact hs.units_pos hb) (fun a ha => by rw [hsize]; exact hs.apart hb ha)
    (by omega) hfuel
  refine ⟨h', F', hfree, ⟨hF'.listed, ?_, hs.nodup, hs.above, fun c hc => ?_⟩, ?_⟩
  · rw [hF'.units, hsize, ← hs.split, liveUnits_cons, add_assoc]
  · have hcm := mem_cons_of_mem b hc
    rw [Heap.size_congr (hF'.frame c.hdr (hs.hdr_not_mem hcm) (hs.hdr_ne hc))]
    exact hs.live_ok c hcm
  · rw [← hsize]
    exact hF'.fits

/-- The block that `take` cuts out of the free list becomes a caller's. -/
theorem take {nu prevp x bytes : ℕ} (hs : Sound base h F live S) (hS : S.card < 2 ^ 32)
    (hnu : bytes + headerSize ≤ headerSize * nu) (hprev : prevp ∈ F) (hx : x ∈ F)
    (hnext : h.next prevp = x) (hfits : nu ≤ h.size x) :
    ∃ F' hdr, (h.take nu prevp x).2 = Heap.after hdr 1 ∧
      Sound base (h.take nu prevp x).1 F' (⟨hdr, nu, bytes⟩ :: live) S := by
  have hpos : 0 < nu := by
    by_contra hzero
    obtain rfl : nu = 0 := by omega
    simp [headerSize] at hnu
  have hsize : h.size x < 2 ^ 32 := by
    have hle := single_le_sum (fun _ _ => zero_le _) _ (mem_map_of_mem (f := h.size) hx)
    have hcard := hs.card
    omega
  obtain ⟨F', hdr, hap, hT⟩ := hs.listed.take_spec hpos hprev hx hnext hfits hsize
  refine ⟨F', hdr, hap, ⟨hT.listed, ?_, hs.nodup, hs.above, fun c hc => ?_⟩⟩
  · rw [liveUnits_cons, ← add_assoc, hT.units, hs.split]
  · rcases mem_cons.1 hc with rfl | hc
    · exact ⟨hT.size, hnu⟩
    · have hhdr : hdr ∈ h.units F := by
        rw [← hT.units, Multiset.mem_add]
        exact .inr (self_mem_slots hpos)
      have hne : c.hdr ≠ hdr := fun heq => hs.disjoint hhdr (heq ▸ hs.hdr_mem hc)
      rw [Heap.size_congr (hT.frame c.hdr (hs.hdr_not_mem hc) hne)]
      exact hs.live_ok c hc

/-- The memory that `morecore` gets, as a block that is nobody's yet. -/
theorem grow {hp nu : ℕ} (hs : Sound base h F live S) (hpos : 0 < nu) (hnu : nu < 2 ^ 32)
    (habove : base + headerSize ≤ hp) (hdvd : headerSize ∣ hp) (hfresh : ∀ x ∈ S, x < hp) :
    Sound base (h.setSize hp nu) F (⟨hp, nu, 0⟩ :: live) (S + slots hp nu) := by
  have hpF : hp ∉ F := by
    intro hmem
    by_cases hne : hp = base
    · have : 0 < headerSize := by decide
      omega
    · have := hfresh hp (hs.free_subset (hs.free_mem hmem hne))
      omega
  have hlive : ∀ b ∈ live, b.hdr ≠ hp := fun b hb heq => by
    have := hfresh b.hdr (hs.live_subset (hs.hdr_mem hb))
    omega
  have hs' : Sound base (h.setSize hp nu) F live S := by
    refine hs.congr (fun a ha => ?_) (fun b hb => ?_) rfl
    · exact Heap.mem_setSize _ _ _ _ fun heq => hpF (heq ▸ ha)
    · exact Heap.mem_setSize _ _ _ _ (hlive b hb)
  refine ⟨hs'.listed, ?_, ?_, ?_, ?_⟩
  · rw [liveUnits_cons, ← hs'.split]
    abel
  · rw [Multiset.nodup_add]
    refine ⟨hs.nodup, ?_, Multiset.disjoint_left.2 fun {x} hx hx' => ?_⟩
    · rw [slots, Multiset.coe_nodup]
      exact nodup_range' headerSize (by decide)
    · obtain ⟨i, -, rfl⟩ := mem_slots.1 hx'
      have := hfresh _ hx
      omega
  · intro x hx
    rcases Multiset.mem_add.1 hx with hx | hx
    · exact hs.above x hx
    · obtain ⟨i, -, rfl⟩ := mem_slots.1 hx
      exact ⟨by omega, Dvd.dvd.add hdvd (dvd_mul_right _ _)⟩
  · intro c hc
    rcases mem_cons.1 hc with rfl | hc
    · refine ⟨by simpa using hnu, ?_⟩
      simp only [zero_add]
      exact Nat.le_mul_of_pos_right _ hpos
    · exact hs'.live_ok c hc

end Sound

section scan

variable {E : Type} {sbrk : E → ℤ → Option (E × Option ℕ)} {base nu fuel : ℕ} {h : Heap} {e : E}
  {F : List ℕ}

variable (sbrk nu e) in
theorem mallocLoop_skip {l : List ℕ} {prevp x : ℕ}
    (hl : List.IsChain (fun x y => h.next x = y) (prevp :: (l ++ [x])))
    (hsmall : ∀ y ∈ l, h.size y < nu ∧ y ≠ h.freep) : ∃ q ∈ prevp :: l, h.next q = x ∧ ∀ fuel,
      mallocLoop sbrk nu (fuel + l.length) h e prevp (h.next prevp) =
      mallocLoop sbrk nu fuel h e q x := by
  induction l generalizing prevp with
  | nil =>
    rw [nil_append, isChain_cons_cons] at hl
    refine ⟨prevp, mem_cons_self, hl.1, fun fuel => ?_⟩
    rw [hl.1, length_nil, add_zero]
  | cons y l ih =>
    rw [cons_append, isChain_cons_cons] at hl
    obtain ⟨q, hq, hqx, hloop⟩ := ih hl.2 fun z hz => hsmall z (mem_cons_of_mem y hz)
    refine ⟨q, mem_cons_of_mem prevp hq, hqx, fun fuel => ?_⟩
    have hy := hsmall y mem_cons_self
    rw [← hloop fuel, hl.1, length_cons, ← add_assoc, mallocLoop, if_neg (by omega), if_neg hy.2]

/-- The ring from `freep` on, for a scan that ends at `freep` again. -/
theorem Listed.scan (hF : Listed base h F) :
    ∃ l, List.IsChain (fun x y => h.next x = y) (h.freep :: (l ++ [h.freep])) ∧
      l.length + 1 = F.length ∧ h.freep ∉ l ∧ ∀ y, y ∈ F ↔ y ∈ l ∨ y = h.freep := by
  obtain ⟨A, B, hAB⟩ := append_of_mem hF.freep
  have hring := hF.ring
  have hnd := hF.nodup
  rw [hAB] at hring hnd
  rw [nodup_append, nodup_cons] at hnd
  refine ⟨B ++ A, isRing_cons.1 hring.enter, ?_, ?_, fun y => ?_⟩
  · simp only [hAB, length_append, length_cons]
    omega
  · intro hmem
    rcases mem_append.1 hmem with hmem | hmem
    · exact hnd.2.1.1 hmem
    · exact hnd.2.2 _ hmem _ mem_cons_self rfl
  · simp only [hAB, mem_append, mem_cons]
    tauto

variable (sbrk e) in
/-- If a block is large enough, the scan finds one. -/
theorem Listed.mallocLoop_of_fits (hF : Listed base h F) (hfits : ∃ a ∈ F, nu ≤ h.size a)
    (hfuel : F.length ≤ fuel) : ∃ q ∈ F, ∃ x ∈ F, h.next q = x ∧ nu ≤ h.size x ∧
    mallocLoop sbrk nu fuel h e h.freep (h.next h.freep) =
        some ((h.take nu q x).1, e, (h.take nu q x).2) := by
  obtain ⟨l, hchain, hlen, hnot, hmem⟩ := hF.scan
  have hmem' (y : ℕ) : y ∈ F ↔ y ∈ l ++ [h.freep] := by simp [hmem]
  obtain ⟨x, hx⟩ : ∃ x, (l ++ [h.freep]).find? (fun y => decide (nu ≤ h.size y)) = some x := by
    obtain ⟨a, ha, hafits⟩ := hfits
    rw [← isSome_iff_exists, List.find?_isSome]
    exact ⟨a, (hmem' a).1 ha, by simpa using hafits⟩
  obtain ⟨hxfits, l₁, l₂, hl, hsmall⟩ := List.find?_eq_some_iff_append.1 hx
  have hsub : ∀ y ∈ l₁, y ∈ l := by
    have hdrop := congrArg List.dropLast hl
    rw [dropLast_concat, dropLast_append_of_ne_nil (by simp)] at hdrop
    intro y hy
    rw [hdrop]
    exact mem_append_left _ hy
  have hlen₁ : l₁.length < F.length := by
    have := congrArg List.length hl
    simp only [length_append, length_cons, length_nil] at this
    omega
  have hchain₁ : List.IsChain (fun x y => h.next x = y) (h.freep :: (l₁ ++ [x])) := by
    have hsplit : h.freep :: (l ++ [h.freep]) = (h.freep :: (l₁ ++ [x])) ++ l₂ := by
      rw [hl]
      simp
    rw [hsplit, isChain_append] at hchain
    exact hchain.1
  obtain ⟨q, hq, hqx, hloop⟩ := mallocLoop_skip sbrk nu e hchain₁
    fun y hy => ⟨by simpa using hsmall y hy, fun heq => hnot (heq ▸ hsub y hy)⟩
  have hqF : q ∈ F := by
    rw [hmem]
    rcases mem_cons.1 hq with rfl | hq
    · exact .inr rfl
    · exact .inl (hsub q hq)
  have hxF : x ∈ F := by
    rw [hmem', hl]
    simp
  refine ⟨q, hqF, x, hxF, hqx, by simpa using hxfits, ?_⟩
  obtain ⟨k, rfl⟩ : ∃ k, fuel = (k + 1) + l₁.length := ⟨fuel - l₁.length - 1, by omega⟩
  rw [hloop, mallocLoop, if_pos (by simpa using hxfits)]

/-- If no block is large enough, the scan comes back to `freep` and asks for memory. -/
theorem Listed.mallocLoop_of_small (hF : Listed base h F) (hsmall : ∀ a ∈ F, h.size a < nu) :
    mallocLoop sbrk nu (fuel + F.length) h e h.freep (h.next h.freep) =
    (morecore sbrk fuel h e nu).bind fun r =>
        if r.2.2 = 0 then some (r.1, r.2.1, 0) else mallocLoop sbrk nu fuel r.1 r.2.1 r.2.2
          (r.1.next r.2.2) := by
  obtain ⟨l, hchain, hlen, hnot, hmem⟩ := hF.scan
  obtain ⟨q, -, -, hloop⟩ := mallocLoop_skip sbrk nu e hchain
    fun y hy => ⟨hsmall y ((hmem y).2 (.inl hy)), fun heq => hnot (heq ▸ hy)⟩
  have hfree := hsmall h.freep hF.freep
  rw [← hlen, show fuel + (l.length + 1) = (fuel + 1) + l.length by omega, hloop, mallocLoop,
    if_neg (by omega), if_pos rfl]
  rfl

end scan

/-! More rounds change no result. -/

section fuel

variable {E : Type} {sbrk : E → ℤ → Option (E × Option ℕ)} {nu base : ℕ}

theorem free_mono {n ap : ℕ} {h h' : Heap} (hf : h.free n ap = some h') (k : ℕ) :
    h.free (n + k) ap = some h' := by
  unfold Heap.free at hf ⊢
  simp only [bind_eq_bind, bind_eq_some_iff] at hf ⊢
  obtain ⟨p, hp, hh⟩ := hf
  exact ⟨p, walk_mono hp k, hh⟩

theorem morecore_answer {n r : ℕ} {h h' : Heap} {e e' : E}
    (hm : morecore sbrk n h e nu = some (h', e', r)) : ∃ a, sbrk e (sbrkArg nu) = some (e', a) := by
  unfold morecore at hm
  rcases hs : sbrk e (sbrkArg nu) with _ | ⟨e₁, _ | a⟩ <;> rw [hs] at hm
  · cases hm
  · cases hm
    exact ⟨_, rfl⟩
  · obtain ⟨_, -, heq⟩ := bind_eq_some_iff.1 hm
    cases heq
    exact ⟨_, rfl⟩

theorem morecore_mono {n : ℕ} {h : Heap} {e : E} {r : Heap × E × ℕ}
    (hm : morecore sbrk n h e nu = some r) (k : ℕ) : morecore sbrk (n + k) h e nu = some r := by
  unfold morecore at hm ⊢
  rcases hs : sbrk e (sbrkArg nu) with _ | ⟨e', _ | hp⟩ <;> rw [hs] at hm
  · cases hm
  · exact hm
  · simp only [bind_eq_bind, bind_eq_some_iff] at hm ⊢
    obtain ⟨h', hh', hr⟩ := hm
    exact ⟨h', free_mono hh' k, hr⟩

theorem morecore_of_grows {n a : ℕ} {h h' : Heap} {e e' : E}
    (hs : sbrk e (sbrkArg nu) = some (e', some a))
    (hf : (h.setSize a (coreUnits nu)).free n (Heap.after a 1) = some h') (k : ℕ) :
    morecore sbrk (n + k) h e nu = some (h', e', h'.freep) := by
  unfold morecore
  rw [hs]
  simp only [bind_eq_bind, bind_eq_some_iff, Option.some.injEq]
  exact ⟨h', free_mono hf k, rfl⟩

theorem mallocLoop_mono {n : ℕ} {h : Heap} {e : E} {prevp p : ℕ} {r : Heap × E × ℕ}
    (hm : mallocLoop sbrk nu n h e prevp p = some r) (k : ℕ) :
    mallocLoop sbrk nu (n + k) h e prevp p = some r := by
  induction n generalizing h e prevp p with
  | zero => simp [mallocLoop] at hm
  | succ n ih =>
    rw [add_right_comm, mallocLoop]
    rw [mallocLoop] at hm
    split at hm
    next hfit => rwa [if_pos hfit]
    next hfit =>
      rw [if_neg hfit]
      split at hm
      next hp =>
        rw [if_pos hp]
        simp only [bind_eq_bind, bind_eq_some_iff] at hm ⊢
        obtain ⟨r', hr', hrest⟩ := hm
        refine ⟨r', morecore_mono hr' k, ?_⟩
        split at hrest
        next hz => rwa [if_pos hz]
        next hz =>
          rw [if_neg hz]
          exact ih hrest
      next hp =>
        rw [if_neg hp]
        exact ih hm

end fuel

end Xv6.Umalloc
