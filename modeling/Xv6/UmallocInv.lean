import Xv6.Umalloc

/-!
# The free list

The free blocks lie in address order with a gap after each one, so no two are adjacent. `free` puts
a block in and joins it to its neighbours; `take` takes one out or cuts off its tail. Both move
units between the free blocks and the callers' blocks and lose none.
-/

namespace Xv6.Umalloc

open Xv6.Ring List Function

namespace Heap

variable (h : Heap) (a b p n : ℕ)

@[simp] theorem next_setPtr : (h.setPtr a p).next b = if b = a then p else h.next b := by
  unfold next setPtr
  by_cases hb : b = a <;> simp [hb]

@[simp] theorem size_setPtr : (h.setPtr a p).size b = h.size b := by
  unfold size setPtr
  by_cases hb : b = a <;> simp [hb]

@[simp] theorem next_setSize : (h.setSize a n).next b = h.next b := by
  unfold next setSize
  by_cases hb : b = a <;> simp [hb]

@[simp] theorem size_setSize : (h.setSize a n).size b = if b = a then n % 2 ^ 32 else h.size b := by
  unfold size setSize
  by_cases hb : b = a <;> simp [hb]

theorem mem_setPtr (hb : b ≠ a) : (h.setPtr a p).mem b = h.mem b := update_of_ne hb _ _

theorem mem_setSize (hb : b ≠ a) : (h.setSize a n).mem b = h.mem b := update_of_ne hb _ _

@[simp] theorem next_freep : ({ h with freep := p } : Heap).next a = h.next a := rfl

@[simp] theorem size_freep : ({ h with freep := p } : Heap).size a = h.size a := rfl

variable {h a b p n} {h' : Heap}

theorem next_congr (hm : h'.mem a = h.mem a) : h'.next a = h.next a := by
  rw [next, next, hm]

theorem size_congr (hm : h'.mem a = h.mem a) : h'.size a = h.size a := by
  rw [size, size, hm]

end Heap

def slots (a n : ℕ) : Multiset ℕ := (List.range' a n headerSize : Multiset ℕ)

@[simp] theorem card_slots (a n : ℕ) : (slots a n).card = n := by
  simp [slots]

theorem mem_slots {a n x : ℕ} : x ∈ slots a n ↔ ∃ i < n, x = a + headerSize * i := by
  simp [slots, mem_range']

theorem self_mem_slots {a n : ℕ} (hn : 0 < n) : a ∈ slots a n := mem_slots.2 ⟨0, hn, by simp⟩

theorem lt_after_of_mem_slots {a n x : ℕ} (hx : x ∈ slots a n) : a ≤ x ∧ x < Heap.after a n := by
  obtain ⟨i, hi, rfl⟩ := mem_slots.1 hx
  have := Nat.mul_lt_mul_of_pos_left hi (by decide : 0 < headerSize)
  unfold Heap.after
  omega

theorem slots_add (a m n : ℕ) : slots a (m + n) = slots a m + slots (Heap.after a m) n := by
  rw [slots, slots, slots, Heap.after, Multiset.coe_add, List.range'_append]

def Heap.units (h : Heap) (l : List ℕ) : Multiset ℕ := (l.map fun a => slots a (h.size a)).sum

namespace Heap

variable {h h' : Heap} {l l' : List ℕ} {a : ℕ}

@[simp] theorem units_nil : h.units [] = 0 := rfl

@[simp] theorem units_cons : h.units (a :: l) = slots a (h.size a) + h.units l := by
  simp [units]

@[simp] theorem units_append : h.units (l ++ l') = h.units l + h.units l' := by
  simp [units]

theorem units_congr (heq : ∀ a ∈ l, h'.size a = h.size a) : h'.units l = h.units l := by
  unfold units
  congr 1
  exact map_congr_left fun a ha => by rw [heq a ha]

theorem mem_units {x : ℕ} : x ∈ h.units l ↔ ∃ a ∈ l, x ∈ slots a (h.size a) := by
  induction l with
  | nil => simp
  | cons a l ih => simp [ih]

theorem card_units : (h.units l).card = (l.map h.size).sum := by
  induction l with
  | nil => simp
  | cons a l ih => simp [ih]

end Heap

/-- The free list as a list of addresses from `base` on: it is the ring of the links, and each block
ends before the next one begins. -/
structure Listed (base : ℕ) (h : Heap) (F : List ℕ) : Prop where
  ring : IsRing h.next F
  base_mem : base ∈ F
  base_le : ∀ a ∈ F, base ≤ a
  base_size : h.size base = 0
  size_pos : ∀ a ∈ F, a ≠ base → 0 < h.size a
  gaps : F.Pairwise fun a b => Heap.after a (h.size a) < b
  freep : h.freep ∈ F

namespace Listed

variable {base : ℕ} {h h' : Heap} {F : List ℕ} {bp p : ℕ}

theorem sorted (hF : Listed base h F) : F.Pairwise (· < ·) :=
  hF.gaps.imp fun hab => lt_of_le_of_lt (Nat.le_add_right _ _) hab

theorem nodup (hF : Listed base h F) : F.Nodup := hF.sorted.imp fun hab => ne_of_lt hab

theorem head_eq (hF : Listed base h F) : ∃ L, F = base :: L := by
  obtain ⟨A, B, hAB⟩ := append_of_mem hF.base_mem
  cases A with
  | nil => exact ⟨B, hAB⟩
  | cons a A =>
    have hlt : a < base := by
      have hs := hF.sorted
      rw [hAB, cons_append, pairwise_cons] at hs
      exact hs.1 base (by simp)
    have hle := hF.base_le a (by simp [hAB])
    omega

theorem next_cases (hF : Listed base h F) {A B : List ℕ} {x : ℕ} (hx : F = A ++ x :: B) :
    (∃ y B', B = y :: B' ∧ h.next x = y) ∨ (B = [] ∧ h.next x = base) := by
  have hring := hF.ring
  cases B with
  | cons y B =>
    rw [hx] at hring
    exact .inl ⟨y, B, rfl, hring.next_eq⟩
  | nil =>
    obtain ⟨L, hL⟩ := hF.head_eq
    rw [hx] at hring
    have hhead := head_of_isChain (isRing_cons.1 hring.enter)
    rw [nil_append, ← hx, hL] at hhead
    simp only [List.head?_cons, Option.some.injEq] at hhead
    exact .inr ⟨rfl, hhead.symm⟩

end Listed

theorem exists_cut {F : List ℕ} {b : ℕ} (hF : F.Pairwise (· < ·)) (hlow : ∃ a ∈ F, a < b)
    (hb : b ∉ F) : ∃ A p B, F = A ++ p :: B ∧ p < b ∧ (∀ x ∈ A, x < p) ∧ (∀ x ∈ B, b < x) := by
  induction F with
  | nil => simp at hlow
  | cons c F ih =>
    rw [pairwise_cons] at hF
    rw [mem_cons, not_or] at hb
    by_cases hF' : ∃ a ∈ F, a < b
    · obtain ⟨A, p, B, rfl, hp, hA, hB⟩ := ih hF.2 hF' hb.2
      refine ⟨c :: A, p, B, rfl, hp, fun x hx => ?_, hB⟩
      rcases mem_cons.1 hx with rfl | hx
      · exact hF.1 p (by simp)
      · exact hA x hx
    · push Not at hF'
      obtain ⟨a, ha, hab⟩ := hlow
      rcases mem_cons.1 ha with rfl | ha
      · refine ⟨[], a, F, rfl, hab, by simp, fun x hx => ?_⟩
        have hne : x ≠ b := fun h => hb.2 (h ▸ hx)
        have hle := hF' x hx
        omega
      · have hle := hF' a ha
        omega

namespace Listed

variable {base : ℕ} {h h' : Heap} {F A B : List ℕ} {bp p fuel : ℕ} {h₁ : Heap}

/-- The scan of `free` ends at the last block before `bp`, and nowhere else. -/
theorem stops_iff (hF : Listed base h F) (hbase : base < bp) (hp : F = A ++ p :: B) (hlt : p < bp)
    (hA : ∀ x ∈ A, x < p) (hB : ∀ x ∈ B, bp < x) {x : ℕ} (hx : x ∈ F) :
    h.stops bp x = true ↔ x = p := by
  have hmax : ∀ z ∈ F, z < bp → z ≤ p := by
    intro z hz hzbp
    rw [hp] at hz
    rcases mem_append.1 hz with hz | hz
    · exact (hA z hz).le
    · rcases mem_cons.1 hz with rfl | hz
      · exact le_rfl
      · have := hB z hz
        omega
  have hpF : p ∈ F := by simp [hp]
  have hstops : h.stops bp x = true ↔ (x < bp ∧ bp < h.next x) ∨
      (h.next x ≤ x ∧ (x < bp ∨ bp < h.next x)) := by
    simp [Heap.stops]
  obtain ⟨C, D, hCD⟩ := append_of_mem hx
  have hsorted := hF.sorted
  rw [hCD, pairwise_append, pairwise_cons] at hsorted
  obtain ⟨-, ⟨hxD, hDD⟩, hCx⟩ := hsorted
  have hpCD : p ∈ C ∨ p = x ∨ p ∈ D := by simpa [hCD] using hpF
  rw [hstops]
  rcases hF.next_cases hCD with ⟨y, D', rfl, hy⟩ | ⟨rfl, hy⟩
  · have hxy : x < y := hxD y mem_cons_self
    have hyF : y ∈ F := by simp [hCD]
    rw [hy]
    constructor
    · intro hs
      have hxbp : x < bp ∧ bp < y := by omega
      have hxp := hmax x hx hxbp.1
      rcases hpCD with hpC | rfl | hpD
      · have := hCx p hpC x mem_cons_self
        omega
      · rfl
      · have hyp : y ≤ p := by
          rcases mem_cons.1 hpD with rfl | hpD
          · exact le_rfl
          · exact ((pairwise_cons.1 hDD).1 p hpD).le
        omega
    · rintro rfl
      have hby : bp < y := by
        rw [hp] at hyF
        rcases mem_append.1 hyF with hyA | hyB
        · have := hA y hyA
          omega
        · rcases mem_cons.1 hyB with rfl | hyB
          · omega
          · exact hB y hyB
      exact .inl ⟨hlt, hby⟩
  · have hbx := hF.base_le x hx
    rw [hy]
    constructor
    · intro hs
      have hxp := hmax x hx (by omega)
      rcases hpCD with hpC | rfl | hpD
      · have := hCx p hpC x mem_cons_self
        omega
      · rfl
      · cases hpD
    · rintro rfl
      exact .inr ⟨hbx, .inl hlt⟩

/-- The block `bp` with `m` units as `joinUpper` leaves it: linked to the blocks `R` that follow, of
which it has swallowed the first if it touched it. Only the link of `p` to it is missing. -/
structure Upper (h h' : Heap) (bp p m : ℕ) (A B R : List ℕ) : Prop where
  frame : ∀ x, x ≠ bp → h'.mem x = h.mem x
  size : h'.size bp = m
  ring : IsRing (update h'.next p bp) (p :: bp :: (R ++ A))
  units : slots bp m + h.units R = slots bp (h.size bp) + h.units B
  sub : R.Sublist B
  gap : ∀ x ∈ R, Heap.after bp m < x
  le : h.size bp ≤ m

/-- The units of `bp` and of the blocks behind it stay in the 32 bits of a size. -/
theorem joinUpper_spec (hF : Listed base h F) (hbase : base < bp) (hp : F = A ++ p :: B)
    (hlt : p < bp) (hbp : bp ∉ F) (hB : ∀ x ∈ B, Heap.after bp (h.size bp) ≤ x)
    (htotal : (F.map h.size).sum + h.size bp < 2 ^ 32) :
    ∃ m R, Upper h (h.joinUpper bp p) bp p m A B R := by
  have hring : IsRing h.next (p :: (B ++ A)) := by
    have hr := hF.ring
    rw [hp] at hr
    exact hr.enter
  have hmem (x : ℕ) : x ∈ F ↔ x ∈ A ∨ x = p ∨ x ∈ B := by simp [hp]
  have hpbp : p ≠ bp := ne_of_lt hlt
  have hnodup := hF.nodup
  rw [hp, nodup_append, nodup_cons] at hnodup
  obtain ⟨-, ⟨hpB, -⟩, hdisj⟩ := hnodup
  have hother : ∀ x ∈ B ++ A, x ≠ p ∧ x ≠ bp := by
    intro x hx
    constructor
    · rintro rfl
      rcases mem_append.1 hx with hx | hx
      · exact hpB hx
      · exact hdisj x hx x mem_cons_self rfl
    · rintro rfl
      refine hbp ((hmem x).2 ?_)
      rcases mem_append.1 hx with hx | hx
      · exact .inr (.inr hx)
      · exact .inl hx
  by_cases hjoin : Heap.after bp (h.size bp) = h.next p
  · -- the next block cannot be `base`, which lies before `bp`
    rcases hF.next_cases hp with ⟨q, R, rfl, hq⟩ | ⟨-, hq⟩
    swap
    · have : bp ≤ Heap.after bp (h.size bp) := Nat.le_add_right _ _
      omega
    have hqp : q ≠ p ∧ q ≠ bp := hother q (by simp)
    have hqF : q ∈ F := (hmem q).2 (.inr (.inr mem_cons_self))
    have hsum : h.size bp + h.size q < 2 ^ 32 := by
      have := single_le_sum (fun _ _ => Nat.zero_le _) _ (mem_map_of_mem (f := h.size) hqF)
      omega
    rw [hq] at hjoin
    refine ⟨h.size bp + h.size q, R, ?_⟩
    have heq : h.joinUpper bp p = (h.setSize bp (h.size bp + h.size q)).setPtr bp (h.next q) := by
      rw [Heap.joinUpper, hq, if_pos hjoin]
      simp [hq]
    rw [heq]
    refine ⟨fun x hx => ?_, ?_, ?_, ?_, sublist_cons_self q R, ?_, Nat.le_add_right _ _⟩
    · rw [Heap.mem_setPtr _ _ _ _ hx, Heap.mem_setSize _ _ _ _ hx]
    · simpa using hsum
    · have hout : IsRing (update h.next p (h.next q)) (p :: (R ++ A)) := by
        refine IsRing.remove hring (by simp) fun x hx => ?_
        exact update_of_ne (hother x (mem_cons_of_mem q hx)).1 _ _
      refine hout.insert (by simp) (by simp [Ne.symm hpbp]) fun x hx => ?_
      have hx' := hother x (mem_cons_of_mem q hx)
      simp [hx'.1, hx'.2]
    · rw [slots_add, Heap.units_cons, hjoin, add_assoc]
    · intro x hx
      have hgap := hF.gaps
      rw [hp, pairwise_append, pairwise_cons, pairwise_cons] at hgap
      have hqx := hgap.2.1.2.1 x hx
      unfold Heap.after at hjoin hqx ⊢
      rw [Nat.mul_add]
      omega
  · refine ⟨h.size bp, B, ?_⟩
    have heq : h.joinUpper bp p = h.setPtr bp (h.next p) := by rw [Heap.joinUpper, if_neg hjoin]
    rw [heq]
    refine ⟨fun x hx => Heap.mem_setPtr _ _ _ _ hx, by simp, ?_, rfl,
      List.Sublist.refl B, ?_, le_rfl⟩
    · refine hring.insert (by simp) (by simp [Ne.symm hpbp]) fun x hx => ?_
      have hx' := hother x hx
      simp [hx'.1, hx'.2]
    · intro x hx
      have hle := hB x hx
      rcases hF.next_cases hp with ⟨q, R, rfl, hq⟩ | ⟨rfl, -⟩
      · rcases mem_cons.1 hx with rfl | hxR
        · exact lt_of_le_of_ne hle (hq ▸ hjoin)
        · have hs := hF.sorted
          rw [hp, pairwise_append, pairwise_cons, pairwise_cons] at hs
          exact lt_of_le_of_lt (hB q mem_cons_self) (hs.2.1.2.1 x hxR)
      · cases hx

/-- The lists that the two joins of `free` can leave behind are in order again. -/
theorem of_parts {L : List ℕ} (hF : Listed base h F) (hp : F = A ++ p :: B)
    (hring : IsRing h'.next (A ++ p :: L)) (hA : ∀ x ∈ A, h'.size x = h.size x)
    (hpsize : p = base ∧ h'.size p = 0 ∨ p ≠ base ∧ 0 < h'.size p)
    (hL : ∀ x ∈ L, base < x ∧ 0 < h'.size x ∧ Heap.after p (h'.size p) < x)
    (hgaps : L.Pairwise fun a b => Heap.after a (h'.size a) < b) (hfreep : h'.freep = p) :
    Listed base h' (A ++ p :: L) := by
  have hg := hF.gaps
  rw [hp, pairwise_append, pairwise_cons] at hg
  obtain ⟨hgA, -, hgAB⟩ := hg
  have hAp : ∀ x ∈ A, Heap.after x (h'.size x) < p := by
    intro x hx
    rw [hA x hx]
    exact hgAB x hx p mem_cons_self
  have hpL : ∀ x ∈ L, p < x := fun x hx => lt_of_le_of_lt (Nat.le_add_right _ _) (hL x hx).2.2
  have hbaseA : base ∈ A ∨ base = p := by
    obtain ⟨M, hM⟩ := hF.head_eq
    cases A with
    | nil =>
      rw [hp, nil_append, List.cons.injEq] at hM
      exact .inr hM.1.symm
    | cons a A =>
      rw [hp, cons_append, List.cons.injEq] at hM
      exact .inl (by simp [hM.1])
  have hsize0 : h'.size base = 0 := by
    rcases hpsize with ⟨rfl, hsz⟩ | ⟨hne, -⟩
    · exact hsz
    · have hmem := hbaseA.resolve_right (Ne.symm hne)
      rw [hA base hmem, hF.base_size]
  have hFmem : ∀ x ∈ A ++ [p], x ∈ F := by
    intro x hx
    simp only [hp, mem_append, mem_cons, not_mem_nil, or_false] at hx ⊢
    tauto
  refine ⟨hring, ?_, ?_, hsize0, ?_, ?_, by simp [hfreep]⟩
  · rcases hbaseA with hb | hb <;> simp [hb]
  · intro a ha
    rcases mem_append.1 ha with ha | ha
    · exact hF.base_le a (hFmem a (by simp [ha]))
    · rcases mem_cons.1 ha with rfl | ha
      · exact hF.base_le a (hFmem a (by simp))
      · exact (hL a ha).1.le
  · intro a ha hne
    rcases mem_append.1 ha with ha | ha
    · rw [hA a ha]
      exact hF.size_pos a (hFmem a (by simp [ha])) hne
    · rcases mem_cons.1 ha with rfl | ha
      · rcases hpsize with ⟨hb, -⟩ | ⟨-, hpos⟩
        · exact absurd hb hne
        · exact hpos
      · exact (hL a ha).2.1
  · rw [pairwise_append, pairwise_cons]
    refine ⟨?_, ⟨fun x hx => (hL x hx).2.2, hgaps⟩, ?_⟩
    · refine hgA.imp_of_mem fun {a b} ha _ hab => ?_
      rwa [hA a ha]
    · intro a ha b hb
      rcases mem_cons.1 hb with rfl | hb
      · exact hAp a ha
      · exact (hAp a ha).trans (hpL b hb)

/-- What `free` does to a free list that it finds in order: the block is in it, or is part of a
block in it, and nothing else has changed. -/
structure Freed (base : ℕ) (h h' : Heap) (F F' : List ℕ) (bp : ℕ) : Prop where
  listed : Listed base h' F'
  units : h'.units F' = h.units F + slots bp (h.size bp)
  frame : ∀ x, x ∉ F → x ≠ bp → h'.mem x = h.mem x
  fits : ∃ a ∈ F', h.size bp ≤ h'.size a

/-- The blocks on both sides of the gap that a freed block lies in. -/
structure Sides (base : ℕ) (h : Heap) (bp p : ℕ) (F A B R : List ℕ) : Prop where
  mem : ∀ x, x ∈ F ↔ x ∈ A ∨ x = p ∨ x ∈ B
  sub : ∀ x ∈ R, x ∈ B
  lower : ∀ x ∈ A, x ≠ p ∧ x ≠ bp
  upper : ∀ x ∈ R, x ≠ p ∧ x ≠ bp
  above : ∀ x ∈ R, base < x ∧ 0 < h.size x
  gaps : R.Pairwise fun a b => Heap.after a (h.size a) < b
  units : h.units F = h.units A + (slots p (h.size p) + h.units B)

theorem sides {R : List ℕ} {m : ℕ} (hF : Listed base h F) (hbase : base < bp)
    (hp : F = A ++ p :: B) (hbp : bp ∉ F) (hB : ∀ x ∈ B, bp < x) (hU : Upper h h₁ bp p m A B R) :
    Sides base h bp p F A B R := by
  have hmem (x : ℕ) : x ∈ F ↔ x ∈ A ∨ x = p ∨ x ∈ B := by simp [hp]
  have hsubB : ∀ x ∈ R, x ∈ B := fun x hx => hU.sub.subset hx
  have hnodup := hF.nodup
  rw [hp, nodup_append, nodup_cons] at hnodup
  obtain ⟨-, ⟨hpB, -⟩, hdisj⟩ := hnodup
  refine ⟨hmem, hsubB, ?_, ?_, ?_, ?_, by rw [hp, Heap.units_append, Heap.units_cons]⟩
  · exact fun x hx =>
      ⟨hdisj x hx p mem_cons_self, fun heq => hbp ((hmem bp).2 (.inl (heq ▸ hx)))⟩
  · exact fun x hx => ⟨fun heq => hpB (heq ▸ hsubB x hx),
      fun heq => hbp ((hmem bp).2 (.inr (.inr (heq ▸ hsubB x hx))))⟩
  · intro x hx
    have hlt := hB x (hsubB x hx)
    have hxF : x ∈ F := (hmem x).2 (.inr (.inr (hsubB x hx)))
    exact ⟨by omega, hF.size_pos x hxF (by omega)⟩
  · have hg := hF.gaps
    rw [hp, pairwise_append, pairwise_cons] at hg
    exact hg.2.1.2.sublist hU.sub

/-- The block below touches the freed one and swallows it. -/
theorem joinLower_touching {R : List ℕ} {m : ℕ} (hF : Listed base h F)
    (hp : F = A ++ p :: B) (hlt : p < bp) (hsize : 0 < h.size bp)
    (htotal : (F.map h.size).sum + h.size bp < 2 ^ 32) (hU : Upper h h₁ bp p m A B R)
    (hS : Sides base h bp p F A B R) (hjoin : Heap.after p (h.size p) = bp) :
    ∃ F', Freed base h { h₁.joinLower bp p with freep := p } F F' bp := by
  obtain ⟨hmem, hsubB, hAne, hRne, hRbase, hRgaps, hunits⟩ := hS
  have hne : p ≠ bp := ne_of_lt hlt
  have hpsize : h₁.size p = h.size p := Heap.size_congr (hU.frame p hne)
  -- `p` has a size of its own, since `base` has none
  have hpb : p ≠ base := by
    rintro rfl
    rw [hF.base_size] at hjoin
    simp only [Heap.after, Nat.mul_zero, Nat.add_zero] at hjoin
    omega
  have hm : h.size p + m < 2 ^ 32 := by
    have hcard := congrArg Multiset.card hU.units
    rw [Multiset.card_add, Multiset.card_add, card_slots, card_slots, Heap.card_units,
      Heap.card_units] at hcard
    rw [hp, map_append, map_cons, sum_append, sum_cons] at htotal
    omega
  have heq : h₁.joinLower bp p = (h₁.setSize p (h.size p + m)).setPtr p (h₁.next bp) := by
    rw [Heap.joinLower, hpsize, if_pos hjoin, hU.size]
    simp
  rw [heq]
  set h₂ : Heap :=
    { (h₁.setSize p (h.size p + m)).setPtr p (h₁.next bp) with freep := p } with h₂_def
  have hframe : ∀ x, x ≠ p → x ≠ bp → h₂.mem x = h.mem x := by
    intro x hxp hxb
    rw [← hU.frame x hxb]
    exact (Heap.mem_setPtr _ _ _ _ hxp).trans (Heap.mem_setSize _ _ _ _ hxp)
  have hsizep : h₂.size p = h.size p + m := by simpa [h₂_def] using hm
  have hsizes : ∀ x, x ≠ p ∧ x ≠ bp → h₂.size x = h.size x := fun x hx =>
    Heap.size_congr (hframe x hx.1 hx.2)
  have hend : Heap.after p (h.size p + m) = Heap.after bp m := by
    rw [← hjoin]
    simp only [Heap.after, Nat.mul_add, Nat.add_assoc]
  have hle := hU.le
  refine ⟨A ++ p :: R, ?_, ?_, ?_, ⟨p, by simp, by omega⟩⟩
  · refine hF.of_parts hp ?_ (fun x hx => hsizes x (hAne x hx)) (.inr ⟨hpb, by omega⟩) ?_ ?_ rfl
    · refine (IsRing.remove hU.ring ?_ fun x hx => ?_).leave
      · rw [update_of_ne (Ne.symm hne)]
        simp [h₂_def]
      · have hx' : x ≠ p ∧ x ≠ bp := by
          rcases mem_append.1 hx with hx | hx
          · exact hRne x hx
          · exact hAne x hx
        rw [Heap.next_congr (hframe x hx'.1 hx'.2), update_of_ne hx'.1,
          Heap.next_congr (hU.frame x hx'.2)]
    · intro x hx
      rw [hsizes x (hRne x hx), hsizep, hend]
      exact ⟨(hRbase x hx).1, (hRbase x hx).2, hU.gap x hx⟩
    · refine hRgaps.imp_of_mem fun {a b} ha _ hab => ?_
      rwa [hsizes a (hRne a ha)]
  · rw [Heap.units_append, Heap.units_cons, hsizep, slots_add, hjoin,
      Heap.units_congr fun x hx => hsizes x (hAne x hx),
      Heap.units_congr fun x hx => hsizes x (hRne x hx), hunits, add_assoc (slots p _), hU.units]
    abel
  · intro x hxF hxb
    exact hframe x (fun heq => hxF ((hmem x).2 (.inr (.inl heq)))) hxb

/-- The block below does not touch the freed one, which is linked in after it. -/
theorem joinLower_apart {R : List ℕ} {m : ℕ} (hF : Listed base h F)
    (hbase : base < bp) (hp : F = A ++ p :: B) (hlt : p < bp) (hB : ∀ x ∈ B, bp < x)
    (hpbp : Heap.after p (h.size p) ≤ bp) (hsize : 0 < h.size bp) (hU : Upper h h₁ bp p m A B R)
    (hS : Sides base h bp p F A B R) (hjoin : Heap.after p (h.size p) ≠ bp) :
    ∃ F', Freed base h { h₁.joinLower bp p with freep := p } F F' bp := by
  obtain ⟨hmem, hsubB, hAne, hRne, hRbase, hRgaps, hunits⟩ := hS
  have hne : p ≠ bp := ne_of_lt hlt
  have hpsize : h₁.size p = h.size p := Heap.size_congr (hU.frame p hne)
  have heq : h₁.joinLower bp p = h₁.setPtr p bp := by
    rw [Heap.joinLower, hpsize, if_neg hjoin]
  rw [heq]
  set h₂ : Heap := { h₁.setPtr p bp with freep := p } with h₂_def
  have hsizes : ∀ x, x ≠ bp → h₂.size x = h.size x := by
    intro x hx
    rw [← Heap.size_congr (hU.frame x hx)]
    simp [h₂_def]
  have hsizebp : h₂.size bp = m := by simp [h₂_def, hU.size]
  have hm : 0 < m := lt_of_lt_of_le hsize hU.le
  refine ⟨A ++ p :: bp :: R, ?_, ?_, ?_, ⟨bp, by simp, ?_⟩⟩
  · refine hF.of_parts hp ?_ (fun x hx => hsizes x (hAne x hx).2) ?_ ?_ ?_ rfl
    · refine (hU.ring.congr fun x _ => ?_ : IsRing h₂.next (p :: (bp :: R ++ A))).leave
      simp [h₂_def, update_apply]
    · rw [hsizes p hne]
      by_cases hpb : p = base
      · exact .inl ⟨hpb, hpb ▸ hF.base_size⟩
      · exact .inr ⟨hpb, hF.size_pos p ((hmem p).2 (.inr (.inl rfl))) hpb⟩
    · intro x hx
      rw [hsizes p hne]
      have hpx : Heap.after p (h.size p) < bp := lt_of_le_of_ne hpbp hjoin
      rcases mem_cons.1 hx with rfl | hx
      · exact ⟨hbase, by omega, hpx⟩
      · rw [hsizes x (hRne x hx).2]
        have hxbp := hB x (hsubB x hx)
        exact ⟨(hRbase x hx).1, (hRbase x hx).2, hpx.trans hxbp⟩
    · rw [pairwise_cons]
      refine ⟨fun x hx => ?_, hRgaps.imp_of_mem fun {a b} ha _ hab => ?_⟩
      · rw [hsizebp]
        exact hU.gap x hx
      · rwa [hsizes a (hRne a ha).2]
  · rw [Heap.units_append, Heap.units_cons, Heap.units_cons, hsizebp, hsizes p hne,
      Heap.units_congr fun x hx => hsizes x (hAne x hx).2,
      Heap.units_congr fun x hx => hsizes x (hRne x hx).2, hU.units, hunits]
    abel
  · intro x hxF hxb
    have hxp : x ≠ p := fun heq => hxF ((hmem x).2 (.inr (.inl heq)))
    rw [← hU.frame x hxb]
    exact Heap.mem_setPtr _ _ _ _ hxp
  · rw [hsizebp]
    exact hU.le

theorem joinLower_spec {R : List ℕ} {m : ℕ} (hF : Listed base h F) (hbase : base < bp)
    (hp : F = A ++ p :: B) (hlt : p < bp) (hbp : bp ∉ F) (hB : ∀ x ∈ B, bp < x)
    (hpbp : Heap.after p (h.size p) ≤ bp) (hsize : 0 < h.size bp)
    (htotal : (F.map h.size).sum + h.size bp < 2 ^ 32) (hU : Upper h h₁ bp p m A B R) :
    ∃ F', Freed base h { h₁.joinLower bp p with freep := p } F F' bp := by
  have hS := hF.sides hbase hp hbp hB hU
  by_cases hjoin : Heap.after p (h.size p) = bp
  · exact hF.joinLower_touching hp hlt hsize htotal hU hS hjoin
  · exact hF.joinLower_apart hbase hp hlt hB hpbp hsize hU hS hjoin

/-- `free` of a block that touches no free block. The scan needs at most one round for each block of
the list. -/
theorem free_spec (hF : Listed base h F) (hbase : base < bp) (hsize : 0 < h.size bp)
    (hapart : ∀ a ∈ F, Heap.after a (h.size a) ≤ bp ∨ Heap.after bp (h.size bp) ≤ a)
    (htotal : (F.map h.size).sum + h.size bp < 2 ^ 32) (hfuel : F.length ≤ fuel) :
    ∃ h' F', h.free fuel (Heap.after bp 1) = some h' ∧ Freed base h h' F F' bp := by
  have hafter : bp < Heap.after bp (h.size bp) := by
    have : 0 < headerSize * h.size bp := Nat.mul_pos (by decide) hsize
    exact Nat.lt_add_of_pos_right this
  have hbp : bp ∉ F := by
    intro hmem
    rcases hapart bp hmem with hle | hle <;> omega
  obtain ⟨A, p, B, hp, hlt, hA, hB⟩ := exists_cut hF.sorted ⟨base, hF.base_mem, hbase⟩ hbp
  have hpF : p ∈ F := by simp [hp]
  have hwalk := hF.ring.walk_eq hF.freep (fun x hx => hF.stops_iff hbase hp hlt hA hB hx) hpF hfuel
  have hB' : ∀ x ∈ B, Heap.after bp (h.size bp) ≤ x := by
    intro x hx
    have hbx := hB x hx
    have hle : x ≤ Heap.after x (h.size x) := Nat.le_add_right _ _
    exact (hapart x (by simp [hp, hx])).resolve_left (by omega)
  have hpbp : Heap.after p (h.size p) ≤ bp := (hapart p hpF).resolve_right (by omega)
  obtain ⟨m, R, hU⟩ := hF.joinUpper_spec hbase hp hlt hbp hB' htotal
  obtain ⟨F', hF'⟩ := hF.joinLower_spec hbase hp hlt hbp hB hpbp hsize htotal hU
  refine ⟨_, F', ?_, hF'⟩
  have hback : Heap.after bp 1 - headerSize = bp := by simp [Heap.after]
  simp only [Heap.free, hback, hwalk]
  rfl

/-- What `take` does with a large enough block `x` of the free list: `hdr` begins `nu` units that
are no longer in it. -/
structure Taken (base : ℕ) (h h' : Heap) (F F' : List ℕ) (nu hdr : ℕ) : Prop where
  listed : Listed base h' F'
  units : h'.units F' + slots hdr nu = h.units F
  size : h'.size hdr = nu
  frame : ∀ y, y ∉ F → y ≠ hdr → h'.mem y = h.mem y

theorem takeWhole_spec {nu prevp x : ℕ} (hF : Listed base h F) (hprev : prevp ∈ F) (hx : x ∈ F)
    (hxb : x ≠ base) (hnext : h.next prevp = x) (hexact : h.size x = nu) :
    ∃ F' hdr, (h.take nu prevp x).2 = Heap.after hdr 1 ∧
    Taken base h (h.take nu prevp x).1 F F' nu hdr := by
  have hbx : base < x := lt_of_le_of_ne (hF.base_le x hx) (Ne.symm hxb)
  obtain ⟨A, B, hAB⟩ := append_of_mem hx
  have hgaps := hF.gaps
  rw [hAB, pairwise_append, pairwise_cons] at hgaps
  obtain ⟨hgA, ⟨hgx, hgB⟩, hgAx⟩ := hgaps
  -- the block before `x` in address order is the one that the scan came from
  obtain ⟨A', y, rfl⟩ : ∃ A' y, A = A' ++ [y] := by
    rcases eq_nil_or_concat A with rfl | ⟨A', y, rfl⟩
    · obtain ⟨L, hL⟩ := hF.head_eq
      rw [hAB, nil_append, List.cons.injEq] at hL
      exact absurd hL.1 hxb
    · exact ⟨A', y, concat_eq_append⟩
  rw [append_assoc, singleton_append] at hAB
  have hring := hF.ring
  have hy : h.next y = x := by
    rw [hAB] at hring
    exact hring.next_eq
  have hyF : y ∈ F := by simp [hAB]
  obtain rfl : y = prevp := hF.ring.next_inj hF.nodup hyF hprev (hy.trans hnext.symm)
  have heq : h.take nu y x = ({ h.setPtr y (h.next x) with freep := y }, Heap.after x 1) := by
    rw [Heap.take, if_pos hexact]
  rw [heq]
  set h' : Heap := { h.setPtr y (h.next x) with freep := y } with hdef
  have hsizes : ∀ z, h'.size z = h.size z := fun z => by simp [hdef]
  refine ⟨A' ++ y :: B, x, rfl, ⟨?_, ?_, by rw [hsizes, hexact], ?_⟩⟩
  · have hyx : y < x := by
      have := hF.sorted
      rw [hAB, pairwise_append, pairwise_cons] at this
      exact this.2.1.1 x mem_cons_self
    have hmem : ∀ z ∈ B, z ∈ F := fun z hz => by simp [hAB, hz]
    refine hF.of_parts hAB ?_ (fun z _ => hsizes z) ?_ ?_ ?_ rfl
    · rw [hAB] at hring
      have hnd := hF.nodup
      rw [hAB, nodup_append, nodup_cons, mem_cons, not_or] at hnd
      obtain ⟨-, ⟨⟨-, hyB⟩, -⟩, hdisj⟩ := hnd
      have hring' : IsRing h.next (y :: x :: (B ++ A')) := hring.enter
      refine (hring'.remove ?_ fun z hz => ?_ : IsRing h'.next (y :: (B ++ A'))).leave
      · simp [hdef]
      · have hzy : z ≠ y := by
          rintro rfl
          rcases mem_append.1 hz with hz | hz
          · exact hyB hz
          · exact hdisj z hz z mem_cons_self rfl
        simp [hdef, hzy]
    · rw [hsizes]
      by_cases hyb : y = base
      · exact .inl ⟨hyb, hyb ▸ hF.base_size⟩
      · exact .inr ⟨hyb, hF.size_pos y hyF hyb⟩
    · intro z hz
      have hxz : x < z := lt_of_le_of_lt (Nat.le_add_right _ _) (hgx z hz)
      have hyx' := hgAx y (by simp) x mem_cons_self
      rw [hsizes, hsizes]
      exact ⟨hbx.trans hxz, hF.size_pos z (hmem z hz) (by omega), hyx'.trans hxz⟩
    · exact hgB.imp fun hab => by rwa [hsizes]
  · rw [hAB, Heap.units_congr fun z _ => hsizes z]
    simp only [Heap.units_append, Heap.units_cons, hexact]
    abel
  · intro z hz _
    exact Heap.mem_setPtr _ _ _ _ fun heq => hz (heq ▸ hyF)

/-- Of a larger block the last `nu` units are taken, and its place in the list stays as it is. -/
theorem takeTail_spec {nu prevp x : ℕ} (hF : Listed base h F) (hnu : 0 < nu) (hprev : prevp ∈ F)
    (hx : x ∈ F) (hxb : x ≠ base) (hlt : nu < h.size x) (hsize : h.size x < 2 ^ 32) :
    ∃ F' hdr, (h.take nu prevp x).2 = Heap.after hdr 1 ∧
    Taken base h (h.take nu prevp x).1 F F' nu hdr := by
  have hbx : base < x := lt_of_le_of_ne (hF.base_le x hx) (Ne.symm hxb)
  have hexact : h.size x ≠ nu := ne_of_gt hlt
  obtain ⟨A, B, hAB⟩ := append_of_mem hx
  have hgaps := hF.gaps
  rw [hAB, pairwise_append, pairwise_cons] at hgaps
  obtain ⟨-, ⟨hgx, -⟩, hgAx⟩ := hgaps
  set k := h.size x - nu with hk
  have hkmod : k % 2 ^ 32 = k := Nat.mod_eq_of_lt (by omega)
  have hnumod : nu % 2 ^ 32 = nu := Nat.mod_eq_of_lt (by omega)
  set hdr := Heap.after x k with hdr_def
  have heq : h.take nu prevp x =
      ({ (h.setSize x k).setSize hdr nu with freep := prevp }, Heap.after hdr 1) := by
    rw [Heap.take, if_neg hexact]
    simp only [Heap.size_setSize, if_true, ← hk, hkmod, hdr_def]
  rw [heq]
  set h' : Heap := { (h.setSize x k).setSize hdr nu with freep := prevp } with hdef
  have hxhdr : x < hdr := by
    have : 0 < headerSize * k := Nat.mul_pos (by decide) (by omega)
    exact Nat.lt_add_of_pos_right this
  have hhdr : hdr < Heap.after x (h.size x) := by
    have : headerSize * k < headerSize * h.size x :=
      Nat.mul_lt_mul_of_pos_left (by omega) (by decide)
    exact Nat.add_lt_add_left this x
  have hhdrF : hdr ∉ F := by
    intro hmem
    rw [hAB] at hmem
    rcases mem_append.1 hmem with hmem | hmem
    · have h1 := hgAx hdr hmem x mem_cons_self
      have h2 : hdr ≤ Heap.after hdr (h.size hdr) := Nat.le_add_right _ _
      omega
    · rcases mem_cons.1 hmem with heq | hmem
      · omega
      · have := hgx hdr hmem
        omega
  have hsizes : ∀ z, z ≠ hdr → h'.size z = if z = x then k else h.size z := by
    intro z hz
    rw [hdef, Heap.size_freep, Heap.size_setSize, if_neg hz, Heap.size_setSize, hkmod]
  have hne : ∀ z ∈ F, z ≠ hdr := fun z hz heq => hhdrF (heq ▸ hz)
  refine ⟨F, hdr, rfl, ⟨⟨?_, hF.base_mem, hF.base_le, ?_, ?_, ?_, hprev⟩, ?_, ?_, ?_⟩⟩
  · exact hF.ring.congr fun z _ => by simp [hdef]
  · rw [hsizes base (hne base hF.base_mem), if_neg (Ne.symm hxb), hF.base_size]
  · intro z hz hzb
    rw [hsizes z (hne z hz)]
    split
    · omega
    · exact hF.size_pos z hz hzb
  · refine hF.gaps.imp_of_mem fun {a b} ha hb hab => ?_
    rw [hsizes a (hne a ha)]
    split
    next heq =>
      subst heq
      exact hhdr.trans hab
    next => exact hab
  · have hkeep : ∀ z ∈ F, z ≠ x → h'.size z = h.size z := fun z hz hzx => by
      rw [hsizes z (hne z hz), if_neg hzx]
    have hxA : ∀ z ∈ A, h'.size z = h.size z := fun z hz =>
      hkeep z (by simp [hAB, hz])
        (lt_of_le_of_lt (Nat.le_add_right _ _) (hgAx z hz x mem_cons_self)).ne
    have hxB : ∀ z ∈ B, h'.size z = h.size z := fun z hz =>
      hkeep z (by simp [hAB, hz]) (lt_of_le_of_lt (Nat.le_add_right _ _) (hgx z hz)).ne'
    have hxsize : h.size x = k + nu := by omega
    rw [hAB, Heap.units_append, Heap.units_append, Heap.units_cons, Heap.units_cons,
      Heap.units_congr hxA, Heap.units_congr hxB, hsizes x (hne x hx), if_pos rfl, hxsize,
      slots_add]
    abel
  · rw [hdef, Heap.size_freep, Heap.size_setSize, if_pos rfl, hnumod]
  · intro z hz hzh
    have hzx : z ≠ x := fun heq => hz (heq ▸ hx)
    exact (Heap.mem_setSize _ _ _ _ hzh).trans (Heap.mem_setSize _ _ _ _ hzx)

theorem take_spec {nu prevp x : ℕ} (hF : Listed base h F) (hnu : 0 < nu) (hprev : prevp ∈ F)
    (hx : x ∈ F) (hnext : h.next prevp = x) (hfits : nu ≤ h.size x) (hsize : h.size x < 2 ^ 32) :
    ∃ F' hdr, (h.take nu prevp x).2 = Heap.after hdr 1 ∧
    Taken base h (h.take nu prevp x).1 F F' nu hdr := by
  have hxb : x ≠ base := by
    rintro rfl
    have := hF.base_size
    omega
  rcases eq_or_lt_of_le hfits with heq | hlt
  · exact hF.takeWhole_spec hprev hx hxb hnext heq.symm
  · exact hF.takeTail_spec hnu hprev hx hxb hlt hsize

end Listed

end Xv6.Umalloc
