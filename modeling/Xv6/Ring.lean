import Mathlib.Data.List.Cycle
import Mathlib.Tactic

/-!
# Rings of links

A ring is a circular list threaded through a function `next`. Its elements are given as a list, from
any of them on. Inserting after an element and removing the one after it are the two edits; walking
along `next` from any element finds the one where a condition holds.
-/

namespace Xv6.Ring

open List

variable {α : Type*} {next next' : α → α} {p b q : α} {l l' : List α}

/-- Each element is followed by the next one of the list, and the last by the first. -/
def IsRing (next : α → α) (l : List α) : Prop := Cycle.Chain (fun x y => next x = y) (l : Cycle α)

theorem isRing_cons : IsRing next (p :: l) ↔
    List.IsChain (fun x y => next x = y) (p :: (l ++ [p])) :=
  Cycle.chain_coe_cons _ p l

theorem IsRing.rotate (h : IsRing next l) (hr : l ~r l') : IsRing next l' := by
  have hc : (l : Cycle α) = (l' : Cycle α) := Cycle.coe_eq_coe.2 hr
  unfold IsRing at h ⊢
  rwa [← hc]

theorem isRotated_middle (l : List α) (p : α) (l' : List α) : l ++ p :: l' ~r p :: (l' ++ l) := by
  have h : l ++ p :: l' ~r (p :: l') ++ l := isRotated_append
  simpa using h

theorem IsRing.enter (h : IsRing next (l ++ p :: l')) : IsRing next (p :: (l' ++ l)) :=
  h.rotate (isRotated_middle l p l')

theorem IsRing.leave (h : IsRing next (p :: (l' ++ l))) : IsRing next (l ++ p :: l') :=
  h.rotate (isRotated_middle l p l').symm

theorem isChain_congr {x : α} (h : List.IsChain (fun x y => next x = y) (l ++ [x]))
    (heq : ∀ y ∈ l, next' y = next y) : List.IsChain (fun x y => next' x = y) (l ++ [x]) := by
  induction l with
  | nil => exact .singleton x
  | cons a l ih =>
    have hrest : List.IsChain (fun x y => next' x = y) (l ++ [x]) :=
      ih h.tail fun y hy => heq y (mem_cons_of_mem a hy)
    have ha := heq a mem_cons_self
    cases l with
    | nil =>
      rw [cons_append, nil_append, isChain_cons_cons] at h ⊢
      exact ⟨ha.trans h.1, hrest⟩
    | cons c l =>
      rw [cons_append, cons_append, isChain_cons_cons] at h ⊢
      exact ⟨ha.trans h.1, hrest⟩

theorem IsRing.congr (h : IsRing next l) (heq : ∀ x ∈ l, next' x = next x) : IsRing next' l := by
  cases l with
  | nil => exact Cycle.Chain.nil _
  | cons p l =>
    rw [isRing_cons, ← cons_append] at h ⊢
    exact isChain_congr h heq

theorem head_of_isChain {x : α} (h : List.IsChain (fun x y => next x = y) (p :: (l ++ [x]))) :
    (l ++ [x]).head? = some (next p) := by
  cases l with
  | nil =>
    rw [nil_append, isChain_cons_cons] at h
    simp [h.1]
  | cons c l =>
    rw [cons_append, isChain_cons_cons] at h
    simp [h.1]

theorem isChain_cons_of_head {x : α} {l : List α} (hl : List.IsChain (fun x y => next x = y) l)
    (hx : l.head? = some (next x)) : List.IsChain (fun x y => next x = y) (x :: l) := by
  cases l with
  | nil => exact .singleton x
  | cons c l =>
    rw [isChain_cons_cons]
    exact ⟨by simpa using hx.symm, hl⟩

theorem IsRing.insert (h : IsRing next (p :: l)) (hp : next' p = b) (hb : next' b = next p)
    (hl : ∀ x ∈ l, next' x = next x) : IsRing next' (p :: b :: l) := by
  rw [isRing_cons] at h ⊢
  have hrest := isChain_congr h.tail hl
  have hhead := head_of_isChain h
  rw [← hb] at hhead
  rw [cons_append, isChain_cons_cons]
  exact ⟨hp, isChain_cons_of_head hrest hhead⟩

theorem IsRing.remove (h : IsRing next (p :: b :: l)) (hp : next' p = next b)
    (hl : ∀ x ∈ l, next' x = next x) : IsRing next' (p :: l) := by
  rw [isRing_cons, cons_append, isChain_cons_cons] at h
  rw [isRing_cons]
  have hhead := head_of_isChain h.2
  rw [← hp] at hhead
  exact isChain_cons_of_head (isChain_congr h.2.tail hl) hhead

theorem IsRing.next_eq (h : IsRing next (l ++ p :: q :: l')) : next p = q := by
  have hring := h.enter
  rw [isRing_cons, cons_append, cons_append, isChain_cons_cons] at hring
  exact hring.1

theorem IsRing.exists_prev (h : IsRing next l) (hq : q ∈ l) : ∃ p ∈ l, next p = q := by
  obtain ⟨l₁, l₂, rfl⟩ := append_of_mem hq
  have hring := h.enter
  rw [isRing_cons] at hring
  rcases eq_nil_or_concat (l₂ ++ l₁) with hnil | ⟨init, p, hinit⟩
  · rw [hnil, nil_append, isChain_cons_cons] at hring
    exact ⟨q, hq, hring.1⟩
  · refine ⟨p, ?_, ?_⟩
    · have hmem : p ∈ l₂ ++ l₁ := by
        rw [hinit]
        simp
      simp only [mem_append, mem_cons] at hmem ⊢
      tauto
    · rw [hinit] at hring
      have hsplit : q :: (init.concat p ++ [q]) = (q :: init) ++ [p, q] := by simp
      rw [hsplit, isChain_append] at hring
      have hlast := hring.2.1
      rw [isChain_cons_cons] at hlast
      exact hlast.1

theorem IsRing.next_inj (h : IsRing next l) (hl : l.Nodup) (hp : p ∈ l) (hq : q ∈ l)
    (heq : next p = next q) : p = q := by
  classical
  have hinj := Finset.inj_on_of_surj_on_of_card_le (s := l.toFinset) (t := l.toFinset)
    (fun x _ => next x) (fun x hx => ?_) (fun z hz => ?_) le_rfl
  · exact hinj (mem_toFinset.2 hp) (mem_toFinset.2 hq) heq
  · obtain ⟨l₁, l₂, rfl⟩ := append_of_mem (mem_toFinset.1 hx)
    have hring := h.enter
    rw [isRing_cons] at hring
    have hhead := mem_of_mem_head? (head_of_isChain hring)
    rw [mem_toFinset]
    simp only [mem_append, mem_cons, not_mem_nil, or_false] at hhead ⊢
    tauto
  · obtain ⟨x, hx, hxz⟩ := h.exists_prev (mem_toFinset.1 hz)
    exact ⟨x, mem_toFinset.2 hx, hxz⟩

section walk

variable {stop : α → Bool} {n : ℕ}

/-- The walk along the links until `stop` holds, with the number of elements that it may look at. -/
def walk (next : α → α) (stop : α → Bool) : ℕ → α → Option α
  | 0, _ => none
  | n + 1, p => if stop p then some p else walk next stop n (next p)

theorem walk_mono (hw : walk next stop n p = some q) (k : ℕ) :
    walk next stop (n + k) p = some q := by
  induction n generalizing p with
  | zero => simp [walk] at hw
  | succ n ih =>
    rw [Nat.add_right_comm, walk]
    rw [walk] at hw
    split at hw
    next hs => rwa [if_pos hs]
    next hs =>
      rw [if_neg hs]
      exact ih hw

theorem walk_eq_find (h : List.IsChain (fun x y => next x = y) (p :: l))
    (hstop : ∃ x ∈ p :: l, stop x = true) (hn : l.length < n) :
    walk next stop n p = (p :: l).find? stop := by
  induction l generalizing p n with
  | nil =>
    obtain ⟨n, rfl⟩ : ∃ m, n = m + 1 := ⟨n - 1, by omega⟩
    obtain ⟨x, hx, hs⟩ := hstop
    obtain rfl := mem_singleton.1 hx
    rw [walk, if_pos hs, List.find?_cons_of_pos hs]
  | cons c l ih =>
    obtain ⟨n, rfl⟩ : ∃ m, n = m + 1 := ⟨n - 1, by omega⟩
    rw [isChain_cons_cons] at h
    rw [length_cons] at hn
    by_cases hp : stop p = true
    · rw [walk, if_pos hp, List.find?_cons_of_pos hp]
    · obtain ⟨x, hx, hs⟩ := hstop
      have hx' : x ∈ c :: l := (mem_cons.1 hx).resolve_left fun heq => hp (heq ▸ hs)
      rw [walk, if_neg hp, List.find?_cons_of_neg hp, h.1]
      exact ih h.2 ⟨x, hx', hs⟩ (by omega)

theorem walk_of_isChain (h : List.IsChain (fun x y => next x = y) (p :: l))
    (hl : ∀ x ∈ p :: l, stop x = true ↔ x = q) (hq : q ∈ p :: l) (hn : l.length < n) :
    walk next stop n p = some q := by
  have hstop : ∃ x ∈ p :: l, stop x = true := ⟨q, hq, (hl q hq).2 rfl⟩
  rw [walk_eq_find h hstop hn]
  obtain ⟨x, hx⟩ := Option.isSome_iff_exists.1 (List.find?_isSome.2 hstop)
  rw [hx, (hl x (mem_of_find?_eq_some hx)).1 (List.find?_some hx)]

/-- From every element of a ring the walk ends at the only element where `stop` holds. -/
theorem IsRing.walk_eq (h : IsRing next l) (hp : p ∈ l)
    (hl : ∀ x ∈ l, stop x = true ↔ x = q) (hq : q ∈ l) (hn : l.length ≤ n) :
    walk next stop n p = some q := by
  obtain ⟨l₁, l₂, rfl⟩ := append_of_mem hp
  have hring := h.enter
  rw [isRing_cons, ← cons_append] at hring
  have hmem (x : α) : x ∈ p :: (l₂ ++ l₁) ↔ x ∈ l₁ ++ p :: l₂ := by
    simp only [mem_append, mem_cons]
    tauto
  rw [isChain_append] at hring
  refine walk_of_isChain hring.1 (fun x hx => hl x ((hmem x).1 hx)) ((hmem q).2 hq) ?_
  simp only [length_append, length_cons] at hn ⊢
  omega

end walk

end Xv6.Ring
