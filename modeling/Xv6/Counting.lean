import Mathlib.Tactic

/-!
# Counts under point changes

The number of elements of a finite set with some property, when the property changes at one element,
and sums when one term changes.
-/

namespace Xv6.Counting

open Finset

variable {α : Type*} [DecidableEq α]

theorem card_filter_change {S : Finset α} {A B : α → Prop} [DecidablePred A] [DecidablePred B]
    {x : α} (hx : x ∈ S) (h : ∀ y, y ≠ x → (B y ↔ A y)) :
    (S.filter B).card + (if A x then 1 else 0) = (S.filter A).card + (if B x then 1 else 0) := by
  have hsplit (D : α → Prop) [DecidablePred D] : (S.filter D).card =
      ((S.erase x).filter D).card + if D x then 1 else 0 := by
    rw [← insert_erase hx, filter_insert, erase_insert_eq_erase, erase_idem]
    split_ifs with hD
    · rw [card_insert_of_notMem (by simp)]
    · rfl
  have hrest : (S.erase x).filter B = (S.erase x).filter A :=
    filter_congr fun y hy => h y (ne_of_mem_erase hy)
  rw [hsplit A, hsplit B, hrest]
  omega

omit [DecidableEq α] in
theorem card_filter_pos {S : Finset α} {A : α → Prop} [DecidablePred A] {x : α} (hx : x ∈ S)
    (h : A x) : 0 < (S.filter A).card :=
  Finset.card_pos.2 ⟨x, Finset.mem_filter.2 ⟨hx, h⟩⟩

theorem sum_change {S : Finset α} {e f : α → ℕ} {p : α} (hp : p ∈ S)
    (hne : ∀ q, q ≠ p → e q = f q) : ∑ q ∈ S, e q + f p = ∑ q ∈ S, f q + e p := by
  have hrest : ∑ q ∈ S.erase p, e q = ∑ q ∈ S.erase p, f q :=
    sum_congr rfl fun q hq => hne q (ne_of_mem_erase hq)
  have h := add_sum_erase _ f hp
  have h' := add_sum_erase _ e hp
  omega

end Xv6.Counting
