import Mathlib.Tactic

/-!
# Exact ownership of numbered resources

Holders, the keys of `hold`, have one resource each or none, which is the number 0. Ownership is
exact on a range when no resource has two holders, all of them lie in the range, and a resource of
the range is marked in use exactly when it has a holder. Acquiring and releasing are point updates
of the map of holders and of the marks.
-/

namespace Xv6.Ownership

open Function

variable {κ : Type*} {hold : κ → ℕ} {lo hi : ℕ} {used : ℕ → Bool} {k : κ} {b : ℕ}

structure Exact (hold : κ → ℕ) (lo hi : ℕ) (used : ℕ → Bool) : Prop where
  pos : 0 < lo
  inj : ∀ k l, hold k = hold l → hold k ≠ 0 → k = l
  range : ∀ k, hold k ≠ 0 → lo ≤ hold k ∧ hold k < hi
  marked : ∀ b, lo ≤ b → b < hi → (used b = true ↔ ∃ k, hold k = b)

namespace Exact

theorem used_of_hold (h : Exact hold lo hi used) (hk : hold k ≠ 0) : used (hold k) = true :=
  (h.marked _ (h.range k hk).1 (h.range k hk).2).2 ⟨k, rfl⟩

theorem hold_ne_of_unused (h : Exact hold lo hi used) (hlo : lo ≤ b) (hb : used b = false) (k : κ) :
    hold k ≠ b := by
  intro hk
  have hpos := h.pos
  have hused := h.used_of_hold (k := k) (by omega)
  rw [hk, hb] at hused
  exact Bool.noConfusion hused

variable [DecidableEq κ]

theorem acquire (h : Exact hold lo hi used) (hk : hold k = 0) (hlo : lo ≤ b) (hhi : b < hi)
    (hb : used b = false) : Exact (update hold k b) lo hi (update used b true) := by
  have hfree := h.hold_ne_of_unused hlo hb
  have hpos := h.pos
  constructor
  · exact h.pos
  · intro l m hlm hl
    simp only [update_apply] at hlm hl
    have := h.inj l m
    grind
  · intro l hl
    simp only [update_apply] at hl ⊢
    have := h.range l
    grind
  · intro c hclo hchi
    by_cases hcb : c = b
    · subst hcb
      simp only [update_self, true_iff]
      exact ⟨k, update_self ..⟩
    · rw [update_of_ne hcb, h.marked c hclo hchi]
      constructor
      · rintro ⟨l, rfl⟩
        have hlk : l ≠ k := by rintro rfl; omega
        exact ⟨l, update_of_ne hlk ..⟩
      · rintro ⟨l, hl⟩
        have hlk : l ≠ k := by rintro rfl; exact hcb (by simpa using hl.symm)
        exact ⟨l, by rwa [update_of_ne hlk] at hl⟩

theorem release (h : Exact hold lo hi used) (hk : hold k ≠ 0) :
    Exact (update hold k 0) lo hi (update used (hold k) false) := by
  have hpos := h.pos
  constructor
  · exact h.pos
  · intro l m hlm hl
    simp only [update_apply] at hlm hl
    have := h.inj l m
    grind
  · intro l hl
    simp only [update_apply] at hl ⊢
    have := h.range l
    grind
  · intro c hclo hchi
    by_cases hck : c = hold k
    · subst hck
      simp only [update_self, Bool.false_eq_true, false_iff, not_exists]
      intro l hl
      simp only [update_apply] at hl
      have := h.inj l k
      grind
    · rw [update_of_ne hck, h.marked c hclo hchi]
      constructor
      · rintro ⟨l, rfl⟩
        have hlk : l ≠ k := by rintro rfl; exact hck rfl
        exact ⟨l, update_of_ne hlk ..⟩
      · rintro ⟨l, hl⟩
        have hlk : l ≠ k := by rintro rfl; simp at hl; omega
        exact ⟨l, by rwa [update_of_ne hlk] at hl⟩

end Exact
end Xv6.Ownership
