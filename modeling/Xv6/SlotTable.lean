import Mathlib.Data.Set.Finite.Lattice
import Mathlib.Tactic

/-!
# Finite maps in slots

A table of numbered slots, each free or with a key and a value. As long as no key is in two slots
the table is a map: putting a new key into a free slot and emptying a slot are insertion and removal
of one binding. -/

namespace Xv6.SlotTable

open Function

variable {κ ν : Type*} {e : ℕ → Option (κ × ν)} {k : ℕ} {b : κ × ν}

def bindings (e : ℕ → Option (κ × ν)) : Set (κ × ν) := {b | ∃ k, e k = some b}

def Distinct (e : ℕ → Option (κ × ν)) : Prop :=
  ∀ k m a b, e k = some a → e m = some b → a.1 = b.1 → k = m

theorem Distinct.eq_of_mem (h : Distinct e) {x : κ} {a b : ν} (ha : (x, a) ∈ bindings e)
    (hb : (x, b) ∈ bindings e) : a = b := by
  obtain ⟨k, hk⟩ := ha
  obtain ⟨m, hm⟩ := hb
  obtain rfl := h k m _ _ hk hm rfl
  rw [hk] at hm
  cases hm
  rfl

theorem Distinct.insert (h : Distinct e) (hnew : ∀ v, (b.1, v) ∉ bindings e) :
    Distinct (update e k (some b)) := by
  intro m n x y hm hn heq
  by_cases hmk : m = k
  · by_cases hnk : n = k
    · rw [hmk, hnk]
    · subst hmk
      rw [update_self] at hm
      rw [update_of_ne hnk] at hn
      cases hm
      exact absurd ⟨n, hn⟩ (heq ▸ hnew y.2)
  · rw [update_of_ne hmk] at hm
    by_cases hnk : n = k
    · subst hnk
      rw [update_self] at hn
      cases hn
      exact absurd ⟨m, hm⟩ (heq ▸ hnew x.2)
    · rw [update_of_ne hnk] at hn
      exact h m n x y hm hn heq

theorem Distinct.erase (h : Distinct e) : Distinct (update e k none) := by
  intro m n x y hm hn heq
  have hold {j : ℕ} {z : κ × ν} (hj : update e k none j = some z) : e j = some z := by
    by_cases hjk : j = k
    · subst hjk
      rw [update_self] at hj
      cases hj
    · rwa [update_of_ne hjk] at hj
  exact h m n x y (hold hm) (hold hn) heq

theorem bindings_insert (hk : e k = none) :
    bindings (update e k (some b)) = insert b (bindings e) := by
  ext x
  constructor
  · rintro ⟨m, hm⟩
    by_cases hmk : m = k
    · subst hmk
      rw [update_self] at hm
      cases hm
      exact .inl rfl
    · rw [update_of_ne hmk] at hm
      exact .inr ⟨m, hm⟩
  · rintro (rfl | ⟨m, hm⟩)
    · exact ⟨k, update_self ..⟩
    · refine ⟨m, ?_⟩
      rwa [update_of_ne]
      rintro rfl
      rw [hk] at hm
      cases hm

theorem bindings_erase (h : Distinct e) (hk : e k = some b) :
    bindings (update e k none) = bindings e \ {b} := by
  ext x
  constructor
  · rintro ⟨m, hm⟩
    have hmk : m ≠ k := by
      rintro rfl
      rw [update_self] at hm
      cases hm
    rw [update_of_ne hmk] at hm
    refine ⟨⟨m, hm⟩, ?_⟩
    rintro rfl
    exact hmk (h m k _ _ hm hk rfl)
  · rintro ⟨⟨m, hm⟩, hne⟩
    refine ⟨m, ?_⟩
    rwa [update_of_ne]
    rintro rfl
    rw [hk] at hm
    exact hne (Option.some.inj hm).symm

theorem finite_bindings {n : ℕ} (h : ∀ k, n ≤ k → e k = none) : (bindings e).Finite := by
  refine ((Set.finite_lt_nat n).biUnion fun k _ => (e k).toFinset.finite_toSet).subset ?_
  rintro b ⟨k, hk⟩
  have hlt : k < n := by
    by_contra hge
    rw [h k (by omega)] at hk
    cases hk
  exact Set.mem_biUnion hlt (by simp [hk])

end Xv6.SlotTable
