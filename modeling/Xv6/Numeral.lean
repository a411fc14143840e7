import Mathlib.Data.Nat.Digits.Lemmas
import Mathlib.Tactic

/-!
# Numerals

Numerals in a base, most significant digit first, and the loop that writes one from its last digit
on into a buffer of fixed size. The characters of the digits are given by a table that can be read
backwards, so a numeral determines its number.
-/

namespace Xv6.Numeral

open List

variable {χ : Type*}

/-- The characters of the digits `0 .. bound - 1`, and of the minus sign. -/
structure Table (χ : Type*) (bound : ℕ) where
  char : ℕ → χ
  minus : χ
  value : χ → ℕ
  value_char : ∀ d < bound, value (char d) = d
  char_ne : ∀ d < bound, char d ≠ minus

/-- The digits of `n`, the last one first; 0 has one digit. -/
def lowFirst (b n : ℕ) : List ℕ := if n = 0 then [0] else b.digits n

theorem lowFirst_eq {b : ℕ} (hb : 1 < b) (n : ℕ) :
    lowFirst b n = n % b :: if n / b = 0 then [] else lowFirst b (n / b) := by
  unfold lowFirst
  by_cases hn : n = 0
  · subst hn
    simp
  · rw [if_neg hn, Nat.digits_eq_cons_digits_div hb hn]
    by_cases hdiv : n / b = 0
    · rw [if_pos hdiv, hdiv, Nat.digits_zero]
    · rw [if_neg hdiv, if_neg hdiv]

theorem length_lowFirst_pos (b n : ℕ) : 0 < (lowFirst b n).length := by
  unfold lowFirst
  split
  · exact Nat.one_pos
  · next hn => exact length_pos_of_ne_nil (Nat.digits_ne_nil_iff_ne_zero.2 hn)

theorem length_lowFirst_le_iff {b k : ℕ} (hb : 1 < b) (hk : 0 < k) (n : ℕ) :
    (lowFirst b n).length ≤ k ↔ n < b ^ k := by
  unfold lowFirst
  split
  · next hn =>
    subst hn
    exact iff_of_true hk (Nat.pow_pos (by omega))
  · exact Nat.digits_length_le_iff hb n

theorem lt_of_mem_lowFirst {b n d : ℕ} (hb : 1 < b) (hd : d ∈ lowFirst b n) : d < b := by
  unfold lowFirst at hd
  split at hd
  · rw [mem_singleton] at hd
    omega
  · exact Nat.digits_lt_base hb hd

theorem ofDigits_lowFirst (b n : ℕ) : Nat.ofDigits b (lowFirst b n) = n := by
  unfold lowFirst
  split
  · next hn => simp [hn]
  · exact Nat.ofDigits_digits b n

section numeral

variable {bound : ℕ} (t : Table χ bound)

def numeral (b n : ℕ) : List χ := ((lowFirst b n).map t.char).reverse

def signed (b : ℕ) (z : ℤ) : List χ :=
    if z < 0 then t.minus :: numeral t b z.natAbs else numeral t b z.natAbs

variable {t}

theorem length_numeral (b n : ℕ) :
    (numeral t b n).length = (lowFirst b n).length := by simp [numeral]

theorem numeral_ne_minus {b : ℕ} (hb : 1 < b) (hbound : b ≤ bound) (n : ℕ) :
    t.minus ∉ numeral t b n := by
  intro hmem
  rw [numeral, mem_reverse, mem_map] at hmem
  obtain ⟨d, hd, heq⟩ := hmem
  exact t.char_ne d (lt_of_lt_of_le (lt_of_mem_lowFirst hb hd) hbound) heq

theorem map_value_numeral {b : ℕ} (hb : 1 < b) (hbound : b ≤ bound) (n : ℕ) :
    ((numeral t b n).reverse).map t.value = lowFirst b n := by
  rw [numeral, reverse_reverse, map_map]
  refine (map_congr_left fun d hd => ?_).trans (map_id _)
  exact t.value_char d (lt_of_lt_of_le (lt_of_mem_lowFirst hb hd) hbound)

theorem numeral_injective {b : ℕ} (hb : 1 < b) (hbound : b ≤ bound) :
    Function.Injective (numeral t b) := by
  intro m n h
  have hdigits := congrArg (fun s => (s.reverse).map t.value) h
  rw [map_value_numeral hb hbound, map_value_numeral hb hbound] at hdigits
  rw [← ofDigits_lowFirst b m, hdigits, ofDigits_lowFirst]

theorem signed_injective {b : ℕ} (hb : 1 < b) (hbound : b ≤ bound) :
    Function.Injective (signed t b) := by
  have hne (m n : ℕ) : t.minus :: numeral t b m ≠ numeral t b n := fun h =>
    numeral_ne_minus hb hbound n (h ▸ mem_cons_self)
  intro y z h
  unfold signed at h
  split at h <;> split at h
  · have := numeral_injective hb hbound (List.cons.inj h).2
    omega
  · exact absurd h (hne _ _)
  · exact absurd h.symm (hne _ _)
  · have := numeral_injective hb hbound h
    omega

end numeral

/-- The digit loop with room for so many more characters: it fails when it would write behind the
buffer. -/
def digitLoop (char : ℕ → χ) (b : ℕ) : ℕ → ℕ → List χ → Option (List χ)
  | 0, _, _ => none
  | room + 1, x, buf =>
    if x / b ≠ 0 then digitLoop char b room (x / b) (buf ++ [char (x % b)])
    else some (buf ++ [char (x % b)])

theorem digitLoop_eq {b : ℕ} (hb : 1 < b) (char : ℕ → χ) (room x : ℕ) (buf : List χ) :
    digitLoop char b room x buf =
      if (lowFirst b x).length ≤ room then some (buf ++ (lowFirst b x).map char) else none := by
  induction room generalizing x buf with
  | zero =>
    have hpos := length_lowFirst_pos b x
    rw [digitLoop, if_neg (by omega)]
  | succ room ih =>
    rw [digitLoop, lowFirst_eq hb]
    by_cases hdiv : x / b = 0
    · simp [hdiv]
    · rw [if_pos hdiv, if_neg hdiv, ih]
      simp

end Xv6.Numeral
