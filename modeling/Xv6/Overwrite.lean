import Mathlib.Tactic

/-!
# Overwriting a part of a list

`overwrite l off xs` is the list `l` with `xs` from the index `off` on, which must not be behind its
end; the list grows when `xs` reaches behind it. Two overwrites that follow one another are one.
-/

namespace Xv6

open List

variable {α : Type*} {l xs ys : List α} {off : ℕ}

def overwrite (l : List α) (off : ℕ) (xs : List α) :
    List α := l.take off ++ xs ++ l.drop (off + xs.length)

@[simp] theorem overwrite_nil : overwrite l off [] = l := by simp [overwrite]

theorem length_overwrite (h : off ≤ l.length) :
    (overwrite l off xs).length = max l.length (off + xs.length) := by
  simp only [overwrite, length_append, length_take, length_drop]
  omega

theorem getElem?_overwrite (h : off ≤ l.length) (k : ℕ) :
    (overwrite l off xs)[k]? = if off ≤ k ∧ k < off + xs.length then xs[k - off]? else l[k]? := by
  have htake : (l.take off).length = off := by simp [h]
  unfold overwrite
  by_cases hlow : k < off
  · rw [if_neg (by omega), append_assoc, List.getElem?_append_left (by omega),
      List.getElem?_take_of_lt hlow]
  · rw [append_assoc, List.getElem?_append_right (by omega), htake]
    by_cases hin : k < off + xs.length
    · rw [if_pos (by omega), List.getElem?_append_left (by omega)]
    · rw [if_neg (by omega), List.getElem?_append_right (by omega), List.getElem?_drop]
      congr 1
      omega

theorem overwrite_append (h : off ≤ l.length) :
    overwrite (overwrite l off xs) (off + xs.length) ys = overwrite l off (xs ++ ys) := by
  have hlen : off + xs.length ≤ (overwrite l off xs).length := by
    rw [length_overwrite h]
    exact le_max_right _ _
  apply ext_getElem?
  intro k
  rw [getElem?_overwrite hlen, getElem?_overwrite h, getElem?_overwrite h, length_append]
  by_cases hsecond : off + xs.length ≤ k ∧ k < off + xs.length + ys.length
  · rw [if_pos hsecond, if_pos (by omega), List.getElem?_append_right (by omega)]
    congr 1
    omega
  · rw [if_neg hsecond]
    by_cases hfirst : off ≤ k ∧ k < off + xs.length
    · rw [if_pos hfirst, if_pos (by omega), List.getElem?_append_left (by omega)]
    · rw [if_neg hfirst, if_neg (by omega)]

end Xv6
