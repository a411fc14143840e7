import Mathlib.Tactic

/-!
# The matcher of `grep`

`match`, `matchhere` and `matchstar` decide whether a text has a part that a pattern describes. A C
string is the list of the bytes before its NUL, so a pointer into it is a suffix of the list. What a
pattern means is said apart from the code: it is a list of items, and the items accept a part of the
text, given what follows it.
-/

namespace Xv6.Grep

open List

/-- `matchstar`; `here` is `matchhere` with the rest of the pattern. -/
def matchstar (here : List UInt8 → Bool) (c : UInt8) : List UInt8 → Bool
  | [] => here []
  | x :: text => here (x :: text) || ((x == c || c == 46) && matchstar here c text)

def matchhere : List UInt8 → List UInt8 → Bool
  | [], _ => true
  | c :: 42 :: re, text => matchstar (matchhere re) c text
  | c :: re, text =>
    if c = 36 ∧ re = [] then text.isEmpty
    else
      match text with
      | [] => false
      | x :: text => (c == 46 || c == x) && matchhere re text

def matchFrom (re : List UInt8) : List UInt8 → Bool
  | [] => matchhere re []
  | x :: text => matchhere re (x :: text) || matchFrom re text

def matchRe (re text : List UInt8) : Bool :=
  if re.head? = some 94 then matchhere re.tail text else matchFrom re text

/-- The items of a pattern: `c*`, the `$` at its end, `.`, and a character that stands for
itself. -/
inductive Item
  | star (c : UInt8)
  | last
  | any
  | lit (c : UInt8)

def items : List UInt8 → List Item
  | [] => []
  | c :: 42 :: re => .star c :: items re
  | [36] => [.last]
  | 46 :: re => .any :: items re
  | c :: re => .lit c :: items re

/-- The items describe `s`, a part of the text that `post` follows. -/
def Accepts : List Item → List UInt8 → List UInt8 → Prop
  | [], s, _ => s = []
  | .star c :: is, s, post =>
    ∃ s₁ s₂, s = s₁ ++ s₂ ∧ (∀ x ∈ s₁, c = 46 ∨ x = c) ∧ Accepts is s₂ post
  | .last :: is, s, post => s ++ post = [] ∧ Accepts is s post
  | .any :: is, s, post => ∃ x s', s = x :: s' ∧ Accepts is s' post
  | .lit c :: is, s, post => ∃ s', s = c :: s' ∧ Accepts is s' post

def Begins (is : List Item) (text : List UInt8) :
    Prop := ∃ s post, text = s ++ post ∧ Accepts is s post

section accepts

variable {is : List Item} {text : List UInt8} {c x : UInt8}

theorem begins_nil (text : List UInt8) : Begins [] text := ⟨[], text, rfl, rfl⟩

theorem begins_last : Begins [.last] text ↔ text = [] := by
  constructor
  · rintro ⟨s, post, rfl, hend, -⟩
    exact hend
  · rintro rfl
    exact ⟨[], [], rfl, rfl, rfl⟩

theorem begins_any : Begins (.any :: is) text ↔ ∃ x rest, text = x :: rest ∧ Begins is rest := by
  constructor
  · rintro ⟨s, post, rfl, x, s', rfl, h⟩
    exact ⟨x, s' ++ post, rfl, s', post, rfl, h⟩
  · rintro ⟨x, rest, rfl, s, post, rfl, h⟩
    exact ⟨x :: s, post, rfl, x, s, rfl, h⟩

theorem begins_lit : Begins (.lit c :: is) text ↔ ∃ rest, text = c :: rest ∧ Begins is rest := by
  constructor
  · rintro ⟨s, post, rfl, s', rfl, h⟩
    exact ⟨s' ++ post, rfl, s', post, rfl, h⟩
  · rintro ⟨rest, rfl, s, post, rfl, h⟩
    exact ⟨c :: s, post, rfl, s, rfl, h⟩

theorem begins_star_nil : Begins (.star c :: is) [] ↔ Begins is [] := by
  constructor
  · rintro ⟨s, post, hnil, s₁, s₂, rfl, -, h⟩
    rw [append_assoc, eq_comm, append_eq_nil_iff] at hnil
    exact ⟨s₂, post, hnil.2.symm, h⟩
  · rintro ⟨s, post, hnil, h⟩
    exact ⟨s, post, hnil, [], s, rfl, nofun, h⟩

/-- Either the star takes nothing of the text, or its first character. -/
theorem begins_star_cons : Begins (.star c :: is) (x :: text) ↔
    Begins is (x :: text) ∨ (x = c ∨ c = 46) ∧ Begins (.star c :: is) text := by
  constructor
  · rintro ⟨s, post, htext, s₁, s₂, rfl, hall, h⟩
    cases s₁ with
    | nil => exact .inl ⟨s₂, post, htext, h⟩
    | cons y s₁ =>
      obtain ⟨rfl, rfl⟩ := List.cons.inj htext
      refine .inr ⟨(hall x mem_cons_self).symm, s₁ ++ s₂, post, rfl, s₁, s₂, rfl, ?_, h⟩
      exact fun z hz => hall z (mem_cons_of_mem x hz)
  · rintro (⟨s, post, htext, h⟩ | ⟨hx, s, post, rfl, s₁, s₂, rfl, hall, h⟩)
    · exact ⟨s, post, htext, [], s, rfl, nofun, h⟩
    · refine ⟨x :: (s₁ ++ s₂), post, rfl, x :: s₁, s₂, rfl, fun z hz => ?_, h⟩
      rcases mem_cons.1 hz with rfl | hz
      · exact hx.symm
      · exact hall z hz

end accepts

theorem matchstar_iff {here : List UInt8 → Bool} {is : List Item}
    (hhere : ∀ text, here text = true ↔ Begins is text) (c : UInt8) (text : List UInt8) :
    matchstar here c text = true ↔ Begins (.star c :: is) text := by
  induction text with
  | nil => rw [matchstar, hhere, begins_star_nil]
  | cons x text ih =>
    rw [matchstar, begins_star_cons, ← ih, ← hhere]
    simp only [Bool.or_eq_true, Bool.and_eq_true, beq_iff_eq]

/-- A character that no `*` follows and that is no `$` at the end. -/
theorem matchhere_one {c : UInt8} {re : List UInt8} (hstar : ∀ re', re ≠ 42 :: re')
    (hlast : ¬ (c = 36 ∧ re = [])) (text : List UInt8) : matchhere (c :: re) text = true ↔
      ∃ x rest, text = x :: rest ∧ (c = 46 ∨ c = x) ∧ matchhere re rest = true := by
  cases text with
  | nil =>
    rw [matchhere, if_neg hlast]
    · simp
    · exact hstar
  | cons x text =>
    rw [matchhere, if_neg hlast]
    · simp
    · exact hstar

theorem matchhere_iff (re text : List UInt8) :
    matchhere re text = true ↔ Begins (items re) text := by
  fun_induction items re generalizing text with
  | case1 => exact iff_of_true rfl (begins_nil text)
  | case2 c re ih => exact matchstar_iff ih c text
  | case3 =>
    rw [begins_last]
    simp [matchhere]
  | case4 re hstar ih =>
    rw [matchhere_one hstar (by simp), begins_any]
    simp only [ih, true_or, true_and]
  | case5 c re hstar hlast hany ih =>
    have hc : c ≠ 46 := fun h => hany h
    rw [matchhere_one hstar fun h => hlast h.1 h.2, begins_lit]
    simp only [ih, hc, false_or]
    constructor
    · rintro ⟨x, rest, rfl, rfl, h⟩
      exact ⟨rest, rfl, h⟩
    · rintro ⟨rest, rfl, h⟩
      exact ⟨c, rest, rfl, rfl, h⟩

theorem matchFrom_iff (re text : List UInt8) :
    matchFrom re text = true ↔ ∃ pre rest, text = pre ++ rest ∧ Begins (items re) rest := by
  induction text with
  | nil =>
    rw [matchFrom, matchhere_iff]
    constructor
    · exact fun h => ⟨[], [], rfl, h⟩
    · rintro ⟨pre, rest, hnil, h⟩
      rw [eq_comm, append_eq_nil_iff] at hnil
      rwa [hnil.2] at h
  | cons x text ih =>
    rw [matchFrom, Bool.or_eq_true, matchhere_iff, ih]
    constructor
    · rintro (h | ⟨pre, rest, rfl, h⟩)
      · exact ⟨[], x :: text, rfl, h⟩
      · exact ⟨x :: pre, rest, rfl, h⟩
    · rintro ⟨pre, rest, htext, h⟩
      cases pre with
      | nil => exact .inl (htext ▸ h)
      | cons y pre =>
        obtain ⟨rfl, rfl⟩ := List.cons.inj htext
        exact .inr ⟨pre, rest, rfl, h⟩

/-- `match` returns 1 exactly if the pattern describes a part of the text, the one at its start if
the pattern begins with `^`. -/
theorem match_decides_language (re text : List UInt8) : matchRe re text = true ↔
    ∃ pre s post, text = pre ++ s ++ post ∧ (re.head? = some 94 → pre = []) ∧
      Accepts (items (if re.head? = some 94 then re.tail else re)) s post := by
  by_cases hre : re.head? = some 94
  · rw [matchRe, if_pos hre, if_pos hre, matchhere_iff]
    constructor
    · rintro ⟨s, post, rfl, h⟩
      exact ⟨[], s, post, rfl, fun _ => rfl, h⟩
    · rintro ⟨pre, s, post, rfl, hstart, h⟩
      rw [hstart hre]
      exact ⟨s, post, rfl, h⟩
  · rw [matchRe, if_neg hre, if_neg hre, matchFrom_iff]
    constructor
    · rintro ⟨pre, _, rfl, s, post, rfl, h⟩
      exact ⟨pre, s, post, (append_assoc ..).symm, fun hstart => absurd hstart hre, h⟩
    · rintro ⟨pre, s, post, rfl, -, h⟩
      exact ⟨pre, s ++ post, append_assoc .., s, post, rfl, h⟩

-- `^a*.$` and `*$^`, in which only the first `^` and the last `$` are special
example : matchRe [94, 97, 42, 46, 36] [97, 97, 98] = true := by decide
example : matchRe [42, 36, 94] [97, 42, 36, 94] = true := by decide

end Xv6.Grep
