import Mathlib.Data.List.DropRight
import Mathlib.Tactic

/-!
# Tokens of the shell

`gettoken` and `peek` of `user/sh.c`. A pointer into the command line is what the line has from
there on, so that `*s` is the first byte, or the NUL if nothing is left; the line itself has no NUL.
`tokens` lists what repeated calls of `gettoken` return, and the parser is later described by the
tokens that are left only. -/

namespace Xv6.Sh

open List

abbrev Ptr := List UInt8

abbrev bar : UInt8 := 124

abbrev lpar : UInt8 := 40

abbrev rpar : UInt8 := 41

abbrev semi : UInt8 := 59

abbrev amp : UInt8 := 38

abbrev less : UInt8 := 60

abbrev greater : UInt8 := 62

/-- What `gettoken` returns for `>>`. -/
abbrev plus : UInt8 := 43

/-- What it returns for a word. -/
abbrev letter : UInt8 := 97

/-- Space, tab, carriage return, newline and vertical tab. -/
def whitespace : List UInt8 := [32, 9, 13, 10, 11]

def symbols : List UInt8 := [less, bar, greater, amp, semi, lpar, rpar]

def isSpace (c : UInt8) : Bool := whitespace.contains c

def isWord (c : UInt8) : Bool := !whitespace.contains c && !symbols.contains c

def skip (s : Ptr) : Ptr := s.dropWhile isSpace

/-- The result of `gettoken` with `*q`, `*eq` and `*ps` after it. -/
structure Lexeme where
  ret : UInt8
  q : Ptr
  eq : Ptr
  ps : Ptr

def gettoken (ps : Ptr) : Lexeme :=
  match skip ps with
  | [] => ⟨0, [], [], []⟩
  | c :: s =>
    if c = bar ∨ c = lpar ∨ c = rpar ∨ c = semi ∨ c = amp ∨ c = less then ⟨c, c :: s, s, skip s⟩
    else if c = greater then
      if s.head? = some greater then ⟨plus, c :: s, s.tail, skip s.tail⟩ else ⟨greater,
        c :: s, s, skip s⟩
    else
      let e := (c :: s).dropWhile isWord
      ⟨letter, c :: s, e, skip e⟩

/-- The result of `peek` with `*ps` after it. -/
def peek (ps : Ptr) (toks : List UInt8) : Bool × Ptr :=
  match skip ps with
  | [] => (false, [])
  | c :: s => (toks.contains c, c :: s)

section lexemes

variable {s rest : Ptr} {c : UInt8}

theorem skip_skip (s : Ptr) : skip (skip s) = skip s := by
  unfold skip
  exact dropWhile_idempotent _ _

theorem length_skip_le (s : Ptr) : (skip s).length ≤ s.length := (dropWhile_suffix _).length_le

theorem not_space_of_skip (h : skip s = c :: rest) : isSpace c = false := by
  have hhead := List.head?_dropWhile_not isSpace s
  rw [show s.dropWhile isSpace = c :: rest from h] at hhead
  exact hhead

inductive Finds : Ptr → Lexeme → Prop
  | symbol {c : UInt8} {s : Ptr} (hc : c ∈ [bar, lpar, rpar, semi, amp, less]) :
    Finds (c :: s) ⟨c, c :: s, s, skip s⟩
  | append {s : Ptr} : Finds (greater :: greater :: s) ⟨plus, greater :: greater :: s, s, skip s⟩
  | out {s : Ptr} (hs : s.head? ≠ some greater) :
    Finds (greater :: s) ⟨greater, greater :: s, s, skip s⟩
  | word {c : UInt8} {s : Ptr} (hc : isWord c = true) :
    Finds (c :: s) ⟨letter, c :: s, (c :: s).dropWhile isWord, skip ((c :: s).dropWhile isWord)⟩

theorem gettoken_cases (s : Ptr) : (skip s = [] ∧ (gettoken s).ret = 0) ∨
    Finds (skip s) (gettoken s) := by
  unfold gettoken
  split
  next hs => exact .inl ⟨hs, rfl⟩
  next c rest hs =>
    right
    rw [hs]
    split
    next hc => exact .symbol (by simpa using hc)
    next hc =>
      split
      next hgreater =>
        subst hgreater
        split
        next hagain =>
          obtain ⟨rest, rfl⟩ := List.head?_eq_some_iff.1 hagain
          exact .append
        next hone => exact .out hone
      next hgreater =>
        refine .word ?_
        have hspace := not_space_of_skip hs
        simp only [isSpace] at hspace
        simp only [isWord, hspace, Bool.not_false, Bool.true_and, symbols,
          contains_eq_mem, mem_cons, not_mem_nil, or_false]
        simp only [not_or] at hc
        simp [hc, hgreater]

theorem Finds.ret_ne {t : Lexeme} (h : Finds s t) : t.ret ≠ 0 := by
  cases h with
  | symbol hc =>
    rintro rfl
    exact absurd hc (by decide)
  | append => exact (by decide : plus ≠ 0)
  | out _ => exact (by decide : greater ≠ 0)
  | word _ => exact (by decide : letter ≠ 0)

theorem gettoken_ret_eq : (gettoken s).ret = 0 ↔ skip s = [] := by
  rcases gettoken_cases s with ⟨hs, hret⟩ | h
  · exact iff_of_true hret hs
  · refine iff_of_false h.ret_ne fun hs => ?_
    rw [hs] at h
    cases h

theorem Finds.length_lt {t : Lexeme} (h : Finds s t) : t.ps.length < s.length := by
  cases h with
  | symbol hc => exact Nat.lt_succ_of_le (length_skip_le _)
  | append => exact Nat.lt_succ_of_le (le_trans (length_skip_le _) (Nat.le_succ _))
  | out _ => exact Nat.lt_succ_of_le (length_skip_le _)
  | word hc =>
    refine lt_of_le_of_lt (length_skip_le _) ?_
    rw [dropWhile_cons_of_pos hc]
    exact Nat.lt_succ_of_le (dropWhile_suffix _).length_le

theorem length_gettoken_lt (h : (gettoken s).ret ≠ 0) : (gettoken s).ps.length < s.length := by
  rcases gettoken_cases s with ⟨-, hret⟩ | hfinds
  · exact absurd hret h
  · exact lt_of_lt_of_le hfinds.length_lt (length_skip_le s)

end lexemes

/-! ## The tokens of a line -/

inductive Tok
  | sym (c : UInt8)
  | word (q eq : Ptr)

def Lexeme.tok (t : Lexeme) : Tok := if t.ret = letter then .word t.q t.eq else .sym t.ret

def tokens (s : Ptr) : List Tok :=
  if _h : (gettoken s).ret = 0 then [] else (gettoken s).tok :: tokens (gettoken s).ps
termination_by s.length
decreasing_by exact length_gettoken_lt _h

section tokens

variable {s : Ptr} {c : UInt8} {t : Lexeme} {q eq : Ptr}

theorem tokens_eq_nil (h : (gettoken s).ret = 0) : tokens s = [] := by
  rw [tokens, dif_pos h]

theorem tokens_eq_cons (h : (gettoken s).ret ≠ 0) :
    tokens s = (gettoken s).tok :: tokens (gettoken s).ps := by
  rw [tokens, dif_neg h]

theorem tokens_skip (s : Ptr) : tokens (skip s) = tokens s := by
  have hsame : gettoken (skip s) = gettoken s := by
    unfold gettoken
    rw [skip_skip]
  by_cases h : (gettoken s).ret = 0
  · rw [tokens_eq_nil h, tokens_eq_nil (by rwa [hsame])]
  · rw [tokens_eq_cons h, tokens_eq_cons (by rwa [hsame]), hsame]

theorem length_tokens_le (s : Ptr) : (tokens s).length ≤ s.length := by
  induction hn : s.length using Nat.strong_induction_on generalizing s with
  | h n ih =>
    by_cases h : (gettoken s).ret = 0
    · rw [tokens_eq_nil h]
      exact Nat.zero_le _
    · have hlt := length_gettoken_lt h
      have hrest := ih _ (hn ▸ hlt) (gettoken s).ps rfl
      rw [tokens_eq_cons h, length_cons]
      omega

theorem peek_snd (s : Ptr) (toks : List UInt8) : (peek s toks).2 = skip s := by
  unfold peek
  split <;> simp [*]

def first (c : UInt8) : UInt8 := if c = plus then greater else c

/-- A token is a symbol that begins with the byte found, or a word. -/
theorem Finds.tok_cases {rest : Ptr} (h : Finds (c :: rest) t) :
    (∃ d, t.tok = .sym d ∧ t.ret = d ∧ first d = c) ∨
    (t.tok = .word t.q t.eq ∧ t.ret = letter ∧ isWord c = true) := by
  cases h with
  | symbol hc =>
    have hne : c ≠ letter ∧ c ≠ plus := by
      constructor <;> rintro rfl <;> exact absurd hc (by decide)
    exact .inl ⟨c, if_neg hne.1, rfl, if_neg hne.2⟩
  | append => exact .inl ⟨plus, rfl, rfl, rfl⟩
  | out _ => exact .inl ⟨greater, rfl, rfl, rfl⟩
  | word hc => exact .inr ⟨rfl, rfl, hc⟩

theorem not_mem_symbols (h : isWord c = true) : c ∉ symbols := by
  unfold isWord at h
  simp only [Bool.and_eq_true, Bool.not_eq_true', contains_eq_mem, decide_eq_false_iff_not] at h
  exact h.2

/-- `peek` looks at the next token. -/
theorem peek_iff {toks : List UInt8} (htoks : toks ⊆ symbols) :
    (peek s toks).1 = true ↔ ∃ c rest, tokens s = .sym c :: rest ∧ first c ∈ toks := by
  rcases gettoken_cases s with ⟨hs, hret⟩ | hfinds
  · rw [tokens_eq_nil hret]
    simp [peek, hs]
  · rw [tokens_eq_cons hfinds.ret_ne]
    cases hs : skip s with
    | nil =>
      rw [hs] at hfinds
      cases hfinds
    | cons c rest =>
      rw [hs] at hfinds
      have hpeek : (peek s toks).1 = true ↔ c ∈ toks := by simp [peek, hs]
      rw [hpeek]
      rcases hfinds.tok_cases with ⟨d, htok, -, hfirst⟩ | ⟨htok, -, hword⟩
      · rw [htok, ← hfirst]
        constructor
        · exact fun hmem => ⟨d, _, rfl, hmem⟩
        · rintro ⟨d', rest', heq, hmem⟩
          cases heq
          exact hmem
      · rw [htok]
        refine iff_of_false (fun hmem => not_mem_symbols hword (htoks hmem)) ?_
        rintro ⟨d, rest', heq, -⟩
        cases heq

theorem tokens_peek (s : Ptr) (toks : List UInt8) : tokens (peek s toks).2 = tokens s := by
  rw [peek_snd, tokens_skip]

theorem peek_one_iff (hc : c ∈ [bar, lpar, rpar, semi, amp]) :
    (peek s [c]).1 = true ↔ ∃ rest, tokens s = .sym c :: rest := by
  have hsub : [c] ⊆ symbols := by
    intro d hd
    obtain rfl := mem_singleton.1 hd
    fin_cases hc <;> decide
  rw [peek_iff hsub]
  constructor
  · rintro ⟨d, rest, htokens, hd⟩
    have hfirst := mem_singleton.1 hd
    unfold first at hfirst
    split at hfirst
    next => exact absurd (hfirst ▸ hc) (by decide)
    next => exact ⟨rest, hfirst ▸ htokens⟩
  · rintro ⟨rest, htokens⟩
    refine ⟨c, rest, htokens, mem_singleton.2 (if_neg ?_)⟩
    rintro rfl
    exact absurd hc (by decide)

theorem gettoken_cons {t : Tok} {rest : List Tok} (h : tokens s = t :: rest) :
    (gettoken s).ret ≠ 0 ∧ (gettoken s).tok = t ∧ tokens (gettoken s).ps = rest := by
  by_cases hret : (gettoken s).ret = 0
  · rw [tokens_eq_nil hret] at h
    cases h
  · rw [tokens_eq_cons hret] at h
    exact ⟨hret, List.cons.inj h⟩

theorem gettoken_nil (h : tokens s = []) : (gettoken s).ret = 0 ∧ tokens (gettoken s).ps = [] := by
  by_cases hret : (gettoken s).ret = 0
  · have hskip := gettoken_ret_eq.1 hret
    have hps : (gettoken s).ps = [] := by
      unfold gettoken
      rw [hskip]
    rw [hps]
    refine ⟨hret, tokens_eq_nil rfl⟩
  · rw [tokens_eq_cons hret] at h
    cases h

theorem ret_of_word (h : t.tok = .word q eq) : t.ret = letter ∧ t.q = q ∧ t.eq = eq := by
  unfold Lexeme.tok at h
  split at h
  next hret =>
    cases h
    exact ⟨hret, rfl, rfl⟩
  next => cases h

theorem ret_of_sym {c : UInt8} (h : t.tok = .sym c) : t.ret = c ∧ t.ret ≠ letter := by
  unfold Lexeme.tok at h
  split at h
  next => cases h
  next hret =>
    cases h
    exact ⟨rfl, hret⟩

theorem gettoken_word (h : (gettoken s).ret = letter) :
    tokens s = .word (gettoken s).q (gettoken s).eq :: tokens (gettoken s).ps := by
  have hne : (gettoken s).ret ≠ 0 := by
    rw [h]
    decide
  rw [tokens_eq_cons hne, Lexeme.tok, if_pos h]

theorem gettoken_not_word (h : (gettoken s).ret ≠ letter) (q eq : Ptr) (rest : List Tok) :
    tokens s ≠ .word q eq :: rest :=
  fun htokens => h (ret_of_word (gettoken_cons htokens).2.1).1

structure WordIn (s q eq : Ptr) : Prop where
  start : q <:+ s
  stop : eq = q.dropWhile isWord
  nonempty : q.length ≠ eq.length

theorem Finds.suffix (h : Finds s t) : t.ps <:+ s ∧ t.q = s := by
  have hskip (r : Ptr) : skip r <:+ r := dropWhile_suffix _
  cases h with
  | symbol hc => exact ⟨(hskip _).trans (suffix_cons _ _), rfl⟩
  | append => exact ⟨(hskip _).trans ((suffix_cons _ _).trans (suffix_cons _ _)), rfl⟩
  | out _ => exact ⟨(hskip _).trans (suffix_cons _ _), rfl⟩
  | word hc => exact ⟨(hskip _).trans (dropWhile_suffix _), rfl⟩

theorem Finds.word_in (h : Finds s t) (htok : t.tok = .word q eq) : WordIn s q eq := by
  obtain ⟨hret, rfl, rfl⟩ := ret_of_word htok
  cases h with
  | symbol hc =>
    obtain rfl : _ = letter := hret
    exact absurd hc (by decide)
  | append => exact absurd hret (by decide : plus ≠ letter)
  | out _ => exact absurd hret (by decide : greater ≠ letter)
  | word hc =>
    refine ⟨suffix_rfl, rfl, Nat.ne_of_gt ?_⟩
    rw [dropWhile_cons_of_pos hc]
    exact Nat.lt_succ_of_le (dropWhile_suffix _).length_le

theorem WordIn.mono {r : Ptr} (h : WordIn r q eq) (hr : r <:+ s) : WordIn s q eq :=
  ⟨h.start.trans hr, h.stop, h.nonempty⟩

theorem word_in_of_mem (h : .word q eq ∈ tokens s) : WordIn s q eq := by
  induction hn : s.length using Nat.strong_induction_on generalizing s with
  | h n ih =>
    rcases gettoken_cases s with ⟨-, hret⟩ | hfinds
    · rw [tokens_eq_nil hret] at h
      cases h
    · have hskip : skip s <:+ s := dropWhile_suffix _
      rw [tokens_eq_cons hfinds.ret_ne] at h
      rcases mem_cons.1 h with heq | hrest
      · exact (hfinds.word_in heq.symm).mono hskip
      · have hlt := length_gettoken_lt hfinds.ret_ne
        exact (ih _ (hn ▸ hlt) hrest rfl).mono (hfinds.suffix.1.trans hskip)

end tokens

end Xv6.Sh
