import Xv6.GrepMatch

/-!
# The lines that `grep` prints

`grep` reads into a buffer of 1024 bytes behind the unfinished line that it has there, writes the
finished lines that match, and moves what is left to the front. `read` is given by the number of
bytes that it returns: any number, cut to what was asked for and to what is left of the input, and
at least one byte if there is one and one was asked for.
-/

namespace Xv6.Grep

open Function List

def bufsize : ℕ := 1024

def window (buf : ℕ → UInt8) (p n : ℕ) : List UInt8 := (range n).map fun j => buf (p + j)

def str (buf : ℕ → UInt8) (p : ℕ) : List UInt8 := (window buf p (bufsize - p)).takeWhile (· ≠ 0)

def strchr (buf : ℕ → UInt8) (p : ℕ) (c : UInt8) :
    Option ℕ := ((str buf p).findIdx? (· == c)).map (p + ·)

/-- The inner loop of `grep`: the buffer, `p` and what has been written when it ends. -/
def scan (pattern : List UInt8) : ℕ → (ℕ → UInt8) → ℕ → List UInt8 →
    Option ((ℕ → UInt8) × ℕ × List UInt8)
  | 0, _, _, _ => none
  | fuel + 1, buf, p, out =>
    match strchr buf p 10 with
    | none => some (buf, p, out)
    | some q =>
      let buf := update buf q 0
      if matchRe pattern (str buf p) then
        let buf := update buf q 10
        scan pattern fuel buf (q + 1) (out ++ window buf p (q + 1 - p))
      else scan pattern fuel buf (q + 1) out

/-- `read` of at most `n` bytes, which returns `k` if it may. -/
def readChunk (k n : ℕ) (input : List UInt8) : List UInt8 := input.take (min (max 1 k) n)

def fillBuf (buf : ℕ → UInt8) (m : ℕ) (chunk : List UInt8) : ℕ → UInt8 :=
  update (fun j => if m ≤ j then chunk.getD (j - m) (buf j) else buf j) (m + chunk.length) 0

def moveBuf (buf : ℕ → UInt8) (p m : ℕ) : ℕ → UInt8 := fun j => if j < m then buf (p + j) else buf j

/-- The outer loop of `grep`; `sizes` gives what a call of `read` returns, by the rounds that are
left. -/
def grepLoop (pattern : List UInt8) (sizes : ℕ → ℕ) :
    ℕ → (ℕ → UInt8) → ℕ → List UInt8 → List UInt8 → Option (List UInt8)
  | 0, _, _, _, _ => none
  | fuel + 1, buf, m, input, out =>
    let chunk := readChunk (sizes fuel) (bufsize - m - 1) input
    if chunk = [] then some out
    else do
      let buf := fillBuf buf m chunk
      let m := m + chunk.length
      let (buf, p, out) ← scan pattern (bufsize + 1) buf 0 out
      -- `m` is not 0 here, so the test of it has no effect
      grepLoop pattern sizes fuel (moveBuf buf p (m - p)) (m - p) (input.drop chunk.length) out

def grep (pattern : List UInt8) (sizes : ℕ → ℕ) (buf : ℕ → UInt8) (input : List UInt8) :
    Option (List UInt8) :=
  grepLoop pattern sizes (input.length + 1) buf 0 input []

section window

variable {buf buf' : ℕ → UInt8} {p q n : ℕ} {c : UInt8}

@[simp] theorem length_window : (window buf p n).length = n := by simp [window]

theorem window_append (k : ℕ) : window buf p (n + k) = window buf p n ++ window buf (p + n) k := by
  simp only [window, range_add, map_append, map_map, append_cancel_left_eq,
    map_inj_left, Function.comp_apply, Nat.add_assoc, implies_true]

theorem window_congr (h : ∀ j, p ≤ j → j < p + n → buf' j = buf j) :
    window buf' p n = window buf p n := by
  refine map_congr_left fun j hj => h _ (Nat.le_add_right p j) ?_
  have := mem_range.1 hj
  omega

theorem window_one : window buf p 1 = [buf p] := by simp [window]

theorem window_update : window (update buf (p + n) c) p (n + 1) = window buf p n ++ [c] := by
  rw [window_append, window_one, update_self]
  congr 1
  refine window_congr fun j _ hj => update_of_ne (by omega) ..

end window

structure Has (buf : ℕ → UInt8) (p : ℕ) (s : List UInt8) : Prop where
  bytes : window buf p s.length = s
  nul : buf (p + s.length) = 0
  plain : 0 ∉ s
  fits : p + s.length < bufsize

section has

variable {buf : ℕ → UInt8} {p : ℕ} {s l r : List UInt8}

theorem Has.str (h : Has buf p s) : str buf p = s := by
  obtain ⟨k, hk⟩ : ∃ k, bufsize - p = s.length + (1 + k) := ⟨bufsize - p - s.length - 1, by
    have := h.fits
    omega⟩
  rw [Grep.str, hk, window_append, window_append, h.bytes, window_one, h.nul,
    takeWhile_append_of_pos]
  · simp
  · intro x hx
    simpa using ne_of_mem_of_not_mem hx h.plain

theorem Has.strchr_none (h : Has buf p s) (hs : 10 ∉ s) : strchr buf p 10 = none := by
  rw [strchr, h.str, findIdx?_eq_none_iff.2, Option.map_none]
  intro x hx
  simpa using ne_of_mem_of_not_mem hx hs

theorem Has.strchr_some (h : Has buf p (l ++ 10 :: r)) (hl : 10 ∉ l) :
    strchr buf p 10 = some (p + l.length) := by
  have hidx : (l ++ 10 :: r).findIdx? (· == 10) = some l.length := by
    rw [findIdx?_append, findIdx?_eq_none_iff.2, findIdx?_cons]
    · simp
    · intro x hx
      simpa using ne_of_mem_of_not_mem hx hl
  rw [strchr, h.str, hidx, Option.map_some]

theorem Has.line (h : Has buf p (l ++ 10 :: r)) : Has (update buf (p + l.length) 0) p l := by
  have hfits := h.fits
  have hbytes := h.bytes
  rw [length_append, window_append] at hbytes
  obtain ⟨hl, -⟩ := append_inj hbytes length_window
  refine ⟨?_, update_self .., fun h0 => h.plain (mem_append_left _ h0), ?_⟩
  · rw [window_congr fun j _ hj => update_of_ne (by omega) .., hl]
  · rw [length_append] at hfits
    omega

/-- What is behind the newline stays as it is, whatever is stored in its place. -/
theorem Has.rest (h : Has buf p (l ++ 10 :: r)) {buf' : ℕ → UInt8}
    (hbuf : ∀ j, p + l.length < j → buf' j = buf j) : Has buf' (p + l.length + 1) r := by
  have hfits := h.fits
  have hbytes := h.bytes
  have hnul := h.nul
  simp only [length_append, length_cons] at hfits hbytes hnul
  rw [window_append, Nat.add_comm r.length, window_append] at hbytes
  obtain ⟨-, hrest⟩ := append_inj hbytes length_window
  rw [window_one, singleton_append] at hrest
  obtain ⟨-, hr⟩ := List.cons.inj hrest
  refine ⟨?_, ?_, fun h0 => h.plain (by simp [h0]), by omega⟩
  · rw [window_congr fun j hj _ => hbuf j (by omega), hr]
  · rw [hbuf _ (by omega), ← hnul]
    congr 1
    omega

end has

def text (ls : List (List UInt8)) : List UInt8 := (ls.map (· ++ [10])).flatten

def printed (pattern : List UInt8) (ls : List (List UInt8)) :
    List UInt8 := text (ls.filter (matchRe pattern))

@[simp] theorem text_nil : text [] = [] := rfl

theorem text_cons (l : List UInt8) (ls : List (List UInt8)) :
    text (l :: ls) = l ++ 10 :: text ls := by
  simp [text]

theorem text_append (ls ls' : List (List UInt8)) : text (ls ++ ls') = text ls ++ text ls' := by
  simp [text]

theorem printed_append (pattern : List UInt8) (ls ls' : List (List UInt8)) :
    printed pattern (ls ++ ls') = printed pattern ls ++ printed pattern ls' := by
  rw [printed, filter_append, text_append]
  rfl

theorem printed_eq_nil (pattern : List UInt8) (ls : List (List UInt8)) :
    printed pattern ls = [] ↔ ∀ l ∈ ls, matchRe pattern l = false := by
  have htext (ks : List (List UInt8)) : text ks = [] ↔ ks = [] := by
    cases ks with
    | nil => exact iff_of_true rfl rfl
    | cons k ks => simp [text_cons]
  rw [printed, htext, filter_eq_nil_iff]
  simp only [Bool.not_eq_true]

section scan

variable {pattern : List UInt8} {buf : ℕ → UInt8} {p fuel : ℕ} {ls : List (List UInt8)}
    {left : List UInt8}

/-- The inner loop prints the finished lines that match and stops at the unfinished one. -/
theorem scan_spec (hls : ∀ l ∈ ls, 10 ∉ l) (hleft : 10 ∉ left) (h : Has buf p (text ls ++ left))
    (hfuel : ls.length < fuel) (out : List UInt8) :
    ∃ buf', scan pattern fuel buf p out =
    some (buf', p + (text ls).length, out ++ printed pattern ls) ∧
      Has buf' (p + (text ls).length) left := by
  induction ls generalizing buf p fuel out with
  | nil =>
    obtain ⟨fuel, rfl⟩ := Nat.exists_eq_add_one_of_ne_zero (Nat.ne_of_gt hfuel)
    refine ⟨buf, ?_, h⟩
    rw [scan, h.strchr_none hleft]
    simp [printed]
  | cons l ls ih =>
    obtain ⟨fuel, rfl⟩ := Nat.exists_eq_add_one_of_ne_zero (show fuel ≠ 0 by omega)
    rw [text_cons, append_assoc, cons_append] at h
    have hl : 10 ∉ l := hls l mem_cons_self
    have hlen : p + (text (l :: ls)).length = p + l.length + 1 + (text ls).length := by
      rw [text_cons, length_append, length_cons]
      omega
    rw [length_cons, Nat.add_lt_add_iff_right] at hfuel
    rw [scan, h.strchr_some hl, hlen]
    dsimp only
    rw [h.line.str]
    by_cases hm : matchRe pattern l = true
    · have hwritten : window (update (update buf (p + l.length) 0) (p + l.length) 10) p
          (p + l.length + 1 - p) = l ++ [10] := by
        rw [show p + l.length + 1 - p = l.length + 1 by omega, window_update, h.line.bytes]
      have hrest : Has (update (update buf (p + l.length) 0) (p + l.length) 10)
          (p + l.length + 1) (text ls ++ left) := h.rest fun j hj => by
        rw [update_of_ne (by omega), update_of_ne (by omega)]
      obtain ⟨buf', hrun, hhas⟩ :=
        ih (fun l' hl' => hls l' (mem_cons_of_mem l hl')) hrest hfuel (out ++ (l ++ [10]))
      refine ⟨buf', ?_, hhas⟩
      rw [if_pos hm, hwritten, hrun, printed, printed, filter_cons_of_pos hm, text_cons]
      simp
    · have hrest : Has (update buf (p + l.length) 0) (p + l.length + 1) (text ls ++ left) :=
        h.rest fun j hj => update_of_ne (by omega) ..
      obtain ⟨buf', hrun, hhas⟩ := ih (fun l' hl' => hls l' (mem_cons_of_mem l hl')) hrest hfuel out
      refine ⟨buf', ?_, hhas⟩
      rw [if_neg hm, hrun, printed, printed, filter_cons_of_neg hm]

end scan

/-- A part of the text that ends somewhere is finished lines and the beginning of one. -/
theorem split_text {ls : List (List UInt8)} (hls : ∀ l ∈ ls, 10 ∉ l) {c rest : List UInt8}
    (h : c ++ rest = text ls) : ∃ done ls' left, ls = done ++ ls' ∧ c = text done ++ left ∧
    10 ∉ left ∧
      left ++ rest = text ls' := by
  induction ls generalizing c with
  | nil =>
    obtain ⟨rfl, rfl⟩ := append_eq_nil_iff.1 h
    exact ⟨[], [], [], rfl, rfl, not_mem_nil, rfl⟩
  | cons l ls ih =>
    have hl : 10 ∉ l := hls l mem_cons_self
    have hcut := h
    rw [text_cons, append_eq_append_iff] at hcut
    rcases hcut with ⟨a, hcl, -⟩ | ⟨a, rfl, ha⟩
    · refine ⟨[], l :: ls, c, rfl, rfl, fun hc => hl ?_, h⟩
      rw [hcl]
      exact mem_append_left a hc
    · cases a with
      | nil =>
        rw [append_nil] at h ⊢
        exact ⟨[], l :: ls, l, rfl, rfl, hl, h⟩
      | cons x a =>
        obtain ⟨rfl, htail⟩ := List.cons.inj ha
        obtain ⟨done, ls', left, rfl, rfl, hleft, hrest⟩ :=
          ih (fun l' hl' => hls l' (mem_cons_of_mem l hl')) htail.symm
        refine ⟨l :: done, ls', left, rfl, ?_, hleft, hrest⟩
        rw [text_cons, append_assoc, cons_append]

theorem length_left_le {l left rest : List UInt8} {ls : List (List UInt8)} (hleft : 10 ∉ left)
    (h : left ++ rest = text (l :: ls)) : left.length ≤ l.length := by
  rw [text_cons, append_eq_append_iff] at h
  rcases h with ⟨a, rfl, -⟩ | ⟨a, rfl, ha⟩
  · rw [length_append]
    omega
  · cases a with
    | nil => rw [append_nil]
    | cons x a =>
      obtain ⟨rfl, -⟩ := List.cons.inj ha
      exact absurd (by simp) hleft

theorem length_line_lt {l : List UInt8} {ls : List (List UInt8)} (hl : l ∈ ls) :
    l.length < (text ls).length := by
  obtain ⟨ls₁, ls₂, rfl⟩ := append_of_mem hl
  rw [text_append, text_cons]
  simp only [length_append, length_cons]
  omega

theorem length_le_text (ls : List (List UInt8)) : ls.length ≤ (text ls).length := by
  induction ls with
  | nil => exact le_rfl
  | cons l ls ih =>
    rw [text_cons, length_cons, length_append, length_cons]
    omega

theorem text_plain {ls : List (List UInt8)} (hls : ∀ l ∈ ls, 0 ∉ l) : 0 ∉ text ls := by
  intro h0
  obtain ⟨_, hmem, h0⟩ := mem_flatten.1 h0
  obtain ⟨l, hl, rfl⟩ := mem_map.1 hmem
  rcases mem_append.1 h0 with h0 | h0
  · exact hls l hl h0
  · exact absurd h0 (by decide)

/-- The line, its newline and a NUL fit in the buffer. -/
def Short (l : List UInt8) : Bool := l.length + 1 < bufsize

section grep

variable {pattern : List UInt8} {sizes : ℕ → ℕ} {buf : ℕ → UInt8} {p fuel : ℕ}
  {ls : List (List UInt8)} {left chunk input : List UInt8}

theorem has_fillBuf (hbuf : window buf 0 left.length = left) (hplain : 0 ∉ left ++ chunk)
    (hfits : left.length + chunk.length < bufsize) :
    Has (fillBuf buf left.length chunk) 0 (left ++ chunk) := by
  refine ⟨?_, ?_, hplain, by rwa [Nat.zero_add, length_append]⟩
  · rw [length_append, window_append]
    congr 1
    · nth_rewrite 3 [← hbuf]
      refine window_congr fun j _ hj => ?_
      rw [fillBuf, update_of_ne (by omega), if_neg (by omega)]
    · refine ext_getElem (by simp) fun j hj hj' => ?_
      rw [length_window] at hj
      simp only [window, getElem_map, getElem_range, fillBuf]
      rw [update_of_ne (by omega), if_pos (by omega)]
      simp [hj]
  · rw [Nat.zero_add, length_append, fillBuf, update_self]

theorem Has.move (h : Has buf p left) :
    window (moveBuf buf p left.length) 0 left.length = left := by
  nth_rewrite 3 [← h.bytes]
  refine map_congr_left fun j hj => ?_
  rw [moveBuf, Nat.zero_add, if_pos (mem_range.1 hj)]

/-- When `read` returns nothing, the input is used up or the line that `grep` is in does not fit. -/
theorem takeWhile_of_readChunk_nil {k : ℕ} (hleft : 10 ∉ left) (htext : left ++ input = text ls)
    (hchunk : readChunk k (bufsize - left.length - 1) input = []) : ls.takeWhile Short = [] := by
  cases ls with
  | nil => rfl
  | cons l ls =>
    have hle := length_left_le hleft htext
    rw [readChunk, take_eq_nil_iff] at hchunk
    rcases hchunk with hzero | rfl
    · refine takeWhile_cons_of_neg ?_
      simp only [Short, decide_eq_true_eq]
      omega
    · rw [append_nil] at htext
      exact absurd (by simp [htext, text_cons]) hleft

theorem grepLoop_spec (hls : ∀ l ∈ ls, 10 ∉ l ∧ 0 ∉ l) (hleft : 10 ∉ left)
    (hbuf : window buf 0 left.length = left) (htext : left ++ input = text ls)
    (hfits : left.length < bufsize) (hfuel : input.length < fuel) (out : List UInt8) :
    grepLoop pattern sizes fuel buf left.length input out =
    some (out ++ printed pattern (ls.takeWhile Short)) := by
  induction fuel generalizing buf left input ls out with
  | zero => omega
  | succ fuel ih =>
    rw [grepLoop]
    dsimp only
    obtain ⟨chunk, hchunk⟩ : ∃ chunk, readChunk (sizes fuel) (bufsize - left.length - 1) input =
        chunk :=
      ⟨_, rfl⟩
    rw [hchunk]
    by_cases hnil : chunk = []
    · rw [if_pos hnil, takeWhile_of_readChunk_nil hleft htext (hchunk.trans hnil)]
      simp [printed]
    rw [if_neg hnil]
    -- what the buffer has now ends within the request, and what is left of it is to be read on
    have hlen : left.length + chunk.length < bufsize := by
      have hle : chunk.length ≤ bufsize - left.length - 1 := by
        rw [← hchunk, readChunk, length_take]
        omega
      omega
    have hcut : chunk ++ input.drop chunk.length = input := by
      rw [← hchunk]
      exact prefix_iff_eq_append.1 <| take_prefix _ _
    have hsplit : left ++ chunk ++ input.drop chunk.length = text ls := by
      rw [append_assoc, hcut, htext]
    have hplain : 0 ∉ left ++ chunk := fun h0 =>
      text_plain (fun l hl => (hls l hl).2) (hsplit ▸ mem_append_left _ h0)
    have hhas := has_fillBuf hbuf hplain hlen
    obtain ⟨done, ls', left', rfl, hc, hleft', htext'⟩ :=
      split_text (fun l hl => (hls l hl).1) hsplit
    have htotal : (text done).length + left'.length = left.length + chunk.length := by
      rw [← length_append, ← hc, length_append]
    rw [hc] at hhas
    obtain ⟨buf', hrun, hhas'⟩ := @scan_spec pattern _ _ (bufsize + 1) _ _
      (fun l hl => (hls l (mem_append_left _ hl)).1) hleft' hhas
      (by have := length_le_text done; omega) out
    have hrest : left.length + chunk.length - (0 + (text done).length) = left'.length := by omega
    rw [hrun]
    dsimp only [Option.bind_eq_bind, Option.bind_some]
    rw [hrest, ih (fun l hl => hls l (mem_append_right done hl)) hleft' hhas'.move htext'
      (by omega) ?_, takeWhile_append_of_pos, printed_append, append_assoc]
    · intro l hl
      have hlt := length_line_lt hl
      simp only [Short, decide_eq_true_eq]
      omega
    · have hpos := length_pos_of_ne_nil hnil
      rw [← hcut, length_append] at hfuel
      omega

theorem grep_spec (hls : ∀ l ∈ ls, 10 ∉ l ∧ 0 ∉ l) :
    grep pattern sizes buf (text ls) = some (printed pattern (ls.takeWhile Short)) :=
  grepLoop_spec hls (not_mem_nil : 10 ∉ ([] : List UInt8)) rfl rfl (by decide)
    (Nat.lt_succ_self _) []

/-- `grep` prints the lines that match, however `read` cuts the input, exactly if no line matches
from the first on that does not fit in the buffer. -/
theorem grep_prints_matching_iff (hls : ∀ l ∈ ls, 10 ∉ l ∧ 0 ∉ l) :
    grep pattern sizes buf (text ls) = some (printed pattern ls) ↔
      ∀ l ∈ ls.dropWhile Short, matchRe pattern l = false := by
  have hall : printed pattern ls = printed pattern (ls.takeWhile Short) ++
      printed pattern (ls.dropWhile Short) := by
    rw [← printed_append, takeWhile_append_dropWhile]
  rw [grep_spec hls, hall, Option.some.injEq, self_eq_append_right, printed_eq_nil]

end grep

theorem grep_prints_matching_iff_twoLines :
    grep [97] (fun _ => 1) (fun _ => 0) (text [[97, 98], [98]]) =
    some (printed [97] [[97, 98], [98]]) ↔
      ∀ l ∈ [[97, 98], [98]].dropWhile Short, matchRe [97] l = false :=
  grep_prints_matching_iff (by decide)

/-- A line of 1023 bytes fills the buffer: the next `read` is asked for nothing, and `grep` ends. -/
theorem grep_stops_at_long_line :
    grep [120] (fun _ => 1) (fun _ => 0) (text [replicate 1023 120]) = some [] ∧
      printed [120] [replicate 1023 120] = replicate 1023 120 ++ [10] := by
  have hlong : Short (replicate 1023 120) = false := by
    rw [Short, length_replicate]
    rfl
  have hmatch : matchRe [120] (replicate 1023 120) = true := by
    rw [replicate_succ]
    rfl
  have hplain : 10 ∉ replicate 1023 (120 : UInt8) ∧ 0 ∉ replicate 1023 (120 : UInt8) := by
    simp only [mem_replicate]
    decide
  generalize replicate 1023 (120 : UInt8) = l at hlong hmatch hplain
  constructor
  · rw [grep_spec, takeWhile_cons_of_neg (by simp [hlong])]
    · rfl
    · simpa using hplain
  · rw [printed, filter_cons_of_pos hmatch, filter_nil, text_cons, text_nil]

end Xv6.Grep
