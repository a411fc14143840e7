import Xv6.ShGrammar

/-!
# Lines that the shell accepts

`parsecmd` as a whole: it accepts the lines of the grammar and reports the others, and after
`nulterminate` every word and file name of the tree is the string at its pointer. The end of a word
is never a byte of another word, so no terminator falls into one.
-/

namespace Xv6.Sh

open Descent List

def Cmd.words : Cmd → List (Ptr × Ptr)
  | .exec argv => argv
  | .redir cmd file efile _ _ => cmd.words ++ [(file, efile)]
  | .pipe left right => left.words ++ right.words
  | .list left right => left.words ++ right.words
  | .back cmd => cmd.words

def text (w : Ptr × Ptr) : List UInt8 := w.1.take (w.1.length - w.2.length)

structure IsString (b : Buffer) (i : ℕ) (t : List UInt8) : Prop where
  bytes : ∀ j, j < t.length → b (i + j) = t.getD j 0
  nul : b (i + t.length) = 0
  plain : 0 ∉ t

/-! ## The words of a tree are tokens -/

section words

variable {c : Cmd}

theorem words_redircmd (op : UInt8) (c : Cmd) (file efile : Ptr) :
    ∀ w ∈ (redircmd op c file efile).words, w ∈ c.words ∨ w = (file, efile) := by
  intro w hw
  have hcases : (redircmd op c file efile).words = c.words ++ [(file, efile)] ∨
      (redircmd op c file efile).words = c.words := by
    unfold redircmd
    split_ifs
    exacts [.inl rfl, .inl rfl, .inl rfl, .inr rfl]
  rcases hcases with heq | heq <;> rw [heq] at hw
  · rcases mem_append.1 hw with hw | hw
    · exact .inl hw
    · exact .inr (mem_singleton.1 hw)
  · exact .inl hw

theorem words_wrap (c : Cmd) (rs : List Redirect) :
    ∀ w ∈ (wrap c rs).words, w ∈ c.words ∨ .word w.1 w.2 ∈ rs.flatMap Redirect.toks := by
  induction rs generalizing c with
  | nil => exact fun w hw => .inl hw
  | cons r rs ih =>
    intro w hw
    rw [flatMap_cons, mem_append]
    rcases ih (redircmd r.op c r.file r.efile) w hw with hin | hin
    · rcases words_redircmd r.op c r.file r.efile w hin with hin | rfl
      · exact .inl hin
      · exact .inr (.inl (mem_cons_of_mem _ mem_cons_self))
    · exact .inr (.inr hin)

theorem words_back (n : ℕ) (c : Cmd) : (Cmd.back^[n] c).words = c.words := by
  induction n generalizing c with
  | zero => rfl
  | succ n ih => rw [Function.iterate_succ_apply, ih, Cmd.words]

theorem words_of_derives {p : Phrase} {ts : List Tok} (h : Derives p ts c) :
    ∀ w ∈ c.words, .word w.1 w.2 ∈ ts := by
  induction h with
  | line h n ih =>
    intro w hw
    rw [words_back] at hw
    exact mem_append_left _ (ih w hw)
  | lines h n h' ih ih' =>
    intro w hw
    rcases mem_append.1 hw with hw | hw
    · rw [words_back] at hw
      exact mem_append_left _ (mem_append_left _ (ih w hw))
    · exact mem_append_right _ (mem_cons_of_mem _ (ih' w hw))
  | pipe h ih => exact ih
  | pipes h h' ih ih' =>
    intro w hw
    rcases mem_append.1 hw with hw | hw
    · exact mem_append_left _ (ih w hw)
    · exact mem_append_right _ (mem_cons_of_mem _ (ih' w hw))
  | block h rs ih =>
    intro w hw
    rcases words_wrap _ rs w hw with hw | hw
    · exact mem_append_left _ (mem_cons_of_mem _ (ih w hw))
    · exact mem_append_right _ (mem_cons_of_mem _ hw)
  | exec rs args hargs =>
    intro w hw
    rcases words_wrap _ _ w hw with hw | hw
    · obtain ⟨a, ha, rfl⟩ := mem_map.1 hw
      exact mem_append_right _ (mem_flatMap.2 ⟨a, ha, mem_cons_self⟩)
    · rw [flatMap_append, mem_append] at hw
      rcases hw with hw | hw
      · exact mem_append_left _ hw
      · obtain ⟨r, hr, hw⟩ := mem_flatMap.1 hw
        obtain ⟨a, ha, hr⟩ := mem_flatMap.1 hr
        refine mem_append_right _ (mem_flatMap.2 ⟨a, ha, mem_cons_of_mem _ ?_⟩)
        exact mem_flatMap.2 ⟨r, hr, hw⟩

end words

/-! ## The terminators -/

section terminators

variable {line : Ptr} {b : Buffer} {i : ℕ}

theorem terminate_fold (argv : List (Ptr × Ptr)) (b : Buffer) (i : ℕ) :
    argv.foldl (fun b arg => terminate line arg.2 b) b i =
    if ∃ w ∈ argv, i = offset line w.2 then 0 else b i := by
  induction argv generalizing b with
  | nil => simp
  | cons a argv ih =>
    rw [foldl_cons, ih]
    by_cases hrest : ∃ w ∈ argv, i = offset line w.2
    · obtain ⟨w, hw, hi⟩ := hrest
      rw [if_pos ⟨w, hw, hi⟩, if_pos ⟨w, mem_cons_of_mem _ hw, hi⟩]
    · rw [if_neg hrest, terminate, Function.update_apply]
      by_cases hi : i = offset line a.2
      · rw [if_pos hi, if_pos ⟨a, mem_cons_self, hi⟩]
      · rw [if_neg hi, if_neg]
        rintro ⟨w, hw, hi'⟩
        rcases mem_cons.1 hw with rfl | hw
        · exact hi hi'
        · exact hrest ⟨w, hw, hi'⟩

/-- Exactly the bytes at the ends of the words become NULs. -/
theorem nulterminate_apply (c : Cmd) (b : Buffer) (i : ℕ) :
    nulterminate line c b i = if ∃ w ∈ c.words, i = offset line w.2 then 0 else b i := by
  have happend (l l' : List (Ptr × Ptr)) : (∃ w ∈ l ++ l', i = offset line w.2) ↔
      (∃ w ∈ l', i = offset line w.2) ∨ ∃ w ∈ l, i = offset line w.2 := by
    simp only [mem_append, or_and_right, exists_or]
    exact or_comm
  induction c generalizing b with
  | exec argv => exact terminate_fold argv b i
  | redir cmd file efile mode fd ih =>
    rw [nulterminate, terminate, Function.update_apply, ih]
    simp only [Cmd.words, happend, mem_singleton, exists_eq_left, ite_or]
  | pipe left right ih ih' =>
    rw [nulterminate, ih', ih]
    simp only [Cmd.words, happend, ite_or]
  | list left right ih ih' =>
    rw [nulterminate, ih', ih]
    simp only [Cmd.words, happend, ite_or]
  | back cmd ih => rw [nulterminate, ih, Cmd.words]

theorem buffer_offset {q : Ptr} (hq : q <:+ line) (j : ℕ) :
    buffer line (offset line q + j) = q.getD j 0 := by
  obtain ⟨front, rfl⟩ := hq
  have hoffset : offset (front ++ q) q = front.length := by simp [offset]
  rw [buffer, hoffset, getD_eq_getElem?_getD, getD_eq_getElem?_getD,
    List.getElem?_append_right (Nat.le_add_right _ _), Nat.add_sub_cancel_left]

section words

variable {q eq : Ptr}

theorem WordIn.text_eq (h : WordIn line q eq) : text (q, eq) = q.takeWhile isWord := by
  have hsplit : q.takeWhile isWord ++ eq = q := by
    rw [h.stop]
    exact takeWhile_append_dropWhile
  have hlen := congrArg List.length hsplit
  rw [length_append] at hlen
  calc text (q, eq) = (q.takeWhile isWord ++ eq).take (q.length - eq.length) := by rw [hsplit, text]
    _ = q.takeWhile isWord := by rw [← hlen, Nat.add_sub_cancel, take_left]

theorem WordIn.text_append (h : WordIn line q eq) : text (q, eq) ++ eq = q := by
  rw [h.text_eq, h.stop]
  exact takeWhile_append_dropWhile

theorem WordIn.offset_stop (h : WordIn line q eq) :
    offset line q + (text (q, eq)).length = offset line eq := by
  have hlen := congrArg List.length h.text_append
  have hle := h.start.length_le
  rw [length_append] at hlen
  unfold offset
  omega

theorem WordIn.byte (h : WordIn line q eq) {j : ℕ} (hj : j < (text (q, eq)).length) :
    offset line q + j < line.length ∧ buffer line (offset line q + j) = (text (q, eq)).getD j 0 ∧
      isWord (buffer line (offset line q + j)) = true := by
  have hbyte : buffer line (offset line q + j) = (text (q, eq)).getD j 0 := by
    rw [buffer_offset h.start]
    nth_rewrite 1 [← h.text_append]
    rw [getD_eq_getElem?_getD, List.getElem?_append_left hj, getD_eq_getElem?_getD]
  refine ⟨?_, hbyte, ?_⟩
  · have hstop := h.offset_stop
    unfold offset at hstop ⊢
    omega
  · have hall : ∀ x ∈ text (q, eq), isWord x = true := by
      rw [h.text_eq]
      exact fun x hx => mem_takeWhile_imp hx
    rw [hbyte, getD_eq_getElem?_getD, List.getElem?_eq_getElem hj, Option.getD_some]
    exact hall _ (getElem_mem hj)

/-- The end of a word is the end of the line or a byte that is in no word. -/
theorem WordIn.stop_byte (h : WordIn line q eq) :
    offset line eq = line.length ∨ isWord (buffer line (offset line eq)) = false := by
  have hsuffix : eq <:+ line := (h.stop ▸ dropWhile_suffix _ : eq <:+ q).trans h.start
  cases heq : eq with
  | nil => exact .inl (Nat.sub_zero _)
  | cons c rest =>
    have hfirst := buffer_offset hsuffix 0
    rw [heq] at hfirst
    rw [← Nat.add_zero (offset line (c :: rest)), hfirst]
    have hne : q.dropWhile isWord ≠ [] := by rw [← h.stop, heq]; exact cons_ne_nil _ _
    have hhead := head_dropWhile_not isWord hne
    simp only [← h.stop, heq, head_cons] at hhead
    exact .inr hhead

end words

/-- After `nulterminate` every word of the tree is a string, since no terminator falls into it. -/
theorem nulterminate_strings {c : Cmd} (hline : 0 ∉ line)
    (hwords : ∀ w ∈ c.words, WordIn line w.1 w.2) {w : Ptr × Ptr} (hw : w ∈ c.words) :
    IsString (nulterminate line c (buffer line)) (offset line w.1) (text w) where
  bytes j hj := by
    obtain ⟨hlt, hbyte, hword⟩ := (hwords w hw).byte hj
    rw [nulterminate_apply, if_neg, hbyte]
    rintro ⟨w', hw', hi⟩
    rcases (hwords w' hw').stop_byte with hend | hnot
    · omega
    · rw [← hi, hword] at hnot
      cases hnot
  nul := by
    rw [nulterminate_apply, if_pos ⟨w, hw, (hwords w hw).offset_stop⟩]
  plain hzero := hline ((hwords w hw).start.subset (mem_of_mem_take hzero))

end terminators

/-! ## Whole lines -/

section lines

variable {line : Ptr}

theorem skip_eq_nil_iff (s : Ptr) : skip s = [] ↔ tokens s = [] := by
  rcases gettoken_cases s with ⟨hskip, hret⟩ | hfinds
  · exact ⟨fun _ => tokens_eq_nil hret, fun _ => hskip⟩
  · refine ⟨fun hskip => ?_, fun htokens => ?_⟩
    · rw [hskip] at hfinds
      cases hfinds
    · rw [tokens_eq_cons hfinds.ret_ne] at htokens
      cases htokens

theorem parseline_parses (line : Ptr) : LineParses (4 * line.length + 4) line :=
  (functions_parse _ line).1 (by have := length_tokens_le line; omega)

theorem parsecmd_cases (line : Ptr) :
    (∃ e, parseline (4 * line.length + 4) line = .error e ∧ parsecmd line = .error e) ∨
    ∃ c s, parseline (4 * line.length + 4) line = .ok (c, s) ∧
      ((tokens s ≠ [] ∧ parsecmd line = .error (.panic (.leftovers (skip s)))) ∨
        (tokens s = [] ∧ parsecmd line = .ok (c, nulterminate line c (buffer line)))) := by
  unfold parsecmd
  cases hline : parseline (4 * line.length + 4) line with
  | error e => exact .inl ⟨e, rfl, rfl⟩
  | ok r =>
    refine .inr ⟨r.1, r.2, rfl, ?_⟩
    simp only [Except.bind, peek_snd]
    by_cases hrest : skip r.2 = []
    · exact .inr ⟨(skip_eq_nil_iff r.2).1 hrest, if_neg (not_not.2 hrest)⟩
    · exact .inl ⟨fun htokens => hrest ((skip_eq_nil_iff r.2).2 htokens), if_pos hrest⟩

theorem parsecmd_eq_ok_iff {c : Cmd} {b : Buffer} : parsecmd line = .ok (c, b) ↔
    Derives .line (tokens line) c ∧ b = nulterminate line c (buffer line) := by
  have hparses := parseline_parses line
  constructor
  · intro h
    rcases parsecmd_cases line with ⟨e, -, he⟩ | ⟨d, s, hline, ⟨-, he⟩ | ⟨hend, hok⟩⟩
    · cases h.symm.trans he
    · cases h.symm.trans he
    · cases h.symm.trans hok
      obtain ⟨us, htokens, hderives⟩ := hparses.sound c s hline
      rw [hend, append_nil] at htokens
      exact ⟨htokens ▸ hderives, rfl⟩
  · rintro ⟨hderives, rfl⟩
    obtain ⟨s, hline, hend⟩ := hparses.complete _ [] c (append_nil _).symm hderives (.inl rfl)
    rcases parsecmd_cases line with ⟨e, he, -⟩ | ⟨d, s', hline', ⟨hrest, -⟩ | ⟨-, hok⟩⟩
    · cases hline.symm.trans he
    · cases hline.symm.trans hline'
      exact absurd hend hrest
    · cases hline.symm.trans hline'
      exact hok

theorem parsecmd_fails {e : Stop} (h : parsecmd line = .error e) : Reported e := by
  rcases parsecmd_cases line with ⟨e', hline, he⟩ | ⟨c, s, -, ⟨-, he⟩ | ⟨-, hok⟩⟩
  · cases h.symm.trans he
    exact (parseline_parses line).fails e hline
  · cases h.symm.trans he
    exact ⟨_, rfl, nofun⟩
  · cases h.symm.trans hok

end lines

/-- The parser returns a tree for exactly the lines of the grammar, the tree of the derivation, and
its words and file names are then the texts of their tokens; every other line is reported. -/
theorem parsecmd_accepts_grammar (line : Ptr) (hline : 0 ∉ line) :
    (∀ c, (∃ b, parsecmd line = .ok (c, b)) ↔ Derives .line (tokens line) c) ∧
    (∀ c b, parsecmd line = .ok (c, b) → ∀ w ∈ c.words,
      .word w.1 w.2 ∈ tokens line ∧ IsString b (offset line w.1) (text w)) ∧
    ((¬ ∃ c, Derives .line (tokens line) c) → ∃ p, parsecmd line = .error (.panic p) ∧
      p ≠ .block) := by
  refine ⟨fun c => ?_, fun c b h => ?_, fun hnone => ?_⟩
  · simp only [parsecmd_eq_ok_iff, exists_and_left, exists_eq, and_true]
  · obtain ⟨hderives, rfl⟩ := parsecmd_eq_ok_iff.1 h
    have hwords := words_of_derives hderives
    intro w hw
    exact ⟨hwords w hw, nulterminate_strings hline
      (fun w' hw' => word_in_of_mem (hwords w' hw')) hw⟩
  · cases h : parsecmd line with
    | error e =>
      obtain ⟨p, rfl, hp⟩ := parsecmd_fails h
      exact ⟨p, rfl, hp⟩
    | ok r => exact absurd ⟨r.1, (parsecmd_eq_ok_iff.1 h).1⟩ hnone

/-- The line `a&` -/
def waitless : Ptr := [letter, amp]

theorem parsecmd_accepts_waitless : 0 ∉ waitless ∧
    ∃ b, parsecmd waitless = .ok (.back (.exec [(waitless, [amp])]), b) ∧
    IsString b 0 [letter] := by
  refine ⟨by decide, _, rfl, ?_⟩
  exact ((parsecmd_accepts_grammar waitless (by decide)).2.1 _ _ rfl (waitless, [amp])
    (by decide)).2

end Xv6.Sh
