import Xv6.Descent
import Xv6.ShParser

/-!
# The shell's grammar

The grammar that `user/sh.c` parses, on tokens and with the tree of a derivation:

    line  ::= pipe '&'* [';' line]
    pipe  ::= exec ['|' pipe]
    exec  ::= '(' line ')' redir* | redir* (word redir*)*
    redir ::= ('<' | '>' | '>>') word

with fewer than `MAXARGS` words for each `exec`. The parser accepts exactly the lines of this
grammar and returns their tree.
-/

namespace Xv6.Sh

open Descent List

structure Redirect where
  op : UInt8
  file : Ptr
  efile : Ptr
  isOp : op ∈ [less, greater, plus]

def Redirect.toks (r : Redirect) : List Tok := [.sym r.op, .word r.file r.efile]

/-- The tree with the redirections around it, later ones outside. -/
def wrap (c : Cmd) (rs : List Redirect) :
    Cmd := rs.foldl (fun c r => redircmd r.op c r.file r.efile) c

structure Arg where
  word : Ptr × Ptr
  redirs : List Redirect

def Arg.toks (a : Arg) : List Tok := .word a.word.1 a.word.2 :: a.redirs.flatMap Redirect.toks

inductive Phrase
  | line
  | pipe
  | exec

inductive Derives : Phrase → List Tok → Cmd → Prop
  | line {ts : List Tok} {c : Cmd} (h : Derives .pipe ts c) (n : ℕ) :
    Derives .line (ts ++ List.replicate n (.sym amp)) (Cmd.back^[n] c)
  | lines {ts us : List Tok} {c d : Cmd} (h : Derives .pipe ts c) (n : ℕ)
    (h' : Derives .line us d) : Derives .line (ts ++ List.replicate n (.sym amp) ++ .sym semi :: us)
    (.list (Cmd.back^[n] c) d)
  | pipe {ts : List Tok} {c : Cmd} (h : Derives .exec ts c) : Derives .pipe ts c
  | pipes {ts us : List Tok} {c d : Cmd} (h : Derives .exec ts c) (h' : Derives .pipe us d) :
    Derives .pipe (ts ++ .sym bar :: us) (.pipe c d)
  | block {ts : List Tok} {c : Cmd} (h : Derives .line ts c) (rs : List Redirect) :
    Derives .exec (.sym lpar :: ts ++ .sym rpar :: rs.flatMap Redirect.toks) (wrap c rs)
  | exec (rs : List Redirect) (args : List Arg) (hargs : args.length ≤ maxargs - 1) :
    Derives .exec (rs.flatMap Redirect.toks ++ args.flatMap Arg.toks)
      (wrap (.exec (args.map Arg.word)) (rs ++ args.flatMap Arg.redirs))

def Ends (cs : List UInt8) (ts : List Tok) :
    Prop := ts = [] ∨ ∃ c rest, ts = .sym c :: rest ∧ c ∈ cs

def NotNext (cs : List UInt8) (ts : List Tok) : Prop := ∀ c rest, ts = .sym c :: rest → c ∉ cs

def Reported (e : Stop) : Prop := ∃ p, e = .panic p ∧ p ≠ .block

section follow

variable {cs ds : List UInt8} {ts : List Tok} {c : UInt8}

theorem Ends.mono (h : Ends cs ts) (hsub : cs ⊆ ds) : Ends ds ts := by
  rcases h with rfl | ⟨c, rest, rfl, hc⟩
  · exact .inl rfl
  · exact .inr ⟨c, rest, rfl, hsub hc⟩

theorem Ends.cons (hc : c ∈ cs) : Ends cs (.sym c :: ts) := .inr ⟨c, ts, rfl, hc⟩

theorem Ends.notNext (h : Ends cs ts) (hdisj : cs.all (· ∉ ds)) : NotNext ds ts := by
  rintro c rest rfl
  rcases h with hnil | ⟨d, rest', heq, hd⟩
  · cases hnil
  · cases heq
    exact of_decide_eq_true (all_eq_true.1 hdisj c hd)

end follow

/-! ## The loops -/

section loops

variable {cmd : Cmd} {ps : Ptr} {rounds : ℕ}

theorem peek_true {c : UInt8} (hc : c ∈ [bar, lpar, rpar, semi, amp]) (h : (peek ps [c]).1 = true) :
    tokens ps = .sym c :: tokens (gettoken (peek ps [c]).2).ps := by
  obtain ⟨rest, htokens⟩ := (peek_one_iff hc).1 h
  rw [← tokens_peek ps [c]] at htokens
  rw [(gettoken_cons htokens).2.2, ← htokens, tokens_peek]

theorem peek_false {c : UInt8} (hc : c ∈ [bar, lpar, rpar, semi, amp])
    (h : ¬ (peek ps [c]).1 = true) : NotNext [c] (tokens ps) := by
  rintro d rest htokens hd
  rw [mem_singleton.1 hd] at htokens
  exact h ((peek_one_iff hc).2 ⟨rest, htokens⟩)

theorem parseback_parses (hrounds : (tokens ps).length < rounds) :
    Parses tokens Reported (parseback rounds cmd ps) (tokens ps)
      (fun us c => ∃ n, us = List.replicate n (.sym amp) ∧ c = Cmd.back^[n] cmd)
      (NotNext [amp]) := by
  induction rounds generalizing cmd ps with
  | zero => omega
  | succ rounds ih =>
    rw [parseback]
    split
    next hmore =>
      have htokens := peek_true (by decide) hmore
      have hlen := congrArg List.length htokens
      rw [length_cons] at hlen
      rw [htokens]
      refine ((ih (by omega)).cons (.sym amp)).of ?_ ?_
      · rintro us c ⟨us', rfl, n, rfl, rfl⟩
        exact ⟨n + 1, rfl, rfl⟩
      · rintro us vs c hts ⟨n, rfl, rfl⟩ hvs
        cases n with
        | zero => exact absurd mem_cons_self (hvs amp _ hts.symm)
        | succ n => exact ⟨⟨_, rfl, n, rfl, rfl⟩, hvs⟩
    next hend =>
      refine (Parses.ret (tokens_peek ps [amp])).of ?_ ?_
      · rintro us c ⟨rfl, rfl⟩
        exact ⟨0, rfl, rfl⟩
      · rintro us vs c hts ⟨n, rfl, rfl⟩ hvs
        cases n with
        | zero => exact ⟨⟨rfl, rfl⟩, trivial⟩
        | succ n => exact absurd mem_cons_self (peek_false (by decide) hend amp _ hts)

theorem first_mem_redirs {c : UInt8} : first c ∈ [less, greater] ↔ c ∈ [less, greater, plus] := by
  unfold first
  split
  next h => simp [h]
  next h => simp [h]

theorem parseredirs_parses (hrounds : (tokens ps).length < rounds) :
    Parses tokens Reported (parseredirs rounds cmd ps) (tokens ps)
      (fun us c => ∃ rs : List Redirect, us = rs.flatMap Redirect.toks ∧ c = wrap cmd rs)
      (NotNext [less, greater, plus]) := by
  induction rounds generalizing cmd ps with
  | zero => omega
  | succ rounds ih =>
    rw [parseredirs]
    dsimp only
    split
    next hmore =>
      obtain ⟨op, rest, htokens, hop⟩ := (peek_iff (by decide)).1 hmore
      rw [first_mem_redirs] at hop
      have hpeek := tokens_peek ps [less, greater]
      rw [htokens] at hpeek
      obtain ⟨-, htok, hrest⟩ := gettoken_cons hpeek
      have hret := (ret_of_sym htok).1
      generalize gettoken (peek ps [less, greater]).2 = t at htok hrest hret ⊢
      rw [htokens]
      split
      next hfile =>
        -- what follows is no word, so no redirection begins here
        refine .fail ⟨_, rfl, nofun⟩ ?_
        rintro us vs c hts ⟨rs, rfl, rfl⟩ hvs
        cases rs with
        | nil => exact hvs op rest hts.symm hop
        | cons r rs =>
          have hword : rest = .word r.file r.efile :: (rs.flatMap Redirect.toks ++ vs) :=
            (List.cons.inj hts).2
          exact gettoken_not_word hfile _ _ _ (hrest.trans hword)
      next hfile =>
        have hword := gettoken_word (not_not.1 hfile)
        rw [hrest] at hword
        have hlen := congrArg List.length htokens
        rw [hword] at hlen ⊢
        simp only [length_cons] at hlen
        refine (((ih (by omega)).cons _).cons (.sym op)).of ?_ ?_
        · rintro us c ⟨_, rfl, _, rfl, rs, rfl, rfl⟩
          exact ⟨⟨op, _, _, hop⟩ :: rs, rfl, by rw [hret]; rfl⟩
        · rintro us vs c hts ⟨rs, rfl, rfl⟩ hvs
          cases rs with
          | nil => exact absurd hop (hvs op _ hts.symm)
          | cons r rs =>
            obtain ⟨op', file, efile, hop'⟩ := r
            obtain ⟨hsym, hrest'⟩ := List.cons.inj hts
            obtain ⟨hfile', -⟩ := List.cons.inj hrest'
            cases hsym
            cases hfile'
            exact ⟨⟨_, rfl, _, rfl, rs, rfl, by rw [hret]; rfl⟩, hvs⟩
    next hend =>
      refine (Parses.ret (tokens_peek ps _)).of ?_ ?_
      · rintro us c ⟨rfl, rfl⟩
        exact ⟨[], rfl, rfl⟩
      · rintro us vs c hts ⟨rs, rfl, rfl⟩ hvs
        cases rs with
        | nil => exact ⟨⟨rfl, rfl⟩, trivial⟩
        | cons r rs =>
          refine absurd ((peek_iff (by decide)).2 ⟨r.op, _, hts, first_mem_redirs.2 r.isOp⟩) hend

theorem addArg_wrap (argv : List (Ptr × Ptr)) (rs : List Redirect) (q eq : Ptr) :
    (wrap (.exec argv) rs).addArg q eq = wrap (.exec (argv ++ [(q, eq)])) rs := by
  have hredir (op : UInt8) (c : Cmd) (file efile : Ptr) :
      (redircmd op c file efile).addArg q eq = redircmd op (c.addArg q eq) file efile := by
    unfold redircmd
    split_ifs <;> rfl
  have hfold (c : Cmd) : (wrap c rs).addArg q eq = wrap (c.addArg q eq) rs := by
    unfold wrap
    induction rs generalizing c with
    | nil => rfl
    | cons r rs ih => rw [foldl_cons, ih, hredir, foldl_cons]
  exact hfold (.exec argv)

def extend (c : Cmd) (args : List Arg) : Cmd :=
  args.foldl (fun c a => wrap (c.addArg a.word.1 a.word.2) a.redirs) c

theorem extend_wrap (argv : List (Ptr × Ptr)) (rs : List Redirect) (args : List Arg) :
    extend (wrap (.exec argv) rs) args =
    wrap (.exec (argv ++ args.map Arg.word)) (rs ++ args.flatMap Arg.redirs) := by
  induction args generalizing argv rs with
  | nil => simp [extend]
  | cons a args ih =>
    have hstep : wrap (wrap (.exec (argv ++ [a.word])) rs) a.redirs =
        wrap (.exec (argv ++ [a.word])) (rs ++ a.redirs) := foldl_append.symm
    have hrest := ih (argv ++ [a.word]) (rs ++ a.redirs)
    simp only [extend, foldl_cons, addArg_wrap, hstep] at hrest ⊢
    simpa using hrest

theorem first_mem_ends {c : UInt8} : first c ∈ [bar, rpar, amp, semi] ↔
    c ∈ [bar, rpar, amp, semi] := by
  unfold first
  split
  next h =>
    rw [h]
    decide
  next => rfl

/-- A word or a redirection goes on where the loop over words ends. -/
theorem args_notNext {args : List Arg} {ws : List Tok} (hws : Ends [bar, rpar, amp, semi] ws) :
    NotNext [less, greater, plus] (args.flatMap Arg.toks ++ ws) := by
  cases args with
  | nil => exact hws.notNext (by decide)
  | cons a args =>
    intro c rest h
    cases h

/-- The words and redirections that the loop over words takes, with the tree after them. -/
def MoreArgs (argc : ℕ) (cmd : Cmd) (us : List Tok) (c : Cmd) : Prop :=
  ∃ args : List Arg, us = args.flatMap Arg.toks ∧ argc + args.length < maxargs ∧ c = extend cmd args

section moreArgs

variable {argc : ℕ} {ts : List Tok}

theorem MoreArgs.eq_nil {us vs : List Tok} {c : Cmd} (h : MoreArgs argc cmd us c)
    (hts : ts = us ++ vs) (hword : ∀ q eq rest, ts ≠ .word q eq :: rest) : us = [] ∧ c = cmd := by
  obtain ⟨args, rfl, -, rfl⟩ := h
  cases args with
  | nil => exact ⟨rfl, rfl⟩
  | cons a args => exact absurd hts (hword _ _ _)

theorem moreArgs_stop (hargc : argc < maxargs) {s : Ptr} (hs : tokens s = ts)
    (hword : ∀ q eq rest, ts ≠ .word q eq :: rest) :
    Parses tokens Reported (.ok (cmd, s)) ts (MoreArgs argc cmd) (Ends [bar, rpar, amp, semi]) := by
  refine (Parses.ret hs).of ?_ fun us vs c hts h _ => ⟨h.eq_nil hts hword, trivial⟩
  rintro us c ⟨rfl, rfl⟩
  exact ⟨[], rfl, hargc, rfl⟩

theorem moreArgs_word {q eq s : Ptr} (hredirs : (tokens s).length < rounds)
    (hloop : ∀ c r, (tokens r).length ≤ (tokens s).length →
      Parses tokens Reported (parseargs rounds (argc + 1) c r) (tokens r) (MoreArgs (argc + 1) c)
        (Ends [bar, rpar, amp, semi])) :
    Parses tokens Reported
    ((parseredirs rounds (cmd.addArg q eq) s).bind fun r => parseargs rounds (argc + 1) r.1 r.2)
      (.word q eq :: tokens s) (MoreArgs argc cmd) (Ends [bar, rpar, amp, semi]) := by
  have hredirs := @parseredirs_parses (cmd.addArg q eq) s rounds hredirs
  refine ((hredirs.bind (fun c r hr => hloop c r (hredirs.length_le hr)) ?_).cons _).of ?_ ?_
  · rintro us c vs d - ⟨args, rfl, -, -⟩ ws hws
    exact args_notNext hws
  · rintro us c ⟨_, rfl, _, _, d, rfl, ⟨rs, rfl, rfl⟩, args, rfl, hlen, rfl⟩
    refine ⟨⟨(q, eq), rs⟩ :: args, rfl, ?_, rfl⟩
    rw [length_cons]
    omega
  · rintro us vs c hts ⟨args, rfl, hlen, rfl⟩ hvs
    cases args with
    | nil =>
      rcases hvs with rfl | ⟨d, rest, rfl, -⟩
      · cases hts
      · cases hts
    | cons a args =>
      obtain ⟨⟨q', eq'⟩, rs⟩ := a
      rw [length_cons] at hlen
      obtain ⟨hfirst, -⟩ := List.cons.inj hts
      cases hfirst
      exact ⟨⟨_, rfl, _, _, _, rfl, ⟨rs, rfl, rfl⟩, args, rfl, by omega, rfl⟩, hvs⟩

end moreArgs

theorem parseargs_parses {argc : ℕ} (hargc : argc < maxargs)
    (hrounds : (tokens ps).length < rounds) :
    Parses tokens Reported (parseargs rounds argc cmd ps) (tokens ps) (MoreArgs argc cmd)
      (Ends [bar, rpar, amp, semi]) := by
  induction rounds generalizing argc cmd ps with
  | zero => omega
  | succ rounds ih =>
    have hpeek := tokens_peek ps [bar, rpar, amp, semi]
    have hiff : (peek ps [bar, rpar, amp, semi]).1 = true ↔
        ∃ c rest, tokens ps = .sym c :: rest ∧ c ∈ [bar, rpar, amp, semi] := by
      rw [peek_iff (by decide)]
      simp only [first_mem_ends]
    rw [parseargs]
    dsimp only
    split
    next hmore =>
      obtain ⟨c, rest, htokens, -⟩ := hiff.1 hmore
      refine moreArgs_stop hargc hpeek ?_
      rw [htokens]
      nofun
    next hmore =>
      have hends : tokens ps ≠ [] → ¬ Ends [bar, rpar, amp, semi] (tokens ps) := fun hne hin =>
        hmore (hiff.2 (hin.resolve_left hne))
      generalize (peek ps [bar, rpar, amp, semi]).2 = s at hpeek
      rw [← hpeek] at hends hrounds ⊢
      split
      next hnone =>
        have hnil := tokens_eq_nil hnone
        refine moreArgs_stop hargc ((gettoken_nil hnil).2.trans hnil.symm) ?_
        rw [hnil]
        nofun
      next hsome =>
        have hne : tokens s ≠ [] := by
          rw [tokens_eq_cons hsome]
          exact cons_ne_nil _ _
        split
        next hbad =>
          refine .fail ⟨_, rfl, nofun⟩ fun us vs c hts h hvs => hends hne ?_
          obtain ⟨rfl, -⟩ := h.eq_nil hts (gettoken_not_word hbad)
          exact hts ▸ hvs
        next hword =>
          have htokens := gettoken_word (not_not.1 hword)
          generalize gettoken s = t at htokens
          rw [htokens] at hends hrounds ⊢
          rw [length_cons] at hrounds
          split
          next hmany =>
            refine .fail ⟨_, rfl, nofun⟩ ?_
            rintro us vs c hts ⟨args, rfl, hlen, rfl⟩ hvs
            cases args with
            | nil => exact hends (cons_ne_nil _ _) (hts ▸ hvs)
            | cons a args =>
              rw [length_cons] at hlen
              omega
          next hroom => exact moreArgs_word (by omega) fun c r hr => ih (by omega) (by omega)

end loops

/-! ## The recursive functions -/

section functions

variable {ps : Ptr} {rounds : ℕ}

theorem optional_parses {sep : UInt8} (hsep : sep ∈ [bar, lpar, rpar, semi, amp])
    {next : Ptr → Result} {mk : Cmd → Cmd} {b : Cmd} {D : List Tok → Cmd → Prop}
    {F : List Tok → Prop} (hF : ∀ vs, F vs → NotNext [sep] vs)
    (hnext : ∀ s, (tokens s).length < (tokens ps).length →
      Parses tokens Reported (next s) (tokens s) D F) :
    Parses tokens Reported
      (if (peek ps [sep]).1 then (next (gettoken (peek ps [sep]).2).ps).bind
        fun l => .ok (mk l.1, l.2)
        else .ok (b, (peek ps [sep]).2)) (tokens ps)
      (fun us c => (us = [] ∧ c = b) ∨ ∃ us' d, us = .sym sep :: us' ∧ D us' d ∧ c = mk d) F := by
  split
  next hmore =>
    have htokens := peek_true hsep hmore
    have hlen := congrArg List.length htokens
    rw [length_cons] at hlen
    have hrest := (hnext (gettoken (peek ps [sep]).2).ps (by omega)).map (f := mk)
    rw [htokens]
    refine (hrest.cons (.sym sep)).of ?_ ?_
    · rintro us c ⟨us', rfl, d, hd, rfl⟩
      exact .inr ⟨us', d, rfl, hd, rfl⟩
    · rintro us vs c hts (⟨rfl, rfl⟩ | ⟨us', d, rfl, hd, rfl⟩) hvs
      · exact absurd mem_cons_self (hF vs hvs sep _ hts.symm)
      · exact ⟨⟨us', rfl, d, hd, rfl⟩, hvs⟩
  next hend =>
    refine (Parses.ret (tokens_peek ps [sep])).of ?_ ?_
    · rintro us c ⟨rfl, rfl⟩
      exact .inl ⟨rfl, rfl⟩
    · rintro us vs c hts (⟨rfl, rfl⟩ | ⟨us', d, rfl, hd, rfl⟩) hvs
      · exact ⟨⟨rfl, rfl⟩, trivial⟩
      · exact absurd mem_cons_self (peek_false hsep hend sep _ hts)

def LineParses (rounds : ℕ) (ps : Ptr) : Prop :=
  Parses tokens Reported (parseline rounds ps) (tokens ps) (Derives .line) (Ends [rpar])

def PipeParses (rounds : ℕ) (ps : Ptr) : Prop :=
  Parses tokens Reported (parsepipe rounds ps) (tokens ps) (Derives .pipe) (Ends [rpar, amp, semi])

def ExecParses (rounds : ℕ) (ps : Ptr) : Prop :=
  Parses tokens Reported (parseexec rounds ps) (tokens ps) (Derives .exec)
    (Ends [bar, rpar, amp, semi])

theorem line_cases {ts : List Tok} {c : Cmd} : Derives .line ts c ↔
    ∃ us vs d, ts = us ++ vs ∧ Derives .pipe us d ∧ ∃ us' vs' e, vs = us' ++ vs' ∧
      (∃ n, us' = List.replicate n (.sym amp) ∧ e = Cmd.back^[n] d) ∧
      ((vs' = [] ∧ c = e) ∨ ∃ ws f, vs' = .sym semi :: ws ∧ Derives .line ws f ∧
        c = .list e f) := by
  constructor
  · intro h
    cases h with
    | @line us d h n =>
      exact ⟨us, _, d, rfl, h, _, [], _, (append_nil _).symm, ⟨n, rfl, rfl⟩, .inl ⟨rfl, rfl⟩⟩
    | @lines us ws d f h n h' =>
      exact ⟨us, _, d, append_assoc .., h, _, _, _, rfl, ⟨n, rfl, rfl⟩, .inr ⟨ws, f, rfl, h', rfl⟩⟩
  · rintro ⟨us, vs, d, rfl, h, us', vs', e, rfl, ⟨n, rfl, rfl⟩, ⟨rfl, rfl⟩ | ⟨ws, f, rfl, h', rfl⟩⟩
    · rw [append_nil]
      exact .line h n
    · rw [← append_assoc]
      exact .lines h n h'

theorem pipe_cases {ts : List Tok} {c : Cmd} :
    Derives .pipe ts c ↔ ∃ us vs d, ts = us ++ vs ∧ Derives .exec us d ∧
      ((vs = [] ∧ c = d) ∨ ∃ ws e, vs = .sym bar :: ws ∧ Derives .pipe ws e ∧ c = .pipe d e) := by
  constructor
  · intro h
    cases h with
    | @pipe _ _ h => exact ⟨ts, [], c, (append_nil _).symm, h, .inl ⟨rfl, rfl⟩⟩
    | @pipes us ws d e h h' => exact ⟨us, _, d, rfl, h, .inr ⟨ws, e, rfl, h', rfl⟩⟩
  · rintro ⟨us, vs, d, rfl, h, ⟨rfl, rfl⟩ | ⟨ws, e, rfl, h', rfl⟩⟩
    · rw [append_nil]
      exact .pipe h
    · exact .pipes h h'

theorem pipe_step (hexec : ∀ s, 4 * (tokens s).length + 2 ≤ rounds → ExecParses rounds s)
    (hpipe : ∀ s, 4 * (tokens s).length + 3 ≤ rounds → PipeParses rounds s)
    (hrounds : 4 * (tokens ps).length + 3 ≤ rounds + 1) : PipeParses (rounds + 1) ps := by
  have hfirst := hexec ps (by omega)
  unfold PipeParses
  rw [parsepipe]
  refine (hfirst.bind
    (fun d s hs => optional_parses (by decide) (fun vs hvs => hvs.notNext (by decide)) fun r hr =>
      hpipe r ?_) ?_).of (fun us c h => pipe_cases.2 h) fun us vs c _ h hvs => ⟨pipe_cases.1 h, hvs⟩
  · have hle := hfirst.length_le hs
    have hr' : (tokens r).length < (tokens s).length := hr
    omega
  · rintro us d vs c - (⟨rfl, -⟩ | ⟨ws, e, rfl, -⟩) xs hxs
    · exact hxs.mono (by decide)
    · exact .cons (by decide)

theorem line_step (hpipe : ∀ s, 4 * (tokens s).length + 3 ≤ rounds → PipeParses rounds s)
    (hline : ∀ s, 4 * (tokens s).length + 4 ≤ rounds → LineParses rounds s)
    (hrounds : 4 * (tokens ps).length + 4 ≤ rounds + 1) : LineParses (rounds + 1) ps := by
  have hfirst := hpipe ps (by omega)
  have hback (d : Cmd) (s : Ptr) (hs : parsepipe rounds ps = .ok (d, s)) :=
    have := hfirst.length_le hs
    @parseback_parses d s rounds (by omega)
  unfold LineParses
  rw [parseline]
  refine (hfirst.bind
    (fun d s hs => (hback d s hs).bind (fun e s' hs' => optional_parses (by decide)
      (fun vs hvs => hvs.notNext (by decide))
      fun r hr => hline r ?_) ?_) ?_).of (fun us c h => line_cases.2 h)
    fun us vs c _ h hvs => ⟨line_cases.1 h, hvs⟩
  · have hle := hfirst.length_le hs
    have hle' := (hback d s hs).length_le hs'
    have hr' : (tokens r).length < (tokens s').length := hr
    omega
  · rintro us e vs c - (⟨rfl, -⟩ | ⟨ws, f, rfl, -⟩) xs hxs
    · exact hxs.notNext (by decide)
    · have hsemi : Ends [semi] (.sym semi :: (ws ++ xs)) := .cons mem_cons_self
      exact hsemi.notNext (by decide)
  · rintro us d vs c - ⟨us', vs', e, rfl, ⟨n, rfl, -⟩, hrest⟩ xs hxs
    cases n with
    | succ n => exact .cons (by decide)
    | zero =>
      rcases hrest with ⟨rfl, -⟩ | ⟨ws, f, rfl, -⟩
      · exact hxs.mono (by decide)
      · exact .cons (by decide)

theorem exec_cases {ts : List Tok} {c : Cmd} : Derives .exec ts c ↔
    (∃ us, ts = .sym lpar :: us ∧ ∃ vs ws d, us = vs ++ ws ∧ Derives .line vs d ∧
      ∃ rs : List Redirect, ws = .sym rpar :: rs.flatMap Redirect.toks ∧ c = wrap d rs) ∨
    ∃ vs ws d, ts = vs ++ ws ∧
    (∃ rs : List Redirect, vs = rs.flatMap Redirect.toks ∧ d = wrap (.exec []) rs) ∧
      ∃ args : List Arg, ws = args.flatMap Arg.toks ∧ 0 + args.length < maxargs ∧
      c = extend d args := by
  constructor
  · intro h
    cases h with
    | @block us d h rs => exact .inl ⟨_, rfl, us, _, d, rfl, h, rs, rfl, rfl⟩
    | exec rs args hargs =>
      refine .inr ⟨_, _, _, rfl, ⟨rs, rfl, rfl⟩, args, rfl, ?_, (extend_wrap [] rs args).symm⟩
      unfold maxargs at hargs ⊢
      omega
  · rintro (⟨us, rfl, vs, ws, d, rfl, h, rs, rfl, rfl⟩ | ⟨vs, ws, d, rfl, ⟨rs, rfl, rfl⟩, args,
      rfl, hlen, rfl⟩)
    · exact .block h rs
    · rw [extend_wrap]
      exact .exec rs args (by omega)

theorem block_step (hline : ∀ s, 4 * (tokens s).length + 4 ≤ rounds → LineParses rounds s)
    (hopen : (peek ps [lpar]).1 = true) (hrounds : 4 * (tokens ps).length + 1 ≤ rounds + 1) :
    Parses tokens Reported (parseblock (rounds + 1) ps) (tokens ps)
      (fun us c => ∃ us', us = .sym lpar :: us' ∧ ∃ vs ws d, us' = vs ++ ws ∧ Derives .line vs d ∧
        ∃ rs : List Redirect, ws = .sym rpar :: rs.flatMap Redirect.toks ∧ c = wrap d rs)
      (NotNext [less, greater, plus]) := by
  have htokens := peek_true (by decide) hopen
  have hlen := congrArg List.length htokens
  rw [length_cons] at hlen
  have hfirst := hline (gettoken (peek ps [lpar]).2).ps (by omega)
  rw [parseblock, if_pos hopen, htokens]
  refine (hfirst.bind (fun d s hs => ?_) ?_).cons (.sym lpar)
  · dsimp only
    have hle := hfirst.length_le hs
    split
    next hclose =>
      have hrest := peek_true (by decide) hclose
      have hlen' := congrArg List.length hrest
      rw [length_cons] at hlen'
      rw [hrest]
      refine ((parseredirs_parses (by omega)).cons (.sym rpar)).of ?_ ?_
      · rintro us c ⟨_, rfl, rs, rfl, rfl⟩
        exact ⟨rs, rfl, rfl⟩
      · rintro us vs c - ⟨rs, rfl, rfl⟩ hvs
        exact ⟨⟨_, rfl, rs, rfl, rfl⟩, hvs⟩
    next hclose =>
      refine .fail ⟨_, rfl, nofun⟩ ?_
      rintro us vs c hts ⟨rs, rfl, rfl⟩ -
      exact peek_false (by decide) hclose rpar _ hts mem_cons_self
  · rintro us d vs c - ⟨rs, rfl, -⟩ xs -
    exact .cons mem_cons_self

theorem items_notNext {rs : List Redirect} {args : List Arg} {ws : List Tok}
    (hws : Ends [bar, rpar, amp, semi] ws) :
    NotNext [lpar] (rs.flatMap Redirect.toks ++ args.flatMap Arg.toks ++ ws) := by
  cases rs with
  | cons r rs =>
    intro c rest h hc
    cases h
    exact absurd (mem_singleton.1 hc ▸ r.isOp) (by decide)
  | nil =>
    cases args with
    | nil => exact hws.notNext (by decide)
    | cons a args =>
      intro c rest h
      cases h

theorem exec_step (hline : ∀ s, 4 * (tokens s).length + 4 ≤ rounds → LineParses rounds s)
    (hrounds : 4 * (tokens ps).length + 2 ≤ rounds + 2) : ExecParses (rounds + 2) ps := by
  have hpeek := tokens_peek ps [lpar]
  unfold ExecParses
  rw [parseexec]
  split
  next hopen =>
    have hopen' : (peek (peek ps [lpar]).2 [lpar]).1 = true := by
      rw [peek_one_iff (by decide), hpeek]
      exact (peek_one_iff (by decide)).1 hopen
    have hblock := block_step hline hopen' (by rw [hpeek]; omega)
    rw [hpeek] at hblock
    refine hblock.of (fun us c h => exec_cases.2 (.inl h)) fun us vs c hts h hvs => ?_
    rcases exec_cases.1 h with hin | ⟨_, _, _, rfl, ⟨rs, rfl, rfl⟩, args, rfl, -, rfl⟩
    · exact ⟨hin, hvs.notNext (by decide)⟩
    · obtain ⟨rest, htokens⟩ := (peek_one_iff (by decide)).1 hopen
      exact absurd mem_cons_self (items_notNext hvs lpar rest (hts.symm.trans htokens))
  next hopen =>
    have hredirs :=
      @parseredirs_parses (.exec []) (peek ps [lpar]).2 (rounds + 1) (by rw [hpeek]; omega)
    rw [hpeek] at hredirs
    have hargs (d : Cmd) (s : Ptr)
        (hs : parseredirs (rounds + 1) (.exec []) (peek ps [lpar]).2 = .ok (d, s)) :=
      have := hredirs.length_le hs
      @parseargs_parses d s (rounds + 1) 0 (by decide) (by omega)
    refine (hredirs.bind hargs ?_).of (fun us c h => exec_cases.2 (.inr h))
      fun us vs c hts h hvs => ?_
    · rintro us d vs c - ⟨args, rfl, -, -⟩ ws hws
      exact args_notNext hws
    · rcases exec_cases.1 h with ⟨us', rfl, -⟩ | hin
      · exact absurd mem_cons_self (peek_false (by decide) hopen lpar _ hts)
      · exact ⟨hin, hvs⟩

theorem functions_parse (rounds : ℕ) (ps : Ptr) :
    (4 * (tokens ps).length + 4 ≤ rounds → LineParses rounds ps) ∧
    (4 * (tokens ps).length + 3 ≤ rounds → PipeParses rounds ps) ∧
    (4 * (tokens ps).length + 2 ≤ rounds → ExecParses rounds ps) := by
  induction rounds using Nat.strong_induction_on generalizing ps with
  | h rounds ih =>
    refine ⟨fun h => ?_, fun h => ?_, fun h => ?_⟩
    · obtain ⟨n, rfl⟩ : ∃ n, rounds = n + 1 := ⟨rounds - 1, by omega⟩
      exact line_step (fun s => (ih n (by omega) s).2.1) (fun s => (ih n (by omega) s).1) h
    · obtain ⟨n, rfl⟩ : ∃ n, rounds = n + 1 := ⟨rounds - 1, by omega⟩
      exact pipe_step (fun s => (ih n (by omega) s).2.2) (fun s => (ih n (by omega) s).2.1) h
    · obtain ⟨n, rfl⟩ : ∃ n, rounds = n + 2 := ⟨rounds - 2, by omega⟩
      exact exec_step (fun s => (ih n (by omega) s).1) h

end functions

end Xv6.Sh
