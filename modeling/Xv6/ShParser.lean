import Xv6.ShTokens

/-!
# The shell's parser

`parsecmd` and the functions below it of `user/sh.c`, with `nulterminate`. A command is the tree
that the `malloc`ed records form, with the pointers into the line that they hold. The recursive
functions and loops have a number of rounds that bounds the depth of their calls, which is shown to
suffice; the C stack is taken to be large enough.

In `parseexec` the variable `cmd` points to the record for the words while `ret` may already be a
redirection around it: `addArg` stores to that record.
-/

namespace Xv6.Sh

def maxargs : ℕ := 10

def oRdonly : ℕ := 0x000

def oWronly : ℕ := 0x001

def oCreate : ℕ := 0x200

def oTrunc : ℕ := 0x400

/-- The `argv` and `eargv` of an `execcmd` go together. -/
inductive Cmd
  | exec (argv : List (Ptr × Ptr))
  | redir (cmd : Cmd) (file efile : Ptr) (mode fd : ℕ)
  | pipe (left right : Cmd)
  | list (left right : Cmd)
  | back (cmd : Cmd)

inductive Panic
  | leftovers (s : Ptr)
  | unexpected
  | missingFile
  | block
  | missingParen
  | tooManyArgs

inductive Stop
  | panic (p : Panic)
  | outOfRounds

abbrev Result := Except Stop (Cmd × Ptr)

def Cmd.addArg (q eq : Ptr) : Cmd → Cmd
  | .exec argv => .exec (argv ++ [(q, eq)])
  | .redir cmd file efile mode fd => .redir (cmd.addArg q eq) file efile mode fd
  | cmd => cmd

/-- The `switch` of `parseredirs`. -/
def redircmd (tok : UInt8) (cmd : Cmd) (q eq : Ptr) : Cmd :=
  if tok = less then .redir cmd q eq oRdonly 0
  else if tok = greater then .redir cmd q eq (oWronly ||| oCreate ||| oTrunc) 1
  else if tok = plus then .redir cmd q eq (oWronly ||| oCreate) 1
  else cmd

def parseredirs : ℕ → Cmd → Ptr → Result
  | 0, _, _ => .error .outOfRounds
  | rounds + 1, cmd, ps =>
    let p := peek ps [less, greater]
    if p.1 then
      let op := gettoken p.2
      let file := gettoken op.ps
      if file.ret ≠ letter then .error (.panic .missingFile)
      else parseredirs rounds (redircmd op.ret cmd file.q file.eq) file.ps
    else .ok (cmd, p.2)

/-- The loop of `parseexec`. -/
def parseargs : ℕ → ℕ → Cmd → Ptr → Result
  | 0, _, _, _ => .error .outOfRounds
  | rounds + 1, argc, ret, ps =>
    let p := peek ps [bar, rpar, amp, semi]
    if p.1 then .ok (ret, p.2)
    else
      let t := gettoken p.2
      if t.ret = 0 then .ok (ret, t.ps)
      else if t.ret ≠ letter then .error (.panic .unexpected)
      else
        let ret := ret.addArg t.q t.eq
        if maxargs ≤ argc + 1 then .error (.panic .tooManyArgs)
        else (parseredirs rounds ret t.ps).bind fun r => parseargs rounds (argc + 1) r.1 r.2

/-- The loop of `parseline`. -/
def parseback : ℕ → Cmd → Ptr → Result
  | 0, _, _ => .error .outOfRounds
  | rounds + 1, cmd, ps =>
    let p := peek ps [amp]
    if p.1 then parseback rounds (.back cmd) (gettoken p.2).ps else .ok (cmd, p.2)

mutual

def parseline : ℕ → Ptr → Result
  | 0, _ => .error .outOfRounds
  | rounds + 1, ps =>
    (parsepipe rounds ps).bind fun r =>
      (parseback rounds r.1 r.2).bind fun r =>
        let p := peek r.2 [semi]
        if p.1 then (parseline rounds (gettoken p.2).ps).bind fun l => .ok (.list r.1 l.1, l.2)
        else .ok (r.1, p.2)

def parsepipe : ℕ → Ptr → Result
  | 0, _ => .error .outOfRounds
  | rounds + 1, ps =>
    (parseexec rounds ps).bind fun r =>
      let p := peek r.2 [bar]
      if p.1 then (parsepipe rounds (gettoken p.2).ps).bind fun l => .ok (.pipe r.1 l.1, l.2)
      else .ok (r.1, p.2)

def parseblock : ℕ → Ptr → Result
  | 0, _ => .error .outOfRounds
  | rounds + 1, ps =>
    let p := peek ps [lpar]
    if p.1 then
      (parseline rounds (gettoken p.2).ps).bind fun r =>
        let p := peek r.2 [rpar]
        if p.1 then parseredirs rounds r.1 (gettoken p.2).ps else .error (.panic .missingParen)
    else .error (.panic .block)

def parseexec : ℕ → Ptr → Result
  | 0, _ => .error .outOfRounds
  | rounds + 1, ps =>
    let p := peek ps [lpar]
    if p.1 then parseblock rounds p.2
    else (parseredirs rounds (.exec []) p.2).bind fun r => parseargs rounds 0 r.1 r.2

end

/-- The bytes of the line, by their distance from its start; the NUL follows. -/
abbrev Buffer := ℕ → UInt8

def buffer (line : Ptr) : Buffer := fun i => line.getD i 0

def offset (line p : Ptr) : ℕ := line.length - p.length

def terminate (line p : Ptr) (b : Buffer) : Buffer := Function.update b (offset line p) 0

def nulterminate (line : Ptr) : Cmd → Buffer → Buffer
  | .exec argv, b => argv.foldl (fun b arg => terminate line arg.2 b) b
  | .redir cmd _ efile _ _, b => terminate line efile (nulterminate line cmd b)
  | .pipe left right, b => nulterminate line right (nulterminate line left b)
  | .list left right, b => nulterminate line right (nulterminate line left b)
  | .back cmd, b => nulterminate line cmd b

def parsecmd (line : Ptr) : Except Stop (Cmd × Buffer) :=
  (parseline (4 * line.length + 4) line).bind fun r =>
    let p := peek r.2 []
    if p.2 ≠ [] then .error (.panic (.leftovers p.2))
    else .ok (r.1, nulterminate line r.1 (buffer line))

end Xv6.Sh
