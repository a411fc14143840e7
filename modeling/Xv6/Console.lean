import Xv6.RingBuffer
import Xv6.Transition

/-!
# The console's input buffer

`consoleintr` and `consoleread` of `kernel/console.c`. `Sys` is the code's state: the ring `cons`
with its three indices and the calls of `consoleread` that are under way. A call takes one turn of
its loop at a time, with any interrupts and turns of other calls in between; `cons.lock` allows
fewer interleavings. A turn that would sleep is not a step. The copies to the reader succeed.

`Terminal` says what the buffer is for: a queue of characters that can be read and a line that is
being edited. The code refines it.
-/

namespace Xv6.Console

open Transition RingBuffer List Function

def inputBufSize : ℕ := 128

def C (x : Char) : UInt8 := x.toUInt8 - '@'.toUInt8

def newline : UInt8 := 10

/-! ## The code -/

structure Cons where
  buf : ℕ → UInt8
  r : BitVec 32
  w : BitVec 32
  e : BitVec 32
  /-- What has been echoed. -/
  uart : List UInt8

namespace Cons

variable (s : Cons)

def consputc (c : UInt8) : Cons := { s with uart := s.uart ++ [c] }

def consputcBackspace : Cons := { s with uart := s.uart ++ [8, 32, 8] }

def erase : Cons := { s with e := s.e - 1 }.consputcBackspace

/-- The loop of control-u, which ends when `e` has come back to `w`. -/
def killLine : ℕ → Cons → Cons
  | 0, s => s
  | left + 1, s =>
    if s.e ≠ s.w ∧ s.buf ((s.e - 1).toNat % inputBufSize) ≠
      newline then killLine left s.erase else s

/-- The character is stored, and a whole line is handed to the readers. -/
def store (c : UInt8) : Cons :=
  let s := s.consputc c
  let s := { s with buf := update s.buf (s.e.toNat % inputBufSize) c, e := s.e + 1 }
  if c = newline ∨ c = C 'D' ∨ (s.e - s.r).toNat = inputBufSize then { s with w := s.e } else s

def consoleintr (c : UInt8) : Cons :=
  if c = C 'P' then s
  else if c = C 'U' then killLine (s.e - s.w).toNat s
  else if c = C 'H' ∨ c = 127 then if s.e ≠ s.w then s.erase else s
  else if c ≠ 0 ∧ (s.e - s.r).toNat < inputBufSize then s.store (if c = 13 then newline else c)
  else s

end Cons

structure Call where
  target : BitVec 32
  n : BitVec 32
  got : List UInt8

def Call.result (k : Call) : ℤ := (k.target - k.n).toInt

structure Sys where
  cons : Cons
  /-- The call that a process is in. -/
  call : ℕ → Option Call
  /-- What the calls of a process have returned and copied. -/
  results : ℕ → List (ℤ × List UInt8)

namespace Sys

variable (s : Sys) (p : ℕ)

def finish (k : Call) (v : ℤ) : Sys :=
  { s with
    call := update s.call p none
    results := update s.results p (s.results p ++ [(v, k.got)]) }

def turn (k : Call) (killed : Bool) : Option Sys :=
  if 0 < k.n.toInt then
    if s.cons.r = s.cons.w then
      if killed then some (s.finish p k (-1)) else none
    else
      let c := s.cons.buf (s.cons.r.toNat % inputBufSize)
      let cons := { s.cons with r := s.cons.r + 1 }
      if c = C 'D' then
        -- the comparison is one of unsigned numbers
        let cons := if k.n.toNat < k.target.toNat then { cons with r := cons.r - 1 } else cons
        some ({ s with cons := cons }.finish p k k.result)
      else
        let k := { k with n := k.n - 1, got := k.got ++ [c] }
        if c = newline then some ({ s with cons := cons }.finish p k k.result)
        else some { s with cons := cons, call := update s.call p (some k) }
  else some (s.finish p k k.result)

end Sys

inductive Act
  | intr (c : UInt8)
  | read (p : ℕ) (n : BitVec 32)
  | turn (p : ℕ) (killed : Bool)

def step (s : Sys) : Act → Option Sys
  | .intr c => some { s with cons := s.cons.consoleintr c }
  | .read p n =>
    match s.call p with
    | none => some { s with call := update s.call p (some ⟨n, n, []⟩) }
    | some _ => none
  | .turn p killed => (s.call p).bind fun k => s.turn p k killed

def init (buf : ℕ → UInt8) : Sys := ⟨⟨buf, 0, 0, 0, []⟩, fun _ => none, fun _ => []⟩

/-! ## What it is for -/

/-- The characters that can be read and the line that is being edited. -/
structure Line where
  queue : List UInt8
  edit : List UInt8
  fits : queue.length + edit.length ≤ inputBufSize

namespace Line

variable (l : Line)

def eraseLast : Line :=
  ⟨l.queue, l.edit.dropLast, by have := l.fits; rw [length_dropLast]; omega⟩

def clear : Line := ⟨l.queue, [], by have := l.fits; rw [length_nil]; omega⟩

def append (c : UInt8) (h : l.queue.length + l.edit.length < inputBufSize) : Line :=
  ⟨l.queue, l.edit ++ [c], by rw [length_append, length_singleton]; omega⟩

def commit : Line :=
  ⟨l.queue ++ l.edit, [], by have := l.fits; rw [length_append, length_nil]; omega⟩

def pop : Line := ⟨l.queue.tail, l.edit, by have := l.fits; rw [length_tail]; omega⟩

def type (c : UInt8) : Line :=
  if h : l.queue.length + l.edit.length < inputBufSize then
    let l' := l.append c h
    if c = newline ∨ c = C 'D' ∨
      l'.queue.length + l'.edit.length = inputBufSize then l'.commit else l'
  else l

def input (c : UInt8) : Line :=
  if c = C 'P' ∨ c = 0 then l
  else if c = C 'H' ∨ c = 127 then l.eraseLast
  else if c = C 'U' then l.clear
  else l.type (if c = 13 then newline else c)

end Line

structure Request where
  left : ℤ
  got : List UInt8

structure Terminal where
  line : Line
  call : ℕ → Option Request
  results : ℕ → List (ℤ × List UInt8)
  /-- All characters that have been moved to the queue. -/
  moved : List UInt8
  /-- All characters that have been removed from it, with the process that did. -/
  taken : List (ℕ × UInt8)

namespace Terminal

variable (a : Terminal) (p : ℕ)

def finish (k : Request) (v : ℤ) : Terminal :=
  { a with
    call := update a.call p none
    results := update a.results p (a.results p ++ [(v, k.got)]) }

def take (c : UInt8) : Terminal := { a with line := a.line.pop, taken := a.taken ++ [(p, c)] }

def turn (k : Request) (killed : Bool) : Option Terminal :=
  if 0 < k.left then
    match a.line.queue with
    | [] => if killed then some (a.finish p k (-1)) else none
    | c :: _ =>
      if c = C 'D' then
        if k.got = [] then some ((a.take p c).finish p k 0) else some (a.finish p k k.got.length)
      else
        let k := ⟨k.left - 1, k.got ++ [c]⟩
        if c = newline then some ((a.take p c).finish p k k.got.length)
        else some { a.take p c with call := update a.call p (some k) }
  else some (a.finish p k k.got.length)

def step : Act → Option Terminal
  | .intr c => some { a with
      line := a.line.input c
      moved := a.moved ++ (a.line.input c).queue.drop a.line.queue.length }
  | .read p n =>
    match a.call p with
    | none => some { a with call := update a.call p (some ⟨n.toInt, []⟩) }
    | some _ => none
  | .turn p killed => (a.call p).bind fun k => a.turn p k killed

def init : Terminal := ⟨⟨[], [], Nat.zero_le _⟩, fun _ => none, fun _ => [], [], []⟩

end Terminal

/-! ## The ring holds the queue and the line -/

/-- The queue lies between `r` and `w` and the line between `w` and `e`. A line that is being edited
has no newline yet. -/
structure Holds (s : Cons) (l : Line) : Prop where
  all : Contents inputBufSize s.buf s.r s.e (l.queue ++ l.edit)
  mark : s.w = s.r + BitVec.ofNat 32 l.queue.length
  plain : newline ∉ l.edit

namespace Holds

variable {s : Cons} {l : Line}

theorem distance (h : Holds s l) : (s.e - s.r).toNat = l.queue.length + l.edit.length := by
  rw [h.all.toNat_sub (by decide), length_append]

theorem editing (h : Holds s l) : (s.e - s.w).toNat = l.edit.length := by
  have hfits := l.fits
  unfold inputBufSize at hfits
  have hsub : s.e - s.w = BitVec.ofNat 32 l.edit.length := by
    rw [h.all.count, h.mark, length_append, BitVec.ofNat_add, ← BitVec.add_assoc, BitVec.add_comm]
    exact BitVec.add_sub_cancel _ _
  rw [hsub, BitVec.toNat_ofNat, Nat.mod_eq_of_lt (by omega)]

theorem eq_iff (h : Holds s l) : s.e = s.w ↔ l.edit = [] := by
  rw [← length_eq_zero_iff, ← h.editing]
  constructor
  · intro heq
    rw [heq, BitVec.sub_self]
    rfl
  · intro hzero
    bv_omega

theorem queue (h : Holds s l) : Contents inputBufSize s.buf s.r s.w l.queue := h.mark ▸ h.all.left

theorem last (h : Holds s l) {front : List UInt8} {c : UInt8} (hedit : l.edit = front ++ [c]) :
    s.buf ((s.e - 1).toNat % inputBufSize) = c ∧ Holds s.erase l.eraseLast := by
  have hall := h.all
  rw [hedit, ← append_assoc] at hall
  obtain ⟨hc, hback⟩ := hall.unpush (by decide)
  refine ⟨hc, ?_, h.mark, ?_⟩
  · have hfront : l.eraseLast.edit = front := (congrArg List.dropLast hedit).trans dropLast_concat
    rw [hfront]
    exact hback
  · exact fun hmem => h.plain (mem_of_mem_dropLast hmem)

theorem erase (h : Holds s l) (hne : l.edit ≠ []) : Holds s.erase l.eraseLast := by
  obtain ⟨front, c, hedit⟩ := eq_nil_or_concat' l.edit |>.resolve_left hne
  exact (h.last hedit).2

/-- Control-u never stops at a newline. -/
theorem killLine (h : Holds s l) {left : ℕ} (hleft : left = l.edit.length) :
    Holds (Cons.killLine left s) l.clear := by
  induction left generalizing s l with
  | zero =>
    have hnil : l.edit = [] := eq_nil_of_length_eq_zero hleft.symm
    have hclear : l.clear = l := by
      cases l
      simp_all [Line.clear]
    rw [hclear]
    exact h
  | succ left ih =>
    have hne : l.edit ≠ [] := by
      rintro hnil
      rw [hnil] at hleft
      cases hleft
    obtain ⟨front, c, hedit⟩ := eq_nil_or_concat' l.edit |>.resolve_left hne
    obtain ⟨hc, herase⟩ := h.last hedit
    have hplain : c ≠ newline := by
      rintro rfl
      exact h.plain (by rw [hedit]; exact mem_append_right _ mem_cons_self)
    rw [Cons.killLine, if_pos ⟨fun heq => hne (h.eq_iff.1 heq), by rwa [hc]⟩]
    have hrest : left = l.eraseLast.edit.length := by
      rw [Line.eraseLast, length_dropLast, ← hleft, Nat.add_sub_cancel]
    exact @ih s.erase l.eraseLast herase hrest

theorem store (h : Holds s l) (hroom : l.queue.length + l.edit.length < inputBufSize) (c : UInt8) :
    Holds (s.store c) (l.type c) := by
  have hfull : s.e ≠ s.r + BitVec.ofNat 32 inputBufSize := fun heq => by
    have hlen := (h.all.full_iff (by decide)).1 heq
    rw [length_append] at hlen
    omega
  have hpush := h.all.push (by decide) (by decide) hfull c
  rw [append_assoc] at hpush
  have hdist : (s.e + 1 - s.r).toNat = l.queue.length + (l.edit ++ [c]).length := by
    rw [hpush.toNat_sub (by decide), length_append]
  rw [Line.type, dif_pos hroom]
  dsimp only [Line.append, Cons.store, Cons.consputc]
  simp only [hdist]
  split
  next =>
    refine ⟨?_, ?_, not_mem_nil⟩
    · simpa [Line.commit] using hpush
    · simpa [Line.commit] using hpush.count
  next hopen =>
    refine ⟨hpush, h.mark, fun hmem => ?_⟩
    rcases mem_append.1 hmem with hold | hnew
    · exact h.plain hold
    · exact hopen (.inl (mem_singleton.1 hnew).symm)

theorem consoleintr (h : Holds s l) (c : UInt8) : Holds (s.consoleintr c) (l.input c) := by
  unfold Cons.consoleintr Line.input
  by_cases hp : c = C 'P'
  · rw [if_pos hp, if_pos (.inl hp)]
    exact h
  by_cases hzero : c = 0
  · subst hzero
    exact h
  by_cases hu : c = C 'U'
  · have hh : ¬ (c = C 'H' ∨ c = 127) := by
      rw [hu]
      decide
    simp only [hp, hzero, hh, or_self, if_false, if_pos hu]
    exact h.killLine h.editing
  by_cases hh : c = C 'H' ∨ c = 127
  · simp only [hp, hzero, hu, or_self, if_false, if_pos hh]
    by_cases hne : l.edit = []
    · have hsame : l.eraseLast = l := by
        cases l
        simp_all [Line.eraseLast]
      rw [if_neg (not_not.2 (h.eq_iff.2 hne)), hsame]
      exact h
    · rw [if_pos fun heq => hne (h.eq_iff.1 heq)]
      exact h.erase hne
  simp only [hp, hzero, hu, hh, or_self, if_false, ne_eq, not_false_eq_true, true_and, h.distance]
  by_cases hroom : l.queue.length + l.edit.length < inputBufSize
  · rw [if_pos hroom]
    exact h.store hroom _
  · rw [if_neg hroom, Line.type, dif_neg hroom]
    exact h

theorem pop (h : Holds s l) (hne : s.r ≠ s.w) :
    ∃ rest, l.queue = s.buf (s.r.toNat % inputBufSize) :: rest ∧
    Holds { s with r := s.r + 1 } l.pop := by
  obtain ⟨rest, hqueue, hw⟩ := h.queue.pop (by decide) (by decide) hne
  have hall := h.all
  rw [hqueue, cons_append] at hall
  have hdrop := hall.drop (by decide) (show 1 ≤ _ from Nat.le_add_left 1 _)
  refine ⟨rest, hqueue, ?_, ?_, h.plain⟩
  · rw [show l.pop.queue = rest from congrArg List.tail hqueue]
    exact hdrop
  · rw [show l.pop.queue = rest from congrArg List.tail hqueue]
    exact hw.count

end Holds

/-! ## The calls -/

structure Serves (k : Call) (q : Request) : Prop where
  left : k.n.toInt = q.left
  got : k.got = q.got
  target : k.target = k.n + BitVec.ofNat 32 q.got.length
  bound : q.left + q.got.length < 2 ^ 31
  started : q.got ≠ [] → 0 ≤ q.left

namespace Serves

variable {k : Call} {q : Request}

theorem start (n : BitVec 32) : Serves ⟨n, n, []⟩ ⟨n.toInt, []⟩ where
  left := rfl
  got := rfl
  target := by simp
  bound := by
    have := BitVec.toInt_lt (x := n)
    simpa using this
  started := fun hne => absurd rfl hne

theorem length_lt (h : Serves k q) : q.got.length < 2 ^ 31 := by
  by_cases hne : q.got = []
  · rw [hne]
    decide
  · have hbound := h.bound
    have hpos := h.started hne
    omega

theorem result (h : Serves k q) : k.result = q.got.length := by
  have hlt := h.length_lt
  have hnat : (BitVec.ofNat 32 q.got.length).toNat = q.got.length := Nat.mod_eq_of_lt (by omega)
  rw [Call.result, h.target, BitVec.add_comm, BitVec.add_sub_cancel,
    BitVec.toInt_eq_toNat_of_lt (by omega), hnat]

theorem started_iff (h : Serves k q) (hpos : 0 < q.left) :
    k.n.toNat < k.target.toNat ↔ q.got ≠ [] := by
  have hbound := h.bound
  have hlen := h.length_lt
  have hn : (k.n.toNat : ℤ) = q.left := by
    rw [← h.left]
    have hlt := k.n.isLt
    rw [← h.left, BitVec.toInt_eq_toNat_cond] at hpos
    rw [BitVec.toInt_eq_toNat_cond]
    split at hpos <;> omega
  rw [h.target, BitVec.toNat_add, BitVec.toNat_ofNat, ne_eq, ← length_eq_zero_iff]
  omega

theorem deliver (h : Serves k q) (hpos : 0 < q.left) (c : UInt8) :
    Serves { k with n := k.n - 1, got := k.got ++ [c] } ⟨q.left - 1, q.got ++ [c]⟩ where
  left := by
    have hleft := h.left
    have hbound := BitVec.toInt_lt (x := k.n)
    change (k.n - 1).toInt = q.left - 1
    rw [BitVec.toInt_sub, hleft]
    exact Int.bmod_eq_of_le (by simp; omega) (by simp; omega)
  got := by rw [h.got]
  target := by
    change k.target = k.n - 1 + BitVec.ofNat 32 (q.got ++ [c]).length
    rw [h.target, length_append, length_singleton, BitVec.ofNat_add,
      BitVec.add_comm _ (BitVec.ofNat 32 1), ← BitVec.add_assoc]
    congr 1
    exact (BitVec.sub_add_cancel _ _).symm
  bound := by
    have hbound := h.bound
    simp only [length_append, length_singleton, Nat.cast_add, Nat.cast_one]
    omega
  started := fun _ => by
    simp only
    omega

end Serves

structure Shows (s : Sys) (a : Terminal) : Prop where
  ring : Holds s.cons a.line
  call : ∀ p, Option.Rel Serves (s.call p) (a.call p)
  results : s.results = a.results

namespace Shows

variable {s : Sys} {a : Terminal} {k : Call} {q : Request} {p : ℕ}

theorem setCall (h : Shows s a) {o : Option Call} {o' : Option Request}
    (ho : Option.Rel Serves o o') :
    Shows { s with call := update s.call p o } { a with call := update a.call p o' } where
  ring := h.ring
  call r := by
    by_cases hr : r = p
    · subst hr
      simpa using ho
    · simpa [hr] using h.call r
  results := h.results

theorem finish (h : Shows s a) (hgot : k.got = q.got) (v : ℤ) :
    Shows (s.finish p k v) (a.finish p q v) where
  ring := h.ring
  call := (h.setCall .none).call
  results := by rw [Sys.finish, Terminal.finish, h.results, hgot]

theorem take (h : Shows s a) {cons : Cons} (hring : Holds cons a.line.pop) (c : UInt8) :
    Shows { s with cons := cons } (a.take p c) :=
  ⟨hring, h.call, h.results⟩

theorem turn (h : Shows s a) (hk : Serves k q) (killed : Bool) :
    Option.Rel Shows (s.turn p k killed) (a.turn p q killed) := by
  unfold Sys.turn Terminal.turn
  by_cases hpos : 0 < q.left
  swap
  · rw [hk.left, if_neg hpos, if_neg hpos, hk.result]
    exact .some (h.finish hk.got _)
  rw [hk.left, if_pos hpos, if_pos hpos]
  by_cases hempty : s.cons.r = s.cons.w
  · rw [if_pos hempty, (h.ring.queue.eq_iff (by decide)).1 hempty]
    cases killed with
    | true => exact .some (h.finish hk.got _)
    | false => exact .none
  rw [if_neg hempty]
  obtain ⟨rest, hqueue, hpop⟩ := h.ring.pop hempty
  rw [hqueue]
  generalize s.cons.buf (s.cons.r.toNat % inputBufSize) = c
  dsimp only
  have htake : Shows { s with cons := { s.cons with r := s.cons.r + 1 } } (a.take p c) :=
    h.take hpop c
  have hdeliver := hk.deliver hpos c
  by_cases heof : c = C 'D'
  · rw [if_pos heof, if_pos heof]
    by_cases hfirst : q.got = []
    · rw [if_neg fun hlt => (hk.started_iff hpos).1 hlt hfirst, if_pos hfirst, hk.result, hfirst]
      exact .some (htake.finish hk.got _)
    · rw [if_pos ((hk.started_iff hpos).2 hfirst), if_neg hfirst, hk.result, BitVec.add_sub_cancel]
      exact .some (h.finish hk.got _)
  · rw [if_neg heof, if_neg heof]
    by_cases hline : c = newline
    · rw [if_pos hline, if_pos hline, hdeliver.result]
      exact .some (htake.finish hdeliver.got _)
    · rw [if_neg hline, if_neg hline]
      exact .some (htake.setCall (.some hdeliver))

theorem step (h : Shows s a) (x : Act) : Option.Rel Shows (Console.step s x) (a.step x) := by
  cases x with
  | intr c => exact .some ⟨h.ring.consoleintr c, h.call, h.results⟩
  | read p n =>
    simp only [Console.step, Terminal.step]
    generalize hs : s.call p = o, ha : a.call p = o', h.call p = hcall
    cases hcall with
    | none => exact .some (h.setCall (.some (.start n)))
    | some _ => exact .none
  | turn p killed =>
    simp only [Console.step, Terminal.step]
    generalize s.call p = o, a.call p = o', h.call p = hcall
    cases hcall with
    | none => exact .none
    | some hk => exact h.turn hk killed

end Shows

/-! ## What becomes of the characters -/

namespace Terminal

variable {a b : Terminal}

def given (a : Terminal) (p : ℕ) : List UInt8 :=
  (a.results p).flatMap Prod.snd ++ (a.call p).elim [] Request.got

def takenBy (a : Terminal) (p : ℕ) : List UInt8 :=
  (a.taken.filter fun x => x.1 = p ∧ x.2 ≠ C 'D').map Prod.snd

/-- Every character moved to the queue is still there or has been taken, in order, and every one
taken has been given to the process that took it, unless it was a control-d. -/
structure Inv (a : Terminal) : Prop where
  moved : a.moved = a.taken.map Prod.snd ++ a.line.queue
  given : ∀ p, a.given p = a.takenBy p

theorem init_inv : init.Inv := ⟨rfl, fun _ => rfl⟩

variable {p : ℕ} {q : Request} {c : UInt8}

theorem given_finish (a : Terminal) (p : ℕ) (q : Request) (v : ℤ) (r : ℕ) :
    (a.finish p q v).given r =
    if r = p then (a.results p).flatMap Prod.snd ++ q.got else a.given r := by
  unfold given finish
  by_cases hr : r = p
  · subst hr
    simp
  · simp [hr]

theorem given_setCall (a : Terminal) (p : ℕ) (q : Request) (r : ℕ) :
    given { a with call := update a.call p (some q) } r =
      if r = p then (a.results p).flatMap Prod.snd ++ q.got else a.given r := by
  unfold given
  by_cases hr : r = p
  · subst hr
    simp
  · simp [hr]

theorem takenBy_take (a : Terminal) (p : ℕ) (c : UInt8) (r : ℕ) :
    (a.take p c).takenBy r = if r = p ∧ c ≠ C 'D' then a.takenBy r ++ [c] else a.takenBy r := by
  unfold takenBy take
  rw [filter_append, map_append]
  by_cases hr : r = p ∧ c ≠ C 'D'
  · rw [if_pos hr, filter_cons_of_pos (by simpa using ⟨hr.1.symm, hr.2⟩)]
    rfl
  · rw [if_neg hr, filter_cons_of_neg
      (by simpa using fun hp => not_not.1 fun hc => hr ⟨hp.symm, hc⟩)]
    exact append_nil _

theorem moved_take (h : a.Inv) {rest : List UInt8} (hqueue : a.line.queue = c :: rest) :
    a.moved = (a.take p c).taken.map Prod.snd ++ (a.take p c).line.queue := by
  have hpop : (a.take p c).line.queue = rest := congrArg List.tail hqueue
  rw [hpop, take, map_append, append_assoc, h.moved, hqueue]
  rfl

/-- Input only appends to the queue. -/
theorem queue_input (l : Line) (c : UInt8) : l.queue <+: (l.input c).queue := by
  have htype (c : UInt8) : l.queue <+: (l.type c).queue := by
    unfold Line.type
    split
    next hroom =>
      dsimp only
      split
      · exact prefix_append _ _
      · exact prefix_rfl
    next => exact prefix_rfl
  unfold Line.input
  split
  · exact prefix_rfl
  split
  · exact prefix_rfl
  split
  · exact prefix_rfl
  · exact htype _

theorem Inv.intr (h : a.Inv) (c : UInt8) (hs : a.step (.intr c) = some b) : b.Inv := by
  cases hs
  refine ⟨?_, h.given⟩
  obtain ⟨new, hnew⟩ := queue_input a.line c
  simp only [← hnew, drop_left, h.moved, append_assoc]

theorem Inv.read {n : BitVec 32} (h : a.Inv) (hs : a.step (.read p n) = some b) : b.Inv := by
  simp only [step] at hs
  split at hs
  next hnone =>
    cases hs
    refine ⟨h.moved, fun r => ?_⟩
    rw [given_setCall]
    split
    next hr =>
      subst hr
      have hgiven := h.given r
      rwa [Terminal.given, hnone] at hgiven
    next => exact h.given r
  next => cases hs

theorem Inv.finish (h : a.Inv) (hcall : a.call p = some q) (v : ℤ) : (a.finish p q v).Inv := by
  refine ⟨h.moved, fun r => ?_⟩
  rw [given_finish]
  split
  next hr =>
    subst hr
    have hgiven := h.given r
    rwa [Terminal.given, hcall] at hgiven
  next => exact h.given r

theorem Inv.deliver (h : a.Inv) (hcall : a.call p = some q) {rest : List UInt8}
    (hqueue : a.line.queue = c :: rest) (heof : c ≠ C 'D') (hmoved : b.moved = a.moved)
    (htaken : b.taken = (a.take p c).taken)
    (hline : b.line = (a.take p c).line)
    (hgiven : ∀ r, b.given r =
      if r = p then (a.results p).flatMap Prod.snd ++ (q.got ++ [c]) else a.given r) :
    b.Inv := by
  refine ⟨?_, fun r => ?_⟩
  · rw [hmoved, htaken, hline]
    exact moved_take h hqueue
  · have htake := takenBy_take a p c r
    rw [takenBy, ← htaken] at htake
    rw [hgiven, takenBy, htake]
    by_cases hr : r = p
    · subst hr
      have hbefore := h.given r
      rw [Terminal.given, hcall] at hbefore
      rw [if_pos rfl, if_pos ⟨rfl, heof⟩, ← hbefore, ← append_assoc]
      rfl
    · rw [if_neg hr, if_neg fun h => hr h.1]
      exact h.given r

theorem Inv.turn {killed : Bool} (h : a.Inv) (hcall : a.call p = some q)
    (hs : a.turn p q killed = some b) : b.Inv := by
  unfold Terminal.turn at hs
  split at hs
  swap
  · cases hs
    exact h.finish hcall _
  split at hs
  next hempty =>
    cases killed with
    | true =>
      cases hs
      exact h.finish hcall _
    | false => cases hs
  next c rest hqueue =>
    dsimp only at hs
    split_ifs at hs with heof hfirst hline
    · cases hs
      have htake : (a.take p c).Inv := by
        refine ⟨moved_take h hqueue, fun r => ?_⟩
        rw [takenBy_take, if_neg fun hin => hin.2 heof]
        exact h.given r
      exact htake.finish hcall _
    · cases hs
      exact h.finish hcall _
    · cases hs
      exact h.deliver hcall hqueue heof rfl rfl rfl fun r => given_finish (a.take p c) p _ _ r
    · cases hs
      exact h.deliver hcall hqueue heof rfl rfl rfl fun r => given_setCall (a.take p c) p _ r

theorem Inv.step {x : Act} (h : a.Inv) (hs : a.step x = some b) : b.Inv := by
  cases x with
  | intr c => exact h.intr c hs
  | read p n => exact h.read hs
  | turn p killed =>
    obtain ⟨q, hcall, hturn⟩ := Option.bind_eq_some_iff.1 hs
    exact h.turn hcall hturn

end Terminal

/-- The console's buffer refines the terminal: in every run the same steps are possible, the ring
holds the queue and the edited line, the calls stand and have returned as there, and every character
that was moved to the queue is given out once and in order. -/
theorem console_refines_terminal (buf : ℕ → UInt8) (acts : List Act) :
    Option.Rel (fun s a => Shows s a ∧ a.Inv) (run step (init buf) acts)
    (run Terminal.step .init acts) := by
  have hinit : Shows (init buf) .init :=
    ⟨⟨.empty buf 0, by simp [init, Terminal.init], not_mem_nil⟩, fun _ => .none, rfl⟩
  refine run_rel ?_ ⟨hinit, Terminal.init_inv⟩ acts
  rintro s a x ⟨h, hinv⟩
  have hrel := h.step x
  generalize step s x = o, hb : a.step x = o' at hrel ⊢
  cases hrel with
  | none => exact .none
  | some hshows => exact .some ⟨hshows, hinv.step hb⟩

end Xv6.Console
