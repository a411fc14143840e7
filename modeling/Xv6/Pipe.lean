import Xv6.RingBuffer
import Xv6.Transition

/-!
# Pipes

`pipewrite`, `piperead` and `pipeclose` of `kernel/pipe.c`. A step is one turn of a loop under
`pi->lock`, which stays with the process until it returns or sleeps, so `kill` can come between any
two turns. The copies from and to user memory succeed. `put` and `taken` are history: the bytes that
went into the buffer and those that came out. File references, which keep a process from closing an
end that it is using and the pipe from being freed, are left out; an end may be closed at any time.
-/

namespace Xv6.Pipes

open Transition RingBuffer Function

def pipesize : ℕ := 512

structure Pipe where
  data : ℕ → UInt8
  nread : BitVec 32
  nwrite : BitVec 32
  readopen : Bool
  writeopen : Bool

/-- The channels `&pi->nread` and `&pi->nwrite`. -/
inductive Chan
  | nread
  | nwrite
  deriving DecidableEq

/-- Where a process stands. `src` is the user memory that `pipewrite` copies from. -/
inductive Pc
  | user
  | writeLock (n : ℤ) (src : ℕ → UInt8) (i : ℕ)
  | write (n : ℤ) (src : ℕ → UInt8) (i : ℕ)
  | readLock (n : ℤ)
  | readWait (n : ℤ)
  | read (n : ℤ) (i : ℕ)

def Pc.locked : Pc → Bool
  | .write .. | .readWait _ | .read .. => true
  | _ => false

/-- The `n` of the call of `piperead` that the process is in. -/
def Pc.reading : Pc → Option ℤ
  | .readLock n | .readWait n | .read n _ => some n
  | _ => none

structure Proc where
  pc : Pc
  killed : Bool
  /-- What the process sleeps on. -/
  chan : Option Chan
  ret : ℤ

structure Sys where
  pipe : Pipe
  lock : Option ℕ
  proc : ℕ → Proc
  put : List UInt8
  taken : List UInt8

namespace Sys

variable (s : Sys) (p : ℕ)

def set (x : Proc) : Sys := { s with proc := update s.proc p x }

def goto (pc : Pc) : Sys := s.set p { s.proc p with pc := pc }

def sysret (v : ℤ) : Sys := { s.set p { s.proc p with pc := .user, ret := v } with lock := none }

def wakeup (c : Chan) : Sys :=
  { s with proc := fun q =>
      if (s.proc q).chan = some c then { s.proc q with chan := none } else s.proc q }

/-- `sleep` gives up the lock; the process takes it again at `pc`. -/
def sleep (c : Chan) (pc : Pc) : Sys :=
  { s.set p { s.proc p with pc := pc, chan := some c } with lock := none }

def acquire (pc : Pc) : Option Sys :=
  if s.lock = none ∧ (s.proc p).chan = none then some { s.goto p pc with lock := some p } else none

def putByte (x : UInt8) : Sys :=
  { s with
    pipe := { s.pipe with
      data := update s.pipe.data (s.pipe.nwrite.toNat % pipesize) x
      nwrite := s.pipe.nwrite + 1 }
    put := s.put ++ [x] }

def takeByte : Sys :=
  { s with
    pipe := { s.pipe with nread := s.pipe.nread + 1 }
    taken := s.taken ++ [s.pipe.data (s.pipe.nread.toNat % pipesize)] }

def run : Pc → Option Sys
  | .user => none
  | .writeLock n src i => s.acquire p (.write n src i)
  | .write n src i =>
    if (i : ℤ) < n then
      if s.pipe.readopen = false ∨ (s.proc p).killed = true then some (s.sysret p (-1))
      else if s.pipe.nwrite = s.pipe.nread + BitVec.ofNat 32 pipesize then
        some ((s.wakeup .nread).sleep p .nwrite (.writeLock n src i))
      else some ((s.putByte (src i)).goto p (.write n src (i + 1)))
    else some ((s.wakeup .nread).sysret p i)
  | .readLock n => s.acquire p (.readWait n)
  | .readWait n =>
    if s.pipe.nread = s.pipe.nwrite ∧ s.pipe.writeopen = true then
      if (s.proc p).killed = true then some (s.sysret p (-1))
      else some (s.sleep p .nread (.readLock n))
    else some (s.goto p (.read n 0))
  | .read n i =>
    if (i : ℤ) < n ∧ s.pipe.nread ≠ s.pipe.nwrite then
      some (s.takeByte.goto p (.read n (i + 1)))
    else some ((s.wakeup .nwrite).sysret p i)

/-- `pipeclose` up to the end of its section. -/
def close (writable : Bool) : Sys :=
  if writable then { s.wakeup .nread with pipe := { s.pipe with writeopen := false } }
  else { s.wakeup .nwrite with pipe := { s.pipe with readopen := false } }

end Sys

inductive Act
  | pipewrite (p : ℕ) (n : ℤ) (src : ℕ → UInt8)
  | piperead (p : ℕ) (n : ℤ)
  | run (p : ℕ)
  | kill (p : ℕ)
  | pipeclose (writable : Bool)

def step (s : Sys) : Act → Option Sys
  | .pipewrite p n src =>
    match (s.proc p).pc with
    | .user => some (s.goto p (.writeLock n src 0))
    | _ => none
  | .piperead p n =>
    match (s.proc p).pc with
    | .user => some (s.goto p (.readLock n))
    | _ => none
  | .run p => s.run p (s.proc p).pc
  | .kill p => some (s.set p { s.proc p with killed := true, chan := none })
  | .pipeclose writable => if s.lock = none then some (s.close writable) else none

/-- After `pipealloc`, which leaves the bytes of the page as they are. -/
def alloc (data : ℕ → UInt8) : Sys where
  pipe := ⟨data, 0, 0, true, true⟩
  lock := none
  proc _ := ⟨.user, false, none, 0⟩
  put := []
  taken := []

structure Inv (s : Sys) (q : List UInt8) : Prop where
  contents : Contents pipesize s.pipe.data s.pipe.nread s.pipe.nwrite q
  put : s.put = s.taken ++ q
  lock : ∀ p, (s.proc p).pc.locked = true → s.lock = some p
  eof : ∀ p n, (s.proc p).pc = .read n 0 → s.pipe.nread = s.pipe.nwrite → s.pipe.writeopen = false

theorem alloc_inv (data : ℕ → UInt8) : Inv (alloc data) [] where
  contents := .empty data 0
  put := rfl
  lock := fun _ h => nomatch h
  eof := fun _ _ h => nomatch h

section steps

variable {s t : Sys} {p : ℕ} {q : List UInt8}

theorem Inv.others (h : Inv s q) (hlock : s.lock = none ∨ s.lock = some p) {r : ℕ} (hr : r ≠ p) :
    (s.proc r).pc.locked = false := by
  cases hpc : (s.proc r).pc.locked with
  | false => rfl
  | true =>
    have hheld := h.lock r hpc
    rcases hlock with hnone | hp
    · rw [hheld] at hnone
      cases hnone
    · rw [hheld] at hp
      exact absurd (Option.some.inj hp) hr

/-- A step of the process that has the lock, or takes it. -/
theorem Inv.of_holder (h : Inv s q) (hheld : s.lock = none ∨ s.lock = some p) {x : Proc}
    {pipe : Pipe} {lock : Option ℕ} {put taken q' : List UInt8}
    (hcontents : Contents pipesize pipe.data pipe.nread pipe.nwrite q') (hput : put = taken ++ q')
    (hlock : x.pc.locked = true → lock = some p)
    (heof : ∀ n, x.pc = .read n 0 → pipe.nread = pipe.nwrite → pipe.writeopen = false) :
    Inv ⟨pipe, lock, update s.proc p x, put, taken⟩ q' where
  contents := hcontents
  put := hput
  lock r hr := by
    by_cases hrp : r = p
    · subst hrp
      exact hlock (by simpa using hr)
    · simp [hrp, h.others hheld hrp] at hr
  eof r n hr := by
    by_cases hrp : r = p
    · subst hrp
      exact heof n (by simpa using hr)
    · have hfree := h.others hheld hrp
      simp only [update_of_ne hrp] at hr
      rw [hr] at hfree
      cases hfree

theorem Inv.of_procs (h : Inv s q) {f : ℕ → Proc}
    (hf : ∀ r, (f r).pc = (s.proc r).pc ∨ (f r).pc.locked = false) :
    Inv { s with proc := f } q where
  contents := h.contents
  put := h.put
  lock r hr := by
    rcases hf r with hpc | hfree
    · exact h.lock r (by rwa [← hpc])
    · rw [hfree] at hr
      cases hr
  eof r n hr := by
    rcases hf r with hpc | hfree
    · exact h.eof r n (by rwa [← hpc])
    · simp only at hr
      rw [hr] at hfree
      cases hfree

theorem Inv.set (h : Inv s q) {x : Proc} (hx : x.pc = (s.proc p).pc ∨ x.pc.locked = false) :
    Inv (s.set p x) q := by
  apply h.of_procs
  intro r
  by_cases hr : r = p
  · subst hr
    simpa using hx
  · simp [hr]

theorem Inv.wakeup (h : Inv s q) (c : Chan) : Inv (s.wakeup c) q := by
  apply h.of_procs
  intro r
  split_ifs
  · exact .inl rfl
  · exact .inl rfl

theorem Inv.sysret (h : Inv s q) (hheld : s.lock = some p) (v : ℤ) : Inv (s.sysret p v) q :=
  h.of_holder (.inr hheld) h.contents h.put (by simp [Pc.locked]) (by simp)

theorem Inv.sleep (h : Inv s q) (hheld : s.lock = some p) (c : Chan) {pc : Pc}
    (hpc : pc.locked = false) : Inv (s.sleep p c pc) q := by
  refine h.of_holder (.inr hheld) h.contents h.put (by simp [hpc]) fun n hr => ?_
  rw [show pc = .read n 0 from hr] at hpc
  cases hpc

theorem Inv.acquire (h : Inv s q) {pc : Pc} (hpc : ∀ n, pc ≠ .read n 0)
    (hs : s.acquire p pc = some t) : Inv t q := by
  unfold Sys.acquire at hs
  split_ifs at hs with hfree
  cases hs
  exact h.of_holder (.inl hfree.1) h.contents h.put (fun _ => rfl) fun n hr => absurd hr (hpc n)

theorem Inv.putByte (h : Inv s q) (hheld : s.lock = some p)
    (hfull : s.pipe.nwrite ≠ s.pipe.nread + BitVec.ofNat 32 pipesize) (x : UInt8) {n : ℤ}
    {src : ℕ → UInt8} {i : ℕ} : Inv ((s.putByte x).goto p (.write n src i)) (q ++ [x]) := by
  refine h.of_holder (.inr hheld) (h.contents.push (by decide) (by decide) hfull x) ?_
    (fun _ => hheld) (by simp)
  change s.put ++ [x] = s.taken ++ (q ++ [x])
  rw [h.put, List.append_assoc]

theorem Inv.takeByte (h : Inv s q) (hheld : s.lock = some p) (hne : s.pipe.nread ≠ s.pipe.nwrite)
    {n : ℤ} {i : ℕ} : ∃ rest, Inv (s.takeByte.goto p (.read n (i + 1))) rest := by
  obtain ⟨rest, hq, hrest⟩ := h.contents.pop (by decide) (by decide) hne
  refine ⟨rest, h.of_holder (.inr hheld) hrest ?_ (fun _ => hheld) (by simp)⟩
  have hput := h.put
  rw [hq] at hput
  simpa [Sys.takeByte, Sys.goto, Sys.set] using hput

theorem Inv.close (h : Inv s q) (hfree : s.lock = none) (writable : Bool) :
    Inv (s.close writable) q := by
  have hpc (r : ℕ) (c : Chan) : ((s.wakeup c).proc r).pc = (s.proc r).pc := by
    simp only [Sys.wakeup]
    split_ifs <;> rfl
  have hnone (r : ℕ) : (s.proc r).pc.locked = false :=
    h.others (p := r + 1) (.inl hfree) (Nat.succ_ne_self r).symm
  cases writable with
  | false =>
    refine ⟨h.contents, h.put, fun r hr => ?_, fun r n hr => ?_⟩
    · have hfree := hnone r
      rw [← hpc r .nwrite] at hfree
      exact absurd hr (by simpa [Sys.close] using hfree)
    · have hfree := hnone r
      rw [← hpc r .nwrite] at hfree
      have hread : ((s.wakeup .nwrite).proc r).pc = .read n 0 := hr
      rw [hread] at hfree
      cases hfree
  | true =>
    refine ⟨h.contents, h.put, fun r hr => ?_, fun r n hr => ?_⟩
    · have hfree := hnone r
      rw [← hpc r .nread] at hfree
      exact absurd hr (by simpa [Sys.close] using hfree)
    · exact fun _ => rfl

theorem Inv.turn (h : Inv s q) (hs : s.run p (s.proc p).pc = some t) : ∃ q', Inv t q' := by
  generalize hpc : (s.proc p).pc = pc at hs
  cases pc with
  | user =>
    cases hs
  | writeLock _ _ _ | readLock _ =>
    exact ⟨q, h.acquire (fun _ => Pc.noConfusion) hs⟩
  | write n src i =>
    have hheld : s.lock = some p := h.lock p (by rw [hpc]; rfl)
    simp only [Sys.run] at hs
    split_ifs at hs with hi hstop hfull
    · cases hs
      exact ⟨q, h.sysret hheld _⟩
    · cases hs
      exact ⟨q, (h.wakeup .nread).sleep hheld .nwrite rfl⟩
    · cases hs
      exact ⟨_, h.putByte hheld hfull _⟩
    · cases hs
      exact ⟨q, (h.wakeup .nread).sysret hheld _⟩
  | readWait n =>
    have hheld : s.lock = some p := h.lock p (by rw [hpc]; rfl)
    simp only [Sys.run] at hs
    split_ifs at hs with hempty hkilled
    · cases hs
      exact ⟨q, h.sysret hheld _⟩
    · cases hs
      exact ⟨q, h.sleep hheld .nread rfl⟩
    · cases hs
      refine ⟨q, h.of_holder (.inr hheld) h.contents h.put (fun _ => hheld) fun m _ heq => ?_⟩
      cases hw : s.pipe.writeopen with
      | false => rfl
      | true => exact absurd ⟨heq, hw⟩ hempty
  | read n i =>
    have hheld : s.lock = some p := h.lock p (by rw [hpc]; rfl)
    simp only [Sys.run] at hs
    split_ifs at hs with hmore
    · cases hs
      exact h.takeByte hheld hmore.2
    · cases hs
      exact ⟨q, (h.wakeup .nwrite).sysret hheld _⟩

theorem Inv.next (h : Inv s q) {a : Act} (hs : step s a = some t) : ∃ q', Inv t q' := by
  cases a with
  | pipewrite p _ _ | piperead p _ =>
    simp only [Pipes.step] at hs
    split at hs
    · cases hs
      exact ⟨q, h.set (.inr rfl)⟩
    · cases hs
  | run p => exact h.turn hs
  | kill p =>
    cases hs
    exact ⟨q, h.set (.inl rfl)⟩
  | pipeclose writable =>
    simp only [Pipes.step] at hs
    split_ifs at hs with hfree
    cases hs
    exact ⟨q, h.close hfree writable⟩

/-- A step that changes the cells writes one that holds no unread byte. -/
theorem Inv.unread_kept (h : Inv s q) {a : Act} (hs : step s a = some t) {j : ℕ}
    (hj : j < (s.pipe.nwrite - s.pipe.nread).toNat) :
    t.pipe.data ((s.pipe.nread.toNat + j) % pipesize) =
    s.pipe.data ((s.pipe.nread.toNat + j) % pipesize) := by
  rw [h.contents.toNat_sub (by decide)] at hj
  cases a with
  | pipewrite p n src | piperead p n =>
    simp only [Pipes.step] at hs
    split at hs
    · cases hs
      rfl
    · cases hs
  | kill p =>
    cases hs
    rfl
  | pipeclose writable =>
    simp only [Pipes.step] at hs
    split_ifs at hs
    cases hs
    cases writable <;> rfl
  | run p =>
    simp only [Pipes.step] at hs
    generalize hpc : (s.proc p).pc = pc at hs
    cases pc with
    | user =>
      cases hs
    | writeLock n src i | readLock n =>
      simp only [Sys.run, Sys.acquire] at hs
      split_ifs at hs
      cases hs
      rfl
    | write n src i =>
      simp only [Sys.run] at hs
      split_ifs at hs with hi hstop hfull
      · cases hs
        rfl
      · cases hs
        rfl
      · cases hs
        have hlen : q.length < pipesize :=
          lt_of_le_of_ne h.contents.length_le fun heq =>
            hfull ((h.contents.full_iff (by decide)).2 heq)
        exact update_of_ne (h.contents.cell_ne (by decide) hlen hj) _ _
      · cases hs
        rfl
    | readWait _ | read _ _ =>
      simp only [Sys.run] at hs
      split_ifs at hs
      all_goals
        cases hs
        rfl

/-- A call of `piperead` for some bytes that returns 0 has found the end of the stream. -/
theorem Inv.read_zero (h : Inv s q) (hs : step s (.run p) = some t) {n : ℤ}
    (hread : (s.proc p).pc.reading = some n) (huser : (t.proc p).pc = .user)
    (hret : (t.proc p).ret = 0) (hn : 0 < n) :
    t.pipe.nread = t.pipe.nwrite ∧ t.pipe.writeopen = false := by
  simp only [Pipes.step] at hs
  generalize hpc : (s.proc p).pc = pc at hs
  cases pc with
  | user | writeLock | write =>
    rw [hpc] at hread
    cases hread
  | readLock m =>
    simp only [Sys.run, Sys.acquire] at hs
    split_ifs at hs
    cases hs
    simp [Sys.goto, Sys.set] at huser
  | readWait m =>
    simp only [Sys.run] at hs
    split_ifs at hs
    · cases hs
      simp [Sys.sysret, Sys.set] at hret
    · cases hs
      simp [Sys.sleep, Sys.set] at huser
    · cases hs
      simp [Sys.goto, Sys.set] at huser
  | read m i =>
    rw [hpc] at hread
    obtain rfl : m = n := Option.some.inj hread
    simp only [Sys.run] at hs
    split_ifs at hs with hmore
    · cases hs
      simp [Sys.takeByte, Sys.goto, Sys.set] at huser
    · cases hs
      have hi : i = 0 := by simpa [Sys.sysret, Sys.set] using hret
      subst hi
      have hempty : s.pipe.nread = s.pipe.nwrite := by
        by_contra hne
        exact hmore ⟨by simpa using hn, hne⟩
      exact ⟨hempty, h.eof p m hpc hempty⟩

end steps

/-- In every run from a new pipe: what came out is a prefix of what went in, the counters are at
most the size of the buffer apart, no step overwrites an unread byte, and `piperead` returns 0 for
some bytes only when the buffer is empty and the write end closed. -/
theorem pipe_fifo (data : ℕ → UInt8) {as : List Act} {s : Sys}
    (hrun : run step (alloc data) as = some s) : s.taken <+: s.put ∧
    (s.pipe.nwrite - s.pipe.nread).toNat ≤ pipesize ∧
    (∀ a t, step s a = some t → ∀ j < (s.pipe.nwrite - s.pipe.nread).toNat,
      t.pipe.data ((s.pipe.nread.toNat + j) % pipesize) =
      s.pipe.data ((s.pipe.nread.toNat + j) % pipesize)) ∧
    ∀ p n t, step s (.run p) = some t → (s.proc p).pc.reading = some n →
      (t.proc p).pc = .user → (t.proc p).ret = 0 → 0 < n → t.pipe.nread = t.pipe.nwrite ∧
      t.pipe.writeopen = false := by
  obtain ⟨q, hinv⟩ : ∃ q, Inv s q :=
    run_invariant_all (I := fun s => ∃ q, Inv s q) (fun _ _ _ hI hs => hI.elim fun _ h => h.next hs)
      ⟨[], alloc_inv data⟩ hrun
  refine ⟨⟨q, hinv.put.symm⟩, ?_, fun a t hs j hj => hinv.unread_kept hs hj,
    fun p n t hs hread huser hret hn => hinv.read_zero hs hread huser hret hn⟩
  rw [hinv.contents.toNat_sub (by decide)]
  exact hinv.contents.length_le

def writeThenRead : List Act :=
  .pipewrite 0 2 (fun i => if i = 0 then 7 else 8) :: List.replicate 4 (.run 0) ++
    .pipeclose true :: .piperead 1 5 :: List.replicate 5 (.run 1) ++
    .piperead 1 5 :: List.replicate 3 (.run 1)

theorem pipe_fifo_writeThenRead : ∃ s, run step (alloc fun _ => 0) writeThenRead = some s ∧
    s.taken = [7, 8] ∧
      (s.proc 1).ret = 0 ∧ s.taken <+: s.put := by
  have hrun : (run step (alloc fun _ => 0) writeThenRead).elim false (fun s =>
      decide (s.taken = [7, 8] ∧ (s.proc 1).ret = 0)) = true := by decide +kernel
  obtain ⟨s, hs, hd⟩ := exists_of_elim hrun
  obtain ⟨htaken, hret⟩ := of_decide_eq_true hd
  exact ⟨s, hs, htaken, hret, (pipe_fifo _ hs).1⟩

end Xv6.Pipes
