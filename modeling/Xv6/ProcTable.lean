import Xv6.Transition

/-!
# Process table: fork, exit, wait and kill

The part of `kernel/proc.c` that creates and reaps processes. A step is one section under a
process's lock, and `wait_lock` is a field of the state, so that everything a process does while it
holds `wait_lock` interleaves with the sections of other processes. The loops over the process table
in `allocproc`, `reparent`, `wakeup`, `wait` and `kill` take one step for each entry. Memory and
files are left out: the flag of a step says whether the allocations of `fork`, or the `copyout` of
`wait`, succeed.

`allocproc` keeps the lock of the new process until `fork` has copied everything; nobody can see the
process before, so this is one step. `inc`, `creator`, `parentInc`, `exited` and `reaped` are
history: `inc` numbers the processes that have ever been created, so that a slot that is used again
holds another number. The pids do not: they are ints, and `allocpid` counts past the largest of
them. -/

namespace Xv6.ProcTable

open Function

def nproc : ℕ := 64

abbrev Slot := Fin nproc

inductive PState
  | unused
  | used
  | sleeping
  | runnable
  | running
  | zombie
  deriving DecidableEq

inductive Chan
  | proc (q : Slot)
  | other (c : ℕ)
  deriving DecidableEq

/-- Where a process stands in the kernel, with the local variables that are still used. -/
inductive Pc
  | user
  | asleep
  | allocproc (i : ℕ)
  | setParent (np : Slot) (pid : ℤ)
  | setRunnable (np : Slot) (pid : ℤ)
  | exitLock (status : ℤ)
  | reparent (status : ℤ) (i : ℕ)
  | wakeInit (status : ℤ) (i j : ℕ)
  | wakeParent (status : ℤ) (chan : Option Chan) (j : ℕ)
  | zombie (status : ℤ)
  | dead
  | waitLock
  | waitScan (i : ℕ) (havekids : Bool)
  | waitCheck (havekids : Bool)
  | waitSleep
  | waitSlept
  | kill (pid : ℤ) (i : ℕ)
  deriving DecidableEq

structure Proc where
  state : PState
  chan : Option Chan
  killed : Bool
  xstate : ℤ
  pid : ℤ
  parent : Option Slot
  pc : Pc
  /-- The result of the last system call. -/
  ret : ℤ
  inc : ℕ
  creator : ℕ
  /-- The process that the parent pointer was set to. -/
  parentInc : ℕ

structure Reap where
  child : ℕ
  creator : ℕ
  pid : ℤ
  status : ℤ
  slot : Slot
  inc : ℕ

structure Sys where
  proc : Slot → Proc
  nextpid : ℤ
  waitLock : Option Slot
  panicked : Bool
  nextInc : ℕ
  /-- The pid and the status that a process exited with. -/
  exited : ℕ → Option (ℤ × ℤ)
  reaped : List Reap

def initproc : Slot := ⟨0, by decide⟩

/-- `nextpid` after `allocpid`, with 32 bits. -/
def bumpPid (pid : ℤ) : ℤ := (pid + 1).bmod (2 ^ 32)

theorem one_lt_nproc : 1 < nproc := by decide

def firstFree : Slot := ⟨1, one_lt_nproc⟩

def Proc.free (p : Proc) : Proc :=
  { p with
    pid := 0, parent := none, chan := none, killed := false, xstate := 0, state := .unused }

namespace Sys

variable (s : Sys) (p : Slot)

def set (x : Proc) : Sys := { s with proc := update s.proc p x }

def goto (pc : Pc) : Sys := s.set p { s.proc p with pc := pc }

def sysret (v : ℤ) : Sys := s.set p { s.proc p with pc := .user, ret := v }

def acquire (pc : Pc) : Option Sys :=
  if s.waitLock = none then some { s.goto p pc with waitLock := some p } else none

def release (t : Sys) : Sys := { t with waitLock := none }

/-- One turn of the loop of `wakeup`, called by `p`. -/
def wakeup (c : Option Chan) (q : Slot) : Sys :=
  if q ≠ p ∧ (s.proc q).state = .sleeping ∧ (s.proc q).chan = c then
    s.set q { s.proc q with state := .runnable }
  else s

/-- `allocproc` has found slot `q`, and `fork` goes on until it releases the lock of `q`. -/
def alloc (q : Slot) (ok : Bool) : Sys :=
  let x := { s.proc q with pid := s.nextpid, state := .used }
  let t := { s with nextpid := bumpPid s.nextpid, nextInc := s.nextInc + 1 }
  if ok then
    (t.set q { x with pc := .user, inc := s.nextInc, creator := (s.proc p).inc }).goto p
      (.setParent q s.nextpid)
  else (t.set q x.free).sysret p (-1)

/-- `wait` frees the zombie `q` and returns its pid. -/
def reap (q : Slot) : Sys :=
  let x := s.proc q
  release { (s.set q x.free).sysret p x.pid with
    reaped := s.reaped ++ [⟨x.inc, x.creator, x.pid, x.xstate, p, (s.proc p).inc⟩] }

/-- The next step of `p`, where `ok` resolves whether memory is available. -/
def run (ok : Bool) : Pc → Option Sys
  | .user | .dead => none
  | .asleep => some (s.set p { s.proc p with chan := none, pc := .user })
  | .allocproc i =>
    if h : i < nproc then
      if (s.proc ⟨i, h⟩).state = .unused then some (s.alloc p ⟨i, h⟩ ok)
      else some (s.goto p (.allocproc (i + 1)))
    else some (s.sysret p (-1))
  | .setParent np pid =>
    if s.waitLock = none then
      some ((s.set np { s.proc np with parent := some p, parentInc := (s.proc p).inc }).goto p
        (.setRunnable np pid))
    else none
  | .setRunnable np pid => some ((s.set np { s.proc np with state := .runnable }).sysret p pid)
  | .exitLock status => s.acquire p (.reparent status 0)
  | .reparent status i =>
    if h : i < nproc then
      if (s.proc ⟨i, h⟩).parent = some p then
        some ((s.set ⟨i, h⟩ { s.proc ⟨i, h⟩ with
          parent := some initproc, parentInc := (s.proc initproc).inc }).goto p
          (.wakeInit status i 0))
      else some (s.goto p (.reparent status (i + 1)))
    else some (s.goto p (.wakeParent status ((s.proc p).parent.map .proc) 0))
  | .wakeInit status i j =>
    if h : j < nproc then
      some ((s.wakeup p (some (.proc initproc)) ⟨j, h⟩).goto p (.wakeInit status i (j + 1)))
    else some (s.goto p (.reparent status (i + 1)))
  | .wakeParent status chan j =>
    if h : j < nproc then
      some ((s.wakeup p chan ⟨j, h⟩).goto p (.wakeParent status chan (j + 1)))
    else some (s.goto p (.zombie status))
  | .zombie status =>
    some (release { s.set p { s.proc p with xstate := status, state := .zombie, pc := .dead } with
      exited := update s.exited (s.proc p).inc (some ((s.proc p).pid, status)) })
  | .waitLock => s.acquire p (.waitScan 0 false)
  | .waitScan i havekids =>
    if h : i < nproc then
      if (s.proc ⟨i, h⟩).parent = some p then
        if (s.proc ⟨i, h⟩).state = .zombie then
          if ok then some (s.reap p ⟨i, h⟩) else some (release (s.sysret p (-1)))
        else some (s.goto p (.waitScan (i + 1) true))
      else some (s.goto p (.waitScan (i + 1) havekids))
    else some (s.goto p (.waitCheck havekids))
  | .waitCheck havekids =>
    if havekids = false ∨ (s.proc p).killed = true then some (release (s.sysret p (-1)))
    else some (s.goto p .waitSleep)
  | .waitSleep =>
    some (release (s.set p { s.proc p with
      chan := some (.proc p), state := .sleeping, pc := .waitSlept }))
  | .waitSlept => some (s.set p { s.proc p with chan := none, pc := .waitLock })
  | .kill pid i =>
    if h : i < nproc then
      if (s.proc ⟨i, h⟩).pid = pid then
        let x := s.proc ⟨i, h⟩
        some ((s.set ⟨i, h⟩ { x with
          killed := true
          state := if x.state = .sleeping then .runnable else x.state }).sysret p 0)
      else some (s.goto p (.kill pid (i + 1)))
    else some (s.sysret p (-1))

end Sys

inductive Act
  | sched (p : Slot)
  | yield (p : Slot)
  | fork (p : Slot)
  | exit (p : Slot) (status : ℤ)
  | wait (p : Slot)
  | kill (p : Slot) (pid : ℤ)
  | sleep (p : Slot) (c : ℕ)
  | wakeup (c : ℕ) (q : Slot)
  | run (p : Slot) (ok : Bool)

def Sys.inUser (s : Sys) (p : Slot) : Prop := (s.proc p).state = .running ∧ (s.proc p).pc = .user

instance (s : Sys) (p : Slot) : Decidable (s.inUser p) := inferInstanceAs (Decidable (_ ∧ _))

def step (s : Sys) (a : Act) : Option Sys :=
  if s.panicked then none else
  match a with
  | .sched p =>
    if (s.proc p).state =
      .runnable then some (s.set p { s.proc p with state := .running }) else none
  | .yield p =>
    if (s.proc p).state = .running ∧ s.waitLock ≠ some p then
      some (s.set p { s.proc p with state := .runnable })
    else none
  | .fork p => if s.inUser p then some (s.goto p (.allocproc 0)) else none
  | .exit p status =>
    if s.inUser p then
      if p = initproc then some { s with panicked := true } else some (s.goto p (.exitLock status))
    else none
  | .wait p => if s.inUser p then some (s.goto p .waitLock) else none
  | .kill p pid => if s.inUser p then some (s.goto p (.kill pid 0)) else none
  | .sleep p c =>
    if s.inUser p then
      some (s.set p { s.proc p with chan := some (.other c), state := .sleeping, pc := .asleep })
    else none
  | .wakeup c q =>
    if (s.proc q).state = .sleeping ∧ (s.proc q).chan = some (.other c) then
      some (s.set q { s.proc q with state := .runnable })
    else none
  | .run p ok => if (s.proc p).state = .running then s.run p ok (s.proc p).pc else none

def boot : Sys where
  proc p :=
    if p = initproc then ⟨.runnable, none, false, 0, 1, none, .user, 0, 0, 0, 0⟩
    else ⟨.unused, none, false, 0, 0, none, .user, 0, 0, 0, 0⟩
  nextpid := 2
  waitLock := none
  panicked := false
  nextInc := 1
  exited := fun _ => none
  reaped := []

/-! ## What a step changes -/

/-- The step is the one by which `kill(pid)` of process `p` returns 0, having stopped at slot
`q`. -/
def Sys.Kills (s t : Sys) (p : Slot) (pid : ℤ) (q : Slot) : Prop :=
  (s.proc p).pc = .kill pid q.val ∧ (s.proc q).pid = pid ∧ t = ((s.set q { s.proc q with
      killed := true
      state := if (s.proc q).state = .sleeping then .runnable else (s.proc q).state }).sysret p 0)

structure Alike (x y : Proc) : Prop where
  killed : y.killed = x.killed
  pid : y.pid = x.pid
  unused : y.state = .unused → x.state = .unused

/-- What a step of process `p` does to the table: it changes its own slot or another one, and that
one keeps its place in the code; or it is one of the three steps that take, free or mark a slot. -/
inductive Sys.Effect (s : Sys) (p : Slot) (t : Sys) : Prop
  | own (x : Proc) (eq : t.proc = update s.proc p x) (alike : Alike (s.proc p) x)
  | other (q : Slot) (y x : Proc) (eq : t.proc = update (update s.proc q y) p x)
    (pc : y.pc = (s.proc q).pc)
      (alike : Alike (s.proc q) y) (alike' : Alike (update s.proc q y p) x)
  | alloc (q : Slot) (ok : Bool) (ne : q ≠ p) (unused : (s.proc q).state = .unused)
    (eq : t = s.alloc p q ok)
  | reap (q : Slot) (ne : q ≠ p) (eq : t = s.reap p q)
  | kill (q : Slot) (pid : ℤ) (kills : s.Kills t p pid q)

section effects

variable {s t : Sys} {p q : Slot} {x y : Proc} {a : Act} {ok : Bool}

theorem Alike.refl (x : Proc) : Alike x x := ⟨rfl, rfl, id⟩

theorem Alike.trans {z : Proc} (h : Alike x y) (h' : Alike y z) : Alike x z :=
  ⟨h'.killed.trans h.killed, h'.pid.trans h.pid, fun hz => h.unused (h'.unused hz)⟩

theorem Alike.update {f : Slot → Proc} (h : Alike (f p) x) (r : Slot) :
    Alike (f r) (update f p x r) := by
  by_cases hr : r = p
  · subst hr
    rwa [update_self]
  · rw [update_of_ne hr]
    exact .refl _

theorem Sys.Effect.wakeup (c : Option Chan) (q : Slot) (pc : Pc) :
    s.Effect p ((s.wakeup p c q).goto p pc) := by
  unfold Sys.wakeup
  split_ifs with h
  · exact .other q _ _ rfl rfl ⟨rfl, rfl, fun hz => by cases hz⟩ ⟨rfl, rfl, id⟩
  · exact .own _ rfl ⟨rfl, rfl, id⟩

theorem run_effect (hrun : (s.proc p).state = .running) (h : s.run p ok (s.proc p).pc = some t) :
    s.Effect p t := by
  have hne {q : Slot} (hq : (s.proc q).state ≠ .running) : q ≠ p := fun heq => hq (heq ▸ hrun)
  generalize hpc : (s.proc p).pc = pc at h
  cases pc with
  | user | dead =>
    cases h
  | asleep | waitSlept =>
    cases h
    exact .own _ rfl ⟨rfl, rfl, id⟩
  | zombie status | waitSleep =>
    cases h
    exact .own _ rfl ⟨rfl, rfl, fun hz => by cases hz⟩
  | setRunnable np pid =>
    cases h
    exact .other np _ _ rfl rfl ⟨rfl, rfl, fun hz => by cases hz⟩ ⟨rfl, rfl, id⟩
  | exitLock status | waitLock =>
    simp only [Sys.run, Sys.acquire] at h
    split_ifs at h
    cases h
    exact .own _ rfl ⟨rfl, rfl, id⟩
  | setParent np pid =>
    simp only [Sys.run] at h
    split_ifs at h
    cases h
    exact .other np _ _ rfl rfl ⟨rfl, rfl, id⟩ ⟨rfl, rfl, id⟩
  | allocproc i =>
    simp only [Sys.run] at h
    split_ifs at h with hi hq
    · cases h
      exact .alloc _ ok (hne (by simp [hq])) hq rfl
    all_goals
      cases h
      exact .own _ rfl ⟨rfl, rfl, id⟩
  | reparent status i =>
    simp only [Sys.run] at h
    split_ifs at h
    · cases h
      exact .other _ _ _ rfl rfl ⟨rfl, rfl, id⟩ ⟨rfl, rfl, id⟩
    all_goals
      cases h
      exact .own _ rfl ⟨rfl, rfl, id⟩
  | wakeInit status i j | wakeParent status chan j =>
    simp only [Sys.run] at h
    split_ifs at h
    · cases h
      exact .wakeup ..
    · cases h
      exact .own _ rfl ⟨rfl, rfl, id⟩
  | waitScan i havekids =>
    simp only [Sys.run] at h
    split_ifs at h with hi hparent hzombie
    · cases h
      exact .reap _ (hne (by simp [hzombie])) rfl
    all_goals
      cases h
      exact .own _ rfl ⟨rfl, rfl, id⟩
  | waitCheck havekids =>
    simp only [Sys.run] at h
    split_ifs at h
    all_goals
      cases h
      exact .own _ rfl ⟨rfl, rfl, id⟩
  | kill pid i =>
    simp only [Sys.run] at h
    by_cases hi : i < nproc
    · rw [dif_pos hi] at h
      by_cases hpid : (s.proc ⟨i, hi⟩).pid = pid
      · rw [if_pos hpid] at h
        cases h
        exact .kill ⟨i, hi⟩ pid ⟨hpc, hpid, rfl⟩
      · rw [if_neg hpid] at h
        cases h
        exact .own _ rfl ⟨rfl, rfl, id⟩
    · rw [dif_neg hi] at h
      cases h
      exact .own _ rfl ⟨rfl, rfl, id⟩

/-- Every step is that of one process, which is running it, starts a system call or stays where it
is. -/
theorem step_effect (h : step s a = some t) : ∃ p, s.Effect p t ∧
    ((s.proc p).state = .running ∧ (∃ ok, a = .run p ok) ∨ (s.proc p).pc = .user ∨
      (t.proc p).pc = (s.proc p).pc) := by
  unfold step at h
  split_ifs at h
  cases a with
  | sched p | yield p | wakeup c p =>
    simp only at h
    split_ifs at h
    cases h
    exact ⟨p, .own _ rfl ⟨rfl, rfl, fun hz => by cases hz⟩, .inr (.inr (by simp [Sys.set]))⟩
  | fork p | wait p | kill p pid =>
    simp only at h
    split_ifs at h with hp
    cases h
    exact ⟨p, .own _ rfl ⟨rfl, rfl, id⟩, .inr (.inl hp.2)⟩
  | sleep p c =>
    simp only at h
    split_ifs at h with hp
    cases h
    exact ⟨p, .own _ rfl ⟨rfl, rfl, fun hz => by cases hz⟩, .inr (.inl hp.2)⟩
  | exit p status =>
    simp only at h
    split_ifs at h with hp
    · cases h
      exact ⟨p, .own _ (update_eq_self p s.proc).symm (.refl _), .inr (.inr rfl)⟩
    · cases h
      exact ⟨p, .own _ rfl ⟨rfl, rfl, id⟩, .inr (.inl hp.2)⟩
  | run p ok =>
    simp only at h
    split_ifs at h with hrun
    exact ⟨p, run_effect hrun h, .inl ⟨hrun, ok, rfl⟩⟩

/-- The others stay where they are, but a new process starts. -/
theorem Sys.Effect.pc_of_ne (h : s.Effect p t) (hqp : q ≠ p) :
    (t.proc q).pc = (s.proc q).pc ∨ (s.proc q).state = .unused ∧ (t.proc q).pc = .user := by
  cases h with
  | own x eq => exact .inl (by rw [eq, update_of_ne hqp])
  | other r y x eq pc => exact .inl (by rw [eq, update_of_ne hqp, view_update Proc.pc q pc])
  | alloc r ok _ unused eq =>
    subst eq
    by_cases hqr : q = r
    · subst hqr
      cases ok with
      | true => exact .inr ⟨unused, by simp [Sys.alloc, Sys.goto, Sys.set, hqp]⟩
      | false => exact .inl (by simp [Sys.alloc, Sys.sysret, Sys.set, hqp, Proc.free])
    · left
      cases ok <;> simp [Sys.alloc, Sys.goto, Sys.sysret, Sys.set, hqp, hqr]
  | reap r _ eq =>
    subst eq
    simp only [Sys.reap, Sys.release, Sys.sysret, Sys.set, update_of_ne hqp]
    exact .inl (view_update Proc.pc q)
  | kill r pid kills =>
    rw [kills.2.2]
    simp only [Sys.sysret, Sys.set, update_of_ne hqp]
    exact .inl (view_update Proc.pc q)

end effects

end Xv6.ProcTable
