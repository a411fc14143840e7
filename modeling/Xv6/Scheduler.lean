import Xv6.Transition

/-!
# The scheduler on several CPUs

`scheduler`, `sched`, `swtch` and the sections of `yield`, `sleep`, `exit`, `wakeup`, `kill`, `fork`
and `wait` under the lock of a process. The lock belongs to a CPU, so that the scheduler can take it
before the switch and the process release it after, and the other way round. `ctx` is what a CPU
executes: the scheduler loop, or the kernel thread of a process. A section that takes and releases
the lock of another process is one step; who may wake, kill or wait for whom is left open, and so
are the locks that `sleep` gives up and the number of CPUs.
-/

namespace Xv6.Scheduler

open Transition Function

inductive PState
  | unused
  | used
  | sleeping
  | runnable
  | running
  | zombie
  deriving DecidableEq

inductive Leave
  | yield
  | sleep (chan : ℕ)
  | exit (status : ℤ)

inductive Pc
  /-- Switched out; its context is in `p->context`. -/
  | out
  /-- Switched to: in `forkret`, or after the `sched` of `yield` or `sleep`. -/
  | resumed
  | run
  /-- After `acquire(&p->lock)` in `yield`, `sleep` or `exit`. -/
  | locked (why : Leave)
  /-- In `sched`, after the state has been set. -/
  | marked

structure Proc where
  state : PState
  /-- The CPU that holds `p->lock`. -/
  lock : Option ℕ
  chan : Option ℕ
  killed : Bool
  xstate : ℤ
  pc : Pc

inductive Ctx (n : ℕ)
  /-- The loop of `scheduler`, at `acquire` for entry `i`. -/
  | scan (i : ℕ)
  | check (p : Fin n)
  /-- At `swtch`. -/
  | switch (p : Fin n)
  /-- After `swtch`. -/
  | back (p : Fin n)
  | thread (p : Fin n)

structure Cpu (n : ℕ) where
  proc : Option (Fin n)
  ctx : Ctx n

structure Sys (n : ℕ) where
  proc : Fin n → Proc
  cpu : ℕ → Cpu n
  /-- A test in `sched` has failed. -/
  panicked : Bool

namespace Sys

variable {n : ℕ} (s : Sys n) (c : ℕ) (p : Fin n)

def setProc (x : Proc) : Sys n := { s with proc := update s.proc p x }

def setCpu (x : Cpu n) : Sys n := { s with cpu := update s.cpu c x }

def scheduler : Option (Sys n) :=
  match (s.cpu c).ctx with
  | .thread _ => none
  | .scan i =>
    if h : i < n then
      if (s.proc ⟨i, h⟩).lock = none then
        some ((s.setProc ⟨i, h⟩ { s.proc ⟨i, h⟩ with lock := some c }).setCpu c
          { s.cpu c with ctx := .check ⟨i, h⟩ })
      else none
    else some (s.setCpu c { s.cpu c with ctx := .scan 0 })
  | .check p =>
    if (s.proc p).state = .runnable then
      some ((s.setProc p { s.proc p with state := .running }).setCpu c ⟨some p, .switch p⟩)
    else
      some ((s.setProc p { s.proc p with lock := none }).setCpu c
        { s.cpu c with ctx := .scan (p.val + 1) })
  | .switch p =>
    some ((s.setProc p { s.proc p with pc := .resumed }).setCpu c { s.cpu c with ctx := .thread p })
  | .back p =>
    some ((s.setProc p { s.proc p with lock := none }).setCpu c ⟨none, .scan (p.val + 1)⟩)

/-- The state that `yield`, `sleep` and `exit` set. -/
def mark (x : Proc) : Leave → Proc
  | .yield => { x with state := .runnable, pc := .marked }
  | .sleep chan => { x with state := .sleeping, chan := some chan, pc := .marked }
  | .exit status => { x with state := .zombie, xstate := status, pc := .marked }

def thread : Option (Sys n) :=
  match (s.proc p).pc with
  | .out | .run => none
  | .resumed => some (s.setProc p { s.proc p with lock := none, chan := none, pc := .run })
  | .locked why => some (s.setProc p (mark (s.proc p) why))
  | .marked =>
    if (s.proc p).lock = some c ∧ (s.proc p).state ≠ .running then
      some ((s.setProc p { s.proc p with pc := .out }).setCpu c { s.cpu c with ctx := .back p })
    else some { s with panicked := true }

/-- The process that CPU `c` executes calls `yield`, `sleep` or `exit`. -/
def leave (why : Leave) : Option (Sys n) :=
  match (s.proc p).pc with
  | .run =>
    if (s.proc p).lock = none then
      some (s.setProc p { s.proc p with lock := some c, pc := .locked why })
    else none
  | _ => none

def free (x : Proc) : Proc :=
  { x with chan := none, killed := false, xstate := 0, state := .unused }

end Sys

inductive Act (n : ℕ)
  | scheduler (c : ℕ)
  | thread (c : ℕ)
  | leave (c : ℕ) (why : Leave)
  | wakeup (chan : ℕ) (q : Fin n)
  | kill (q : Fin n)
  | fork (q : Fin n) (ok : Bool)
  | forkRunnable (q : Fin n)
  | wait (q : Fin n)

/-- The step calls `freeproc` on slot `q`: `wait` has found a zombie, or `fork` is out of memory. -/
def Act.frees {n : ℕ} : Act n → Fin n → Prop
  | .wait q, p => q = p
  | .fork q ok, p => q = p ∧ ok = false
  | _, _ => False

def step {n : ℕ} (s : Sys n) (a : Act n) : Option (Sys n) :=
  if s.panicked then none else
  match a with
  | .scheduler c => s.scheduler c
  | .thread c =>
    match (s.cpu c).ctx with
    | .thread p => s.thread c p
    | _ => none
  | .leave c why =>
    match (s.cpu c).ctx with
    | .thread p => s.leave c p why
    | _ => none
  | .wakeup chan q =>
    if (s.proc q).lock = none ∧ (s.proc q).state = .sleeping ∧ (s.proc q).chan = some chan then
      some (s.setProc q { s.proc q with state := .runnable })
    else none
  | .kill q =>
    if (s.proc q).lock = none then
      some (s.setProc q { s.proc q with
        killed := true
        state := if (s.proc q).state = .sleeping then .runnable else (s.proc q).state })
    else none
  | .fork q ok =>
    if (s.proc q).lock = none ∧ (s.proc q).state = .unused then
      if ok then some (s.setProc q { s.proc q with state := .used, pc := .out })
      else some (s.setProc q (Sys.free (s.proc q)))
    else none
  | .forkRunnable q =>
    if (s.proc q).lock = none ∧ (s.proc q).state = .used then
      some (s.setProc q { s.proc q with state := .runnable })
    else none
  | .wait q =>
    if (s.proc q).lock = none ∧ (s.proc q).state = .zombie then
      some (s.setProc q (Sys.free (s.proc q)))
    else none

def boot (n : ℕ) : Sys n where
  proc p := ⟨if p.val = 0 then .runnable else .unused, none, none, false, 0, .out⟩
  cpu _ := ⟨none, .scan 0⟩
  panicked := false

def ThreadOk (c : ℕ) (x : Proc) : Prop :=
  match x.pc with
  | .out => False
  | .resumed | .locked _ => x.lock = some c ∧ x.state = .running
  | .run => x.state = .running
  | .marked => x.lock = some c ∧ x.state ≠ .running

def CpuOk {n : ℕ} (s : Sys n) (c : ℕ) : Prop :=
  match (s.cpu c).ctx with
  | .scan _ => (s.cpu c).proc = none
  | .check p => (s.cpu c).proc = none ∧ (s.proc p).lock = some c
  | .switch p =>
    (s.cpu c).proc = some p ∧ (s.proc p).lock = some c ∧ (s.proc p).state = .running
  | .back p => (s.cpu c).proc = some p ∧ (s.proc p).lock = some c ∧ (s.proc p).state ≠ .running
  | .thread p => (s.cpu c).proc = some p ∧ ThreadOk c (s.proc p)

structure Inv {n : ℕ} (s : Sys n) : Prop where
  cpu : ∀ c, CpuOk s c
  unique : ∀ c c' p, (s.cpu c).proc = some p → (s.cpu c').proc = some p → c = c'
  running : ∀ p, (s.proc p).state = .running → ∃ c, (s.cpu c).proc = some p
  calm : s.panicked = false

section steps

variable {n : ℕ} {s t : Sys n} {c : ℕ} {p : Fin n}

theorem boot_inv (n : ℕ) : Inv (boot n) := by
  refine ⟨fun c => rfl, fun c c' p hp => absurd hp (by simp [boot]), fun p hp => ?_, rfl⟩
  simp only [boot] at hp
  split_ifs at hp

theorem CpuOk.busy (h : CpuOk s c) (hp : (s.cpu c).proc = some p) :
    (s.proc p).state = .running ∨ (s.proc p).lock = some c := by
  unfold CpuOk at h
  cases hctx : (s.cpu c).ctx with
  | scan | check => simp [hctx, hp] at h
  | switch q =>
    rw [hctx] at h
    obtain rfl : q = p := Option.some.inj (h.1.symm.trans hp)
    exact .inl h.2.2
  | back q =>
    rw [hctx] at h
    obtain rfl : q = p := Option.some.inj (h.1.symm.trans hp)
    exact .inr h.2.1
  | thread q =>
    rw [hctx] at h
    obtain rfl : q = p := Option.some.inj (h.1.symm.trans hp)
    have hthread := h.2
    unfold ThreadOk at hthread
    cases hpc : (s.proc q).pc with
    | out => simp [hpc] at hthread
    | resumed | locked | marked =>
      rw [hpc] at hthread
      exact .inr hthread.1
    | run =>
      rw [hpc] at hthread
      exact .inl hthread

theorem CpuOk.thread_proc (h : CpuOk s c) (hp : (s.cpu c).ctx = .thread p) :
    (s.cpu c).proc = some p ∧ ThreadOk c (s.proc p) := by
  unfold CpuOk at h
  rw [hp] at h
  exact h

/-- A step elsewhere: the CPU has not the lock of the slot that changes, and if it executes that
process, position and state stay. -/
theorem CpuOk.frame (h : CpuOk s c) (hcpu : t.cpu c = s.cpu c)
    (hother : ∀ q, q ≠ p → t.proc q = s.proc q) (hlock : (s.proc p).lock ≠ some c)
    (hthread : (s.cpu c).ctx = .thread p →
      (t.proc p).pc = (s.proc p).pc ∧ (t.proc p).state = (s.proc p).state) : CpuOk t c := by
  have hne {q : Fin n} (hq : (s.proc q).lock = some c) : q ≠ p := by
    rintro rfl
    exact hlock hq
  unfold CpuOk at h ⊢
  rw [hcpu]
  cases hctx : (s.cpu c).ctx with
  | scan i =>
    rw [hctx] at h
    exact h
  | check q =>
    rw [hctx] at h
    refine ⟨h.1, ?_⟩
    rw [hother q (hne h.2)]
    exact h.2
  | switch q | back q =>
    rw [hctx] at h
    refine ⟨h.1, ?_⟩
    rw [hother q (hne h.2.1)]
    exact h.2
  | thread q =>
    rw [hctx] at h
    refine ⟨h.1, ?_⟩
    by_cases hq : q = p
    · subst hq
      obtain ⟨hpc, hstate⟩ := hthread hctx
      have hold := h.2
      unfold ThreadOk at hold ⊢
      rw [hpc, hstate]
      cases hpcs : (s.proc q).pc with
      | out | run =>
        rw [hpcs] at hold
        exact hold
      | resumed | locked | marked =>
        rw [hpcs] at hold
        exact absurd hold.1 hlock
    · rw [hother q hq]
      exact h.2

theorem Inv.idle (h : Inv s) (hlock : (s.proc p).lock = none ∨ (s.proc p).lock = some c)
    (hstate : (s.proc p).state ≠ .running) {c' : ℕ} (hc : c' ≠ c) : (s.cpu c').proc ≠ some p := by
  intro hp
  rcases (h.cpu c').busy hp with hrun | hheld
  · exact hstate hrun
  · rcases hlock with hnone | hmine
    · rw [hheld] at hnone
      cases hnone
    · rw [hheld] at hmine
      exact hc (Option.some.inj hmine)

/-- A step of CPU `c` on slot `p`, whose lock is free or its own. -/
theorem Inv.update (h : Inv s) {x : Proc} {y : Cpu n}
    (hlock : (s.proc p).lock = none ∨ (s.proc p).lock = some c)
    (hok : CpuOk ((s.setProc p x).setCpu c y) c)
    (hthread : ∀ c', c' ≠ c → (s.cpu c').proc = some p → x.pc = (s.proc p).pc ∧
      x.state = (s.proc p).state)
    (hnew : ∀ q, y.proc = some q → (s.cpu c).proc = some q ∨ ∀ c', c' ≠ c →
      (s.cpu c').proc ≠ some q)
    (hrun : x.state = .running → y.proc = some p ∨ ∃ c', c' ≠ c ∧ (s.cpu c').proc = some p)
    (hkeep : ∀ q, q ≠ p → (s.cpu c).proc = some q → y.proc = some q) :
    Inv ((s.setProc p x).setCpu c y) := by
  have hcpu {c' : ℕ} (hc : c' ≠ c) : ((s.setProc p x).setCpu c y).cpu c' = s.cpu c' := by
    simp [Sys.setCpu, Sys.setProc, hc]
  have hself : ((s.setProc p x).setCpu c y).cpu c = y := by simp [Sys.setCpu]
  have hother {q : Fin n} (hq : q ≠ p) : ((s.setProc p x).setCpu c y).proc q = s.proc q := by
    simp [Sys.setCpu, Sys.setProc, hq]
  have hslot : ((s.setProc p x).setCpu c y).proc p = x := by simp [Sys.setCpu, Sys.setProc]
  constructor
  · intro c'
    by_cases hc : c' = c
    · subst hc
      exact hok
    · refine (h.cpu c').frame (hcpu hc) (fun q hq => hother hq) ?_ fun hctx => ?_
      · rcases hlock with hnone | hmine
        · rw [hnone]
          exact (Option.some_ne_none c').symm
        · rw [hmine]
          exact fun heq => hc (Option.some.inj heq).symm
      · rw [hslot]
        exact hthread c' hc ((h.cpu c').thread_proc hctx).1
  · have hsole {c' q} (hc : c' ≠ c) (hq : y.proc = some q) (hq' : (s.cpu c').proc = some q) :
        False := by
      rcases hnew q hq with hold | hnone
      · exact hc (h.unique c' c q hq' hold)
      · exact hnone c' hc hq'
    intro c₁ c₂ q h₁ h₂
    by_cases hc₁ : c₁ = c
    · by_cases hc₂ : c₂ = c
      · rw [hc₁, hc₂]
      · rw [hc₁, hself] at h₁
        rw [hcpu hc₂] at h₂
        exact (hsole hc₂ h₁ h₂).elim
    · rw [hcpu hc₁] at h₁
      by_cases hc₂ : c₂ = c
      · rw [hc₂, hself] at h₂
        exact (hsole hc₁ h₂ h₁).elim
      · rw [hcpu hc₂] at h₂
        exact h.unique c₁ c₂ q h₁ h₂
  · intro q hq
    by_cases hqp : q = p
    · subst hqp
      rw [hslot] at hq
      rcases hrun hq with hy | ⟨c', hc, hc'⟩
      · exact ⟨c, by rw [hself, hy]⟩
      · exact ⟨c', by rw [hcpu hc, hc']⟩
    · rw [hother hqp] at hq
      obtain ⟨c', hc'⟩ := h.running q hq
      by_cases hc : c' = c
      · subst hc
        exact ⟨c', by rw [hself, hkeep q hqp hc']⟩
      · exact ⟨c', by rw [hcpu hc, hc']⟩
  · exact h.calm

theorem Inv.setProc (h : Inv s) {x : Proc} (hlock : (s.proc p).lock = none)
    (hsame : (s.proc p).state = .running → x.pc = (s.proc p).pc ∧ x.state = (s.proc p).state)
    (hrun : x.state = .running → (s.proc p).state = .running) : Inv (s.setProc p x) := by
  have hother {q : Fin n} (hq : q ≠ p) : (s.setProc p x).proc q = s.proc q := by
    simp [Sys.setProc, hq]
  have hslot : (s.setProc p x).proc p = x := by simp [Sys.setProc]
  refine ⟨fun c => ?_, h.unique, fun q hq => ?_, h.calm⟩
  · have hne : (s.proc p).lock ≠ some c := by
      rw [hlock]
      exact (Option.some_ne_none c).symm
    refine (h.cpu c).frame rfl (fun q hq => hother hq) hne fun hctx => ?_
    have hproc := ((h.cpu c).thread_proc hctx).1
    have hstate := ((h.cpu c).busy hproc).resolve_right hne
    rw [hslot]
    exact hsame hstate
  · by_cases hqp : q = p
    · subst hqp
      rw [hslot] at hq
      exact h.running q (hrun hq)
    · rw [hother hqp] at hq
      exact h.running q hq

theorem Inv.update_own (h : Inv s) {x : Proc} {y : Cpu n}
    (hlock : (s.proc p).lock = none ∨ (s.proc p).lock = some c) (hp : (s.cpu c).proc = some p)
    (hy : y.proc = some p)
    (hok : CpuOk ((s.setProc p x).setCpu c y) c) : Inv ((s.setProc p x).setCpu c y) := by
  refine h.update hlock hok (fun c' hc hc' => ?_) (fun q hq => .inl ?_) (fun _ => .inl hy)
    fun q hq hcq => ?_
  · exact absurd (h.unique c' c p hc' hp) hc
  · rw [hp, ← hy, hq]
  · rw [hp] at hcq
    exact absurd (Option.some.inj hcq).symm hq

theorem Inv.update_lock (h : Inv s) {l : Option ℕ} {ctx : Ctx n}
    (hlock : (s.proc p).lock = none ∨ (s.proc p).lock = some c)
    (hok : CpuOk
      ((s.setProc p { s.proc p with lock := l }).setCpu c { s.cpu c with ctx := ctx }) c) :
    Inv ((s.setProc p { s.proc p with lock := l }).setCpu c { s.cpu c with ctx := ctx }) := by
  refine h.update hlock hok (fun c' hc hc' => ⟨rfl, rfl⟩) (fun q hq => .inl hq) (fun hrun => ?_)
    fun q _ hq => hq
  obtain ⟨c', hc'⟩ := h.running p hrun
  by_cases hc : c' = c
  · subst hc
    exact .inl hc'
  · exact .inr ⟨c', hc, hc'⟩

theorem Inv.rescan (h : Inv s) (hc : (s.cpu c).proc = none) :
    Inv (s.setCpu c { s.cpu c with ctx := .scan 0 }) := by
  have hproc (c' : ℕ) : ((s.setCpu c { s.cpu c with ctx := .scan 0 }).cpu c').proc =
    (s.cpu c').proc := by
    by_cases hcc : c' = c
    · subst hcc
      simp [Sys.setCpu]
    · simp [Sys.setCpu, hcc]
  refine ⟨fun c' => ?_, fun c₁ c₂ p => ?_, fun p hp => ?_, h.calm⟩
  · by_cases hcc : c' = c
    · subst hcc
      simpa [CpuOk, Sys.setCpu] using hc
    · simpa [CpuOk, Sys.setCpu, hcc] using h.cpu c'
  · rw [hproc, hproc]
    exact h.unique c₁ c₂ p
  · obtain ⟨c', hc'⟩ := h.running p hp
    exact ⟨c', by rw [hproc, hc']⟩

theorem Inv.scheduler (h : Inv s) (hs : s.scheduler c = some t) : Inv t := by
  have hcpu := h.cpu c
  unfold CpuOk at hcpu
  unfold Sys.scheduler at hs
  cases hctx : (s.cpu c).ctx with
  | thread p =>
    simp only [hctx] at hs
    cases hs
  | scan i =>
    simp only [hctx] at hs hcpu
    split_ifs at hs with hi hfree
    · cases hs
      apply h.update_lock (.inl hfree)
      simpa [CpuOk, Sys.setCpu, Sys.setProc] using hcpu
    · cases hs
      exact h.rescan hcpu
  | check p =>
    simp only [hctx] at hs hcpu
    split_ifs at hs with hstate
    · cases hs
      have hne : (s.proc p).state ≠ .running := by
        rw [hstate]
        decide
      refine h.update (.inr hcpu.2) ?_ (fun c' hc hc' => ?_) (fun q hq => .inr fun c' hc => ?_)
        (fun _ => .inl rfl) fun q _ hq => ?_
      · simp [CpuOk, Sys.setCpu, Sys.setProc, hcpu.2]
      · exact absurd hc' (h.idle (.inr hcpu.2) hne hc)
      · cases hq
        exact h.idle (.inr hcpu.2) hne hc
      · rw [hcpu.1] at hq
        cases hq
    · cases hs
      apply h.update_lock (.inr hcpu.2)
      simpa [CpuOk, Sys.setCpu, Sys.setProc] using hcpu.1
  | switch p =>
    simp only [hctx] at hs hcpu
    cases hs
    refine h.update_own (.inr hcpu.2.1) hcpu.1 (y := ⟨(s.cpu c).proc, .thread p⟩) hcpu.1 ?_
    simpa [CpuOk, ThreadOk, Sys.setCpu, Sys.setProc] using hcpu
  | back p =>
    simp only [hctx] at hs hcpu
    cases hs
    refine h.update (.inr hcpu.2.1) ?_ (fun c' hc hc' => ⟨rfl, rfl⟩) (fun q hq => nomatch hq)
      (fun hrun => absurd hrun hcpu.2.2) fun q hq hcq => ?_
    · simp [CpuOk, Sys.setCpu]
    · rw [hcpu.1] at hcq
      exact absurd (Option.some.inj hcq).symm hq

theorem setCpu_self (s : Sys n) (p : Fin n) (x : Proc) (c : ℕ) :
    (s.setProc p x).setCpu c (s.cpu c) = s.setProc p x := by
  simp [Sys.setCpu, Sys.setProc, update_eq_self]

theorem Inv.thread (h : Inv s) (hctx : (s.cpu c).ctx = .thread p) (hs : s.thread c p = some t) :
    Inv t := by
  obtain ⟨hproc, hthread⟩ := (h.cpu c).thread_proc hctx
  unfold ThreadOk at hthread
  unfold Sys.thread at hs
  cases hpc : (s.proc p).pc with
  | out | run =>
    simp only [hpc] at hs
    cases hs
  | resumed =>
    simp only [hpc] at hs hthread
    cases hs
    rw [← setCpu_self s p _ c]
    apply h.update_own (.inr hthread.1) hproc hproc
    simpa [CpuOk, ThreadOk, Sys.setCpu, Sys.setProc, hctx, hproc] using hthread.2
  | locked why =>
    simp only [hpc] at hs hthread
    cases hs
    rw [← setCpu_self s p _ c]
    apply h.update_own (.inr hthread.1) hproc hproc
    cases why <;> simpa [CpuOk, ThreadOk, Sys.setCpu, Sys.setProc, hctx, hproc, Sys.mark] using
      hthread.1
  | marked =>
    simp only [hpc] at hs hthread
    rw [if_pos hthread] at hs
    cases hs
    refine h.update_own (.inr hthread.1) hproc (y := ⟨(s.cpu c).proc, .back p⟩) hproc ?_
    simpa [CpuOk, Sys.setCpu, Sys.setProc, hproc] using hthread

theorem Inv.leave (h : Inv s) (hctx : (s.cpu c).ctx = .thread p) {why : Leave}
    (hs : s.leave c p why = some t) : Inv t := by
  obtain ⟨hproc, hthread⟩ := (h.cpu c).thread_proc hctx
  unfold ThreadOk at hthread
  unfold Sys.leave at hs
  cases hpc : (s.proc p).pc with
  | out | resumed | locked | marked =>
    simp only [hpc] at hs
    cases hs
  | run =>
    simp only [hpc] at hs hthread
    split_ifs at hs with hfree
    cases hs
    rw [← setCpu_self s p _ c]
    apply h.update_own (.inl hfree) hproc hproc
    simpa [CpuOk, ThreadOk, Sys.setCpu, Sys.setProc, hctx, hproc] using hthread

theorem Inv.next (h : Inv s) {a : Act n} (hs : step s a = some t) : Inv t := by
  unfold step at hs
  rw [if_neg (by rw [h.calm]; decide)] at hs
  cases a with
  | scheduler c => exact h.scheduler hs
  | thread c =>
    simp only at hs
    split at hs
    · next hctx => exact h.thread hctx hs
    · cases hs
  | leave c why =>
    simp only at hs
    split at hs
    · next hctx => exact h.leave hctx hs
    · cases hs
  | wakeup chan q =>
    simp only at hs
    split_ifs at hs with hq
    cases hs
    exact h.setProc hq.1 (fun hrun => by simp [hq.2.1] at hrun) fun hrun => nomatch hrun
  | kill q =>
    simp only at hs
    by_cases hq : (s.proc q).lock = none
    · rw [if_pos hq] at hs
      cases hs
      refine h.setProc hq (fun hrun => ⟨rfl, by simp [hrun]⟩) fun hrun => ?_
      simp only at hrun
      split_ifs at hrun with hsleep
      exact hrun
    · rw [if_neg hq] at hs
      cases hs
  | fork q ok =>
    simp only at hs
    split_ifs at hs with hq hok
    all_goals
      cases hs
      exact h.setProc hq.1 (fun hrun => by simp [hq.2] at hrun) fun hrun => nomatch hrun
  | forkRunnable q | wait q =>
    simp only at hs
    split_ifs at hs with hq
    cases hs
    exact h.setProc hq.1 (fun hrun => by simp [hq.2] at hrun) fun hrun => nomatch hrun

theorem Inv.free_idle (h : Inv s) {a : Act n} (hs : step s a = some t) (ha : a.frees p) (c : ℕ) :
    (s.cpu c).ctx ≠ .thread p := by
  have hfree : (s.proc p).lock = none ∧ (s.proc p).state ≠ .running := by
    unfold step at hs
    rw [if_neg (by rw [h.calm]; decide)] at hs
    cases a with
    | scheduler | thread | leave | wakeup | kill | forkRunnable => exact ha.elim
    | fork q ok =>
      obtain ⟨rfl, -⟩ := ha
      simp only at hs
      split_ifs at hs with hq
      · exact ⟨hq.1, by rw [hq.2]; decide⟩
      · exact ⟨hq.1, by rw [hq.2]; decide⟩
    | wait q =>
      obtain rfl := ha
      simp only at hs
      split_ifs at hs with hq
      exact ⟨hq.1, by rw [hq.2]; decide⟩
  intro hctx
  exact h.idle (c := c + 1) (.inl hfree.1) hfree.2 (Nat.succ_ne_self c).symm
    ((h.cpu c).thread_proc hctx).1

end steps

/-- In every state of every run on any number of CPUs: no process is executed by two CPUs, a running
process is the one of exactly one CPU, the tests in `sched` succeed, and `freeproc` never runs on a
process that some CPU is executing. -/
theorem scheduling_exclusive {n : ℕ} {as : List (Act n)} {s : Sys n}
    (hrun : run step (boot n) as = some s) :
    (∀ c c' p, (s.cpu c).ctx = .thread p → (s.cpu c').ctx = .thread p → c = c') ∧
    (∀ p, (s.proc p).state = .running → ∃! c, (s.cpu c).proc = some p) ∧ s.panicked = false ∧
    ∀ a t p, step s a = some t → a.frees p → ∀ c, (s.cpu c).ctx ≠ .thread p := by
  have hinv : Inv s := run_invariant_all (fun _ _ _ hI hs => hI.next hs) (boot_inv n) hrun
  refine ⟨fun c c' p hc hc' => ?_, fun p hp => ?_, hinv.calm,
    fun a t p hs ha c => hinv.free_idle hs ha c⟩
  · exact hinv.unique c c' p ((hinv.cpu c).thread_proc hc).1 ((hinv.cpu c').thread_proc hc').1
  · obtain ⟨c, hc⟩ := hinv.running p hp
    exact ⟨c, hc, fun c' hc' => hinv.unique c' c p hc' hc⟩

def yieldAcross : List (Act 2) :=
  [.scheduler 0, .scheduler 0, .scheduler 0, .thread 0, .leave 0 .yield, .thread 0, .thread 0,
    .scheduler 0, .scheduler 1, .scheduler 1, .scheduler 1]

theorem scheduling_exclusive_yieldAcross :
    ∃ s, run step (boot 2) yieldAcross = some s ∧ (s.proc 0).state = .running ∧
      ∃! c, (s.cpu c).proc = some 0 := by
  have hrun : (run step (boot 2) yieldAcross).elim false
      (fun s => decide ((s.proc 0).state = .running)) = true := by decide +kernel
  obtain ⟨s, hs, hd⟩ := exists_of_elim hrun
  have hstate := of_decide_eq_true hd
  exact ⟨s, hs, hstate, (scheduling_exclusive hs).2.1 0 hstate⟩

end Xv6.Scheduler
