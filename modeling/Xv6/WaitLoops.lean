import Xv6.Transition

/-!
# Killing a process in a wait loop

The loops of `piperead`, `pipewrite`, `consoleread`, `wait` and `sys_sleep` have one shape: under
the loop's lock, test whether to wait, test `killed`, and sleep. `killed` is a section of its own
under the lock of the process, so `kill` can come between this test and `sleep`. `Loop` is the shape
and the five calls are instances. The machine has one victim; the other processes change the shared
data while the victim does not hold the loop's lock, wake it up, and kill it.
-/

namespace Xv6.WaitLoops

open Transition

/-- The data that the loops test. `zombie` and `havekids` say what the scan of `wait` finds. -/
structure Shared where
  nread : BitVec 32
  nwrite : BitVec 32
  readopen : Bool
  writeopen : Bool
  consR : BitVec 32
  consW : BitVec 32
  ticks : BitVec 32
  zombie : Bool
  havekids : Bool

structure Locals where
  n : ℤ
  i : ℕ
  ticks0 : BitVec 32

structure Loop where
  /-- The condition under which the loop comes to the test of `killed`. -/
  waits : Shared → Locals → Bool
  /-- What else ends the call at that test. -/
  stops : Shared → Bool
  /-- Whether the loop sleeps after the test. -/
  sleeps : Shared → Bool
  /-- What it does otherwise. -/
  body : Shared → Locals → Shared × Locals

def pipesize : ℕ := 512

def piperead : Loop where
  waits d _ := decide (d.nread = d.nwrite) && d.writeopen
  stops _ := false
  sleeps _ := true
  body d l := (d, l)

def pipewrite : Loop where
  waits _ l := decide ((l.i : ℤ) < l.n)
  stops d := !d.readopen
  sleeps d := decide (d.nwrite = d.nread + BitVec.ofNat 32 pipesize)
  body d l := ({ d with nwrite := d.nwrite + 1 }, { l with i := l.i + 1 })

def consoleread : Loop where
  waits d _ := decide (d.consR = d.consW)
  stops _ := false
  sleeps _ := true
  body d l := (d, l)

def wait : Loop where
  waits d _ := !d.zombie
  stops d := !d.havekids
  sleeps _ := true
  body d l := (d, l)

def sysSleep : Loop where
  waits d l := (d.ticks - l.ticks0).ult (BitVec.ofInt 32 l.n)
  stops _ := false
  sleeps _ := true
  body d l := (d, l)

inductive Call
  | piperead
  | pipewrite
  | consoleread
  | wait
  | sleep
  deriving DecidableEq

def Call.loop : Call → Loop
  | .piperead => WaitLoops.piperead
  | .pipewrite => WaitLoops.pipewrite
  | .consoleread => WaitLoops.consoleread
  | .wait => WaitLoops.wait
  | .sleep => WaitLoops.sysSleep

inductive PState
  | runnable
  | running
  | sleeping
  deriving DecidableEq

inductive Pc
  /-- Outside the loop. -/
  | left
  /-- At the `acquire` of the loop's lock, before the loop or at the end of `sleep`. -/
  | lock
  /-- At the condition of the loop. -/
  | head
  /-- At `killed`. -/
  | test
  /-- After `killed` has returned 0. -/
  | tested
  /-- In `sleep`, at `acquire(&p->lock)`. -/
  | sleepLock
  /-- In `sleep`, with both locks. -/
  | mark
  /-- In `sched`; the scheduler has not yet released the lock of the process. -/
  | switching
  | asleep
  /-- Back from `sched`, with the lock of the process. -/
  | woken
  deriving DecidableEq

namespace Pc

def locked : Pc → Bool
  | head | test | tested | sleepLock | mark => true
  | _ => false

def holds : Pc → Bool
  | mark | switching | woken => true
  | _ => false

end Pc

structure Sys where
  shared : Shared
  vars : Locals
  pc : Pc
  state : PState
  killed : Bool
  /-- The calls of `kill` that have found the victim and not yet returned. -/
  killers : ℕ
  /-- A call of `kill` has returned 0. -/
  returned : Bool

/-- Between the test of `killed` and the lock that `sleep` takes, when the loop is going to
sleep. -/
def Sys.exposed (L : Loop) (s : Sys) : Bool :=
  match s.pc with
  | .tested => L.sleeps s.shared
  | .sleepLock => true
  | _ => false

/-- The next step of the victim; `ok` says whether the copy of a byte succeeds. -/
def Sys.run (L : Loop) (s : Sys) (ok : Bool) : Option Sys :=
  match s.pc with
  | .left | .switching | .asleep => none
  | .lock => some { s with pc := .head }
  | .head => some { s with pc := if L.waits s.shared s.vars then .test else .left }
  | .test =>
    some { s with pc := if L.stops s.shared = true ∨ s.killed = true then .left else .tested }
  | .tested =>
    if L.sleeps s.shared then some { s with pc := .sleepLock }
    else if ok then
      some { s with
        shared := (L.body s.shared s.vars).1, vars := (L.body s.shared s.vars).2, pc := .head }
    else some { s with pc := .left }
  | .sleepLock => some { s with pc := .mark }
  | .mark => some { s with pc := .switching, state := .sleeping }
  | .woken => some { s with pc := .lock }

inductive Act
  | run (ok : Bool)
  | call (l : Locals)
  | switched
  | sched
  | wakeup
  | kill
  | killReturn
  | others (d : Shared)

def step (L : Loop) (s : Sys) : Act → Option Sys
  | .run ok => if s.state = .running then s.run L ok else none
  | .call l =>
    if s.state = .running ∧ s.pc = .left then some { s with pc := .lock, vars := l } else none
  | .switched => if s.pc = .switching then some { s with pc := .asleep } else none
  | .sched =>
    if s.state = .runnable ∧ s.pc.holds = false then
      some { s with state := .running, pc := if s.pc = .asleep then .woken else s.pc }
    else none
  | .wakeup =>
    if s.state = .sleeping ∧ s.pc.holds = false then some { s with state := .runnable } else none
  | .kill =>
    if s.pc.holds = false then
      some { s with
        killed := true
        state := if s.state = .sleeping then .runnable else s.state
        killers := s.killers + 1 }
    else none
  | .killReturn =>
    if 0 < s.killers then some { s with killers := s.killers - 1, returned := true } else none
  | .others d => if s.pc.locked = false then some { s with shared := d } else none

def enter (d : Shared) (l : Locals) : Sys := ⟨d, l, .lock, .running, false, 0, false⟩

/-- No call of `kill` finds the victim on its way from the test of `killed` to the lock that `sleep`
takes. -/
def Unexposed (L : Loop) (s : Sys) (a : Act) : Prop :=
  match a with
  | .kill => s.exposed L = false
  | _ => True

instance (L : Loop) (s : Sys) (a : Act) : Decidable (Unexposed L s a) := by
  unfold Unexposed
  split <;> infer_instance

structure Inv (L : Loop) (s : Sys) : Prop where
  killed : s.killed = true → s.exposed L = false ∧ s.pc ≠ .mark ∧ s.state ≠ .sleeping
  hit : 0 < s.killers ∨ s.returned = true → s.killed = true
  asleep : s.state = .sleeping → s.pc = .switching ∨ s.pc = .asleep

section steps

variable {L : Loop} {s t : Sys}

theorem Sys.exposed_of_unlocked (h : s.pc.locked = false) : s.exposed L = false := by
  unfold exposed
  split <;> simp_all [Pc.locked]

theorem Inv.turn (h : Inv L s) {ok : Bool} (hrun : s.state = .running) (hs : s.run L ok = some t) :
    Inv L t := by
  have hawake : s.state ≠ .sleeping := by
    rw [hrun]
    decide
  cases hpc : s.pc with
  | left | switching | asleep =>
    simp only [Sys.run, hpc] at hs
    cases hs
  | lock | woken =>
    simp only [Sys.run, hpc] at hs
    cases hs
    exact ⟨fun _ => ⟨rfl, Pc.noConfusion, hawake⟩, h.hit, fun hz => absurd hz hawake⟩
  | head =>
    simp only [Sys.run, hpc] at hs
    split_ifs at hs
    all_goals
      cases hs
      exact ⟨fun _ => ⟨rfl, Pc.noConfusion, hawake⟩, h.hit, fun hz => absurd hz hawake⟩
  | test =>
    simp only [Sys.run, hpc] at hs
    split_ifs at hs with hleave
    · cases hs
      exact ⟨fun _ => ⟨rfl, Pc.noConfusion, hawake⟩, h.hit, fun hz => absurd hz hawake⟩
    · cases hs
      -- the test has not seen the flag
      exact ⟨fun hk => absurd (.inr hk) hleave, h.hit, fun hz => absurd hz hawake⟩
  | tested =>
    simp only [Sys.run, hpc] at hs
    split_ifs at hs with hsleep
    · cases hs
      refine ⟨fun hk => ?_, h.hit, fun hz => absurd hz hawake⟩
      have hexp := (h.killed hk).1
      simp only [Sys.exposed, hpc, hsleep] at hexp
      cases hexp
    all_goals
      cases hs
      exact ⟨fun _ => ⟨rfl, Pc.noConfusion, hawake⟩, h.hit, fun hz => absurd hz hawake⟩
  | sleepLock =>
    simp only [Sys.run, hpc] at hs
    cases hs
    refine ⟨fun hk => ?_, h.hit, fun hz => absurd hz hawake⟩
    have hexp := (h.killed hk).1
    simp only [Sys.exposed, hpc] at hexp
    cases hexp
  | mark =>
    have hunkilled : s.killed ≠ true := fun hk => (h.killed hk).2.1 hpc
    simp only [Sys.run, hpc] at hs
    cases hs
    exact ⟨fun hk => absurd hk hunkilled, h.hit, fun _ => .inl rfl⟩

theorem Inv.next (h : Inv L s) {a : Act} (ha : Unexposed L s a) (hs : step L s a = some t) :
    Inv L t := by
  cases a with
  | run ok =>
    simp only [step] at hs
    split_ifs at hs with hrun
    exact h.turn hrun hs
  | call l =>
    simp only [step] at hs
    split_ifs at hs with hp
    cases hs
    refine ⟨fun _ => ⟨rfl, Pc.noConfusion, ?_⟩, h.hit, fun hz => ?_⟩
    · simp [hp.1]
    · simp [hp.1] at hz
  | switched =>
    simp only [step] at hs
    split_ifs at hs
    cases hs
    exact ⟨fun hk => ⟨rfl, Pc.noConfusion, (h.killed hk).2.2⟩, h.hit, fun _ => .inr rfl⟩
  | sched =>
    simp only [step] at hs
    split_ifs at hs with hp hasleep
    · cases hs
      exact ⟨fun _ => ⟨rfl, Pc.noConfusion, PState.noConfusion⟩, h.hit, fun hz => nomatch hz⟩
    · cases hs
      exact ⟨fun hk => ⟨(h.killed hk).1, (h.killed hk).2.1, PState.noConfusion⟩, h.hit,
        fun hz => nomatch hz⟩
  | wakeup =>
    simp only [step] at hs
    split_ifs at hs
    cases hs
    exact ⟨fun hk => ⟨(h.killed hk).1, (h.killed hk).2.1, PState.noConfusion⟩, h.hit,
      fun hz => nomatch hz⟩
  | kill =>
    simp only [step] at hs
    by_cases hp : s.pc.holds = false
    · rw [if_pos hp] at hs
      cases hs
      have hmark : s.pc ≠ .mark := by
        intro hm
        rw [hm] at hp
        cases hp
      have hawake : (if s.state = .sleeping then PState.runnable else s.state) ≠ .sleeping := by
        split_ifs with hz
        · decide
        · exact hz
      exact ⟨fun _ => ⟨ha, hmark, hawake⟩, fun _ => rfl, fun hz => absurd hz hawake⟩
    · rw [if_neg hp] at hs
      cases hs
  | killReturn =>
    simp only [step] at hs
    split_ifs at hs with hpos
    cases hs
    exact ⟨h.killed, fun _ => h.hit (.inl hpos), h.asleep⟩
  | others d =>
    simp only [step] at hs
    split_ifs at hs with hfree
    cases hs
    exact ⟨fun hk => ⟨Sys.exposed_of_unlocked hfree, (h.killed hk).2⟩, h.hit, h.asleep⟩

end steps

/-- In every run in which no call of `kill` finds the victim on its way from the test of `killed` to
the lock that `sleep` takes, the victim never sleeps in one of the loops after such a call has
returned. -/
theorem kill_not_lost (c : Call) (d : Shared) (l : Locals) {as : List Act} {s : Sys}
    (hC : Along (step c.loop) (Unexposed c.loop) (enter d l) as)
    (hrun : run (step c.loop) (enter d l) as = some s) :
    s.returned = true → s.pc ≠ .left → s.state ≠ .sleeping := by
  have hstart : Inv c.loop (enter d l) :=
    ⟨fun hk => absurd hk (by simp [enter]), fun hk => absurd hk (by simp [enter]),
      fun hz => absurd hz (by simp [enter])⟩
  have hinv : Inv c.loop s := run_invariant (fun _ _ _ hI ha hs => hI.next ha hs) hstart hC hrun
  exact fun hret _ => (hinv.killed (hinv.hit (.inr hret))).2.2

/-- Data with which the loop of the call waits: a full pipe for `pipewrite` and an empty one for the
others, no console input, no tick, and a child that has not exited. -/
def blocked (c : Call) : Shared :=
  ⟨0, if c = .pipewrite then 512 else 0, true, true, 0, 0, 0, false, true⟩

def killAsleep : List Act :=
  List.replicate 6 (.run true) ++ [.switched, .kill, .killReturn]

theorem kill_not_lost_killAsleep :
    ∃ s, run (step Call.piperead.loop) (enter (blocked .piperead) ⟨1, 0, 0⟩)
      killAsleep = some s ∧ s.returned = true ∧ s.pc = .asleep ∧ s.state ≠ .sleeping := by
  have hrun : (run (step Call.piperead.loop) (enter (blocked .piperead) ⟨1, 0, 0⟩)
      killAsleep).elim false (fun s => decide (s.returned = true ∧ s.pc = .asleep)) =
      true := by decide +kernel
  obtain ⟨s, hs, hd⟩ := exists_of_elim hrun
  obtain ⟨hret, hpc⟩ := of_decide_eq_true hd
  exact ⟨s, hs, hret, hpc, kill_not_lost .piperead _ _ (by decide +kernel) hs hret
    (by rw [hpc]; decide)⟩

def killExposed : List Act :=
  List.replicate 3 (.run true) ++ [.kill, .killReturn] ++ List.replicate 3 (.run true)

/-- In each of the five loops the victim can be asleep after `kill` has returned 0. -/
theorem kill_lost_in_every_loop : ∃ s : Call → Sys, ∀ c,
    run (step c.loop) (enter (blocked c) ⟨1, 0, 0⟩) killExposed =
      some (s c) ∧ (s c).returned = true ∧ (s c).pc ≠ .left ∧ (s c).state = .sleeping := by
  have hsleeps (c : Call) : ∃ s, run (step c.loop) (enter (blocked c) ⟨1, 0, 0⟩) killExposed =
      some s ∧ s.returned = true ∧ s.pc ≠ .left ∧ s.state = .sleeping := by
    have hrun : (run (step c.loop) (enter (blocked c) ⟨1, 0, 0⟩) killExposed).elim false
        (fun s => decide (s.returned = true ∧ s.pc ≠ .left ∧ s.state = .sleeping)) = true := by
      cases c <;> decide +kernel
    obtain ⟨s, hs, hd⟩ := exists_of_elim hrun
    exact ⟨s, hs, of_decide_eq_true hd⟩
  exact ⟨fun c => (hsleeps c).choose, fun c => (hsleeps c).choose_spec⟩

end Xv6.WaitLoops
