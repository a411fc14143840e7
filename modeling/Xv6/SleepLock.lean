import Xv6.Transition

/-!
# Sleep locks

`acquiresleep` and `releasesleep` on one lock, down to the spinlocks: `sleep` takes the lock of the
process before it gives up `lk->lk`, keeps it while it marks itself sleeping, and the scheduler
releases it after the switch; `wakeup` visits the processes one by one under their locks. A section
under one process's lock that does nothing else is one step. The position of a process tells which
locks it holds: its own lock from `sleepRelease` to `switching` and at `woken`. `kill` may wake a
sleeper at any moment, and a process that holds no spinlock may be preempted.
-/

namespace Xv6.SleepLock

open Transition Function

inductive PState
  | runnable
  | running
  | sleeping
  deriving DecidableEq

inductive Pc
  | user
  /-- At `acquire(&lk->lk)` of `acquiresleep` or, after waking up, of `sleep`. -/
  | acquire
  /-- At the loop of `acquiresleep`. -/
  | test
  /-- In `sleep`, at `acquire(&p->lock)`. -/
  | sleepLock
  | sleepRelease
  /-- In `sleep`, before the process is marked. -/
  | sleepMark
  /-- In `sched`; the scheduler has not yet released the lock of the process. -/
  | switching
  | asleep
  /-- Back from `sched`, with the lock of the process. -/
  | woken
  | taken
  /-- After `acquiresleep` has returned. -/
  | critical
  /-- At `acquire(&lk->lk)` of `releasesleep`. -/
  | release
  | clear
  | wakeup (j : ℕ)
  deriving DecidableEq

namespace Pc

/-- The process holds `lk->lk`. -/
def spins : Pc → Bool
  | test | sleepLock | sleepRelease | taken | clear | wakeup _ => true
  | _ => false

def holds : Pc → Bool
  | sleepRelease | sleepMark | switching | woken => true
  | _ => false

def owns : Pc → Bool
  | taken | critical | release | clear => true
  | _ => false

def waits : Pc → Bool
  | sleepLock | sleepRelease => true
  | _ => false

attribute [simp] spins owns waits

end Pc

structure Proc where
  pc : Pc
  state : PState
  /-- The channel of the process is the lock. -/
  chan : Bool
  killed : Bool

structure Sys (n : ℕ) where
  proc : Fin n → Proc
  lk : Option (Fin n)
  locked : Bool
  pid : Option (Fin n)

namespace Sys

variable {n : ℕ} (s : Sys n) (p : Fin n)

def set (x : Proc) : Sys n := { s with proc := update s.proc p x }

def goto (pc : Pc) : Sys n := s.set p { s.proc p with pc := pc }

def acquire (pc : Pc) : Option (Sys n) :=
  if s.lk = none then some { s.goto p pc with lk := some p } else none

def release (pc : Pc) : Sys n := { s.goto p pc with lk := none }

/-- What `wakeup` and `kill` do to a sleeper. -/
def wake (q : Fin n) : Sys n :=
  if (s.proc q).state = .sleeping ∧ (s.proc q).chan = true then
    s.set q { s.proc q with state := .runnable }
  else s

def run : Pc → Option (Sys n)
  | .user | .critical | .switching | .asleep => none
  | .acquire => s.acquire p .test
  | .test =>
    if s.locked then some (s.goto p .sleepLock)
    else some { s.goto p .taken with locked := true, pid := some p }
  | .sleepLock => some (s.goto p .sleepRelease)
  | .sleepRelease => some (s.release p .sleepMark)
  | .sleepMark =>
    some (s.set p { s.proc p with pc := .switching, state := .sleeping, chan := true })
  | .woken => some (s.set p { s.proc p with pc := .acquire, chan := false })
  | .taken => some (s.release p .critical)
  | .release => s.acquire p .clear
  | .clear => some { s.goto p (.wakeup 0) with locked := false, pid := none }
  | .wakeup j =>
    if h : j < n then
      if ⟨j, h⟩ = p then some (s.goto p (.wakeup (j + 1)))
      else if (s.proc ⟨j, h⟩).pc.holds then none
      else some ((s.wake ⟨j, h⟩).goto p (.wakeup (j + 1)))
    else some (s.release p .user)

end Sys

inductive Act (n : ℕ)
  | acquiresleep (p : Fin n)
  | releasesleep (p : Fin n)
  | run (p : Fin n)
  | switched (p : Fin n)
  | sched (p : Fin n)
  | yield (p : Fin n)
  | kill (p : Fin n)

def step {n : ℕ} (s : Sys n) : Act n → Option (Sys n)
  | .acquiresleep p =>
    if (s.proc p).state = .running ∧ (s.proc p).pc = .user then some (s.goto p .acquire) else none
  | .releasesleep p =>
    if (s.proc p).state = .running ∧ (s.proc p).pc = .critical then some (s.goto p .release)
    else none
  | .run p => if (s.proc p).state = .running then s.run p (s.proc p).pc else none
  | .switched p => if (s.proc p).pc = .switching then some (s.goto p .asleep) else none
  | .sched p =>
    if (s.proc p).state = .runnable ∧ (s.proc p).pc.holds = false then
      some (s.set p { s.proc p with
        state := .running
        pc := if (s.proc p).pc = .asleep then .woken else (s.proc p).pc })
    else none
  | .yield p =>
    if (s.proc p).state = .running ∧ (s.proc p).pc.holds = false ∧ (s.proc p).pc.spins = false then
      some (s.set p { s.proc p with state := .runnable })
    else none
  | .kill p =>
    if (s.proc p).pc.holds = false then
      some (s.set p { s.proc p with
        killed := true
        state := if (s.proc p).state = .sleeping then .runnable else (s.proc p).state })
    else none

def boot (n : ℕ) : Sys n where
  proc _ := ⟨.user, .runnable, false, false⟩
  lk := none
  locked := false
  pid := none

structure Inv {n : ℕ} (s : Sys n) : Prop where
  lk : ∀ p, (s.proc p).pc.spins = true → s.lk = some p
  sleeping : ∀ p, (s.proc p).state = .sleeping →
    (s.proc p).chan = true ∧ ((s.proc p).pc = .switching ∨ (s.proc p).pc = .asleep)
  waits : ∀ p, (s.proc p).pc.waits = true → s.locked = true
  /-- A sleeper waits for an owner, or for a `wakeup` that has still to come to it. -/
  missed : ∀ p, (s.proc p).pc = .sleepMark ∨ (s.proc p).state = .sleeping →
    s.locked = true ∨ ∃ r j, (s.proc r).pc = .wakeup j ∧ j ≤ p.val
  owner : ∀ p q, (s.proc p).pc.owns = true → (s.proc q).pc.owns = true → p = q
  locked : ∀ p, (s.proc p).pc.owns = true → s.locked = true

section steps

variable {n : ℕ} {s t : Sys n} {p : Fin n}

theorem boot_inv (n : ℕ) : Inv (boot n) := by
  constructor <;> simp [boot]

theorem Inv.only (h : Inv s) (hlk : s.lk = none ∨ s.lk = some p) {r : Fin n} (hr : r ≠ p) :
    (s.proc r).pc.spins = false := by
  cases hpc : (s.proc r).pc.spins with
  | false => rfl
  | true =>
    have hheld := h.lk r hpc
    rcases hlk with hnone | hp
    · rw [hheld] at hnone
      cases hnone
    · rw [hheld] at hp
      exact absurd (Option.some.inj hp) hr

/-- The process gets no new role: the lock, the sleepers and the `wakeup` in progress stay. -/
structure Lesser (x y : Proc) : Prop where
  spins : y.pc.spins = true → x.pc.spins = true
  owns : y.pc.owns = true → x.pc.owns = true
  waits : y.pc.waits = true → x.pc.waits = true
  marked : y.pc = .sleepMark ∨ y.state = .sleeping → x.pc = .sleepMark ∨ x.state = .sleeping
  wakeup : ∀ j, x.pc = .wakeup j → y.pc = .wakeup j
  sleeping : y.state = .sleeping → y.chan = true ∧ (y.pc = .switching ∨ y.pc = .asleep)

theorem Inv.set (h : Inv s) {x : Proc} (hx : Lesser (s.proc p) x) : Inv (s.set p x) := by
  have hcase (r : Fin n) : Lesser (s.proc r) ((s.set p x).proc r) := by
    by_cases hr : r = p
    · subst hr
      simpa [Sys.set] using hx
    · have hsame : (s.set p x).proc r = s.proc r := by simp [Sys.set, hr]
      rw [hsame]
      exact ⟨id, id, id, id, fun _ => id, h.sleeping r⟩
  refine ⟨fun r hr => h.lk r ((hcase r).spins hr), fun r hr => (hcase r).sleeping hr,
    fun r hr => h.waits r ((hcase r).waits hr), fun r hr => ?_,
    fun r q hr hq => h.owner r q ((hcase r).owns hr) ((hcase q).owns hq),
    fun r hr => h.locked r ((hcase r).owns hr)⟩
  rcases h.missed r ((hcase r).marked hr) with hlocked | ⟨q, j, hq, hj⟩
  · exact .inl hlocked
  · exact .inr ⟨q, j, (hcase q).wakeup j hq, hj⟩

theorem Lesser.awake (x : Proc) {u : PState} (hu : u ≠ .sleeping) :
    Lesser x { x with state := u } :=
  ⟨id, id, id, fun hm => .inl (hm.resolve_right hu), fun _ => id, fun hz => absurd hz hu⟩

theorem Inv.wake (h : Inv s) (q : Fin n) : Inv (s.wake q) := by
  unfold Sys.wake
  split_ifs with hsleep
  · exact h.set (.awake _ PState.noConfusion)
  · exact h

/-- A step of `p` that may change the lock, when no other process has `lk->lk`. -/
theorem Inv.of_alone (h : Inv s) (halone : ∀ r, r ≠ p → (s.proc r).pc.spins = false)
    {x : Proc} {lk pid : Option (Fin n)} {locked : Bool} (hlk : x.pc.spins = true → lk = some p)
    (hawake : x.state ≠ .sleeping) (hwaits : x.pc.waits = true → locked = true)
    (hmissed : ∀ r, ((if r = p then x else s.proc r).pc = .sleepMark ∨
      (if r = p then x else s.proc r).state = .sleeping) → locked = true ∨ ∃ j,
      x.pc = .wakeup j ∧ j ≤ r.val)
    (howner : ∀ r, r ≠ p → (s.proc r).pc.owns = true → x.pc.owns = false ∧ locked = true)
    (hlocked : x.pc.owns = true → locked = true) :
    Inv { s.set p x with lk := lk, locked := locked, pid := pid } := by
  have hproc (r : Fin n) : (update s.proc p x) r = if r = p then x else s.proc r :=
    update_apply _ _ _ _
  have hwaits' (r : Fin n) (hr : r ≠ p) : (s.proc r).pc.waits = false := by
    have hspin := halone r hr
    revert hspin
    cases (s.proc r).pc <;> simp
  constructor
  · intro r hr
    simp only [Sys.set, hproc] at hr
    split_ifs at hr with hrp
    · rw [hrp]
      exact hlk hr
    · rw [halone r hrp] at hr
      cases hr
  · intro r hr
    simp only [Sys.set, hproc] at hr ⊢
    split_ifs at hr ⊢ with hrp
    · exact absurd hr hawake
    · exact h.sleeping r hr
  · intro r hr
    simp only [Sys.set, hproc] at hr
    split_ifs at hr with hrp
    · exact hwaits hr
    · rw [hwaits' r hrp] at hr
      cases hr
  · intro r hr
    simp only [Sys.set, hproc] at hr
    rcases hmissed r hr with htrue | ⟨j, hj, hle⟩
    · exact .inl htrue
    · exact .inr ⟨p, j, by simpa [Sys.set] using hj, hle⟩
  · intro r q hr hq
    simp only [Sys.set, hproc] at hr hq
    split_ifs at hr hq with hrp hqp hqp
    · rw [hrp, hqp]
    · rw [(howner q hqp hq).1] at hr
      cases hr
    · rw [(howner r hrp hr).1] at hq
      cases hq
    · exact h.owner r q hr hq
  · intro r hr
    simp only [Sys.set, hproc] at hr
    split_ifs at hr with hrp
    · exact hlocked hr
    · exact (howner r hrp hr).2

/-- Without a `wakeup` in progress the sleepers wait for an owner. -/
theorem Inv.marked_locked (h : Inv s) (hlk : s.lk = none ∨ s.lk = some p)
    (hp : ∀ j, (s.proc p).pc ≠ .wakeup j) {r : Fin n}
    (hr : (s.proc r).pc = .sleepMark ∨ (s.proc r).state = .sleeping) : s.locked = true := by
  rcases h.missed r hr with hlocked | ⟨q, j, hq, -⟩
  · exact hlocked
  · by_cases hqp : q = p
    · subst hqp
      exact absurd hq (hp j)
    · have hspin := h.only hlk hqp
      rw [hq] at hspin
      cases hspin

theorem Inv.of_alone_keep (h : Inv s) (hheld : s.lk = none ∨ s.lk = some p)
    (hp : ∀ j, (s.proc p).pc ≠ .wakeup j) {x : Proc} {lk pid : Option (Fin n)} {locked : Bool}
    (hlk : x.pc.spins = true → lk = some p) (hstate : x.state ≠ .sleeping)
    (hkeep : s.locked = true → locked = true) (hwaits : x.pc.waits = true → locked = true)
    (hmark : x.pc = .sleepMark → locked = true)
    (howner : x.pc.owns = true → locked = true ∧ ((s.proc p).pc.owns = true ∨ s.locked = false)) :
    Inv { s.set p x with lk := lk, locked := locked, pid := pid } := by
  refine h.of_alone (fun r hr => h.only hheld hr) hlk hstate hwaits
    (fun r hr => .inl ?_) (fun r hr hown => ?_) (fun hown => (howner hown).1)
  · split_ifs at hr with hrp
    · exact hr.elim hmark fun hz => absurd hz hstate
    · exact hkeep (h.marked_locked hheld hp hr)
  · refine ⟨?_, hkeep (h.locked r hown)⟩
    cases hx : x.pc.owns with
    | false => rfl
    | true =>
      rcases (howner hx).2 with hpown | hfree
      · exact absurd (h.owner r p hown hpown) hr
      · rw [h.locked r hown] at hfree
        cases hfree

theorem Inv.wakeup_eq (h : Inv s) {q : Fin n} {j k : ℕ} (hp : (s.proc p).pc = .wakeup j)
    (hq : (s.proc q).pc = .wakeup k) : k = j := by
  have hheld := h.lk p (by rw [hp]; rfl)
  have hheld' := h.lk q (by rw [hq]; rfl)
  rw [hheld] at hheld'
  cases hheld'
  rw [hp] at hq
  exact (Pc.wakeup.inj hq).symm

theorem Inv.scan (h : Inv s) (hawake : (s.proc p).state ≠ .sleeping) {j : ℕ}
    (hpc : (s.proc p).pc = .wakeup j)
    (hdone : ∀ r : Fin n, ((s.proc r).pc = .sleepMark ∨ (s.proc r).state = .sleeping) →
      j ≠ r.val) : Inv (s.goto p (.wakeup (j + 1))) := by
  have hheld : s.lk = some p := h.lk p (by rw [hpc]; rfl)
  apply h.of_alone fun r hr => h.only (.inr hheld) hr
  · exact fun _ => hheld
  · exact hawake
  · simp [Pc.waits]
  · intro r hr
    split_ifs at hr with hrp
    · exact absurd hr (by simp [hawake])
    · rcases h.missed r hr with hlocked | ⟨q, k, hq, hk⟩
      · exact .inl hlocked
      · have hkj := h.wakeup_eq hpc hq
        have hne := hdone r hr
        exact .inr ⟨j + 1, rfl, by omega⟩
  · intro r _ hown
    exact ⟨rfl, h.locked r hown⟩
  · simp [Pc.owns]

theorem Inv.not_marked (h : Inv s) {q : Fin n} (hfree : (s.proc q).pc.holds = false) :
    ¬ (((s.wake q).proc q).pc = .sleepMark ∨ ((s.wake q).proc q).state = .sleeping) := by
  have hmark : (s.proc q).pc ≠ .sleepMark := by
    intro hm
    rw [hm] at hfree
    cases hfree
  unfold Sys.wake
  split_ifs with hsleep
  · simp [Sys.set, hmark]
  · rintro (hm | hm)
    · exact hmark hm
    · exact hsleep ⟨hm, (h.sleeping q hm).1⟩

theorem Inv.turn (h : Inv s) (hrun : (s.proc p).state = .running)
    (hs : s.run p (s.proc p).pc = some t) : Inv t := by
  have hawake : (s.proc p).state ≠ .sleeping := by
    rw [hrun]
    decide
  generalize hpc : (s.proc p).pc = pc at hs
  cases pc with
  | user | critical | switching | asleep =>
    cases hs
  | acquire =>
    simp only [Sys.run, Sys.acquire] at hs
    split_ifs at hs with hfree
    cases hs
    exact h.of_alone_keep (.inl hfree) (by simp [hpc]) (fun _ => rfl) hawake id (by simp)
      (by simp) (by simp)
  | release =>
    have hown : (s.proc p).pc.owns = true := by rw [hpc]; rfl
    simp only [Sys.run, Sys.acquire] at hs
    split_ifs at hs with hfree
    cases hs
    exact h.of_alone_keep (.inl hfree) (by simp [hpc]) (fun _ => rfl) hawake id (by simp) (by simp)
      fun _ => ⟨h.locked p hown, .inl hown⟩
  | test =>
    have hheld : s.lk = some p := h.lk p (by rw [hpc]; rfl)
    simp only [Sys.run] at hs
    split_ifs at hs with hlocked
    · cases hs
      exact h.of_alone_keep (.inr hheld) (by simp [hpc]) (fun _ => hheld) hawake id
        (fun _ => hlocked) (by simp) (by simp)
    · cases hs
      exact h.of_alone_keep (.inr hheld) (by simp [hpc]) (fun _ => hheld) hawake (fun _ => rfl)
        (fun _ => rfl) (fun _ => rfl) fun _ => ⟨rfl, .inr (by simpa using hlocked)⟩
  | sleepLock =>
    cases hs
    exact h.set ⟨by simp [hpc], by simp, by simp [hpc], by simp [hawake], by simp [hpc],
      fun hz => absurd hz hawake⟩
  | sleepRelease =>
    have hheld : s.lk = some p := h.lk p (by rw [hpc]; rfl)
    have hlocked : s.locked = true := h.waits p (by rw [hpc]; rfl)
    cases hs
    exact h.of_alone_keep (.inr hheld) (by simp [hpc]) (by simp) hawake id (fun _ => hlocked)
      (fun _ => hlocked) (by simp)
  | sleepMark =>
    cases hs
    exact h.set ⟨by simp, by simp, by simp, fun _ => .inl hpc, by simp [hpc],
      fun _ => ⟨rfl, .inl rfl⟩⟩
  | woken =>
    cases hs
    exact h.set ⟨by simp, by simp, by simp, by simp [hawake], by simp [hpc],
      fun hz => absurd hz hawake⟩
  | taken =>
    have hheld : s.lk = some p := h.lk p (by rw [hpc]; rfl)
    have hown : (s.proc p).pc.owns = true := by rw [hpc]; rfl
    cases hs
    exact h.of_alone_keep (.inr hheld) (by simp [hpc]) (by simp) hawake id (by simp) (by simp)
      fun _ => ⟨h.locked p hown, .inl hown⟩
  | clear =>
    have hheld : s.lk = some p := h.lk p (by rw [hpc]; rfl)
    have hown : (s.proc p).pc.owns = true := by rw [hpc]; rfl
    cases hs
    -- every sleeper is still in front of the scan
    exact h.of_alone (fun r hr => h.only (.inr hheld) hr) (fun _ => hheld) hawake (by simp)
      (fun r _ => .inr ⟨0, rfl, Nat.zero_le _⟩)
      (fun r hr hown' => absurd (h.owner r p hown' hown) hr) (by simp)
  | wakeup j =>
    simp only [Sys.run] at hs
    split_ifs at hs with hj hself hbusy
    · cases hs
      refine h.scan hawake hpc fun r hr heq => ?_
      have hrp : r = p := (Fin.ext heq.symm).trans hself
      rw [hrp, hpc] at hr
      exact hr.elim Pc.noConfusion fun hz => hawake hz
    · cases hs
      have hother : (s.wake ⟨j, hj⟩).proc p = s.proc p := by
        unfold Sys.wake
        split_ifs
        · exact update_of_ne (Ne.symm hself) _ _
        · rfl
      have hwoken := h.wake ⟨j, hj⟩
      rw [← hother] at hawake hpc
      refine hwoken.scan hawake hpc fun r hr heq => ?_
      obtain rfl : r = ⟨j, hj⟩ := Fin.ext heq.symm
      exact h.not_marked (by simpa using hbusy) hr
    · cases hs
      have hheld : s.lk = some p := h.lk p (by rw [hpc]; rfl)
      refine h.of_alone (fun r hr => h.only (.inr hheld) hr) (by simp) hawake (by simp)
        (fun r hr => ?_) (fun r _ hown => ⟨rfl, h.locked r hown⟩) (by simp)
      split_ifs at hr with hrp
      · exact absurd hr (by simp [hawake])
      · refine .inl ?_
        rcases h.missed r hr with hlocked | ⟨q, k, hq, hk⟩
        · exact hlocked
        · have hkj := h.wakeup_eq hpc hq
          have hlt := r.isLt
          omega

theorem Inv.next (h : Inv s) {a : Act n} (hs : step s a = some t) : Inv t := by
  cases a with
  | acquiresleep p | releasesleep p =>
    simp only [step] at hs
    split_ifs at hs with hp
    cases hs
    exact h.set (by constructor <;> simp [hp])
  | run p =>
    simp only [step] at hs
    split_ifs at hs with hp
    exact h.turn hp hs
  | switched p =>
    simp only [step] at hs
    split_ifs at hs with hp
    cases hs
    refine h.set ⟨?_, ?_, ?_, ?_, ?_, fun hz => ⟨(h.sleeping p hz).1, .inr rfl⟩⟩ <;> simp [hp]
  | sched p =>
    simp only [step] at hs
    split_ifs at hs with hp hasleep
    · cases hs
      exact h.set (by constructor <;> simp [hasleep])
    · cases hs
      exact h.set (.awake _ PState.noConfusion)
  | yield p =>
    simp only [step] at hs
    split_ifs at hs with hp
    cases hs
    exact h.set (.awake _ PState.noConfusion)
  | kill p =>
    simp only [step] at hs
    split_ifs at hs with hp hsleep
    · cases hs
      apply h.set
      exact ⟨id, id, id, fun _ => .inr hsleep, fun _ => id, fun hz => nomatch hz⟩
    · cases hs
      apply h.set
      exact ⟨id, id, id, id, fun _ => id, fun hz => absurd hz hsleep⟩

end steps

/-- In every state of every run, one process at most has the sleep lock, from the moment that
`acquiresleep` takes it until `releasesleep` clears it; and while the lock is not taken and its
spinlock is free, no process sleeps on it. -/
theorem no_lost_wakeup {n : ℕ} {as : List (Act n)} {s : Sys n}
    (hrun : run step (boot n) as = some s) :
    (∀ p q, (s.proc p).pc.owns = true → (s.proc q).pc.owns = true → p = q) ∧
    (s.locked = false → s.lk = none → ∀ p,
      ¬ ((s.proc p).state = .sleeping ∧ (s.proc p).chan = true)) := by
  have hinv : Inv s := run_invariant_all (fun _ _ _ hI hs => hI.next hs) (boot_inv n) hrun
  refine ⟨hinv.owner, fun hfree hlk p hp => ?_⟩
  have hidle (j : ℕ) : (s.proc p).pc ≠ .wakeup j := by
    intro hpc
    have hheld := hinv.lk p (by rw [hpc]; rfl)
    rw [hlk] at hheld
    cases hheld
  have hlocked := hinv.marked_locked (.inl hlk) hidle (.inr hp.1)
  rw [hfree] at hlocked
  cases hlocked

def handOver : List (Act 2) :=
  let p : Fin 2 := ⟨0, Nat.two_pos⟩
  let q : Fin 2 := ⟨1, Nat.one_lt_two⟩
  [.sched p, .acquiresleep p, .run p, .run p, .run p, .sched q, .acquiresleep q] ++
    List.replicate 5 (.run q) ++ [.switched q, .releasesleep p] ++ List.replicate 5 (.run p)

theorem no_lost_wakeup_handOver : ∃ s, run step (boot 2) handOver = some s ∧
    (s.proc 1).state = .runnable ∧
      (s.proc 1).chan = true ∧ s.locked = false ∧ s.lk = none ∧
      ∀ p, ¬ ((s.proc p).state = .sleeping ∧ (s.proc p).chan = true) := by
  have hrun : (run step (boot 2) handOver).elim false (fun s =>
      decide ((s.proc 1).state = .runnable ∧ (s.proc 1).chan = true ∧ s.locked = false ∧
        s.lk = none)) = true := by decide +kernel
  obtain ⟨s, hs, hd⟩ := exists_of_elim hrun
  obtain ⟨hstate, hchan, hlocked, hlk⟩ := of_decide_eq_true hd
  exact ⟨s, hs, hstate, hchan, hlocked, hlk, (no_lost_wakeup hs).2 hlocked hlk⟩

end Xv6.SleepLock
