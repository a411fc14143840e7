import Xv6.ProcTable

/-!
# Who is marked killed

`kill` looks for a pid in every slot, also in those that are not in use, whose pid is 0. The machine
is that of the process table with `setkilled`, by which `usertrap` marks the running process after a
fault. `Change` says once what a step can do to one slot; that free slots stay clean follows from it
for all calls of `kill` with a pid other than 0.
-/

namespace Xv6.ProcTable

open Transition Function

inductive KillAct
  | table (a : Act)
  | setkilled (p : Slot)

def killStep (s : Sys) : KillAct → Option Sys
  | .table a => step s a
  | .setkilled p =>
    if s.panicked = false ∧
      s.inUser p then some (s.set p { s.proc p with killed := true }) else none

def KillAct.Nonzero : KillAct → Prop
  | .table (.kill _ pid) => pid ≠ 0
  | _ => True

instance (a : KillAct) : Decidable a.Nonzero := by
  unfold KillAct.Nonzero
  split <;> infer_instance

inductive Change (s t : Sys) (a : KillAct) (q : Slot) : Prop
  | keep (alike : Alike (s.proc q) (t.proc q))
  | taken (unused : (s.proc q).state = .unused) (used : (t.proc q).state = .used)
      (killed : (t.proc q).killed = (s.proc q).killed)
  | freed (unused : (t.proc q).state = .unused) (killed : (t.proc q).killed = false)
    (pid : (t.proc q).pid = 0)
  | kill {p : Slot} {pid : ℤ} (kills : s.Kills t p pid q)
  | fault (act : a = .setkilled q) (running : (s.proc q).state = .running)
    (state : (t.proc q).state = .running)

section slots

variable {s t : Sys} {p q r : Slot} {x : Proc} {a : KillAct}

theorem goto_alike (s : Sys) (p : Slot) (pc : Pc) (r : Slot) :
    Alike (s.proc r) ((s.goto p pc).proc r) := by
  apply Alike.update
  exact ⟨rfl, rfl, id⟩

theorem sysret_alike (s : Sys) (p : Slot) (v : ℤ) (r : Slot) :
    Alike (s.proc r) ((s.sysret p v).proc r) := by
  apply Alike.update
  exact ⟨rfl, rfl, id⟩

theorem alloc_change (hne : q ≠ p) (hq : (s.proc q).state = .unused) (ok : Bool) (r : Slot) :
    Change s (s.alloc p q ok) a r := by
  by_cases hr : r = q
  · subst hr
    cases ok with
    | true => apply Change.taken hq <;> simp [Sys.alloc, Sys.goto, Sys.set, hne]
    | false => apply Change.freed <;> simp [Sys.alloc, Sys.sysret, Sys.set, hne, Proc.free]
  · apply Change.keep
    have hslot (y : Proc) (n : ℤ) (m : ℕ) : Alike (s.proc r)
        (({ s with nextpid := n, nextInc := m } : Sys).set q y |>.proc r) := by
      simpa [Sys.set, hr] using Alike.refl (s.proc r)
    cases ok with
    | true => exact (hslot _ _ _).trans (goto_alike _ p _ r)
    | false => exact (hslot _ _ _).trans (sysret_alike _ p _ r)

theorem reap_change (hne : q ≠ p) (r : Slot) : Change s (s.reap p q) a r := by
  by_cases hr : r = q
  · subst hr
    apply Change.freed <;> simp [Sys.reap, Sys.release, Sys.sysret, Sys.set, hne, Proc.free]
  · apply Change.keep
    have hslot : Alike (s.proc r) ((s.set q (s.proc q).free).proc r) := by
      simpa [Sys.set, hr] using Alike.refl (s.proc r)
    exact hslot.trans (sysret_alike _ p _ r)

theorem Sys.Effect.change (h : s.Effect p t) (r : Slot) : Change s t a r := by
  cases h with
  | own x eq alike => exact .keep (eq ▸ alike.update r)
  | other q y x eq _ alike alike' => exact .keep (eq ▸ (alike.update r).trans (alike'.update r))
  | alloc q ok ne unused eq => exact eq ▸ alloc_change ne unused ok r
  | reap q ne eq => exact eq ▸ reap_change ne r
  | kill q pid kills =>
    by_cases hr : r = q
    · subst hr
      exact .kill kills
    · apply Change.keep
      rw [kills.2.2]
      refine .trans ?_ (sysret_alike _ p 0 r)
      simpa [Sys.set, hr] using Alike.refl (s.proc r)

theorem killStep_change (h : killStep s a = some t) (r : Slot) : Change s t a r := by
  cases a with
  | setkilled p =>
    simp only [killStep] at h
    split_ifs at h with huser
    cases h
    by_cases hr : r = p
    · subst hr
      exact .fault rfl huser.2.1 (by simpa [Sys.set] using huser.2.1)
    · apply Change.keep
      simpa [Sys.set, hr] using Alike.refl (s.proc r)
  | table a =>
    obtain ⟨p, heffect, -⟩ := step_effect h
    exact heffect.change r

structure KillInv (s : Sys) : Prop where
  killed : ∀ q, (s.proc q).state = .unused → (s.proc q).killed = false
  pid : ∀ q, (s.proc q).state = .unused → (s.proc q).pid = 0
  call : ∀ p pid i, (s.proc p).pc = .kill pid i → pid ≠ 0

theorem boot_killInv : KillInv boot := by
  refine ⟨fun q _ => ?_, fun q hq => ?_, fun p pid i hpc => ?_⟩
  · simp only [boot]
    split_ifs <;> rfl
  · simp only [boot] at hq ⊢
    split_ifs at hq ⊢ with h
    rfl
  · simp only [boot] at hpc
    split_ifs at hpc

theorem KillInv.not_unused (h : KillInv s) {pid : ℤ} (hk : s.Kills t p pid q) :
    (s.proc q).state ≠ .unused := by
  intro hq
  have hzero := h.pid q hq
  have hne := h.call p pid _ hk.1
  have hpid := hk.2.1
  rw [hzero] at hpid
  exact hne hpid.symm

theorem Sys.Kills.state_ne {pid : ℤ} (hk : s.Kills t p pid q) (hq : (s.proc q).state ≠ .unused) :
    (t.proc q).state ≠ .unused := by
  intro hz
  rw [hk.2.2] at hz
  have hset := (sysret_alike _ p 0 q).unused hz
  simp only [Sys.set, update_self] at hset
  split_ifs at hset with hsleep
  exact hq hset

/-- A call of `kill` is started by its action, and goes on from slot to slot. -/
theorem run_kill {ok : Bool} {pid : ℤ} {i : ℕ} {pc : Pc} (h : s.run p ok pc = some t)
    (hpc : (t.proc p).pc = .kill pid i) : ∃ j, pc = .kill pid j := by
  have hgoto {u : Sys} {pc' : Pc} (hu : ((u.goto p pc').proc p).pc = .kill pid i) :
      pc' = .kill pid i := by
    simpa [Sys.goto, Sys.set] using hu
  have hret {u : Sys} {v : ℤ} (hu : ((u.sysret p v).proc p).pc = .kill pid i) : False := by
    simp [Sys.sysret, Sys.set] at hu
  cases pc with
  | kill pid' j =>
    simp only [Sys.run] at h
    by_cases hj : j < nproc
    · rw [dif_pos hj] at h
      split_ifs at h
      all_goals cases h
      · exact (hret hpc).elim
      · exact (hret hpc).elim
      · cases hgoto hpc
        exact ⟨j, rfl⟩
    · rw [dif_neg hj] at h
      cases h
      exact (hret hpc).elim
  | user | dead => cases h
  | asleep | waitSlept | zombie status | waitSleep =>
    cases h
    simp [Sys.release, Sys.set] at hpc
  | setRunnable np pid' =>
    cases h
    exact (hret hpc).elim
  | exitLock status | waitLock | setParent np pid' =>
    simp only [Sys.run, Sys.acquire] at h
    split_ifs at h
    cases h
    cases hgoto hpc
  | allocproc | reparent | wakeInit | wakeParent | waitCheck | waitScan =>
    simp only [Sys.run, Sys.alloc] at h
    split_ifs at h
    all_goals
      cases h
      first
        | cases hgoto hpc
        | exact (hret hpc).elim

theorem killStep_call (h : killStep s a = some t) {pid : ℤ} {i : ℕ}
    (hpc : (t.proc p).pc = .kill pid i) :
    (∃ j, (s.proc p).pc = .kill pid j) ∨ a = .table (.kill p pid) := by
  have hset {q : Slot} {x : Proc} (hx : ((s.set q x).proc p).pc = .kill pid i) :
      (p = q ∧ x.pc = .kill pid i) ∨ (s.proc p).pc = .kill pid i := by
    by_cases hq : p = q
    · subst hq
      exact .inl ⟨rfl, by simpa [Sys.set] using hx⟩
    · exact .inr (by simpa [Sys.set, hq] using hx)
  -- a step that leaves the position of its slot alone
  have hsame {q : Slot} {x : Proc} (ht : t = s.set q x) (hx : x.pc = (s.proc q).pc) :
      (∃ j, (s.proc p).pc = .kill pid j) ∨ a = .table (.kill p pid) := by
    subst ht
    rcases hset hpc with ⟨rfl, hq⟩ | hq
    · exact .inl ⟨i, hx ▸ hq⟩
    · exact .inl ⟨i, hq⟩
  cases a with
  | setkilled q =>
    simp only [killStep] at h
    split_ifs at h
    exact hsame (Option.some.inj h).symm rfl
  | table a =>
    simp only [killStep, ProcTable.step] at h
    split_ifs at h
    cases a with
    | sched q | yield q | wakeup c q =>
      simp only at h
      split_ifs at h
      exact hsame (Option.some.inj h).symm rfl
    | fork q | wait q | sleep q c | kill q pid' =>
      simp only at h
      split_ifs at h
      cases h
      rcases hset hpc with ⟨rfl, hq⟩ | hq
      · cases hq <;> exact .inr rfl
      · exact .inl ⟨i, hq⟩
    | exit q status =>
      simp only at h
      split_ifs at h
      · cases h
        exact .inl ⟨i, hpc⟩
      · cases h
        rcases hset hpc with ⟨rfl, hq⟩ | hq
        · cases hq
        · exact .inl ⟨i, hq⟩
    | run q ok =>
      simp only at h
      split_ifs at h with hrun
      by_cases hq : p = q
      · subst hq
        exact .inl (run_kill h hpc)
      · rcases (run_effect hrun h).pc_of_ne hq with hkeep | ⟨-, huser⟩
        · exact .inl ⟨i, hkeep ▸ hpc⟩
        · rw [huser] at hpc
          cases hpc

theorem KillInv.step (h : KillInv s) (ha : a.Nonzero) (hs : killStep s a = some t) : KillInv t := by
  have hfree (q : Slot) (hq : (t.proc q).state = .unused) : (t.proc q).killed = false ∧
      (t.proc q).pid = 0 := by
    cases killStep_change hs q with
    | keep alike =>
      have hold := alike.unused hq
      exact ⟨alike.killed.trans (h.killed q hold), alike.pid.trans (h.pid q hold)⟩
    | taken _ used => simp [used] at hq
    | freed _ killed pid => exact ⟨killed, pid⟩
    | kill kills => exact absurd hq (kills.state_ne (h.not_unused kills))
    | fault _ _ state => simp [state] at hq
  refine ⟨fun q hq => (hfree q hq).1, fun q hq => (hfree q hq).2, fun p pid i hpc => ?_⟩
  rcases killStep_call hs hpc with ⟨j, hold⟩ | rfl
  · exact h.call p pid j hold
  · exact ha

end slots

structure Targeted (s : Sys) (a : KillAct) (t : Sys) : Prop where
  /-- A process starts unmarked. -/
  fresh : ∀ q, (s.proc q).state = .unused → (t.proc q).state ≠ .unused → (t.proc q).killed = false
  /-- A call of `kill` that returns 0 has marked a slot. -/
  zero : ∀ p ok pid i, a = .table (.run p ok) → (s.proc p).pc = .kill pid i →
    (t.proc p).pc = .user → (t.proc p).ret = 0 → ∃ q, s.Kills t p pid q
  /-- That slot is in use, and the others keep flag and state. -/
  target : ∀ p pid q, s.Kills t p pid q → (s.proc q).state ≠ .unused ∧
    ∀ r, r ≠ q → (t.proc r).killed = (s.proc r).killed ∧ (t.proc r).state = (s.proc r).state
  /-- A process gets marked by `kill` with its pid or by its own fault. -/
  marked : ∀ q, (s.proc q).killed = false → (t.proc q).killed = true →
    (∃ p, s.Kills t p (s.proc q).pid q) ∨ a = .setkilled q

section slots

variable {s t : Sys}

theorem Sys.Kills.others {p q r : Slot} {pid : ℤ} (hk : s.Kills t p pid q) (hr : r ≠ q) :
    (t.proc r).killed = (s.proc r).killed ∧ (t.proc r).state = (s.proc r).state := by
  rw [hk.2.2]
  by_cases hp : r = p
  · subst hp
    simp [Sys.sysret, Sys.set, hr]
  · simp [Sys.sysret, Sys.set, hr, hp]

theorem kills_of_zero {p : Slot} {ok : Bool} {pid : ℤ} {i : ℕ}
    (h : killStep s (.table (.run p ok)) = some t) (hpc : (s.proc p).pc = .kill pid i)
    (huser : (t.proc p).pc = .user) (hret : (t.proc p).ret = 0) : ∃ q, s.Kills t p pid q := by
  simp only [killStep, ProcTable.step, hpc, Sys.run] at h
  split_ifs at h with _ _ hi hpid hsleep
  · cases h
    exact ⟨⟨i, hi⟩, hpc, hpid, by rw [if_pos hsleep]⟩
  · cases h
    exact ⟨⟨i, hi⟩, hpc, hpid, by rw [if_neg hsleep]⟩
  · cases h
    simp [Sys.goto, Sys.set] at huser
  · cases h
    simp [Sys.sysret, Sys.set] at hret

theorem KillInv.targeted (h : KillInv s) {a : KillAct} (hs : killStep s a = some t) :
    Targeted s a t where
  fresh q hq hq' := by
    have hclean := h.killed q hq
    cases killStep_change hs q with
    | keep alike => rw [alike.killed, hclean]
    | taken _ _ killed => rw [killed, hclean]
    | freed unused => exact absurd unused hq'
    | kill kills => exact absurd hq (h.not_unused kills)
    | fault _ running =>
      rw [running] at hq
      cases hq
  zero p ok pid i ha := by
    subst ha
    exact kills_of_zero hs
  target p pid q hk := ⟨h.not_unused hk, fun r hr => hk.others hr⟩
  marked q hq hq' := by
    cases killStep_change hs q with
    | keep alike =>
      rw [alike.killed, hq] at hq'
      cases hq'
    | taken _ _ killed =>
      rw [killed, hq] at hq'
      cases hq'
    | freed _ killed =>
      rw [killed] at hq'
      cases hq'
    | @kill p pid kills =>
      have hpid := kills.2.1
      subst hpid
      exact .inl ⟨p, kills⟩
    | fault act => exact .inr act

end slots

/-- In every run in which `kill` is called with pids other than 0, no free slot is marked in any
state, and every further step marks its target only. -/
theorem killed_only_by_target {ks : List KillAct} {s : Sys}
    (hC : Along killStep (fun _ a => a.Nonzero) boot ks) (hrun : run killStep boot ks = some s) :
    (∀ q, (s.proc q).state = .unused → (s.proc q).killed = false) ∧ ∀ a t, killStep s a = some t →
    Targeted s a t := by
  have hinv : KillInv s :=
    run_invariant (fun _ _ _ hI ha hs => hI.step ha hs) boot_killInv hC hrun
  exact ⟨hinv.killed, fun a t hs => hinv.targeted hs⟩

def killParent : List KillAct :=
  .table (.sched initproc) :: .table (.fork initproc) ::
    List.replicate 4 (.table (.run initproc true)) ++
    [.table (.sched firstFree), .table (.kill firstFree 1), .table (.run firstFree true)]

theorem killed_only_by_target_killParent :
    ∃ s, run killStep boot killParent = some s ∧ (s.proc initproc).killed = true ∧
      ∀ q, (s.proc q).state = .unused → (s.proc q).killed = false := by
  have hrun : (run killStep boot killParent).elim false (fun s => (s.proc initproc).killed) =
      true := by decide +kernel
  obtain ⟨s, hs, hkilled⟩ := exists_of_elim hrun
  exact ⟨s, hs, hkilled, (killed_only_by_target (by decide +kernel) hs).1⟩

def killZeroFork : List KillAct :=
  .table (.sched initproc) :: .table (.kill initproc 0) ::
    List.replicate 2 (.table (.run initproc true)) ++
    .table (.fork initproc) :: List.replicate 2 (.table (.run initproc true))

/-- `kill(0)` stops at the first free slot: it marks the slot, returns 0, and the process that gets
the slot starts marked. -/
theorem kill_zero_marks_free_slot :
    (∃ s, run killStep boot (killZeroFork.take 4) = some s ∧ (s.proc initproc).pc = .user ∧
      (s.proc initproc).ret = 0 ∧ (s.proc firstFree).state = .unused ∧
      (s.proc firstFree).killed = true) ∧
    ∃ s, run killStep boot killZeroFork = some s ∧ (s.proc firstFree).state = .used ∧
      (s.proc firstFree).killed = true := by
  constructor
  · have hrun : (run killStep boot (killZeroFork.take 4)).elim false
        (fun s => decide ((s.proc initproc).pc = .user ∧ (s.proc initproc).ret = 0 ∧
          (s.proc firstFree).state = .unused ∧
          (s.proc firstFree).killed = true)) = true := by decide +kernel
    obtain ⟨s, hs, hd⟩ := exists_of_elim hrun
    exact ⟨s, hs, of_decide_eq_true hd⟩
  · have hrun : (run killStep boot killZeroFork).elim false
        (fun s => decide ((s.proc firstFree).state = .used ∧ (s.proc firstFree).killed = true)) =
        true := by
      decide +kernel
    obtain ⟨s, hs, hd⟩ := exists_of_elim hrun
    exact ⟨s, hs, of_decide_eq_true hd⟩

end Xv6.ProcTable
