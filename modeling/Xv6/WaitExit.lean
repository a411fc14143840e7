import Xv6.ProcTable

/-!
# Exit, wait and reparent

The invariant behind `wait`: parent pointers lead to live processes that were not replaced since the
pointer was set, whoever holds `wait_lock` knows what it has scanned, and the history of exits and
waits agrees with the table. `Pc.scanned` is the number of table entries that a position knows not
to be children of the process; only the holder of `wait_lock` changes parent pointers, so this
knowledge lasts.
-/

namespace Xv6.ProcTable

open Transition Function List

def PState.live : PState → Bool
  | .sleeping | .runnable | .running => true
  | _ => false

attribute [grind] PState.live

theorem PState.ne_of_live {u : PState} (h : u.live = true) : u ≠ .unused ∧ u ≠ .zombie := by
  cases u <;> simp [PState.live] at h ⊢

namespace Pc

def calm : Pc → Bool
  | .user | .dead => true
  | _ => false

def locked : Pc → Bool
  | .reparent .. | .wakeInit .. | .wakeParent .. | .zombie _ => true
  | .waitScan .. | .waitCheck _ | .waitSleep => true
  | _ => false

def exiting : Pc → Bool
  | .reparent .. | .wakeInit .. | .wakeParent .. | .zombie _ => true
  | _ => false

def leaving : Pc → Bool
  | .exitLock _ => true
  | pc => pc.exiting

def waiting : Pc → Bool
  | .waitLock | .waitScan .. | .waitCheck _ | .waitSleep | .waitSlept => true
  | _ => false

def scanned : Pc → ℕ
  | .reparent _ i => i
  | .wakeInit _ i _ => i + 1
  | .wakeParent .. | .zombie _ => nproc
  | .waitScan i havekids => if havekids then 0 else i
  | .waitCheck havekids => if havekids then 0 else nproc
  | _ => 0

/-- The child that `fork` has allocated and not yet made runnable. -/
def forks : Pc → Option Slot
  | .setParent np _ | .setRunnable np _ => some np
  | _ => none

variable {pc : Pc}

theorem locked_of_exiting (h : pc.exiting = true) : pc.locked = true := by
  cases pc <;> first | rfl | cases h

theorem locked_of_scanned (h : 0 < pc.scanned) : pc.locked = true := by
  cases pc <;> first | rfl | cases h

theorem calm_of_locked (h : pc.locked = true) : pc.calm = false := by
  cases pc <;> first | rfl | cases h

theorem calm_of_forks {np : Slot} (h : pc.forks = some np) : pc.calm = false := by
  cases pc <;> first | rfl | cases h

theorem forks_of_locked (h : pc.locked = true) : pc.forks = none := by
  cases pc <;> first | rfl | cases h

theorem leaving_of_locked (h : pc.locked = true) : pc.leaving = pc.exiting := by
  cases pc <;> first | rfl | cases h

end Pc

/-- The process is the same one, with the same parent. -/
structure Same (x y : Proc) : Prop where
  parent : y.parent = x.parent
  inc : y.inc = x.inc
  creator : y.creator = x.creator
  parentInc : y.parentInc = x.parentInc
  pid : y.pid = x.pid

theorem Same.update {f : Slot → Proc} {x : Proc} {p : Slot} (h : Same (f p) x) (r : Slot) :
    Same (f r) (update f p x r) := by
  by_cases hr : r = p
  · subst hr
    rwa [update_self]
  · rw [update_of_ne hr]
    exact ⟨rfl, rfl, rfl, rfl, rfl⟩

/-- A slot is replaced, and every slot has the property. -/
theorem forall_update {P : Slot → Proc → Prop} {f : Slot → Proc} {x : Proc} {p : Slot} (hp : P p x)
    (hr : ∀ r, P r (f r)) (r : Slot) : P r (update f p x r) :=
  (forall_update_iff f P).2 ⟨hp, fun r _ => hr r⟩ r

/-- The pid that the process with this number gets. -/
def pidOf (inc : ℕ) : ℤ := ((inc : ℤ) + 1).bmod (2 ^ 32)

theorem bumpPid_pidOf (n : ℕ) : bumpPid (pidOf n) = pidOf (n + 1) := by
  unfold bumpPid pidOf
  exact Int.bmod_add_bmod

/-- It takes all other numbers before a pid is -1. -/
theorem le_of_pidOf {n : ℕ} (h : pidOf n = -1) : 2 ^ 32 - 2 ≤ n := by
  unfold pidOf Int.bmod at h
  norm_num at h
  split_ifs at h <;> omega

structure TableInv (s : Sys) : Prop where
  init : (s.proc initproc).state.live = true ∧ (s.proc initproc).pc.leaving = false
  unused : ∀ q, (s.proc q).state = .unused → (s.proc q).parent = none ∧ (s.proc q).pid = 0
  parent : ∀ q r, (s.proc q).parent = some r → (s.proc r).state.live = true ∧
    (s.proc r).inc = (s.proc q).parentInc
  busy : ∀ p, (s.proc p).pc.calm = false → (s.proc p).state.live = true
  lock : ∀ p, (s.proc p).pc.locked = true → s.waitLock = some p
  scan : ∀ p j, j.val < (s.proc p).pc.scanned → (s.proc j).parent ≠ some p
  fork : ∀ p q, (s.proc p).pc.forks = some q → (s.proc q).state = .used ∧
    (s.proc q).creator = (s.proc p).inc
  incLt : ∀ q, (s.proc q).state ≠ .unused → (s.proc q).inc < s.nextInc
  incInj : ∀ q r, (s.proc q).state ≠ .unused → (s.proc r).state ≠ .unused →
    (s.proc q).inc = (s.proc r).inc → q = r
  pid : ∀ q, (s.proc q).state ≠ .unused → (s.proc q).pid = pidOf (s.proc q).inc
  nextpid : s.nextpid = pidOf s.nextInc

structure HistoryInv (s : Sys) : Prop where
  exitedLt : ∀ i, s.exited i ≠ none → i < s.nextInc
  zombie : ∀ q, (s.proc q).state = .zombie →
    s.exited (s.proc q).inc = some ((s.proc q).pid, (s.proc q).xstate)
  alive : ∀ q, (s.proc q).state = .used ∨ (s.proc q).state.live = true →
    s.exited (s.proc q).inc = none
  creator : ∀ q r, (s.proc q).parent = some r → (s.proc r).inc = (s.proc q).creator ∨
    r = initproc ∧ (s.exited (s.proc q).creator ≠ none ∨
      ∃ p, (s.proc p).inc = (s.proc q).creator ∧ (s.proc p).pc.exiting = true)
  kept : ∀ q, (s.proc q).state ≠ .unused → ∀ r ∈ s.reaped, r.child ≠ (s.proc q).inc
  once : (s.reaped.map Reap.child).Nodup
  reaped : ∀ r ∈ s.reaped, s.exited r.child = some (r.pid, r.status) ∧
    (r.inc = r.creator ∨ r.slot = initproc ∧ s.exited r.creator ≠ none)

structure Inv (s : Sys) : Prop where
  table : TableInv s
  history : HistoryInv s

variable {s s' : Sys} {p q : Slot}

variable {x : Proc} {w : Option Slot} {pc : Pc} {ok : Bool} {a : Act}

/-- The process of a slot goes on, in another state or at another position, and may take or release
`wait_lock`. -/
theorem Inv.replace (h : Inv s) (hx : Same (s.proc p) x)
    (hunused : x.state = .unused ↔ (s.proc p).state = .unused)
    (hlive : (s.proc p).state.live = true → x.state.live = true)
    (hbusy : x.pc.calm = false → x.state.live = true)
    (hw : w = s.waitLock ∨ s.waitLock = none ∨ s.waitLock = some p)
    (hlock : x.pc.locked = true → w = some p)
    (hscan : ∀ j : Slot, j.val < x.pc.scanned → (s.proc j).parent ≠ some p)
    (hfork : ∀ q, x.pc.forks = some q → q ≠ p ∧ (s.proc q).state = .used ∧
      (s.proc q).creator = (s.proc p).inc)
    (hused : ∀ r, r ≠ p → (s.proc r).pc.forks = some p → x.state = .used)
    (hinit : p = initproc → x.pc.leaving = false)
    (hzombie : x.state = .zombie → (s.proc p).state = .zombie ∧ x.xstate = (s.proc p).xstate)
    (halive : x.state = .used ∨ x.state.live = true → (s.proc p).state = .used ∨
      (s.proc p).state.live = true)
    (hexit : (s.proc p).pc.exiting = true → x.pc.exiting = true) :
    Inv { s with proc := update s.proc p x, waitLock := w } := by
  obtain ⟨ht, hh⟩ := h
  have hsame := hx.update
  have hstate : ∀ r, (update s.proc p x r).state = .unused ↔ (s.proc r).state = .unused :=
    forall_update (P := fun r y => y.state = .unused ↔ (s.proc r).state = .unused) hunused
      fun _ => Iff.rfl
  have hlives : ∀ r, (s.proc r).state.live = true → (update s.proc p x r).state.live = true :=
    forall_update (P := fun r y => (s.proc r).state.live = true → y.state.live = true)
      hlive fun _ => id
  have hexits : ∀ r, (s.proc r).pc.exiting = true → (update s.proc p x r).pc.exiting = true :=
    forall_update (P := fun r y => (s.proc r).pc.exiting = true → y.pc.exiting = true)
      hexit fun _ => id
  cases ht
  cases hh
  constructor
  · constructor <;> dsimp only
    case nextpid => assumption
    case unused | parent | incLt | incInj | pid => grind [Same]
    case init | busy | lock | scan | fork =>
      simp only [update_apply]
      grind [Same]
  · constructor <;> dsimp only
    case exitedLt | once | reaped => assumption
    case creator | kept => grind [Same]
    case zombie | alive =>
      simp only [update_apply]
      grind [Same]

theorem TableInv.calm_of_dead (h : TableInv s) (hq : (s.proc q).state.live = false) :
    (s.proc q).pc.calm = true := by
  by_contra hc
  rw [h.busy q (by simpa using hc)] at hq
  cases hq

theorem TableInv.fork_ne (h : TableInv s) {r : Slot} (hr : (s.proc r).pc.forks = some q) :
    q ≠ r := by
  rintro rfl
  have hlive := h.busy q (Pc.calm_of_forks hr)
  rw [(h.fork q q hr).1] at hlive
  cases hlive

/-- The position of the process stays, and so all that is known about it. -/
theorem Inv.restate (h : Inv s) (hx : Same (s.proc q) x) (hpc : x.pc = (s.proc q).pc)
    (hunused : x.state = .unused ↔ (s.proc q).state = .unused)
    (hlive : (s.proc q).state.live = true → x.state.live = true)
    (hused : ∀ r, (s.proc r).pc.forks = some q → x.state = .used)
    (hzombie : x.state = .zombie → (s.proc q).state = .zombie ∧ x.xstate = (s.proc q).xstate)
    (halive : x.state = .used ∨ x.state.live = true → (s.proc q).state = .used ∨
      (s.proc q).state.live = true) :
    Inv (s.set q x) := by
  refine h.replace hx hunused hlive ?_ (.inl rfl) ?_ ?_ ?_ (fun r _ => hused r) ?_ hzombie halive ?_
  all_goals rw [hpc]
  · exact fun hc => hlive (h.table.busy q hc)
  · exact h.table.lock q
  · exact h.table.scan q
  · exact fun r hr => ⟨h.table.fork_ne hr, h.table.fork q r hr⟩
  · rintro rfl
    exact h.table.init.2
  · exact id

theorem Inv.wake (h : Inv s) {k : Bool} {u : PState}
    (hst : u = (s.proc q).state ∨ (s.proc q).state.live = true ∧ u.live = true) :
    Inv (s.set q { s.proc q with killed := k, state := u }) := by
  rcases hst with rfl | ⟨hlive, hu⟩
  · exact h.restate ⟨rfl, rfl, rfl, rfl, rfl⟩ rfl Iff.rfl id (fun r hr => (h.table.fork r q hr).1)
      (fun hz => ⟨hz, rfl⟩) id
  · obtain ⟨hne, hne'⟩ := PState.ne_of_live hu
    refine h.restate ⟨rfl, rfl, rfl, rfl, rfl⟩ rfl (iff_of_false hne (PState.ne_of_live hlive).1)
      (fun _ => hu) (fun r hr => ?_) (fun hz => absurd hz hne') (fun _ => .inr hlive)
    rw [(h.table.fork r q hr).1] at hlive
    cases hlive

theorem Inv.started (h : Inv s) (hq : (s.proc q).state = .used)
    (hfork : ∀ r, (s.proc r).pc.forks ≠ some q) :
    Inv (s.set q { s.proc q with state := .runnable }) := by
  refine h.restate ⟨rfl, rfl, rfl, rfl, rfl⟩ rfl (iff_of_false PState.noConfusion ?_) (fun _ => rfl)
    (fun r hr => absurd hr (hfork r)) PState.noConfusion (fun _ => .inl hq)
  rw [hq]
  exact PState.noConfusion

/-- `allocpid` is called, and the process gets a number. -/
theorem Inv.renumber (h : Inv s) :
    Inv { s with nextpid := bumpPid s.nextpid, nextInc := s.nextInc + 1 } := by
  refine ⟨{ h.table with incLt := fun q hq => ?_, nextpid := ?_ },
    { h.history with exitedLt := fun i hi => ?_ }⟩
  · exact Nat.lt_succ_of_lt (h.table.incLt q hq)
  · exact (congrArg bumpPid h.table.nextpid).trans (bumpPid_pidOf s.nextInc)
  · exact Nat.lt_succ_of_lt (h.history.exitedLt i hi)

theorem Inv.allocated (h : Inv s) {n : ℤ} (hq : (s.proc q).state = .unused)
    (hn : n = bumpPid s.nextpid) (hx : x.state = .used ∧ x.pc = .user ∧ x.inc = s.nextInc ∧
      x.parent = (s.proc q).parent ∧ x.pid = s.nextpid) :
    Inv { s with
      proc := update s.proc q x, nextpid := n, nextInc := s.nextInc + 1 } := by
  have hnone := (h.table.unused q hq).1
  have hcalm := h.table.calm_of_dead (q := q) (by rw [hq]; rfl)
  have hpc : (s.proc q).pc.locked = false ∧ (s.proc q).pc.forks = none ∧
      (s.proc q).pc.exiting = false ∧ (s.proc q).pc.scanned = 0 := by
    cases hc : (s.proc q).pc <;> simp_all [Pc.calm, Pc.locked, Pc.forks, Pc.exiting, Pc.scanned]
  have hnext := h.renumber.table.nextpid
  obtain ⟨⟨⟩, ⟨⟩⟩ := h
  constructor
  · constructor <;> simp only [update_apply] at *
    case unused | parent | incLt | incInj | pid | nextpid => grind
    case init | busy | lock | scan | fork => grind [Pc.calm, Pc.locked, Pc.forks, Pc.scanned]
  · constructor <;> simp only [update_apply] at *
    case once | reaped => assumption
    case exitedLt | zombie | alive | creator | kept => grind [Pc.exiting]

theorem Inv.unallocated (h : Inv s) (hx : Same (s.proc q) x) (hpc : x.pc = (s.proc q).pc)
    (hq : (s.proc q).state = .unused) (hstate : x.state = .unused) :
    Inv ({ s with nextpid := bumpPid s.nextpid, nextInc := s.nextInc + 1 }.set q x) := by
  refine h.renumber.restate hx hpc (iff_of_true hstate hq) ?_ (fun r hr => ?_) ?_ ?_
  · intro hlive
    simp [hq, PState.live] at hlive
  · have hused := (h.table.fork r q hr).1
    simp [hq] at hused
  · simp [hstate]
  · simp [hstate, PState.live]

/-- A parent pointer is set by the holder of `wait_lock`, or while nobody holds it. -/
theorem Inv.adopt (h : Inv s) {r : Slot} (hq : (s.proc q).state ≠ .unused)
    (hr : (s.proc r).state.live = true) (hscan : (s.proc r).pc.scanned = 0)
    (hcreator : (s.proc r).inc = (s.proc q).creator ∨ r = initproc ∧
      (s.exited (s.proc q).creator ≠ none ∨
        ∃ p, (s.proc p).inc = (s.proc q).creator ∧ (s.proc p).pc.exiting = true)) :
    Inv (s.set q { s.proc q with parent := some r, parentInc := (s.proc r).inc }) := by
  set x : Proc := { s.proc q with parent := some r, parentInc := (s.proc r).inc }
  have hinc : ∀ a, ((s.set q x).proc a).inc = (s.proc a).inc := fun a => view_update Proc.inc a
  have hleft : ∀ c, (∃ p, (s.proc p).inc = c ∧ (s.proc p).pc.exiting = true) →
      ∃ p, ((s.set q x).proc p).inc = c ∧ ((s.set q x).proc p).pc.exiting = true := by
    rintro c ⟨a, ha, hpc⟩
    have hsame : ((s.set q x).proc a).pc = (s.proc a).pc := view_update Proc.pc a
    exact ⟨a, (hinc a).trans ha, hsame ▸ hpc⟩
  obtain ⟨⟨⟩, ⟨-, -, -, hold, -, -, -⟩⟩ := id h
  constructor
  · constructor <;> simp only [Sys.set, update_apply] at *
    case nextpid => assumption
    case init | unused | parent | busy | lock | scan | fork | incLt | incInj | pid => grind
  · refine { h.history with zombie := ?zombie, alive := ?alive, creator := ?creator, kept := ?kept }
    case creator =>
      intro a b hab
      rw [hinc]
      by_cases haq : a = q
      · subst haq
        simp only [Sys.set, update_self] at hab ⊢
        obtain rfl : r = b := Option.some.inj hab
        exact hcreator.imp id (And.imp id (Or.imp id (hleft _)))
      · simp only [Sys.set, update_of_ne haq] at hab ⊢
        exact (hold a b hab).imp id (And.imp id (Or.imp id (hleft _)))
    case zombie | alive | kept =>
      cases h.history
      simp only [Sys.set, update_apply] at *
      grind

theorem TableInv.not_scanned (h : TableInv s) (hp : s.waitLock ≠ some p) :
    (s.proc p).pc.scanned = 0 := by
  by_contra hne
  exact hp (h.lock p (Pc.locked_of_scanned (Nat.pos_of_ne_zero hne)))

theorem Inv.reaped (h : Inv s) (hq : (s.proc q).state = .zombie)
    (hparent : (s.proc q).parent = some p) (hp : (s.proc p).pc.exiting = false)
    (hlock : s.waitLock = some p) :
    Inv { s.set q (s.proc q).free with
      reaped := s.reaped ++ [⟨(s.proc q).inc, (s.proc q).creator, (s.proc q).pid,
        (s.proc q).xstate, p, (s.proc p).inc⟩] } := by
  have hexit : ∀ r, (s.proc r).pc.exiting = false := by
    intro r
    by_contra hr
    have hr' := h.table.lock r (Pc.locked_of_exiting (by simpa using hr))
    rw [hlock] at hr'
    rw [← Option.some.inj hr', hp] at hr
    exact hr rfl
  have hcalm := h.table.calm_of_dead (q := q) (by rw [hq]; rfl)
  have hnodup : ((s.reaped ++ [(⟨(s.proc q).inc, (s.proc q).creator, (s.proc q).pid,
      (s.proc q).xstate, p, (s.proc p).inc⟩ : Reap)]).map Reap.child).Nodup := by
    rw [map_append, map_singleton, nodup_append]
    refine ⟨h.history.once, nodup_singleton _, ?_⟩
    intro i hi j hj
    obtain ⟨r, hr, rfl⟩ := mem_map.1 hi
    obtain rfl := mem_singleton.1 hj
    exact h.history.kept q (by simp [hq]) r hr
  obtain ⟨⟨⟩, ⟨⟩⟩ := h
  constructor
  · constructor <;> simp only [Sys.set, Proc.free, update_apply] at *
    case nextpid => assumption
    case init | unused | parent | busy | lock | scan | fork | incLt | incInj | pid => grind
  · constructor <;> simp only [Sys.set, Proc.free, update_apply, mem_append, mem_singleton] at *
    case exitedLt | once => assumption
    case zombie | alive | creator | kept | reaped => grind

theorem Inv.zombie (h : Inv s) {status : ℤ} (hpc : (s.proc p).pc = .zombie status) :
    Inv (Sys.release { s.set p { s.proc p with
        xstate := status, state := .zombie, pc := .dead } with
      exited := update s.exited (s.proc p).inc (some ((s.proc p).pid, status)) }) := by
  have hlive := h.table.busy p (by rw [hpc]; rfl)
  have hlock := h.table.lock p (by rw [hpc]; rfl)
  have hchild : ∀ j, (s.proc j).parent ≠ some p := by
    intro j
    apply h.table.scan p j
    rw [hpc]
    exact j.isLt
  have hinit : p ≠ initproc := by
    rintro rfl
    have := h.table.init.2
    rw [hpc] at this
    cases this
  have hinc : ∀ q, q ≠ p → (s.proc q).state ≠ .unused → (s.proc q).inc ≠ (s.proc p).inc := by
    intro q hqp hq heq
    exact hqp (h.table.incInj q p hq (PState.ne_of_live hlive).1 heq)
  have hother : ∀ i, s.exited i ≠ none →
      update s.exited (s.proc p).inc (some ((s.proc p).pid, status)) i = s.exited i := by
    intro i hi
    apply update_of_ne
    rintro rfl
    exact hi (h.history.alive p (.inr hlive))
  obtain ⟨⟨⟩, ⟨⟩⟩ := id h
  constructor
  · constructor <;> simp only [Sys.release, Sys.set, update_apply] at *
    case nextpid => assumption
    case init | unused | parent | busy | lock | scan | fork | incLt | incInj | pid =>
      grind [Pc.calm, Pc.locked, Pc.forks, Pc.scanned]
  · refine { h.history with
      exitedLt := ?exitedLt, zombie := ?zombie, alive := ?alive, creator := ?creator, kept := ?kept
      reaped := ?reaped }
    case creator =>
      intro q r hq
      have hsame : ∀ a, (fun x : Proc => (x.parent, x.inc, x.creator))
          (update s.proc p { s.proc p with
          xstate := status, state := .zombie, pc := .dead } a) =
            ((s.proc a).parent, (s.proc a).inc, (s.proc a).creator) :=
        fun a => view_update (fun x : Proc => (x.parent, x.inc, x.creator)) a
      simp only [Prod.mk.injEq] at hsame
      simp only [Sys.release, Sys.set, hsame] at hq ⊢
      rcases h.history.creator q r hq with heq | ⟨hr, hex | ⟨a, ha, hpc'⟩⟩
      · exact .inl heq
      · exact .inr ⟨hr, .inl (by rwa [hother _ hex])⟩
      · -- only the process that exits now can be on its way through `exit`
        have hap : a = p := by
          have hl := h.table.lock a (Pc.locked_of_exiting hpc')
          rw [hlock] at hl
          exact (Option.some.inj hl).symm
        refine .inr ⟨hr, .inl ?_⟩
        rw [← ha, hap, update_self]
        exact Option.some_ne_none _
    case exitedLt | zombie | alive | kept | reaped =>
      simp only [Sys.release, Sys.set, update_apply] at *
      grind

/-! ## Steps -/

theorem Inv.move (h : Inv s)
    (hx : Same (s.proc p) x) (hlive : (s.proc p).state.live = true) (hlive' : x.state.live = true)
    (hw : w = s.waitLock ∨ s.waitLock = none ∨ s.waitLock = some p)
    (hlock : x.pc.locked = true → w = some p)
    (hscan : ∀ j : Slot, j.val < x.pc.scanned → (s.proc j).parent ≠ some p)
    (hfork : ∀ q, x.pc.forks = some q → (s.proc q).state = .used ∧
      (s.proc q).creator = (s.proc p).inc)
    (hinit : p = initproc → x.pc.leaving = false)
    (hexit : (s.proc p).pc.exiting = true → x.pc.exiting = true) :
    Inv { s with proc := update s.proc p x, waitLock := w } := by
  have hlives := PState.ne_of_live hlive'
  refine h.replace hx (iff_of_false hlives.1 (PState.ne_of_live hlive).1) (fun _ => hlive')
    (fun _ => hlive') hw hlock hscan (fun q hq => ⟨?_, hfork q hq⟩) (fun r _ hr => ?_) hinit
    (fun hz => absurd hz hlives.2)
    (fun _ => .inr hlive) hexit
  · rintro rfl
    rw [(hfork q hq).1] at hlive
    cases hlive
  · rw [(h.table.fork r p hr).1] at hlive
    cases hlive

theorem Inv.leave (h : Inv s)
    (hx : Same (s.proc p) x) (hlive : (s.proc p).state.live = true) (hlive' : x.state.live = true)
    (hw : w = s.waitLock ∨ s.waitLock = some p) (hpc : x.pc.locked = false)
    (hfork : x.pc.forks = none) (hinit : p = initproc → x.pc.leaving = false)
    (hexit : (s.proc p).pc.exiting = false) :
    Inv { s with proc := update s.proc p x, waitLock := w } := by
  refine h.move hx hlive hlive' (hw.imp id .inr) ?_ ?_ ?_ hinit ?_
  · intro hl
    rw [hpc] at hl
    cases hl
  · intro j hj
    have hl := Pc.locked_of_scanned (Nat.zero_lt_of_lt hj)
    rw [hpc] at hl
    cases hl
  · intro q hq
    rw [hfork] at hq
    cases hq
  · intro he
    rw [hexit] at he
    cases he

theorem Inv.stay (h : Inv s) (hpc : (s.proc p).pc.locked = true) (hpc' : pc.locked = true)
    (hscan : ∀ j : Slot, j.val < pc.scanned → (s.proc j).parent ≠ some p)
    (hexit : (s.proc p).pc.exiting = pc.exiting) : Inv (s.goto p pc) := by
  have hlive := h.table.busy p (Pc.calm_of_locked hpc)
  have hforks := Pc.forks_of_locked hpc'
  refine h.move ⟨rfl, rfl, rfl, rfl, rfl⟩ hlive hlive (.inl rfl)
    (fun _ => h.table.lock p hpc) hscan ?_ ?_ (fun he => hexit ▸ he)
  · intro q hq
    rw [show pc.forks = some q from hq] at hforks
    cases hforks
  · rintro rfl
    have hinit := h.table.init.2
    rw [Pc.leaving_of_locked hpc, hexit, ← Pc.leaving_of_locked hpc'] at hinit
    exact hinit

theorem Inv.wakeup (h : Inv s) (c : Option Chan) : Inv (s.wakeup p c q) := by
  unfold Sys.wakeup
  split_ifs with hq
  · have hstate := hq.2.1
    exact h.wake (.inr ⟨by rw [hstate]; rfl, rfl⟩)
  · exact h

/-- A turn of `wakeup` leaves the position of its caller alone, and all parent pointers. -/
theorem wakeup_same (c : Option Chan) (r : Slot) : ((s.wakeup p c q).proc r).pc = (s.proc r).pc ∧
      ((s.wakeup p c q).proc r).parent = (s.proc r).parent := by
  unfold Sys.wakeup
  split_ifs
  · exact ⟨view_update Proc.pc r, view_update Proc.parent r⟩
  · exact ⟨rfl, rfl⟩

theorem Inv.alloc (h : Inv s) {i : ℕ} (hrun : (s.proc p).state = .running)
    (hpc : (s.proc p).pc = .allocproc i) (hq : (s.proc q).state = .unused) :
    Inv (s.alloc p q ok) := by
  have hne : p ≠ q := by
    rintro rfl
    rw [hrun] at hq
    cases hq
  cases ok with
  | false =>
    have hfree := h.unallocated (x := { s.proc q with pid := s.nextpid, state := .used }.free)
      ⟨(h.table.unused q hq).1.symm, rfl, rfl, rfl, (h.table.unused q hq).2.symm⟩ rfl hq rfl
    refine hfree.leave (p := p) ⟨rfl, rfl, rfl, rfl, rfl⟩ ?_ ?_ (.inl rfl) rfl rfl (fun _ => rfl) ?_
    all_goals simp [Sys.set, hne, hrun, hpc, PState.live, Pc.exiting]
  | true =>
    have hused := h.allocated (x := { s.proc q with
      pid := s.nextpid, state := .used, pc := .user, inc := s.nextInc
      creator := (s.proc p).inc }) hq rfl ⟨rfl, rfl, rfl, rfl, rfl⟩
    refine hused.move (p := p) ⟨rfl, rfl, rfl, rfl, rfl⟩ ?_ ?_ (.inl rfl) ?_ ?_ ?_ (fun _ => rfl) ?_
    · simp [hne, hrun, PState.live]
    · simp [Sys.set, hne, hrun, PState.live]
    · intro hl
      cases hl
    · intro j hj
      cases hj
    · intro r hr
      cases hr
      simp [hne]
    · simp [hne, hpc, Pc.exiting]

theorem Inv.setParent (h : Inv s) {pid : ℤ} (hrun : (s.proc p).state = .running)
    (hpc : (s.proc p).pc = .setParent q pid) :
    Inv ((s.set q { s.proc q with parent := some p, parentInc := (s.proc p).inc }).goto p
      (.setRunnable q pid)) := by
  obtain ⟨hused, hcreator⟩ := h.table.fork p q (by rw [hpc]; rfl)
  have hne : p ≠ q := by
    rintro rfl
    rw [hrun] at hused
    cases hused
  have hadopt := h.adopt (q := q) (r := p) (by rw [hused]; decide) (by rw [hrun]; rfl)
    (by rw [hpc]; rfl) (.inl hcreator.symm)
  refine hadopt.move (p := p) ⟨rfl, rfl, rfl, rfl, rfl⟩ ?_ ?_ (.inl rfl) ?_ ?_ ?_ (fun _ => rfl) ?_
  · simp [Sys.set, hne, hrun, PState.live]
  · simp [Sys.set, hne, hrun, PState.live]
  · intro hl
    cases hl
  · intro j hj
    cases hj
  · intro r hr
    cases hr
    simp [Sys.set, hne, hused, hcreator]
  · simp [Sys.set, hne, hpc, Pc.exiting]

theorem Inv.setRunnable (h : Inv s) {pid : ℤ} (hrun : (s.proc p).state = .running)
    (hpc : (s.proc p).pc = .setRunnable q pid) :
    Inv ((s.set q { s.proc q with state := .runnable }).sysret p pid) := by
  have hlive : (s.proc p).state.live = true := by rw [hrun]; rfl
  obtain ⟨hused, hcreator⟩ := h.table.fork p q (by rw [hpc]; rfl)
  have hne : q ≠ p := by
    rintro rfl
    rw [hrun] at hused
    cases hused
  -- no other process is creating the same child
  have hother : ∀ r, r ≠ p → (s.proc r).pc.forks ≠ some q := by
    intro r hrp hr
    have hlive' := h.table.busy r (Pc.calm_of_forks hr)
    refine hrp (h.table.incInj r p (PState.ne_of_live hlive').1 (PState.ne_of_live hlive).1 ?_)
    rw [← (h.table.fork r q hr).2, hcreator]
  have hret : Inv (s.sysret p pid) := by
    refine h.leave (p := p) ⟨rfl, rfl, rfl, rfl, rfl⟩ hlive hlive (.inl rfl) rfl rfl
      (fun _ => rfl) ?_
    rw [hpc]
    rfl
  have hstart := hret.started (q := q) (by simp [Sys.sysret, Sys.set, hne, hused]) (by
    intro r
    by_cases hr : r = p
    · simp [Sys.sysret, Sys.set, hr, Pc.forks]
    · simpa [Sys.sysret, Sys.set, hr] using hother r hr)
  simpa only [Sys.sysret, Sys.set, update_of_ne hne, update_of_ne hne.symm,
    update_comm hne] using hstart

/-- `kill` marks the process it was looking for, which may be the caller. -/
theorem Inv.killed (h : Inv s) {pid : ℤ} {i : ℕ} (hrun : (s.proc p).state = .running)
    (hpc : (s.proc p).pc = .kill pid i) :
    Inv ((s.set q { s.proc q with
      killed := true
      state :=
        if (s.proc q).state = .sleeping then .runnable else (s.proc q).state }).sysret p 0) := by
  set u : PState := if (s.proc q).state = .sleeping then .runnable else (s.proc q).state with hu
  have hwake : Inv (s.set q { s.proc q with killed := true, state := u }) := by
    refine h.wake ?_
    rw [hu]
    split_ifs with hst
    · exact .inr ⟨by rw [hst]; rfl, rfl⟩
    · exact .inl rfl
  have hp : ((s.set q { s.proc q with killed := true, state := u }).proc p).state = .running ∧
      ((s.set q { s.proc q with killed := true, state := u }).proc p).pc = .kill pid i := by
    by_cases hqp : p = q
    · subst hqp
      simp [Sys.set, hrun, hpc, hu]
    · simp [Sys.set, hqp, hrun, hpc]
  refine hwake.leave (p := p) ⟨rfl, rfl, rfl, rfl, rfl⟩ ?_ ?_ (.inl rfl) rfl rfl (fun _ => rfl) ?_
  · rw [hp.1]
    rfl
  · simp only [hp.1]
    rfl
  · rw [hp.2]
    rfl

theorem Inv.run_fork (h : Inv s) (hrun : (s.proc p).state = .running)
    (hpc : (s.proc p).pc.locked = false) (hexit : ∀ status, (s.proc p).pc ≠ .exitLock status)
    (hwait : (s.proc p).pc ≠ .waitLock) (hs : s.run p ok (s.proc p).pc = some s') : Inv s' := by
  have hlive : (s.proc p).state.live = true := by rw [hrun]; rfl
  have hnot : (s.proc p).pc.exiting = false := by
    by_contra he
    rw [Pc.locked_of_exiting (by simpa using he)] at hpc
    cases hpc
  -- moves of the process that keep clear of `wait_lock`
  have hmove : ∀ x : Proc, Same (s.proc p) x → x.state.live = true →
      x.pc.locked = false → x.pc.forks = none → x.pc.leaving = false → Inv (s.set p x) :=
    fun x hx hx' hl hf hle => h.leave hx hlive hx' (.inl rfl) hl hf (fun _ => hle) hnot
  generalize hc : (s.proc p).pc = pc at hs
  cases pc with
  | user | dead =>
    cases hs
  | asleep | waitSlept =>
    cases hs
    exact hmove _ ⟨rfl, rfl, rfl, rfl, rfl⟩ hlive rfl rfl rfl
  | allocproc i =>
    simp only [Sys.run] at hs
    split_ifs at hs with hi hq
    · cases hs
      exact h.alloc hrun hc hq
    all_goals
      cases hs
      exact hmove _ ⟨rfl, rfl, rfl, rfl, rfl⟩ hlive rfl rfl rfl
  | setParent np pid =>
    simp only [Sys.run] at hs
    split_ifs at hs with hfree
    cases hs
    exact h.setParent hrun hc
  | setRunnable np pid =>
    cases hs
    exact h.setRunnable hrun hc
  | kill pid i =>
    simp only [Sys.run] at hs
    by_cases hi : i < nproc
    · rw [dif_pos hi] at hs
      by_cases hq : (s.proc ⟨i, hi⟩).pid = pid
      · rw [if_pos hq] at hs
        cases hs
        exact h.killed hrun hc
      · rw [if_neg hq] at hs
        cases hs
        exact hmove _ ⟨rfl, rfl, rfl, rfl, rfl⟩ hlive rfl rfl rfl
    · rw [dif_neg hi] at hs
      cases hs
      exact hmove _ ⟨rfl, rfl, rfl, rfl, rfl⟩ hlive rfl rfl rfl
  | exitLock status => exact absurd hc (hexit status)
  | waitLock => exact absurd hc hwait
  | _ => simp [hc, Pc.locked] at hpc

theorem Inv.acquire (h : Inv s) (hlive : (s.proc p).state.live = true)
    (hpc : (s.proc p).pc.exiting = false) (hscan : pc.scanned = 0) (hforks : pc.forks = none)
    (hinit : p = initproc → pc.leaving = false) (hs : s.acquire p pc = some s') : Inv s' := by
  unfold Sys.acquire at hs
  split_ifs at hs with hfree
  cases hs
  refine h.move (p := p) ⟨rfl, rfl, rfl, rfl, rfl⟩ hlive hlive (.inr (.inl hfree)) (fun _ => rfl)
    ?_ ?_ hinit ?_
  · intro j hj
    rw [show pc.scanned = 0 from hscan] at hj
    cases hj
  · intro q hq
    rw [show pc.forks = some q from hq] at hforks
    cases hforks
  · intro he
    rw [hpc] at he
    cases he

theorem Inv.ne_init (h : Inv s) (hp : (s.proc p).pc.leaving = true) : p ≠ initproc := by
  rintro rfl
  rw [h.table.init.2] at hp
  cases hp

theorem Inv.reparented (h : Inv s) {status : ℤ} {i : ℕ} {hi : i < nproc}
    (hpc : (s.proc p).pc = .reparent status i) (hq : (s.proc ⟨i, hi⟩).parent = some p)
    (hne : p ≠ initproc) : Inv ((s.set ⟨i, hi⟩ { s.proc ⟨i, hi⟩ with
      parent := some initproc, parentInc :=
        (s.proc initproc).inc }).goto p (.wakeInit status i 0)) := by
  set x : Proc :=
    { s.proc ⟨i, hi⟩ with parent := some initproc, parentInc := (s.proc initproc).inc }
  have hlock : s.waitLock = some p := h.table.lock p (by rw [hpc]; rfl)
  have hpc' : ((s.set ⟨i, hi⟩ x).proc p).pc = .reparent status i := by
    rw [← hpc]
    exact view_update Proc.pc p
  have hadopt : Inv (s.set ⟨i, hi⟩ x) := by
    refine h.adopt ?_ h.table.init.1 (h.table.not_scanned ?_) ?_
    · intro h0
      rw [(h.table.unused _ h0).1] at hq
      cases hq
    · rw [hlock]
      exact fun heq => hne (Option.some.inj heq)
    · rcases h.history.creator _ p hq with hinc | hinit
      · exact .inr ⟨rfl, .inr ⟨p, hinc, by rw [hpc]; rfl⟩⟩
      · exact absurd hinit.1 hne
  refine hadopt.stay (by rw [hpc']; rfl) rfl ?_ (by rw [hpc']; rfl)
  intro j hj
  by_cases hji : j = ⟨i, hi⟩
  · subst hji
    simpa [Sys.set, x] using hne.symm
  · have hlt : j.val < i := by
      have hv : j.val ≠ i := fun hv => hji (Fin.ext hv)
      simp only [Pc.scanned] at hj
      omega
    simp only [Sys.set, update_of_ne hji]
    exact h.table.scan p j (by rw [hpc]; exact hlt)

theorem Inv.run_exit (h : Inv s) (hp : (s.proc p).pc.leaving = true)
    (hlive : (s.proc p).state.live = true) (hs : s.run p ok (s.proc p).pc = some s') : Inv s' := by
  have hne := h.ne_init hp
  -- moves within the section under `wait_lock`
  have hstay : ∀ t : Sys, Inv t → (t.proc p).pc = (s.proc p).pc →
      (∀ j, (t.proc j).parent = (s.proc j).parent) → (s.proc p).pc.exiting = true → ∀ pc : Pc,
      pc.exiting = true → (∀ j : Slot, j.val < pc.scanned → (s.proc j).parent ≠ some p) →
      Inv (t.goto p pc) := by
    intro t ht hpc hpar hex pc hex' hscan
    refine ht.stay ?_ (Pc.locked_of_exiting hex') ?_ ?_
    · rw [hpc]
      exact Pc.locked_of_exiting hex
    · intro j hj
      rw [hpar]
      exact hscan j hj
    · rw [hpc, hex, hex']
  have hscan := h.table.scan p
  generalize hc : (s.proc p).pc = pc at hs
  cases pc with
  | exitLock status =>
    exact h.acquire hlive (by rw [hc]; rfl) rfl rfl (fun he => absurd he hne) hs
  | reparent status i =>
    rw [hc] at hscan hstay
    simp only [Sys.run] at hs
    split_ifs at hs with hi hq
    · cases hs
      exact h.reparented hc hq hne
    · cases hs
      refine hstay s h hc (fun _ => rfl) rfl _ rfl ?_
      intro j hj
      rcases Nat.lt_succ_iff_lt_or_eq.1 hj with hj | hj
      · exact hscan j hj
      · have : j = ⟨i, hi⟩ := Fin.ext hj
        rw [this]
        exact hq
    · cases hs
      refine hstay s h hc (fun _ => rfl) rfl _ rfl ?_
      intro j _
      exact hscan j (lt_of_lt_of_le j.isLt (Nat.le_of_not_lt hi))
  | wakeInit _ _ j | wakeParent _ _ j =>
    rw [hc] at hscan hstay
    simp only [Sys.run] at hs
    split_ifs at hs with hj
    · cases hs
      exact hstay _ (h.wakeup _) ((wakeup_same _ p).1.trans hc) (fun j => (wakeup_same _ j).2) rfl _
        rfl hscan
    · cases hs
      exact hstay s h hc (fun _ => rfl) rfl _ rfl hscan
  | zombie status =>
    cases hs
    exact h.zombie hc
  | _ => simp [hc, Pc.leaving, Pc.exiting] at hp

theorem Inv.reap (h : Inv s) {i : ℕ} {havekids : Bool}
    (hpc : (s.proc p).pc = .waitScan i havekids) (hq : (s.proc q).state = .zombie)
    (hparent : (s.proc q).parent = some p) : Inv (s.reap p q) := by
  have hlock : s.waitLock = some p := h.table.lock p (by rw [hpc]; rfl)
  have hlive : (s.proc p).state.live = true := h.table.busy p (by rw [hpc]; rfl)
  have hne : p ≠ q := by
    rintro rfl
    exact (PState.ne_of_live hlive).2 hq
  have hreaped := h.reaped hq hparent (by rw [hpc]; rfl) hlock
  refine hreaped.leave (p := p) ⟨rfl, rfl, rfl, rfl, rfl⟩ ?_ ?_ (.inr hlock) rfl rfl
    (fun _ => rfl) ?_
  · simpa [Sys.set, hne] using hlive
  · simpa [Sys.set, hne] using hlive
  · simp [Sys.set, hne, hpc, Pc.exiting]

theorem Inv.run_wait (h : Inv s)
    (hp : (s.proc p).pc = .waitLock ∨ (s.proc p).pc.locked = true ∧ (s.proc p).pc.exiting = false)
    (hlive : (s.proc p).state.live = true) (hs : s.run p ok (s.proc p).pc = some s') : Inv s' := by
  have hnot : (s.proc p).pc.exiting = false := by
    rcases hp with hp | hp
    · rw [hp]
      rfl
    · exact hp.2
  have hscan := h.table.scan p
  have hret : s.waitLock = some p → Inv (Sys.release (s.sysret p (-1))) := fun hlock =>
    h.leave (p := p) ⟨rfl, rfl, rfl, rfl, rfl⟩ hlive hlive (.inr hlock) rfl rfl (fun _ => rfl) hnot
  generalize hc : (s.proc p).pc = pc at hs
  cases pc with
  | waitLock =>
    exact h.acquire hlive hnot rfl rfl (fun _ => rfl) hs
  | waitScan i havekids =>
    have hlock : s.waitLock = some p := h.table.lock p (by rw [hc]; rfl)
    have hstay : ∀ pc : Pc, pc.locked = true → pc.exiting = false →
        (∀ j : Slot, j.val < pc.scanned → (s.proc j).parent ≠ some p) → Inv (s.goto p pc) :=
      fun pc hl he hsc => h.stay (by rw [hc]; rfl) hl hsc (by rw [hc, he]; rfl)
    rw [hc] at hscan
    simp only [Sys.run] at hs
    by_cases hi : i < nproc
    · rw [dif_pos hi] at hs
      by_cases hq : (s.proc ⟨i, hi⟩).parent = some p
      · rw [if_pos hq] at hs
        split_ifs at hs with hz hok
        · cases hs
          exact h.reap hc hz hq
        · cases hs
          exact hret hlock
        · cases hs
          refine hstay _ rfl rfl ?_
          intro j hj
          simp [Pc.scanned] at hj
      · rw [if_neg hq] at hs
        cases hs
        refine hstay _ rfl rfl ?_
        intro j hj
        cases havekids with
        | true => simp [Pc.scanned] at hj
        | false =>
          simp only [Pc.scanned, Bool.false_eq_true, if_false] at hj hscan
          rcases Nat.lt_succ_iff_lt_or_eq.1 hj with hj | hj
          · exact hscan j hj
          · have hji : j = ⟨i, hi⟩ := Fin.ext hj
            rw [hji]
            exact hq
    · rw [dif_neg hi] at hs
      cases hs
      refine hstay _ rfl rfl ?_
      intro j hj
      cases havekids with
      | true => simp [Pc.scanned] at hj
      | false => exact hscan j (lt_of_lt_of_le j.isLt (Nat.le_of_not_lt hi))
  | waitCheck havekids =>
    have hlock : s.waitLock = some p := h.table.lock p (by rw [hc]; rfl)
    simp only [Sys.run] at hs
    split_ifs at hs
    · cases hs
      exact hret hlock
    · cases hs
      refine h.stay (by rw [hc]; rfl) rfl ?_ (by rw [hc]; rfl)
      intro j hj
      cases hj
  | waitSleep =>
    have hlock : s.waitLock = some p := h.table.lock p (by rw [hc]; rfl)
    cases hs
    exact h.leave (p := p) ⟨rfl, rfl, rfl, rfl, rfl⟩ hlive rfl (.inr hlock) rfl rfl
      (fun _ => rfl) hnot
  | _ => simp [hc, Pc.locked, Pc.exiting] at hp

theorem inv_boot : Inv boot := by
  have hnone : ∀ q, (boot.proc q).parent = none ∧ (boot.proc q).pc = .user ∧
      (boot.proc q).inc = 0 := by
    intro q
    unfold boot
    dsimp only
    split_ifs <;> exact ⟨rfl, rfl, rfl⟩
  have hstate : ∀ q, (boot.proc q).state ≠ .unused → q = initproc := by
    intro q hq
    by_contra hne
    simp [boot, hne] at hq
  have hlive : ∀ q, (boot.proc q).state ≠ .zombie := by
    intro q
    unfold boot
    dsimp only
    split_ifs <;> decide
  constructor
  · constructor
    case init => exact ⟨rfl, rfl⟩
    case unused =>
      intro q hq
      refine ⟨(hnone q).1, ?_⟩
      simp only [boot] at hq ⊢
      split_ifs at hq ⊢
      rfl
    case incLt =>
      intro q _
      rw [(hnone q).2.2]
      exact Nat.zero_lt_one
    case incInj =>
      intro q r hq hr _
      rw [hstate q hq, hstate r hr]
    case pid =>
      intro q hq
      rw [hstate q hq]
      decide +kernel
    case nextpid => decide +kernel
    case busy | lock =>
      intro q hq
      rw [(hnone q).2.1] at hq
      cases hq
    case parent | scan | fork =>
      intro q r
      simp [hnone, Pc.scanned, Pc.forks]
  · constructor
    case zombie =>
      intro q hq
      exact absurd hq (hlive q)
    case creator =>
      intro q r hq
      rw [(hnone q).1] at hq
      cases hq
    all_goals simp [boot]

theorem Inv.syscall (h : Inv s) (hp : s.inUser p) (hlock : pc.locked = false)
    (hforks : pc.forks = none) (hinit : p = initproc → pc.leaving = false) : Inv (s.goto p pc) := by
  have hlive : (s.proc p).state.live = true := by rw [hp.1]; rfl
  exact h.leave (p := p) ⟨rfl, rfl, rfl, rfl, rfl⟩ hlive hlive (.inl rfl) hlock hforks hinit
    (by rw [hp.2]; rfl)

theorem inv_step (h : Inv s) (hs : step s a = some s') : Inv s' := by
  unfold step at hs
  split_ifs at hs
  cases a with
  | sched p =>
    simp only at hs
    split_ifs at hs with hp
    cases hs
    exact h.wake (.inr ⟨by rw [hp]; rfl, rfl⟩)
  | yield p =>
    simp only at hs
    split_ifs at hs with hp
    cases hs
    exact h.wake (.inr ⟨by rw [hp.1]; rfl, rfl⟩)
  | fork p | wait p | kill p pid =>
    simp only at hs
    split_ifs at hs with hp
    cases hs
    exact h.syscall hp rfl rfl (fun _ => rfl)
  | exit p status =>
    simp only at hs
    split_ifs at hs with hp hinit
    · cases hs
      exact ⟨{ h.table with }, { h.history with }⟩
    · cases hs
      exact h.syscall hp rfl rfl (fun he => absurd he hinit)
  | sleep p c =>
    simp only at hs
    split_ifs at hs with hp
    cases hs
    exact h.leave (p := p) ⟨rfl, rfl, rfl, rfl, rfl⟩ (by rw [hp.1]; rfl) rfl (.inl rfl) rfl rfl
      (fun _ => rfl) (by rw [hp.2]; rfl)
  | wakeup c q =>
    simp only at hs
    split_ifs at hs with hq
    cases hs
    exact h.wake (.inr ⟨by rw [hq.1]; rfl, rfl⟩)
  | run p ok =>
    simp only at hs
    split_ifs at hs with hrun
    have hlive : (s.proc p).state.live = true := by rw [hrun]; rfl
    by_cases hleave : (s.proc p).pc.leaving = true
    · exact h.run_exit hleave hlive hs
    by_cases hwait : (s.proc p).pc = .waitLock
    · exact h.run_wait (.inl hwait) hlive hs
    cases hlock : (s.proc p).pc.locked with
    | true =>
      refine h.run_wait (.inr ⟨hlock, ?_⟩) hlive hs
      rw [Pc.leaving_of_locked hlock] at hleave
      simpa using hleave
    | false =>
      refine h.run_fork hrun hlock ?_ hwait hs
      intro status hc
      rw [hc] at hleave
      exact hleave rfl

/-! ## What `wait` returns -/

/-- A process inside a system call moves by its own steps only. -/
theorem pc_of_other (hs : step s a = some s') (hq : (s.proc q).state ≠ .unused)
    (hpc : (s.proc q).pc ≠ .user) (ha : ∀ ok, a ≠ .run q ok) : (s'.proc q).pc = (s.proc q).pc := by
  obtain ⟨p, heffect, hactor⟩ := step_effect hs
  by_cases hqp : q = p
  · subst hqp
    rcases hactor with ⟨-, ok, rfl⟩ | huser | hsame
    · exact absurd rfl (ha ok)
    · exact absurd huser hpc
    · exact hsame
  · exact (heffect.pc_of_ne hqp).resolve_right fun hnew => hq hnew.1

/-- The pid that is returned is -1 only after 2^32 - 2 other processes. -/
structure WaitOk (s t : Sys) (p q : Slot) : Prop where
  parent : (s.proc q).parent = some p
  zombie : (s.proc q).state = .zombie
  ret : (t.proc p).ret = (s.proc q).pid
  positive : (t.proc p).ret = -1 → 2 ^ 32 - 2 < s.nextInc
  reaped : t.reaped = s.reaped ++ [⟨(s.proc q).inc, (s.proc q).creator, (s.proc q).pid,
    (s.proc q).xstate, p, (s.proc p).inc⟩]

structure WaitFail (s : Sys) (a : Act) (t : Sys) (p : Slot) : Prop where
  ret : (t.proc p).ret = -1
  reaped : t.reaped = s.reaped
  cause : (∀ q, (s.proc q).parent ≠ some p) ∨ (s.proc p).killed = true ∨
    a = .run p false ∧ ∃ q, (s.proc q).parent = some p ∧ (s.proc q).state = .zombie ∧
      t.proc q = s.proc q ∧ t.waitLock = none

theorem wait_returns (h : Inv s) (hs : step s a = some s')
    (hw : (s.proc p).pc.waiting = true) (hpc : (s'.proc p).pc = .user) :
    (∃ q, WaitOk s s' p q) ∨ WaitFail s a s' p := by
  have hcalm : (s.proc p).pc.calm = false := by
    cases hc : (s.proc p).pc <;> simp_all [Pc.waiting, Pc.calm]
  have hlive := h.table.busy p hcalm
  have hne : (s.proc p).pc ≠ .user := by
    intro hc
    rw [hc] at hcalm
    cases hcalm
  by_cases ha : ∀ ok, a ≠ .run p ok
  · rw [pc_of_other hs (PState.ne_of_live hlive).1 hne ha] at hpc
    exact absurd hpc hne
  push Not at ha
  obtain ⟨ok, rfl⟩ := ha
  unfold step at hs
  split_ifs at hs
  simp only at hs
  split_ifs at hs
  have hscan := h.table.scan p
  generalize hc : (s.proc p).pc = pc at hs
  cases pc with
  | waitLock =>
    simp only [Sys.run, Sys.acquire] at hs
    split_ifs at hs
    cases hs
    simp [Sys.goto, Sys.set] at hpc
  | waitScan i havekids =>
    simp only [Sys.run] at hs
    split_ifs at hs with hi hq hz hok
    · cases hs
      have hret : ((s.reap p ⟨i, hi⟩).proc p).ret = (s.proc ⟨i, hi⟩).pid := by
        simp [Sys.reap, Sys.release, Sys.sysret, Sys.set]
      have hne : (s.proc ⟨i, hi⟩).state ≠ .unused := by simp [hz]
      refine .inl ⟨⟨i, hi⟩, hq, hz, hret, fun hneg => ?_, rfl⟩
      rw [hret, h.table.pid _ hne] at hneg
      exact (le_of_pidOf hneg).trans_lt (h.table.incLt _ hne)
    · cases hs
      refine .inr ⟨by simp [Sys.release, Sys.sysret, Sys.set], rfl,
        .inr (.inr ⟨?_, ⟨i, hi⟩, hq, hz, ?_, rfl⟩)⟩
      · rw [Bool.eq_false_of_not_eq_true hok]
      · refine update_of_ne ?_ _ _
        rintro rfl
        exact (PState.ne_of_live hlive).2 hz
    all_goals
      cases hs
      simp [Sys.goto, Sys.set] at hpc
  | waitCheck havekids =>
    rw [hc] at hscan
    simp only [Sys.run] at hs
    split_ifs at hs with hcause
    · cases hs
      refine .inr ⟨by simp [Sys.release, Sys.sysret, Sys.set], rfl, ?_⟩
      rcases hcause with rfl | hk
      · exact .inl fun q => hscan q q.isLt
      · exact .inr (.inl hk)
    · cases hs
      simp [Sys.goto, Sys.set] at hpc
  | waitSleep | waitSlept =>
    cases hs
    simp [Sys.release, Sys.set] at hpc
  | _ => simp [hc, Pc.waiting] at hw

theorem reaped_of_ne (hs : step s a = some s') (hne : s'.reaped ≠ s.reaped) :
    ∃ p, (s.proc p).pc.waiting = true ∧ (s'.proc p).pc = .user := by
  unfold step at hs
  split_ifs at hs
  cases a with
  | run p ok =>
    simp only at hs
    split_ifs at hs
    refine ⟨p, ?_⟩
    cases hc : (s.proc p).pc with
    | waitScan i havekids =>
      rw [hc] at hs
      refine ⟨rfl, ?_⟩
      simp only [Sys.run] at hs
      split_ifs at hs
      · cases hs
        simp [Sys.reap, Sys.release, Sys.sysret, Sys.set]
      all_goals
        cases hs
        exact absurd rfl hne
    | _ =>
      rw [hc] at hs
      exfalso
      apply hne
      simp only [Sys.run, Sys.acquire, Sys.alloc, Sys.wakeup] at hs
      repeat' split at hs
      all_goals first
        | contradiction
        | (cases hs
           rfl)
  | _ =>
    simp only at hs
    split_ifs at hs
    all_goals
      cases hs
      exact absurd rfl hne

/-- In every state of every run: each exited process was returned by at most one `wait`, with its
own pid and status, to the process that created it or, once that has exited, to `initproc`; parent
pointers lead to processes that are alive and were not replaced; and a `wait` that returns gives a
zombie child's pid, which is not -1 in the first 2^32 - 2 processes, or -1 for one of the three
reasons, keeping the zombie if `copyout` failed. -/
theorem exit_wait_protocol {as : List Act} (hrun : run step boot as = some s) :
    ((s.reaped.map Reap.child).Nodup ∧ ∀ r ∈ s.reaped,
      s.exited r.child = some (r.pid, r.status) ∧
      (r.inc = r.creator ∨ r.slot = initproc ∧ s.exited r.creator ≠ none)) ∧
    (∀ q r, (s.proc q).state ≠ .unused → (s.proc q).parent = some r →
      (s.proc r).state ≠ .unused ∧ (s.proc r).state ≠ .zombie ∧
      (s.proc r).inc = (s.proc q).parentInc) ∧
    (∀ a t p, step s a = some t → (s.proc p).pc.waiting = true → (t.proc p).pc = .user →
      (∃ q, WaitOk s t p q) ∨ WaitFail s a t p) ∧
    ∀ a t, step s a = some t → t.reaped ≠ s.reaped → ∃ p, (s.proc p).pc.waiting = true ∧
    (t.proc p).pc = .user := by
  have h : Inv s := run_invariant_all (fun _ _ _ h hs => inv_step h hs) inv_boot hrun
  refine ⟨⟨h.history.once, h.history.reaped⟩, ?_, fun a t p hs => wait_returns h hs,
    fun a t => reaped_of_ne⟩
  intro q r _ hq
  obtain ⟨hlive, hinc⟩ := h.table.parent q r hq
  exact ⟨(PState.ne_of_live hlive).1, (PState.ne_of_live hlive).2, hinc⟩

def forkExitWait : List Act :=
  [.sched initproc, .fork initproc] ++ List.replicate 4 (.run initproc true) ++
    [.sched firstFree, .exit firstFree 7] ++ List.replicate 132 (.run firstFree true) ++
    [.wait initproc] ++ List.replicate 3 (.run initproc true)

theorem exit_wait_protocol_forkExitWait :
    ∃ s, run step boot forkExitWait = some s ∧ (s.proc initproc).ret = 2 ∧
      s.reaped.map Reap.status = [7] ∧ (s.reaped.map Reap.child).Nodup := by
  have hrun : (run step boot forkExitWait).elim false (fun s =>
      decide ((s.proc initproc).ret = 2 ∧ s.reaped.map Reap.status = [7])) = true := by
    decide +kernel
  obtain ⟨s, hs, hd⟩ := exists_of_elim hrun
  obtain ⟨hret, hstatus⟩ := of_decide_eq_true hd
  exact ⟨s, hs, hret, hstatus, (exit_wait_protocol hs).1.1⟩

/-- The table after `n` calls of `fork` by `initproc` for which there was no memory. -/
def outOfMemory (ret nextpid : ℤ) (n : ℕ) : Sys :=
  { boot with
    proc := update boot.proc initproc { boot.proc initproc with state := .running, ret := ret }
    nextpid := nextpid
    nextInc := n + 1 }

def failedFork : List Act := [.fork initproc, .run initproc true, .run initproc false]

theorem run_failedFork (ret nextpid : ℤ) (n : ℕ) :
    run step (outOfMemory ret nextpid n) failedFork =
    some (outOfMemory (-1) (bumpPid nextpid) (n + 1)) := by
  have hrun : run step (outOfMemory ret nextpid n) failedFork =
      some ((((outOfMemory ret nextpid n).goto initproc (.allocproc 0)).goto initproc
        (.allocproc 1)).alloc initproc firstFree false) := rfl
  have hproc (q : Slot) : ((((outOfMemory ret nextpid n).goto initproc (.allocproc 0)).goto initproc
      (.allocproc 1)).alloc initproc firstFree false).proc q =
      (outOfMemory (-1) (bumpPid nextpid) (n + 1)).proc q := by
    by_cases hinit : q = initproc
    · subst hinit
      rfl
    by_cases hfirst : q = firstFree
    · subst hfirst
      rfl
    · simp [Sys.alloc, Sys.sysret, Sys.goto, Sys.set, outOfMemory, hinit, hfirst]
  rw [hrun, Option.some.injEq]
  change Sys.mk _ _ _ _ _ _ _ = Sys.mk _ _ _ _ _ _ _
  rw [Sys.mk.injEq]
  exact ⟨funext hproc, rfl, rfl, rfl, rfl, rfl, rfl⟩

theorem run_failedForks (n : ℕ) :
    run step boot (.sched initproc :: (replicate (n + 1) failedFork).flatten) =
      some (outOfMemory (-1) (pidOf (n + 2)) (n + 1)) := by
  induction n with
  | zero =>
    have hpid : bumpPid 2 = pidOf (0 + 2) := by decide +kernel
    rw [← hpid]
    exact run_failedFork 0 2 0
  | succ n ih =>
    rw [replicate_succ', flatten_append, flatten_singleton, ← cons_append, run_append, ih,
      Option.bind_some, run_failedFork, bumpPid_pidOf, show n + 2 + 1 = n + 1 + 2 from rfl]

def reapChild : List Act := (forkExitWait.drop 1).dropLast

theorem run_reapChild : (run step (outOfMemory (-1) (-1) (2 ^ 32 - 3)) reapChild).elim
    false (fun s =>
    (step s (.run initproc true)).elim false fun t => decide ((s.proc initproc).pc.waiting = true ∧
      (t.proc initproc).pc = .user ∧ (t.proc initproc).ret = -1 ∧
      (s.proc firstFree).parent = some initproc ∧ (s.proc initproc).killed = false ∧
      (t.proc firstFree).state = .unused)) = true := by
  decide +kernel

/-- The process that is created after 2^32 - 2 others has the pid -1. `wait` returns it, although
the caller is not killed, has this child and `copyout` succeeds. -/
theorem wait_returns_negative_pid : ∃ as s t, run step boot as = some s ∧
    step s (.run initproc true) = some t ∧ (s.proc initproc).pc.waiting = true ∧
    (t.proc initproc).pc = .user ∧ (t.proc initproc).ret = -1 ∧
    (s.proc firstFree).parent = some initproc ∧ (s.proc initproc).killed = false ∧
    (t.proc firstFree).state = .unused := by
  have hpid : pidOf (2 ^ 32 - 2) = -1 := by decide +kernel
  have hforks := run_failedForks (2 ^ 32 - 4)
  rw [show 2 ^ 32 - 4 + 2 = 2 ^ 32 - 2 by norm_num, hpid,
    show 2 ^ 32 - 4 + 1 = 2 ^ 32 - 3 by norm_num] at hforks
  obtain ⟨as, has⟩ : ∃ as, run step boot as = some (outOfMemory (-1) (-1) (2 ^ 32 - 3)) :=
    ⟨_, hforks⟩
  obtain ⟨s, hs, hnext⟩ := exists_of_elim run_reapChild
  obtain ⟨t, ht, hd⟩ := exists_of_elim hnext
  refine ⟨as ++ reapChild, s, t, ?_, ht, of_decide_eq_true hd⟩
  rw [run_append, has, Option.bind_some, hs]

end Xv6.ProcTable
