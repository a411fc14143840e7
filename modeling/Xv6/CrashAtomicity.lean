import Xv6.StorageStep

/-!
# Crash atomicity of the log

A crash at any point of any run, with any number of further crashes during recovery, followed by a
`recover_from_log` that completes, leaves outside the log area exactly the contents after the first
`ncommit` groups of the history. `OpInv` adds what makes this atomic for operations: no operation
has writes in two groups, and an operation that has not ended has writes in the open group only.
-/

namespace Xv6.Storage

open Transition Function List

variable {P : Type} {s s' : Sys P} {p : P} {v : Slot} {d : Disk}

def Ghost.Whole (g : Ghost) : Prop :=
  (g.groups ++ [g.cur]).Pairwise fun x y => ∀ w ∈ x, ∀ w' ∈ y, w.op ≠ w'.op

structure OpInv (s : Sys P) : Prop where
  whole : s.gh.Whole
  ongoing : ∀ p o, s.op p = some o → o < s.gh.nextOp ∧ ∀ w ∈ s.gh.groups.flatten, w.op ≠ o
  numbered : ∀ w ∈ s.gh.groups.flatten ++ s.gh.cur, w.op < s.gh.nextOp

def Loc.writesLog : Loc → Bool
  | .wlTo _ | .wlFrom .. | .wlMove .. | .wlRelFrom .. | .wlRelTo .. => true
  | .whGet _ | .whPut .. | .whRel .. => true
  | _ => false

/-- Steps of a machine that is starting: the boot process goes on, or the machine crashes again. -/
def Act.Reboot : Act P → Prop
  | .tick .. | .crash _ => True
  | _ => False

/-! ## Operations and groups -/

theorem OpInv.of_eq (h : OpInv s) (hg : s'.gh.groups = s.gh.groups) (hc : s'.gh.cur = s.gh.cur)
    (hn : s'.gh.nextOp = s.gh.nextOp) (ho : s'.op = s.op) : OpInv s' := by
  obtain ⟨hw, hon, hnum⟩ := h
  unfold Ghost.Whole at hw
  rw [← hg, ← hc] at hw
  rw [← hg, ← hc, ← hn] at hnum
  rw [← hg, ← hn, ← ho] at hon
  exact ⟨hw, hon, hnum⟩

theorem Ghost.Whole.append {g : Ghost} (h : g.Whole) {w : Write}
    (hw : ∀ v ∈ g.groups.flatten, v.op ≠ w.op) : { g with cur := g.cur ++ [w] }.Whole := by
  unfold Ghost.Whole at *
  rw [pairwise_append] at h ⊢
  refine ⟨h.1, pairwise_singleton _ _, ?_⟩
  intro x hx y hy v hv u hu
  obtain rfl := mem_singleton.1 hy
  rcases mem_append.1 hu with hu | hu
  · exact h.2.2 x hx _ (mem_singleton_self _) v hv u hu
  · obtain rfl := mem_singleton.1 hu
    exact hw v (mem_flatten.2 ⟨x, hx, hv⟩)

theorem whole_snoc_nil {gs : List (List Write)} {R : Write → Write → Prop}
    (h : gs.Pairwise fun x y => ∀ w ∈ x, ∀ w' ∈ y, R w w') :
    (gs ++ [[]]).Pairwise fun x y => ∀ w ∈ x, ∀ w' ∈ y, R w w' := by
  refine pairwise_append.2 ⟨h, pairwise_singleton _ _, ?_⟩
  intro x _ y hy v _ u hu
  obtain rfl := mem_singleton.1 hy
  cases hu

theorem OpInv.logWrite (h : OpInv s) {t : Slot} {o : ℕ} (ho : s.op p = some o) :
    OpInv (s.logWrite t o) := by
  cases hl : s.log.logWrite (s.bufs t).blockno with
  | error e =>
    simp only [Sys.logWrite, hl]
    exact h.of_eq rfl rfl rfl rfl
  | ok r =>
    simp only [Sys.logWrite, hl]
    refine ⟨h.whole.append (h.ongoing p o ho).2, h.ongoing, ?_⟩
    intro w hw
    rw [← append_assoc, mem_append, mem_singleton] at hw
    rcases hw with hw | rfl
    · exact h.numbered w hw
    · exact (h.ongoing p o ho).1

/-- The buffer that the position writes to disk. -/
def Loc.writes : Loc → Option Slot
  | .wlMove _ t _ | .whPut _ t | .itMove _ _ _ t => some t
  | _ => none

structure TickFrame (p : P) (s s' : Sys P) : Prop where
  base : s'.gh.base = s.gh.base := by rfl
  groups : s'.gh.groups = s.gh.groups := by rfl
  cur : s'.gh.cur = s.gh.cur := by rfl
  nextOp : s'.gh.nextOp = s.gh.nextOp := by rfl
  op : s'.op = s.op := by rfl
  log : s'.log.start = s.log.start ∧ s'.log.size = s.log.size := by exact ⟨rfl, rfl⟩
  thr : ∀ q, q ≠ p → s'.thr q = s.thr q
  ncommit : (∀ buf, (s.thr p).loc ≠ .whPut .commit buf) →
    s'.gh.ncommit = s.gh.ncommit := by exact fun _ => rfl
  view : s'.gh.view = s.gh.view := by rfl
  up : s'.up = s.up ∨ s'.up = true ∧ s'.thr p = ⟨.client, none⟩ := by exact .inl rfl
  disk : s'.disk = s.disk ∨ (s.thr p).call = none ∧ ∃ t data, (s.thr p).loc.writes = some t ∧
    s'.disk = update s.disk (s.bufs t).blockno data := by exact .inl rfl

theorem TickFrame.durable (h : TickFrame p s s')
    (hloc : ∀ buf, (s.thr p).loc ≠ .whPut .commit buf) : s'.durable = s.durable := by
  unfold Sys.durable Ghost.after
  rw [h.base, h.groups, h.ncommit hloc]

variable [DecidableEq P]

theorem OpInv.beginOp (h : OpInv s) (l : Log) : OpInv { s with
      log := l
      op := update s.op p (some s.gh.nextOp)
      gh := { s.gh with nextOp := s.gh.nextOp + 1 } } := by
  refine ⟨h.whole, ?_, ?_⟩
  · intro q o hq
    by_cases hqp : q = p
    · subst hqp
      simp only [update_self] at hq
      cases hq
      refine ⟨Nat.lt_succ_self _, fun w hw => ?_⟩
      exact (h.numbered w (mem_append_left _ hw)).ne
    · simp only [update_of_ne hqp] at hq
      obtain ⟨hlt, hgroups⟩ := h.ongoing q o hq
      exact ⟨Nat.lt_succ_of_lt hlt, hgroups⟩
  · intro w hw
    exact Nat.lt_succ_of_lt (h.numbered w hw)

theorem OpInv.crash (h : OpInv s) (p : P) : OpInv (s.crash p) := by
  refine ⟨?_, ?_, ?_⟩
  · exact whole_snoc_nil ((pairwise_append.1 h.whole).1.sublist (take_sublist _ _))
  · intro q o hq
    cases hq
  · intro w hw
    apply h.numbered
    simp only [Sys.crash, append_nil] at hw
    obtain ⟨g, hg, hwg⟩ := mem_flatten.1 hw
    exact mem_append_left _ (mem_flatten.2 ⟨g, mem_of_mem_take hg, hwg⟩)

theorem update_thr {th : Thread} (q : P) (hq : q ≠ p) :
    update s.thr p th q = s.thr q := update_of_ne hq _ _

theorem tickFrame_bread {b : ℕ} (hs : s.bread p b v = some s') : TickFrame p s s' := by
  rcases bread_cases hs with rfl | ⟨t, -, rfl⟩ | ⟨-, -, rfl⟩
  · exact { thr := fun _ _ => rfl }
  · exact { thr := update_thr }
  · exact { thr := update_thr }

theorem tickFrame_stepCall {c : Call} (hs : s.stepCall p c = some s') : TickFrame p s s' := by
  cases c with
  | lock t =>
    simp only [Sys.stepCall] at hs
    split_ifs at hs
    cases hs
    exact { thr := update_thr }
  | fill t =>
    cases hs
    exact { thr := update_thr }
  | unref t =>
    cases hs
    refine { thr := update_thr, up := ?_ }
    cases hlast : Sys.lastOfRecovery (s.thr p).loc with
    | false => exact .inl (by simp [Sys.setThr])
    | true =>
      right
      obtain ⟨buf, hloc⟩ := loc_of_lastOfRecovery hlast
      simp [Sys.setThr, hloc, Sys.afterBrelse]

theorem tickFrame_stepLoc (hcall : (s.thr p).call = none)
    (hs : s.stepLoc p v (s.thr p).loc = some s') :
    TickFrame p s s' := by
  generalize hloc : (s.thr p).loc = loc at hs
  cases loc with
  | client => cases hs
  | wlTo _ | wlFrom _ _ | whGet _ | itLog _ _ | itDst _ _ _ | rhGet => exact tickFrame_bread hs
  | whPut w buf =>
    cases hs
    have hdisk : (s.thr p).loc.writes = some buf := by rw [hloc]; rfl
    cases w with
    | commit =>
      exact { thr := update_thr, ncommit := fun h => absurd hloc (h buf),
              disk := .inr ⟨hcall, _, _, hdisk, rfl⟩ }
    | erase | recover => exact { thr := update_thr, disk := .inr ⟨hcall, _, _, hdisk, rfl⟩ }
  | wlMove _ _ _ | itMove _ _ _ _ =>
    cases hs
    exact { thr := update_thr, disk := .inr ⟨hcall, _, _, by rw [hloc]; rfl, rfl⟩ }
  | wlRelFrom _ _ _ | wlRelTo _ _ | whRel _ _ | itUnpin _ _ _ | itRelLog _ _ _ _
  | itRelDst _ _ _ | clear _ | done | rhRead _ | rhRel _ =>
    cases hs
    exact { thr := update_thr }

theorem tickFrame_tick (hs : step s (.tick p v) = some s') : TickFrame p s s' := by
  cases step_cases hs with
  | loc hcall hs => exact tickFrame_stepLoc hcall hs
  | call _ hs => exact tickFrame_stepCall hs

theorem thr_ne_of_tick (hs : step s (.tick p v) = some s') : s.thr p ≠ ⟨.client, none⟩ := by
  intro hth
  simp [step, hth, Sys.stepLoc] at hs

theorem step_fixed {a : Act P} (hs : step s a = some s') :
    s'.gh.base = s.gh.base ∧ s'.log.start = s.log.start ∧ s'.log.size = s.log.size := by
  cases step_cases hs with
  | crash | modify | brelse => exact ⟨rfl, rfl, rfl⟩
  | loc | call =>
    have hf := tickFrame_tick hs
    exact ⟨hf.base, hf.log⟩
  | bread _ _ hs =>
    have hf := tickFrame_bread hs
    exact ⟨hf.base, hf.log⟩
  | logWrite => exact logWrite_frame.2.2
  | beginOp _ _ hl =>
    obtain ⟨-, -, rfl⟩ := Log.beginOp_eq_some.1 hl
    exact ⟨rfl, rfl, rfl⟩
  | endOp => exact endOp_frame.2.2

variable [Fintype P]

theorem OpInv.endOp (h : OpInv s) (hinv : Inv s) {o : ℕ} (ho : s.op p = some o) :
    OpInv (s.endOp p) := by
  cases hl : s.log.endOp with
  | error e =>
    simp only [Sys.endOp, hl]
    exact h.of_eq rfl rfl rfl rfl
  | ok r =>
    obtain ⟨l, c⟩ := r
    cases c with
    | false =>
      simp only [Sys.endOp, hl]
      refine ⟨h.whole, ?_, h.numbered⟩
      intro q o' hq
      by_cases hqp : q = p
      · subst hqp
        simp at hq
      · simp only [update_of_ne hqp] at hq
        exact h.ongoing q o' hq
    | true =>
      have hnone := hinv.log.op_of_last ho hl
      have hongoing : ∀ q o', update s.op p none q = some o' → False := by
        intro q o' hq
        rw [hnone q] at hq
        cases hq
      have hnum : ∀ w ∈ (s.gh.groups ++ [s.gh.cur]).flatten ++ [], w.op < s.gh.nextOp := by
        simpa using h.numbered
      simp only [Sys.endOp, hl]
      split_ifs <;> exact ⟨whole_snoc_nil h.whole, fun q o' hq => (hongoing q o' hq).elim, hnum⟩

theorem opInv_step {a : Act P} (h : OpInv s) (hinv : Inv s) (hs : step s a = some s') :
    OpInv s' := by
  cases step_cases hs with
  | crash p => exact h.crash p
  | loc | call =>
    have hf := tickFrame_tick hs
    exact h.of_eq hf.groups hf.cur hf.nextOp hf.op
  | bread _ _ hs =>
    have hf := tickFrame_bread hs
    exact h.of_eq hf.groups hf.cur hf.nextOp hf.op
  | modify | brelse => exact h.of_eq rfl rfl rfl rfl
  | logWrite _ _ _ hop => exact h.logWrite hop
  | beginOp => exact h.beginOp _
  | endOp _ hop => exact h.endOp hinv hop

/-! ## Recovery -/

/-- The machine is starting: only the boot process `r` does anything, and it restores `d`. -/
structure Booting (d : Disk) (start size : ℕ) (t : Sys P) : Prop where
  inv : Inv t
  durable : t.durable = d
  log : t.log.start = start ∧ t.log.size = size
  quiet : ∃ r, (∀ q, q ≠ r → t.thr q = ⟨.client, none⟩) ∧ (t.up = true → t.thr r = ⟨.client, none⟩)

theorem booting_crash (h : Recoverable s) (p : P) :
    Booting s.durable s.log.start s.log.size (s.crash p) := by
  refine ⟨h.crash p, durable_crash, ⟨rfl, rfl⟩, p, ?_, ?_⟩
  · intro q hq
    simp [Sys.crash, hq]
  · intro hup
    cases hup

theorem booting_step {start size : ℕ} {a : Act P} (h : Booting d start size s)
    (ha : a.Reboot) (hs : step s a = some s') : Booting d start size s' := by
  cases a with
  | crash p =>
    cases hs
    have hboot := booting_crash h.inv.recoverable p
    rw [h.durable, h.log.1, h.log.2] at hboot
    exact hboot
  | tick p v =>
    obtain ⟨r, hothers, hdone⟩ := h.quiet
    have hne := thr_ne_of_tick hs
    have hpr : p = r := by
      by_contra hpr
      exact hne (hothers p hpr)
    subst hpr
    have hup : s.up ≠ true := fun hup => hne (hdone hup)
    have hf := tickFrame_tick hs
    -- the header write of a commit is made by a machine that is up
    have hloc : ∀ buf, (s.thr p).loc ≠ .whPut .commit buf := by
      intro buf hloc
      have hst := (h.inv.busy_of_loc (p := p) (by simp [hloc])).stage
      rw [hloc] at hst
      exact hup hst.1
    refine ⟨inv_step h.inv hs, (hf.durable hloc).trans h.durable,
      ⟨hf.log.1.trans h.log.1, hf.log.2.trans h.log.2⟩, p, ?_, ?_⟩
    · intro q hq
      rw [hf.thr q hq]
      exact hothers q hq
    · intro hup'
      rcases hf.up with heq | hdone
      · exact absurd (heq ▸ hup') hup
      · exact hdone.2
  | _ => exact ha.elim

theorem booting_run {start size : ℕ} {as : List (Act P)} (h : Booting d start size s)
    (has : ∀ a ∈ as, a.Reboot) (hrun : run step s as = some s') : Booting d start size s' := by
  induction as generalizing s with
  | nil =>
    cases hrun
    exact h
  | cons a as ih =>
    obtain ⟨t, ht, hrest⟩ := (run_cons_eq_some step s s' a as).1 hrun
    have hboot := booting_step h (has a (mem_cons_self ..)) ht
    exact ih hboot (fun b hb => has b (mem_cons_of_mem _ hb)) hrest

/-- When recovery has completed, every block outside the log area is restored. -/
theorem Booting.disk_eq {start size : ℕ} (h : Booting d start size s)
    (hup : s.up = true) {b : ℕ} (hb : ¬ s.log.Area b) : s.disk b = d b := by
  obtain ⟨r, hothers, hdone⟩ := h.quiet
  have hall : ∀ q, (s.thr q).loc = .client := by
    intro q
    by_cases hq : q = r
    · rw [hq, hdone hup]
    · rw [hothers q hq]
  have hhead : s.head = [] := by
    rcases h.inv.mode with hidle | ⟨q, hq⟩
    · exact hidle.2.2.1
    · exact absurd rfl (hq.ne_of_client (hall q))
  rw [← h.durable]
  exact h.inv.log.homeData b hb (by simp [hhead])

/-! ## Writes of the log -/

theorem disk_of_writesLog (h : Inv s) (hs : step s (.tick p v) = some s')
    (hw : (s.thr p).loc.writesLog = true) {b : ℕ} (hb : ¬ s.log.Area b) : s'.disk b = s.disk b := by
  rcases (tickFrame_tick hs).disk with heq | ⟨hcall, t, data, ht, heq⟩
  · rw [heq]
  have hbusy := h.busy_of_loc (p := p) (by rintro hc; rw [hc] at hw; cases hw)
  have hth : s.thr p = ⟨(s.thr p).loc, none⟩ := by rw [← hcall]
  have hst := hbusy.stage
  have hheld := hbusy.held
  rw [hth] at hst hheld
  -- the position writes a log block or the header
  have hin : s.log.Area (s.bufs t).blockno := by
    generalize (s.thr p).loc = loc at *
    cases loc with
    | wlMove _ _ _ =>
      cases ht
      rw [(hheld (t, _) (.head _)).2.1.2]
      exact (h.log.logBlock hst.1).1
    | whPut _ _ =>
      cases ht
      rw [(hheld (t, _) (.head _)).2.1.2]
      exact h.log.headBlock.1
    | itMove => cases hw
    | _ => cases ht
  have hne : b ≠ (s.bufs t).blockno := fun hbt => hb (hbt ▸ hin)
  rw [heq, update_of_ne hne]

/-! ## Whole runs -/

structure EmptyLog (start size : ℕ) (d : Disk) : Prop where
  pos : 0 < size
  range : start + size ≤ 2 ^ 32
  empty : (d start).getHead = []

/-- What holds in every state that a formatted disk can reach, crashes included. -/
structure Reached (start size : ℕ) (d : Disk) (s : Sys P) : Prop where
  inv : Inv s
  ops : OpInv s
  base : s.gh.base = d
  start : s.log.start = start
  size : s.log.size = size

theorem reached_powerOn {start size : ℕ} (hd : EmptyLog start size d) (p : P) :
    Reached start size d (powerOn start size d p) := by
  refine ⟨inv_powerOn p hd.pos hd.range hd.empty, ⟨?_, ?_, ?_⟩, rfl, rfl, rfl⟩
  · exact pairwise_singleton _ _
  · intro q o hq
    cases hq
  · intro w hw
    cases hw

theorem Reached.step {start size : ℕ} {a : Act P} (h : Reached start size d s)
    (hs : step s a = some s') : Reached start size d s' := by
  obtain ⟨hb, hst, hsz⟩ := step_fixed hs
  exact ⟨inv_step h.inv hs, opInv_step h.ops h.inv hs, hb.trans h.base, hst.trans h.start,
    hsz.trans h.size⟩

theorem reached_run {start size : ℕ} {boot : P} {as : List (Act P)}
    (hd : EmptyLog start size d) (hrun : run step (powerOn start size d boot) as = some s) :
    Reached start size d s := by
  exact run_invariant_all (fun _ _ _ h hs => h.step hs) (reached_powerOn hd boot) hrun

/-- In every state of every run: operations are not split between groups, groups whose last `end_op`
has returned are committed, recovery after a crash here restores exactly the committed groups, and
the log is written inside its area only. -/
theorem crash_atomicity {start size : ℕ} {d : Disk} {boot : P} {as : List (Act P)}
    (hd : EmptyLog start size d) (hrun : run step (powerOn start size d boot) as = some s) :
    (s.gh.Whole ∧ ∀ p o, s.op p = some o → ∀ w ∈ s.gh.groups.flatten, w.op ≠ o) ∧
    (s.gh.nreturn ≤ s.gh.ncommit ∧ s.gh.ncommit ≤ s.gh.groups.length) ∧
    (∀ p bs t, (∀ a ∈ bs, a.Reboot) → run step (s.crash p) bs = some t → t.up = true →
      ∀ b, ¬ (start ≤ b ∧ b < start + size) →
      t.disk b = replay d (s.gh.groups.take s.gh.ncommit).flatten b) ∧
    ∀ p v t, step s (.tick p v) = some t → (s.thr p).loc.writesLog = true →
      ∀ b, ¬ (start ≤ b ∧ b < start + size) → t.disk b = s.disk b := by
  have h := reached_run hd hrun
  have harea : ∀ b, s.log.Area b ↔ start ≤ b ∧ b < start + size := by
    intro b
    rw [Log.Area, h.start, h.size]
  refine ⟨⟨h.ops.whole, fun p o ho => (h.ops.ongoing p o ho).2⟩, h.inv.log.counts, ?_, ?_⟩
  · intro p bs t hbs hrec hup b hb
    have hboot := booting_run (booting_crash h.inv.recoverable p) hbs hrec
    rw [hboot.disk_eq hup (by rwa [Log.Area, hboot.log.1, hboot.log.2, ← Log.Area, harea]),
      Sys.durable, Ghost.after, h.base]
  · intro p v t hs hw b hb
    exact disk_of_writesLog h.inv hs hw (by rwa [harea])

def ticks (v n : ℕ) : List (Act Unit) := List.replicate n (.tick () (Fin.ofNat 30 v))

/-- One process: recovery of a blank disk, then an operation that sets block 100 to sevens, then
`commit` as far as the header write. -/
def untilHeaderWrite : List (Act Unit) :=
  ticks 0 13 ++ [.beginOp (), .bread () 100 (Fin.ofNat 30 1)] ++ ticks 0 2 ++
    [.modify () (Fin.ofNat 30 1) fun _ => 7, .logWrite () (Fin.ofNat 30 1),
      .brelse () (Fin.ofNat 30 1)] ++ ticks 0 1 ++ [.endOp ()] ++ ticks 2 15

def recoverTwice : List (Act Unit) :=
  ticks 0 9 ++ ticks 1 4 ++ [.crash ()] ++ ticks 0 9 ++ ticks 1 15

theorem crash_atomicity_recoverTwice :
    ∃ s t, run step (powerOn 2 30 (fun _ _ => 0) ()) untilHeaderWrite = some s ∧
      run step (s.crash ()) recoverTwice = some t ∧ t.up = true ∧ t.disk 100 0 = 7 ∧
      t.disk 100 = replay (fun _ _ => 0) (s.gh.groups.take s.gh.ncommit).flatten 100 := by
  have hcrash : ((run step (powerOn 2 30 (fun _ _ => 0) ()) untilHeaderWrite).bind fun s =>
      run step (s.crash ()) recoverTwice).elim false (fun t => t.up && decide (t.disk 100 0 = 7)) =
        true := by
    decide +kernel
  cases hs : run step (powerOn 2 30 (fun _ _ => 0) ()) untilHeaderWrite with
  | none => simp [hs] at hcrash
  | some s =>
    rw [hs, Option.bind_some] at hcrash
    cases ht : run step (s.crash ()) recoverTwice with
    | none => simp [ht] at hcrash
    | some t =>
      rw [ht, Option.elim_some, Bool.and_eq_true, decide_eq_true_eq] at hcrash
      refine ⟨s, t, rfl, ht, hcrash.1, hcrash.2, ?_⟩
      refine (crash_atomicity ⟨by decide, by decide, by decide⟩ hs).2.2.1 () recoverTwice t ?_ ht
        hcrash.1 100 (by decide)
      intro a ha
      simp only [recoverTwice, ticks, mem_append, mem_replicate, mem_singleton] at ha
      rcases ha with ((((⟨-, rfl⟩ | ⟨-, rfl⟩) | rfl) | ⟨-, rfl⟩) | ⟨-, rfl⟩) <;> trivial

/-- In every state of every run, crashes included, one process at most is inside `commit` or
recovery; nothing is logged then and, once the machine is up, no operation is in progress.
`outstanding` counts the operations, and the log on disk is empty unless a process is inside. -/
theorem commit_exclusive {start size : ℕ} {d : Disk} {boot : P} {as : List (Act P)}
    (hd : EmptyLog start size d) (hrun : run step (powerOn start size d boot) as = some s) :
    (∀ p q, (s.thr p).loc ≠ .client → (s.thr q).loc ≠ .client → p = q) ∧
    (∀ p, (s.thr p).loc ≠ .client → s.log.committing = s.up ∧ s.gh.cur = [] ∧
      (s.up = true → ∀ q, s.op q = none)) ∧
    s.log.outstanding = (Finset.univ.filter fun p => (s.op p).isSome).card ∧
    ((∀ p, (s.thr p).loc = .client) → s.up = true ∧ s.log.committing = false ∧ s.head = []) := by
  obtain ⟨-, hlog, ⟨hup, hcommitting, hhead, -, -, -, hidle⟩ | ⟨r, hstage, hothers, hcommitting,
      hclosed, -, -⟩⟩ :=
    (reached_run hd hrun).inv
  · refine ⟨fun p _ hp => absurd (hidle p) hp, fun p hp => absurd (hidle p) hp, hlog.outstanding,
      fun _ => ?_⟩
    exact ⟨hup, hcommitting, hhead⟩
  · have honly (p : P) (hp : (s.thr p).loc ≠ .client) : p = r :=
      by_contra fun hne => hp (hothers p hne)
    refine ⟨fun p q hp hq => (honly p hp).trans (honly q hq).symm,
      fun p _ => ⟨hcommitting, hclosed, fun hup => ?_⟩, hlog.outstanding, fun hall => ?_⟩
    · exact hlog.ops (hcommitting.trans hup)
    · rw [hall r] at hstage
      exact hstage.elim

theorem commit_exclusive_untilHeaderWrite :
    ∃ s, run step (powerOn 2 30 (fun _ _ => 0) ()) untilHeaderWrite = some s ∧
    (s.thr ()).loc ≠ .client ∧ s.log.committing = s.up := by
  have hrun : (run step (powerOn 2 30 (fun _ _ => 0) ()) untilHeaderWrite).elim false
      (fun s => decide ((s.thr ()).loc ≠ .client)) = true := by
    decide +kernel
  obtain ⟨s, hs, hd⟩ := exists_of_elim hrun
  have hloc := of_decide_eq_true hd
  exact ⟨s, hs, hloc, ((commit_exclusive ⟨by decide, by decide, by decide⟩ hs).2.1 () hloc).1⟩

end Xv6.Storage
