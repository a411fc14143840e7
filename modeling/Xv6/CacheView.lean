import Xv6.CrashAtomicity

/-!
# The cache, the log and the disk refine a plain map

`Event` is what a client sees: the contents that its `bread` returns and the contents that it writes
into a locked buffer. `Reads` is a plain map from block numbers to contents: a write updates it and
a read returns what it holds. The events of every run that does not crash are those of the plain
map, whatever `bget` recycles and whenever the log commits. The second part of the main theorem
counts pins: a block of the log header has exactly one pin until `install_trans` has copied it home.
-/

namespace Xv6.Storage

open Transition List

variable {P : Type} {s s' : Sys P} {p : P}

/-- Blocks are unpinned only after `install_trans` has copied them home. -/
theorem Inv.disk_of_unpinned [Fintype P] (h : Inv s) (hup : s.up = true) {b : ℕ}
    (hb : b ∈ s.log.lh.take s.gh.unpinned) : s.disk b = s.gh.latest b := by
  have hzero : s.gh.unpinned ≠ 0 := by
    intro h0
    simp [h0] at hb
  have hlh : s.log.lh ≠ [] := by
    intro h0
    simp [h0] at hb
  have hmem := mem_of_mem_take hb
  -- only the loop of `install_trans` has unpinned blocks
  have hinst : ∀ i u, u ≤ i → s.Installing false i u → (∃ p, s.Busy p) →
      s.disk b = s.gh.latest b := by
    rintro i u hui ⟨-, hhead, hnc, -, rfl, hunp⟩ ⟨p, hp⟩
    rw [hp.latest_eq hnc]
    refine h.log.homeData b (h.log.lh.home b hmem).1 ?_
    rw [hhead]
    intro hdrop
    have hnodup := h.log.lh.nodup
    rw [← take_append_drop s.gh.unpinned s.log.lh, nodup_append] at hnodup
    refine hnodup.2.2 b hb b ?_ rfl
    rw [hunp]
    exact (drop_sublist_drop_left _ hui).subset hdrop
  rcases h.mode with hidle | ⟨p, hp⟩
  · exact absurd hidle.2.2.2.2.1 hzero
  · have hst := hp.stage
    generalize (s.thr p).loc = loc at hst
    cases loc with
    | client => exact hst.elim
    | wlTo _ | wlFrom _ _ | wlMove _ _ _ | wlRelFrom _ _ _ | wlRelTo _ _ =>
      exact absurd hst.2.2.2.2.1 hzero
    | whGet w | whPut w _ =>
      cases w with
      | commit => exact absurd hst.2.2.2.1 hzero
      | erase | recover => exact absurd hst.2.1 hlh
    | whRel w _ =>
      cases w with
      | commit => exact hinst 0 0 le_rfl hst ⟨p, hp⟩
      | erase | recover => exact absurd hst.2.1 hlh
    | itLog r _ | itDst r _ _ | itMove r _ _ _ | itRelLog r _ _ _ | itRelDst r _ _ =>
      cases r with
      | false => exact hinst _ _ le_rfl hst.2 ⟨p, hp⟩
      | true => exact absurd (hup.symm.trans hst.2.1) (by decide)
    | itUnpin tail _ _ => exact hinst _ _ (Nat.le_succ _) hst.2 ⟨p, hp⟩
    | clear r =>
      cases r with
      | false => exact hinst _ _ le_rfl hst ⟨p, hp⟩
      | true => exact absurd (hup.symm.trans hst.1) (by decide)
    | done => exact absurd hst.2.1 hlh
    | rhGet | rhRead _ | rhRel _ => exact absurd (hup.symm.trans hst.1) (by decide)

inductive Event
  | read (b : ℕ) (data : Block)
  | write (b : ℕ) (data : Block)

/-- The plain map, observed at the block numbers in `A`. -/
def Reads (A : ℕ → Prop) : Disk → List Event → Prop
  | _, [] => True
  | m, .read b x :: es => (A b → x = m b) ∧ Reads A m es
  | m, .write b x :: es => Reads A (Function.update m b x) es

/-- What a client sees of a step: `bread` returns, or the client writes into a buffer. -/
def event (s : Sys P) (a : Act P) (s' : Sys P) : List Event :=
  match a with
  | .tick p _ =>
    match s.thr p with
    | ⟨.client, some (.fill t)⟩ => [.read (s'.bufs t).blockno (s'.bufs t).data]
    | _ => []
  | .modify _ t data => [.write (s.bufs t).blockno data]
  | _ => []

variable [DecidableEq P]

def events : Sys P → List (Act P) → List Event
  | _, [] => []
  | s, a :: as =>
    match step s a with
    | none => []
    | some s' => event s a s' ++ events s' as

/-- Until recovery is complete no client is inside `bread` or `brelse`. -/
def Quiet (s : Sys P) : Prop :=
  s.up = false → ∀ q, (s.thr q).loc = .client → (s.thr q).call = none

theorem quiet_crash (p : P) : Quiet (s.crash p) := fun _ q _ => crash_call q

variable [Fintype P]

theorem quiet_tick (h : Inv s) (hq : Quiet s) {v : Slot} (hs : step s (.tick p v) = some s') :
    Quiet s' := by
  intro hup' q hclient
  have hf := tickFrame_tick hs
  have hup : s.up = false := by
    rcases hf.up with heq | hdone
    · exact heq ▸ hup'
    · rw [hdone.1] at hup'
      cases hup'
  have hloc : (s.thr p).loc ≠ .client := by
    intro hc
    apply thr_ne_of_tick hs
    rw [← hc, ← hq hup p hc]
  have hothers := (h.busy_of_loc hloc).others
  by_cases hqp : q = p
  · -- the boot process stays at a position of recovery, since somebody must be busy
    exfalso
    subst hqp
    rcases (inv_step h hs).mode with hidle | ⟨r, hr⟩
    · rw [hidle.1] at hup'
      cases hup'
    · have hrq : r ≠ q := (hr.ne_of_client hclient).symm
      refine hr.ne_of_client ?_ rfl
      rw [hf.thr r hrq]
      exact hothers r hrq
  · rw [hf.thr q hqp] at hclient ⊢
    exact hq hup q hclient

theorem quiet_step {a : Act P} (h : Inv s) (hq : Quiet s) (hs : step s a = some s') : Quiet s' := by
  -- the calls of clients are made by a machine that is up, and leave it up
  have hcall : s.up = true → s'.up = s.up → Quiet s' := by
    intro hup heq hdown
    rw [heq, hup] at hdown
    cases hdown
  cases step_cases hs with
  | crash p => exact quiet_crash p
  | loc | call => exact quiet_tick h hq hs
  | bread hr _ hs =>
    refine hcall hr.1 ?_
    rcases bread_cases hs with rfl | ⟨t, -, rfl⟩ | ⟨-, -, rfl⟩ <;> rfl
  | modify _ hr | brelse hr | beginOp hr => exact hcall hr.1 rfl
  | logWrite hr => exact hcall hr.1 logWrite_frame.1
  | endOp hr => exact hcall hr.1 endOp_frame.1

/-- `bread` returns the current contents of a block outside the log area. -/
theorem read_eq_view (h : Inv s) (hq : Quiet s) {v : Slot} {t : Slot}
    (hth : s.thr p = ⟨.client, some (.fill t)⟩) (hs : step s (.tick p v) = some s')
    (hb : ¬ s'.log.Area (s'.bufs t).blockno) :
    (s'.bufs t).data = s.gh.view (s'.bufs t).blockno := by
  have hinv := inv_step h hs
  have hf := tickFrame_tick hs
  have hup : s.up = true := by
    by_contra hup
    have hcall := hq (by simpa using hup) p (by rw [hth])
    rw [hth] at hcall
    cases hcall
  have hup' : s'.up = true := by
    rcases hf.up with heq | hdone
    · rw [heq, hup]
    · exact hdone.1
  have hlock := (h.buf.fill p t (by rw [hth])).1
  have hstep : s.stepCall p (.fill t) = some s' := by
    simp only [step] at hs
    split_ifs at hs
    simpa only [hth] using hs
  have hs' : s'.thr p = ⟨.client, none⟩ ∧ (s'.bufs t).lock = some p := by
    cases hstep
    simp only [Sys.setThr, Sys.setBuf, Function.update_self, hth, Sys.afterBread]
    refine ⟨trivial, ?_⟩
    split_ifs
    · exact hlock
    · exact hlock
  have hvalid := hinv.buf.heldValid p t hs'.2 (by simp [hs'.1])
  rw [hinv.buf.hot hup' t hvalid (hinv.buf.dev_of_lock hs'.2) hb, hf.view]

/-- Each step acts on the plain map as its event says. -/
theorem reads_step {A : ℕ → Prop} {a : Act P} {es : List Event} (h : Inv s) (hq : Quiet s)
    (hA : ∀ b, A b → ¬ s'.log.Area b) (ha : ∀ p, a ≠ .crash p) (hs : step s a = some s')
    (hes : Reads A s'.gh.view es) : Reads A s.gh.view (event s a s' ++ es) := by
  cases step_cases hs with
  | crash p => exact absurd rfl (ha p)
  | loc | call =>
    have hview := (tickFrame_tick hs).view
    rw [hview] at hes
    simp only [event]
    split
    · rename_i t hth
      exact ⟨fun hb => read_eq_view h hq hth hs (hA _ hb), hes⟩
    · exact hes
  | modify | brelse | beginOp => exact hes
  | bread _ _ hs =>
    rw [(tickFrame_bread hs).view] at hes
    exact hes
  | logWrite =>
    rw [logWrite_frame.2.1] at hes
    exact hes
  | endOp =>
    rw [endOp_frame.2.1] at hes
    exact hes

theorem reads_run {start size : ℕ} {d : Disk} {as : List (Act P)} (h : Reached start size d s)
    (hq : Quiet s) (has : ∀ a ∈ as, ∀ p, a ≠ .crash p) :
    Reads (fun b => ¬ (start ≤ b ∧ b < start + size)) s.gh.view (events s as) := by
  induction as generalizing s with
  | nil => trivial
  | cons a as ih =>
    simp only [events]
    cases hs : step s a with
    | none => trivial
    | some t =>
      have ht := h.step hs
      refine reads_step h.inv hq ?_ (has a (mem_cons_self ..)) hs
        (ih ht (quiet_step h.inv hq hs) fun b hb => has b (mem_cons_of_mem _ hb))
      intro b hb
      rwa [Log.Area, ht.start, ht.size]

/-- Whatever is cached, pinned, committed, installed or recycled, a `bread` returns what was last
written to the block. The reference count of a buffer is its lock, the calls under way and one pin
if its block is logged and not yet unpinned; each block was pinned as often as unpinned, plus once
in this case, and a block of the header that is unpinned is already home. -/
theorem cache_refines_map {start size : ℕ} {d : Disk} {boot : P} {as : List (Act P)}
    (hd : EmptyLog start size d) (hrun : run step (powerOn start size d boot) as = some s) :
    ((∀ a ∈ as, ∀ p, a ≠ .crash p) → Reads (fun b => ¬ (start ≤ b ∧ b < start + size)) d
      (events (powerOn start size d boot) as)) ∧
    (∀ t, (s.bufs t).refcnt = (if (s.bufs t).lock = none then 0 else 1) + calls s.thr t +
      if (s.bufs t).dev = rootDev ∧ (s.bufs t).blockno ∈ s.pinned then 1 else 0) ∧
    (∀ b, s.gh.pins b = s.gh.unpins b + if b ∈ s.pinned then 1 else 0) ∧
    (s.up = true → ∀ b ∈ s.log.lh.take s.gh.unpinned, s.disk b = s.gh.latest b) := by
  have hinv := (reached_run hd hrun).inv
  refine ⟨?_, hinv.buf.ref, hinv.buf.pinCount, fun hup b hb => hinv.disk_of_unpinned hup hb⟩
  exact reads_run (reached_powerOn hd boot) (quiet_crash (s := powerOn start size d boot) boot)

/-- Block 100 has been logged and has its one pin when the header is written. -/
theorem cache_refines_map_untilHeaderWrite :
    ∃ s, run step (powerOn 2 30 (fun _ _ => 0) ()) untilHeaderWrite = some s ∧
      (∀ b, s.gh.pins b = s.gh.unpins b + if b ∈ s.pinned then 1 else 0) ∧ s.gh.pins 100 = 1 ∧
      Reads (fun b => ¬ (2 ≤ b ∧ b < 32)) (fun _ _ => 0)
        (events (powerOn 2 30 (fun _ _ => 0) ()) untilHeaderWrite) := by
  have hpins : (run step (powerOn 2 30 (fun _ _ => 0) ()) untilHeaderWrite).elim false
      (fun s => decide (s.gh.pins 100 = 1)) = true := by
    decide +kernel
  obtain ⟨s, hs, hd⟩ := exists_of_elim hpins
  have h := cache_refines_map ⟨by decide, by decide, by decide⟩ hs
  refine ⟨s, hs, h.2.2.1, of_decide_eq_true hd, h.1 ?_⟩
  rintro a ha p rfl
  simp [untilHeaderWrite, ticks] at ha

end Xv6.Storage
