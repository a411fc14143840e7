import Xv6.StorageInv

/-!
# Every step keeps the invariant

First the calls of `bread` and `brelse`, which clients and the committing process share; then the
clients' own steps; then the steps of `commit` and `recover_from_log`, one lemma for each position
that writes to disk or changes the log; last the crash.
-/

namespace Xv6.Storage

open Function List

variable {P : Type} {s s' : Sys P} {p : P} {loc : Loc} {v t : Slot} {r : Bool} {l : Log} {d : Disk}

/-! ## Positions of `log.c` -/

theorem Sys.Busy.ne_of_client {q : P} (h : s.Busy p) (hq : (s.thr q).loc = .client) : q ≠ p := by
  rintro rfl
  have := h.stage
  rw [hq] at this
  exact this

theorem Sys.Busy.callOk_of (h : s.Busy p) {c : Call} (hcall : (s.thr p).call = some c) :
    s.CallOk ⟨(s.thr p).loc, some c⟩ := by
  rw [← hcall]
  exact h.callOk

theorem Sys.Busy.latest_eq (hb : s.Busy p) (hnc : s.gh.ncommit = s.gh.groups.length) :
    s.gh.latest = s.durable := (Ghost.after_eq_latest hnc.ge hb.closed).symm

/-- The process that commits keeps its buffers when another process takes a step. -/
theorem Sys.Busy.bufs (h : s.Busy p) {B : Bufs P} {T : P → Thread} (hT : T p = s.thr p)
    (hothers : ∀ q, q ≠ p → (T q).loc = .client) (hheld : ∀ t, (s.bufs t).lock = some p →
      (B t).lock = some p ∧ (B t).dev = (s.bufs t).dev ∧ (B t).blockno = (s.bufs t).blockno)
    (hcall : ∀ t, (s.thr p).call = some (.lock t) → (B t).dev = (s.bufs t).dev ∧
      (B t).blockno = (s.bufs t).blockno)
    (hfill : ∀ t, (s.thr p).call = some (.fill t) → (s.bufs t).lock = some p) :
    Sys.Busy { s with bufs := B, thr := T } p := by
  refine ⟨?_, hothers, h.committing, h.closed, ?_, ?_⟩
  · simp only [hT]
    exact h.stage
  · simp only [hT]
    intro x hx
    obtain ⟨hl, hc, hd⟩ := h.held x hx
    obtain ⟨hl', hdev, hb⟩ := hheld x.1 hl
    exact ⟨hl', ⟨hdev.trans hc.1, hb.trans hc.2⟩, hd⟩
  · simp only [hT]
    have hok := h.callOk
    have hlock : ∀ t, (s.thr p).call = some (.fill t) → (B t).dev = (s.bufs t).dev ∧
        (B t).blockno = (s.bufs t).blockno := fun t ht => (hheld t (hfill t ht)).2
    generalize s.thr p = th at hok hcall hlock
    rcases th with ⟨loc, _ | t | t | t⟩
    case none => trivial
    case some.lock =>
      obtain ⟨b, hw, hc⟩ := hok
      exact ⟨b, hw, (hcall t rfl).1.trans hc.1, (hcall t rfl).2.trans hc.2⟩
    case some.fill =>
      obtain ⟨b, hw, hc⟩ := hok
      exact ⟨b, hw, (hlock t rfl).1.trans hc.1, (hlock t rfl).2.trans hc.2⟩
    case some.unref => exact hok

theorem Sys.Idle.bufs (h : s.Idle) {B : Bufs P} {T : P → Thread}
    (hT : ∀ q, (T q).loc = .client) : Sys.Idle { s with bufs := B, thr := T } :=
  ⟨h.1, h.2.1, h.2.2.1, h.2.2.2.1, h.2.2.2.2.1, h.2.2.2.2.2.1, hT⟩

/-- A position where `bread` is called holds the same buffers before and during the call. -/
theorem holds_of_wanted {b : ℕ} (h : s.wanted loc = some b) (c : Option Call) :
    s.holds ⟨loc, c⟩ = s.holds ⟨loc, none⟩ := by
  cases loc <;> first | rfl | simp [Sys.wanted] at h

theorem stage_afterBread {b : ℕ} (h : s.wanted loc = some b) (t : Slot)
    (hs : s.Stage loc) : s.Stage (Sys.afterBread t loc) := by
  cases loc with
  | whGet w => cases w <;> exact hs
  | wlTo _ | wlFrom _ _ | itLog _ _ | itDst _ _ _ | rhGet => exact hs
  | _ => simp [Sys.wanted] at h

theorem holds_afterBread {b : ℕ} (h : s.wanted loc = some b) (t : Slot) :
    ∀ y ∈ s.holds ⟨Sys.afterBread t loc, none⟩, y = (t, b) ∨ y ∈ s.holds ⟨loc, none⟩ := by
  cases loc with
  | wlTo _ | wlFrom _ _ | whGet _ | itLog _ _ | itDst _ _ _ | rhGet =>
    simp only [Sys.wanted, Option.some.injEq] at h
    subst h
    intro y hy
    simp only [Sys.afterBread, Sys.holds, mem_cons, not_mem_nil, or_false] at hy ⊢
    first | exact hy | exact .inl hy | exact hy.symm
  | _ => simp [Sys.wanted] at h

theorem stage_itHead {i : ℕ} (h : s.Installing r i i) (hi : i ≤ s.log.lh.length) :
    s.Stage (s.itHead r i) := by
  unfold Sys.itHead
  split_ifs with hlt
  · exact ⟨hlt, h⟩
  · obtain rfl : i = s.log.lh.length := by omega
    exact h

/-- What is known where a process goes on after `brelse`, unless recovery ends there. -/
theorem stage_afterBrelse (h : Sys.releases loc = true)
    (hlast : Sys.lastOfRecovery loc = false) (hs : s.Stage loc) : s.Stage (s.afterBrelse loc) := by
  cases loc with
  | wlRelFrom _ _ _ => exact hs
  | wlRelTo tail tbuf =>
    obtain ⟨hlt, hw⟩ := hs
    simp only [Sys.afterBrelse]
    split_ifs with hn
    · exact ⟨hn, hw⟩
    · obtain heq : tail + 1 = s.log.lh.length := by omega
      rw [heq] at hw
      exact hw
  | whRel w buf =>
    cases w with
    | commit => exact stage_itHead hs (Nat.zero_le _)
    | erase => exact hs
    | recover => simp [Sys.lastOfRecovery] at hlast
  | itRelLog _ _ _ _ => exact hs
  | itRelDst r tail dbuf => exact stage_itHead hs.2 hs.1
  | rhRel buf => exact stage_itHead hs (Nat.zero_le _)
  | _ => simp [Sys.releases] at h

theorem holds_afterBrelse (h : Sys.releases loc = true) (t : Slot) :
    ∀ y ∈ s.holds ⟨s.afterBrelse loc, none⟩, y ∈ s.holds ⟨loc, some (.unref t)⟩ := by
  intro y hy
  cases loc with
  | wlRelFrom _ _ _ => exact hy
  | wlRelTo tail tbuf =>
    simp only [Sys.afterBrelse] at hy
    split_ifs at hy <;> simp [Sys.holds] at hy
  | whRel w buf =>
    cases w with
    | commit =>
      simp only [Sys.afterBrelse, Sys.itHead] at hy
      split_ifs at hy <;> simp [Sys.holds] at hy
    | erase | recover => simp [Sys.afterBrelse, Sys.holds] at hy
  | itRelLog _ _ _ _ => exact hy
  | itRelDst r tail dbuf =>
    simp only [Sys.afterBrelse, Sys.itHead] at hy
    split_ifs at hy <;> simp [Sys.holds] at hy
  | rhRel buf =>
    simp only [Sys.afterBrelse, Sys.itHead] at hy
    split_ifs at hy <;> simp [Sys.holds] at hy
  | _ => simp [Sys.releases] at h

theorem loc_of_lastOfRecovery (h : Sys.lastOfRecovery loc = true) :
    ∃ buf, loc = .whRel .recover buf := by
  cases loc with
  | whRel w buf =>
    cases w with
    | recover => exact ⟨buf, rfl⟩
    | _ => cases h
  | _ => cases h

theorem lhBlock_eq {i : ℕ} (hi : i < s.log.lh.length) : s.lhBlock i = s.log.lh.get ⟨i, hi⟩ := by
  simp [Sys.lhBlock, hi]

theorem lhBlock_mem {i : ℕ} (hi : i < s.log.lh.length) : s.lhBlock i ∈ s.log.lh := by
  rw [lhBlock_eq hi]
  exact get_mem _ _

/-- What a `log_write` leaves alone. -/
theorem logWrite_frame {o : ℕ} : (s.logWrite t o).up = s.up ∧ (s.logWrite t o).gh.view = s.gh.view ∧
    (s.logWrite t o).gh.base = s.gh.base ∧ (s.logWrite t o).log.start = s.log.start ∧
      (s.logWrite t o).log.size = s.log.size := by
  cases hl : s.log.logWrite (s.bufs t).blockno with
  | error e => simp [Sys.logWrite, hl]
  | ok r =>
    obtain ⟨-, -, -, ⟨-, -, hr⟩ | ⟨-, -, hr⟩⟩ := Log.logWrite_eq_ok.1 hl
    · simp [Sys.logWrite, Sys.setBuf, hl, hr]
    · simp [Sys.logWrite, Sys.setBuf, hl, hr]

section

variable [DecidableEq P]

theorem Sys.Busy.self (h : s.Busy p) {B : Bufs P} {th : Thread} (hstage : s.Stage th.loc)
    (hheld : ∀ x ∈ s.holds th, (B x.1).lock = some p ∧
      ((B x.1).dev = rootDev ∧ (B x.1).blockno = x.2) ∧ s.gh.dirty x.1 = false)
    (hok : Sys.CallOk { s with bufs := B } th) :
    Sys.Busy { s with bufs := B, thr := update s.thr p th } p := by
  refine ⟨?_, ?_, h.committing, h.closed, ?_, ?_⟩
  · simp only [update_self]
    exact hstage
  · intro q hq
    simpa [hq] using h.others q hq
  · simp only [update_self]
    exact hheld
  · simp only [update_self]
    exact hok

theorem update_loc {th : Thread} (hp : (s.thr p).loc = .client → th.loc = .client) (q : P)
    (hq : (s.thr q).loc = .client) : (update s.thr p th q).loc = .client := by
  by_cases hqp : q = p
  · subst hqp
    simpa using hp hq
  · rwa [update_of_ne hqp]

theorem update_call (hcall : (s.thr p).call = none) (q : P) :
    (update s.thr p ⟨loc, none⟩ q).call = (s.thr q).call := view_update Thread.call q hcall.symm

/-- The committing process keeps its buffers when it writes one of them to disk or unpins it. -/
theorem Sys.Busy.write (hb : s.Busy p) {loc' : Loc} {x : Buf P}
    {g : Ghost} (hth : s.thr p = ⟨loc, none⟩)
    (hx : x.lock = (s.bufs t).lock ∧ x.dev = (s.bufs t).dev ∧ x.blockno = (s.bufs t).blockno)
    (hholds : s.holds ⟨loc', none⟩ = s.holds ⟨loc, none⟩)
    (hg : g.dirty = s.gh.dirty ∧ g.cur = s.gh.cur)
    (hst : Sys.Stage { s with
      bufs := update s.bufs t x, disk := d, gh := g
      thr := update s.thr p ⟨loc', none⟩ } loc') :
    Sys.Busy { s with
      bufs := update s.bufs t x, disk := d, gh := g
      thr := update s.thr p ⟨loc', none⟩ } p := by
  refine ⟨?_, ?_, hb.committing, hg.2.trans hb.closed, ?_, ?_⟩
  · simp only [update_self]
    exact hst
  · intro q hq
    simpa [hq] using hb.others q hq
  · simp only [update_self]
    intro y hy
    have hy' : y ∈ s.holds (s.thr p) := by
      rw [hth, ← hholds]
      exact hy
    obtain ⟨hl, ⟨hdev, hblk⟩, hd⟩ := hb.held y hy'
    exact ⟨(view_update Buf.lock y.1 hx.1).trans hl, ⟨(view_update Buf.dev y.1 hx.2.1).trans hdev,
      (view_update Buf.blockno y.1 hx.2.2).trans hblk⟩, (congrFun hg.1 y.1).trans hd⟩
  · simp only [update_self]
    trivial

theorem Sys.Busy.local (hb : s.Busy p) {g : Ghost}
    (hl : l.start = s.log.start ∧ l.committing = s.log.committing)
    (hg : g.dirty = s.gh.dirty ∧ g.cur = s.gh.cur)
    (hholds : ∀ y ∈ Sys.holds { s with log := l } ⟨loc, none⟩, y ∈ s.holds (s.thr p))
    (hst : Sys.Stage { s with
      log := l, gh := g, thr := update s.thr p ⟨loc, none⟩ } loc) :
    Sys.Busy { s with log := l, gh := g, thr := update s.thr p ⟨loc, none⟩ } p := by
  refine ⟨?_, ?_, hl.2.trans hb.committing, hg.2.trans hb.closed, ?_, ?_⟩
  · simp only [update_self]
    exact hst
  · intro q hq
    simpa [hq] using hb.others q hq
  · simp only [update_self]
    intro y hy
    obtain ⟨hlock, hc, hd⟩ := hb.held y (hholds y hy)
    exact ⟨hlock, hc, (congrFun hg.1 y.1).trans hd⟩
  · simp only [update_self]
    trivial

theorem bread_cases {b : ℕ} (h : s.bread p b v = some s') : s' = { s with panicked := true } ∨
    (∃ t, s.Cached t b ∧ s' = { s with
      bufs := update s.bufs t { s.bufs t with refcnt := (s.bufs t).refcnt + 1 }
      thr := update s.thr p ⟨(s.thr p).loc, some (.lock t)⟩ }) ∨
    ((∀ t, ¬ s.Cached t b) ∧ (s.bufs v).refcnt = 0 ∧ s' = { s with
      bufs := update s.bufs v { s.bufs v with
        dev := rootDev, blockno := b, valid := false, refcnt := 1 }
      thr := update s.thr p ⟨(s.thr p).loc, some (.lock v)⟩ }) := by
  unfold Sys.bread at h
  split_ifs at h with hp
  · exact .inl (Option.some.inj h).symm
  · obtain ⟨r, hr, rfl⟩ := Option.map_eq_some_iff.1 h
    unfold bget at hr
    cases hf : find s.bufs rootDev b with
    | some t =>
      simp only [hf, Option.some.injEq] at hr
      subst hr
      exact .inr (.inl ⟨t, find_eq_some hf, rfl⟩)
    | none =>
      simp only [hf] at hr
      split_ifs at hr with h0
      cases hr
      exact .inr (.inr ⟨fun t => find_eq_none hf t, h0, rfl⟩)

theorem endOp_frame : (s.endOp p).up = s.up ∧ (s.endOp p).gh.view = s.gh.view ∧
    (s.endOp p).gh.base = s.gh.base ∧ (s.endOp p).log.start = s.log.start ∧
    (s.endOp p).log.size = s.log.size := by
  cases hl : s.log.endOp with
  | error e => simp [Sys.endOp, hl]
  | ok r =>
    obtain ⟨l, c⟩ := r
    obtain ⟨-, -, hr⟩ := Log.endOp_eq_ok.1 hl
    cases c with
    | false => simp [Sys.endOp, hl, hr]
    | true =>
      simp only [Sys.endOp, hl]
      split_ifs <;> simp [Sys.setThr, hr]

/-! ## Every step, and the crash -/

/-- What the disk must satisfy for `recover_from_log` to restore the committed groups. -/
structure Recoverable (s : Sys P) : Prop where
  size : 0 < s.log.size ∧ s.log.start + s.log.size ≤ 2 ^ 32
  head : Header s.log s.head
  logData : ∀ i, (h : i < s.head.length) →
    s.disk (s.log.start + 1 + i) = s.durable (s.head.get ⟨i, h⟩)
  homeData : ∀ b, ¬ s.log.Area b → b ∉ s.head → s.disk b = s.durable b
  counts : s.gh.nreturn ≤ s.gh.ncommit ∧ s.gh.ncommit ≤ s.gh.groups.length

theorem recoverable_powerOn {start size : ℕ} {p : P} (hpos : 0 < size)
    (hsize : start + size ≤ 2 ^ 32) (hempty : (d start).getHead = []) :
    Recoverable (powerOn start size d p) := by
  have hhead : (powerOn start size d p).head = [] := hempty
  refine ⟨⟨hpos, hsize⟩, ?_, ?_, fun b _ _ => rfl, by simp [powerOn]⟩
  · rw [hhead]
    exact .nil
  · intro i hi
    simp [hhead] at hi

theorem durable_crash : (s.crash p).durable = s.durable := by
  simp [Sys.crash, Sys.durable, Ghost.after, take_take]

theorem crash_call (q : P) : ((s.crash p).thr q).call = none :=
  view_update (f := fun _ => (⟨.client, none⟩ : Thread)) Thread.call q

/-- Everything that a step can be, with what it needs. -/
inductive Steps (s : Sys P) : Act P → Sys P → Prop
  | crash (p : P) : Steps s (.crash p) (s.crash p)
  | call {p : P} {v : Slot} {c : Call} {t : Sys P} (call : (s.thr p).call = some c)
    (h : s.stepCall p c = some t) : Steps s (.tick p v) t
  | loc {p : P} {v : Slot} {t : Sys P} (call : (s.thr p).call = none)
    (h : s.stepLoc p v (s.thr p).loc = some t) : Steps s (.tick p v) t
  | bread {p : P} {b : ℕ} {v : Slot} {t : Sys P} (ready : s.ready p) (lt : b < 2 ^ 32)
    (h : s.bread p b v = some t) : Steps s (.bread p b v) t
  | modify {p : P} {t : Slot} (data : Block) (ready : s.ready p) (lock : (s.bufs t).lock = some p)
    (home : ¬ s.log.Area (s.bufs t).blockno) :
    Steps s (.modify p t data) { s.setBuf t { s.bufs t with data := data } with
      gh := { s.gh with
        view := update s.gh.view (s.bufs t).blockno data
        dirty := update s.gh.dirty t true } }
  | logWrite {p : P} {t : Slot} {o : ℕ} (ready : s.ready p) (lock : (s.bufs t).lock = some p)
    (home : ¬ s.log.Area (s.bufs t).blockno) (op : s.op p = some o) :
    Steps s (.logWrite p t) (s.logWrite t o)
  | brelse {p : P} {t : Slot} (ready : s.ready p) (lock : (s.bufs t).lock = some p)
    (clean : ¬ s.gh.dirty t) : Steps s (.brelse p t) (s.brelse p t)
  | beginOp {p : P} {l : Log} (ready : s.ready p) (op : s.op p = none)
    (log : s.log.beginOp = some l) : Steps s (.beginOp p) { s with
      log := l, op := update s.op p (some s.gh.nextOp), gh :=
        { s.gh with nextOp := s.gh.nextOp + 1 } }
  | endOp {p : P} {o : ℕ} (ready : s.ready p) (op : s.op p = some o) :
    Steps s (.endOp p) (s.endOp p)

theorem step_cases {a : Act P} (hs : step s a = some s') : Steps s a s' := by
  cases a <;> simp only [step] at hs
  case crash p =>
    cases hs
    exact .crash p
  case tick p v =>
    split_ifs at hs
    cases hcall : (s.thr p).call with
    | none =>
      rw [hcall] at hs
      exact .loc hcall hs
    | some c =>
      rw [hcall] at hs
      exact .call hcall hs
  case logWrite p t =>
    cases hop : s.op p with
    | none => simp [hop] at hs
    | some o =>
      simp only [hop] at hs
      split_ifs at hs with hg
      cases hs
      exact .logWrite hg.2.1 hg.2.2.1 hg.2.2.2 hop
  case bread p b v =>
    split_ifs at hs with hg
    exact .bread hg.2.1 hg.2.2 hs
  case modify p t data =>
    split_ifs at hs with hg
    cases hs
    exact .modify data hg.2.1 hg.2.2.1 hg.2.2.2
  case brelse p t =>
    split_ifs at hs with hg
    cases hs
    exact .brelse hg.2.1 hg.2.2.1 hg.2.2.2
  case beginOp p =>
    split_ifs at hs with hg
    obtain ⟨l, hl, rfl⟩ := Option.map_eq_some_iff.1 hs
    exact .beginOp hg.2.1 hg.2.2 hl
  case endOp p =>
    split_ifs at hs with hg
    obtain ⟨o, ho⟩ := Option.ne_none_iff_exists'.1 hg.2.2
    cases hs
    exact .endOp hg.2.1 ho

end

variable [Fintype P]

theorem Inv.panic (h : Inv s) : Inv { s with panicked := true } :=
  ⟨{ h.buf with }, { h.log with }, h.mode.imp id fun ⟨q, hq⟩ => ⟨q, { hq with }⟩⟩

theorem Inv.busy_of_loc (h : Inv s) (hp : (s.thr p).loc ≠ .client) : s.Busy p := by
  rcases h.mode with hidle | ⟨q, hb⟩
  · exact absurd (hidle.2.2.2.2.2.2 p) hp
  · by_cases hq : p = q
    · exact hq ▸ hb
    · exact absurd (hb.others p hq) hp

theorem BufInv.refcnt_ne_zero_of_lock (h : BufInv s) (t : Slot) (q : P)
    (hl : (s.bufs t).lock = some q) : (s.bufs t).refcnt ≠ 0 := by
  intro h0
  rw [(h.of_refcnt_zero h0).1] at hl
  cases hl

theorem LogInv.wanted_lt (h : LogInv s) {b : ℕ} (hs : s.Stage loc)
    (hw : s.wanted loc = some b) : b < 2 ^ 32 := by
  cases loc with
  | wlTo tail | itLog r tail =>
    cases hw
    exact (h.logBlock hs.1).2
  | wlFrom tail tbuf | itDst r tail lbuf =>
    cases hw
    exact (h.lh.home _ (lhBlock_mem hs.1)).2
  | whGet w | rhGet =>
    cases hw
    exact h.headBlock.2
  | _ => simp [Sys.wanted] at hw

/-- A buffer held at a position is current, and no other copy of its block is modified. -/
theorem BufInv.held_data (h : BufInv s) {b : ℕ} (hh : s.Held p t b)
    (hcall : (s.thr p).call = none) : (s.bufs t).valid = true ∧ ¬ s.DirtyAt b ∧
    (b ∉ s.pinned → (s.bufs t).data = s.disk b) ∧
      (s.up = true → ¬ s.log.Area b → (s.bufs t).data = s.gh.view b) := by
  obtain ⟨hl, ⟨hdev, rfl⟩, hd⟩ := hh
  have hvalid := h.heldValid p t hl (by simp [hcall])
  refine ⟨hvalid, ?_, fun hp => h.clean t hvalid hdev hp hd,
    fun hup ha => h.hot hup t hvalid hdev ha⟩
  rintro ⟨u, hu, hub⟩
  have hut := h.uniq u t (h.dirtyHeld u hu).2.2.1 hdev hub
  rw [hut, hd] at hu
  cases hu

theorem LogInv.not_pinned_of_area (h : LogInv s) {b : ℕ} (hb : s.log.Area b) : b ∉ s.pinned :=
  fun hp => (h.lh.home b (mem_of_mem_drop hp)).1 hb

theorem LogInv.getHead_putHead (h : LogInv s) (b : Block) :
    (b.putHead s.log.lh).getHead = s.log.lh := by
  apply Block.getHead_putHead
  · have := h.lh.length
    unfold logSize maxOpBlocks at this
    omega
  · intro v hv
    exact (h.lh.home v hv).2

theorem Inv.recoverable (h : Inv s) : Recoverable s where
  size := h.log.size
  head := h.log.head
  logData := h.log.headData
  homeData b hb hm := h.log.homeData b hb fun hd => hm (mem_of_mem_drop hd)
  counts := h.log.counts

/-! ## Client steps on a locked buffer -/

theorem Inv.idle_of_op (h : Inv s) (hup : s.up = true) {o : ℕ} (hop : s.op p = some o) :
    s.Idle := by
  rcases h.mode with hidle | ⟨q, hb⟩
  · exact hidle
  · have := h.log.ops (hb.committing.trans hup) p
    rw [hop] at this
    cases this

theorem Inv.modify (h : Inv s) (data : Block) (hup : s.up = true)
    (hcall : s.thr p = ⟨.client, none⟩) (hlock : (s.bufs t).lock = some p)
    (hhome : ¬ s.log.Area (s.bufs t).blockno) :
    Inv { s with
      bufs := update s.bufs t { s.bufs t with data := data }
      gh := { s.gh with
        view := update s.gh.view (s.bufs t).blockno data
        dirty := update s.gh.dirty t true } } := by
  refine ⟨h.buf.modify data hup (by rw [hcall]) hlock hhome, h.log.modify data hup, ?_⟩
  have hbuf : ∀ u, (update s.bufs t { s.bufs t with data := data } u).lock = (s.bufs u).lock ∧
      (update s.bufs t { s.bufs t with data := data } u).dev = (s.bufs u).dev ∧
      (update s.bufs t { s.bufs t with data := data } u).blockno = (s.bufs u).blockno :=
    fun u => ⟨view_update Buf.lock u, view_update Buf.dev u, view_update Buf.blockno u⟩
  refine h.mode.imp id ?_
  rintro ⟨q, hb⟩
  have hqp : p ≠ q := hb.ne_of_client (by rw [hcall])
  refine ⟨q, ?_⟩
  have hb' := hb.bufs (T := s.thr) rfl hb.others (fun u hu => ⟨(hbuf u).1.trans hu, (hbuf u).2⟩)
    (fun u _ => (hbuf u).2) (fun u hu => (h.buf.fill q u hu).1)
  refine { hb' with held := ?_ }
  intro x hx
  obtain ⟨hl, hc, hd⟩ := hb'.held x hx
  refine ⟨hl, hc, ?_⟩
  -- a buffer locked by `q` is not the one that `p` has locked
  have hxt : x.1 ≠ t := by
    rintro rfl
    rw [(hbuf x.1).1, hlock] at hl
    exact hqp (Option.some.inj hl)
  simpa [hxt] using hd

theorem Inv.logWrite (h : Inv s) {o : ℕ} (hup : s.up = true)
    (hcall : s.thr p = ⟨.client, none⟩) (hlock : (s.bufs t).lock = some p)
    (hhome : ¬ s.log.Area (s.bufs t).blockno) (hop : s.op p = some o) : Inv (s.logWrite t o) := by
  have hidle := h.idle_of_op hup hop
  obtain ⟨-, hcom, hhead, hnc, hunp, hlogged, hall⟩ := hidle
  have hcall' : (s.thr p).call = none := by rw [hcall]
  cases hl : s.log.logWrite (s.bufs t).blockno with
  | error e =>
    simp only [Sys.logWrite, hl]
    exact h.panic
  | ok r =>
    obtain ⟨l, new⟩ := r
    simp only [Sys.logWrite, hl]
    refine ⟨?_, h.log.logWrite h.buf (fun u => view_update Buf.blockno u) hup hcall' hlock hhome
      hlogged hl, .inl ?_⟩
    · obtain ⟨-, -, -, ⟨hmem, rfl, rfl⟩ | ⟨hmem, rfl, rfl⟩⟩ := Log.logWrite_eq_ok.1 hl
      · have hsame : update s.bufs t (s.bufs t) = s.bufs := update_eq_self _ _
        simp only [Sys.setBuf, Bool.false_eq_true, if_false, hsame]
        exact h.buf.logAbsorbed hup hcall' hlock hunp hmem
      · exact h.buf.logNew rfl hup hcall' hlock hunp hmem
    · obtain ⟨-, -, -, ⟨-, -, rfl⟩ | ⟨-, -, rfl⟩⟩ := Log.logWrite_eq_ok.1 hl <;>
        exact ⟨hup, hcom, hhead, hnc, hunp, hlogged, hall⟩

/-! ## `bread` and `brelse` -/

variable [DecidableEq P]

/-- A step of a process inside a call: the blocks of buffers in use and the locks of the others
stay. -/
theorem Inv.call (h : Inv s) {x : Buf P} {th : Thread} (hbuf : BufInv { s with
      bufs := update s.bufs t x, thr := update s.thr p th })
    (hblk : (s.bufs t).refcnt ≠ 0 → x.dev = (s.bufs t).dev ∧ x.blockno = (s.bufs t).blockno)
    (hlock : ∀ q, q ≠ p → (s.bufs t).lock = some q → x.lock = some q)
    (hclient : (s.thr p).loc = .client → th.loc = .client)
    (hself : s.Busy p → s.Stage th.loc ∧
      (∀ y ∈ s.holds th, s.Held p y.1 y.2 ∧ (y.1 = t → x.lock = some p)) ∧
      Sys.CallOk { s with bufs := update s.bufs t x } th) :
    Inv { s with bufs := update s.bufs t x, thr := update s.thr p th } := by
  have hsame : ∀ u, (s.bufs u).refcnt ≠ 0 → (update s.bufs t x u).dev = (s.bufs u).dev ∧
      (update s.bufs t x u).blockno = (s.bufs u).blockno := by
    intro u hu
    by_cases hut : u = t
    · subst hut
      rw [update_self]
      exact hblk hu
    · rw [update_of_ne hut]
      exact ⟨rfl, rfl⟩
  have hkept : ∀ u q, (s.bufs u).lock = some q → (u = t → x.lock = some q) →
      (update s.bufs t x u).lock = some q ∧ (update s.bufs t x u).dev = (s.bufs u).dev ∧
      (update s.bufs t x u).blockno = (s.bufs u).blockno := by
    intro u q hu ht
    refine ⟨?_, hsame u (h.buf.refcnt_ne_zero_of_lock u q hu)⟩
    by_cases hut : u = t
    · rw [hut, update_self]
      exact ht hut
    · rwa [update_of_ne hut]
  refine ⟨hbuf, h.log.bufs ?_, ?_⟩
  · intro u hu
    obtain ⟨q, hq⟩ := Option.ne_none_iff_exists'.1 (h.buf.dirtyHeld u hu).1
    exact (hsame u (h.buf.refcnt_ne_zero_of_lock u q hq)).2
  · rcases h.mode with hidle | ⟨q, hbusy⟩
    · exact .inl (hidle.bufs fun q => update_loc hclient q (hidle.2.2.2.2.2.2 q))
    · right
      refine ⟨q, ?_⟩
      by_cases hqp : q = p
      · subst hqp
        obtain ⟨hst, hheld, hok⟩ := hself hbusy
        refine hbusy.self hst ?_ hok
        intro y hy
        obtain ⟨⟨hl, hc, hd⟩, ht⟩ := hheld y hy
        obtain ⟨hl', hdev, hb⟩ := hkept y.1 q hl ht
        exact ⟨hl', ⟨hdev.trans hc.1, hb.trans hc.2⟩, hd⟩
      · refine hbusy.bufs (by rw [update_of_ne hqp])
          (fun r hr => update_loc hclient r (hbusy.others r hr)) ?_ ?_
          (fun u hu => (h.buf.fill q u hu).1)
        · intro u hu
          exact hkept u q hu fun hut => hlock q hqp (hut ▸ hu)
        · intro u hu
          refine hsame u fun h0 => ?_
          have := refs_eq_false_of_calls (h.buf.of_refcnt_zero h0).2.1 q
          simp [hu, Call.refs] at this

/-- `bread` begins, in client code or at a position of `log.c` that asks for block `b`. -/
theorem Inv.bread (h : Inv s) {b : ℕ} (hcall : (s.thr p).call = none)
    (hb : b < 2 ^ 32) (hp : (s.thr p).loc = .client ∨ s.Busy p ∧ s.wanted (s.thr p).loc = some b)
    (hs : s.bread p b v = some s') : Inv s' := by
  have hself : ∀ (t : Slot) (x : Buf P), x.lock = (s.bufs t).lock → x.dev = rootDev →
      x.blockno = b → s.Busy p → s.Stage (s.thr p).loc ∧
      (∀ y ∈ s.holds ⟨(s.thr p).loc, some (.lock t)⟩, s.Held p y.1 y.2 ∧
        (y.1 = t → x.lock = some p)) ∧
      Sys.CallOk { s with bufs := update s.bufs t x } ⟨(s.thr p).loc, some (.lock t)⟩ := by
    intro t x hl hd hblk hbusy
    have hw : s.wanted (s.thr p).loc = some b := by
      rcases hp with hc | hp
      · exact absurd rfl (hbusy.ne_of_client hc)
      · exact hp.2
    refine ⟨hbusy.stage, ?_, b, hw, by simp [Sys.Cached, hd, hblk]⟩
    intro y hy
    rw [holds_of_wanted hw, ← holds_of_wanted hw (s.thr p).call] at hy
    have hheld := hbusy.held y hy
    exact ⟨hheld, fun hyt => hl.trans (hyt ▸ hheld.1)⟩
  rcases bread_cases hs with rfl | ⟨t, hc, rfl⟩ | ⟨hnone, h0, rfl⟩
  · exact h.panic
  · exact h.call (h.buf.hit hcall hc.1) (fun _ => ⟨rfl, rfl⟩) (fun _ _ hq => hq) id
      (hself t _ rfl hc.1 hc.2)
  · exact h.call (h.buf.miss hcall hnone h0 hb) (absurd h0) (fun _ _ hq => hq) id
      (hself v _ rfl rfl rfl)

theorem Inv.stepCall_bread (h : Inv s) {c : Call} (hcall : (s.thr p).call = some c)
    (hc : ∀ t, c ≠ .unref t) (hs : s.stepCall p c = some s') : Inv s' := by
  cases c with
  | unref t => exact absurd rfl (hc t)
  | lock t =>
    simp only [Sys.stepCall] at hs
    split_ifs at hs with hfree
    cases hs
    refine h.call (h.buf.lock hcall hfree) (fun _ => ⟨rfl, rfl⟩) ?_ id ?_
    · intro q _ hq
      rw [hfree] at hq
      cases hq
    · intro hb
      obtain ⟨b, hw, hcb⟩ := hb.callOk_of hcall
      refine ⟨hb.stage, ?_, b, hw, by simpa [Sys.Cached] using hcb⟩
      intro y hy
      rw [holds_of_wanted hw, ← holds_of_wanted hw (s.thr p).call] at hy
      exact ⟨hb.held y hy, fun _ => rfl⟩
  | fill t =>
    cases hs
    obtain ⟨hlock, hclean⟩ := h.buf.fill p t hcall
    have hx (b : Bool) : ∃ v data, (if b then s.bufs t else { s.bufs t with
        data := s.disk (s.bufs t).blockno, valid :=
          true }) = { s.bufs t with valid := v, data := data } := by
      cases b <;> exact ⟨_, _, rfl⟩
    obtain ⟨v, data, hx⟩ := hx (s.bufs t).valid
    have hbuf := h.buf.filled (l := Sys.afterBread t (s.thr p).loc) hcall
    simp only [Sys.setBuf, Sys.setThr, hx] at hbuf ⊢
    refine h.call hbuf (fun _ => ⟨rfl, rfl⟩) (fun _ _ hq => hq) (fun hcl => by rw [hcl]; rfl) ?_
    intro hb
    obtain ⟨b, hw, hcb⟩ := hb.callOk_of hcall
    refine ⟨stage_afterBread hw t hb.stage, ?_, trivial⟩
    intro y hy
    refine ⟨?_, fun _ => hlock⟩
    rcases holds_afterBread hw t y hy with rfl | hy
    · exact ⟨hlock, hcb, hclean⟩
    · rw [← holds_of_wanted hw (s.thr p).call] at hy
      exact hb.held y hy

/-- `brelse` begins, in client code or at a position of `log.c` that releases `t`. -/
theorem Inv.brelse (h : Inv s) (hcall : (s.thr p).call = none)
    (hlock : (s.bufs t).lock = some p) (hclean : s.gh.dirty t = false)
    (hp : (s.thr p).loc = .client ∨ s.Busy p ∧ Sys.releases (s.thr p).loc = true ∧
      ∀ y ∈ s.holds ⟨(s.thr p).loc, some (.unref t)⟩, y.1 ≠ t ∧ y ∈ s.holds (s.thr p)) :
      Inv (s.brelse p t) := by
  refine h.call (h.buf.unlock hcall hlock hclean) (fun _ => ⟨rfl, rfl⟩) ?_ id ?_
  · intro q hq hl
    rw [hlock] at hl
    exact absurd (Option.some.inj hl).symm hq
  · intro hb
    rcases hp with hc | ⟨-, hrel, hsub⟩
    · exact absurd rfl (hb.ne_of_client hc)
    refine ⟨hb.stage, ?_, hrel⟩
    intro y hy
    obtain ⟨hne, hmem⟩ := hsub y hy
    exact ⟨hb.held y hmem, fun hyt => absurd hyt hne⟩

theorem Inv.unref (h : Inv s) (hcall : (s.thr p).call = some (.unref t))
    (hlast : Sys.lastOfRecovery (s.thr p).loc = false) :
    Inv { s with
      bufs := update s.bufs t { s.bufs t with refcnt := (s.bufs t).refcnt - 1 }
      thr := update s.thr p ⟨s.afterBrelse (s.thr p).loc, none⟩ } := by
  refine h.call (h.buf.unref _ hcall) (fun _ => ⟨rfl, rfl⟩) (fun _ _ hq => hq) ?_ ?_
  · intro hc
    rw [hc]
    rfl
  · intro hb
    have hrel : Sys.releases (s.thr p).loc = true := hb.callOk_of hcall
    refine ⟨stage_afterBrelse hrel hlast hb.stage, ?_, trivial⟩
    intro y hy
    have hy' := holds_afterBrelse hrel t y hy
    rw [← hcall] at hy'
    have hheld := hb.held y hy'
    exact ⟨hheld, fun hyt => hyt ▸ hheld.1⟩

theorem Inv.recovered (h : Inv s) (hcall : (s.thr p).call = some (.unref t))
    (hlast : Sys.lastOfRecovery (s.thr p).loc = true) :
    Inv { s with
      bufs := update s.bufs t { s.bufs t with refcnt := (s.bufs t).refcnt - 1 }
      up := true
      thr := update s.thr p ⟨.client, none⟩ } := by
  obtain ⟨buf, hloc⟩ := loc_of_lastOfRecovery hlast
  have hb := h.busy_of_loc (p := p) (by simp [hloc])
  have hst := hb.stage
  rw [hloc] at hst
  obtain ⟨hup, hlh, hhead, hnc, hlogged, hunp⟩ := hst
  have hdur : s.gh.latest = s.durable := hb.latest_eq hnc
  have hdisk : ∀ b, ¬ s.log.Area b → s.disk b = s.gh.view b := by
    intro b hba
    rw [h.log.booting hup]
    exact h.log.homeData b hba (by simp [hhead])
  have hpin : s.pinned = [] := by simp [Sys.pinned, hlh]
  refine ⟨?_, ?_, .inl ⟨rfl, hb.committing.trans hup, hhead, hnc, hunp, hlogged, ?_⟩⟩
  · exact (h.buf.unref .client hcall).start hup hpin hdisk
  · have hl := h.log.bufs (B := update s.bufs t { s.bufs t with refcnt := (s.bufs t).refcnt - 1 })
      (T := update s.thr p ⟨.client, none⟩) (fun u _ => view_update Buf.blockno u)
    refine { hl with logged := ?_, booting := ?_ }
    · intro _ b _ _
      rw [h.log.booting hup, ← hdur]
    · intro hf
      cases hf
  · exact (forall_update_iff s.thr fun _ th => th.loc = .client).2 ⟨rfl, hb.others⟩

/-! ## `begin_op` and `end_op` -/

theorem card_inOp_update_some {op : P → Option ℕ} {o : ℕ} (hop : op p = none) :
    (Finset.univ.filter fun q => (update op p (some o) q).isSome).card =
      (Finset.univ.filter fun q => (op q).isSome).card + 1 := by
  have heq : (Finset.univ.filter fun q => (update op p (some o) q).isSome) =
      insert p (Finset.univ.filter fun q => (op q).isSome) := by
    ext q
    by_cases hq : q = p
    · subst hq
      simp
    · simp [hq]
  rw [heq, Finset.card_insert_of_notMem (by simp [hop])]

theorem card_inOp_update_none {op : P → Option ℕ} {o : ℕ} (hop : op p = some o) :
    (Finset.univ.filter fun q => (update op p none q).isSome).card =
      (Finset.univ.filter fun q => (op q).isSome).card - 1 := by
  have heq : (Finset.univ.filter fun q => (update op p none q).isSome) =
      (Finset.univ.filter fun q => (op q).isSome).erase p := by
    ext q
    by_cases hq : q = p
    · subst hq
      simp
    · simp [hq]
  rw [heq, Finset.card_erase_of_mem (by simp [hop])]

/-- When the last operation of a group ends, no process is in an operation. -/
theorem LogInv.op_of_last (h : LogInv s) {o : ℕ} (hop : s.op p = some o)
    (hl : s.log.endOp = .ok (l, true)) (q : P) : update s.op p none q = none := by
  obtain ⟨-, hdo, -⟩ := Log.endOp_eq_ok.1 hl
  rw [eq_comm, decide_eq_true_eq] at hdo
  have h0 : (Finset.univ.filter fun q => (update s.op p none q).isSome).card = 0 := by
    rw [card_inOp_update_none hop, ← h.outstanding]
    exact hdo
  rw [Finset.card_eq_zero, Finset.filter_eq_empty_iff] at h0
  simpa using h0 (Finset.mem_univ q)

theorem Inv.beginOp (h : Inv s) (hup : s.up = true) (hop : s.op p = none)
    (hl : s.log.beginOp = some l) : Inv { s with
      log := l
      op := update s.op p (some s.gh.nextOp)
      gh := { s.gh with nextOp := s.gh.nextOp + 1 } } := by
  obtain ⟨hcom, -, rfl⟩ := Log.beginOp_eq_some.1 hl
  have hidle : s.Idle := by
    rcases h.mode with hidle | ⟨q, hb⟩
    · exact hidle
    · have := hb.committing
      rw [hcom, hup] at this
      cases this
  refine ⟨h.buf.frame ⟨rfl, rfl, rfl⟩ ⟨rfl, rfl, rfl, rfl⟩ fun _ => rfl, ?_, .inl ?_⟩
  · refine { h.log with
      lh := { h.log.lh with }, head := { h.log.head with }, ops := ?_, outstanding := ?_ }
    · intro hc
      simp [hcom] at hc
    · rw [card_inOp_update_some hop, ← h.log.outstanding]
  · obtain ⟨-, -, h3, h4, h5, h6, h7⟩ := hidle
    exact ⟨hup, hcom, h3, h4, h5, h6, h7⟩

/-- The log when the last operation of the group ends: `n` groups are durable then, as they were. -/
theorem LogInv.closeGroup (h : LogInv s) (hup : s.up = true) {o n : ℕ} (hop : s.op p = some o)
    (hl : s.log.endOp = .ok (l, true)) (hlogged : s.gh.logged = 0)
    (hn : s.gh.ncommit ≤ n ∧ n ≤ s.gh.groups.length + 1)
    (hafter : Ghost.after { s.gh with groups := s.gh.groups ++ [s.gh.cur], cur := [] } n =
      s.durable)
    (th : Thread) :
    LogInv { s.setThr p th with
      log := l
      op := update s.op p none
      gh := { s.gh with groups := s.gh.groups ++ [s.gh.cur], cur := [], ncommit := n } } := by
  have hnone := h.op_of_last hop hl
  have hlatest : Ghost.latest { s.gh with
      groups := s.gh.groups ++ [s.gh.cur], cur := [], ncommit := n } = s.gh.latest := by
    simp [Ghost.latest]
  obtain ⟨-, -, rfl⟩ := Log.endOp_eq_ok.1 hl
  refine { h with
    lh := { h.lh with }, head := { h.head with }
    logged := ?_, booting := ?_, uncommitted := ?_, headData := ?_, homeData := ?_
    logData := ?_, ops := fun _ q => hnone q, outstanding := ?_, counts := ?_ }
  · intro hu b hb hd
    rw [hlatest]
    exact h.logged hu b hb hd
  · intro hf
    simp [Sys.setThr, hup] at hf
  · intro b hb
    rw [hlatest]
    exact (h.uncommitted b hb).trans (congrFun hafter b).symm
  · intro i hi
    exact (h.headData i hi).trans (congrFun hafter _).symm
  · intro b hb hm
    exact (h.homeData b hb hm).trans (congrFun hafter _).symm
  · intro i hi
    simp [hlogged] at hi
  · rw [card_inOp_update_none hop, ← h.outstanding]
  · have hcounts := h.counts
    simp only [length_append, length_singleton]
    omega

theorem Inv.endOp (h : Inv s) (hup : s.up = true) (hcall : s.thr p = ⟨.client, none⟩) {o : ℕ}
    (hop : s.op p = some o) : Inv (s.endOp p) := by
  obtain ⟨-, hcom, hhead, hnc, hunp, hlogged, hall⟩ := h.idle_of_op hup hop
  have hcall' : (s.thr p).call = none := by rw [hcall]
  have hothers : ∀ (loc : Loc) (q : P), q ≠ p → (update s.thr p ⟨loc, none⟩ q).loc = .client := by
    intro loc q hq
    simpa [hq] using hall q
  cases hl : s.log.endOp with
  | error e =>
    simp only [Sys.endOp, hl]
    exact h.panic
  | ok r =>
    obtain ⟨l, c⟩ := r
    have hl' := hl
    simp only [Sys.endOp, hl]
    obtain ⟨-, -, rfl⟩ := Log.endOp_eq_ok.1 hl
    cases c with
    | false =>
      refine ⟨h.buf.frame ⟨rfl, rfl, rfl⟩ ⟨rfl, rfl, rfl, rfl⟩ fun _ => rfl, ?_, .inl ?_⟩
      · refine { h.log with
          lh := { h.log.lh with }, head := { h.log.head with }, ops := ?_, outstanding := ?_ }
        · intro hc
          cases hc
        · rw [card_inOp_update_none hop, ← h.log.outstanding]
      · exact ⟨hup, rfl, hhead, hnc, hunp, hlogged, hall⟩
    | true =>
      dsimp only
      split_ifs with hpos
      · have hafter : Ghost.after { s.gh with groups := s.gh.groups ++ [s.gh.cur], cur := [] }
            s.gh.ncommit = s.durable := by
          unfold Sys.durable Ghost.after
          rw [take_append_of_le_length hnc.le]
        refine ⟨h.buf.frame ⟨rfl, rfl, rfl⟩ ⟨rfl, rfl, rfl, rfl⟩ (update_call hcall'),
          h.log.closeGroup hup hop hl' hlogged ⟨le_rfl, by omega⟩ hafter _, .inr ⟨p, ?_⟩⟩
        refine ⟨?_, hothers _, by simp [Sys.setThr, hup], rfl, ?_, ?_⟩
        · simp only [Sys.setThr, update_self]
          refine ⟨hpos, hup, hhead, ?_, hunp, hlogged⟩
          simp [hnc]
        · simp [Sys.setThr, Sys.holds]
        · simp only [Sys.setThr, update_self]
          trivial
      · -- an empty group changes nothing, so that it is durable at once
        have hlh : s.log.lh = [] := by
          rw [← length_eq_zero_iff]
          omega
        have hafter : Ghost.after { s.gh with groups := s.gh.groups ++ [s.gh.cur], cur := [] }
            (s.gh.ncommit + 1) = s.durable := by
          rw [Ghost.after_eq_latest (by simp [hnc]) rfl]
          funext b
          rw [← h.log.uncommitted b (by simp [hlh])]
          simp [Ghost.latest]
        refine ⟨h.buf.frame ⟨rfl, rfl, rfl⟩ ⟨rfl, rfl, rfl, rfl⟩ (update_call hcall'),
          h.log.closeGroup hup hop hl' hlogged ⟨by omega, by omega⟩ hafter _, .inr ⟨p, ?_⟩⟩
        refine ⟨?_, hothers _, by simp [Sys.setThr, hup], rfl, ?_, ?_⟩
        · simp only [Sys.setThr, update_self]
          refine ⟨hup, hlh, hhead, ?_, hlogged, hunp⟩
          simp [hnc]
        · simp [Sys.setThr, Sys.holds]
        · simp only [Sys.setThr, update_self]
          trivial

/-! ## `commit` and `recover_from_log` -/

theorem Inv.wlMove (h : Inv s) (hb : s.Busy p) {tail : ℕ} {tbuf fbuf : Slot}
    (hth : s.thr p = ⟨.wlMove tail tbuf fbuf, none⟩)
    (hs : s.stepLoc p v (.wlMove tail tbuf fbuf) = some s') : Inv s' := by
  cases hs
  have hst := hb.stage
  have hheld := hb.held
  rw [hth] at hst hheld
  obtain ⟨hlt, hup, hhead, hnc, hunp, hlogged⟩ := hst
  have ht : s.Held p tbuf (s.log.start + tail + 1) := hheld (tbuf, _) (.head _)
  have hf : s.Held p fbuf (s.lhBlock tail) := hheld (fbuf, _) (.tail _ (.head _))
  have hcall : (s.thr p).call = none := by rw [hth]
  have hhome := (h.log.lh.home _ (lhBlock_mem hlt)).1
  obtain ⟨-, hnd, -, hview⟩ := h.buf.held_data hf hcall
  have hdata : (s.bufs fbuf).data = s.gh.latest (s.lhBlock tail) :=
    (hview hup hhome).trans (h.log.logged hup _ hhome hnd)
  refine ⟨?_, ?_, .inr ⟨p, ?_⟩⟩
  · refine (h.buf.bwrite (g := { s.gh with logged := s.gh.logged + 1 }) ⟨rfl, rfl, rfl, rfl, rfl⟩
      ht.2.1.1 ?_).frame ⟨rfl, rfl, rfl⟩ ⟨rfl, rfl, rfl, rfl⟩ (update_call hcall)
    intro _ hna
    rw [ht.2.1.2] at hna
    exact absurd (h.log.logBlock hlt).1 hna
  · exact h.log.wlMove (by rw [ht.2.1.2, hlogged])
      (fun u => view_update Buf.blockno u) hhead (by rw [hlogged]; exact hlt)
      (by simp only [hlogged]; rw [hdata, lhBlock_eq hlt])
  · refine hb.write hth ⟨rfl, rfl, rfl⟩ rfl ⟨rfl, rfl⟩ ⟨hlt, hup, ?_, hnc, hunp, ?_⟩
    · exact (head_bwrite (by rw [ht.2.1.2]; omega)).trans hhead
    · simp [hlogged]

theorem Inv.whPut (h : Inv s) (hb : s.Busy p) {w : Head} {buf : Slot}
    (hth : s.thr p = ⟨.whPut w buf, none⟩)
    (hs : s.stepLoc p v (.whPut w buf) = some s') : Inv s' := by
  cases hs
  have hst := hb.stage
  have hheld := hb.held
  rw [hth] at hst hheld
  obtain ⟨hl, ⟨hdev, hblk⟩, hd⟩ : s.Held p buf s.log.start := hheld (buf, _) (.head _)
  have hcall : (s.thr p).call = none := by rw [hth]
  have hhdr := h.log.getHead_putHead (s.bufs buf).data
  have hhead : (update s.disk (s.bufs buf).blockno
      ((s.bufs buf).data.putHead s.log.lh) s.log.start).getHead = s.log.lh := by
    rw [hblk, update_self]
    exact hhdr
  have hbuf : ∀ g : Ghost, (g.dirty = s.gh.dirty ∧ g.view = s.gh.view ∧ g.pins = s.gh.pins ∧
      g.unpins = s.gh.unpins ∧ g.unpinned = s.gh.unpinned) → BufInv { s with
        bufs := update s.bufs buf { s.bufs buf with data := (s.bufs buf).data.putHead s.log.lh }
        disk := update s.disk (s.bufs buf).blockno ((s.bufs buf).data.putHead s.log.lh)
        thr := update s.thr p ⟨.whRel w buf, none⟩
        gh := g } := by
    intro g hg
    refine (h.buf.bwrite hg hdev ?_).frame ⟨rfl, rfl, rfl⟩ ⟨rfl, rfl, rfl, rfl⟩ (update_call hcall)
    intro _ hna
    rw [hblk] at hna
    exact absurd h.log.headBlock.1 hna
  cases w with
  | commit =>
    obtain ⟨hup, hempty, hnc, hunp, hlogged⟩ := hst
    refine ⟨hbuf _ ⟨rfl, rfl, rfl, rfl, rfl⟩, ?_, .inr ⟨p, ?_⟩⟩
    · exact h.log.commit hblk (fun u => view_update Buf.blockno u) hup hlogged hb.closed
        hempty hnc hhdr
    · exact hb.write hth ⟨rfl, rfl, rfl⟩ rfl ⟨rfl, rfl⟩ ⟨hup, hhead, hnc, rfl, rfl, hunp⟩
  | erase | recover =>
    obtain ⟨hup, hlh, hnc, hlogged, hinst, hunp⟩ := hst
    refine ⟨hbuf _ ⟨rfl, rfl, rfl, rfl, rfl⟩, ?_, .inr ⟨p, ?_⟩⟩
    · exact h.log.erase hblk (fun u => view_update Buf.blockno u) hlogged hinst (hhdr.trans hlh)
    · exact hb.write hth ⟨rfl, rfl, rfl⟩ rfl ⟨rfl, rfl⟩
        ⟨hup, hlh, hhead.trans hlh, hnc, hlogged, hunp⟩

theorem Inv.itMove (h : Inv s) (hb : s.Busy p) {tail : ℕ} {lbuf dbuf : Slot}
    (hth : s.thr p = ⟨.itMove r tail lbuf dbuf, none⟩)
    (hs : s.stepLoc p v (.itMove r tail lbuf dbuf) = some s') : Inv s' := by
  cases hs
  have hst := hb.stage
  have hheld := hb.held
  rw [hth] at hst hheld
  obtain ⟨hlt, hup, hhead, hnc, hlogged, hinst, hunp⟩ := hst
  have hl : s.Held p lbuf (s.log.start + tail + 1) := hheld (lbuf, _) (.head _)
  have hd : s.Held p dbuf (s.lhBlock tail) := hheld (dbuf, _) (.tail _ (.head _))
  have hcall : (s.thr p).call = none := by rw [hth]
  have harea := (h.log.logBlock hlt).1
  have hhome := (h.log.lh.home _ (lhBlock_mem hlt)).1
  have hi : s.gh.installed < s.head.length := by rw [hinst, hhead]; exact hlt
  have hget : s.head.get ⟨s.gh.installed, hi⟩ = s.lhBlock tail := by
    rw [lhBlock_eq hlt]
    simp only [get_eq_getElem, hinst, hhead]
  -- the log block is not pinned, so its buffer agrees with the disk
  have hdata : (s.bufs lbuf).data = s.durable (s.lhBlock tail) := by
    rw [(h.buf.held_data hl hcall).2.2.1 (h.log.not_pinned_of_area harea), ← hget,
      ← h.log.headData _ hi, hinst]
    congr 1
    omega
  have hne : (s.bufs dbuf).blockno ≠ s.log.start := by
    rintro heq
    rw [hd.2.1.2] at heq
    rw [heq] at hhome
    exact hhome h.log.headBlock.1
  refine ⟨?_, ?_, .inr ⟨p, ?_⟩⟩
  · refine (h.buf.bwrite (g := { s.gh with installed := s.gh.installed + 1 })
      ⟨rfl, rfl, rfl, rfl, rfl⟩ hd.2.1.1 ?_).frame ⟨rfl, rfl, rfl⟩ ⟨rfl, rfl, rfl, rfl⟩
      (update_call hcall)
    intro hup' _
    have hnd := (h.buf.held_data hd hcall).2.1
    rw [hd.2.1.2, hdata, h.log.logged hup' _ hhome hnd, hb.latest_eq hnc]
  · exact h.log.install (fun u => view_update Buf.blockno u) hlogged hi
      (hd.2.1.2.trans hget.symm) (hdata.trans (by rw [hd.2.1.2]))
  · cases r <;> exact hb.write hth ⟨rfl, rfl, rfl⟩ rfl ⟨rfl, rfl⟩
      ⟨hlt, hup, (head_bwrite hne.symm).trans hhead, hnc, hlogged, by simp [hinst], hunp⟩

theorem Inv.itUnpin (h : Inv s) (hb : s.Busy p) {tail : ℕ} {lbuf dbuf : Slot}
    (hth : s.thr p = ⟨.itUnpin tail lbuf dbuf, none⟩)
    (hs : s.stepLoc p v (.itUnpin tail lbuf dbuf) = some s') : Inv s' := by
  cases hs
  have hst := hb.stage
  have hheld := hb.held
  rw [hth] at hst hheld
  obtain ⟨hlt, hup, hhead, hnc, hlogged, hinst, hunp⟩ := hst
  have hd : s.Held p dbuf (s.lhBlock tail) := hheld (dbuf, _) (.tail _ (.head _))
  have hcall : (s.thr p).call = none := by rw [hth]
  have hhome := (h.log.lh.home _ (lhBlock_mem hlt)).1
  have hunp : s.gh.unpinned = tail := hunp
  have hpin : s.pinned = s.lhBlock tail :: s.log.lh.drop (s.gh.unpinned + 1) := by
    rw [Sys.pinned, hunp, lhBlock_eq hlt]
    exact drop_eq_getElem_cons hlt
  have hdisk : ¬ s.DirtyAt (s.lhBlock tail) →
      s.disk (s.lhBlock tail) = s.gh.view (s.lhBlock tail) := by
    intro hnd
    rw [h.log.logged hup _ hhome hnd, hb.latest_eq hnc]
    refine h.log.homeData _ hhome ?_
    -- the block is at index `tail` of a header without duplicates
    rw [hhead, hinst, lhBlock_eq hlt]
    have hnodup := h.log.lh.nodup
    rw [← take_append_drop (tail + 1) s.log.lh, nodup_append] at hnodup
    intro hmem
    refine hnodup.2.2 _ ?_ _ hmem rfl
    rw [mem_take_iff_getElem]
    exact ⟨tail, by omega, rfl⟩
  refine ⟨?_, ?_, .inr ⟨p, ?_⟩⟩
  · have hbuf :=
      h.buf.unpin hd.2.1.1 hd.2.1.2 (update_call hcall) h.log.lh.nodup hhome hup hpin hdisk
        (T := update s.thr p ⟨.itRelLog false tail lbuf dbuf, none⟩)
    rw [← hd.2.1.2] at hbuf
    exact hbuf
  · have hinv :=
      h.log.bufs (B := update s.bufs dbuf { s.bufs dbuf with refcnt := (s.bufs dbuf).refcnt - 1 })
        (T := update s.thr p ⟨.itRelLog false tail lbuf dbuf, none⟩)
      (fun u _ => view_update Buf.blockno u)
    exact { hinv with }
  · exact hb.write hth ⟨rfl, rfl, rfl⟩ rfl ⟨rfl, rfl⟩
      ⟨hlt, hup, hhead, hnc, hlogged, hinst, by simp [hunp]⟩

theorem Inv.clear (h : Inv s) (hb : s.Busy p)
    (hth : s.thr p = ⟨.clear r, none⟩) (hs : s.stepLoc p v (.clear r) = some s') : Inv s' := by
  cases hs
  have hst := hb.stage
  rw [hth] at hst
  obtain ⟨hup, hhead, hnc, hlogged, hinst, hunp⟩ := hst
  have hcall : (s.thr p).call = none := by rw [hth]
  have hpin : s.pinned = [] := by
    rw [Sys.pinned, hunp]
    cases r <;> simp
  refine ⟨?_, ?_, .inr ⟨p, ?_⟩⟩
  · exact h.buf.frame ⟨rfl, rfl, hpin.symm⟩ ⟨rfl, rfl, rfl, rfl⟩ (update_call hcall)
  · refine { h.log with
      lh := .nil, head := { h.log.head with }, uncommitted := ?_, logData := ?_ }
    · intro b _
      exact congrFun (hb.latest_eq hnc) b
    · intro i _ hi
      cases hi
  · cases r <;> refine hb.local ⟨rfl, rfl⟩ ⟨rfl, rfl⟩ (by simp [Sys.holds])
      ⟨hup, rfl, hnc, hlogged, ?_, rfl⟩ <;> exact hinst.trans (by rw [← hhead]; rfl)

theorem Inv.rhRead (h : Inv s) (hb : s.Busy p) {buf : Slot}
    (hth : s.thr p = ⟨.rhRead buf, none⟩) (hs : s.stepLoc p v (.rhRead buf) = some s') :
    Inv s' := by
  cases hs
  have hst := hb.stage
  have hheld := hb.held
  rw [hth] at hst hheld
  obtain ⟨hup, hlh, hnc, hlogged, hinst, hunp⟩ := hst
  have hbuf : s.Held p buf s.log.start := hheld (buf, _) (.head _)
  have hcall : (s.thr p).call = none := by rw [hth]
  have hhead : (s.bufs buf).data.getHead = s.head := by
    rw [(h.buf.held_data hbuf hcall).2.2.1 (h.log.not_pinned_of_area h.log.headBlock.1)]
    rfl
  simp only [hhead]
  refine ⟨?_, ?_, .inr ⟨p, ?_⟩⟩
  · refine h.buf.frame ⟨rfl, rfl, ?_⟩ ⟨rfl, rfl, rfl, rfl⟩ (update_call hcall)
    simp [Sys.pinned, hlh]
  · refine { h.log with
      lh := { h.log.head with }, head := { h.log.head with }
      uncommitted := ?_, logData := ?_ }
    · intro b _
      exact congrFun (hb.latest_eq hnc) b
    · intro i hi
      simp [hlogged] at hi
  · refine hb.local ⟨rfl, rfl⟩ ⟨rfl, rfl⟩ ?_ ⟨hup, rfl, hnc, hlogged, hinst, by simp⟩
    rw [hth]
    exact fun _ hy => hy

theorem Inv.done (h : Inv s) (hb : s.Busy p) (hth : s.thr p = ⟨.done, none⟩)
    (hs : s.stepLoc p v .done = some s') : Inv s' := by
  cases hs
  have hst := hb.stage
  rw [hth] at hst
  obtain ⟨hup, hlh, hhead, hnc, hlogged, hunp⟩ := hst
  have hcall : (s.thr p).call = none := by rw [hth]
  refine ⟨h.buf.frame ⟨rfl, rfl, rfl⟩ ⟨rfl, rfl, rfl, rfl⟩ (update_call hcall), ?_, .inl ?_⟩
  · refine { h.log with
      lh := { h.log.lh with }, head := { h.log.head with }, ops := ?_
      counts := ⟨hnc.ge, h.log.counts.2⟩ }
    intro hc
    cases hc
  · refine ⟨hup, rfl, hhead, hnc, hunp, hlogged, ?_⟩
    exact (forall_update_iff s.thr fun _ th => th.loc = .client).2 ⟨rfl, hb.others⟩

theorem Inv.stepLoc (h : Inv s) (hcall : (s.thr p).call = none)
    (hs : s.stepLoc p v (s.thr p).loc = some s') : Inv s' := by
  have hne : (s.thr p).loc ≠ .client := by
    intro hc
    rw [hc] at hs
    cases hs
  have hb := h.busy_of_loc hne
  have hth : s.thr p = ⟨(s.thr p).loc, none⟩ := by rw [← hcall]
  have hst := hb.stage
  have hheld := hb.held
  -- the two kinds of positions that call `bread` or `brelse`
  have hbread : ∀ b, s.wanted (s.thr p).loc = some b → s.bread p b v = some s' → Inv s' :=
    fun b hw hs => h.bread hcall (h.log.wanted_lt hst hw) (.inr ⟨hb, hw⟩) hs
  have hbrelse : ∀ t b, (t, b) ∈ s.holds (s.thr p) → Sys.releases (s.thr p).loc = true →
      (∀ y ∈ s.holds ⟨(s.thr p).loc, some (.unref t)⟩, y ∈ s.holds (s.thr p) ∧ y.2 ≠ b) →
      Inv (s.brelse p t) := by
    intro t b hmem hrel hsub
    obtain ⟨hl, hc, hd⟩ := hheld _ hmem
    refine h.brelse hcall hl hd (.inr ⟨hb, hrel, ?_⟩)
    intro y hy
    obtain ⟨hy1, hy2⟩ := hsub y hy
    refine ⟨?_, hy1⟩
    rintro rfl
    exact hy2 ((hheld y hy1).2.1.2.symm.trans hc.2)
  rw [hth] at hst hheld hbrelse
  generalize hloc : (s.thr p).loc = loc at *
  cases loc with
  | client => exact absurd rfl hne
  | wlTo _ | wlFrom _ _ | whGet _ | itLog _ _ | itDst _ _ _ | rhGet => exact hbread _ rfl hs
  | wlMove _ _ _ => exact h.wlMove hb hth hs
  | whPut _ _ => exact h.whPut hb hth hs
  | itMove _ _ _ _ => exact h.itMove hb hth hs
  | itUnpin _ _ _ => exact h.itUnpin hb hth hs
  | clear _ => exact h.clear hb hth hs
  | done => exact h.done hb hth hs
  | rhRead _ => exact h.rhRead hb hth hs
  | wlRelTo _ _ | whRel _ _ | itRelDst _ _ _ | rhRel _ =>
    cases hs
    refine hbrelse _ _ (.head _) rfl ?_
    intro y hy
    cases hy
  | wlRelFrom tail tbuf fbuf =>
    cases hs
    refine hbrelse _ _ (.tail _ (.head _)) rfl ?_
    intro y hy
    obtain rfl : y = (tbuf, s.log.start + tail + 1) := mem_singleton.1 hy
    refine ⟨.head _, ?_⟩
    intro heq
    have hhome := (h.log.lh.home _ (lhBlock_mem hst.1)).1
    rw [← heq] at hhome
    exact hhome (h.log.logBlock hst.1).1
  | itRelLog r tail lbuf dbuf =>
    cases hs
    refine hbrelse _ _ (.head _) rfl ?_
    intro y hy
    obtain rfl : y = (dbuf, s.lhBlock tail) := mem_singleton.1 hy
    refine ⟨.tail _ (.head _), ?_⟩
    intro heq
    have hhome := (h.log.lh.home _ (lhBlock_mem hst.1)).1
    simp only at heq
    rw [heq] at hhome
    exact hhome (h.log.logBlock hst.1).1

/-! ## Crash, power-on and the invariant of all runs -/

theorem bufInv_crash : BufInv (s.crash p) := by
  have hcalls : ∀ t, calls (s.crash p).thr t = 0 := by
    intro t
    simp [calls, crash_call]
  have hpin : (s.crash p).pinned = [] := rfl
  constructor
  case live => exact fun _ _ => rfl
  case ref =>
    intro t
    rw [hcalls, hpin]
    rfl
  case fill =>
    intro q t hq
    rw [crash_call q] at hq
    cases hq
  case pinCached =>
    rw [hpin]
    intro b hb
    cases hb
  case pinCount =>
    intro b
    rw [hpin]
    rfl
  -- no buffer is valid, locked or modified, and the machine is not up
  all_goals
    intros
    contradiction

theorem Recoverable.crash (h : Recoverable s) (p : P) : Inv (s.crash p) := by
  have hlen : (s.crash p).gh.groups.length = s.gh.ncommit := by
    simp [Sys.crash, h.counts.2]
  have hlatest : (s.crash p).gh.latest = (s.crash p).durable := by
    exact (Ghost.after_eq_latest hlen.le rfl).symm
  refine ⟨bufInv_crash, ?_, .inr ⟨p, ?_⟩⟩
  · refine ⟨.nil, h.size, ?_, ?_, ?_, { h.head with }, ?_, ?_, ?_, fun _ _ => rfl, ?_,
      ⟨h.counts.1, hlen.ge⟩⟩
    · intro hup
      cases hup
    · intro _
      exact durable_crash.symm
    · intro b _
      rw [hlatest]
    · intro i hi
      rw [durable_crash]
      exact h.logData i hi
    · intro b hb hm
      rw [durable_crash]
      exact h.homeData b hb hm
    · intro i hi
      cases hi
    · simp [Sys.crash, Log.empty]
  · refine ⟨?_, ?_, rfl, rfl, ?_, ?_⟩
    · simp only [Sys.crash, update_self]
      exact ⟨rfl, rfl, hlen.symm, rfl, rfl, rfl⟩
    · intro q hq
      simp [Sys.crash, hq]
    · simp [Sys.crash, Sys.holds]
    · simp only [Sys.crash, update_self]
      trivial

theorem inv_powerOn {start size : ℕ} (p : P) (hpos : 0 < size)
    (hsize : start + size ≤ 2 ^ 32) (hempty : (d start).getHead = []) :
    Inv (powerOn start size d p) :=
  (recoverable_powerOn (p := p) hpos hsize hempty).crash p

theorem inv_step {a : Act P} (h : Inv s) (hs : step s a = some s') : Inv s' := by
  cases step_cases hs with
  | crash p => exact h.recoverable.crash p
  | loc hcall hs => exact h.stepLoc hcall hs
  | @call p _ c _ hcall hs =>
    cases c with
    | lock t | fill t => exact h.stepCall_bread hcall (by simp) hs
    | unref t =>
      cases hs
      cases hlast : Sys.lastOfRecovery (s.thr p).loc with
      | false =>
        simp only [Bool.or_false]
        exact h.unref hcall hlast
      | true =>
        have hcl : s.afterBrelse (s.thr p).loc = .client := by
          obtain ⟨buf, hloc⟩ := loc_of_lastOfRecovery hlast
          rw [hloc]
          rfl
        simp only [Bool.or_true, hcl]
        exact h.recovered hcall hlast
  | bread hr hb hs => exact h.bread (by rw [hr.2]) hb (.inl (by rw [hr.2])) hs
  | modify data hr hlock hhome => exact h.modify data hr.1 hr.2 hlock hhome
  | logWrite hr hlock hhome hop => exact h.logWrite hr.1 hr.2 hlock hhome hop
  | brelse hr hlock hclean =>
    exact h.brelse (by rw [hr.2]) hlock (by simpa using hclean) (.inl (by rw [hr.2]))
  | beginOp hr hop hl => exact h.beginOp hr.1 hop hl
  | endOp hr hop => exact h.endOp hr.1 hr.2 hop

end Xv6.Storage
