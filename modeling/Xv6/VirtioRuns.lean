import Xv6.VirtioInv

/-!
# Runs of the disk driver

The invariant of the driver and the device, a lemma for each step, and what follows for every run:
who has which descriptor, that no ring entry is overwritten before it is consumed, which flag an
interrupt clears, and that a call returns only when the device has completed it.
-/

namespace Xv6.Virtio

open Transition RingBuffer Function List

variable {P B α : Type}

section views

variable [DecidableEq P] in
theorem view_update {β : Type} (f : Thread B → β) (thr : P → Thread B) (p : P) (th : Thread B) :
    (fun q => f (update thr p th q)) = update (fun q => f (thr q)) p (f th) :=
  Function.comp_update f thr p th

variable {th : Thread B} {r : Req B} {c : Chain}

theorem Thread.formatted_of_submitted (h : th.submittedOf = some (r, c)) :
    th.formattedOf = some (r, c) := by
  revert h
  unfold Thread.submittedOf Thread.formattedOf
  cases th.stage <;> simp [Stage.submitted, Stage.formatted]

theorem Thread.chain_of_formatted (h : th.formattedOf = some (r, c)) : th.chainOf = some c := by
  revert h
  unfold Thread.formattedOf Thread.chainOf
  cases th.stage <;> simp [Stage.formatted, Stage.chained]

theorem Thread.req_of_formatted (h : th.formattedOf = some (r, c)) : th.reqOf = some r := by
  revert h
  unfold Thread.formattedOf Thread.reqOf
  cases th.stage <;> simp +contextual [Stage.formatted, Stage.active]

theorem Thread.chain_of_submitted (h : th.submittedOf = some (r, c)) : th.chainOf = some c :=
  Thread.chain_of_formatted (Thread.formatted_of_submitted h)

theorem Thread.req_of_submitted (h : th.submittedOf = some (r, c)) : th.reqOf = some r :=
  Thread.req_of_formatted (Thread.formatted_of_submitted h)

/-- Whether a thread has a call at a stage, a chain, a formatted chain and a submitted one. -/
def Stage.has (stage : Stage) : Bool × Bool × Bool × Bool :=
  (stage.active, stage.chained, stage.formatted, stage.submitted)

/-- What a thread has at a stage. -/
theorem Thread.views {stage : Stage} (hst : th.stage = stage) :
    th.reqOf = (if stage.active then some th.req else none) ∧
    th.chainOf = (if stage.chained then some th.chain else none) ∧
    th.formattedOf = (if stage.formatted then some (th.req, th.chain) else none) ∧
    th.submittedOf = (if stage.submitted then some (th.req, th.chain) else none) := by
  subst hst
  exact ⟨rfl, rfl, rfl, rfl⟩

end views

structure Inv (s : Sys P B α) (l₁ l₂ : List Entry) : Prop where
  ok : s.panic = none
  descs : Descs s.free fun p => (s.thr p).chainOf
  calls : Calls s.held s.next fun p => (s.thr p).reqOf
  format : ∀ p r c, (s.thr p).formattedOf = some (r, c) → Formatted s.desc s.ops s.info r c
  flow : Flow s.busy s.status s.done s.next l₁ s.fetched s.served l₂
    (fun p => (s.thr p).submittedOf) fun p => (s.thr p).reqOf
  avail : Contents num s.avail s.devIdx s.availIdx l₁
  used : Contents num s.used s.seenIdx s.usedIdx l₂
  locked : ∀ p, (s.thr p).stage.locked = true → s.lock = .proc p
  /-- The avail ring has the head before its index goes on. -/
  slot : ∀ p, (s.thr p).stage = .notify →
    s.avail (s.availIdx.toNat % num) = entry (s.thr p).req (s.thr p).chain
  busy : ∀ p r c, (s.thr p).formattedOf = some (r, c) → (s.thr p).submittedOf = none →
    s.busy r.buf = true
  take : s.lock = .take → l₂ ≠ []

variable {s t : Sys P B α} {l₁ l₂ : List Entry} {p : P}

theorem Inv.start (thr : P → Thread B) (data : B → α) (media : ℕ → α) :
    Inv (start thr data media) [] [] where
  ok := rfl
  descs := by
    refine ⟨fun p c hc => ?_, fun i hi => ?_, fun p q c d i hc => ?_⟩
    · cases hc
    · constructor
      · intro hfree
        exact absurd hi (by simpa [Virtio.start] using hfree)
      · rintro ⟨p, c, hc, -⟩
        cases hc
    · cases hc
  calls := by
    refine ⟨fun p q r t hr => ?_, fun p q r t hr => ?_, fun p r hr => ?_, fun p r hr => ?_⟩ <;>
      cases hr
  format p r c hc := by cases hc
  flow := by
    refine ⟨nodup_nil, fun e => ?_, fun e he => ?_, fun e he => ?_, fun e he => ?_,
      fun p r c hc => ?_, fun p r hr => ?_, fun _ _ => rfl⟩
    · constructor
      · intro he
        cases he
      · rintro ⟨p, r, c, hc, -⟩
        cases hc
    · cases he
    · cases he
    · cases he
    · cases hc
    · cases hr
  avail := .empty ..
  used := .empty ..
  locked p hp := by cases hp
  slot p hp := by cases hp
  busy p r c hc := by cases hc
  take h := by cases h

section facts

variable (h : Inv s l₁ l₂)

include h

theorem Inv.ids_lt {e : Entry} (he : e ∈ l₁ ++ s.fetched ++ s.served ++ l₂) : e.id < num := by
  obtain ⟨p, r, c, hp, rfl, -⟩ := (h.flow.mem e).mp he
  exact (h.descs.wf p c (Thread.chain_of_submitted hp)).lt _ (Chain.mem_toList.mpr (.inl rfl))

theorem Inv.length_le : (l₁ ++ s.fetched ++ s.served ++ l₂).length ≤ num := by
  have hsub : (l₁ ++ s.fetched ++ s.served ++ l₂).map Entry.id ⊆ List.range num := by
    intro i hi
    obtain ⟨e, he, rfl⟩ := mem_map.mp hi
    exact mem_range.mpr (h.ids_lt he)
  have hle := (h.flow.nodup.subperm hsub).length_le
  rwa [length_map, length_range] at hle

/-- The avail ring has room while a process has a chain that it has not submitted. -/
theorem Inv.avail_lt {c : Chain} (hc : (s.thr p).chainOf = some c)
    (hnone : (s.thr p).submittedOf = none) : l₁.length < num := by
  have hsub : (c.i0 :: (l₁ ++ s.fetched ++ s.served ++ l₂).map Entry.id) ⊆ List.range num := by
    intro i hi
    obtain rfl | hi := mem_cons.mp hi
    · exact mem_range.mpr ((h.descs.wf p c hc).lt _ (Chain.mem_toList.mpr (.inl rfl)))
    · obtain ⟨e, he, rfl⟩ := mem_map.mp hi
      exact mem_range.mpr (h.ids_lt he)
  have hnodup : (c.i0 :: (l₁ ++ s.fetched ++ s.served ++ l₂).map Entry.id).Nodup := by
    refine nodup_cons.mpr ⟨fun hmem => ?_, h.flow.nodup⟩
    obtain ⟨e, he, hid⟩ := mem_map.mp hmem
    exact h.flow.id_ne h.descs (fun _ _ _ => Thread.chain_of_submitted) hc hnone he hid
  have hle := (hnodup.subperm hsub).length_le
  simp only [length_cons, length_map, length_append, length_range] at hle
  omega

/-- The used ring has room while the device has a chain that it has not put there. -/
theorem Inv.used_lt {e : Entry} (he : e ∈ s.served) : l₂.length < num := by
  have hle := h.length_le
  have hpos := length_pos_of_mem he
  simp only [length_append] at hle
  omega

/-- The entry that the interrupt handler takes is the head of the chain of a process that waits. -/
theorem Inv.head (hlock : s.lock = .take) :
    ∃ p r c rest, (s.thr p).submittedOf = some (r, c) ∧ l₂ = entry r c :: rest ∧
      s.used (s.seenIdx.toNat % num) = entry r c ∧ s.busy r.buf = true ∧ s.done r.ticket = true ∧
      Contents num s.used (s.seenIdx + 1) s.usedIdx rest := by
  have hne : s.seenIdx ≠ s.usedIdx := fun heq =>
    h.take hlock ((h.used.eq_iff (by decide)).mp heq)
  obtain ⟨rest, hl, hrest⟩ := h.used.pop (by decide) (by decide) hne
  have hmem : s.used (s.seenIdx.toNat % num) ∈ l₂ := by
    rw [hl]
    exact mem_cons_self
  obtain ⟨p, r, c, hp, heq, hbusy⟩ := (h.flow.mem _).mp (mem_append_right _ hmem)
  refine ⟨p, r, c, rest, hp, by rw [hl, heq], heq, hbusy, ?_, hrest⟩
  have hdone := h.flow.posted _ hmem
  rwa [heq] at hdone

end facts

section steps

theorem Thread.locked_of_formatted {th : Thread B} {r : Req B} {c : Chain}
    (h : th.formattedOf = some (r, c)) (hnone : th.submittedOf = none) :
    th.stage.locked = true := by
  revert h hnone
  unfold Thread.formattedOf Thread.submittedOf
  cases th.stage <;> simp [Stage.formatted, Stage.submitted, Stage.locked]

/-- No process but the holder of the lock is at a stage that needs it. -/
theorem Inv.alone (h : Inv s l₁ l₂) {lock : Holder P} (hlock : s.lock = lock) {q : P}
    (hne : lock ≠ .proc q) : (s.thr q).stage.locked ≠ true := fun hq =>
  hne (hlock.symm.trans (h.locked q hq))

theorem Inv.alone_proc (h : Inv s l₁ l₂) (hlock : s.lock = .proc p) (q : P) (hqp : q ≠ p) :
    (s.thr q).stage.locked ≠ true :=
  h.alone hlock fun heq => hqp (Holder.proc.inj heq).symm

variable {stage : Stage}

/-- What a step of a process in `virtio_disk_rw` gives: it does not panic, it leaves the flags set,
and a call that returns has been completed. -/
structure Went (s t : Sys P B α) (p : P) : Prop where
  inv : ∃ k₁ k₂, Inv t k₁ k₂
  busy : ∀ b, s.busy b = true → t.busy b = true
  returns : (t.thr p).stage = .user → s.done (s.thr p).req.ticket = true

theorem Went.of_stage {k₁ k₂ : List Entry} (h : Inv t k₁ k₂)
    (hbusy : ∀ b, s.busy b = true → t.busy b = true) (hstage : (t.thr p).stage = stage)
    (hne : stage ≠ .user) : Went s t p :=
  ⟨⟨k₁, k₂, h⟩, hbusy, fun huser => absurd (hstage.symm.trans huser) hne⟩

theorem Inv.fetch (h : Inv s l₁ l₂) (ht : s.fetch = some t) : ∃ k₁ k₂, Inv t k₁ k₂ := by
  unfold Sys.fetch at ht
  split_ifs at ht with hne
  cases ht
  obtain ⟨rest, rfl, hrest⟩ := h.avail.pop (by decide) (by decide) hne
  exact ⟨rest, l₂, { h with flow := h.flow.fetch, avail := hrest }⟩

theorem Inv.post (h : Inv s l₁ l₂) {e : Entry} (ht : s.post e = some t) : ∃ k₁ k₂, Inv t k₁ k₂ := by
  unfold Sys.post at ht
  split_ifs at ht with he
  cases ht
  have hlt := h.used_lt he
  have hused := (h.used.store (by decide) hlt e).advance (by decide) hlt
  rw [update_self] at hused
  exact ⟨l₁, l₂ ++ [e], { h with
    flow := h.flow.post h.calls (fun _ _ _ => Thread.req_of_submitted) he
    used := hused
    take := fun _ => by simp }⟩

section intr

variable [DecidableEq B]

/-- In its loop the interrupt handler does not panic: it finds the buffer of the chain, clears its
flag and looks for the next completion. -/
theorem Inv.intr_take (h : Inv s l₁ l₂) (hlock : s.lock = .take) : ∃ p r c rest,
    (s.thr p).submittedOf = some (r, c) ∧ s.used (s.seenIdx.toNat % num) = entry r c ∧
    s.done r.ticket = true ∧ s.busy r.buf = true ∧ l₂ = entry r c :: rest ∧
    Contents num s.used (s.seenIdx + 1) s.usedIdx rest ∧
    s.intr = some (Sys.wakeup { s with
      busy := update s.busy r.buf false
      seenIdx := s.seenIdx + 1
      lock := .look } (.buf r.buf)) := by
  obtain ⟨p, r, c, rest, hp, hl, hentry, hbusy, hdone, hrest⟩ := h.head hlock
  have hzero : s.status c.i0 = 0 := h.flow.zero (entry r c) (by simp [hl])
  have hinfo : s.info c.i0 = some r.buf := (h.format p r c (Thread.formatted_of_submitted hp)).info
  refine ⟨p, r, c, rest, hp, hentry, hdone, hbusy, hl, hrest, ?_⟩
  simp only [Sys.intr, hlock, hentry, entry, hzero, hinfo, ne_eq, not_true_eq_false, if_false]

theorem Inv.intr (h : Inv s l₁ l₂) (ht : s.intr = some t) : ∃ k₁ k₂, Inv t k₁ k₂ := by
  cases hlock : s.lock with
  | none =>
    simp only [Sys.intr, hlock] at ht
    cases ht
    exact ⟨l₁, l₂, { h with
      locked := fun q hq => absurd hq (h.alone hlock (by simp))
      take := fun htake => by cases htake }⟩
  | proc q =>
    simp only [Sys.intr, hlock] at ht
    cases ht
  | look =>
    simp only [Sys.intr, hlock] at ht
    cases ht
    refine ⟨l₁, l₂, { h with
      locked := fun q hq => absurd hq (h.alone hlock (by simp))
      take := fun htake hl => ?_ }⟩
    have hsame : s.seenIdx = s.usedIdx := (h.used.eq_iff (by decide)).mpr hl
    simp [hsame] at htake
  | take =>
    obtain ⟨p, r, c, rest, hp, -, -, -, rfl, hrest, hintr⟩ := h.intr_take hlock
    cases hintr.symm.trans ht
    refine ⟨l₁, rest, { h with
      flow := h.flow.take h.calls (fun _ _ _ => Thread.req_of_submitted) hp
      used := hrest
      locked := fun q hq => absurd hq (h.alone hlock (by simp))
      busy := fun q u d hq hnone => ?_
      take := fun htake => by cases htake }⟩
    exact absurd (Thread.locked_of_formatted hq hnone) (h.alone hlock (by simp))

theorem Inv.serve (h : Inv s l₁ l₂) {e : Entry} (ht : s.serve e = some t) :
    ∃ k₁ k₂, Inv t k₁ k₂ := by
  unfold Sys.serve at ht
  split_ifs at ht with he
  obtain ⟨p, r, c, hp, rfl, -⟩ := (h.flow.mem e).mp (by simp [he])
  have hf := h.format p r c (Thread.formatted_of_submitted hp)
  have hflags : fNext &&& fNext ≠ 0 ∧ fWrite &&& fNext = 0 := by decide
  simp only [entry, hf.desc0, hf.desc1, hf.desc2, hflags.1, hflags.2, flags_next, ne_eq,
    not_false_eq_true, and_self, if_true, Option.some.injEq] at ht
  subst ht
  have hflow := h.flow.serve he
  refine ⟨l₁, l₂, ?_⟩
  unfold Sys.transfer
  split_ifs
  · exact { h with flow := hflow }
  · exact { h with flow := hflow }

theorem intr_busy (hlock : s.lock ≠ .take) (ht : s.intr = some t) : t.busy = s.busy := by
  unfold Sys.intr at ht
  split at ht
  · cases ht
    rfl
  · cases ht
  · cases ht
    rfl
  · exact absurd ‹_› hlock

theorem transfer_busy (s : Sys P B α) (op : Op) (b : B) : (s.transfer op b).busy = s.busy := by
  unfold Sys.transfer
  split_ifs <;> rfl

end intr

variable [DecidableEq P]

theorem view_kept {β : Type} {f : Thread B → β} {th : Thread B} (hf : f th = f (s.thr p)) :
    update (fun q => f (s.thr q)) p (f th) = fun q => f (s.thr q) := by
  rw [hf]
  exact update_eq_self p fun q => f (s.thr q)

/-- A step of the process `p`. The other processes that need the lock, if there are any, find what
they rely on as it was. -/
theorem Inv.thread (h : Inv s l₁ l₂) {th : Thread B} {k₁ : List Entry}
    (hthr : t.thr = update s.thr p th) (hok : t.panic = none)
    (hdescs : Descs t.free (update (fun q => (s.thr q).chainOf) p th.chainOf))
    (hcalls : Calls t.held t.next (update (fun q => (s.thr q).reqOf) p th.reqOf))
    (hformat : ∀ r c, th.formattedOf = some (r, c) → Formatted t.desc t.ops t.info r c)
    (hformats : ∀ q r c, q ≠ p → (s.thr q).formattedOf = some (r, c) →
      Formatted t.desc t.ops t.info r c)
    (hflow : Flow t.busy t.status t.done t.next k₁ t.fetched t.served l₂
      (update (fun q => (s.thr q).submittedOf) p th.submittedOf)
      (update (fun q => (s.thr q).reqOf) p th.reqOf))
    (havail : Contents num t.avail t.devIdx t.availIdx k₁)
    (hused : Contents num t.used t.seenIdx t.usedIdx l₂)
    (hlocked : th.stage.locked = true → t.lock = .proc p)
    (hslot : th.stage = .notify → t.avail (t.availIdx.toNat % num) = entry th.req th.chain)
    (hbusy : ∀ r c, th.formattedOf = some (r, c) → th.submittedOf = none → t.busy r.buf = true)
    (hothers : ∀ q, q ≠ p → (s.thr q).stage.locked = true →
      t.lock = .proc q ∧ t.avail = s.avail ∧ t.availIdx = s.availIdx ∧ t.busy = s.busy)
    (htake : t.lock = .take → s.lock = .take) : Inv t k₁ l₂ := by
  have hself : t.thr p = th := by rw [hthr, update_self]
  have hother {q : P} (hqp : q ≠ p) : t.thr q = s.thr q := by rw [hthr, update_of_ne hqp]
  refine ⟨hok, ?_, ?_, fun q r c hq => ?_, ?_, havail, hused, fun q hq => ?_, fun q hq => ?_,
    fun q r c hq hnone => ?_, fun hl => h.take (htake hl)⟩
  · rw [hthr, view_update]
    exact hdescs
  · rw [hthr, view_update]
    exact hcalls
  · by_cases hqp : q = p
    · rw [hqp, hself] at hq
      exact hformat r c hq
    · rw [hother hqp] at hq
      exact hformats q r c hqp hq
  · rw [hthr, view_update, view_update]
    exact hflow
  · by_cases hqp : q = p
    · rw [hqp, hself] at hq
      exact hqp ▸ hlocked hq
    · rw [hother hqp] at hq
      exact (hothers q hqp hq).1
  · by_cases hqp : q = p
    · rw [hqp, hself] at hq ⊢
      exact hslot hq
    · rw [hother hqp] at hq ⊢
      obtain ⟨-, havail', hidx, -⟩ := hothers q hqp (by rw [hq]; rfl)
      rw [havail', hidx]
      exact h.slot q hq
  · by_cases hqp : q = p
    · rw [hqp, hself] at hq hnone
      exact hbusy r c hq hnone
    · rw [hother hqp] at hq hnone
      obtain ⟨-, -, -, hbusy'⟩ := hothers q hqp (Thread.locked_of_formatted hq hnone)
      rw [hbusy']
      exact h.busy q r c hq hnone

variable (s p) in
theorem goto_thr (stage : Stage) :
    (s.goto p stage).thr = update s.thr p { s.thr p with stage := stage } :=
  rfl

variable (s p) in
theorem goto_stage (stage : Stage) : ((s.goto p stage).thr p).stage = stage := by
  rw [goto_thr, update_self]

/-- A process goes on to a stage at which it has the same call and the same chain; descriptors that
are free may have been zeroed. -/
theorem Inv.goto (h : Inv s l₁ l₂) {lock : Holder P} {desc : ℕ → Desc B}
    (chan : P → Option (Chan B)) (hhas : stage.has = (s.thr p).stage.has) (hstage : stage ≠ .notify)
    (hdesc : ∀ i, s.free i = false → desc i = s.desc i)
    (hlocked : stage.locked = true → lock = .proc p)
    (hothers : ∀ q, q ≠ p → (s.thr q).stage.locked ≠ true) (htake : lock ≠ .take) :
    Inv { s.goto p stage with lock := lock, chan := chan, desc := desc } l₁ l₂ := by
  simp only [Stage.has, Prod.mk.injEq] at hhas
  obtain ⟨hactive, hchained, hformatted, hsubmitted⟩ := hhas
  have hreq : Thread.reqOf { s.thr p with stage := stage } = (s.thr p).reqOf := by
    simp only [Thread.reqOf, hactive]
  have hchain : Thread.chainOf { s.thr p with stage := stage } = (s.thr p).chainOf := by
    simp only [Thread.chainOf, hchained]
  have hform : Thread.formattedOf { s.thr p with stage := stage } = (s.thr p).formattedOf := by
    simp only [Thread.formattedOf, hformatted]
  have hsub : Thread.submittedOf { s.thr p with stage := stage } = (s.thr p).submittedOf := by
    simp only [Thread.submittedOf, hsubmitted]
  have hframe (q : P) (r : Req B) (c : Chain) (hq : (s.thr q).formattedOf = some (r, c)) :
      Formatted desc s.ops s.info r c :=
    (h.format q r c hq).frame
      (fun i hi => hdesc i (h.descs.not_free (Thread.chain_of_formatted hq) hi)) rfl rfl
  refine h.thread rfl h.ok ?_ ?_ (fun r c hc => hframe p r c (hform ▸ hc))
    (fun q r c _ hq => hframe q r c hq) ?_ h.avail h.used hlocked (fun hl => absurd hl hstage)
    (fun r c hc hnone => h.busy p r c (hform ▸ hc) (hsub ▸ hnone))
    (fun q hqp hq => absurd hq (hothers q hqp)) (fun hl => absurd hl htake)
  · rw [view_kept hchain]
    exact h.descs
  · rw [view_kept hreq]
    exact h.calls
  · rw [view_kept hsub, view_kept hreq]
    exact h.flow

theorem Inv.acquire (h : Inv s l₁ l₂) (hst : (s.thr p).stage = .enter ∧ stage = .alloc ∨
    (s.thr p).stage = .wait ∧ stage = .test) (ht : s.acquire p stage = some t) : Inv t l₁ l₂ := by
  unfold Sys.acquire at ht
  split_ifs at ht with hfree
  cases ht
  refine h.goto s.chan ?_ ?_ (fun _ _ => rfl) (fun _ => rfl)
    (fun q _ => h.alone hfree.1 nofun) nofun
  · obtain ⟨hst, rfl⟩ | ⟨hst, rfl⟩ := hst <;> rw [hst] <;> rfl
  · obtain ⟨-, rfl⟩ | ⟨-, rfl⟩ := hst <;> exact nofun

theorem Inv.alloc (h : Inv s l₁ l₂) (hst : (s.thr p).stage = .alloc) {c : Chain} (hc : c.Wf)
    (hfree : ∀ i ∈ c.toList, s.free i = true) :
    Inv { s with
      free := mark s.free c false
      thr := update s.thr p ⟨.format, (s.thr p).req, c⟩ } l₁ l₂ := by
  have hlock : s.lock = .proc p := h.locked p (by rw [hst]; rfl)
  have hreq : Thread.reqOf ⟨.format, (s.thr p).req, c⟩ = (s.thr p).reqOf :=
    (Thread.views hst).1.symm
  obtain ⟨-, hnone, -, hsub⟩ := Thread.views hst
  have hsub' : Thread.submittedOf ⟨.format, (s.thr p).req, c⟩ = (s.thr p).submittedOf := hsub.symm
  refine h.thread rfl h.ok (h.descs.take hnone hc hfree) ?_ nofun
    (fun q r d _ hq => h.format q r d hq) ?_ h.avail h.used (fun _ => hlock) nofun nofun
    (fun q hqp hq => absurd hq (h.alone_proc hlock q hqp)) id
  · rw [view_kept hreq]
    exact h.calls
  · rw [view_kept hsub', view_kept hreq]
    exact h.flow

/-- A stage between the allocation of the chain and its submission: the process holds the lock, and
goes on with the call and the chain that it has. -/
theorem Inv.next (h : Inv s l₁ l₂) {k₁ : List Entry}
    (hst : (s.thr p).stage = .format ∧ stage = .ring ∨
      (s.thr p).stage = .ring ∧ stage = .notify ∨ (s.thr p).stage = .notify ∧ stage = .test)
    (hthr : t.thr = update s.thr p { s.thr p with stage := stage })
    (hrest : t.panic = s.panic ∧ t.free = s.free ∧ t.held = s.held ∧ t.next = s.next ∧
      t.lock = s.lock)
    (hformat : Formatted t.desc t.ops t.info (s.thr p).req (s.thr p).chain)
    (hformats : ∀ q r c, q ≠ p → (s.thr q).formattedOf = some (r, c) →
      Formatted t.desc t.ops t.info r c)
    (hflow : Flow t.busy t.status t.done t.next k₁ t.fetched t.served l₂
      (update (fun q => (s.thr q).submittedOf) p
        (Thread.submittedOf { s.thr p with stage := stage }))
      fun q => (s.thr q).reqOf)
    (havail : Contents num t.avail t.devIdx t.availIdx k₁)
    (hused : Contents num t.used t.seenIdx t.usedIdx l₂)
    (hslot : stage = .notify →
      t.avail (t.availIdx.toNat % num) = entry (s.thr p).req (s.thr p).chain)
    (hbusy : t.busy (s.thr p).req.buf = true) : Inv t k₁ l₂ := by
  obtain ⟨hok, hfree, hheld, hnext, hl⟩ := hrest
  have hlock : s.lock = .proc p := by
    apply h.locked
    obtain ⟨hst, -⟩ | ⟨hst, -⟩ | ⟨hst, -⟩ := hst <;> rw [hst] <;> rfl
  have hreq : Thread.reqOf { s.thr p with stage := stage } = (s.thr p).reqOf := by
    obtain ⟨hst, rfl⟩ | ⟨hst, rfl⟩ | ⟨hst, rfl⟩ := hst <;> exact (Thread.views hst).1.symm
  have hchain : Thread.chainOf { s.thr p with stage := stage } = (s.thr p).chainOf := by
    obtain ⟨hst, rfl⟩ | ⟨hst, rfl⟩ | ⟨hst, rfl⟩ := hst <;> exact (Thread.views hst).2.1.symm
  have hcall (r : Req B) (c : Chain)
      (hc : Thread.formattedOf { s.thr p with stage := stage } = some (r, c)) :
      (s.thr p).req = r ∧ (s.thr p).chain = c := by
    obtain ⟨-, rfl⟩ | ⟨-, rfl⟩ | ⟨-, rfl⟩ := hst <;> cases hc <;> exact ⟨rfl, rfl⟩
  refine h.thread hthr (hok.trans h.ok) ?_ ?_ (fun r c hc => ?_) hformats ?_ havail hused
    (fun _ => hl.trans hlock) hslot (fun r c hc _ => ?_)
    (fun q hqp hq => absurd hq (h.alone_proc hlock q hqp)) fun htake => hl ▸ htake
  · rw [view_kept hchain, hfree]
    exact h.descs
  · rw [view_kept hreq, hheld, hnext]
    exact h.calls
  · obtain ⟨rfl, rfl⟩ := hcall r c hc
    exact hformat
  · rw [view_kept hreq]
    exact hflow
  · obtain ⟨rfl, -⟩ := hcall r c hc
    exact hbusy

/-- The head goes into the avail ring; the device does not see it yet. -/
theorem Inv.ring (h : Inv s l₁ l₂) (hst : (s.thr p).stage = .ring) : Inv (Sys.goto { s with
      avail := update s.avail (s.availIdx.toNat % num)
        ⟨(s.thr p).chain.i0, (s.thr p).req.ticket⟩ } p .notify) l₁ l₂ := by
  obtain ⟨-, hchain, hform, hnone⟩ := Thread.views hst
  refine h.next (.inr (.inl ⟨hst, rfl⟩)) (goto_thr s p .notify) ⟨rfl, rfl, rfl, rfl, rfl⟩
    (h.format p _ _ hform) (fun q r c _ hq => h.format q r c hq) ?_
    (h.avail.store (by decide) (h.avail_lt hchain hnone) _) h.used (fun _ => update_self ..)
    (h.busy p _ _ hform hnone)
  have hsub : Thread.submittedOf { s.thr p with stage := .notify } = (s.thr p).submittedOf :=
    hnone.symm
  rw [view_kept hsub]
  exact h.flow

/-- The index of the avail ring goes on, and the chain is the device's. -/
theorem Inv.notify (h : Inv s l₁ l₂) (hst : (s.thr p).stage = .notify) :
    Inv (Sys.goto { s with availIdx := s.availIdx + 1 } p .test)
      (l₁ ++ [entry (s.thr p).req (s.thr p).chain]) l₂ := by
  obtain ⟨hreq, hchain, hform, hnone⟩ := Thread.views hst
  have hbusy := h.busy p _ _ hform hnone
  have havail := h.avail.advance (by decide) (h.avail_lt hchain hnone)
  rw [h.slot p hst] at havail
  exact h.next (.inr (.inr ⟨hst, rfl⟩)) (goto_thr s p .test) ⟨rfl, rfl, rfl, rfl, rfl⟩
    (h.format p _ _ hform) (fun q r c _ hq => h.format q r c hq)
    (h.flow.submit h.descs (fun _ _ _ => Thread.chain_of_submitted) hchain hnone hreq hbusy) havail
    h.used nofun hbusy

theorem Went.acquire (h : Inv s l₁ l₂) (hst : (s.thr p).stage = .enter ∧ stage = .alloc ∨
    (s.thr p).stage = .wait ∧ stage = .test) (ht : s.acquire p stage = some t) : Went s t p := by
  have hinv := h.acquire hst ht
  unfold Sys.acquire at ht
  split_ifs at ht
  cases ht
  refine .of_stage hinv (fun _ hb => hb) (goto_stage s p stage) ?_
  obtain ⟨-, rfl⟩ | ⟨-, rfl⟩ := hst <;> exact nofun

variable [DecidableEq B]

theorem Inv.call (h : Inv s l₁ l₂) {b : B} {blockno : ℕ} {write : Bool}
    (hst : (s.thr p).stage = .user) (hheld : s.held b = false) :
    Inv { s with
      thr := update s.thr p { s.thr p with
        stage := .enter, req := ⟨b, blockno, write, s.next⟩ }
      held := update s.held b true
      next := s.next + 1 } l₁ l₂ := by
  let th : Thread B := { s.thr p with stage := .enter, req := ⟨b, blockno, write, s.next⟩ }
  have hchain : th.chainOf = (s.thr p).chainOf := (Thread.views hst).2.1.symm
  have hsub : th.submittedOf = (s.thr p).submittedOf := (Thread.views hst).2.2.2.symm
  refine h.thread rfl h.ok ?_ (h.calls.enter (r := ⟨b, blockno, write, s.next⟩) hheld rfl) nofun
    (fun q r c _ hq => h.format q r c hq) ?_ h.avail h.used nofun nofun nofun
    (fun q _ hq => ⟨h.locked q hq, rfl, rfl, rfl⟩) id
  · rw [view_kept hchain]
    exact h.descs
  · rw [view_kept hsub]
    exact h.flow.enter (r := ⟨b, blockno, write, s.next⟩) rfl

theorem Inv.formatChain (h : Inv s l₁ l₂) (hst : (s.thr p).stage = .format) :
    Inv ((s.formatChain (s.thr p).req (s.thr p).chain).goto p .ring) l₁ l₂ := by
  obtain ⟨hreq, hchain, -, hnone⟩ := Thread.views hst
  refine h.next (.inl ⟨hst, rfl⟩) (goto_thr _ p .ring) ⟨rfl, rfl, rfl, rfl, rfl⟩
    (formatChain_formatted s _ (h.descs.wf p _ hchain)) (fun q r c hqp hq => ?_) ?_
    h.avail h.used nofun
    (update_self ..)
  · refine (h.format q r c hq).formatChain fun i hi hip => hqp ?_
    exact h.descs.disjoint q p c _ i (Thread.chain_of_formatted hq) hchain hi hip
  · have hsub : Thread.submittedOf { s.thr p with stage := .ring } = (s.thr p).submittedOf :=
      hnone.symm
    rw [view_kept hsub]
    exact h.flow.format h.calls h.descs (fun _ _ _ => Thread.req_of_submitted)
      (fun _ _ _ => Thread.chain_of_submitted) hchain hnone hreq 0xff

/-- `virtio_disk_rw` has freed its chain and returned. -/
def Sys.finish (s : Sys P B α) (p : P) (desc : ℕ → Desc B) (chan : P → Option (Chan B)) :
    Sys P B α :=
  { s with
    free := mark s.free (s.thr p).chain true
    desc := desc
    info := update s.info (s.thr p).chain.i0 none
    chan := chan
    thr := update s.thr p { s.thr p with stage := .user }
    lock := .none
    held := update s.held (s.thr p).req.buf false }

theorem Inv.finish (h : Inv s l₁ l₂) (hst : (s.thr p).stage = .test)
    (hidle : s.busy (s.thr p).req.buf = false) {desc : ℕ → Desc B} (chan : P → Option (Chan B))
    (hdesc : ∀ i, i ∉ (s.thr p).chain.toList → desc i = s.desc i) :
    Inv (s.finish p desc chan) l₁ l₂ := by
  have hlock : s.lock = .proc p := h.locked p (by rw [hst]; rfl)
  obtain ⟨hreq, hchain, -, hsub⟩ := Thread.views hst
  refine h.thread rfl h.ok (h.descs.give hchain) (h.calls.leave hreq) nofun
    (fun q r c hqp hq => ?_) (h.flow.leave hsub hidle) h.avail h.used nofun nofun nofun
    (fun q hqp hq => absurd hq (h.alone_proc hlock q hqp)) nofun
  · have hother (i : ℕ) (hi : i ∈ c.toList) : i ∉ (s.thr p).chain.toList := fun hip =>
      hqp (h.descs.disjoint q p c _ i (Thread.chain_of_formatted hq) hchain hi hip)
    have hhead : c.i0 ≠ (s.thr p).chain.i0 := fun heq =>
      hother c.i0 (Chain.mem_toList.mpr (.inl rfl)) (Chain.mem_toList.mpr (.inl heq))
    exact (h.format q r c hq).frame (fun i hi => hdesc i (hother i hi)) rfl (update_of_ne hhead ..)

theorem Went.alloc (h : Inv s l₁ l₂) (hst : (s.thr p).stage = .alloc) (ht : s.go p = some t) :
    Went s t p := by
  have hlock : s.lock = .proc p := h.locked p (by rw [hst]; rfl)
  simp only [Sys.go, hst] at ht
  obtain ⟨desc, chan, hdesc, hrun⟩ | ⟨c, hc, hfree, hrun⟩ := alloc3Desc_spec s
  · simp only [hrun, Option.some.injEq] at ht
    subst ht
    exact .of_stage (h.goto _ (by rw [hst]; rfl) nofun hdesc nofun (h.alone_proc hlock) nofun)
      (fun _ hb => hb) (goto_stage (s.retable s.free desc chan) p .enter) nofun
  · simp only [hrun, Option.some.injEq] at ht
    subst ht
    have hstage : (update s.thr p ⟨.format, (s.thr p).req, c⟩ p).stage = .format := by
      rw [update_self]
    exact .of_stage (h.alloc hst hc hfree) (fun _ hb => hb) hstage nofun

/-- `virtio_disk_rw` returns when it finds the flag cleared: the chain can be freed. -/
theorem Inv.returned (h : Inv s l₁ l₂) (hst : (s.thr p).stage = .test)
    (hidle : s.busy (s.thr p).req.buf = false) : s.done (s.thr p).req.ticket = true ∧
    ∃ desc chan, (∀ i, i ∉ (s.thr p).chain.toList → desc i = s.desc i) ∧
      s.go p = some (s.finish p desc chan) := by
  obtain ⟨-, hchain, hform, hsub⟩ := Thread.views hst
  obtain ⟨desc, chan, hdesc, hrun⟩ := freeChain_run
    (s := { s with info := update s.info (s.thr p).chain.i0 none })
    (h.descs.wf p _ hchain) (fun i hi => h.descs.not_free hchain hi) (h.format p _ _ hform)
  refine ⟨h.flow.returned p _ _ hsub hidle, desc, chan, hdesc, ?_⟩
  simp only [Sys.go, hst, hidle, Bool.false_eq_true, if_false]
  rw [hrun]
  rfl

theorem Went.test (h : Inv s l₁ l₂) (hst : (s.thr p).stage = .test) (ht : s.go p = some t) :
    Went s t p := by
  have hlock : s.lock = .proc p := h.locked p (by rw [hst]; rfl)
  by_cases hbusy : s.busy (s.thr p).req.buf
  · simp only [Sys.go, hst, hbusy, if_true] at ht
    cases ht
    exact .of_stage (h.goto _ (by rw [hst]; rfl) nofun (fun _ _ => rfl) nofun
      (h.alone_proc hlock) nofun) (fun _ hb => hb) (goto_stage s p .wait) nofun
  · have hidle : s.busy (s.thr p).req.buf = false := Bool.eq_false_iff.mpr hbusy
    obtain ⟨hdone, desc, chan, hdesc, hrun⟩ := h.returned hst hidle
    cases hrun.symm.trans ht
    exact ⟨⟨_, _, h.finish hst hidle chan hdesc⟩, fun _ hb => hb, fun _ => hdone⟩

theorem Inv.go (h : Inv s l₁ l₂) (ht : s.go p = some t) : Went s t p := by
  cases hst : (s.thr p).stage with
  | user =>
    simp only [Sys.go, hst] at ht
    cases ht
  | enter =>
    simp only [Sys.go, hst] at ht
    exact .acquire h (.inl ⟨hst, rfl⟩) ht
  | alloc => exact .alloc h hst ht
  | format =>
    simp only [Sys.go, hst] at ht
    cases ht
    refine .of_stage (h.formatChain hst) (fun b hb => ?_) (goto_stage _ p .ring) nofun
    change update s.busy _ true b = true
    rw [update_apply]
    split_ifs
    · rfl
    · exact hb
  | ring =>
    simp only [Sys.go, hst] at ht
    cases ht
    exact .of_stage (h.ring hst) (fun _ hb => hb) (goto_stage _ p .notify) nofun
  | notify =>
    simp only [Sys.go, hst] at ht
    cases ht
    exact .of_stage (h.notify hst) (fun _ hb => hb) (goto_stage _ p .test) nofun
  | test => exact .test h hst ht
  | wait =>
    simp only [Sys.go, hst] at ht
    exact .acquire h (.inr ⟨hst, rfl⟩) ht

theorem Inv.step {a : Act P B} (h : Inv s l₁ l₂) (ht : step s a = some t) :
    ∃ k₁ k₂, Inv t k₁ k₂ := by
  unfold Virtio.step at ht
  rw [if_neg (not_not.mpr h.ok)] at ht
  cases a with
  | rw p b blockno write =>
    simp only at ht
    split_ifs at ht with hcall
    cases ht
    exact ⟨_, _, h.call hcall.1 hcall.2⟩
  | go p => exact (h.go ht).inv
  | kill p =>
    cases ht
    exact ⟨_, _, { h with }⟩
  | intr => exact h.intr ht
  | fetch => exact h.fetch ht
  | serve e => exact h.serve ht
  | post e => exact h.post ht

/-- A flag `b->disk` is only cleared by the loop of the interrupt handler. -/
theorem Inv.busy_kept {a : Act P B} (h : Inv s l₁ l₂) (ht : Virtio.step s a = some t) {b : B}
    (hb : s.busy b = true) (hidle : t.busy b = false) : a = .intr ∧ s.lock = .take := by
  have hsame (heq : t.busy = s.busy) : False := by
    rw [heq, hb] at hidle
    cases hidle
  unfold Virtio.step at ht
  rw [if_neg (not_not.mpr h.ok)] at ht
  cases a with
  | rw p b' blockno write =>
    simp only at ht
    split_ifs at ht
    cases ht
    exact (hsame rfl).elim
  | go p =>
    rw [(h.go ht).busy b hb] at hidle
    cases hidle
  | kill p =>
    cases ht
    exact (hsame rfl).elim
  | intr =>
    by_cases hlock : s.lock = .take
    · exact ⟨rfl, hlock⟩
    · exact (hsame (intr_busy hlock ht)).elim
  | fetch =>
    simp only [Sys.fetch] at ht
    split_ifs at ht
    cases ht
    exact (hsame rfl).elim
  | serve e =>
    simp only [Sys.serve] at ht
    split_ifs at ht
    · split at ht
      · cases ht
        exact (hsame (transfer_busy ..)).elim
      · cases ht
        exact (hsame rfl).elim
    · cases ht
      exact (hsame rfl).elim
  | post e =>
    simp only [Sys.post] at ht
    split_ifs at ht
    cases ht
    exact (hsame rfl).elim

end steps

section protocol

variable [DecidableEq P] [DecidableEq B]

structure Protocol (s : Sys P B α) : Prop where
  /-- `free_desc` and `virtio_disk_intr` have not panicked. -/
  panic : s.panic = none
  /-- Each descriptor is free or in the chain of exactly one call. -/
  desc : ∀ i < num, s.free i = true ∧ (∀ p c, (s.thr p).chainOf = some c → i ∉ c.toList) ∨
    s.free i = false ∧ ∃! p, ∃ c, (s.thr p).chainOf = some c ∧ i ∈ c.toList
  chain : ∀ p c, (s.thr p).chainOf = some c → c.toList.Nodup ∧ ∀ i ∈ c.toList, i < num
  /-- `alloc3_desc` takes three different descriptors or none. -/
  alloc : (∃ t, s.alloc3Desc = .ok (t, none) ∧ t.free = s.free) ∨
    ∃ t c, s.alloc3Desc = .ok (t, some c) ∧ c.toList.Nodup ∧
      (∀ i ∈ c.toList, i < num ∧ s.free i = true) ∧ t.free = mark s.free c false
  /-- The cell of the avail ring that a process fills is none that the device has still to read. -/
  avail : ∀ p, (s.thr p).stage = .ring → ∀ j < (s.availIdx - s.devIdx).toNat,
    (s.devIdx.toNat + j) % num ≠ s.availIdx.toNat % num
  /-- The cell of the used ring that the device fills is none that the driver has still to read. -/
  used : ∀ e ∈ s.served, ∀ j < (s.usedIdx - s.seenIdx).toNat,
    (s.seenIdx.toNat + j) % num ≠ s.usedIdx.toNat % num
  /-- The interrupt handler goes into its loop as long as there are completions that it has not
  seen. -/
  look : s.lock = .look → ∃ t, step s .intr = some t ∧ (t.lock = .take ↔ s.seenIdx ≠ s.usedIdx)
  /-- In the loop it takes the next completion, of a call that the device has completed, clears the
  flag of exactly the buffer that was submitted with that chain, and goes on. -/
  intr : s.lock = .take → ∃ t p r c, step s .intr = some t ∧ (s.thr p).submittedOf = some (r, c) ∧
    s.used (s.seenIdx.toNat % num) = entry r c ∧ s.done r.ticket = true ∧ s.busy r.buf = true ∧
    t.busy = update s.busy r.buf false ∧ t.seenIdx = s.seenIdx + 1 ∧ t.lock = .look
  /-- Nothing else clears a flag. -/
  busy : ∀ a t b, step s a = some t → s.busy b = true → t.busy b = false → a = .intr ∧
    s.lock = .take
  /-- A call that finds its flag cleared returns, and a call returns only when the device has
  completed it. -/
  returns : ∀ p, ((s.thr p).stage = .test → s.busy (s.thr p).req.buf = false →
      ∃ t, step s (.go p) = some t ∧ (t.thr p).stage = .user) ∧
    ∀ t, step s (.go p) = some t → (t.thr p).stage = .user → s.done (s.thr p).req.ticket = true

theorem Inv.step_eq (h : Inv s l₁ l₂) :
    Virtio.step s .intr = s.intr ∧ ∀ p, Virtio.step s (.go p) = s.go p := by
  simp [Virtio.step, h.ok]

theorem Inv.protocol (h : Inv s l₁ l₂) : Protocol s where
  panic := h.ok
  desc i hi := by
    cases hfree : s.free i with
    | true =>
      refine .inl ⟨rfl, fun p c hp hic => ?_⟩
      rw [h.descs.not_free hp hic] at hfree
      cases hfree
    | false =>
      obtain ⟨p, c, hp, hic⟩ := (h.descs.owner i hi).mp hfree
      refine .inr ⟨rfl, p, ⟨c, hp, hic⟩, ?_⟩
      rintro q ⟨d, hq, hid⟩
      exact h.descs.disjoint q p d c i hq hp hid hic
  chain p c hp := ⟨(h.descs.wf p c hp).nodup, (h.descs.wf p c hp).lt⟩
  alloc := by
    obtain ⟨desc, chan, -, hrun⟩ | ⟨c, hc, hfree, hrun⟩ := alloc3Desc_spec s
    · exact .inl ⟨_, hrun, rfl⟩
    · exact .inr ⟨_, c, hrun, hc.nodup, fun i hi => ⟨hc.lt i hi, hfree i hi⟩, rfl⟩
  avail p hst j hj := by
    obtain ⟨-, hchain, -, hnone⟩ := Thread.views hst
    rw [h.avail.toNat_sub (by decide)] at hj
    exact h.avail.cell_ne (by decide) (h.avail_lt hchain hnone) hj
  used e he j hj := by
    rw [h.used.toNat_sub (by decide)] at hj
    exact h.used.cell_ne (by decide) (h.used_lt he) hj
  look hlock := by
    rw [h.step_eq.1, Sys.intr, hlock]
    refine ⟨_, rfl, ?_⟩
    by_cases hseen : s.seenIdx = s.usedIdx <;> simp [hseen]
  intr hlock := by
    obtain ⟨p, r, c, -, hp, hused, hdone, hbusy, -, -, hintr⟩ := h.intr_take hlock
    exact ⟨_, p, r, c, h.step_eq.1.trans hintr, hp, hused, hdone, hbusy, rfl, rfl, rfl⟩
  busy a t b ht hb hidle := h.busy_kept ht hb hidle
  returns p := by
    refine ⟨fun hst hidle => ?_, fun t ht huser => ?_⟩
    · obtain ⟨-, desc, chan, -, hrun⟩ := h.returned hst hidle
      exact ⟨_, (h.step_eq.2 p).trans hrun, by simp [Sys.finish]⟩
    · exact (h.go ((h.step_eq.2 p).symm.trans ht)).returns huser

/-- Any number of calls, a device that serves the chains in any order, and interrupts at any time:
the protocol holds in every state that is reached, however often the indices have wrapped. -/
theorem driver_protocol (thr : P → Thread B) (data : B → α) (media : ℕ → α) {as : List (Act P B)}
    (hrun : run step (start thr data media) as = some s) : Protocol s := by
  have hinv : ∃ l₁ l₂, Inv s l₁ l₂ := by
    refine run_invariant_all (I := fun s => ∃ l₁ l₂, Inv s l₁ l₂) ?_
      ⟨[], [], Inv.start thr data media⟩ hrun
    rintro s a t ⟨l₁, l₂, h⟩ ht
    exact h.step ht
  obtain ⟨l₁, l₂, h⟩ := hinv
  exact h.protocol

/-- A read and a write are served in the other order; one interrupt handles both, and the write
returns. -/
def twoCalls : List (Act Bool Bool) :=
  [.rw true true 5 false, .rw false false 7 true] ++ replicate 6 (.go true) ++
    replicate 6 (.go false) ++ [.fetch, .fetch, .serve ⟨3, 1⟩, .serve ⟨0, 0⟩, .post ⟨3, 1⟩,
      .post ⟨0, 0⟩] ++ replicate 6 .intr ++
    [.go false, .go false]

theorem driver_protocol_twoCalls :
    ∃ s : Sys Bool Bool ℕ, run step (start (fun _ => ⟨.user, ⟨true, 0, false, 0⟩, ⟨0, 0, 0⟩⟩)
        (fun _ => 1) fun _ => 2) twoCalls = some s ∧
      (s.thr false).stage = .user ∧ (s.thr true).stage = .wait ∧ s.busy true = false ∧
      s.busy false = false ∧ s.data true = 2 ∧ s.media 14 = 1 ∧ Protocol s := by
  have hrun : (run step (start (α := ℕ) (fun _ => ⟨.user, ⟨true, 0, false, 0⟩, ⟨0, 0, 0⟩⟩)
      (fun _ => 1) fun _ => 2) twoCalls).elim false (fun s => decide ((s.thr false).stage = .user ∧
        (s.thr true).stage = .wait ∧ s.busy true = false ∧ s.busy false = false ∧ s.data true = 2 ∧
        s.media 14 = 1)) = true := by
    decide +kernel
  obtain ⟨s, hs, hd⟩ := exists_of_elim hrun
  obtain ⟨hret, hwait, htrue, hfalse, hdata, hmedia⟩ := of_decide_eq_true hd
  exact ⟨s, hs, hret, hwait, htrue, hfalse, hdata, hmedia, driver_protocol _ _ _ hs⟩

end protocol

end Xv6.Virtio
