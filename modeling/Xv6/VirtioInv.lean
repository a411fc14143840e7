import Xv6.Virtio

/-!
# Invariants of the disk driver

The state of the driver as groups of facts: which process has which descriptors, which buffers and
tickets are in use, what the descriptors of a chain say, and where a submitted chain is on its way
through the rings and the device. Each group is about the processes only through one function of
them, so a step that leaves that function alone keeps the group.
-/

namespace Xv6.Virtio

open RingBuffer Function List

variable {P B α : Type}

section stages

def Stage.active : Stage → Bool
  | .user => false
  | _ => true

def Stage.chained : Stage → Bool
  | .format | .ring | .notify | .test | .wait => true
  | _ => false

def Stage.formatted : Stage → Bool
  | .ring | .notify | .test | .wait => true
  | _ => false

def Stage.submitted : Stage → Bool
  | .test | .wait => true
  | _ => false

def Stage.locked : Stage → Bool
  | .alloc | .format | .ring | .notify | .test => true
  | _ => false

namespace Thread

variable (th : Thread B)

def reqOf : Option (Req B) := if th.stage.active then some th.req else none

def chainOf : Option Chain := if th.stage.chained then some th.chain else none

def formattedOf : Option (Req B × Chain) :=
  if th.stage.formatted then some (th.req, th.chain) else none

def submittedOf : Option (Req B × Chain) :=
  if th.stage.submitted then some (th.req, th.chain) else none

end Thread

def entry (r : Req B) (c : Chain) : Entry := ⟨c.i0, r.ticket⟩

end stages

section values

variable [DecidableEq P] {β : Type} {f : P → Option β} {p q : P} {y : β}

/-- What a partial function has after a change at `p`. -/
theorem update_eq_some {x : Option β} (h : update f p x q = some y) :
    q = p ∧ x = some y ∨ q ≠ p ∧ f q = some y := by
  by_cases hq : q = p
  · subst hq
    rw [update_self] at h
    exact .inl ⟨rfl, h⟩
  · rw [update_of_ne hq] at h
    exact .inr ⟨hq, h⟩

theorem eq_some_of_update_none (h : update f p none q = some y) : q ≠ p ∧ f q = some y := by
  obtain ⟨-, hx⟩ | hq := update_eq_some h
  · cases hx
  · exact hq

/-- No two processes have values that are in conflict; the new value is in conflict with none of
them. -/
theorem alone_update {R : β → β → Prop} (hsymm : ∀ {y z}, R y z → R z y) {x z : β} {r : P}
    (h : ∀ {q r y z}, f q = some y → f r = some z → R y z → q = r)
    (hnew : ∀ {q y}, f q = some y → ¬ R y x)
    (hq : update f p (some x) q = some y) (hr : update f p (some x) r = some z) (hyz : R y z) :
    q = r := by
  obtain ⟨hqp, hy⟩ | ⟨-, hq'⟩ := update_eq_some hq <;> obtain ⟨hrp, hz⟩ | ⟨-, hr'⟩ :=
    update_eq_some hr
  · rw [hqp, hrp]
  · cases hy
    exact absurd (hsymm hyz) (hnew hr')
  · cases hz
    exact absurd hyz (hnew hq')
  · exact h hq' hr' hyz

end values

section descriptors

structure Chain.Wf (c : Chain) : Prop where
  lt : ∀ i ∈ c.toList, i < num
  nodup : c.toList.Nodup

/-- Every descriptor is free or in the chain of exactly one process. -/
structure Descs (free : ℕ → Bool) (chain : P → Option Chain) : Prop where
  wf : ∀ p c, chain p = some c → c.Wf
  owner : ∀ i < num, free i = false ↔ ∃ p c, chain p = some c ∧ i ∈ c.toList
  disjoint : ∀ p q c d i, chain p = some c → chain q = some d → i ∈ c.toList → i ∈ d.toList → p = q

theorem Chain.mem_toList {c : Chain} {i : ℕ} : i ∈ c.toList ↔ i = c.i0 ∨ i = c.i1 ∨ i = c.i2 := by
  simp [Chain.toList]

def mark (free : ℕ → Bool) (c : Chain) (x : Bool) : ℕ → Bool := fun i =>
  if i ∈ c.toList then x else free i

theorem update_eq_mark (free : ℕ → Bool) (c : Chain) (x : Bool) :
    update (update (update free c.i0 x) c.i1 x) c.i2 x = mark free c x := by
  funext i
  simp only [mark, Chain.mem_toList, update_apply]
  split_ifs <;> simp_all

variable {s : Sys P B α} {free : ℕ → Bool} {chain : P → Option Chain} {c : Chain} {p : P}

theorem Descs.not_free (h : Descs free chain) (hp : chain p = some c) {i : ℕ} (hi : i ∈ c.toList) :
    free i = false :=
  (h.owner i ((h.wf p c hp).lt i hi)).mpr ⟨p, c, hp, hi⟩

section owners

variable [DecidableEq P]

theorem Descs.take (h : Descs free chain) (hp : chain p = none) (hc : c.Wf)
    (hfree : ∀ i ∈ c.toList, free i = true) :
    Descs (mark free c false) (update chain p (some c)) := by
  have hother {q : P} {d : Chain} {i : ℕ} (hq : chain q = some d) (hi : i ∈ d.toList) :
      i ∉ c.toList := by
    intro hmem
    have hnot := h.not_free hq hi
    rw [hfree i hmem] at hnot
    exact Bool.noConfusion hnot
  have hne {q : P} {d : Chain} (hq : chain q = some d) : q ≠ p := by
    rintro rfl
    rw [hp] at hq
    cases hq
  refine ⟨fun q d hq => ?_, fun i hi => ?_, fun q r d e i hq hr hid hie => ?_⟩
  · obtain ⟨-, hd⟩ | ⟨-, hq⟩ := update_eq_some hq
    · exact Option.some.inj hd ▸ hc
    · exact h.wf q d hq
  · constructor
    · intro hmark
      by_cases hmem : i ∈ c.toList
      · exact ⟨p, c, update_self .., hmem⟩
      · rw [mark, if_neg hmem] at hmark
        obtain ⟨q, d, hq, hid⟩ := (h.owner i hi).mp hmark
        exact ⟨q, d, (update_of_ne (hne hq) ..).trans hq, hid⟩
    · rintro ⟨q, d, hq, hid⟩
      obtain ⟨-, hd⟩ | ⟨-, hq⟩ := update_eq_some hq
      · rw [Option.some.inj hd, mark, if_pos hid]
      · rw [mark, if_neg (hother hq hid)]
        exact h.not_free hq hid
  · exact alone_update (R := fun d e => i ∈ d.toList ∧ i ∈ e.toList) And.symm
      (fun hq hr hi => h.disjoint _ _ _ _ i hq hr hi.1 hi.2) (fun hq hi => hother hq hi.1 hi.2)
      hq hr ⟨hid, hie⟩

theorem Descs.give (h : Descs free chain) (hp : chain p = some c) :
    Descs (mark free c true) (update chain p none) := by
  refine ⟨fun q d hq => h.wf q d (eq_some_of_update_none hq).2, fun i hi => ?_,
    fun q r d e i hq hr =>
    h.disjoint q r d e i (eq_some_of_update_none hq).2 (eq_some_of_update_none hr).2⟩
  constructor
  · intro hmark
    by_cases hmem : i ∈ c.toList
    · rw [mark, if_pos hmem] at hmark
      cases hmark
    · rw [mark, if_neg hmem] at hmark
      obtain ⟨q, d, hq, hid⟩ := (h.owner i hi).mp hmark
      have hqp : q ≠ p := by
        rintro rfl
        rw [hp] at hq
        exact hmem (Option.some.inj hq ▸ hid)
      exact ⟨q, d, (update_of_ne hqp ..).trans hq, hid⟩
  · rintro ⟨q, d, hq, hid⟩
    obtain ⟨hqp, hq⟩ := eq_some_of_update_none hq
    have hmem : i ∉ c.toList := fun hic => hqp (h.disjoint q p d c i hq hp hid hic)
    rw [mark, if_neg hmem]
    exact h.not_free hq hid

end owners

def Sys.retable (s : Sys P B α) (free : ℕ → Bool) (desc : ℕ → Desc B) (chan : P → Option (Chan B)) :
    Sys P B α :=
  { s with free := free, desc := desc, chan := chan }

def Desc.zero : Desc B := ⟨.null, 0, 0, 0⟩

variable (s) in
theorem allocDesc_cases (f : ℕ → Bool) (d : ℕ → Desc B) (ch : P → Option (Chan B)) :
    (s.retable f d ch).allocDesc = none ∨ ∃ i < num, f i = true ∧
        (s.retable f d ch).allocDesc = some (s.retable (update f i false) d ch, i) := by
  unfold Sys.allocDesc
  change ((List.range num).find? f).map _ = none ∨ ∃ i < num, f i = true ∧
    ((List.range num).find? f).map _ = _
  cases hf : (List.range num).find? f with
  | none => exact .inl rfl
  | some i =>
    have hi : i < num := mem_range.mp (mem_of_find?_eq_some hf)
    exact .inr ⟨i, hi, List.find?_some hf, rfl⟩

structure Formatted (desc : ℕ → Desc B) (ops : ℕ → Op) (info : ℕ → Option B) (r : Req B)
    (c : Chain) : Prop where
  desc0 : desc c.i0 = ⟨.op c.i0, 16, fNext, c.i1⟩
  desc1 : desc c.i1 = ⟨.data r.buf, 1024, (if r.write then 0 else fWrite) ||| fNext, c.i2⟩
  desc2 : desc c.i2 = ⟨.status c.i0, 1, fWrite, 0⟩
  op : ops c.i0 = ⟨if r.write then blkOut else blkIn, r.blockno * 2 % 2 ^ 32⟩
  info : info c.i0 = some r.buf

theorem Formatted.frame {desc desc' : ℕ → Desc B} {ops ops' : ℕ → Op} {info info' : ℕ → Option B}
    {r : Req B} (h : Formatted desc ops info r c) (hdesc : ∀ i ∈ c.toList, desc' i = desc i)
    (hops : ops' c.i0 = ops c.i0) (hinfo : info' c.i0 = info c.i0) :
    Formatted desc' ops' info' r c := by
  simp only [Chain.mem_toList] at hdesc
  exact ⟨(hdesc _ (.inl rfl)).trans h.desc0, (hdesc _ (.inr (.inl rfl))).trans h.desc1,
    (hdesc _ (.inr (.inr rfl))).trans h.desc2, hops.trans h.op, hinfo.trans h.info⟩

theorem Chain.Wf.ne (hc : c.Wf) : c.i0 ≠ c.i1 ∧ c.i0 ≠ c.i2 ∧ c.i1 ≠ c.i2 := by
  have hnodup := hc.nodup
  simp only [Chain.toList, nodup_cons, mem_cons, not_mem_nil, or_false, not_or] at hnodup
  exact ⟨hnodup.1.1, hnodup.1.2, hnodup.2.1⟩

variable [DecidableEq B]

variable (s) in
theorem freeDesc_run {f : ℕ → Bool} {i : ℕ} (hi : i < num) (hfree : f i = false) (d : ℕ → Desc B)
    (ch : P → Option (Chan B)) :
    ∃ ch', (s.retable f d ch).freeDesc i =
    .ok (s.retable (update f i true) (update d i .zero) ch') := by
  refine ⟨fun q => if ch q = some .free then none else ch q, ?_⟩
  change (if num ≤ i then _ else if f i then _ else _) = _
  rw [if_neg (by omega), hfree]
  rfl

/-- `alloc3_desc` takes three different free descriptors, or it takes none. -/
theorem alloc3Desc_spec (s : Sys P B α) :
    (∃ desc chan, (∀ i, s.free i = false → desc i = s.desc i) ∧
      s.alloc3Desc = .ok (s.retable s.free desc chan, none)) ∨ ∃ c, c.Wf ∧
      (∀ i ∈ c.toList, s.free i = true) ∧
      s.alloc3Desc = .ok (s.retable (mark s.free c false) s.desc s.chan, some c) := by
  have hdesc (d : ℕ → Desc B) {j : ℕ} (hj : s.free j = true)
      (hd : ∀ i, s.free i = false → d i = s.desc i)
      (i : ℕ) (hi : s.free i = false) : update d j .zero i = s.desc i := by
    have hne : i ≠ j := by
      rintro rfl
      rw [hj] at hi
      cases hi
    rw [update_of_ne hne, hd i hi]
  unfold Sys.alloc3Desc
  obtain h0 | ⟨i0, hi0, hf0, h0⟩ := allocDesc_cases s s.free s.desc s.chan
  · rw [show s.allocDesc = none from h0]
    exact .inl ⟨s.desc, s.chan, fun _ _ => rfl, rfl⟩
  rw [show s.allocDesc = some _ from h0]
  simp only
  have hself0 : update s.free i0 false i0 = false := update_self ..
  obtain h1 | ⟨i1, hi1, hf1, h1⟩ := allocDesc_cases s (update s.free i0 false) s.desc s.chan
  · -- the second round fails
    obtain ⟨ch, hrun⟩ := freeDesc_run s hi0 hself0 s.desc s.chan
    rw [h1]
    simp only [hrun]
    refine .inl ⟨_, ch, hdesc s.desc hf0 fun _ _ => rfl, ?_⟩
    rw [update_idem, ← hf0, update_eq_self]
  rw [h1]
  simp only
  have hne1 : i1 ≠ i0 := by
    rintro rfl
    rw [hself0] at hf1
    cases hf1
  rw [update_of_ne hne1] at hf1
  generalize hf : update (update s.free i0 false) i1 false = f
  have hf_i0 : f i0 = false := by rw [← hf, update_of_ne hne1.symm, hself0]
  have hf_i1 : f i1 = false := by rw [← hf, update_self]
  obtain h2 | ⟨i2, hi2, hf2, h2⟩ := allocDesc_cases s f s.desc s.chan
  · -- the third round fails
    obtain ⟨ch, hrun⟩ := freeDesc_run s hi0 hf_i0 s.desc s.chan
    have hf_i1' : update f i0 true i1 = false := by rw [update_of_ne hne1, hf_i1]
    obtain ⟨ch', hrun'⟩ := freeDesc_run s hi1 hf_i1' (update s.desc i0 .zero) ch
    have hall : update (update f i0 true) i1 true = s.free := by
      funext i
      simp only [← hf, update_apply]
      split_ifs with ha hb
      · rw [ha, hf1]
      · rw [hb, hf0]
      · rfl
    rw [h2]
    simp only [hrun, hrun']
    refine .inl ⟨_, ch', hdesc _ hf1 (hdesc s.desc hf0 fun _ _ => rfl), ?_⟩
    rw [hall]
  rw [h2]
  have hne2 : i2 ≠ i1 ∧ i2 ≠ i0 := by
    constructor
    · rintro rfl
      rw [hf_i1] at hf2
      cases hf2
    · rintro rfl
      rw [hf_i0] at hf2
      cases hf2
  rw [← hf, update_of_ne hne2.1, update_of_ne hne2.2] at hf2
  refine .inr ⟨⟨i0, i1, i2⟩, ⟨?_, ?_⟩, ?_, ?_⟩
  · simp only [Chain.mem_toList]
    rintro i (rfl | rfl | rfl) <;> assumption
  · simp [Chain.toList, hne1.symm, hne2.1.symm, hne2.2.symm]
  · simp only [Chain.mem_toList]
    rintro i (rfl | rfl | rfl) <;> assumption
  · simp only [← update_eq_mark, hf]

theorem formatChain_formatted (s : Sys P B α) (r : Req B) (hc : c.Wf) :
    Formatted (s.formatChain r c).desc (s.formatChain r c).ops (s.formatChain r c).info r c := by
  obtain ⟨hne01, hne02, hne12⟩ := hc.ne
  constructor <;> simp [Sys.formatChain, hne01, hne02, hne12]

/-- The stores for one chain do not touch what another one says. -/
theorem Formatted.formatChain {s : Sys P B α} {r u : Req B} {d : Chain}
    (h : Formatted s.desc s.ops s.info r c) (hother : ∀ i ∈ c.toList, i ∉ d.toList) :
    Formatted (s.formatChain u d).desc (s.formatChain u d).ops (s.formatChain u d).info r c := by
  have hne (i : ℕ) (hi : i ∈ c.toList) : i ≠ d.i0 ∧ i ≠ d.i1 ∧ i ≠ d.i2 := by
    have hnot := hother i hi
    simpa only [Chain.mem_toList, not_or] using hnot
  have hhead := (hne c.i0 (Chain.mem_toList.mpr (.inl rfl))).1
  refine h.frame (fun i hi => ?_) (update_of_ne hhead ..) (update_of_ne hhead ..)
  obtain ⟨h0, h1, h2⟩ := hne i hi
  simp only [Sys.formatChain, update_of_ne h0, update_of_ne h1, update_of_ne h2]

theorem flags_next (w : Bool) : ((if w then 0 else fWrite) ||| fNext) &&& fNext ≠ 0 := by
  cases w <;> decide

theorem freeChain_next {t u : Sys P B α} {i rounds : ℕ} (hrun : t.freeDesc i = .ok u)
    (hflag : (t.desc i).flags &&& fNext ≠ 0) :
    Sys.freeChain (rounds + 1) t i = Sys.freeChain rounds u (t.desc i).next := by
  rw [Sys.freeChain, hrun]
  exact if_pos hflag

theorem freeChain_last {t u : Sys P B α} {i rounds : ℕ} (hrun : t.freeDesc i = .ok u)
    (hflag : (t.desc i).flags &&& fNext = 0) : Sys.freeChain (rounds + 1) t i = .ok u := by
  rw [Sys.freeChain, hrun]
  exact if_neg (not_not.mpr hflag)

/-- `free_chain` frees the three descriptors of a chain that are not free, and does not panic. -/
theorem freeChain_run {r : Req B} {ops : ℕ → Op} {info : ℕ → Option B} (hc : c.Wf)
    (hfree : ∀ i ∈ c.toList, s.free i = false) (hf : Formatted s.desc ops info r c) :
    ∃ desc chan, (∀ i, i ∉ c.toList → desc i = s.desc i) ∧
      Sys.freeChain (num + 1) s c.i0 = .ok (s.retable (mark s.free c true) desc chan) := by
  obtain ⟨hne01, hne02, hne12⟩ := hc.ne
  have hlt (i : ℕ) (hi : i ∈ c.toList) := hc.lt i hi
  simp only [Chain.mem_toList] at hlt hfree
  obtain ⟨ch0, hrun0⟩ := freeDesc_run s (hlt c.i0 (.inl rfl)) (hfree c.i0 (.inl rfl)) s.desc s.chan
  have hfree1 : update s.free c.i0 true c.i1 = false :=
    (update_of_ne hne01.symm ..).trans (hfree c.i1 (.inr (.inl rfl)))
  obtain ⟨ch1, hrun1⟩ :=
    freeDesc_run s (hlt c.i1 (.inr (.inl rfl))) hfree1 (update s.desc c.i0 .zero) ch0
  have hfree2 : update (update s.free c.i0 true) c.i1 true c.i2 = false :=
    (update_of_ne hne12.symm ..).trans
      ((update_of_ne hne02.symm ..).trans (hfree c.i2 (.inr (.inr rfl))))
  obtain ⟨ch2, hrun2⟩ := freeDesc_run s (hlt c.i2 (.inr (.inr rfl))) hfree2
    (update (update s.desc c.i0 .zero) c.i1 .zero) ch1
  have hd1 : update s.desc c.i0 .zero c.i1 = s.desc c.i1 :=
    update_of_ne hne01.symm ..
  have hd2 : update (update s.desc c.i0 .zero) c.i1 .zero c.i2 = s.desc c.i2 :=
    (update_of_ne hne12.symm ..).trans (update_of_ne hne02.symm ..)
  refine ⟨update (update (update s.desc c.i0 .zero) c.i1 .zero) c.i2 .zero, ch2, fun i hi => ?_, ?_⟩
  · simp only [Chain.mem_toList, not_or] at hi
    rw [update_of_ne hi.2.2, update_of_ne hi.2.1, update_of_ne hi.1]
  · have hrun0' : s.freeDesc c.i0 = .ok _ := hrun0
    rw [show num + 1 = 8 + 1 from rfl,
      freeChain_next hrun0' (by rw [hf.desc0]; exact (by decide : fNext &&& fNext ≠ 0)), hf.desc0,
      show 8 = 7 + 1 from rfl, freeChain_next hrun1 ?_, show 7 = 6 + 1 from rfl]
    · change Sys.freeChain (6 + 1) _ (update s.desc c.i0 .zero c.i1).next = _
      rw [hd1, hf.desc1, freeChain_last hrun2 ?_, update_eq_mark]
      change (update (update s.desc c.i0 .zero) c.i1 .zero c.i2).flags &&& fNext = 0
      rw [hd2, hf.desc2]
      exact (by decide : fWrite &&& fNext = 0)
    · change (update s.desc c.i0 .zero c.i1).flags &&& fNext ≠ 0
      rw [hd1, hf.desc1]
      exact flags_next _

end descriptors

section calls

structure Calls (held : B → Bool) (next : ℕ) (req : P → Option (Req B)) : Prop where
  buf : ∀ p q r t, req p = some r → req q = some t → r.buf = t.buf → p = q
  ticket : ∀ p q r t, req p = some r → req q = some t → r.ticket = t.ticket → p = q
  held : ∀ p r, req p = some r → held r.buf = true
  lt : ∀ p r, req p = some r → r.ticket < next

variable {held : B → Bool} {next : ℕ} {req : P → Option (Req B)} {p : P} {r : Req B}

variable [DecidableEq P]

variable [DecidableEq B]

theorem Calls.enter (h : Calls held next req) (hb : held r.buf = false) (ht : r.ticket = next) :
    Calls (update held r.buf true) (next + 1) (update req p (some r)) := by
  have hnew {q : P} {t : Req B} (hq : req q = some t) : t.buf ≠ r.buf ∧ t.ticket ≠ r.ticket := by
    constructor
    · intro heq
      have hheld := h.held q t hq
      rw [heq, hb] at hheld
      cases hheld
    · have hlt := h.lt q t hq
      omega
  refine ⟨fun q u t v hq hu heq => ?_, fun q u t v hq hu heq => ?_, fun q t hq => ?_,
    fun q t hq => ?_⟩
  · exact alone_update (R := fun r t => r.buf = t.buf) Eq.symm (h.buf _ _ _ _)
      (fun hq => (hnew hq).1) hq hu heq
  · exact alone_update (R := fun r t => r.ticket = t.ticket) Eq.symm (h.ticket _ _ _ _)
      (fun hq => (hnew hq).2) hq hu heq
  · obtain ⟨-, ht'⟩ | ⟨-, hq⟩ := update_eq_some hq
    · rw [← Option.some.inj ht', update_self]
    · rw [update_of_ne (hnew hq).1]
      exact h.held q t hq
  · obtain ⟨-, ht'⟩ | ⟨-, hq⟩ := update_eq_some hq
    · rw [← Option.some.inj ht', ht]
      exact Nat.lt_succ_self _
    · exact (h.lt q t hq).trans (Nat.lt_succ_self _)

theorem Calls.leave (h : Calls held next req) (hp : req p = some r) :
    Calls (update held r.buf false) next (update req p none) := by
  have hold {q : P} {t : Req B} (hq : update req p none q = some t) := eq_some_of_update_none hq
  refine ⟨fun q u t v hq hu => h.buf q u t v (hold hq).2 (hold hu).2,
    fun q u t v hq hu => h.ticket q u t v (hold hq).2 (hold hu).2, fun q t hq => ?_,
    fun q t hq => h.lt q t (hold hq).2⟩
  have hne : t.buf ≠ r.buf := fun heq => (hold hq).1 (h.buf q p t r (hold hq).2 hp heq)
  rw [update_of_ne hne]
  exact h.held q t (hold hq).2

end calls

section flow

/-- Where the submitted chains are: `l₁` is the avail ring, `l₂` the used ring. -/
structure Flow (busy : B → Bool) (status : ℕ → ℕ) (done : ℕ → Bool) (next : ℕ)
    (l₁ fetched served l₂ : List Entry) (sub : P → Option (Req B × Chain))
    (req : P → Option (Req B)) :
    Prop where
  nodup : ((l₁ ++ fetched ++ served ++ l₂).map Entry.id).Nodup
  mem : ∀ e, e ∈ l₁ ++ fetched ++ served ++ l₂ ↔ ∃ p r c, sub p = some (r, c) ∧ e = entry r c ∧
    busy r.buf = true
  zero : ∀ e ∈ served ++ l₂, status e.id = 0
  posted : ∀ e ∈ l₂, done e.ticket = true
  not_done : ∀ e ∈ l₁ ++ fetched ++ served, done e.ticket = false
  returned : ∀ p r c, sub p = some (r, c) → busy r.buf = false → done r.ticket = true
  not_submitted : ∀ p r, req p = some r → sub p = none → done r.ticket = false
  fresh : ∀ t, next ≤ t → done t = false

variable {busy : B → Bool} {status : ℕ → ℕ} {done : ℕ → Bool} {next : ℕ}
  {l₁ fetched served l₂ : List Entry} {sub : P → Option (Req B × Chain)} {req : P → Option (Req B)}
  {held : B → Bool} {free : ℕ → Bool} {chain : P → Option Chain} {p : P} {r : Req B} {c : Chain}
  {e : Entry}

theorem perm_erase_append {x y : List Entry} (he : e ∈ x) :
    (x.erase e ++ (y ++ [e])).Perm (x ++ y) := by
  have hcons : (x ++ y).Perm (e :: (x.erase e ++ y)) := (perm_cons_erase he).append_right y
  rw [← append_assoc]
  exact (perm_append_singleton e _).trans hcons.symm

section kept

variable (h : Flow busy status done next l₁ fetched served l₂ sub req)

include h

/-- A chain that no process has submitted is not on its way. -/
theorem Flow.id_ne
    (hd : Descs free chain) (hsub : ∀ q r c, sub q = some (r, c) → chain q = some c)
    (hp : chain p = some c) (hnone : sub p = none) (he : e ∈ l₁ ++ fetched ++ served ++ l₂) :
    e.id ≠ c.i0 := by
  obtain ⟨q, t, d, hq, rfl, -⟩ := (h.mem e).mp he
  intro heq
  have hqp : q = p := hd.disjoint q p d c c.i0 (hsub q t d hq) hp
    (Chain.mem_toList.mpr (.inl heq.symm)) (Chain.mem_toList.mpr (.inl rfl))
  rw [hqp, hnone] at hq
  cases hq

/-- A chain moves from one place to another. -/
theorem Flow.move {status' : ℕ → ℕ} {done' : ℕ → Bool} {k₁ fetched' served' k₂ : List Entry}
    (hperm : (k₁ ++ fetched' ++ served' ++ k₂).Perm (l₁ ++ fetched ++ served ++ l₂))
    (hstatus : ∀ e ∈ served' ++ k₂, status' e.id = 0) (hdone : ∀ e ∈ k₂, done' e.ticket = true)
    (hnot : ∀ e ∈ k₁ ++ fetched' ++ served', done' e.ticket = false)
    (hmono : ∀ t, done t = true → done' t = true)
    (hsubmitted : ∀ p r, req p = some r → sub p = none → done' r.ticket = false)
    (hfresh : ∀ t, next ≤ t → done' t = false) :
    Flow busy status' done' next k₁ fetched' served' k₂ sub req where
  nodup := by rw [(hperm.map _).nodup_iff]; exact h.nodup
  mem e := by rw [hperm.mem_iff]; exact h.mem e
  zero := hstatus
  posted := hdone
  not_done := hnot
  returned p r c hp hb := hmono _ (h.returned p r c hp hb)
  not_submitted := hsubmitted
  fresh := hfresh

theorem Flow.serve (he : e ∈ fetched) :
    Flow busy (update status e.id 0) done next l₁ (fetched.erase e) (served ++ [e]) l₂ sub
      req := by
  have hmove : (l₁ ++ fetched.erase e ++ (served ++ [e])).Perm (l₁ ++ fetched ++ served) := by
    rw [append_assoc, append_assoc]
    exact (perm_erase_append he).append_left l₁
  refine h.move (hmove.append_right l₂) (fun x hx => ?_) h.posted
    (fun x hx => h.not_done x (hmove.mem_iff.mp hx)) (fun _ ht => ht) h.not_submitted h.fresh
  by_cases hid : x.id = e.id
  · rw [hid, update_self]
  · rw [update_of_ne hid]
    have hne : x ≠ e := fun heq => hid (by rw [heq])
    refine h.zero x ?_
    simpa [hne] using hx

/-- The device completes a chain: its ticket is done, and no other one. -/
theorem Flow.post
    (hcalls : Calls held next req) (hreq : ∀ q r c, sub q = some (r, c) → req q = some r)
    (he : e ∈ served) :
    Flow busy status (update done e.ticket true) next l₁ fetched (served.erase e) (l₂ ++ [e])
    sub req := by
  have hmove : (l₁ ++ fetched ++ served.erase e ++ (l₂ ++ [e])).Perm
      (l₁ ++ fetched ++ served ++ l₂) := by
    rw [append_assoc (l₁ ++ fetched), append_assoc (l₁ ++ fetched)]
    exact (perm_erase_append he).append_left _
  have hin : e ∈ l₁ ++ fetched ++ served ++ l₂ := by simp [he]
  obtain ⟨p, r, c, hp, rfl, hbusy⟩ := (h.mem e).mp hin
  have hself : ∀ q t, req q = some t → t.ticket = r.ticket → q = p := fun q t hq heq =>
    hcalls.ticket q p t r hq (hreq p r c hp) heq
  have hticket (x : Entry) (hx : x ∈ l₁ ++ fetched ++ served ++ l₂) (heq : x.ticket = r.ticket) :
      x = entry r c := by
    obtain ⟨q, t, d, hq, rfl, -⟩ := (h.mem x).mp hx
    obtain rfl := hself q t (hreq q t d hq) heq
    rw [hp] at hq
    cases hq
    rfl
  have hnodup : (l₁ ++ fetched ++ served).Nodup := by
    have hall := h.nodup.of_map
    exact (nodup_append.mp hall).1
  refine h.move hmove (fun x hx => h.zero x ?_) (fun x hx => ?_) (fun x hx => ?_) (fun t ht => ?_)
    (fun q t hq hqnone => ?_) fun t ht => ?_
  · simp only [mem_append, mem_singleton] at hx ⊢
    obtain hx | hx | rfl := hx
    · exact .inl (mem_of_mem_erase hx)
    · exact .inr hx
    · exact .inl he
  · simp only [mem_append, mem_singleton] at hx
    obtain hx | rfl := hx
    · rw [update_apply]
      split_ifs
      · rfl
      · exact h.posted x hx
    · exact update_self ..
  · have hold : x ∈ l₁ ++ fetched ++ served ∧ x ≠ entry r c := by
      rw [nodup_append] at hnodup
      obtain ⟨-, hserved, hdisj⟩ := hnodup
      obtain hx | hx := mem_append.mp hx
      · exact ⟨mem_append_left _ hx, hdisj x hx _ he⟩
      · rw [hserved.mem_erase_iff] at hx
        exact ⟨mem_append_right _ hx.2, hx.1⟩
    have hne : x.ticket ≠ (entry r c).ticket := fun heq =>
      hold.2 (hticket x (mem_append_left _ hold.1) heq)
    rw [update_of_ne hne]
    exact h.not_done x hold.1
  · rw [update_apply]
    split_ifs
    · rfl
    · exact ht
  · have hne : t.ticket ≠ (entry r c).ticket := by
      intro heq
      obtain rfl := hself q t hq heq
      rw [hp] at hqnone
      cases hqnone
    rw [update_of_ne hne]
    exact h.not_submitted q t hq hqnone
  · have hlt := hcalls.lt p r (hreq p r c hp)
    have hne : t ≠ (entry r c).ticket := by
      simp only [entry]
      omega
    rw [update_of_ne hne]
    exact h.fresh t ht

section buffers

variable [DecidableEq B]

theorem Flow.format
    (hcalls : Calls held next req) (hd : Descs free chain)
    (hreq : ∀ q r c, sub q = some (r, c) → req q = some r)
    (hsub : ∀ q r c, sub q = some (r, c) → chain q = some c)
    (hp : chain p = some c) (hnone : sub p = none) (hr : req p = some r) (x : ℕ) :
    Flow (update busy r.buf true) (update status c.i0 x) done next l₁ fetched served
    l₂ sub req := by
  have hbuf {q : P} {t : Req B} {d : Chain} (hq : sub q = some (t, d)) : t.buf ≠ r.buf := by
    intro heq
    have hqp := hcalls.buf q p t r (hreq q t d hq) hr heq
    rw [hqp, hnone] at hq
    cases hq
  refine ⟨h.nodup, fun e => ?_, fun e he => ?_, h.posted, h.not_done, fun q t d hq hidle => ?_,
    h.not_submitted, h.fresh⟩
  · rw [h.mem]
    refine exists_congr
      fun q => exists_congr fun t => exists_congr fun d => and_congr_right fun hq => ?_
    rw [update_of_ne (hbuf hq)]
  · have hmem : e ∈ l₁ ++ fetched ++ served ++ l₂ := by
      simp only [mem_append] at he ⊢
      tauto
    rw [update_of_ne (h.id_ne hd hsub hp hnone hmem)]
    exact h.zero e he
  · rw [update_of_ne (hbuf hq)] at hidle
    exact h.returned q t d hq hidle

end buffers

section processes

variable [DecidableEq P]

theorem Flow.submit
    (hd : Descs free chain) (hsub : ∀ q r c, sub q = some (r, c) → chain q = some c)
    (hp : chain p = some c) (hnone : sub p = none) (hreq : req p = some r)
    (hbusy : busy r.buf = true) :
    Flow busy status done next (l₁ ++ [entry r c]) fetched served l₂
    (update sub p (some (r, c))) req := by
  have hperm : (l₁ ++ [entry r c] ++ fetched ++ served ++ l₂).Perm
      (entry r c :: (l₁ ++ fetched ++ served ++ l₂)) := by
    simp only [append_assoc, singleton_append]
    exact perm_middle
  refine ⟨?_, fun e => ?_, h.zero, h.posted, fun e he => ?_, fun q t d hq hidle => ?_,
    fun q t hq hqnone => ?_, h.fresh⟩
  · rw [(hperm.map _).nodup_iff, map_cons, nodup_cons]
    refine ⟨fun hmem => ?_, h.nodup⟩
    obtain ⟨e, he, hid⟩ := mem_map.mp hmem
    exact h.id_ne hd hsub hp hnone he hid
  · rw [hperm.mem_iff, mem_cons, h.mem]
    constructor
    · rintro (rfl | ⟨q, t, d, hq, rfl, hb⟩)
      · exact ⟨p, r, c, update_self .., rfl, hbusy⟩
      · have hqp : q ≠ p := by
          rintro rfl
          rw [hnone] at hq
          cases hq
        exact ⟨q, t, d, (update_of_ne hqp ..).trans hq, rfl, hb⟩
    · rintro ⟨q, t, d, hq, rfl, hb⟩
      obtain ⟨-, heq⟩ | ⟨-, hq⟩ := update_eq_some hq
      · cases heq
        exact .inl rfl
      · exact .inr ⟨q, t, d, hq, rfl, hb⟩
  · simp only [append_assoc, mem_append, mem_singleton] at he
    obtain he | rfl | he := he
    · exact h.not_done e (by simp [he])
    · exact h.not_submitted p r hreq hnone
    · exact h.not_done e (by
        simp only [append_assoc, mem_append]
        exact .inr he)
  · obtain ⟨-, heq⟩ | ⟨-, hq⟩ := update_eq_some hq
    · cases heq
      rw [hbusy] at hidle
      cases hidle
    · exact h.returned q t d hq hidle
  · have hqp : q ≠ p := by
      rintro rfl
      rw [update_self] at hqnone
      cases hqnone
    rw [update_of_ne hqp] at hqnone
    exact h.not_submitted q t hq hqnone

theorem Flow.leave
    (hp : sub p = some (r, c)) (hbusy : busy r.buf = false) :
    Flow busy status done next l₁ fetched served l₂ (update sub p none) (update req p none) := by
  have hold {q : P} {x : Req B × Chain} (hq : update sub p none q = some x) : sub q = some x :=
    (eq_some_of_update_none hq).2
  refine ⟨h.nodup, fun e => ?_, h.zero, h.posted, h.not_done,
    fun q t d hq => h.returned q t d (hold hq), fun q t hq hqnone => ?_, h.fresh⟩
  · rw [h.mem]
    constructor
    · rintro ⟨q, t, d, hq, rfl, hb⟩
      have hqp : q ≠ p := by
        rintro rfl
        rw [hp] at hq
        cases hq
        rw [hbusy] at hb
        cases hb
      exact ⟨q, t, d, (update_of_ne hqp ..).trans hq, rfl, hb⟩
    · rintro ⟨q, t, d, hq, rfl, hb⟩
      exact ⟨q, t, d, hold hq, rfl, hb⟩
  · obtain ⟨hqp, hq⟩ := eq_some_of_update_none hq
    rw [update_of_ne hqp] at hqnone
    exact h.not_submitted q t hq hqnone

theorem Flow.enter (ht : r.ticket = next) :
    Flow busy status done (next + 1) l₁ fetched served l₂ sub (update req p (some r)) := by
  refine ⟨h.nodup, h.mem, h.zero, h.posted, h.not_done, h.returned, fun q t hq hqnone => ?_,
    fun t ht' => h.fresh t (by omega)⟩
  obtain ⟨-, hx⟩ | ⟨-, hq⟩ := update_eq_some hq
  · rw [← Option.some.inj hx, ht]
    exact h.fresh _ le_rfl
  · exact h.not_submitted q t hq hqnone

end processes

end kept

theorem Flow.fetch {rest : List Entry}
    (h : Flow busy status done next (e :: rest) fetched served l₂ sub req) :
    Flow busy status done next rest (fetched ++ [e]) served l₂ sub req := by
  have hmove := perm_erase_append (e := e) (x := e :: rest) (y := fetched) mem_cons_self
  rw [erase_cons_head] at hmove
  refine h.move ((hmove.append_right served).append_right l₂) h.zero h.posted
    (fun x hx => h.not_done x ?_) (fun _ ht => ht) h.not_submitted h.fresh
  exact ((hmove.append_right served).mem_iff).mp hx

variable [DecidableEq B]

/-- The interrupt handler takes a chain from the used ring and clears the flag of its buffer. -/
theorem Flow.take {rest : List Entry}
    (h : Flow busy status done next l₁ fetched served (entry r c :: rest) sub req)
    (hcalls : Calls held next req) (hreq : ∀ q r c, sub q = some (r, c) → req q = some r)
    (hp : sub p = some (r, c)) :
    Flow (update busy r.buf false) status done next l₁ fetched served rest sub req := by
  have hperm : (l₁ ++ fetched ++ served ++ entry r c :: rest).Perm
      (entry r c :: (l₁ ++ fetched ++ served ++ rest)) := perm_middle
  have hnodup := h.nodup
  rw [(hperm.map _).nodup_iff, map_cons, nodup_cons] at hnodup
  have hbuf {q : P} {t : Req B} {d : Chain} (hq : sub q = some (t, d)) (hqp : q ≠ p) :
      t.buf ≠ r.buf :=
    fun heq => hqp (hcalls.buf q p t r (hreq q t d hq) (hreq p r c hp) heq)
  refine ⟨hnodup.2, fun e => ?_, fun e he => h.zero e ?_, fun e he => h.posted e (by simp [he]),
    h.not_done, fun q t d hq hidle => ?_, h.not_submitted, h.fresh⟩
  · have hiff : e ∈ l₁ ++ fetched ++ served ++ rest ↔
        e ≠ entry r c ∧ e ∈ l₁ ++ fetched ++ served ++ entry r c :: rest := by
      rw [hperm.mem_iff, mem_cons]
      constructor
      · intro he
        refine ⟨?_, .inr he⟩
        rintro rfl
        exact hnodup.1 (mem_map_of_mem he)
      · rintro ⟨hne, heq | he⟩
        · exact absurd heq hne
        · exact he
    rw [hiff, h.mem]
    constructor
    · rintro ⟨hne, q, t, d, hq, rfl, hb⟩
      have hqp : q ≠ p := by
        rintro rfl
        rw [hp] at hq
        cases hq
        exact hne rfl
      exact ⟨q, t, d, hq, rfl, by rw [update_of_ne (hbuf hq hqp)]; exact hb⟩
    · rintro ⟨q, t, d, hq, rfl, hb⟩
      have hne : t.buf ≠ r.buf := by
        intro heq
        rw [heq, update_self] at hb
        cases hb
      rw [update_of_ne hne] at hb
      refine ⟨fun heq => ?_, q, t, d, hq, rfl, hb⟩
      have hticket : t.ticket = r.ticket := congrArg Entry.ticket heq
      have hqp := hcalls.ticket q p t r (hreq q t d hq) (hreq p r c hp) hticket
      rw [hqp, hp] at hq
      cases hq
      exact hne rfl
  · simp only [mem_append, mem_cons] at he ⊢
    tauto
  · by_cases hqp : q = p
    · subst hqp
      rw [hp] at hq
      cases hq
      exact h.posted (entry r c) mem_cons_self
    · rw [update_of_ne (hbuf hq hqp)] at hidle
      exact h.returned q t d hq hidle

end flow

end Xv6.Virtio
