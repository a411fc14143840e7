import Xv6.Transition

/-!
# Threads that run programs of atomic actions

A program is a tree of actions on a shared state: an action may be blocked, fail, or return a value
that selects what comes next. A pool runs one program for each thread, interleaved at the actions,
and stops at the first failure. `Safe` is the proof rule for one program against a global invariant:
`Inv` relates the shared state to a ghost value for each thread, which only the thread itself
changes, `C` is a condition on the steps that are taken, and `P` is what a step must satisfy.
-/

namespace Xv6.Threads

open Function Transition

inductive Prog (σ ε α : Type) : Type 1
  | ret (a : α)
  | act {β : Type} (f : σ → Option (Except ε (β × σ))) (k : β → Prog σ ε α)

variable {σ ε α β γ ι : Type}

namespace Prog

def bind : Prog σ ε α → (α → Prog σ ε β) → Prog σ ε β
  | ret a, k => k a
  | act f c, k => act f fun b => (c b).bind k

instance : Monad (Prog σ ε) where
  pure := ret
  bind := bind

def atom (f : σ → Option (Except ε (α × σ))) : Prog σ ε α := act f ret

def ended : Prog σ ε α → Bool
  | ret _ => true
  | act _ _ => false

theorem eq_ret {c : Prog σ ε Unit} (h : c.ended = true) : c = ret () := by
  cases c with
  | ret _ => rfl
  | act _ _ => cases h

end Prog

structure Pool (σ ε : Type) where
  shared : σ
  code : ℕ → Prog σ ε Unit
  failed : Option ε

inductive Move (ι : Type)
  | start (p : ℕ) (c : ι)
  | step (p : ℕ)

/-- A call of `n` actions that thread `p` makes while the others stand still. -/
def Move.whole (p : ℕ) (c : ι) (n : ℕ) : List (Move ι) := .start p c :: List.replicate n (.step p)

/-- A thread whose program has ended may start another call; a started one takes its next action. -/
def step (call : ℕ → ι → Prog σ ε Unit) (s : Pool σ ε) : Move ι → Option (Pool σ ε)
  | .start p c =>
    match s.failed, s.code p with
    | none, .ret _ => some { s with code := update s.code p (call p c) }
    | _, _ => none
  | .step p =>
    match s.failed, s.code p with
    | none, .act f k =>
      match f s.shared with
      | none => none
      | some (.error e) => some { s with failed := some e }
      | some (.ok (b, t)) => some { s with shared := t, code := update s.code p (k b) }
    | _, _ => none

theorem shared_of_failed {call : ℕ → ι → Prog σ ε Unit} {s t : Pool σ ε} {p : ℕ} {e : ε}
    (hs : step call s (.step p) = some t) (hf : t.failed = some e) : t.shared = s.shared := by
  simp only [step] at hs
  split at hs
  · next hnone _ =>
      split at hs
      · cases hs
      · cases hs
        rfl
      · cases hs
        rw [hnone] at hf
        cases hf
  · cases hs

section alone

variable {s t u : σ} {a : α} {b : β} {m n : ℕ}

/-- The program goes from `s` to `t` in `n` actions, with nobody in between, and returns `a`. -/
inductive Does : Prog σ ε α → σ → α → σ → ℕ → Prop
  | ret (a : α) (s : σ) : Does (.ret a) s a s 0
  | act {β : Type} {f : σ → Option (Except ε (β × σ))} {k : β → Prog σ ε α} {s t u : σ} {b : β}
      {a : α} {n : ℕ} (first : f s = some (.ok (b, t))) (rest : Does (k b) t a u n) :
      Does (.act f k) s a u (n + 1)

theorem Does.atom {f : σ → Option (Except ε (α × σ))} (h : f s = some (.ok (a, t))) :
    Does (Prog.atom f) s a t 1 := .act h (.ret a t)

theorem Does.bind {c : Prog σ ε α} {k : α → Prog σ ε β} (h : Does c s a t m)
    (hk : Does (k a) t b u n) : Does (c.bind k) s b u (m + n) := by
  induction h with
  | ret a s =>
    rw [Nat.zero_add]
    exact hk
  | act first rest ih =>
    rw [Nat.add_right_comm]
    exact .act first (ih hk)

theorem Does.steps (call : ℕ → ι → Prog σ ε Unit) {p : ℕ} {c : Prog σ ε Unit} {x : Unit}
    (h : Does c s x t n) {code : ℕ → Prog σ ε Unit} (hcode : code p = c) :
    run (step call) ⟨s, code, none⟩ (List.replicate n (.step p)) =
      some ⟨t, update code p (.ret ()), none⟩ := by
  induction h generalizing code with
  | ret x s =>
    rw [← hcode, update_eq_self]
    rfl
  | act first rest ih =>
    simp only [List.replicate_succ, run, step, hcode, first, Option.bind_some]
    rw [ih (update_self ..), update_idem]

theorem Does.run {call : ℕ → ι → Prog σ ε Unit} {p : ℕ} {c : ι} (h : Does (call p c) s () t n)
    {code : ℕ → Prog σ ε Unit} (hcode : code p = .ret ()) :
    run (step call) ⟨s, code, none⟩ (Move.whole p c n) = some ⟨t, code, none⟩ := by
  have hsteps := h.steps call (update_self p (call p c) code)
  rw [update_idem, ← hcode, update_eq_self] at hsteps
  simpa only [Move.whole, Transition.run, step, hcode, Option.bind_some] using hsteps

end alone

section Safe

variable (Inv : σ → (ℕ → γ) → Prop) (C P : σ → σ → Prop) (Bad : ε → Prop)

/-- Every action of the program keeps the invariant for some new ghost value of the thread, and the
program ends with a result and a ghost value that satisfy `Q`. -/
def Safe (p : ℕ) : Prog σ ε α → γ → (α → γ → Prop) → Prop
  | .ret a, g, Q => Q a g
  | .act f k, g, Q => ∀ s G, Inv s G → G p = g → (∀ e, f s = some (.error e) → ¬ Bad e) ∧
      ∀ b t, f s = some (.ok (b, t)) → C s t → P s t ∧ ∃ g', Inv t (update G p g') ∧
      Safe p (k b) g' Q

variable {Inv C P Bad} {p : ℕ} {g : γ} {Q : α → γ → Prop}

theorem Safe.bind {c : Prog σ ε α} {k : α → Prog σ ε β} {R : β → γ → Prop}
    (h : Safe Inv C P Bad p c g Q)
    (hk : ∀ a g', Q a g' → Safe Inv C P Bad p (k a) g' R) : Safe Inv C P Bad p (c.bind k) g R := by
  induction c generalizing g with
  | ret a => exact hk a g h
  | act f c ih =>
    intro s G hI hg
    obtain ⟨herr, hok⟩ := h s G hI hg
    refine ⟨herr, fun b t hf hC => ?_⟩
    obtain ⟨hP, g', hI', hrest⟩ := hok b t hf hC
    exact ⟨hP, g', hI', ih b hrest⟩

theorem Safe.mono {c : Prog σ ε α} {R : α → γ → Prop} (h : Safe Inv C P Bad p c g Q)
    (hQR : ∀ a g', Q a g' → R a g') : Safe Inv C P Bad p c g R := by
  induction c generalizing g with
  | ret a => exact hQR a g h
  | act f c ih =>
    intro s G hI hg
    obtain ⟨herr, hok⟩ := h s G hI hg
    refine ⟨herr, fun b t hf hC => ?_⟩
    obtain ⟨hP, g', hI', hrest⟩ := hok b t hf hC
    exact ⟨hP, g', hI', ih b hrest⟩

variable (Inv C P Bad)

def PoolInv (idle : γ) (s : Pool σ ε) : Prop :=
  (∀ e, s.failed = some e → ¬ Bad e) ∧
    ∃ G, Inv s.shared G ∧ ∀ p, Safe Inv C P Bad p (s.code p) (G p) fun _ g => g = idle

variable {Inv C P Bad} {call : ℕ → ι → Prog σ ε Unit} {idle : γ}

theorem PoolInv.start (hcall : ∀ p c, Safe Inv C P Bad p (call p c) idle fun _ g => g = idle)
    {s t : Pool σ ε} (h : PoolInv Inv C P Bad idle s) {p : ℕ} {c : ι}
    (hs : step call s (.start p c) = some t) :
    t.shared = s.shared ∧ PoolInv Inv C P Bad idle t := by
  obtain ⟨hfail, G, hI, hsafe⟩ := h
  simp only [step] at hs
  split at hs
  · next a _ hcode =>
      cases hs
      have hidle : G p = idle := by
        have hp := hsafe p
        rwa [hcode] at hp
      refine ⟨rfl, hfail, G, hI, fun q => ?_⟩
      by_cases hq : q = p
      · subst hq
        simp only [update_self, hidle]
        exact hcall q c
      · simp only [update_of_ne hq]
        exact hsafe q
  · cases hs

theorem PoolInv.step {s t : Pool σ ε} (h : PoolInv Inv C P Bad idle s) {p : ℕ}
    (hC : C s.shared t.shared) (hs : Threads.step call s (.step p) = some t) :
    (t.failed = none → P s.shared t.shared) ∧ PoolInv Inv C P Bad idle t := by
  obtain ⟨hfail, G, hI, hsafe⟩ := h
  simp only [Threads.step] at hs
  split at hs
  · next β f k hnone hcode =>
      have hp := hsafe p
      rw [hcode] at hp
      obtain ⟨herr, hok⟩ := hp s.shared G hI rfl
      cases hf : f s.shared with
      | none => rw [hf] at hs; cases hs
      | some r =>
        rw [hf] at hs
        cases r with
        | error e =>
          cases hs
          refine ⟨fun hno => (by cases hno), ?_, G, hI, hsafe⟩
          intro e' he'
          cases he'
          exact herr e hf
        | ok r =>
          obtain ⟨b, t'⟩ := r
          cases hs
          obtain ⟨hP, g', hI', hrest⟩ := hok b t' hf hC
          refine ⟨fun _ => hP, hfail, update G p g', hI', fun q => ?_⟩
          by_cases hq : q = p
          · subst hq
            simpa only [update_self] using hrest
          · simpa only [update_of_ne hq] using hsafe q
  · cases hs

def Pool.quiet (s : σ) : Pool σ ε := ⟨s, fun _ => .ret (), none⟩

theorem PoolInv.quiet {s : σ} (hI : Inv s fun _ => idle) :
    PoolInv Inv C P Bad idle (Pool.quiet s : Pool σ ε) :=
  ⟨fun _ he => (by cases he), fun _ => idle, hI, fun _ => rfl⟩

def Meets (call : ℕ → ι → Prog σ ε Unit) (C : σ → σ → Prop) (s : Pool σ ε) (m : Move ι) : Prop :=
  ∀ t, step call s m = some t → C s.shared t.shared

instance (call : ℕ → ι → Prog σ ε Unit) (C : σ → σ → Prop) [∀ s t, Decidable (C s t)]
    (s : Pool σ ε) (m : Move ι) : Decidable (Meets call C s m) :=
  match h : Threads.step call s m with
  | none => isTrue fun t ht => by rw [h] at ht; cases ht
  | some u => decidable_of_iff (C s.shared u.shared)
      ⟨fun hC t ht => by rw [h] at ht; cases ht; exact hC, fun hC => hC u h⟩

theorem PoolInv.next (hrefl : ∀ s, P s s)
    (hcall : ∀ p c, Safe Inv C P Bad p (call p c) idle fun _ g => g = idle) {s t : Pool σ ε}
    (h : PoolInv Inv C P Bad idle s) {m : Move ι} (hC : Meets call C s m)
    (hs : Threads.step call s m = some t) :
    P s.shared t.shared ∧ PoolInv Inv C P Bad idle t := by
  cases m with
  | start p c =>
    obtain ⟨hshared, hnext⟩ := h.start hcall hs
    rw [hshared]
    exact ⟨hrefl s.shared, hnext⟩
  | step p =>
    obtain ⟨hP, hnext⟩ := h.step (hC t hs) hs
    refine ⟨?_, hnext⟩
    cases hf : t.failed with
    | none => exact hP hf
    | some e =>
      have hsame : t.shared = s.shared := shared_of_failed hs hf
      rw [hsame]
      exact hrefl s.shared

theorem PoolInv.run (hrefl : ∀ s, P s s)
    (hcall : ∀ p c, Safe Inv C P Bad p (call p c) idle fun _ g => g = idle) {s t : Pool σ ε}
    (h : PoolInv Inv C P Bad idle s) {ms : List (Move ι)}
    (hC : Transition.Along (Threads.step call) (Meets call C) s ms)
    (hrun : run (Threads.step call) s ms = some t) : PoolInv Inv C P Bad idle t :=
  run_invariant (fun _ _ _ hI hm hs => (hI.next hrefl hcall hm hs).2) h hC hrun

theorem PoolInv.along (hrefl : ∀ s, P s s)
    (hcall : ∀ p c, Safe Inv C P Bad p (call p c) idle fun _ g => g = idle) {s : Pool σ ε}
    (h : PoolInv Inv C P Bad idle s) {ms : List (Move ι)}
    (hC : Transition.Along (Threads.step call) (Meets call C) s ms) :
    Transition.Along (Threads.step call) (Meets call P) s ms := by
  induction ms generalizing s with
  | nil => exact trivial
  | cons m ms ih =>
    refine ⟨fun t ht => (h.next hrefl hcall hC.1 ht).1, ?_⟩
    cases ht : Threads.step call s m with
    | none => exact trivial
    | some t => exact ih (h.next hrefl hcall hC.1 ht).2 (hC.tail ht)

end Safe

end Xv6.Threads
