import Mathlib.Tactic

/-!
# Runs of partial step functions

A machine is a step function `σ → α → Option σ`: the label `α` resolves every choice the machine
has, and `none` means that the labelled step is not enabled. `run` folds a list of labels, and
`Along` asks a condition of every step a run takes. Invariants of whole runs come from
`run_invariant`, which needs the condition and the invariant of one step only.
-/

namespace Xv6.Transition

variable {σ α : Type*} (step : σ → α → Option σ)

def run : σ → List α → Option σ
  | s, [] => some s
  | s, a :: as => (step s a).bind (fun s' => run s' as)

/-- The condition `C` holds of every step taken from `s` along the labels. -/
def Along (C : σ → α → Prop) : σ → List α → Prop
  | _, [] => True
  | s, a :: as => C s a ∧ (step s a).elim True (fun s' => Along C s' as)

instance decidableAlong (C : σ → α → Prop) [∀ s a, Decidable (C s a)] :
    ∀ s as, Decidable (Along step C s as)
  | _, [] => isTrue trivial
  | s, a :: as =>
    have : Decidable ((step s a).elim True (fun s' => Along step C s' as)) :=
      match step s a with
      | none => isTrue trivial
      | some s' => decidableAlong C s' as
    inferInstanceAs (Decidable (C s a ∧ _))

@[simp] theorem run_nil (s : σ) : run step s [] = some s := rfl

theorem run_cons_eq_some (s s' : σ) (a : α) (as : List α) :
    run step s (a :: as) = some s' ↔ ∃ t, step s a = some t ∧ run step t as = some s' := by
  simp only [run, Option.bind_eq_some_iff]

theorem run_append (s : σ) (as bs : List α) :
    run step s (as ++ bs) = (run step s as).bind (fun t => run step t bs) := by
  induction as generalizing s with
  | nil => rfl
  | cons a as ih =>
    simp only [List.cons_append, run]
    cases step s a with
    | none => rfl
    | some t => exact ih t

variable {step}

theorem Along.tail {C : σ → α → Prop} {s t : σ} {a : α} {as : List α}
    (h : Along step C s (a :: as)) (ht : step s a = some t) : Along step C t as := by
  have h2 := h.2
  rw [ht] at h2
  exact h2

/-- An invariant of every step that meets `C` is an invariant of every run along `C`. -/
theorem run_invariant {C : σ → α → Prop} {I : σ → Prop}
    (hstep : ∀ s a t, I s → C s a → step s a = some t → I t) {s s' : σ} {as : List α}
    (hs : I s) (hC : Along step C s as) (hrun : run step s as = some s') : I s' := by
  induction as generalizing s with
  | nil =>
    rw [run_nil] at hrun
    exact Option.some.inj hrun ▸ hs
  | cons a as ih =>
    obtain ⟨t, ht, hrest⟩ := (run_cons_eq_some step s s' a as).1 hrun
    exact ih (hstep s a t hs hC.1 ht) (hC.tail ht) hrest

theorem along_true (s : σ) (as : List α) : Along step (fun _ _ => True) s as := by
  induction as generalizing s with
  | nil => trivial
  | cons a as ih =>
    refine ⟨trivial, ?_⟩
    cases step s a with
    | none => trivial
    | some t => exact ih t

theorem along_of_forall {P : α → Prop} {as : List α} (h : ∀ a ∈ as, P a) (s : σ) :
    Along step (fun _ a => P a) s as := by
  induction as generalizing s with
  | nil => trivial
  | cons a as ih =>
    refine ⟨h a List.mem_cons_self, ?_⟩
    cases step s a with
    | none => trivial
    | some t => exact ih (fun b hb => h b (List.mem_cons_of_mem _ hb)) t

/-- Every state reached by some run satisfies an invariant of all steps. -/
theorem run_invariant_all {I : σ → Prop} (hstep : ∀ s a t, I s → step s a = some t → I t)
    {s s' : σ} {as : List α} (hs : I s) (hrun : run step s as = some s') : I s' :=
  run_invariant (C := fun _ _ => True) (fun s a t hI _ h => hstep s a t hI h) hs
    (along_true s as) hrun

theorem Along.mono {C D : σ → α → Prop} (hCD : ∀ s a, C s a → D s a) {s : σ} {as : List α}
    (h : Along step C s as) : Along step D s as := by
  induction as generalizing s with
  | nil => trivial
  | cons a as ih =>
    refine ⟨hCD s a h.1, ?_⟩
    cases ht : step s a with
    | none => trivial
    | some t => exact ih (h.tail ht)

/-- A relation that two machines keep, each step being possible in both or in neither, is kept by
runs. -/
theorem run_rel {τ : Type*} {step' : τ → α → Option τ} {R : σ → τ → Prop}
    (hstep : ∀ s t a, R s t → Option.Rel R (step s a) (step' t a)) {s : σ} {t : τ} (h : R s t)
    (as : List α) :
    Option.Rel R (run step s as) (run step' t as) := by
  induction as generalizing s t with
  | nil => exact .some h
  | cons a as ih =>
    simp only [run]
    generalize step s a = o, step' t a = o', hstep s t a h = hnext
    cases hnext with
    | none => exact .none
    | some hR => exact ih hR

/-- A run that ends in a state with some decidable property. -/
theorem exists_of_elim {o : Option σ} {f : σ → Bool} (h : o.elim false f = true) :
    ∃ t, o = some t ∧ f t = true := by
  cases o with
  | none => cases h
  | some t => exact ⟨t, rfl, h⟩

end Xv6.Transition

namespace Xv6

open Function

variable {ι α β : Type*} [DecidableEq ι] {f : ι → α} {i : ι} {x : α}

/-- Changing one party of a machine keeps what is read of the others, and of it if that does not
change. -/
theorem view_update (g : α → β) (j : ι) (hx : g x = g (f i) := by rfl) :
    g (update f i x j) = g (f j) := by
  by_cases hj : j = i
  · rw [hj, update_self, hx]
  · rw [update_of_ne hj]

end Xv6
