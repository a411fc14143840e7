import Mathlib.Tactic

/-!
# Runs of sequential programs

Programs with a state and failures, `StateT σ (Except ε)`. `Runs m s Q` says that `m` does not fail
in `s` and ends with a result and a state that satisfy `Q`, `Fails m s e` that it fails, and
`Decides` when it does which. The rules follow the shape of the program.
-/

namespace Xv6

variable {σ ε α β : Type}

theorem bind_of_ok {m : StateT σ (Except ε) α} {k : α → StateT σ (Except ε) β} {s t : σ} {a : α}
    (hm : m s = .ok (a, t)) : (m >>= k) s = k a t := by
  change (m s >>= fun x => k x.1 x.2) = _
  rw [hm]
  rfl

theorem map_of_ok {m : StateT σ (Except ε) α} {f : α → β} {s t : σ} {a : α}
    (hm : m s = .ok (a, t)) : (f <$> m) s = .ok (f a, t) := by
  change (m s >>= fun x => pure (f x.1, x.2)) = _
  rw [hm]
  rfl

def Runs (m : StateT σ (Except ε) α) (s : σ) (Q : α → σ → Prop) : Prop :=
  ∃ a t, m s = .ok (a, t) ∧ Q a t

namespace Runs

variable {m : StateT σ (Except ε) α} {s : σ} {Q : α → σ → Prop}

theorem ret {a : α} (h : Q a s) : Runs (pure a : StateT σ (Except ε) α) s Q := ⟨a, s, rfl, h⟩

theorem mono {R : α → σ → Prop} (h : Runs m s Q) (hQR : ∀ a t, Q a t → R a t) : Runs m s R := by
  obtain ⟨a, t, hm, hQ⟩ := h
  exact ⟨a, t, hm, hQR a t hQ⟩

theorem bind {k : α → StateT σ (Except ε) β} {R : β → σ → Prop} (h : Runs m s Q)
    (hk : ∀ a t, Q a t → Runs (k a) t R) : Runs (m >>= k) s R := by
  obtain ⟨a, t, hm, hQ⟩ := h
  obtain ⟨b, u, hu, hR⟩ := hk a t hQ
  exact ⟨b, u, (bind_of_ok hm).trans hu, hR⟩

theorem reads {k : σ → StateT σ (Except ε) β} {R : β → σ → Prop} (h : Runs (k s) s R) :
    Runs (get >>= k) s R := h

theorem writes {t : σ} {R : Unit → σ → Prop} (h : R () t) :
    Runs (set t : StateT σ (Except ε) Unit) s R := ⟨(), t, rfl, h⟩

theorem writes_bind {t : σ} {k : Unit → StateT σ (Except ε) β} {R : β → σ → Prop}
    (h : Runs (k ()) t R) : Runs (set t >>= k) s R := h

theorem modifies {f : σ → σ} {k : Unit → StateT σ (Except ε) β} {R : β → σ → Prop}
    (h : Runs (k ()) (f s) R) : Runs (modify f >>= k) s R := h

end Runs

def Fails (m : StateT σ (Except ε) α) (s : σ) (e : ε) : Prop := m s = .error e

namespace Fails

variable {m : StateT σ (Except ε) α} {s : σ} {e : ε}

theorem bind {k : α → StateT σ (Except ε) β} (h : Fails m s e) : Fails (m >>= k) s e := by
  change (m s >>= fun x => k x.1 x.2) = _
  rw [show m s = .error e from h]
  rfl

theorem after {Q : α → σ → Prop} {k : α → StateT σ (Except ε) β} (h : Runs m s Q)
    (hk : ∀ a t, Q a t → Fails (k a) t e) : Fails (m >>= k) s e := by
  obtain ⟨a, t, hm, hQ⟩ := h
  exact (bind_of_ok hm).trans (hk a t hQ)

end Fails

/-- The program ends as `Q` says if `P` holds, and fails with `e` if not. -/
def Decides (P : Prop) (m : StateT σ (Except ε) α) (s : σ) (e : ε) (Q : α → σ → Prop) : Prop :=
  (P → Runs m s Q) ∧ (¬ P → Fails m s e)

namespace Decides

variable {P T : Prop} {m : StateT σ (Except ε) α} {s : σ} {e : ε} {Q : α → σ → Prop}
  {k : α → StateT σ (Except ε) β} {R : β → σ → Prop}

theorem of_runs (h : Runs m s Q) : Decides True m s e Q :=
    ⟨fun _ => h, fun hno => absurd trivial hno⟩

theorem mono {Q' : α → σ → Prop} (h : Decides P m s e Q) (hQ : ∀ a t, Q a t → Q' a t) :
    Decides P m s e Q' :=
  ⟨fun hP => (h.1 hP).mono hQ, h.2⟩

theorem runs (h : Decides P m s e Q) (hk : ∀ a t, Q a t → Runs (k a) t R) :
    Decides P (m >>= k) s e R :=
  ⟨fun hP => (h.1 hP).bind hk, fun hno => (h.2 hno).bind⟩

theorem bind (h : Decides P m s e Q) (hk : ∀ a t, Q a t → Decides T (k a) t e R) :
    Decides (P ∧ T) (m >>= k) s e R := by
  refine ⟨fun hP => (h.1 hP.1).bind fun a t hQ => (hk a t hQ).1 hP.2, fun hno => ?_⟩
  by_cases hP : P
  · exact Fails.after (h.1 hP) fun a t hQ => (hk a t hQ).2 fun hP' => hno ⟨hP, hP'⟩
  · exact (h.2 hP).bind

theorem reads {k : σ → StateT σ (Except ε) β} (h : Decides P (k s) s e R) :
    Decides P (get >>= k) s e R := h

theorem modifies {f : σ → σ} {k : Unit → StateT σ (Except ε) β} (h : Decides P (k ()) (f s) e R) :
    Decides P (modify f >>= k) s e R := h

end Decides

/-- The program ends with a result and a state that satisfy `Q`, or fails with an error that
satisfies `E`. -/
def Yields (m : StateT σ (Except ε) α) (s : σ) (Q : α → σ → Prop) (E : ε → Prop) : Prop :=
  (∀ a t, m s = .ok (a, t) → Q a t) ∧ ∀ e, m s = .error e → E e

namespace Yields

variable {m : StateT σ (Except ε) α} {s : σ} {Q : α → σ → Prop} {E : ε → Prop}

theorem of_eq_ok {a : α} {t : σ} (hm : m s = .ok (a, t)) (h : Q a t) : Yields m s Q E := by
  refine ⟨fun b u hu => ?_, fun e he => ?_⟩
  · rw [hm] at hu
    cases hu
    exact h
  · rw [hm] at he
    cases he

theorem of_eq_error {e : ε} (hm : m s = .error e) (h : E e) : Yields m s Q E := by
  refine ⟨fun b u hu => ?_, fun e' he => ?_⟩
  · rw [hm] at hu
    cases hu
  · rw [hm] at he
    cases he
    exact h

theorem ret {a : α} (h : Q a s) : Yields (pure a : StateT σ (Except ε) α) s Q E := of_eq_ok rfl h

theorem fail {e : ε} (h : E e) : Yields (throw e : StateT σ (Except ε) α) s Q E := of_eq_error rfl h

theorem any : Yields m s (fun _ _ => True) fun _ => True :=
    ⟨fun _ _ _ => trivial, fun _ _ => trivial⟩

theorem of_runs (h : Runs m s Q) : Yields m s Q E := by
  obtain ⟨a, t, hm, hQ⟩ := h
  exact of_eq_ok hm hQ

theorem runs (h : Yields m s Q fun _ => False) : Runs m s Q := by
  cases hm : m s with
  | ok r => exact ⟨r.1, r.2, hm, h.1 r.1 r.2 hm⟩
  | error e => exact (h.2 e hm).elim

theorem of_ok (h : Yields m s Q E) {a : α} {t : σ} (hm : m s = .ok (a, t)) : Q a t := h.1 a t hm

theorem mono {R : α → σ → Prop} {F : ε → Prop} (h : Yields m s Q E) (hQR : ∀ a t, Q a t → R a t)
    (hEF : ∀ e, E e → F e) : Yields m s R F :=
  ⟨fun a t hm => hQR a t (h.1 a t hm), fun e hm => hEF e (h.2 e hm)⟩

theorem after {k : α → StateT σ (Except ε) β} {R : β → σ → Prop} {a : α} {t : σ}
    (hm : m s = .ok (a, t)) (hk : Yields (k a) t R E) : Yields (m >>= k) s R E := by
  rw [Yields, bind_of_ok hm]
  exact hk

theorem stops {k : α → StateT σ (Except ε) β} {R : β → σ → Prop} {e : ε} (hm : m s = .error e)
    (hE : E e) : Yields (m >>= k) s R E := by
  refine of_eq_error ?_ hE
  change (m s >>= fun x => k x.1 x.2) = _
  rw [hm]
  rfl

theorem bind {k : α → StateT σ (Except ε) β} {R : β → σ → Prop} (h : Yields m s Q E)
    (hk : ∀ a t, Q a t → Yields (k a) t R E) : Yields (m >>= k) s R E := by
  cases hm : m s with
  | ok r => exact after hm (hk r.1 r.2 (h.1 r.1 r.2 hm))
  | error e => exact stops hm (h.2 e hm)

theorem reads {k : σ → StateT σ (Except ε) β} {R : β → σ → Prop} (h : Yields (k s) s R E) :
    Yields (get >>= k) s R E := h

theorem modifies {f : σ → σ} {k : Unit → StateT σ (Except ε) β} {R : β → σ → Prop}
    (h : Yields (k ()) (f s) R E) : Yields (modify f >>= k) s R E := h

end Yields

end Xv6
