import Mathlib.Tactic

/-!
# Recursive descent

Parsers that return a value and a position or fail. `T` gives the tokens left at a position, so that
a parser can be specified by tokens only. `Parses r ts G F` says of the result `r` of a parser at
the tokens `ts` that it agrees with the language `G`: what it returns is a phrase of `G` followed by
the tokens left, every phrase that is followed by tokens in `F` is found with its value, and
failures are among those in `E`. The rules follow the shape of a parser, with the conditions of one
token of lookahead. -/

namespace Xv6.Descent

open List

variable {σ τ ε α β : Type*} {T : σ → List τ} {E : ε → Prop}

structure Parses (T : σ → List τ) (E : ε → Prop) (r : Except ε (α × σ)) (ts : List τ)
    (G : List τ → α → Prop) (F : List τ → Prop) : Prop where
  sound : ∀ a s, r = .ok (a, s) → ∃ us, ts = us ++ T s ∧ G us a
  complete : ∀ us vs a, ts = us ++ vs → G us a → F vs → ∃ s, r = .ok (a, s) ∧ T s = vs
  fails : ∀ e, r = .error e → E e

namespace Parses

variable {r : Except ε (α × σ)} {ts : List τ} {G G' : List τ → α → Prop} {F F' : List τ → Prop}

theorem ret {a : α} {s : σ} (hs : T s = ts) :
    Parses T E (.ok (a, s)) ts (fun us b => us = [] ∧ b = a) fun _ => True where
  sound b s' h := by
    cases h
    exact ⟨[], hs.symm, rfl, rfl⟩
  complete us vs b hts hG _ := by
    obtain ⟨rfl, rfl⟩ := hG
    exact ⟨s, rfl, hs.trans hts⟩
  fails e h := nomatch h

theorem fail {e : ε} (he : E e) (h : ∀ us vs a, ts = us ++ vs → G us a → ¬ F vs) :
    Parses T E (.error e) ts G F where
  sound a s h := nomatch h
  complete us vs a hts hG hF := absurd hF (h us vs a hts hG)
  fails e' h' := by
    cases h'
    exact he

theorem of (h : Parses T E r ts G F) (hsub : ∀ us a, G us a → G' us a)
    (hall : ∀ us vs a, ts = us ++ vs → G' us a → F' vs → G us a ∧ F vs) :
    Parses T E r ts G' F' where
  sound a s hr := by
    obtain ⟨us, hts, hG⟩ := h.sound a s hr
    exact ⟨us, hts, hsub us a hG⟩
  complete us vs a hts hG hF := by
    obtain ⟨hG, hF⟩ := hall us vs a hts hG hF
    exact h.complete us vs a hts hG hF
  fails := h.fails

theorem cons (h : Parses T E r ts G F) (t : τ) :
    Parses T E r (t :: ts) (fun us a => ∃ us', us = t :: us' ∧ G us' a) F where
  sound a s hr := by
    obtain ⟨us, rfl, hG⟩ := h.sound a s hr
    exact ⟨t :: us, rfl, us, rfl, hG⟩
  complete us vs a hts hG hF := by
    obtain ⟨us', rfl, hG⟩ := hG
    exact h.complete us' vs a (List.cons.inj hts).2 hG hF
  fails := h.fails

/-- One parser after the other: the first has to stop where the phrases of the second begin. -/
theorem bind {k : α × σ → Except ε (β × σ)} {G₂ : α → List τ → β → Prop} {F₂ : List τ → Prop}
    (h : Parses T E r ts G F) (hk : ∀ a s, r = .ok (a, s) → Parses T E (k (a, s)) (T s) (G₂ a) F₂)
    (hF : ∀ us a vs b, G us a → G₂ a vs b → ∀ ws, F₂ ws → F (vs ++ ws)) :
    Parses T E (r.bind k) ts (fun us b => ∃ us₁ us₂ a, us = us₁ ++ us₂ ∧ G us₁ a ∧ G₂ a us₂ b)
    F₂ where
  sound b s hr := by
    cases hx : r with
    | error e =>
      rw [hx] at hr
      cases hr
    | ok x =>
      rw [hx] at hr
      obtain ⟨us₁, hts, hG⟩ := h.sound x.1 x.2 hx
      obtain ⟨us₂, htail, hG₂⟩ := (hk x.1 x.2 hx).sound b s hr
      exact ⟨us₁ ++ us₂, by rw [hts, htail, append_assoc], us₁, us₂, x.1, rfl, hG, hG₂⟩
  complete us ws b hts hG hF₂ := by
    obtain ⟨us₁, us₂, a, rfl, hG, hG₂⟩ := hG
    rw [append_assoc] at hts
    obtain ⟨s, hr, hs⟩ := h.complete us₁ (us₂ ++ ws) a hts hG (hF us₁ a us₂ b hG hG₂ ws hF₂)
    obtain ⟨s', hk', hs'⟩ := (hk a s hr).complete us₂ ws b hs hG₂ hF₂
    refine ⟨s', ?_, hs'⟩
    rw [hr]
    exact hk'
  fails e hr := by
    cases hx : r with
    | error e' =>
      rw [hx] at hr
      cases hr
      exact h.fails e hx
    | ok x =>
      rw [hx] at hr
      exact (hk x.1 x.2 hx).fails e hr

theorem map {f : α → β} (h : Parses T E r ts G F) :
    Parses T E (r.bind fun x => .ok (f x.1, x.2)) ts (fun us b => ∃ a, G us a ∧ b = f a) F := by
  have hret (a : α) (s : σ) (_ : r = .ok (a, s)) :
      Parses T E (.ok (f a, s)) (T s) (fun us b => us = [] ∧ b = f a) F :=
    (ret rfl).of (fun _ _ hG => hG) fun _ _ _ _ hG _ => ⟨hG, trivial⟩
  have hbind := h.bind (k := fun x => .ok (f x.1, x.2)) hret (by
    rintro us a vs b - ⟨rfl, -⟩ ws hws
    exact hws)
  refine hbind.of ?_ ?_
  · rintro us b ⟨us₁, us₂, a, rfl, hG, rfl, rfl⟩
    exact ⟨a, (append_nil us₁).symm ▸ hG, rfl⟩
  · rintro us vs b - ⟨a, hG, rfl⟩ hF
    exact ⟨⟨us, [], a, (append_nil us).symm, hG, rfl, rfl⟩, hF⟩

theorem length_le (h : Parses T E r ts G F) {a : α} {s : σ} (hr : r = .ok (a, s)) :
    (T s).length ≤ ts.length := by
  obtain ⟨us, rfl, -⟩ := h.sound a s hr
  rw [length_append]
  exact Nat.le_add_left _ _

end Parses

end Xv6.Descent
