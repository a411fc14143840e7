import Xv6.Counting
import Xv6.Log
import Xv6.Transition

/-!
# Reservation of log space

Processes run `begin_op`, `log_write` and `end_op` in any interleaving. The state keeps, for each
process inside an operation, the distinct blocks this operation has logged so far; `OpBound k` asks
that no operation logs more than `k`.

`begin_op` reserves `maxOpBlocks` for each operation out of `logSize`. What `mkfs` calls `nlog`
counts the header block too, so that the second test of `log_write` is one block tighter than the
reservation. -/

namespace Xv6.LogSpace

open Counting Transition Function

variable {P : Type} [DecidableEq P]

inductive Act (P : Type)
  | beginOp (p : P)
  | logWrite (p : P) (b : ℕ)
  | endOp (p : P)
  | commit
  | endCommit

structure Sys (P : Type) where
  log : Log
  op : P → Option (List ℕ)
  panicked : Option LogPanic

def init (start : ℕ) : Sys P := ⟨Log.empty start nlog, fun _ => none, none⟩

def step (s : Sys P) (a : Act P) : Option (Sys P) :=
  if s.panicked.isSome then none else
  match a with
  | .beginOp p => match s.op p with
    | some _ => none
    | none => s.log.beginOp.map fun l =>
      { s with log := l, op := update s.op p (some []) }
  | .logWrite p b => match s.op p with
    | none => none
    | some g => match s.log.logWrite b with
      | .error e => some { s with panicked := some e }
      | .ok (l, _) => some { s with log := l, op := update s.op p (some (g.insert b)) }
  | .endOp p => match s.op p with
    | none => none
    | some _ => match s.log.endOp with
      | .error e => some { s with panicked := some e }
      | .ok (l, _) => some { s with log := l, op := update s.op p none }
  | .commit => if s.log.committing then some { s with log := s.log.clear } else none
  | .endCommit =>
    if s.log.committing ∧ s.log.lh = [] then some { s with log := s.log.endCommit } else none

def OpBound (k : ℕ) (s : Sys P) : Act P → Prop
  | .logWrite p b => ∀ g ∈ s.op p, (g.insert b).length ≤ k
  | _ => True

instance (k : ℕ) (s : Sys P) : ∀ a, Decidable (OpBound k s a)
  | .logWrite p b => inferInstanceAs (Decidable (∀ g ∈ s.op p, (g.insert b).length ≤ k))
  | .beginOp _ | .endOp _ | .commit | .endCommit => isTrue trivial

theorem step_cases {s t : Sys P} {a : Act P} (h : step s a = some t) : s.panicked = none ∧
    ((∃ p l, a = .beginOp p ∧ s.op p = none ∧ s.log.beginOp = some l ∧
        t = { s with log := l, op := update s.op p (some []) }) ∨
      (∃ p b e, a = .logWrite p b ∧ s.log.logWrite b = .error e ∧
        t = { s with panicked := some e }) ∨
      (∃ p b g l new, a = .logWrite p b ∧ s.op p = some g ∧ s.log.logWrite b = .ok (l, new) ∧
        t = { s with log := l, op := update s.op p (some (g.insert b)) }) ∨
      (∃ p e, a = .endOp p ∧ s.log.endOp = .error e ∧ t = { s with panicked := some e }) ∨
      (∃ p g l c, a = .endOp p ∧ s.op p = some g ∧ s.log.endOp = .ok (l, c) ∧
        t = { s with log := l, op := update s.op p none }) ∨
      (a = .commit ∧ s.log.committing ∧ t = { s with log := s.log.clear }) ∨
      (a = .endCommit ∧ s.log.committing ∧ s.log.lh = [] ∧
        t = { s with log := s.log.endCommit })) := by
  unfold step at h
  by_cases hp : s.panicked.isSome
  · rw [if_pos hp] at h
    cases h
  rw [if_neg hp] at h
  refine ⟨by simpa using hp, ?_⟩
  cases a with
  | beginOp p =>
    left
    dsimp only at h
    split at h
    · cases h
    · obtain ⟨l, hl, rfl⟩ := Option.map_eq_some_iff.1 h
      exact ⟨p, l, rfl, by assumption, hl, rfl⟩
  | logWrite p b =>
    dsimp only at h
    split at h
    · cases h
    · next g hg =>
      split at h
      · next e he =>
        exact .inr (.inl ⟨p, b, e, rfl, he, (Option.some.inj h).symm⟩)
      · next l new hl =>
        exact .inr (.inr (.inl ⟨p, b, g, l, new, rfl, hg, hl, (Option.some.inj h).symm⟩))
  | endOp p =>
    dsimp only at h
    split at h
    · cases h
    · next g hg =>
      split at h
      · next e he =>
        exact .inr (.inr (.inr (.inl ⟨p, e, rfl, he, (Option.some.inj h).symm⟩)))
      · next l c hl =>
        exact .inr (.inr (.inr (.inr (.inl ⟨p, g, l, c, rfl, hg, hl, (Option.some.inj h).symm⟩))))
  | commit =>
    dsimp only at h
    split_ifs at h with hc
    exact .inr (.inr (.inr (.inr (.inr (.inl ⟨rfl, hc, (Option.some.inj h).symm⟩)))))
  | endCommit =>
    dsimp only at h
    split_ifs at h with hc
    exact .inr (.inr (.inr (.inr (.inr (.inr ⟨rfl, hc.1, hc.2, (Option.some.inj h).symm⟩)))))

/-! ## The reservation -/

section reservation

variable [Fintype P] {s t : Sys P} {p : P} {b : ℕ} {g : List ℕ} {l : Log}

/-- What an operation may still log when it logs `maxOpBlocks - 1` blocks at most. -/
def left (o : Option (List ℕ)) : ℕ := o.elim 0 fun g => maxOpBlocks - 1 - g.length

/-- The blocks in the log and those that may follow leave one of the data blocks unused. -/
structure Budget (s : Sys P) : Prop where
  size : s.log.size = nlog
  outstanding : s.log.outstanding = (Finset.univ.filter fun p => (s.op p).isSome).card
  idle : s.log.committing = false → s.log.outstanding = 0 → s.log.lh = []
  committing : s.log.committing → s.log.outstanding = 0
  logged : s.log.committing = false → ∀ p, ∀ g ∈ s.op p, ∀ b ∈ g, b ∈ s.log.lh
  bound : ∀ p, ∀ g ∈ s.op p, g.length ≤ maxOpBlocks - 1
  total : s.log.lh.length + ∑ p, left (s.op p) ≤ nlog - 2
  panicked : s.panicked ≠ some .tooBigATransaction

omit [DecidableEq P] in
theorem sum_left_le (op : P → Option (List ℕ)) :
    ∑ p, left (op p) ≤ (Finset.univ.filter fun p => (op p).isSome).card * (maxOpBlocks - 1) := by
  rw [← smul_eq_mul, ← Finset.sum_const, Finset.sum_filter]
  apply Finset.sum_le_sum
  intro p _
  cases op p <;> simp [left]

/-- The operation of `p` becomes `o`, which changes one term of the count and of the sum. -/
theorem change_op (op : P → Option (List ℕ)) (p : P) (o : Option (List ℕ)) :
    (Finset.univ.filter fun q => (update op p o q).isSome).card + (if (op p).isSome then 1 else 0) =
      (Finset.univ.filter fun q => (op q).isSome).card + (if o.isSome then 1 else 0) ∧
    ∑ q, left (update op p o q) + left (op p) = ∑ q, left (op q) + left o := by
  constructor
  · have h :=
      card_filter_change (B := fun q => (update op p o q).isSome) (A := fun q => (op q).isSome)
        (Finset.mem_univ p) fun q hq => by rw [update_of_ne hq]
    rwa [update_self] at h
  · have h := sum_change (e := fun q => left (update op p o q)) (f := fun q => left (op q))
      (Finset.mem_univ p) fun q hq => by rw [update_of_ne hq]
    rwa [update_self] at h

omit [Fintype P] in
theorem mem_update {op : P → Option (List ℕ)} {q : P} {o : Option (List ℕ)}
    (hg : g ∈ update op p o q) : o = some g ∨ g ∈ op q := by
  by_cases hq : q = p
  · rw [hq, update_self] at hg
    exact .inl hg
  · rw [update_of_ne hq] at hg
    exact .inr hg

/-- The test of `begin_op` leaves room for one block less than it reserves: with no other operation
the log is empty, and with one or two it reserves a block more for each. -/
theorem Budget.beginOp (hs : Budget s) (hop : s.op p = none) (hl : s.log.beginOp = some l) :
    Budget { s with log := l, op := update s.op p (some []) } := by
  obtain ⟨hcom, hroom, rfl⟩ := Log.beginOp_eq_some.1 hl
  obtain ⟨hcount, hsum⟩ := change_op s.op p (some [])
  have hle := sum_left_le s.op
  rw [← hs.outstanding] at hle hcount
  refine ⟨hs.size, ?_, by simp, by simp [hcom], fun _ q g hg c hc => ?_, fun q g hg => ?_, ?_,
    hs.panicked⟩
  · simpa [hop] using hcount.symm
  · obtain ⟨⟨⟩⟩ | hg := mem_update hg
    · cases hc
    · exact hs.logged hcom q g hg c hc
  · obtain ⟨⟨⟩⟩ | hg := mem_update hg
    · exact Nat.zero_le _
    · exact hs.bound q g hg
  · have hempty (h0 : s.log.outstanding = 0) : s.log.lh.length = 0 := by
      rw [hs.idle hcom h0, List.length_nil]
    simp only [hop, left, Option.elim, List.length_nil, maxOpBlocks, logSize, nlog] at *
    omega

/-- The log gets longer only by a block that is new to the operation as well. -/
theorem Budget.logWrite {new : Bool} (hs : Budget s) (hop : s.op p = some g)
    (hlen : (g.insert b).length ≤ maxOpBlocks - 1) (hl : s.log.logWrite b = .ok (l, new)) :
    Budget { s with log := l, op := update s.op p (some (g.insert b)) } := by
  obtain ⟨-, -, hout, hcase⟩ := Log.logWrite_eq_ok.1 hl
  obtain ⟨hcount, hsum⟩ := change_op s.op p (some (g.insert b))
  have hcom : s.log.committing = false := by
    by_contra hcom
    have := hs.committing (by simpa using hcom)
    omega
  have hgrow : l = { s.log with lh := l.lh } ∧ (∀ c ∈ s.log.lh, c ∈ l.lh) ∧ b ∈ l.lh ∧
      l.lh.length + g.length ≤ s.log.lh.length + (g.insert b).length := by
    obtain ⟨hb, -, rfl⟩ | ⟨hb, -, rfl⟩ := hcase
    · exact ⟨rfl, fun _ => id, hb, Nat.add_le_add_left List.length_le_length_insert _⟩
    · rw [List.insert_of_not_mem fun hbg => hb (hs.logged hcom p g hop b hbg)]
      exact ⟨rfl, fun _ => List.mem_append_left _, by simp, by simp; omega⟩
  obtain ⟨heq, hsub, hbl, hgrow⟩ := hgrow
  rw [heq]
  refine ⟨hs.size, ?_, fun _ h0 => absurd h0 (by dsimp only; omega), hs.committing,
    fun _ q g' hg c hc => ?_, fun q g' hg => ?_, ?_, hs.panicked⟩
  · simpa [hop, ← hs.outstanding] using hcount.symm
  · obtain ⟨⟨⟩⟩ | hg := mem_update hg
    · obtain rfl | hc := List.mem_insert_iff.1 hc
      · exact hbl
      · exact hsub c (hs.logged hcom p g hop c hc)
    · exact hsub c (hs.logged hcom q g' hg c hc)
  · obtain ⟨⟨⟩⟩ | hg := mem_update hg
    · exact hlen
    · exact hs.bound q g' hg
  · have htotal := hs.total
    have hg := hs.bound p g hop
    simp only [hop, left, Option.elim] at hsum htotal ⊢
    omega

theorem Budget.endOp {c : Bool} (hs : Budget s) (hop : s.op p = some g)
    (hl : s.log.endOp = .ok (l, c)) : Budget { s with log := l, op := update s.op p none } := by
  obtain ⟨hcom, rfl, rfl⟩ := Log.endOp_eq_ok.1 hl
  obtain ⟨hcount, hsum⟩ := change_op s.op p none
  refine ⟨hs.size, ?_, fun hc h0 => ?_, fun hc => of_decide_eq_true hc, fun _ q g' hg => ?_,
    fun q g' hg => ?_, ?_, hs.panicked⟩
  · rw [← hs.outstanding] at hcount
    simp only [hop, Option.isSome_some, Option.isSome_none, if_true, Bool.false_eq_true,
      if_false] at hcount
    dsimp only
    omega
  · exact absurd h0 (of_decide_eq_false hc)
  · obtain ⟨⟨⟩⟩ | hg := mem_update hg
    exact hs.logged hcom q g' hg
  · obtain ⟨⟨⟩⟩ | hg := mem_update hg
    exact hs.bound q g' hg
  · have htotal := hs.total
    simp only [left, Option.elim_none] at hsum htotal ⊢
    omega

theorem Budget.step {a : Act P} (hs : Budget s) (ha : OpBound (maxOpBlocks - 1) s a)
    (h : step s a = some t) : Budget t := by
  obtain ⟨-, ⟨p, l, rfl, hop, hl, rfl⟩ | ⟨p, b, e, rfl, he, rfl⟩ |
    ⟨p, b, g, l, new, rfl, hop, hl, rfl⟩ | ⟨p, e, rfl, he, rfl⟩ | ⟨p, g, l, c, rfl, hop, hl, rfl⟩ |
    ⟨rfl, hc, rfl⟩ | ⟨rfl, hc, hnil, rfl⟩⟩ := step_cases h
  · exact hs.beginOp hop hl
  · refine { hs with panicked := ?_ }
    rintro ⟨⟩
    have htotal := hs.total
    have hbig := Log.logWrite_eq_tooBig.1 he
    rw [hs.size] at hbig
    simp only [nlog, logSize, maxOpBlocks] at hbig htotal
    omega
  · exact hs.logWrite hop (ha g hop) hl
  · refine { hs with panicked := ?_ }
    rintro ⟨⟩
    unfold Log.endOp at he
    split_ifs at he
    cases he
  · exact hs.endOp hop hl
  · refine { hs with idle := fun _ _ => rfl, logged := ?_, total := ?_ }
    · intro hcom
      exact absurd (hc.symm.trans hcom) (by simp)
    · have htotal := hs.total
      simp only [Log.clear, List.length_nil]
      omega
  · refine { hs with idle := fun _ _ => hnil, committing := by simp [Log.endCommit], logged := ?_ }
    intro _ q g hg
    have hnone := (hs.committing hc).symm.trans hs.outstanding
    have hq : q ∈ Finset.univ.filter fun p => (s.op p).isSome :=
      Finset.mem_filter.2 ⟨Finset.mem_univ q, Option.isSome_iff_exists.2 ⟨g, hg⟩⟩
    rw [Finset.card_eq_zero.1 hnone.symm] at hq
    cases hq

omit [DecidableEq P] in
theorem budget_init (start : ℕ) : Budget (init start : Sys P) := by
  constructor <;> simp [init, Log.empty, left]

/-- One block less for each operation is enough: in every interleaving of operations that log at
most `maxOpBlocks - 1` distinct blocks each, no `log_write` reaches `panic("too big a
transaction")`. -/
theorem log_write_no_panic {start : ℕ} {as : List (Act P)}
    (hbound : Along step (OpBound (maxOpBlocks - 1)) (init start) as)
    (hrun : run step (init start) as = some s) : s.panicked ≠ some .tooBigATransaction :=
  (run_invariant (fun _ _ _ hs ha h => hs.step ha h) (budget_init start) hbound hrun).panicked

end reservation

def threeOps (k : ℕ) : List (Act (Fin 3)) :=
  [.beginOp 0, .beginOp 1, .beginOp 2] ++ (List.range k).flatMap fun i =>
    [.logWrite 0 (100 + i), .logWrite 1 (200 + i), .logWrite 2 (300 + i)]

theorem log_write_no_panic_threeOps : ∃ s, run step (init 2) (threeOps 9) = some s ∧
    s.log.lh.length = 27 ∧ s.panicked ≠ some .tooBigATransaction := by
  have hrun : run step (init 2) (threeOps 9) = some _ := rfl
  exact ⟨_, hrun, by decide, log_write_no_panic (by decide) hrun⟩

/-- The last of the thirty calls panics, with every operation inside its reservation. -/
theorem log_write_panics_in_reservation : Along step (OpBound maxOpBlocks) (init 2) (threeOps 10) ∧
    ∃ s, run step (init 2) (threeOps 10) = some s ∧ s.panicked = some .tooBigATransaction := by
  refine ⟨by decide, _, rfl, by decide⟩

end Xv6.LogSpace
