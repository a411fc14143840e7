import Mathlib.Tactic

/-!
# The in-memory log and its admission tests

`Log` is `struct log` of `kernel/log.c` together with the part of `struct logheader` that is ever
read: the first `n` block numbers, kept as the list `lh` with `n` its length. `beginOp`, `logWrite`
and `endOp` are the sections of the functions of these names that run under `log.lock`; the commit
that the last `end_op` goes on to is made of disk writes and is modelled with the buffer cache.
-/

namespace Xv6

def maxOpBlocks : ℕ := 10

def logSize : ℕ := maxOpBlocks * 3

def nbuf : ℕ := maxOpBlocks * 3

/-- What `mkfs` stores in the superblock as the number of log blocks. -/
def nlog : ℕ := logSize

/-- The calls of `panic` in `log.c` that the three sections below can reach. -/
inductive LogPanic
  | tooBigATransaction
  | logWriteOutsideOfTrans
  | logCommitting
  deriving DecidableEq

structure Log where
  start : ℕ
  size : ℕ
  outstanding : ℕ
  committing : Bool
  lh : List ℕ
  deriving DecidableEq

/-- The log as `initlog` leaves it when nothing was committed. -/
def Log.empty (start size : ℕ) : Log := ⟨start, size, 0, false, []⟩

namespace Log

variable (l : Log)

/-- One turn of the loop of `begin_op`; `none` is `sleep(&log, &log.lock)`. -/
def beginOp : Option Log :=
  if l.committing then none
  else if l.lh.length + (l.outstanding + 1) * maxOpBlocks > logSize then none
  else some { l with outstanding := l.outstanding + 1 }

/-- `log_write` on a buffer of block `b`. The flag says whether the block is new in the log, which
is when the buffer is pinned. -/
def logWrite (b : ℕ) : Except LogPanic (Log × Bool) :=
  if l.lh.length ≥ logSize ∨ l.lh.length ≥ l.size - 1 then .error .tooBigATransaction
  else if l.outstanding < 1 then .error .logWriteOutsideOfTrans
  -- log absorption: the scan for the block stops at its first occurrence
  else if b ∈ l.lh then .ok (l, false)
  else .ok ({ l with lh := l.lh ++ [b] }, true)

/-- The first section of `end_op`. The flag is `do_commit`. -/
def endOp : Except LogPanic (Log × Bool) :=
  if l.committing then .error .logCommitting
  else if l.outstanding - 1 = 0 then
    .ok ({ l with outstanding := l.outstanding - 1, committing := true }, true)
  else .ok ({ l with outstanding := l.outstanding - 1 }, false)

def clear : Log := { l with lh := [] }

/-- The last section of `end_op`, after `commit` has returned. -/
def endCommit : Log := { l with committing := false }

def Area (b : ℕ) : Prop := l.start ≤ b ∧ b < l.start + l.size

instance (b : ℕ) : Decidable (l.Area b) := inferInstanceAs (Decidable (_ ∧ _))

variable {l}

theorem beginOp_eq_some {l' : Log} : l.beginOp = some l' ↔
    l.committing = false ∧ l.lh.length + (l.outstanding + 1) * maxOpBlocks ≤ logSize ∧
      l' = { l with outstanding := l.outstanding + 1 } := by
  unfold beginOp
  split_ifs with hc hs
  · simp [hc]
  · simp only [false_iff]
    omega
  · simp only [Option.some.injEq]
    refine ⟨fun h => ⟨by simpa using hc, by omega, h.symm⟩, fun h => h.2.2.symm⟩

theorem logWrite_eq_ok {b : ℕ} {l' : Log} {new : Bool} : l.logWrite b = .ok (l', new) ↔
    l.lh.length < logSize ∧ l.lh.length < l.size - 1 ∧ 1 ≤ l.outstanding ∧
    (b ∈ l.lh ∧ new = false ∧ l' = l ∨
        b ∉ l.lh ∧ new = true ∧ l' = { l with lh := l.lh ++ [b] }) := by
  unfold logWrite
  split_ifs with h1 h2 h3
  · simp only [false_iff]
    omega
  · simp only [false_iff]
    omega
  · simp only [Except.ok.injEq, Prod.mk.injEq, h3, true_and, not_true_eq_false, false_and, or_false]
    constructor
    · rintro ⟨rfl, rfl⟩
      exact ⟨by omega, by omega, by omega, rfl, rfl⟩
    · rintro ⟨-, -, -, rfl, rfl⟩
      exact ⟨rfl, rfl⟩
  · simp only [Except.ok.injEq, Prod.mk.injEq, h3, false_and, not_false_eq_true, true_and, false_or]
    constructor
    · rintro ⟨rfl, rfl⟩
      exact ⟨by omega, by omega, by omega, rfl, rfl⟩
    · rintro ⟨-, -, -, rfl, rfl⟩
      exact ⟨rfl, rfl⟩

theorem logWrite_eq_tooBig {b : ℕ} : l.logWrite b = .error .tooBigATransaction ↔
    l.lh.length ≥ logSize ∨ l.lh.length ≥ l.size - 1 := by
  unfold logWrite
  split_ifs with h1 h2 h3
  · exact ⟨fun _ => h1, fun _ => rfl⟩
  · exact ⟨fun h => by simp at h, fun h => absurd h h1⟩
  · exact ⟨fun h => by simp at h, fun h => absurd h h1⟩
  · exact ⟨fun h => by simp at h, fun h => absurd h h1⟩

theorem endOp_eq_ok {l' : Log} {doCommit : Bool} : l.endOp = .ok (l', doCommit) ↔
    l.committing = false ∧ doCommit = decide (l.outstanding - 1 = 0) ∧
      l' = { l with outstanding := l.outstanding - 1, committing := doCommit } := by
  unfold endOp
  split_ifs with h1 h2
  · simp [h1]
  · simp only [Except.ok.injEq, Prod.mk.injEq, h2, decide_true]
    constructor
    · rintro ⟨rfl, rfl⟩
      exact ⟨by simpa using h1, rfl, rfl⟩
    · rintro ⟨-, rfl, rfl⟩
      exact ⟨rfl, rfl⟩
  · simp only [Except.ok.injEq, Prod.mk.injEq, h2, decide_false]
    have hc : l.committing = false := by simpa using h1
    constructor
    · rintro ⟨rfl, rfl⟩
      exact ⟨hc, rfl, by rw [hc]⟩
    · rintro ⟨-, rfl, rfl⟩
      exact ⟨by rw [hc], rfl⟩

end Log
end Xv6
