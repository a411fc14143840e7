import Mathlib.Tactic

/-!
# Ring buffers with free-running counters

A buffer of `N` cells with a read and a write counter of `w` bits that only ever go up and wrap. The
counters are reduced modulo `N` to get a cell, which needs that `N` divides `2 ^ w`. `Contents` says
which queue the cells and counters stand for; `push` and `pop` are the two ends of the queue, and
the buffer is empty or full exactly when the counters say so.
-/

namespace Xv6.RingBuffer

open List Function Nat BitVec

variable {α : Type*} {w N : ℕ}

/-- The queue that a buffer with read counter `r` and write counter `v` holds. -/
structure Contents (N : ℕ) (data : ℕ → α) (r v : BitVec w) (q : List α) : Prop where
  count : v = r + BitVec.ofNat w q.length
  length_le : q.length ≤ N
  get : ∀ j (hj : j < q.length), data ((r.toNat + j) % N) = q[j]

section counters

variable (hdvd : N ∣ 2 ^ w)

include hdvd

theorem toNat_add_mod (r : BitVec w) (k j : ℕ) :
    ((r + BitVec.ofNat w k).toNat + j) % N = (r.toNat + k + j) % N := by
  have hmod (m : ℕ) : m % 2 ^ w % N = m % N := mod_mod_of_dvd m hdvd
  have hk : (r.toNat + k % 2 ^ w) % N = (r.toNat + k) % N := by
    rw [add_mod, hmod, ← add_mod]
  rw [toNat_add, toNat_ofNat, add_mod, hmod, hk, ← add_mod]

theorem Contents.cell {data : ℕ → α} {r v : BitVec w} {q : List α} (h : Contents N data r v q) :
    v.toNat % N = (r.toNat + q.length) % N := by
  have hcell := toNat_add_mod hdvd r q.length 0
  rwa [add_zero, add_zero, ← h.count] at hcell

end counters

section queue

variable {data : ℕ → α} {r v : BitVec w} {q : List α}

theorem Contents.empty (data : ℕ → α) (r : BitVec w) : Contents N data r r [] where
  count := by simp
  length_le := zero_le _
  get := fun _ hj => absurd hj (not_lt_zero _)

section cells

variable (hdvd : N ∣ 2 ^ w)

include hdvd

/-- The cell that a writer fills holds no byte of the queue. -/
theorem Contents.cell_ne (h : Contents N data r v q) (hlen : q.length < N) {j : ℕ}
    (hj : j < q.length) : (r.toNat + j) % N ≠ v.toNat % N := by
  rw [h.cell hdvd]
  intro heq
  have hcong : r.toNat + j ≡ r.toNat + q.length [MOD N] := heq
  have hcong' : j ≡ q.length [MOD N] := Nat.ModEq.add_left_cancel' _ hcong
  have hsame : j = q.length := by
    rwa [Nat.ModEq, mod_eq_of_lt (by omega), mod_eq_of_lt hlen] at hcong'
  omega

theorem Contents.store (h : Contents N data r v q) (hlen : q.length < N) (x : α) :
    Contents N (update data (v.toNat % N) x) r v q :=
  ⟨h.count, h.length_le, fun j hj => by
    rw [update_of_ne (h.cell_ne hdvd hlen hj), h.get j hj]⟩

theorem Contents.advance (h : Contents N data r v q) (hlen : q.length < N) :
    Contents N data r (v + 1) (q ++ [data (v.toNat % N)]) := by
  refine ⟨?_, ?_, fun j hj => ?_⟩
  · rw [h.count, length_append, length_singleton, BitVec.add_assoc]
    congr 1
    apply eq_of_toNat_eq
    simp
  · rw [length_append, length_singleton]
    exact hlen
  · rw [length_append, length_singleton] at hj
    by_cases hlast : j = q.length
    · subst hlast
      rw [← h.cell hdvd]
      simp
    · have hold : j < q.length := by omega
      rw [h.get j hold, getElem_append_left hold]

theorem Contents.drop (h : Contents N data r v q) {k : ℕ} (hk : k ≤ q.length) :
    Contents N data (r + BitVec.ofNat w k) v (q.drop k) := by
  refine ⟨?_, ?_, fun j hj => ?_⟩
  · rw [h.count, length_drop, BitVec.add_assoc, ← BitVec.ofNat_add, Nat.add_sub_cancel' hk]
  · rw [length_drop]
    exact le_trans (sub_le _ _) h.length_le
  · rw [length_drop] at hj
    rw [toNat_add_mod hdvd, add_assoc, h.get (k + j) (by omega), getElem_drop]

theorem Contents.unpush {x : α} (h : Contents N data r v (q ++ [x])) :
    data ((v - 1).toNat % N) = x ∧ Contents N data r (v - 1) q := by
  have hlen := h.length_le
  rw [length_append, length_singleton] at hlen
  have hback : v - 1 = r + BitVec.ofNat w q.length := by
    rw [h.count, length_append, length_singleton, BitVec.ofNat_add, ← BitVec.add_assoc]
    exact add_sub_cancel _ _
  have hold : Contents N data r (v - 1) q := by
    refine ⟨hback, by omega, fun j hj => ?_⟩
    rw [h.get j (by rw [length_append]; omega), getElem_append_left hj]
  refine ⟨?_, hold⟩
  rw [hold.cell hdvd, h.get q.length (by simp), getElem_append_right le_rfl]
  simp

end cells

variable (hN : N < 2 ^ w)

include hN

theorem Contents.toNat_sub (h : Contents N data r v q) : (v - r).toNat = q.length := by
  have hlt : q.length < 2 ^ w := lt_of_le_of_lt h.length_le hN
  have hsub : v - r = BitVec.ofNat w q.length := by
    rw [h.count, BitVec.add_comm, BitVec.add_sub_cancel]
  rw [hsub, toNat_ofNat, mod_eq_of_lt hlt]

theorem Contents.eq_iff (h : Contents N data r v q) : r = v ↔ q = [] := by
  constructor
  · rintro rfl
    have hlen := h.toNat_sub hN
    rw [BitVec.sub_self] at hlen
    exact eq_nil_of_length_eq_zero hlen.symm
  · rintro rfl
    simpa using h.count.symm

theorem Contents.full_iff (h : Contents N data r v q) :
    v = r + BitVec.ofNat w N ↔ q.length = N := by
  constructor
  · intro hfull
    have hlen := h.toNat_sub hN
    rw [hfull, BitVec.add_comm, BitVec.add_sub_cancel, BitVec.toNat_ofNat, mod_eq_of_lt hN] at hlen
    exact hlen.symm
  · intro hlen
    rw [h.count, hlen]

theorem Contents.length_lt (h : Contents N data r v q) (hfull : v ≠ r + BitVec.ofNat w N) :
    q.length < N :=
  lt_of_le_of_ne h.length_le fun heq => hfull ((h.full_iff hN).2 heq)

variable (hdvd : N ∣ 2 ^ w)

include hdvd

theorem Contents.push (h : Contents N data r v q) (hfull : v ≠ r + BitVec.ofNat w N) (x : α) :
    Contents N (update data (v.toNat % N) x) r (v + 1) (q ++ [x]) := by
  have hlen := h.length_lt hN hfull
  have hnext := (h.store hdvd hlen x).advance hdvd hlen
  rwa [update_self] at hnext

theorem Contents.pop (h : Contents N data r v q) (hne : r ≠ v) :
    ∃ rest, q = data (r.toNat % N) :: rest ∧ Contents N data (r + 1) v rest := by
  cases q with
  | nil => exact absurd ((h.eq_iff hN).2 rfl) hne
  | cons x rest =>
    have hx : data (r.toNat % N) = x := by
      simpa using h.get 0 (zero_lt_succ _)
    refine ⟨rest, by rw [hx], ?_, ?_, fun j hj => ?_⟩
    · rw [h.count, length_cons, BitVec.add_assoc]
      congr 1
      apply eq_of_toNat_eq
      simp [add_comm]
    · exact le_trans (le_succ _) h.length_le
    · have hcell := toNat_add_mod hdvd r 1 j
      have hone : (1 : BitVec w) = BitVec.ofNat w 1 := rfl
      rw [hone, hcell, add_assoc, add_comm 1 j, h.get (j + 1) (succ_lt_succ hj)]
      rfl

end queue

theorem Contents.left {data : ℕ → α} {r v : BitVec w} {q q' : List α}
    (h : Contents N data r v (q ++ q')) : Contents N data r (r + BitVec.ofNat w q.length) q := by
  have hlen := h.length_le
  rw [length_append] at hlen
  refine ⟨rfl, by omega, fun j hj => ?_⟩
  rw [h.get j (by rw [length_append]; omega), getElem_append_left hj]

/-- Every pair of counters that is not too far apart has a queue. -/
theorem exists_contents (data : ℕ → α) {r v : BitVec w} (h : (v - r).toNat ≤ N) :
    ∃ q : List α, q.length = (v - r).toNat ∧ Contents N data r v q := by
  refine ⟨(List.range (v - r).toNat).map fun j => data ((r.toNat + j) % N), by simp,
    ?_, by simpa, ?_⟩
  · rw [length_map, length_range, BitVec.ofNat_toNat, BitVec.setWidth_eq, BitVec.add_comm,
      BitVec.sub_add_cancel]
  · intro j hj
    simp

end Xv6.RingBuffer
