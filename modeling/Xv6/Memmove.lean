import Mathlib.Tactic

/-!
# The two `memmove`s

`memmove` of `kernel/string.c` and of `user/ulib.c`, on a memory of bytes with addresses below 2⁶⁴.
The kernel copies downwards only when the destination starts inside the source, the user library
whenever the source is not above the destination. A loop copies correctly if it overwrites no byte
of the source before its turn. -/

namespace Xv6.Memmove

open Function

abbrev Mem := ℕ → UInt8

/-- The loop `while(n-- > 0) *d++ = *s++`. -/
def copyUp (m : Mem) (d s : ℕ) : ℕ → Mem
  | 0 => m
  | n + 1 => copyUp (update m d (m s)) (d + 1) (s + 1) n

/-- The loop `while(n-- > 0) *--d = *--s`. -/
def copyDown (m : Mem) (d s : ℕ) : ℕ → Mem
  | 0 => m
  | n + 1 => copyDown (update m (d - 1) (m (s - 1))) (d - 1) (s - 1) n

/-- The kernel's `memmove`, whose `n` is unsigned; `s + n` may wrap around. -/
def kmemmove (m : Mem) (dst src n : ℕ) : Mem × ℕ :=
  if n = 0 then (m, dst)
  else if src < dst ∧ (src + n) % 2 ^ 64 > dst then (copyDown m (dst + n) (src + n) n, dst)
  else (copyUp m dst src n, dst)

/-- The user library's `memmove`, whose `n` is signed. -/
def memmove (m : Mem) (vdst vsrc : ℕ) (n : ℤ) : Mem × ℕ :=
  if vsrc > vdst then (copyUp m vdst vsrc n.toNat, vdst)
  else (copyDown m (vdst + n).toNat (vsrc + n).toNat n.toNat, vdst)

structure Moved (m m' : Mem) (dst src n : ℕ) : Prop where
  copied : ∀ i < n, m' (dst + i) = m (src + i)
  frame : ∀ a, a < dst ∨ dst + n ≤ a → m' a = m a

variable {m m' m'' : Mem} {dst src n : ℕ}

theorem Moved.zero : Moved m m dst src 0 := ⟨fun i hi => absurd hi i.not_lt_zero, fun _ _ => rfl⟩

theorem Moved.unique (h : Moved m m' dst src n) (h' : Moved m m'' dst src n) : m' = m'' := by
  funext a
  by_cases ha : a < dst ∨ dst + n ≤ a
  · rw [h.frame a ha, h'.frame a ha]
  · obtain ⟨i, rfl⟩ := Nat.exists_eq_add_of_le (show dst ≤ a by omega)
    rw [h.copied i (by omega), h'.copied i (by omega)]

/-- Upwards, the byte `i` is written before the bytes of the source behind it are read. -/
theorem moved_copyUp (h : dst ≤ src ∨ src + n ≤ dst) : Moved m (copyUp m dst src n) dst src n := by
  induction n generalizing m dst src with
  | zero => exact .zero
  | succ n ih =>
    obtain ⟨hcopied, hframe⟩ := @ih (update m dst (m src)) (dst + 1) (src + 1) (by omega)
    rw [copyUp]
    refine ⟨fun i hi => ?_, fun a ha => ?_⟩
    · cases i with
      | zero => exact (hframe dst (by omega)).trans (update_self ..)
      | succ i =>
        have hi' := hcopied i (by omega)
        rw [update_of_ne (by omega)] at hi'
        rwa [show dst + (i + 1) = dst + 1 + i by omega, show src + (i + 1) = src + 1 + i by omega]
    · rw [hframe a (by omega), update_of_ne (by omega)]

/-- Downwards, it is written before those in front of it are read. -/
theorem moved_copyDown (h : src ≤ dst ∨ dst + n ≤ src) :
    Moved m (copyDown m (dst + n) (src + n) n) dst src n := by
  induction n generalizing m with
  | zero => exact .zero
  | succ n ih =>
    obtain ⟨hcopied, hframe⟩ := @ih (update m (dst + n) (m (src + n))) (by omega)
    refine ⟨fun i hi => ?_, fun a ha => ?_⟩
    · rcases Nat.lt_succ_iff_lt_or_eq.1 hi with hlt | rfl
      · exact (hcopied i hlt).trans (update_of_ne (by omega) ..)
      · exact (hframe (dst + i) (by omega)).trans (update_self ..)
    · exact (hframe a (by omega)).trans (update_of_ne (by omega) ..)

/-- However the ranges overlap, both copy the bytes that the source had and change no other byte. A
destination that does not wrap around is enough for the kernel's test. -/
theorem memmove_overlapping (m : Mem) (hdst : dst + n ≤ 2 ^ 64) :
    Moved m (kmemmove m dst src n).1 dst src n ∧ Moved m (memmove m dst src n).1 dst src n ∧
      kmemmove m dst src n = memmove m dst src n := by
  have hkernel : Moved m (kmemmove m dst src n).1 dst src n := by
    unfold kmemmove
    split_ifs with hzero hinside
    · exact hzero ▸ .zero
    · exact moved_copyDown (.inl hinside.1.le)
    · exact moved_copyUp (by omega)
  have huser : Moved m (memmove m dst src n).1 dst src n := by
    unfold memmove
    rw [Int.toNat_natCast]
    split_ifs with habove
    · exact moved_copyUp (.inl (le_of_lt habove))
    · exact moved_copyDown (.inl (not_lt.1 habove))
  refine ⟨hkernel, huser, Prod.ext (hkernel.unique huser) ?_⟩
  unfold kmemmove memmove
  split_ifs <;> rfl

theorem memmove_overlapping_shift :
    Moved (fun a => .ofNat a) (kmemmove (fun a => .ofNat a) 12 10 5).1 12 10 5 ∧
    (kmemmove (fun a => .ofNat a) 12 10 5).1 14 = 12 :=
  ⟨(memmove_overlapping _ (by decide)).1, by decide⟩

end Xv6.Memmove
