import Xv6.Numeral

/-!
# `printf` of the kernel and of the user library

Both select a conversion by the characters after a `%` and print numbers with a routine that
collects the digits, last one first, in a buffer of 16 bytes. The kernel's routine takes a `long
long`, the user's an `int`. An argument is a 64-bit slot, of which `va_arg(ap, int)` reads the lower
half. -/

namespace Xv6.Printf

open Numeral List

/-- An argument of `printf`; the string of a `%s` may be a null pointer. -/
inductive Arg
  | word (w : BitVec 64)
  | str (s : Option (List UInt8))

/-- A store behind the end of `buf`, or an argument that is not there or of another kind. -/
inductive Fault
  | buf
  | arg
  deriving DecidableEq

def kernelDigits : List UInt8 := [48, 49, 50, 51, 52, 53, 54, 55, 56, 57, 97, 98, 99, 100, 101, 102]

def userDigits : List UInt8 := [48, 49, 50, 51, 52, 53, 54, 55, 56, 57, 65, 66, 67, 68, 69, 70]

def kernelTable : Table UInt8 16 where
  char d := kernelDigits.getD d 0
  minus := 45
  value c := kernelDigits.idxOf c
  value_char := by decide
  char_ne := by decide

def userTable : Table UInt8 16 where
  char d := userDigits.getD d 0
  minus := 45
  value c := userDigits.idxOf c
  value_char := by decide
  char_ne := by decide

def bufsize : ℕ := 16

def putDigits (t : Table UInt8 16) (base x : ℕ) (neg : Bool) : Except Fault (List UInt8) :=
  match digitLoop t.char base bufsize x [] with
  | none => .error .buf
  | some buf =>
    if neg then
      if buf.length < bufsize then .ok (buf ++ [t.minus]).reverse else .error .buf
    else .ok buf.reverse

def printint (xx : BitVec 64) (base : ℕ) (sign : Bool) : Except Fault (List UInt8) :=
  let neg := sign && xx.msb
  putDigits kernelTable base (if neg then -xx else xx).toNat neg

def printintUser (xx : BitVec 32) (base : ℕ) (sgn : Bool) : Except Fault (List UInt8) :=
  let neg := sgn && xx.msb
  putDigits userTable base (if neg then -xx else xx).toNat neg

def printptr (t : Table UInt8 16) (x : BitVec 64) : List UInt8 :=
  48 :: 120 :: (List.range 16).map fun i => t.char ((x <<< (4 * i)) >>> 60).toNat

def nullText : List UInt8 := [40, 110, 117, 108, 108, 41]

/-- What the characters after a `%` ask for: a number, with the type of its argument, its base,
whether it is signed and how many characters follow the first; a pointer; a string; a `%`; or
nothing known. -/
inductive Conv
  | int (long : Bool) (base : ℕ) (sign : Bool) (more : ℕ)
  | ptr
  | str
  | percent
  | other

def conversion (c0 c1 c2 : UInt8) : Conv :=
  if c0 = 100 then .int false 10 true 0
  else if c0 = 108 ∧ c1 = 100 then .int true 10 true 1
  else if c0 = 108 ∧ c1 = 108 ∧ c2 = 100 then .int true 10 true 2
  else if c0 = 117 then .int false 10 false 0
  else if c0 = 108 ∧ c1 = 117 then .int true 10 false 1
  else if c0 = 108 ∧ c1 = 108 ∧ c2 = 117 then .int true 10 false 2
  else if c0 = 120 then .int false 16 false 0
  else if c0 = 108 ∧ c1 = 120 then .int true 16 false 1
  else if c0 = 108 ∧ c1 = 108 ∧ c2 = 120 then .int true 16 false 2
  else if c0 = 112 then .ptr
  else if c0 = 115 then .str
  else if c0 = 37 then .percent
  else .other

/-- The loop of the kernel's `printf`, with so many characters to skip first. -/
def printfLoop : ℕ → List UInt8 → List Arg → Except Fault (List UInt8)
  | _, [], _ => .ok []
  | skip + 1, _ :: fmt, args => printfLoop skip fmt args
  | 0, cx :: fmt, args =>
    if cx ≠ 37 then (cx :: ·) <$> printfLoop 0 fmt args
    else
      match conversion (fmt.getD 0 0) (fmt.getD 1 0) (fmt.getD 2 0), args with
      | .int long base sign more, .word w :: args => do
        let s ← printint (if long then w else (w.setWidth 32).signExtend 64) base sign
        (s ++ ·) <$> printfLoop (more + 1) fmt args
      | .ptr, .word w :: args => (printptr kernelTable w ++ ·) <$> printfLoop 1 fmt args
      | .str, .str s :: args => (s.getD nullText ++ ·) <$> printfLoop 1 fmt args
      | .percent, args => (37 :: ·) <$> printfLoop 1 fmt args
      | .other, args =>
        -- the format ends after the `%`
        if fmt.getD 0 0 = 0 then .ok [] else ([37, fmt.getD 0 0] ++ ·) <$> printfLoop 1 fmt args
      | _, _ => .error .arg

/-- The kernel's `printf`: the bytes that it sends to the console. -/
def printf (fmt : List UInt8) (args : List Arg) : Except Fault (List UInt8) := printfLoop 0 fmt args

/-- The loop of `vprintf`; `state` says that a `%` has been read. -/
def vprintfLoop : Bool → ℕ → List UInt8 → List Arg → Except Fault (List UInt8)
  | _, _, [], _ => .ok []
  | state, skip + 1, _ :: fmt, args => vprintfLoop state skip fmt args
  | false, 0, c0 :: fmt, args =>
    if c0 = 37 then vprintfLoop true 0 fmt args else (c0 :: ·) <$> vprintfLoop false 0 fmt args
  | true, 0, c0 :: fmt, args =>
    match conversion c0 (fmt.getD 0 0) (fmt.getD 1 0), args with
    | .int _ base sign more, .word w :: args => do
      -- whatever the type of the argument, the parameter of `printint` is an `int`
      let s ← printintUser (w.setWidth 32) base sign
      (s ++ ·) <$> vprintfLoop false more fmt args
    | .ptr, .word w :: args => (printptr userTable w ++ ·) <$> vprintfLoop false 0 fmt args
    | .str, .str s :: args => (s.getD nullText ++ ·) <$> vprintfLoop false 0 fmt args
    | .percent, args => (37 :: ·) <$> vprintfLoop false 0 fmt args
    | .other, args => ([37, c0] ++ ·) <$> vprintfLoop false 0 fmt args
    | _, _ => .error .arg

/-- `vprintf`: the bytes that it writes to the descriptor. -/
def vprintf (fmt : List UInt8) (args : List Arg) :
    Except Fault (List UInt8) := vprintfLoop false 0 fmt args

/-! ## The conversions of numbers -/

inductive Number
  | d | ld | lld | u | lu | llu | x | lx | llx
  deriving DecidableEq

namespace Number

def letters : Number → List UInt8
  | d => [100]
  | ld => [108, 100]
  | lld => [108, 108, 100]
  | u => [117]
  | lu => [108, 117]
  | llu => [108, 108, 117]
  | x => [120]
  | lx => [108, 120]
  | llx => [108, 108, 120]

def long : Number → Bool
  | d | u | x => false
  | ld | lld | lu | llu | lx | llx => true

def base : Number → ℕ
  | d | ld | lld | u | lu | llu => 10
  | x | lx | llx => 16

def sign : Number → Bool
  | d | ld | lld => true
  | u | lu | llu | x | lx | llx => false

/-- The number that is to be printed: the argument or its lower half, as a signed or an unsigned
value. -/
def value (k : Number) (w : BitVec 64) : ℤ :=
  if k.long then if k.sign then w.toInt else w.toNat
  else if k.sign then (w.setWidth 32).toInt else (w.setWidth 32).toNat

theorem base_bounds (k : Number) : 1 < k.base ∧ k.base ≤ 16 := by cases k <;> decide

theorem conversion_letters (k : Number) (fmt : List UInt8) :
    conversion ((k.letters ++ fmt).getD 0 0) ((k.letters ++ fmt).getD 1 0)
    ((k.letters ++ fmt).getD 2 0) =
      .int k.long k.base k.sign (k.letters.length - 1) := by
  cases k <;> simp [conversion, letters, long, base, sign]

end Number

section digits

variable {t : Table UInt8 16} {b : ℕ}

theorem length_signed (z : ℤ) :
    (signed t b z).length = (lowFirst b z.natAbs).length + if z < 0 then 1 else 0 := by
  unfold signed
  split
  · rw [length_cons, length_numeral]
  · rw [length_numeral, Nat.add_zero]

theorem putDigits_eq (hb : 1 < b) (z : ℤ) : putDigits t b z.natAbs (decide (z < 0)) =
    if (signed t b z).length ≤ bufsize then .ok (signed t b z) else .error .buf := by
  rw [putDigits, digitLoop_eq hb, length_signed]
  by_cases hlen : (lowFirst b z.natAbs).length ≤ bufsize
  · rw [if_pos hlen]
    by_cases hz : z < 0
    · simp only [hz, decide_true, if_true, nil_append, length_map]
      by_cases hroom : (lowFirst b z.natAbs).length < bufsize
      · rw [if_pos hroom, if_pos (Nat.succ_le_of_lt hroom), signed, if_pos hz, reverse_append]
        rfl
      · rw [if_neg hroom, if_neg (by omega)]
    · simp only [hz, decide_false, if_false, Nat.add_zero, hlen, if_true, signed]
      rfl
  · rw [if_neg hlen, if_neg (by omega)]

theorem length_signed_le_iff (hb : 1 < b) (z : ℤ) :
    (signed t b z).length ≤ bufsize ↔ -(b : ℤ) ^ 15 < z ∧ z < (b : ℤ) ^ 16 := by
  have hpos : (0 : ℤ) < (b : ℤ) ^ 15 ∧ (0 : ℤ) < (b : ℤ) ^ 16 := ⟨by positivity, by positivity⟩
  have h15 : ((b ^ 15 : ℕ) : ℤ) = (b : ℤ) ^ 15 := by push_cast; rfl
  have h16 : ((b ^ 16 : ℕ) : ℤ) = (b : ℤ) ^ 16 := by push_cast; rfl
  rw [length_signed]
  split
  · have hfits := length_lowFirst_le_iff hb (k := 15) (by decide) z.natAbs
    have hiff : (lowFirst b z.natAbs).length + 1 ≤ bufsize ↔ (lowFirst b z.natAbs).length ≤ 15 :=
      Nat.succ_le_succ_iff
    rw [hiff, hfits]
    omega
  · rw [Nat.add_zero, bufsize, length_lowFirst_le_iff hb (by decide)]
    omega

end digits

/-! ## The two routines -/

def reading {n : ℕ} (sign : Bool) (w : BitVec n) : ℤ := if sign then w.toInt else w.toNat

section words

variable {n : ℕ}

theorem neg_eq_reading (sign : Bool) (w : BitVec n) :
    (sign && w.msb) = decide (reading sign w < 0) := by
  cases sign with
  | false => exact (decide_eq_false (by simp [reading])).symm
  | true => rw [Bool.true_and, BitVec.msb_eq_toInt, reading, if_pos rfl]

theorem magnitude_eq (sign : Bool) (w : BitVec n) :
    (if sign && w.msb then -w else w).toNat = (reading sign w).natAbs := by
  cases sign with
  | false => simp [reading]
  | true =>
    rw [Bool.true_and, reading, if_pos rfl, BitVec.toInt_eq_msb_cond]
    cases hmsb : w.msb with
    | false => simp
    | true =>
      have hlt := w.isLt
      have hge := BitVec.msb_eq_true_iff_two_mul_ge.1 hmsb
      have hpos : 0 < 2 ^ n := Nat.two_pow_pos n
      rw [if_pos rfl, if_pos rfl, BitVec.toNat_neg, Nat.mod_eq_of_lt (by omega)]
      omega

theorem printint_eq (xx : BitVec 64) {base : ℕ} (hb : 1 < base) (sign : Bool) :
    printint xx base sign =
      if (signed kernelTable base (reading sign xx)).length ≤ bufsize then
        .ok (signed kernelTable base (reading sign xx)) else .error .buf := by
  rw [printint, magnitude_eq, neg_eq_reading, putDigits_eq hb]

/-- An `int` has at most ten digits and a sign. -/
theorem printintUser_eq (xx : BitVec 32) {base : ℕ} (hb : 10 ≤ base) (sign : Bool) :
    printintUser xx base sign = .ok (signed userTable base (reading sign xx)) := by
  have h15 : (10 : ℤ) ^ 15 ≤ (base : ℤ) ^ 15 :=
    pow_le_pow_left₀ (by norm_num) (by exact_mod_cast hb) 15
  have h16 : (10 : ℤ) ^ 16 ≤ (base : ℤ) ^ 16 :=
    pow_le_pow_left₀ (by norm_num) (by exact_mod_cast hb) 16
  have hlt := xx.isLt
  have hcond := BitVec.toInt_eq_msb_cond xx
  rw [printintUser, magnitude_eq, neg_eq_reading, putDigits_eq (by omega), if_pos]
  rw [length_signed_le_iff (by omega)]
  unfold reading
  split at hcond <;> split <;> omega

end words

namespace Number

variable (k : Number) (w : BitVec 64)

def kernelArg : BitVec 64 := if k.long then w else (w.setWidth 32).signExtend 64

theorem printfLoop_skip (l fmt : List UInt8) (args : List Arg) :
    printfLoop l.length (l ++ fmt) args = printfLoop 0 fmt args := by
  induction l with
  | nil => rfl
  | cons c l ih => rw [length_cons, cons_append, printfLoop, ih]

theorem vprintfLoop_skip (l fmt : List UInt8) (args : List Arg) (state : Bool) :
    vprintfLoop state l.length (l ++ fmt) args = vprintfLoop state 0 fmt args := by
  induction l with
  | nil => rfl
  | cons c l ih => rw [length_cons, cons_append, vprintfLoop, ih]

theorem printf_eq (fmt : List UInt8) (args : List Arg) :
    printf (37 :: k.letters ++ fmt) (.word w :: args) =
      printint (k.kernelArg w) k.base k.sign >>= fun s => (s ++ ·) <$> printf fmt args := by
  have hlen : k.letters.length - 1 + 1 = k.letters.length := by cases k <;> rfl
  unfold printf
  rw [cons_append, printfLoop.eq_def]
  dsimp only
  rw [if_neg (by simp), conversion_letters]
  dsimp only
  rw [hlen, printfLoop_skip]
  rfl

theorem vprintf_eq (fmt : List UInt8) (args : List Arg) :
    vprintf (37 :: k.letters ++ fmt) (.word w :: args) =
      printintUser (w.setWidth 32) k.base k.sign >>= fun s => (s ++ ·) <$> vprintf fmt args := by
  obtain ⟨c0, l, hl⟩ : ∃ c0 l, k.letters = c0 :: l := by cases k <;> exact ⟨_, _, rfl⟩
  have hconv := k.conversion_letters fmt
  rw [hl] at hconv
  unfold vprintf
  rw [cons_append, hl, vprintfLoop, if_pos rfl, cons_append, vprintfLoop.eq_def]
  dsimp only
  rw [show conversion c0 ((l ++ fmt).getD 0 0) ((l ++ fmt).getD 1 0) = _ from hconv]
  dsimp only
  rw [length_cons, Nat.add_sub_cancel, vprintfLoop_skip]

/-- The arguments that the kernel prints as it should: at most 16 characters, and for the
conversions of an unsigned `int` those that are not negative as an `int`. -/
def KernelFits : Number → BitVec 64 → Prop
  | d, _ | lx, _ | llx, _ => True
  | ld, w | lld, w => -10 ^ 15 < w.toInt ∧ w.toInt < 10 ^ 16
  | lu, w | llu, w => w.toNat < 10 ^ 16
  | u, w | x, w => (w.setWidth 32).toNat < 2 ^ 31

/-- The arguments that the user library prints as it should: those that an `int` or a `uint` can
hold. -/
def UserFits : Number → BitVec 64 → Prop
  | d, _ | u, _ | x, _ => True
  | ld, w | lld, w => -2 ^ 31 ≤ w.toInt ∧ w.toInt < 2 ^ 31
  | lu, w | llu, w | lx, w | llx, w => w.toNat < 2 ^ 32

variable {k w}

/-- A conversion prints `t` in every format exactly if its routine does. -/
theorem forall_bind_iff {m : Except Fault (List UInt8)} {t : List UInt8}
    {rest : List UInt8 → List Arg → Except Fault (List UInt8)} (hnil : rest [] [] = .ok []) :
    (∀ fmt args, (m >>= fun s => (s ++ ·) <$> rest fmt args) = (t ++ ·) <$> rest fmt args) ↔
    m = .ok t := by
  constructor
  · intro h
    have hempty := h [] []
    rw [hnil] at hempty
    cases m with
    | error e => cases hempty
    | ok s =>
      have hs : s ++ [] = t ++ [] := Except.ok.inj hempty
      rw [append_nil, append_nil] at hs
      rw [hs]
  · rintro rfl fmt args
    rfl

/-- What the kernel prints is the number that is to be printed, unless an unsigned `int` was
extended with its sign. -/
theorem reading_kernelArg_iff : reading k.sign (k.kernelArg w) = k.value w ↔
    k.long = true ∨ k.sign = true ∨ (w.setWidth 32).toNat < 2 ^ 31 := by
  unfold reading kernelArg value
  cases k.long with
  | true => simp
  | false =>
    cases k.sign with
    | true =>
      simp only [Bool.false_eq_true, if_false, if_true, false_or, true_or, iff_true]
      exact BitVec.toInt_signExtend_of_le (by decide)
    | false =>
      have hlt := (w.setWidth 32).isLt
      have hsmall := BitVec.msb_eq_false_iff_two_mul_lt (x := w.setWidth 32)
      have hwide : ((w.setWidth 32).setWidth 64).toNat = (w.setWidth 32).toNat := by
        rw [BitVec.toNat_setWidth, Nat.mod_eq_of_lt (lt_trans hlt (by norm_num))]
      simp only [Bool.false_eq_true, if_false, false_or, BitVec.toNat_signExtend, hwide]
      cases hmsb : (w.setWidth 32).msb with
      | false =>
        rw [hmsb] at hsmall
        have := hsmall.1 rfl
        simp only [Bool.false_eq_true, if_false, Nat.add_zero, true_iff]
        omega
      | true =>
        rw [hmsb] at hsmall
        have hbig : ¬ 2 * (w.setWidth 32).toNat < 2 ^ 32 := fun h => by simpa using hsmall.2 h
        simp only [if_true, Nat.cast_add]
        omega

/-- The kernel prints the numeral of the argument, within the buffer, exactly for these
arguments. -/
theorem kernel_prints_numeral_iff (k : Number) (w : BitVec 64) :
    (∀ fmt args, printf (37 :: k.letters ++ fmt) (.word w :: args) =
      (signed kernelTable k.base (k.value w) ++ ·) <$> printf fmt args) ↔ k.KernelFits w := by
  have hprint : printint (k.kernelArg w) k.base k.sign =
      .ok (signed kernelTable k.base (k.value w)) ↔
      reading k.sign (k.kernelArg w) = k.value w ∧ -(k.base : ℤ) ^ 15 < k.value w ∧
      k.value w < (k.base : ℤ) ^ 16 := by
    rw [printint_eq _ k.base_bounds.1, ← length_signed_le_iff (t := kernelTable) k.base_bounds.1]
    constructor
    · intro h
      split at h
      next hlen =>
        have heq := signed_injective k.base_bounds.1 k.base_bounds.2 (Except.ok.inj h)
        exact ⟨heq, heq ▸ hlen⟩
      next => cases h
    · rintro ⟨heq, hlen⟩
      rw [heq, if_pos hlen]
  have hlt := w.isLt
  have hint := BitVec.toInt_lt (x := w.setWidth 32)
  have hint' := BitVec.le_toInt (w.setWidth 32)
  have hlt' := (w.setWidth 32).isLt
  simp only [printf_eq]
  rw [forall_bind_iff rfl, hprint, reading_kernelArg_iff]
  cases k <;> simp only [long, sign, base, value, KernelFits, if_true, if_false, Bool.false_eq_true,
    true_or, or_true, false_or, true_and, iff_true, Nat.cast_ofNat] <;> omega

/-- `%u` of `2 ^ 31` stores twenty digits into the sixteen bytes, `%x` of it prints sixteen digits,
and a `%ld` of seventeen digits does not fit either. -/
theorem kernel_prints_extended : printf [37, 117] [.word 0x80000000] = .error .buf ∧
    printf [37, 120] [.word 0x80000000] = .ok (List.replicate 8 102 ++ 56 :: List.replicate 7 48) ∧
    printf [37, 108, 100] [.word 10000000000000000] = .error .buf := by
  decide +kernel

/-- `printint`'s parameter keeps the lower half of an argument only. -/
theorem reading_low_iff : reading k.sign (w.setWidth 32) = k.value w ↔ k.UserFits w := by
  have hlt := w.isLt
  have hsigned : (w.setWidth 32).toInt = w.toInt ↔ -2 ^ 31 ≤ w.toInt ∧ w.toInt < 2 ^ 31 := by
    rw [BitVec.toInt_eq_toNat_cond, BitVec.toInt_eq_toNat_cond, BitVec.toNat_setWidth]
    split <;> split <;> omega
  have hunsigned : ((w.setWidth 32).toNat : ℤ) = w.toNat ↔ w.toNat < 2 ^ 32 := by
    rw [BitVec.toNat_setWidth]
    omega
  cases k <;> simp only [reading, long, sign, value, UserFits, if_true, if_false,
    Bool.false_eq_true, hsigned, hunsigned]

/-- `vprintf` prints the numeral of the argument exactly for these arguments, and never stores
behind its buffer. -/
theorem user_prints_numeral_iff (k : Number) (w : BitVec 64) :
    ((∀ fmt args, vprintf (37 :: k.letters ++ fmt) (.word w :: args) =
      (signed userTable k.base (k.value w) ++ ·) <$> vprintf fmt args) ↔ k.UserFits w) ∧
    ∃ s, printintUser (w.setWidth 32) k.base k.sign = .ok s := by
  have hbase : 10 ≤ k.base := by cases k <;> decide
  refine ⟨?_, _, printintUser_eq _ hbase _⟩
  simp only [vprintf_eq]
  rw [forall_bind_iff rfl, printintUser_eq _ hbase, Except.ok.injEq,
    (signed_injective k.base_bounds.1 k.base_bounds.2).eq_iff, reading_low_iff]

/-- The upper half of `2 ^ 32` is lost: all of these print `0`. -/
theorem user_prints_lower_half : vprintf [37, 108, 100] [.word 0x100000000] = .ok [48] ∧
    vprintf [37, 108, 117] [.word 0x100000000] = .ok [48] ∧
    vprintf [37, 108, 120] [.word 0x100000000] = .ok [48] := by
  decide +kernel

end Number

end Xv6.Printf
