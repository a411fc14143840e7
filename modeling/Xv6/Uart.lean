import Xv6.RingBuffer
import Xv6.Transition

/-!
# The transmit buffer of the UART

`uartputc`, `uartstart`, `uartintr` and `uartputc_sync` of `kernel/uart.c`. `uartstart` runs under
`uart_tx_lock`, but `uartputc_sync`, with which every CPU prints for the kernel, does not take it;
both look at the line status first and write the register in a later step. The device is idle when
it has sent what it was given, and asks for an interrupt then, until the register is written or
`ISR` is read. -/

namespace Xv6.Uart

open Transition RingBuffer Function

def txBufSize : ℕ := 32

def ncpu : ℕ := 8

/-- The positions in the loop of `uartstart`. -/
inductive Pc
  | test
  | send
deriving DecidableEq

structure Sys where
  buf : ℕ → UInt8
  r : BitVec 64
  w : BitVec 64
  /-- Where the holder of `uart_tx_lock` is. -/
  lock : Option Pc
  /-- The CPUs on which `uartputc_sync` has found the device idle. -/
  sync : ℕ
  /-- What the device has still to send. -/
  thr : List UInt8
  intr : Bool
  /-- The bytes that `uartputc` has stored, and those that `uartstart` has put in the register. -/
  put : List UInt8
  sent : List UInt8

inductive Act
  | putc (b : UInt8)
  | intr
  | start
  | device
  | sync
  | putcSync (b : UInt8)

def step (s : Sys) : Act → Option Sys
  | .putc b =>
    if s.lock = none ∧ s.w ≠ s.r + BitVec.ofNat 64 txBufSize then
      some { s with
        buf := update s.buf (s.w.toNat % txBufSize) b
        w := s.w + 1
        lock := some .test
        put := s.put ++ [b] }
    else none
  | .intr => if s.lock = none then some { s with lock := some .test } else none
  | .start =>
    match s.lock with
    | none => none
    | some .test =>
      if s.w = s.r then some { s with lock := none, intr := false }
      else if s.thr ≠ [] then some { s with lock := none }
      else some { s with lock := some .send }
    | some .send =>
      let b := s.buf (s.r.toNat % txBufSize)
      some { s with
        r := s.r + 1, thr := s.thr ++ [b], intr := false, lock := some .test,
        sent := s.sent ++ [b] }
  | .device =>
    match s.thr with
    | [] => none
    | _ :: l => some { s with thr := l, intr := if l = [] then true else s.intr }
  | .sync => if s.thr = [] ∧ s.sync < ncpu then some { s with sync := s.sync + 1 } else none
  | .putcSync b =>
    if 0 < s.sync then some { s with
      sync := s.sync - 1, thr := s.thr ++ [b], intr := false } else none

def boot (buf : ℕ → UInt8) : Sys := ⟨buf, 0, 0, none, 0, [], false, [], []⟩

structure Inv (s : Sys) (q : List UInt8) : Prop where
  contents : Contents txBufSize s.buf s.r s.w q
  put : s.put = s.sent ++ q
  send : s.lock = some .send → s.r ≠ s.w
  /-- A byte waits only while the device is at work or asks for an interrupt. -/
  awake : s.lock = none → q ≠ [] → s.thr ≠ [] ∨ s.intr = true
  /-- Who writes the register has seen it empty. -/
  few : s.sync ≤ ncpu ∧ s.thr.length + s.sync + (if s.lock = some .send then 1 else 0) ≤ ncpu + 1

variable {s t : Sys}

theorem Inv.step {q : List UInt8} {a : Act} (h : Inv s q) (hs : step s a = some t) :
    ∃ q', Inv t q' := by
  obtain ⟨hcontents, hput, hsend, hawake, hfew⟩ := h
  have hlt : txBufSize < 2 ^ 64 := by decide
  have hdvd : txBufSize ∣ 2 ^ 64 := by decide
  have hempty := hcontents.eq_iff hlt
  cases a with
  | putc b =>
    obtain ⟨hg, ⟨⟩⟩ := Option.ite_none_right_eq_some.1 hs
    exact ⟨q ++ [b], hcontents.push hlt hdvd hg.2 b, by simp [hput], by simp, by simp, by grind⟩
  | start =>
    cases hlock : s.lock with
    | none => simp [Uart.step, hlock] at hs
    | some pc =>
      cases pc with
      | test =>
        simp only [Uart.step, hlock] at hs
        refine ⟨q, ?_, ?_, ?_, ?_, ?_⟩ <;> grind
      | send =>
        obtain ⟨rest, hq, hrest⟩ := hcontents.pop hlt hdvd (hsend hlock)
        simp only [Uart.step, hlock] at hs
        cases hs
        exact ⟨rest, hrest, by simp [hput, hq], by simp, by simp, by grind⟩
  | putcSync b =>
    obtain ⟨hg, ⟨⟩⟩ := Option.ite_none_right_eq_some.1 hs
    exact ⟨q, hcontents, hput, hsend, by simp, by grind⟩
  | _ =>
    simp only [Uart.step] at hs
    refine ⟨q, ?_, ?_, ?_, ?_, ?_⟩ <;> grind

/-- Along every run: what `uartstart` has written and then what is in the buffer are the bytes given
to `uartputc`, in order; while the lock is free, bytes wait only for a device that is at work or
asks for an interrupt; and the device is never given more bytes at once than there are CPUs and
one. -/
theorem uart_fifo {buf : ℕ → UInt8} {as : List Act} (hrun : run step (boot buf) as = some s) :
    (∃ q, Contents txBufSize s.buf s.r s.w q ∧ s.put = s.sent ++ q ∧
      (s.lock = none → q ≠ [] → s.thr ≠ [] ∨ s.intr = true)) ∧ s.thr.length ≤ ncpu + 1 := by
  have hboot : Inv (boot buf) [] := ⟨.empty buf 0, rfl, by simp [boot], by simp, by simp [boot]⟩
  obtain ⟨q, hcontents, hput, -, hawake, hfew⟩ :=
    run_invariant_all (I := fun s => ∃ q, Inv s q) (fun _ _ _ h hs => h.elim fun _ h => h.step hs)
      ⟨_, hboot⟩ hrun
  exact ⟨⟨q, hcontents, hput, hawake⟩, by omega⟩

theorem uart_fifo_sync : ∃ as s q, run step (boot fun _ => 0) as = some s ∧ s.put = s.sent ++ q ∧
    s.sent = [1] ∧ s.thr = [1, 9] := by
  have hrun : run step (boot fun _ => 0)
      [.putc 1, .start, .sync, .start, .putcSync 9, .start, .putc 2, .start] = some _ := rfl
  obtain ⟨⟨q, -, hput, -⟩, -⟩ := uart_fifo hrun
  exact ⟨_, _, q, hrun, hput, rfl, rfl⟩

end Xv6.Uart
