import Xv6.Pipe
import Xv6.UserCopy

/-!
# Reads from a pipe into bad addresses

`piperead` of `kernel/pipe.c` with the page table of the reader, so that `copyout` may fail at any
byte. The loop that copies runs under `pi->lock` to its end; what other processes do to the pipe
lies before or after it. The byte goes through the local variable `ch`, which has an address of its
own. A step of the machine is a turn of `pipewrite` that stores a byte, a whole call of `piperead`
from the last turn of its waiting loop on, or `pipeclose`.
-/

namespace Xv6.Pipes

open Transition RingBuffer Vm List Nat

/-- The loop of `piperead` that copies, with `n - i` rounds left: the pipe and `i` after it. -/
def copyLoop (pagetable addr ch : ℕ) : ℕ → Pipe → ℕ → M (Pipe × ℤ)
  | 0, pi, i => pure (pi, i)
  | rounds + 1, pi, i =>
    if pi.nread = pi.nwrite then pure (pi, i)
    else do
      setByte ch (pi.data (pi.nread.toNat % pipesize))
      -- the counter has gone on before the copy is tried
      let pi := { pi with nread := pi.nread + 1 }
      if ← copyout pagetable (add64 addr i) ch 1 then copyLoop pagetable addr ch rounds pi (i + 1)
      else pure (pi, i)

/-- `piperead` from a turn of its waiting loop on; `none` if it sleeps. -/
def piperead (pagetable addr ch : ℕ) (n : ℤ) (killed : Bool) (pi : Pipe) : Option (M (Pipe × ℤ)) :=
  if pi.nread = pi.nwrite ∧ pi.writeopen = true then
    if killed then some (pure (pi, -1)) else none
  else some (copyLoop pagetable addr ch n.toNat pi 0)

structure Ready (kend : ℕ) (s : Phys) (root ch : ℕ) : Prop where
  table : Table kend s root
  leaves : Leaves s root
  apart : Apart s root ch 1
  outside : NotInTable s root ch 1

section copy

variable {kend root ch va addr i rounds : ℕ} {s t u : Phys} {pi : Pipe} {q : List UInt8} {x : UInt8}

theorem Ready.congr (h : Ready kend s root ch)
    (hu : Table kend u root ∧ u.nodes root = s.nodes root ∧ ∀ x,
      u.lookup root x = s.lookup root x) :
    Ready kend u root ch :=
  ⟨hu.1, h.leaves.congr hu.2.1 hu.2.2, h.apart.tail (n := 0) hu.2.2, h.outside.tail (n := 0) hu.2.1⟩

theorem Ready.ch_ne (h : Ready kend s root ch) (hu : Usable s root true va) :
    s.phys root va ≠ ch := by
  intro heq
  refine h.apart 0 one_pos va hu.1 _ hu.lookup ?_
  rw [← (phys_page s root va).1, heq, add_zero]

/-- One byte goes through the variable to the user, if the user may write there. -/
theorem copy_byte (h : Ready kend s root ch) (va : ℕ) (x : UInt8) :
    Runs (do setByte ch x; copyout root va ch 1) s fun r t =>
      (r = true ↔ Usable s root true va) ∧ Ready kend t root ch ∧
      (∀ y, t.lookup root y = s.lookup root y) ∧ (r = true → t.byte (s.phys root va) = x) ∧
      ∀ a, a ≠ ch → (r = true → a ≠ s.phys root va) → t.byte a = s.byte a := by
  have hset := Stored.fill s ch 1 fun _ => x
  refine Runs.modifies ?_
  generalize s.fill ch 1 (fun _ => x) = u at hset
  obtain ⟨htable, -⟩ := hset.buffer le_rfl h.table h.apart h.outside
  have hready := h.congr htable
  refine (copyout_spec va hready.table hready.leaves hready.apart).mono ?_
  rintro r t ⟨m, hm⟩
  obtain ⟨htable', -⟩ := hm.stored.user hready.table hready.leaves hready.apart hm.usable
  have hphys (y : ℕ) : u.phys root y = s.phys root y := phys_congr htable.2.2
  have huse : r = true ↔ Usable s root true va := by
    rw [hm.true_iff, ← Usable.congr htable.2.2]
    exact ⟨fun hall => hall 0 one_pos, fun hva j hj => by rwa [Nat.lt_one_iff.1 hj]⟩
  refine ⟨huse, hready.congr htable', fun y => (htable'.2.2 y).trans (htable.2.2 y), fun hr => ?_,
    fun a hch ha => ?_⟩
  · have hbyte := hm.stored.bytes 0 (by rw [hm.all hr]; exact one_pos)
    rwa [add_zero, hphys, hset.bytes 0 one_pos] at hbyte
  · rw [hm.stored.byte fun j hj => ?_, hset.byte fun j hj => ?_]
    · rwa [Nat.lt_one_iff.1 hj]
    · have hle := hm.le
      obtain rfl : j = 0 := by omega
      rw [hphys]
      refine ha ?_
      by_contra hr
      have := (hm.bad (Bool.eq_false_iff.2 hr)).1
      omega

/-- What the loop ends with: the first `m` bytes of the queue are in user memory, and `k` bytes are
gone from the pipe. -/
structure Moved (s t : Phys) (root ch : ℕ) (dst : ℕ → ℕ) (q : List UInt8) (rounds m k : ℕ) :
    Prop where
  le : m ≤ min rounds q.length
  usable : ∀ j < m, Usable s root true (dst j)
  taken : k = m ∧ m = min rounds q.length ∨ k = m + 1 ∧ m < min rounds q.length ∧
    ¬ Usable s root true (dst m)
  lookup : ∀ y, t.lookup root y = s.lookup root y
  bytes : ∀ j < m, t.byte (s.phys root (dst j)) = q.getD j 0
  frame : ∀ a, a ≠ ch → (∀ j < m, a ≠ s.phys root (dst j)) → t.byte a = s.byte a

theorem Moved.nothing {dst : ℕ → ℕ} (h : min rounds q.length = 0) :
    Moved s s root ch dst q rounds 0 0 :=
  ⟨zero_le _, fun j hj => absurd hj (not_lt_zero j), .inl ⟨rfl, h.symm⟩, fun _ => rfl,
    fun j hj => absurd hj (not_lt_zero j), fun _ _ _ => rfl⟩

theorem Moved.gone {dst : ℕ → ℕ} {m k : ℕ} (hm : Moved s t root ch dst q rounds m k) :
    k = m ∧ (∀ j < min rounds q.length, Usable s root true (dst j)) ∨
    k = m + 1 ∧ ¬ ∀ j < min rounds q.length, Usable s root true (dst j) := by
  rcases hm.taken with ⟨hk, hall⟩ | ⟨hk, hlt, hbad⟩
  · exact .inl ⟨hk, hall ▸ hm.usable⟩
  · exact .inr ⟨hk, fun hgood => hbad (hgood m hlt)⟩

theorem add64_ne {j k : ℕ} (hjk : j ≠ k) (hj : j < 2 ^ 64) (hk : k < 2 ^ 64) :
    add64 addr j ≠ add64 addr k := by
  unfold add64
  omega

theorem Moved.cons {m k : ℕ} (hm : Moved u t root ch (fun j => add64 addr (i + 1 + j)) q rounds m k)
    (h : Ready kend s root ch) (huse : Usable s root true (add64 addr i))
    (hlookup : ∀ y, u.lookup root y = s.lookup root y)
    (hbyte : u.byte (s.phys root (add64 addr i)) = x)
    (hframe : ∀ a, a ≠ ch → a ≠ s.phys root (add64 addr i) → u.byte a = s.byte a)
    (hi : i + (q.length + 1) ≤ 2 ^ 64) :
    Moved s t root ch (fun j => add64 addr (i + j)) (x :: q) (rounds + 1) (m + 1) (k + 1) := by
  have hnext (j : ℕ) : add64 addr (i + 1 + j) = add64 addr (i + (j + 1)) := by
    rw [add_assoc, add_comm 1 j]
  have hphys (y : ℕ) : u.phys root y = s.phys root y := phys_congr hlookup
  have hle := hm.le
  have husable : ∀ j < m, Usable s root true (add64 addr (i + (j + 1))) := fun j hj =>
    hnext j ▸ (Usable.congr hlookup).1 (hm.usable j hj)
  refine ⟨?_, fun j hj => ?_, ?_, fun y => (hm.lookup y).trans (hlookup y), fun j hj => ?_,
    fun a hch ha => ?_⟩
  · rw [length_cons, Nat.add_min_add_right]
    omega
  · cases j with
    | zero => exact huse
    | succ j => exact husable j (by omega)
  · rw [length_cons, Nat.add_min_add_right]
    rcases hm.taken with ⟨rfl, hall⟩ | ⟨rfl, hlt, hbad⟩
    · exact .inl ⟨rfl, by omega⟩
    · refine .inr ⟨rfl, by omega, fun hgood => hbad ((Usable.congr hlookup).2 ?_)⟩
      rwa [hnext]
  · cases j with
    | zero =>
      -- the later bytes go elsewhere
      rw [add_zero, hm.frame _ (h.ch_ne huse) fun j hj => ?_, hbyte]
      · rfl
      · rw [hphys, hnext]
        exact h.leaves.phys_ne huse (husable j hj) (add64_ne (by omega) (by omega) (by omega))
    | succ j =>
      have hj' := hm.bytes j (by omega)
      rwa [hphys, hnext] at hj'
  · rw [hm.frame a hch fun j hj => ?_, hframe a hch (ha 0 (succ_pos m))]
    rw [hphys, hnext]
    exact ha (j + 1) (by omega)

theorem copyLoop_spec (h : Ready kend s root ch)
    (hq : Contents pipesize pi.data pi.nread pi.nwrite q) (hi : i + q.length ≤ 2 ^ 64) :
    Runs (copyLoop root addr ch rounds pi i) s fun r t => ∃ m k,
      Moved s t root ch (fun j => add64 addr (i + j)) q rounds m k ∧ r.2 = (i + m : ℕ) ∧
      r.1 = { pi with nread := pi.nread + BitVec.ofNat 32 k } := by
  induction rounds generalizing s pi q i with
  | zero => exact .ret ⟨0, 0, .nothing (zero_min _), rfl, by simp⟩
  | succ rounds ih =>
    rw [copyLoop]
    by_cases hempty : pi.nread = pi.nwrite
    · rw [if_pos hempty]
      obtain rfl := (hq.eq_iff (by decide)).1 hempty
      exact .ret ⟨0, 0, .nothing (min_zero _), rfl, by simp⟩
    rw [if_neg hempty]
    obtain ⟨rest, rfl, hrest⟩ := hq.pop (by decide) (by decide) hempty
    generalize pi.data (pi.nread.toNat % pipesize) = x
    rw [length_cons] at hi
    rw [← bind_assoc]
    refine (copy_byte h (add64 addr i) x).bind ?_
    rintro r u ⟨huse, hready, hlookup, hbyte, hframe⟩
    cases r with
    | false =>
      have hbad : ¬ Usable s root true (add64 addr (i + 0)) := fun hgood => nomatch huse.2 hgood
      refine .ret ⟨0, 1, ⟨zero_le _, ?_, ?_, hlookup, ?_, ?_⟩, rfl, rfl⟩
      · exact fun j hj => absurd hj (not_lt_zero j)
      · exact .inr ⟨rfl, by simp, hbad⟩
      · exact fun j hj => absurd hj (not_lt_zero j)
      · exact fun a hch _ => hframe a hch fun hr => nomatch hr
    | true =>
      refine (@ih (i + 1) u _ rest hready hrest (by omega)).mono ?_
      rintro ⟨pi', v⟩ t ⟨m, k, hm, hv, hpi⟩
      refine ⟨m + 1, k + 1, hm.cons h (huse.1 rfl) hlookup (hbyte rfl)
        (fun a hch ha => hframe a hch fun _ => ha) hi, ?_, ?_⟩
      · rw [hv, add_assoc, add_comm 1 m]
      · rw [hpi, BitVec.add_assoc]
        congr 2
        apply BitVec.eq_of_toNat_eq
        simp [add_comm]

end copy

/-! ## Reads one after the other -/

/-- What a call of `piperead` copies with: memory, the reader's page table, the user address and the
address of the variable. -/
structure Dest where
  kend : ℕ
  mem : Phys
  pagetable : ℕ
  addr : ℕ
  ch : ℕ
  ready : Ready kend mem pagetable ch

def Dest.Writable (d : Dest) (m : ℕ) :
    Prop := ∀ j < m, Usable d.mem d.pagetable true (add64 d.addr j)

def Dest.found (d : Dest) (t : Phys) (r : ℤ) : List UInt8 :=
  (List.range r.toNat).map fun j => t.byte (t.phys d.pagetable (add64 d.addr j))

structure Stream where
  pipe : Pipe
  put : List UInt8
  got : List UInt8

inductive Call
  | put (x : UInt8)
  | read (d : Dest) (n : ℤ) (killed : Bool)
  | close (writable : Bool)

namespace Stream

def step (s : Stream) : Call → Option Stream
  | .put x =>
    if s.pipe.readopen = false ∨ s.pipe.nwrite = s.pipe.nread + BitVec.ofNat 32 pipesize then none
    else some { s with
      pipe := { s.pipe with
        data := Function.update s.pipe.data (s.pipe.nwrite.toNat % pipesize) x
        nwrite := s.pipe.nwrite + 1 }
      put := s.put ++ [x] }
  | .read d n killed =>
    (piperead d.pagetable d.addr d.ch n killed s.pipe).bind fun m =>
      match m d.mem with
      | .ok ((pi, r), t) => some { s with pipe := pi, got := s.got ++ d.found t r }
      | .error _ => none
  | .close writable =>
    some { s with pipe :=
      if writable then { s.pipe with writeopen := false } else { s.pipe with readopen := false } }

def fresh (data : ℕ → UInt8) : Stream := ⟨⟨data, 0, 0, true, true⟩, [], []⟩

/-- A read finds that the user may write all the bytes that there are for it. -/
def Fits (s : Stream) : Call → Prop
  | .read d n _ => d.Writable (min n.toNat (s.pipe.nwrite - s.pipe.nread).toNat)
  | _ => True

/-- Every byte written has been returned or is still in the pipe. -/
def Whole (s : Stream) : Prop :=
  ∃ q, Contents pipesize s.pipe.data s.pipe.nread s.pipe.nwrite q ∧ s.put = s.got ++ q

def Lossy (s : Stream) : Prop :=
  ∃ q, Contents pipesize s.pipe.data s.pipe.nread s.pipe.nwrite q ∧
    s.got.length + q.length < s.put.length

variable {s t : Stream} {d : Dest} {n : ℤ} {killed : Bool} {q : List UInt8}

theorem Whole.not_lossy (h : s.Whole) : ¬ s.Lossy := by
  rintro ⟨q', hq', hlt⟩
  obtain ⟨q, hq, hput⟩ := h
  have hlen : q.length = q'.length :=
    (hq.toNat_sub (by decide)).symm.trans (hq'.toNat_sub (by decide))
  rw [hput, length_append] at hlt
  omega

theorem found_eq {u : Phys} {rounds m k : ℕ}
    (hm : Moved d.mem u d.pagetable d.ch (fun j => add64 d.addr (0 + j)) q rounds m k) :
    d.found u (m : ℤ) = q.take m := by
  have hle := hm.le
  apply ext_getElem
  · simp only [Dest.found, length_map, length_range, length_take, Int.toNat_natCast]
    omega
  · intro j hj _
    simp only [Dest.found, length_map, length_range, Int.toNat_natCast] at hj
    have hbyte := hm.bytes j hj
    rw [zero_add] at hbyte
    simp only [Dest.found, getElem_map, getElem_range, getElem_take]
    rw [phys_congr hm.lookup, hbyte, getD_eq_getElem?_getD, List.getElem?_eq_getElem (by omega),
      Option.getD_some]

/-- A call of `piperead`: `m` bytes are returned, and one more is gone from the pipe if the user may
not write all that there are. -/
theorem read_cases (hq : Contents pipesize s.pipe.data s.pipe.nread s.pipe.nwrite q)
    (hs : step s (.read d n killed) = some t) : ∃ m k, m ≤ q.length ∧ k ≤ q.length ∧ t = { s with
        pipe := { s.pipe with nread := s.pipe.nread + BitVec.ofNat 32 k }
        got := s.got ++ q.take m } ∧
      (k = m ∧ s.Fits (.read d n killed) ∨ k = m + 1 ∧ ¬ s.Fits (.read d n killed)) := by
  have hcount := hq.toNat_sub (by decide)
  simp only [step, piperead] at hs
  by_cases hwait : s.pipe.nread = s.pipe.nwrite ∧ s.pipe.writeopen = true
  · obtain rfl := (hq.eq_iff (by decide)).1 hwait.1
    rw [if_pos hwait] at hs
    cases killed with
    | false => cases hs
    | true =>
      cases hs
      refine ⟨0, 0, le_rfl, le_rfl, ?_, .inl ⟨rfl, fun j hj => ?_⟩⟩
      · simp [Dest.found]
      · rw [hcount] at hj
        exact absurd hj (by simp)
  · rw [if_neg hwait] at hs
    have hlen := hq.length_le
    obtain ⟨⟨pi', r⟩, u, hrun, m, k, hm, hr, hpi⟩ :=
      @copyLoop_spec _ _ _ d.addr 0 n.toNat _ _ _ d.ready hq (by unfold pipesize at hlen; omega)
    rw [Option.bind_some, hrun] at hs
    cases hs
    have hle := hm.le
    have hgone := hm.gone
    simp only [zero_add, ← hcount] at hgone
    simp only [zero_add] at hr hpi
    refine ⟨m, k, by omega, ?_, ?_, hgone⟩
    · rcases hm.taken with ⟨rfl, -⟩ | ⟨rfl, hlt, -⟩ <;> omega
    · rw [hpi, hr, found_eq hm]

theorem Whole.read (h : s.Whole) (hs : step s (.read d n killed) = some t) :
    (s.Fits (.read d n killed) → t.Whole) ∧ (¬ s.Fits (.read d n killed) → t.Lossy) := by
  obtain ⟨q, hq, hput⟩ := h
  obtain ⟨m, k, hm, hk, rfl, hgone⟩ := read_cases hq hs
  have hrest := hq.drop (by decide) hk
  rcases hgone with ⟨rfl, hfits⟩ | ⟨rfl, hfits⟩
  · refine ⟨fun _ => ⟨q.drop k, hrest, ?_⟩, fun hnot => absurd hfits hnot⟩
    rw [hput, append_assoc, take_append_drop]
  · refine ⟨fun hfit => absurd hfit hfits, fun _ => ⟨q.drop (m + 1), hrest, ?_⟩⟩
    simp only [hput, length_append, length_take, length_drop]
    omega

theorem Lossy.read (h : s.Lossy) (hs : step s (.read d n killed) = some t) : t.Lossy := by
  obtain ⟨q, hq, hlt⟩ := h
  obtain ⟨m, k, hm, hk, rfl, hgone⟩ := read_cases hq hs
  refine ⟨q.drop k, hq.drop (by decide) hk, ?_⟩
  have hmk : m ≤ k := by rcases hgone with ⟨rfl, -⟩ | ⟨rfl, -⟩ <;> omega
  simp only [length_append, length_take, length_drop]
  omega

theorem put_close_keeps {c : Call} (hc : ∀ d n killed, c ≠ .read d n killed)
    (hs : step s c = some t) (hq : Contents pipesize s.pipe.data s.pipe.nread s.pipe.nwrite q) :
    ∃ new, Contents pipesize t.pipe.data t.pipe.nread t.pipe.nwrite (q ++ new) ∧
    t.put = s.put ++ new ∧
      t.got = s.got := by
  cases c with
  | read d n killed => exact absurd rfl (hc d n killed)
  | put x =>
    simp only [step] at hs
    split at hs
    next => cases hs
    next hroom =>
      cases hs
      exact ⟨[x], hq.push (by decide) (by decide) (fun hfull => hroom (.inr hfull)) x, rfl, rfl⟩
  | close writable =>
    cases hs
    refine ⟨[], ?_, (append_nil _).symm, rfl⟩
    rw [append_nil]
    cases writable <;> exact hq

theorem Whole.step {c : Call} (h : s.Whole) (hs : Stream.step s c = some t) :
    (s.Fits c → t.Whole) ∧ (¬ s.Fits c → t.Lossy) := by
  by_cases hc : ∃ d n killed, c = .read d n killed
  · obtain ⟨d, n, killed, rfl⟩ := hc
    exact h.read hs
  · obtain ⟨q, hq, hput⟩ := h
    have hc' : ∀ d n killed, c ≠ .read d n killed := fun d n killed heq => hc ⟨d, n, killed, heq⟩
    obtain ⟨new, hnew, hput', hgot⟩ := put_close_keeps hc' hs hq
    refine ⟨fun _ => ⟨q ++ new, hnew, by rw [hput', hput, hgot, append_assoc]⟩, fun hnot => ?_⟩
    cases c with
    | read d n killed => exact absurd rfl (hc' d n killed)
    | put x => exact absurd trivial hnot
    | close writable => exact absurd trivial hnot

theorem Lossy.step {c : Call} (h : s.Lossy) (hs : Stream.step s c = some t) : t.Lossy := by
  by_cases hc : ∃ d n killed, c = .read d n killed
  · obtain ⟨d, n, killed, rfl⟩ := hc
    exact h.read hs
  · obtain ⟨q, hq, hlt⟩ := h
    obtain ⟨new, hnew, hput, hgot⟩ :=
      put_close_keeps (fun d n killed heq => hc ⟨d, n, killed, heq⟩) hs hq
    refine ⟨q ++ new, hnew, ?_⟩
    rw [hput, hgot, length_append, length_append]
    omega

theorem Whole.run_iff {calls : List Call} (h : s.Whole) (hrun : run Stream.step s calls = some t) :
    t.Whole ↔ Along Stream.step Fits s calls := by
  induction calls generalizing s with
  | nil =>
    cases hrun
    exact iff_of_true h trivial
  | cons c calls ih =>
    obtain ⟨u, hu, hrest⟩ := (run_cons_eq_some Stream.step s t c calls).1 hrun
    by_cases hfit : s.Fits c
    · rw [ih ((h.step hu).1 hfit) hrest]
      refine ⟨fun htail => ⟨hfit, ?_⟩, fun hall => hall.tail hu⟩
      rw [hu]
      exact htail
    · have hlossy : t.Lossy :=
        run_invariant_all (fun _ _ _ hl hstep => hl.step hstep) ((h.step hu).2 hfit) hrest
      exact iff_of_false (fun hwhole => hwhole.not_lossy hlossy) fun hall => hfit hall.1

theorem fresh_whole (data : ℕ → UInt8) : (fresh data).Whole := ⟨[], .empty data 0, rfl⟩

end Stream

/-- A call of `piperead` that copies stores the bytes that it returns, and `nread` goes on by as
many exactly if the user may write all the bytes that there are for the call. In a run of calls the
bytes returned and those still in the pipe are the bytes written exactly if this holds of every
read. -/
theorem piperead_loses_nothing_iff (d : Dest) (n : ℤ) {pi : Pipe}
    (hcount : (pi.nwrite - pi.nread).toNat ≤ pipesize) {data : ℕ → UInt8} {calls : List Call}
    {s : Stream} (hcalls : run Stream.step (Stream.fresh data) calls = some s) :
    (∃ (r : ℕ) (pi' : Pipe) (t : Phys), copyLoop d.pagetable d.addr d.ch n.toNat pi 0 d.mem =
      .ok ((pi', r), t) ∧
      (r = min n.toNat (pi.nwrite - pi.nread).toNat ∨ r < min n.toNat (pi.nwrite - pi.nread).toNat ∧
        ¬ Usable d.mem d.pagetable true (add64 d.addr r)) ∧
        (∀ j < r, Usable d.mem d.pagetable true (add64 d.addr j) ∧
        t.byte (d.mem.phys d.pagetable (add64 d.addr j)) =
        pi.data ((pi.nread.toNat + j) % pipesize)) ∧
      (∀ a, a ≠ d.ch → (∀ j < r, a ≠ d.mem.phys d.pagetable (add64 d.addr j)) →
        t.byte a = d.mem.byte a) ∧
      (pi'.nread = pi.nread + BitVec.ofNat 32 r ↔
        d.Writable (min n.toNat (pi.nwrite - pi.nread).toNat))) ∧
    ((∃ q, Contents pipesize s.pipe.data s.pipe.nread s.pipe.nwrite q ∧ s.put = s.got ++ q) ↔
      Along Stream.step Stream.Fits (Stream.fresh data) calls) := by
  refine ⟨?_, (Stream.fresh_whole data).run_iff hcalls⟩
  obtain ⟨q, hlen, hq⟩ := exists_contents pi.data hcount
  obtain ⟨⟨pi', r⟩, t, hrun, m, k, hm, hr, hpi⟩ :=
    @copyLoop_spec _ _ _ d.addr 0 n.toNat _ _ _ d.ready hq (by unfold pipesize at hcount; omega)
  obtain rfl : r = m := by simpa using hr
  have hle := hm.le
  have hgone := hm.gone
  have htaken := hm.taken
  simp only [zero_add, hlen] at hgone htaken
  simp only at hpi
  refine ⟨m, pi', t, hrun, htaken.imp And.right And.right, fun j hj => ⟨?_, ?_⟩,
    fun a hch ha => hm.frame a hch fun j hj => ?_, ?_⟩
  · simpa only [zero_add] using hm.usable j hj
  · have hbyte := hm.bytes j hj
    rwa [zero_add, getD_eq_getElem?_getD, List.getElem?_eq_getElem (by omega), Option.getD_some,
      ← hq.get j (by omega)] at hbyte
  · rw [zero_add]
    exact ha j hj
  · rw [hpi]
    rcases hgone with ⟨rfl, hfits⟩ | ⟨rfl, hfits⟩
    · exact iff_of_true rfl hfits
    · refine iff_of_false (fun heq => ?_) hfits
      have hone := congrArg BitVec.toNat ((BitVec.add_right_inj _).1 heq)
      unfold pipesize at hcount
      rw [BitVec.toNat_ofNat, BitVec.toNat_ofNat, mod_eq_of_lt (by omega),
        mod_eq_of_lt (by omega)] at hone
      omega

theorem exists_dest (addr : ℕ) : ∃ d : Dest, d.addr = addr ∧
    ∀ x < maxva, Usable d.mem d.pagetable true x ↔ x < pgsize := by
  obtain ⟨s, -, hs, hlookup, hnodes, -, -⟩ := exists_onePage
  obtain ⟨hl, hbuf, hout, husable⟩ := onePage_apart hlookup hnodes
  have hready : Ready kernbase s tablePage (userPage + 4096) :=
    ⟨hs, hl, fun i hi => hbuf i (by omega), fun i hi => hout i (by omega)⟩
  refine ⟨⟨kernbase, s, tablePage, addr, userPage + 4096, hready⟩, rfl,
    fun x hx => ⟨fun hu => ?_, husable x⟩⟩
  obtain ⟨-, pte, hpte, -⟩ := hu
  have hmax := maxva_lt
  by_contra hlarge
  simp only at hpte
  rw [hlookup x (by omega), if_neg hlarge] at hpte
  cases hpte

theorem piperead_loses_nothing_twoBytes : ∃ (d : Dest) (pi' : Pipe) (t : Phys),
    copyLoop d.pagetable d.addr d.ch 2 ⟨fun j => if j = 0 then 7 else 8, 0, 2, true, true⟩ 0 d.mem =
      .ok ((pi', 2), t) ∧ pi'.nread = 2 := by
  obtain ⟨d, haddr, husable⟩ := exists_dest 10
  have hmax := maxva_eq
  have hgood (j : ℕ) (hj : j < 2) : Usable d.mem d.pagetable true (add64 d.addr j) := by
    rw [haddr, add64, husable _ (by omega), pgsize]
    omega
  let pi : Pipe := ⟨fun j => if j = 0 then 7 else 8, 0, 2, true, true⟩
  have hcount : (pi.nwrite - pi.nread).toNat ≤ pipesize := by decide
  have hnone : run Stream.step (Stream.fresh fun _ => 0) [] = some (Stream.fresh fun _ => 0) := rfl
  have hall : min (Int.toNat 2) (pi.nwrite - pi.nread).toNat = 2 := by decide
  obtain ⟨r, pi', t, hrun, hr, -, -, hiff⟩ := (piperead_loses_nothing_iff d 2 hcount hnone).1
  rw [hall] at hr hiff
  obtain rfl : r = 2 := hr.elim id fun hbad => absurd (hgood r hbad.1) hbad.2
  exact ⟨d, pi', t, hrun, hiff.2 hgood⟩

/-- The reader's buffer is not mapped: the byte is gone, and the read returned nothing. -/
theorem piperead_loses_byte : ∃ (d : Dest) (s : Stream),
    run Stream.step (Stream.fresh fun _ => 0) [.put 7, .read d 1 false] = some s ∧
    s.put = [7] ∧ s.got = [] ∧
      s.pipe.nread = s.pipe.nwrite := by
  obtain ⟨d, haddr, husable⟩ := exists_dest pgsize
  have hmax := maxva_eq
  have hbad : ¬ Usable d.mem d.pagetable true (add64 d.addr (0 + 0)) := by
    rw [haddr, add64, pgsize, husable _ (by omega), pgsize]
    omega
  let pi : Pipe := ⟨Function.update (fun _ => 0) 0 7, 0, 1, true, true⟩
  have hq : Contents pipesize pi.data pi.nread pi.nwrite [7] :=
    (Contents.empty (fun _ => 0) (0 : BitVec 32)).push (by decide) (by decide) (by decide) 7
  obtain ⟨⟨pi', r⟩, t, hrun, m, k, hm, hr, hpi⟩ :=
    @copyLoop_spec _ _ _ d.addr 0 1 _ _ _ d.ready hq (by decide)
  obtain rfl : m = 0 := Nat.eq_zero_of_not_pos fun hpos => hbad (hm.usable 0 hpos)
  obtain ⟨rfl, -⟩ := hm.taken.resolve_left fun h => absurd h.2 (by decide)
  obtain rfl : r = 0 := hr
  simp only at hpi
  have hput : Stream.step (Stream.fresh fun _ => 0) (.put 7) = some ⟨pi, [7], []⟩ := rfl
  have hread : Stream.step ⟨pi, [7], []⟩ (.read d 1 false) = some ⟨pi', [7], []⟩ := by
    simp only [Stream.step, piperead]
    rw [if_neg (by decide), Option.bind_some, Int.toNat_one, hrun]
    rfl
  refine ⟨d, ⟨pi', [7], []⟩, ?_, rfl, rfl, ?_⟩
  · rw [run, hput, Option.bind_some, run, hread]
    rfl
  · rw [hpi]
    rfl

end Xv6.Pipes
