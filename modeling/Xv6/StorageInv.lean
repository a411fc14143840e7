import Xv6.Storage

/-!
# Invariant of buffer cache, log and disk

`BufInv` is about the cached copies: which copy of a block is current, and that a buffer that is
locked, referenced or pinned is counted. `LogInv` relates the log header, the log blocks and the
home blocks on disk to the history. `Stage` says what is known at each position of `commit` and
`recover_from_log`, and `Held` which buffers the process has locked there.
-/

namespace Xv6.Storage

open Function List

variable {P : Type}

def Call.refs (t : Slot) : Call → Bool
  | .lock u | .unref u => decide (u = t)
  | .fill _ => false

namespace Sys

variable (s : Sys P)

def pinned : List ℕ := s.log.lh.drop s.gh.unpinned

def Cached (t : Slot) (b : ℕ) : Prop := (s.bufs t).dev = rootDev ∧ (s.bufs t).blockno = b

def DirtyAt (b : ℕ) : Prop := ∃ t, s.gh.dirty t = true ∧ (s.bufs t).blockno = b

def head : List ℕ := (s.disk s.log.start).getHead

def durable : Disk := s.gh.after s.gh.ncommit

def Held (p : P) (t : Slot) (b : ℕ) : Prop :=
  (s.bufs t).lock = some p ∧ s.Cached t b ∧ s.gh.dirty t = false

def wanted : Loc → Option ℕ
  | .wlTo tail | .itLog _ tail => some (s.log.start + tail + 1)
  | .wlFrom tail _ | .itDst _ tail _ => some (s.lhBlock tail)
  | .whGet _ | .rhGet => some s.log.start
  | _ => none

/-- The buffers that a process has locked at this position, with the blocks they hold. A buffer
whose `brelse` has begun is not locked any more. -/
def holds : Thread → List (Slot × ℕ)
  | ⟨.wlFrom tail tbuf, _⟩ => [(tbuf, s.log.start + tail + 1)]
  | ⟨.wlMove tail tbuf fbuf, _⟩ => [(tbuf, s.log.start + tail + 1), (fbuf, s.lhBlock tail)]
  | ⟨.wlRelFrom tail tbuf fbuf, none⟩ => [(tbuf, s.log.start + tail + 1), (fbuf, s.lhBlock tail)]
  | ⟨.wlRelFrom tail tbuf _, some _⟩ => [(tbuf, s.log.start + tail + 1)]
  | ⟨.wlRelTo tail tbuf, none⟩ => [(tbuf, s.log.start + tail + 1)]
  | ⟨.whPut _ buf, _⟩ => [(buf, s.log.start)]
  | ⟨.whRel _ buf, none⟩ => [(buf, s.log.start)]
  | ⟨.itDst _ tail lbuf, _⟩ => [(lbuf, s.log.start + tail + 1)]
  | ⟨.itMove _ tail lbuf dbuf, _⟩ => [(lbuf, s.log.start + tail + 1), (dbuf, s.lhBlock tail)]
  | ⟨.itUnpin tail lbuf dbuf, _⟩ => [(lbuf, s.log.start + tail + 1), (dbuf, s.lhBlock tail)]
  | ⟨.itRelLog _ tail lbuf dbuf, none⟩ => [(lbuf, s.log.start + tail + 1), (dbuf, s.lhBlock tail)]
  | ⟨.itRelLog _ tail _ dbuf, some _⟩ => [(dbuf, s.lhBlock tail)]
  | ⟨.itRelDst _ tail dbuf, none⟩ => [(dbuf, s.lhBlock tail)]
  | ⟨.rhRead buf, _⟩ => [(buf, s.log.start)]
  | ⟨.rhRel buf, none⟩ => [(buf, s.log.start)]
  | _ => []

/-- Before the header write of a commit, with `k` log blocks written. -/
def Writing (k : ℕ) : Prop :=
  s.up = true ∧ s.head = [] ∧ s.gh.ncommit + 1 = s.gh.groups.length ∧ s.gh.unpinned = 0 ∧
    s.gh.logged = k

/-- The header on disk and in memory agree; `i` blocks are home and `u` are unpinned. -/
def Installing (r : Bool) (i u : ℕ) : Prop :=
  s.up = !r ∧ s.head = s.log.lh ∧ s.gh.ncommit = s.gh.groups.length ∧ s.gh.logged = 0 ∧
    s.gh.installed = i ∧ s.gh.unpinned = if r then s.log.lh.length else u

/-- Everything that the header on disk lists is home. -/
def Installed (up : Bool) : Prop :=
  s.up = up ∧ s.log.lh = [] ∧ s.gh.ncommit = s.gh.groups.length ∧ s.gh.logged = 0 ∧
    s.gh.installed = s.head.length ∧ s.gh.unpinned = 0

/-- No transaction is on disk. -/
def Erased (up : Bool) : Prop :=
  s.up = up ∧ s.log.lh = [] ∧ s.head = [] ∧ s.gh.ncommit = s.gh.groups.length ∧ s.gh.logged = 0 ∧
    s.gh.unpinned = 0

def Stage : Loc → Prop
  | .client => False
  | .wlTo tail | .wlFrom tail _ | .wlMove tail _ _ => tail < s.log.lh.length ∧ s.Writing tail
  | .wlRelFrom tail _ _ | .wlRelTo tail _ => tail < s.log.lh.length ∧ s.Writing (tail + 1)
  | .whGet .commit | .whPut .commit _ => s.Writing s.log.lh.length
  | .whRel .commit _ => s.Installing false 0 0
  | .itLog r tail | .itDst r tail _ | .itMove r tail _ _ =>
    tail < s.log.lh.length ∧ s.Installing r tail tail
  | .itUnpin tail _ _ => tail < s.log.lh.length ∧ s.Installing false (tail + 1) tail
  | .itRelLog r tail _ _ | .itRelDst r tail _ =>
    tail < s.log.lh.length ∧ s.Installing r (tail + 1) (tail + 1)
  | .clear r => s.Installing r s.log.lh.length s.log.lh.length
  | .whGet .erase | .whPut .erase _ => s.Installed true
  | .whGet .recover | .whPut .recover _ => s.Installed false
  | .whRel .erase _ | .done => s.Erased true
  | .whRel .recover _ => s.Erased false
  | .rhGet | .rhRead _ =>
    s.up = false ∧ s.log.lh = [] ∧ s.gh.ncommit = s.gh.groups.length ∧ s.gh.logged = 0 ∧
      s.gh.installed = 0 ∧ s.gh.unpinned = 0
  | .rhRel _ => s.Installing true 0 0

def Idle : Prop :=
  s.up = true ∧ s.log.committing = false ∧ s.head = [] ∧ s.gh.ncommit = s.gh.groups.length ∧
    s.gh.unpinned = 0 ∧ s.gh.logged = 0 ∧ ∀ p, (s.thr p).loc = .client

def releases : Loc → Bool
  | .wlRelFrom .. | .wlRelTo .. | .whRel .. | .itRelLog .. | .itRelDst .. | .rhRel .. => true
  | _ => false

/-- A process in the middle of a call stands where this call is made. -/
def CallOk : Thread → Prop
  | ⟨_, none⟩ => True
  | ⟨loc, some (.lock t)⟩ | ⟨loc, some (.fill t)⟩ => ∃ b, s.wanted loc = some b ∧ s.Cached t b
  | ⟨loc, some (.unref _)⟩ => releases loc = true

structure Busy (p : P) : Prop where
  stage : s.Stage (s.thr p).loc
  others : ∀ q, q ≠ p → (s.thr q).loc = .client
  committing : s.log.committing = s.up
  closed : s.gh.cur = []
  held : ∀ x ∈ s.holds (s.thr p), s.Held p x.1 x.2
  callOk : s.CallOk (s.thr p)

end Sys

variable {s : Sys P} {B : Bufs P} {T : P → Thread} {g : Ghost} {t : Slot} {l : Log}
    {b : ℕ} {x : Block}

/-! ## The history -/

theorem replay_append (d : Disk) (ws vs : List Write) :
    replay d (ws ++ vs) = replay (replay d ws) vs := foldl_append

theorem Ghost.latest_append (g : Ghost) (w : Write) :
    { g with cur := g.cur ++ [w] }.latest = update g.latest w.block w.data := by
  unfold Ghost.latest
  rw [← append_assoc, replay_append]
  rfl

theorem Ghost.after_eq_latest {k : ℕ} (hk : g.groups.length ≤ k) (hcur : g.cur = []) :
    g.after k = g.latest := by
  unfold Ghost.after Ghost.latest
  rw [take_of_length_le hk, hcur, append_nil]

theorem find_eq_some {bufs : Bufs P} {dev b : ℕ} (h : find bufs dev b = some t) :
    (bufs t).dev = dev ∧ (bufs t).blockno = b := by
  have := List.find?_some h
  simpa using this

theorem find_eq_none {bufs : Bufs P} {dev b : ℕ} (h : find bufs dev b = none) (t : Slot) :
    ¬ ((bufs t).dev = dev ∧ (bufs t).blockno = b) := by
  have := List.find?_eq_none.1 h t (mem_finRange t)
  simpa using this

theorem head_bwrite (hb : s.log.start ≠ b) :
    Sys.head { s with bufs := B, disk := update s.disk b x, thr := T, gh := g } = s.head :=
  congrArg Block.getHead (update_of_ne hb ..)

theorem head_write {bs : List ℕ} (hx : x.getHead = bs) :
    Sys.head { s with bufs := B, disk := update s.disk s.log.start x, thr := T, gh := g } = bs :=
  (congrArg Block.getHead (update_self ..)).trans hx

/-! ## The invariant -/

variable [Fintype P]

/-- Processes inside `bread` or `brelse` that count a reference to `t` without its lock. -/
def calls (thr : P → Thread) (t : Slot) : ℕ :=
  (Finset.univ.filter fun p => (thr p).call.any (Call.refs t)).card

structure BufInv (s : Sys P) : Prop where
  uniq : ∀ t u, (s.bufs t).dev = rootDev → (s.bufs u).dev = rootDev →
    (s.bufs t).blockno = (s.bufs u).blockno → t = u
  live : ∀ t, (s.bufs t).dev ≠ rootDev → (s.bufs t).refcnt = 0
  ref : ∀ t, (s.bufs t).refcnt = (if (s.bufs t).lock = none then 0 else 1) + calls s.thr t +
    if (s.bufs t).dev = rootDev ∧ (s.bufs t).blockno ∈ s.pinned then 1 else 0
  fill : ∀ p t, (s.thr p).call = some (.fill t) → (s.bufs t).lock = some p ∧ s.gh.dirty t = false
  heldValid : ∀ p t, (s.bufs t).lock = some p → (s.thr p).call ≠ some (.fill t) →
    (s.bufs t).valid = true
  dirtyHeld : ∀ t, s.gh.dirty t = true → (s.bufs t).lock ≠ none ∧ (s.bufs t).valid = true ∧
    (s.bufs t).dev = rootDev ∧ ¬ s.log.Area (s.bufs t).blockno ∧ s.up = true
  clean : ∀ t, (s.bufs t).valid = true → (s.bufs t).dev = rootDev →
    (s.bufs t).blockno ∉ s.pinned → s.gh.dirty t = false →
    (s.bufs t).data = s.disk (s.bufs t).blockno
  hot : s.up = true → ∀ t, (s.bufs t).valid = true → (s.bufs t).dev = rootDev →
    ¬ s.log.Area (s.bufs t).blockno → (s.bufs t).data = s.gh.view (s.bufs t).blockno
  cold : s.up = true → ∀ b, ¬ s.log.Area b → b ∉ s.pinned → ¬ s.DirtyAt b → s.disk b = s.gh.view b
  pinCached : ∀ b ∈ s.pinned, ∃ t, s.Cached t b ∧ (s.bufs t).valid = true
  range : ∀ t, (s.bufs t).dev = rootDev → (s.bufs t).blockno < 2 ^ 32
  pinCount : ∀ b, s.gh.pins b = s.gh.unpins b + if b ∈ s.pinned then 1 else 0

/-- A log header may list these blocks. -/
structure Header (l : Log) (bs : List ℕ) : Prop where
  nodup : bs.Nodup
  home : ∀ b ∈ bs, ¬ l.Area b ∧ b < 2 ^ 32
  length : bs.length ≤ l.size - 1 ∧ bs.length ≤ logSize

structure LogInv (s : Sys P) : Prop where
  lh : Header s.log s.log.lh
  size : 0 < s.log.size ∧ s.log.start + s.log.size ≤ 2 ^ 32
  logged : s.up = true → ∀ b, ¬ s.log.Area b → ¬ s.DirtyAt b → s.gh.view b = s.gh.latest b
  booting : s.up = false → s.gh.view = s.durable
  uncommitted : ∀ b, b ∉ s.log.lh → s.gh.latest b = s.durable b
  head : Header s.log s.head
  headData : ∀ i, (h : i < s.head.length) →
    s.disk (s.log.start + 1 + i) = s.durable (s.head.get ⟨i, h⟩)
  homeData : ∀ b, ¬ s.log.Area b → b ∉ s.head.drop s.gh.installed → s.disk b = s.durable b
  logData : ∀ i, i < s.gh.logged → (h : i < s.log.lh.length) →
    s.disk (s.log.start + 1 + i) = s.gh.latest (s.log.lh.get ⟨i, h⟩)
  ops : s.log.committing = true → ∀ p, s.op p = none
  outstanding : s.log.outstanding = (Finset.univ.filter fun p => (s.op p).isSome).card
  counts : s.gh.nreturn ≤ s.gh.ncommit ∧ s.gh.ncommit ≤ s.gh.groups.length

structure Inv (s : Sys P) : Prop where
  buf : BufInv s
  log : LogInv s
  mode : s.Idle ∨ ∃ p, s.Busy p

/-! ## `bread` and `brelse`

These steps change one buffer and the position of one process; disk, log and history stay. -/

theorem Header.nil : Header l [] := ⟨nodup_nil, by simp, by simp⟩

theorem Header.snoc {bs : List ℕ} {b : ℕ} (h : Header l bs) (hb : b ∉ bs)
    (hhome : ¬ l.Area b ∧ b < 2 ^ 32) (hlog : bs.length < logSize)
    (hsize : bs.length < l.size - 1) :
    Header l (bs ++ [b]) := by
  refine ⟨h.nodup.append (by simp) (by simpa using hb), ?_, ?_⟩
  · intro c hc
    rcases mem_append.1 hc with hc | hc
    · exact h.home c hc
    · rwa [mem_singleton.1 hc]
  · rw [length_append, length_singleton]
    omega

theorem LogInv.logged_bufs (h : LogInv s)
    (hB : ∀ t, s.gh.dirty t = true → (B t).blockno = (s.bufs t).blockno) (hup : s.up = true)
    (b : ℕ) (hb : ¬ s.log.Area b) (hd : ¬ ∃ t, s.gh.dirty t = true ∧ (B t).blockno = b) :
    s.gh.view b = s.gh.latest b := by
  refine h.logged hup b hb ?_
  rintro ⟨t, ht, hbt⟩
  exact hd ⟨t, ht, (hB t ht).trans hbt⟩

theorem LogInv.bufs (h : LogInv s)
    (hB : ∀ t, s.gh.dirty t = true → (B t).blockno = (s.bufs t).blockno) :
    LogInv { s with bufs := B, thr := T } := by
  exact { h with logged := h.logged_bufs hB }

/-- A locked, referenced or pinned buffer is not free for recycling. -/
theorem BufInv.of_refcnt_zero (h : BufInv s) (h0 : (s.bufs t).refcnt = 0) :
    (s.bufs t).lock = none ∧ calls s.thr t = 0 ∧
      ((s.bufs t).dev = rootDev → (s.bufs t).blockno ∉ s.pinned) ∧ s.gh.dirty t = false := by
  have href := h.ref t
  rw [h0] at href
  have hlock : (s.bufs t).lock = none := by
    by_contra hne
    rw [if_neg hne] at href
    omega
  refine ⟨hlock, by omega, ?_, ?_⟩
  · intro hdev hmem
    rw [if_pos hlock, if_pos ⟨hdev, hmem⟩] at href
    omega
  · by_contra hd
    exact (h.dirtyHeld t (by simpa using hd)).1 hlock

theorem refs_eq_false_of_calls (h : calls s.thr t = 0) (p : P) :
    (s.thr p).call.any (Call.refs t) = false := by
  unfold calls at h
  rw [Finset.card_eq_zero, Finset.filter_eq_empty_iff] at h
  simpa using h (Finset.mem_univ p)

theorem calls_pos (thr : P → Thread) (p : P) (t : Slot)
    (h : (thr p).call.any (Call.refs t) = true) : 0 < calls thr t :=
  Finset.card_pos.2 ⟨p, by simp [h]⟩

theorem BufInv.dev_of_refs (h : BufInv s) {p : P}
    (hr : (s.thr p).call.any (Call.refs t) = true) : (s.bufs t).dev = rootDev := by
  by_contra hdev
  have h0 := (h.of_refcnt_zero (h.live t hdev)).2.1
  have := calls_pos s.thr p t hr
  omega

theorem BufInv.dev_of_lock (h : BufInv s) {p : P} (hl : (s.bufs t).lock = some p) :
    (s.bufs t).dev = rootDev := by
  by_contra hdev
  have := (h.of_refcnt_zero (h.live t hdev)).1
  rw [hl] at this
  cases this

section

variable [DecidableEq P] {p : P}

theorem calls_update (thr : P → Thread) (p : P) (th : Thread) (t : Slot) :
    calls (update thr p th) t + (if (thr p).call.any (Call.refs t) then 1 else 0) =
      calls thr t + if th.call.any (Call.refs t) then 1 else 0 := by
  unfold calls
  have hcount (f : P → Thread) : (Finset.univ.filter fun q => (f q).call.any (Call.refs t)).card =
      (if (f p).call.any (Call.refs t) then 1 else 0) +
        ((Finset.univ.erase p).filter fun q => (f q).call.any (Call.refs t)).card := by
    rw [← Finset.insert_erase (Finset.mem_univ p), Finset.filter_insert]
    split_ifs with h
    · rw [Finset.card_insert_of_notMem (by simp), Finset.erase_insert (by simp)]
      omega
    · rw [Finset.erase_insert (by simp)]
      omega
  rw [hcount (update thr p th), hcount thr]
  have hrest : ((Finset.univ.erase p).filter fun q =>
      (update thr p th q).call.any (Call.refs t)) =
        (Finset.univ.erase p).filter fun q => (thr q).call.any (Call.refs t) := by
    apply Finset.filter_congr
    intro q hq
    rw [update_of_ne (Finset.ne_of_mem_erase hq)]
  rw [hrest, update_self]
  omega

theorem BufInv.hit (h : BufInv s) (hcall : (s.thr p).call = none)
    (hdev : (s.bufs t).dev = rootDev) : BufInv { s with
      bufs := update s.bufs t { s.bufs t with refcnt := (s.bufs t).refcnt + 1 }
      thr := update s.thr p ⟨(s.thr p).loc, some (.lock t)⟩ } := by
  have hcalls := calls_update s.thr p ⟨(s.thr p).loc, some (.lock t)⟩
  cases h
  simp only [hcall, Option.any, Call.refs] at hcalls
  constructor <;> simp only [Sys.pinned, Sys.DirtyAt, Sys.Cached, update_apply] at * <;>
    grind

theorem BufInv.miss (h : BufInv s) {v : Slot} {b : ℕ} (hcall : (s.thr p).call = none)
    (hb : ∀ t, ¬ s.Cached t b) (h0 : (s.bufs v).refcnt = 0) (hlt : b < 2 ^ 32) :
    BufInv { s with
      bufs := update s.bufs v { s.bufs v with
        dev := rootDev, blockno := b, valid := false, refcnt := 1 }
      thr := update s.thr p ⟨(s.thr p).loc, some (.lock v)⟩ } := by
  have hcalls := calls_update s.thr p ⟨(s.thr p).loc, some (.lock v)⟩
  obtain ⟨hlock, hzero, hunpinned, hclean0⟩ := h.of_refcnt_zero h0
  have hbpin : b ∉ s.pinned := fun hmem =>
    (h.pinCached b hmem).elim fun t ht => hb t ht.1
  cases h
  simp only [hcall, Option.any, Call.refs] at hcalls
  constructor <;> simp only [Sys.pinned, Sys.DirtyAt, Sys.Cached, update_apply] at * <;>
    grind

theorem BufInv.lock (h : BufInv s) (hcall : (s.thr p).call = some (.lock t))
    (hfree : (s.bufs t).lock = none) :
    BufInv { s with
      bufs := update s.bufs t { s.bufs t with lock := some p }
      thr := update s.thr p ⟨(s.thr p).loc, some (.fill t)⟩ } := by
  have hcalls := calls_update s.thr p ⟨(s.thr p).loc, some (.fill t)⟩
  have hdev := h.dev_of_refs (p := p) (t := t) (by simp [hcall, Call.refs])
  have hpos := calls_pos s.thr p t (by simp [hcall, Call.refs])
  cases h
  simp only [hcall, Option.any, Call.refs] at hcalls
  constructor <;> simp only [Sys.pinned, Sys.DirtyAt, Sys.Cached, update_apply] at * <;>
    grind

theorem BufInv.filled (h : BufInv s) {l : Loc} (hcall : (s.thr p).call = some (.fill t)) :
    BufInv { s with
      bufs := update s.bufs t (if (s.bufs t).valid then s.bufs t else
        { s.bufs t with data := s.disk (s.bufs t).blockno, valid := true })
      thr := update s.thr p ⟨l, none⟩ } := by
  have hcalls := calls_update s.thr p ⟨l, none⟩
  have hlock := (h.fill p t hcall).1
  have hdev := h.dev_of_lock hlock
  cases h
  simp only [hcall, Option.any, Call.refs] at hcalls
  constructor <;> simp only [Sys.pinned, Sys.DirtyAt, Sys.Cached, update_apply] at * <;>
    grind

theorem BufInv.unlock (h : BufInv s) (hcall : (s.thr p).call = none)
    (hlock : (s.bufs t).lock = some p) (hclean0 : s.gh.dirty t = false) :
    BufInv { s with
      bufs := update s.bufs t { s.bufs t with lock := none }
      thr := update s.thr p ⟨(s.thr p).loc, some (.unref t)⟩ } := by
  have hcalls := calls_update s.thr p ⟨(s.thr p).loc, some (.unref t)⟩
  have hdev := h.dev_of_lock hlock
  cases h
  simp only [hcall, Option.any, Call.refs] at hcalls
  constructor <;> simp only [Sys.pinned, Sys.DirtyAt, Sys.Cached, update_apply] at * <;>
    grind

theorem BufInv.unref (h : BufInv s) (loc : Loc) (hcall : (s.thr p).call = some (.unref t)) :
    BufInv { s with
      bufs := update s.bufs t { s.bufs t with refcnt := (s.bufs t).refcnt - 1 }
      thr := update s.thr p ⟨loc, none⟩ } := by
  have hcalls := calls_update s.thr p ⟨loc, none⟩
  have hdev := h.dev_of_refs (p := p) (t := t) (by simp [hcall, Call.refs])
  have hpos := calls_pos s.thr p t (by simp [hcall, Call.refs])
  cases h
  simp only [hcall, Option.any, Call.refs] at hcalls
  constructor <;> simp only [Sys.pinned, Sys.DirtyAt, Sys.Cached, update_apply] at * <;>
    grind

end

theorem BufInv.modify (h : BufInv s) {p : P} (data : Block)
    (hup : s.up = true) (hcall : (s.thr p).call = none) (hlock : (s.bufs t).lock = some p)
    (hhome : ¬ s.log.Area (s.bufs t).blockno) :
    BufInv { s with
      bufs := update s.bufs t { s.bufs t with data := data }
      gh := { s.gh with
        view := update s.gh.view (s.bufs t).blockno data
        dirty := update s.gh.dirty t true } } := by
  have hdev := h.dev_of_lock hlock
  have hvalid := h.heldValid p t hlock (by simp [hcall])
  cases h
  constructor <;> simp only [Sys.pinned, Sys.DirtyAt, Sys.Cached, update_apply] at * <;>
    grind

theorem LogInv.modify (h : LogInv s) (data : Block) (hup : s.up = true) : LogInv { s with
      bufs := update s.bufs t { s.bufs t with data := data }
      gh := { s.gh with
        view := update s.gh.view (s.bufs t).blockno data
        dirty := update s.gh.dirty t true } } := by
  refine { h with logged := ?_, booting := ?_ }
  · intro _ b hb hd
    have hne : b ≠ (s.bufs t).blockno := by
      rintro rfl
      exact hd ⟨t, by simp⟩
    refine (update_of_ne hne _ _).trans (h.logged hup b hb ?_)
    rintro ⟨u, hu, hub⟩
    have hut : u ≠ t := by
      rintro rfl
      exact hne hub.symm
    exact hd ⟨u, by simp [hut, hu], by simp [hut, hub]⟩
  · intro hdown
    simp [hup] at hdown

theorem BufInv.logNew (h : BufInv s) {p : P} {w : List Write}
    (hl : l = { s.log with lh := s.log.lh ++ [(s.bufs t).blockno] })
    (hup : s.up = true) (hcall : (s.thr p).call = none) (hlock : (s.bufs t).lock = some p)
    (hunp : s.gh.unpinned = 0) (hnew : (s.bufs t).blockno ∉ s.log.lh) :
    BufInv { s with
      bufs := update s.bufs t { s.bufs t with refcnt := (s.bufs t).refcnt + 1 }
      log := l
      gh := { s.gh with
        cur := w
        dirty := update s.gh.dirty t false
        pins := update s.gh.pins (s.bufs t).blockno (s.gh.pins (s.bufs t).blockno + 1) } } := by
  have hdev := h.dev_of_lock hlock
  have hvalid := h.heldValid p t hlock (by simp [hcall])
  have hpinned : s.pinned = s.log.lh := by simp [Sys.pinned, hunp]
  have hpinned' : l.lh.drop s.gh.unpinned = s.log.lh ++ [(s.bufs t).blockno] := by
    simp [hl, hunp]
  have harea : ∀ b, l.Area b ↔ s.log.Area b := by
    intro b
    rw [hl]
    rfl
  cases h
  rw [hpinned] at *
  constructor <;>
    simp only [Sys.pinned, hpinned', harea, Sys.DirtyAt, Sys.Cached, update_apply,
      mem_append, mem_singleton] at * <;> grind

theorem BufInv.logAbsorbed (h : BufInv s) {p : P} {w : List Write}
    (hup : s.up = true) (hcall : (s.thr p).call = none) (hlock : (s.bufs t).lock = some p)
    (hunp : s.gh.unpinned = 0) (hold : (s.bufs t).blockno ∈ s.log.lh) :
    BufInv { s with gh := { s.gh with
        cur := w
        dirty := update s.gh.dirty t false } } := by
  have hdev := h.dev_of_lock hlock
  have hvalid := h.heldValid p t hlock (by simp [hcall])
  have hpinned : s.pinned = s.log.lh := by simp [Sys.pinned, hunp]
  cases h
  rw [hpinned] at *
  constructor <;>
    simp only [Sys.pinned, hunp, drop_zero, Sys.DirtyAt, Sys.Cached, update_apply] at * <;> grind

/-- `log_write` adds the block to the log, unless it is there, and the write to the history. -/
theorem LogInv.logWrite (h : LogInv s) (hb : BufInv s) {p : P} {o : ℕ}
    {new : Bool} {pins : ℕ → ℕ} {B : Bufs P} (hB : ∀ u, (B u).blockno = (s.bufs u).blockno)
    (hup : s.up = true) (hcall : (s.thr p).call = none) (hlock : (s.bufs t).lock = some p)
    (hhome : ¬ s.log.Area (s.bufs t).blockno) (hlogged : s.gh.logged = 0)
    (hl : s.log.logWrite (s.bufs t).blockno = .ok (l, new)) :
    LogInv { s with
      bufs := B
      log := l
      gh := { s.gh with
        cur := s.gh.cur ++ [⟨o, (s.bufs t).blockno, (s.bufs t).data⟩]
        dirty := update s.gh.dirty t false
        pins := pins } } := by
  have hdev := hb.dev_of_lock hlock
  have hvalid := hb.heldValid p t hlock (by simp [hcall])
  have hdata := hb.hot hup t hvalid hdev hhome
  have hlatest : ∀ b, ({ s.gh with
      cur := s.gh.cur ++ [⟨o, (s.bufs t).blockno, (s.bufs t).data⟩]
      dirty := update s.gh.dirty t false
      pins := pins } : Ghost).latest b =
        update s.gh.latest (s.bufs t).blockno (s.bufs t).data b := by
    intro b
    exact congrFun (Ghost.latest_append s.gh ⟨o, (s.bufs t).blockno, (s.bufs t).data⟩) b
  -- the header keeps its blocks and lists this one
  obtain ⟨lh, rfl, hmem, hsub, hlh⟩ : ∃ lh, l = { s.log with lh := lh } ∧ (s.bufs t).blockno ∈ lh ∧
      (∀ b ∈ s.log.lh, b ∈ lh) ∧ Header s.log lh := by
    obtain ⟨hlen, hsize, -, ⟨hmem, -, rfl⟩ | ⟨hmem, -, rfl⟩⟩ := Log.logWrite_eq_ok.1 hl
    · exact ⟨_, rfl, hmem, fun _ => id, h.lh⟩
    · exact ⟨_, rfl, by simp, by simp +contextual,
        h.lh.snoc hmem ⟨hhome, hb.range t hdev⟩ hlen hsize⟩
  refine { h with
    lh := { hlh with }, head := { h.head with }
    logged := ?_, booting := ?_, uncommitted := ?_, logData := ?_ }
  · intro _ b hb' hd
    rw [hlatest]
    by_cases hbt : b = (s.bufs t).blockno
    · subst hbt
      rw [update_self]
      exact hdata.symm
    · rw [update_of_ne hbt]
      refine h.logged hup b hb' ?_
      rintro ⟨u, hu, hub⟩
      refine hd ⟨u, ?_, (hB u).trans hub⟩
      have hut : u ≠ t := by
        rintro rfl
        exact hbt hub.symm
      simpa [hut] using hu
  · intro hdown
    simp [hup] at hdown
  · intro b hbl
    rw [hlatest, update_of_ne (by rintro rfl; exact hbl hmem)]
    exact h.uncommitted b (fun hb' => hbl (hsub b hb'))
  · intro i hi
    simp [hlogged] at hi

/-! ## The disk writes of `commit` and `recover_from_log` -/

theorem BufInv.bwrite (h : BufInv s) {data : Block}
    (hg : g.dirty = s.gh.dirty ∧ g.view = s.gh.view ∧ g.pins = s.gh.pins ∧
      g.unpins = s.gh.unpins ∧ g.unpinned = s.gh.unpinned)
    (hdev : (s.bufs t).dev = rootDev)
    (hview : s.up = true → ¬ s.log.Area (s.bufs t).blockno → data = s.gh.view (s.bufs t).blockno) :
    BufInv { s with
      bufs := update s.bufs t { s.bufs t with data := data }
      disk := update s.disk (s.bufs t).blockno data
      gh := g } := by
  cases h
  obtain ⟨hg1, hg2, hg3, hg4, hg5⟩ := hg
  constructor <;>
    simp only [Sys.pinned, Sys.DirtyAt, Sys.Cached, update_apply, hg1, hg2, hg3, hg4, hg5] at * <;>
      grind

theorem LogInv.logBlock (h : LogInv s) {i : ℕ} (hi : i < s.log.lh.length) :
    s.log.Area (s.log.start + i + 1) ∧ s.log.start + i + 1 < 2 ^ 32 := by
  have := h.lh.length
  have := h.size
  unfold Log.Area
  omega

theorem LogInv.headBlock (h : LogInv s) : s.log.Area s.log.start ∧ s.log.start < 2 ^ 32 := by
  have := h.size
  unfold Log.Area
  omega

theorem LogInv.wlMove (h : LogInv s) (hb : b = s.log.start + s.gh.logged + 1)
    (hB : ∀ u, (B u).blockno = (s.bufs u).blockno) (hhead : s.head = [])
    (hi : s.gh.logged < s.log.lh.length)
    (hx : x = s.gh.latest (s.log.lh.get ⟨s.gh.logged, hi⟩)) :
    LogInv { s with
      bufs := B
      disk := update s.disk b x
      thr := T
      gh := { s.gh with logged := s.gh.logged + 1 } } := by
  subst hb
  have hne : s.log.start ≠ s.log.start + s.gh.logged + 1 := by omega
  refine { h with
    logged := h.logged_bufs fun u _ => hB u
    head := ?_, headData := ?_, homeData := ?_, logData := ?_ }
  · rw [head_bwrite hne]
    exact h.head
  · rw [head_bwrite hne, hhead]
    intro i hi
    cases hi
  · intro b hb _
    have hne : b ≠ s.log.start + s.gh.logged + 1 := fun he => hb (he ▸ (h.logBlock hi).1)
    refine (update_of_ne hne _ _).trans (h.homeData b hb ?_)
    simp [hhead]
  · intro i hi hi'
    simp only at hi hi'
    by_cases hlast : i = s.gh.logged
    · subst hlast
      have heq : s.log.start + 1 + s.gh.logged = s.log.start + s.gh.logged + 1 := by omega
      simp only [heq, update_self]
      exact hx
    · have hne : s.log.start + 1 + i ≠ s.log.start + s.gh.logged + 1 := by omega
      exact (update_of_ne hne _ _).trans (h.logData i (by omega) hi')

theorem LogInv.commit (h : LogInv s) (hb : b = s.log.start)
    (hB : ∀ u, (B u).blockno = (s.bufs u).blockno) (hup : s.up = true)
    (hlogged : s.gh.logged = s.log.lh.length) (hcur : s.gh.cur = []) (hhead : s.head = [])
    (hclosed : s.gh.ncommit + 1 = s.gh.groups.length) (hx : x.getHead = s.log.lh) :
    LogInv { s with
      bufs := B
      disk := update s.disk b x
      thr := T
      gh := { s.gh with ncommit := s.gh.ncommit + 1, logged := 0, installed := 0 } } := by
  subst hb
  have hdur : ∀ b, s.gh.after (s.gh.ncommit + 1) b = s.gh.latest b := fun b =>
    congrFun (Ghost.after_eq_latest hclosed.ge hcur) b
  refine { h with
    logged := h.logged_bufs fun u _ => hB u
    booting := ?_, uncommitted := fun b _ => (hdur b).symm
    head := ?_, headData := ?_, homeData := ?_, logData := ?_, counts := ?_ }
  · intro hdown
    simp [hup] at hdown
  · rw [head_write hx]
    exact h.lh
  · rw [head_write hx]
    intro i hi
    have hne : s.log.start + 1 + i ≠ s.log.start := by omega
    refine (update_of_ne hne _ _).trans ?_
    exact (h.logData i (by omega) hi).trans (hdur _).symm
  · rw [head_write hx]
    intro b hb hmem
    have hne : b ≠ s.log.start := fun he => hb (he ▸ h.headBlock.1)
    refine (update_of_ne hne _ _).trans ?_
    have hold := h.homeData b hb (by simp [hhead])
    rw [hold, ← h.uncommitted b (by simpa using hmem)]
    exact (hdur b).symm
  · intro i hi
    cases hi
  · have := h.counts
    simp only
    omega

/-- The header write that erases a transaction whose blocks are all home. -/
theorem LogInv.erase (h : LogInv s) (hb : b = s.log.start)
    (hB : ∀ u, (B u).blockno = (s.bufs u).blockno) (hlogged : s.gh.logged = 0)
    (hinst : s.gh.installed = s.head.length) (hx : x.getHead = []) :
    LogInv { s with
      bufs := B
      disk := update s.disk b x
      thr := T
      gh := { s.gh with installed := 0 } } := by
  subst hb
  refine { h with
    logged := h.logged_bufs fun u _ => hB u
    head := ?_, headData := ?_, homeData := ?_, logData := ?_ }
  · rw [head_write hx]
    exact .nil
  · rw [head_write hx]
    intro i hi
    cases hi
  · intro b hb _
    have hne : b ≠ s.log.start := fun he => hb (he ▸ h.headBlock.1)
    refine (update_of_ne hne _ _).trans (h.homeData b hb ?_)
    simp [hinst]
  · intro i hi
    simp [hlogged] at hi

theorem LogInv.install (h : LogInv s)
    (hB : ∀ u, (B u).blockno = (s.bufs u).blockno) (hlogged : s.gh.logged = 0)
    (hi : s.gh.installed < s.head.length) (hb : b = s.head.get ⟨s.gh.installed, hi⟩)
    (hx : x = s.durable b) :
    LogInv { s with
      bufs := B
      disk := update s.disk b x
      thr := T
      gh := { s.gh with installed := s.gh.installed + 1 } } := by
  have hsize := h.size
  have hlen := h.head.length
  have hhome : ¬ s.log.Area b := (h.head.home b (hb ▸ get_mem _ _)).1
  have hne (k : ℕ) (hk : k < s.log.size) : s.log.start + k ≠ b := by
    unfold Log.Area at hhome
    omega
  refine { h with
    logged := h.logged_bufs fun u _ => hB u
    head := ?_, headData := ?_, homeData := ?_, logData := ?_ }
  · rw [head_bwrite (hne 0 hsize.1)]
    exact h.head
  · rw [head_bwrite (hne 0 hsize.1)]
    intro i hi
    have hneq := hne (1 + i) (by omega)
    rw [← Nat.add_assoc] at hneq
    exact (update_of_ne hneq _ _).trans (h.headData i hi)
  · rw [head_bwrite (hne 0 hsize.1)]
    intro c hc hmem
    by_cases hcb : c = b
    · subst hcb
      exact (update_self _ _ _).trans hx
    · refine (update_of_ne hcb _ _).trans (h.homeData c hc ?_)
      rw [drop_eq_getElem_cons hi, mem_cons]
      exact fun hold => hold.elim (fun he => hcb (he.trans hb.symm)) hmem
  · intro i hi
    simp [hlogged] at hi

/-! ## Steps that leave the cache alone -/

/-- Only the pinned blocks, the marks of the clients and the calls in progress matter. -/
theorem BufInv.frame (h : BufInv s) {o : P → Option ℕ}
    (hl : l.start = s.log.start ∧ l.size = s.log.size ∧ l.lh.drop g.unpinned = s.pinned)
    (hg : g.dirty = s.gh.dirty ∧ g.view = s.gh.view ∧ g.pins = s.gh.pins ∧ g.unpins = s.gh.unpins)
    (hT : ∀ q, (T q).call = (s.thr q).call) :
    BufInv { s with log := l, gh := g, op := o, thr := T } := by
  have hcalls : ∀ t, calls T t = calls s.thr t := by
    intro t
    simp only [calls, hT]
  have harea : ∀ b, l.Area b ↔ s.log.Area b := by
    intro b
    simp only [Log.Area, hl.1, hl.2.1]
  cases h
  obtain ⟨hg1, hg2, hg3, hg4⟩ := hg
  constructor <;>
    simp only [Sys.pinned, hl.2.2, harea, hcalls, hT, hg1, hg2, hg3, hg4, Sys.DirtyAt,
      Sys.Cached] at * <;> assumption

theorem BufInv.unpin (h : BufInv s) {T : P → Thread} {x : ℕ}
    (hdev : (s.bufs t).dev = rootDev) (hx : (s.bufs t).blockno = x)
    (hT : ∀ q, (T q).call = (s.thr q).call)
    (hnodup : s.log.lh.Nodup) (hhome : ¬ s.log.Area x) (hup : s.up = true)
    (hpin : s.pinned = x :: s.log.lh.drop (s.gh.unpinned + 1))
    (hdisk : ¬ s.DirtyAt x → s.disk x = s.gh.view x) :
    BufInv { s with
      bufs := update s.bufs t { s.bufs t with refcnt := (s.bufs t).refcnt - 1 }
      thr := T
      gh := { s.gh with
        unpinned := s.gh.unpinned + 1
        unpins := update s.gh.unpins x (s.gh.unpins x + 1) } } := by
  have hcalls : ∀ t, calls T t = calls s.thr t := by
    intro t
    simp only [calls, hT]
  have hmem : x ∈ s.pinned := by simp [hpin]
  have hnot : x ∉ s.log.lh.drop (s.gh.unpinned + 1) := by
    have hnd : s.pinned.Nodup := hnodup.sublist (drop_sublist _ _)
    rw [hpin, nodup_cons] at hnd
    exact hnd.1
  have hsplit : ∀ b, b ∈ s.pinned ↔ b = x ∨ b ∈ s.log.lh.drop (s.gh.unpinned + 1) := by
    intro b
    rw [hpin, mem_cons]
  have hdirtyAt : s.gh.dirty t = false → ¬ s.DirtyAt x := by
    rintro hc ⟨u, hu, hux⟩
    have hut := h.uniq u t (h.dirtyHeld u hu).2.2.1 hdev (hux.trans hx.symm)
    rw [hut, hc] at hu
    cases hu
  cases h
  constructor <;>
    simp only [Sys.pinned, hcalls, hT, Sys.DirtyAt, Sys.Cached, update_apply] at * <;> grind

/-- The end of recovery: from here on the disk is what clients see. -/
theorem BufInv.start (h : BufInv s) (hup : s.up = false) (hpin : s.pinned = [])
    (hdisk : ∀ b, ¬ s.log.Area b → s.disk b = s.gh.view b) : BufInv { s with up := true } := by
  have hnodirty : ∀ t, s.gh.dirty t = false := by
    intro t
    by_contra hd
    have := (h.dirtyHeld t (by simpa using hd)).2.2.2.2
    simp [hup] at this
  refine { h with dirtyHeld := ?_, hot := ?_, cold := ?_ }
  · intro t ht
    simp [hnodirty t] at ht
  · intro _ t hvalid hdev hhome
    exact (h.clean t hvalid hdev (by simp [hpin]) (hnodirty t)).trans (hdisk _ hhome)
  · intro _ b hb _ _
    exact hdisk b hb

end Xv6.Storage
