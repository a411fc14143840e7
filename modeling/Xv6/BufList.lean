import Xv6.DoubleRing
import Xv6.Transition
import Mathlib.Order.WithBot

/-!
# The list of buffers

`binit`, `bget`, `brelse`, `bpin` and `bunpin` of `kernel/bio.c` on the pointers `prev` and `next`.
A step is what a call does under `bcache.lock`; the sleep-locks of the buffers only decide when a
call goes on. `gets`, `pins` and `released` are history: the calls of `bget` and `bpin` that have
not been matched yet, and when `brelse` last brought the count of a buffer to 0.
-/

namespace Xv6.BufList

open Xv6.Ring Transition Function List

def nbuf : ℕ := 30

instance : NeZero nbuf := ⟨by decide⟩

abbrev BufIx := Fin nbuf

/-- A pointer to a buffer; `none` is `&bcache.head`. -/
abbrev Ptr := Option BufIx

structure Buf where
  valid : Bool
  dev : BitVec 32
  blockno : BitVec 32
  refcnt : BitVec 32
  prev : Ptr
  next : Ptr

def Buf.data (b : Buf) : Bool × BitVec 32 × BitVec 32 × BitVec 32 :=
    (b.valid, b.dev, b.blockno, b.refcnt)

abbrev Cache := Ptr → Buf

inductive Stop
  | noBuffers
  | outOfRounds

namespace Cache

variable (s : Cache)

def head : Ptr := none

def next (p : Ptr) : Ptr := (s p).next

def prev (p : Ptr) : Ptr := (s p).prev

def setNext (p v : Ptr) : Cache := update s p { s p with next := v }

def setPrev (p v : Ptr) : Cache := update s p { s p with prev := v }

def setRefcnt (p : Ptr) (v : BitVec 32) : Cache := update s p { s p with refcnt := v }

/-- The assignments that put `b` behind the head, in `binit` and in `brelse`. -/
def pushFront (b : Ptr) : Cache :=
  let s := s.setNext b (s.next head)
  let s := s.setPrev b head
  let s := s.setPrev (s.next head) b
  s.setNext head b

/-- The assignments of `brelse` that take `b` out of the list. -/
def unlink (b : Ptr) : Cache :=
  let s := s.setPrev (s.next b) (s.prev b)
  s.setNext (s.prev b) (s.next b)

def binit : Cache :=
  let s := s.setPrev head head
  let s := s.setNext head head
  (finRange nbuf).foldl (fun s b => s.pushFront (some b)) s

def Has (dev blockno : BitVec 32) (p : Ptr) : Prop := (s p).dev = dev ∧ (s p).blockno = blockno

instance (dev blockno : BitVec 32) (p : Ptr) : Decidable (s.Has dev blockno p) :=
  inferInstanceAs (Decidable (_ ∧ _))

/-- The buffer, to be locked, and the cache. The first loop follows `next`, the second `prev`. -/
def bget (dev blockno : BitVec 32) : Except Stop (BufIx × Cache) :=
  match walk s.next (fun p => p = head ∨ s.Has dev blockno p) (nbuf + 1) (s.next head) with
  | none => .error .outOfRounds
  | some (some b) => .ok (b, s.setRefcnt b ((s b).refcnt + 1))
  | some none =>
    match walk s.prev (fun p => p = head ∨ (s p).refcnt = 0) (nbuf + 1) (s.prev head) with
    | none => .error .outOfRounds
    | some (some b) =>
      .ok (b, update s b { s b with dev := dev, blockno := blockno, valid := false, refcnt := 1 })
    | some none => .error .noBuffers

def brelse (b : BufIx) : Cache :=
  let s := s.setRefcnt b ((s b).refcnt - 1)
  if (s b).refcnt = 0 then (s.unlink b).pushFront b else s

def bpin (b : BufIx) : Cache := s.setRefcnt b ((s b).refcnt + 1)

def bunpin (b : BufIx) : Cache := s.setRefcnt b ((s b).refcnt - 1)

end Cache

structure Sys where
  cache : Cache
  gets : BufIx → ℕ
  pins : BufIx → ℕ
  clock : ℕ
  released : BufIx → WithBot ℕ

inductive Act
  | bget (dev blockno : BitVec 32)
  | brelse (b : BufIx)
  | bpin (b : BufIx)
  | bunpin (b : BufIx)

/-- Calls of `bget` name a device other than 0, and those of `brelse` and `bunpin` match earlier
ones. -/
def step (s : Sys) : Act → Option Sys
  | .bget dev blockno =>
    if dev = 0 then none
    else
      match s.cache.bget dev blockno with
      | .ok (b, cache) => some { s with cache := cache, gets := update s.gets b (s.gets b + 1) }
      | .error _ => none
  | .brelse b =>
    if s.gets b = 0 then none
    else some { s with
      cache := s.cache.brelse b
      gets := update s.gets b (s.gets b - 1)
      clock := s.clock + 1
      released :=
        if (s.cache b).refcnt - 1 = 0 then update s.released b s.clock else s.released }
  | .bpin b => some { s with cache := s.cache.bpin b, pins := update s.pins b (s.pins b + 1) }
  | .bunpin b =>
    if s.pins b = 0 then none
    else some { s with cache := s.cache.bunpin b, pins := update s.pins b (s.pins b - 1) }

def boot (links : Ptr → Ptr × Ptr) : Sys where
  cache := Cache.binit fun p => ⟨false, 0, 0, 0, (links p).1, (links p).2⟩
  gets _ := 0
  pins _ := 0
  clock := 0
  released _ := ⊥

/-! ## The links -/

namespace Cache

variable {s : Cache} {p q : Ptr} {b : BufIx} {l : List Ptr}

theorem next_update (x : Buf) : next (update s p x) = update s.next p x.next :=
    comp_update Buf.next s p x

theorem prev_update (x : Buf) : prev (update s p x) = update s.prev p x.prev :=
    comp_update Buf.prev s p x

theorem links_update {x : Buf} (hnext : x.next = (s p).next) (hprev : x.prev = (s p).prev) :
    next (update s p x) = s.next ∧ prev (update s p x) = s.prev := by
  rw [next_update, prev_update, hnext, hprev]
  exact ⟨update_eq_self p s.next, update_eq_self p s.prev⟩

@[simp] theorem next_setNext (p v : Ptr) : (s.setNext p v).next = update s.next p v := next_update _

@[simp] theorem prev_setNext (p v : Ptr) : (s.setNext p v).prev = s.prev :=
  (prev_update _).trans (update_eq_self p s.prev)

@[simp] theorem next_setPrev (p v : Ptr) : (s.setPrev p v).next = s.next :=
  (next_update _).trans (update_eq_self p s.next)

@[simp] theorem prev_setPrev (p v : Ptr) : (s.setPrev p v).prev = update s.prev p v := prev_update _

@[simp] theorem data_setNext (p v q : Ptr) : (s.setNext p v q).data = (s q).data :=
    view_update Buf.data q

@[simp] theorem data_setPrev (p v q : Ptr) : (s.setPrev p v q).data = (s q).data :=
    view_update Buf.data q

@[simp] theorem data_pushFront (p q : Ptr) : (s.pushFront p q).data = (s q).data := by
  simp only [pushFront, data_setNext, data_setPrev]

@[simp] theorem data_unlink (p q : Ptr) : (s.unlink p q).data = (s q).data := by
  simp only [unlink, data_setNext, data_setPrev]

theorem pushFront_links (h : Links s.next s.prev head l) (hp : p ∉ head :: l) :
    Links (s.pushFront p).next (s.pushFront p).prev head (p :: l) := by
  have hne : head ≠ p := fun heq => hp (heq ▸ mem_cons_self)
  have hins := h.insert hp
  simp only [pushFront, next_setNext, next_setPrev, prev_setNext, prev_setPrev, update_of_ne hne]
  exact hins

theorem unlink_links {l₁ l₂ : List Ptr} (h : Links s.next s.prev head (l₁ ++ p :: l₂)) :
    Links (s.unlink p).next (s.unlink p).prev head (l₁ ++ l₂) := by
  have hne : p ≠ s.next p := h.next_ne.symm
  simp only [unlink, next_setNext, next_setPrev, prev_setNext, prev_setPrev, update_of_ne hne]
  exact h.unlink

theorem binit_links (s : Cache) :
    Links s.binit.next s.binit.prev head ((finRange nbuf).map some).reverse ∧
      ∀ q, (s.binit q).data = (s q).data := by
  have hfold : ∀ (bs : List BufIx) (t : Cache) (l : List Ptr), Links t.next t.prev head l →
      (∀ b ∈ bs, some b ∉ l) → bs.Nodup →
      Links (bs.foldl (fun s b => s.pushFront (some b)) t).next
      (bs.foldl (fun s b => s.pushFront (some b)) t).prev
        head ((bs.map some).reverse ++ l) ∧
      ∀ q, (bs.foldl (fun s b => s.pushFront (some b)) t q).data = (t q).data := by
    intro bs
    induction bs with
    | nil => exact fun t l h _ _ => ⟨h, fun _ => rfl⟩
    | cons b bs ih =>
      intro t l h hout hnodup
      rw [nodup_cons] at hnodup
      have hb : some b ∉ head :: l := fun hmem => by
        rcases mem_cons.1 hmem with heq | hmem
        · cases heq
        · exact hout b mem_cons_self hmem
      have hnext := ih (t.pushFront (some b)) (some b :: l) (pushFront_links h hb)
        (fun c hc hmem => ?_) hnodup.2
      · rw [foldl_cons, map_cons, reverse_cons, append_assoc, singleton_append]
        exact ⟨hnext.1, fun q => (hnext.2 q).trans (data_pushFront _ _)⟩
      · rcases mem_cons.1 hmem with heq | hmem
        · exact hnodup.1 (Option.some.inj heq ▸ hc)
        · exact hout c (mem_cons_of_mem b hc) hmem
  have hempty : Links ((s.setPrev head head).setNext head head).next
      ((s.setPrev head head).setNext head head).prev head [] := .empty (by simp) (by simp)
  have hall := hfold (finRange nbuf) _ [] hempty (fun _ _ => not_mem_nil) (nodup_finRange nbuf)
  rw [append_nil] at hall
  exact ⟨hall.1, fun q => (hall.2 q).trans (by simp)⟩

end Cache

/-! ## What `bget` finds -/

structure Listed (s : Cache) (l : List BufIx) : Prop where
  links : Links s.next s.prev Cache.head (l.map some)
  all : l.Perm (finRange nbuf)

theorem Listed.mem {s : Cache} {l : List BufIx} (h : Listed s l) (b : BufIx) : b ∈ l :=
  h.all.mem_iff.2 (mem_finRange b)

theorem Listed.length {s : Cache} {l : List BufIx} (h : Listed s l) : l.length = nbuf :=
  h.all.length_eq.trans (length_finRange)

theorem find_cases {l : List BufIx} {P : Ptr → Prop} [DecidablePred P] :
    (∃ l₁ b l₂, l = l₁ ++ b :: l₂ ∧ P (some b) ∧ (∀ c ∈ l₁, ¬ P (some c)) ∧
      (l.map some ++ [Cache.head]).find? (fun p => p = Cache.head ∨ P p) = some (some b)) ∨
    ((∀ b ∈ l, ¬ P (some b)) ∧ (l.map some ++ [Cache.head]).find? (fun p => p = Cache.head ∨ P p) =
      some none) := by
  induction l with
  | nil => exact .inr ⟨fun b hb => absurd hb not_mem_nil, by simp [Cache.head]⟩
  | cons c l ih =>
    by_cases hc : P (some c)
    · refine .inl ⟨[], c, l, rfl, hc, fun d hd => absurd hd not_mem_nil, ?_⟩
      rw [map_cons, cons_append, find?_cons_of_pos (by simpa using .inr hc)]
    · have hskip : (map some (c :: l) ++ [Cache.head]).find? (fun p => p = Cache.head ∨ P p) =
          (map some l ++ [Cache.head]).find? (fun p => p = Cache.head ∨ P p) := by
        rw [map_cons, cons_append, find?_cons_of_neg (by simpa [Cache.head] using hc)]
      rw [hskip]
      rcases ih with ⟨l₁, b, l₂, rfl, hb, hbefore, hfind⟩ | ⟨hnone, hfind⟩
      · refine .inl ⟨c :: l₁, b, l₂, rfl, hb, fun d hd => ?_, hfind⟩
        rcases mem_cons.1 hd with rfl | hd
        · exact hc
        · exact hbefore d hd
      · refine .inr ⟨fun d hd => ?_, hfind⟩
        rcases mem_cons.1 hd with rfl | hd
        · exact hc
        · exact hnone d hd

/-- A hit, a miss that recycles the unused buffer nearest the tail, or no unused buffer. -/
theorem bget_cases {s : Cache} {l : List BufIx} (h : Listed s l) (dev blockno : BitVec 32) :
    (∃ b : BufIx, s.Has dev blockno b ∧
      s.bget dev blockno = .ok (b, s.setRefcnt b ((s b).refcnt + 1))) ∨
    (∀ b : BufIx, ¬ s.Has dev blockno b) ∧
      ((∃ (l₁ : List BufIx) (b : BufIx) (l₂ : List BufIx), l = l₁ ++ b :: l₂ ∧ (s b).refcnt = 0 ∧
        (∀ c ∈ l₂, (s (some c)).refcnt ≠ 0) ∧ s.bget dev blockno = .ok (b, update s b
          { s b with dev := dev, blockno := blockno, valid := false, refcnt := 1 })) ∨
      (∀ b : BufIx, (s b).refcnt ≠ 0) ∧ s.bget dev blockno = .error .noBuffers) := by
  have hlen := h.length
  have hwalk :=
    @Links.walk_eq _ _ _ _ _ (fun p => p = Cache.head ∨ s.Has dev blockno p) (nbuf + 1) h.links
      (by simp) (by rw [length_map]; omega)
  have hback :=
    @Links.walk_eq _ _ _ _ _ (fun p => p = Cache.head ∨ (s p).refcnt = 0) (nbuf + 1) h.links.symm
      (by simp) (by rw [length_reverse, length_map]; omega)
  rw [← map_reverse] at hback
  unfold Cache.bget
  rcases @find_cases l (s.Has dev blockno) _ with ⟨l₁, b, l₂, -, hb, -, hfind⟩ | ⟨hnone, hfind⟩
  · exact .inl ⟨b, hb, by rw [hwalk, hfind]⟩
  · refine .inr ⟨fun b => hnone b (h.mem b), ?_⟩
    rcases @find_cases l.reverse (fun p => (s p).refcnt = 0)
      _ with ⟨l₁, b, l₂, hl, hb, hafter, hfind'⟩ | ⟨hnone', hfind'⟩
    · refine .inl ⟨l₂.reverse, b, l₁.reverse, ?_, hb, fun c hc => hafter c (mem_reverse.1 hc), ?_⟩
      · rw [← reverse_reverse l, hl]
        simp
      · rw [hwalk, hfind]
        dsimp only
        rw [hback, hfind']
    · refine .inr ⟨fun b => hnone' b (mem_reverse.2 (h.mem b)), ?_⟩
      rw [hwalk, hfind]
      dsimp only
      rw [hback, hfind']

/-! ## The invariant -/

/-- `c` was released before `b`, or never. -/
def Sys.Before (s : Sys) (c b : BufIx) : Prop := s.released c < s.released b ∨ s.released c = ⊥

structure Inv (s : Sys) (l : List BufIx) : Prop where
  listed : Listed s.cache l
  unique : ∀ b c : BufIx, (s.cache b).dev ≠ 0 →
    s.cache.Has (s.cache b).dev (s.cache b).blockno c → c = b
  refcnt : ∀ b : BufIx, (s.cache b).refcnt = BitVec.ofNat 32 (s.gets b + s.pins b)
  order : l.Pairwise fun b c => s.Before c b
  past : ∀ b, s.released b < s.clock

theorem Buf.eq_of_data {x y : Buf} (h : x.data = y.data) :
    x.dev = y.dev ∧ x.blockno = y.blockno ∧ x.refcnt = y.refcnt := by
  simp only [Buf.data, Prod.mk.injEq] at h
  exact h.2

namespace Cache

variable {s : Cache} {b : BufIx} {v : BitVec 32} {l : List BufIx}

theorem setRefcnt_fields (s : Cache) (b : BufIx) (v : BitVec 32) (p : Ptr) :
    (s.setRefcnt b v p).dev = (s p).dev ∧ (s.setRefcnt b v p).blockno = (s p).blockno ∧
      (s.setRefcnt b v p).refcnt = if p = b then v else (s p).refcnt := by
  by_cases hp : p = b
  · subst hp
    simp [setRefcnt]
  · simp [setRefcnt, hp]

theorem setRefcnt_listed (h : Listed s l) (b : BufIx) (v : BitVec 32) :
    Listed (s.setRefcnt b v) l := by
  obtain ⟨hnext, hprev⟩ := links_update (s := s) (p := b) (x := { s b with refcnt := v }) rfl rfl
  refine ⟨?_, h.all⟩
  unfold setRefcnt
  rw [hnext, hprev]
  exact h.links

theorem moved_listed {l₁ l₂ : List BufIx} (h : Listed s (l₁ ++ b :: l₂)) :
    Listed ((s.unlink b).pushFront b) (b :: (l₁ ++ l₂)) := by
  have hlinks := h.links
  rw [map_append, map_cons] at hlinks
  have hout : some b ∉ head :: (l₁.map some ++ l₂.map some) := by
    have hnodup := hlinks.nodup
    rw [← cons_append, nodup_middle, nodup_cons, cons_append] at hnodup
    exact hnodup.1
  refine ⟨?_, perm_middle.symm.trans h.all⟩
  rw [map_cons, map_append]
  exact pushFront_links (unlink_links hlinks) hout

theorem brelse_eq (s : Cache) (b : BufIx) : s.brelse b =
    if (s b).refcnt - 1 = 0 then ((s.setRefcnt b ((s b).refcnt - 1)).unlink b).pushFront b
    else s.setRefcnt b ((s b).refcnt - 1) := by
  simp only [brelse, (setRefcnt_fields s b _ b).2.2, if_true]

theorem brelse_fields (s : Cache) (b : BufIx) (p : Ptr) :
    (s.brelse b p).dev = (s p).dev ∧ (s.brelse b p).blockno = (s p).blockno ∧
      (s.brelse b p).refcnt = if p = b then (s b).refcnt - 1 else (s p).refcnt := by
  have hdata : (s.brelse b p).data = (s.setRefcnt b ((s b).refcnt - 1) p).data := by
    rw [brelse_eq]
    split
    · rw [data_pushFront, data_unlink]
    · rfl
  obtain ⟨hdev, hblockno, hrefcnt⟩ := Buf.eq_of_data hdata
  rw [hdev, hblockno, hrefcnt]
  exact setRefcnt_fields s b _ p

end Cache

section steps

variable {s t : Sys} {b : BufIx} {l : List BufIx}

theorem Inv.count (h : Inv s l)
    (hkeys : ∀ p, (t.cache p).dev = (s.cache p).dev ∧ (t.cache p).blockno = (s.cache p).blockno)
    (hcounts : ∀ c : BufIx, (t.cache c).refcnt = BitVec.ofNat 32 (t.gets c + t.pins c))
    {l' : List BufIx}
    (hlisted : Listed t.cache l') (horder : l'.Pairwise fun b c => t.Before c b)
    (hpast : ∀ b, t.released b < t.clock) : Inv t l' := by
  refine ⟨hlisted, fun b c hdev hhas => ?_, hcounts, horder, hpast⟩
  rw [Cache.Has, (hkeys b).1, (hkeys b).2, (hkeys c).1, (hkeys c).2] at hhas
  rw [(hkeys b).1] at hdev
  exact h.unique b c hdev hhas

theorem Inv.recount (h : Inv s l) {v : BitVec 32} (hcache : t.cache = s.cache.setRefcnt b v)
    (hb : v = BitVec.ofNat 32 (t.gets b + t.pins b))
    (hothers : ∀ c ≠ b, t.gets c + t.pins c = s.gets c + s.pins c)
    (hreleased : t.released = s.released)
    (hclock : t.clock = s.clock) : Inv t l := by
  have hfields := Cache.setRefcnt_fields s.cache b v
  rw [← hcache] at hfields
  refine h.count (fun p => ⟨(hfields p).1, (hfields p).2.1⟩) (fun c => ?_)
    (hcache ▸ Cache.setRefcnt_listed h.listed b _) ?_ ?_
  · rw [(hfields c).2.2]
    by_cases hc : c = b
    · rw [if_pos (congrArg some hc), hb, hc]
    · rw [if_neg fun heq => hc (Option.some.inj heq), hothers c hc, h.refcnt]
  · simpa only [Sys.Before, hreleased] using h.order
  · rw [hreleased, hclock]
    exact h.past

theorem Inv.refcnt_succ (h : Inv s l) (b : BufIx) :
    (s.cache b).refcnt + 1 = BitVec.ofNat 32 (s.gets b + s.pins b + 1) := by
  rw [BitVec.ofNat_add _ 1, h.refcnt]
  rfl

theorem Inv.refcnt_pred (h : Inv s l) {n : ℕ} (hn : s.gets b + s.pins b = n + 1) :
    (s.cache b).refcnt - 1 = BitVec.ofNat 32 n := by
  rw [h.refcnt, hn, BitVec.ofNat_add]
  exact BitVec.add_sub_cancel _ _

theorem Inv.bpin (h : Inv s l) (hs : step s (.bpin b) = some t) : Inv t l := by
  cases hs
  refine h.recount rfl ?_ (fun c hc => ?_) rfl rfl
  · simpa [Nat.add_assoc] using h.refcnt_succ b
  · simp [hc]

theorem Inv.bunpin (h : Inv s l) (hs : step s (.bunpin b) = some t) : Inv t l := by
  simp only [step] at hs
  split_ifs at hs with hpins
  cases hs
  refine h.recount rfl ?_ (fun c hc => ?_) rfl rfl
  · have hpred := h.refcnt_pred (b := b) (n := s.gets b + (s.pins b - 1)) (by omega)
    simpa using hpred
  · simp [hc]

theorem Inv.brelse (h : Inv s l) (hs : step s (.brelse b) = some t) : ∃ l', Inv t l' := by
  simp only [step] at hs
  split at hs
  next => cases hs
  next hgets =>
    cases hs
    have hfields := Cache.brelse_fields s.cache b
    have hcounts : ∀ c : BufIx, (s.cache.brelse b c).refcnt =
        BitVec.ofNat 32 (update s.gets b (s.gets b - 1) c + s.pins c) := by
      intro c
      rw [(hfields c).2.2]
      by_cases hc : c = b
      · subst hc
        have hpred := h.refcnt_pred (b := c) (n := s.gets c - 1 + s.pins c) (by omega)
        simpa using hpred
      · rw [if_neg fun heq => hc (Option.some.inj heq), update_of_ne hc, h.refcnt]
    have hlisted := Cache.setRefcnt_listed h.listed b ((s.cache b).refcnt - 1)
    have hpast (c : BufIx) : s.released c < ((s.clock + 1 : ℕ) : WithBot ℕ) :=
      (h.past c).trans (WithBot.coe_lt_coe.2 (Nat.lt_succ_self _))
    by_cases hzero : (s.cache b).refcnt - 1 = 0
    · obtain ⟨l₁, l₂, rfl⟩ := append_of_mem (h.listed.mem b)
      have hmoved := Cache.moved_listed hlisted
      refine ⟨b :: (l₁ ++ l₂), h.count (fun p => ⟨(hfields p).1, (hfields p).2.1⟩) hcounts ?_ ?_ ?_⟩
      · simp only [Cache.brelse_eq, if_pos hzero]
        exact hmoved
      · have hout : ∀ c ∈ l₁ ++ l₂, c ≠ b := by
          have hnodup := h.listed.all.nodup_iff.2 (nodup_finRange nbuf)
          rw [nodup_middle, nodup_cons] at hnodup
          exact fun c hc heq => hnodup.1 (heq ▸ hc)
        rw [pairwise_cons]
        refine ⟨fun c hc => .inl ?_, ?_⟩
        · simp only [if_pos hzero, update_of_ne (hout c hc), update_self]
          exact h.past c
        · refine (h.order.sublist ((sublist_cons_self b l₂).append_left l₁)).imp_of_mem ?_
          intro c d hc hd hbefore
          simp only [Sys.Before, if_pos hzero, update_of_ne (hout c hc), update_of_ne (hout d hd)]
          exact hbefore
      · simp only [if_pos hzero]
        intro c
        by_cases hc : c = b
        · subst hc
          rw [update_self]
          exact WithBot.coe_lt_coe.2 (Nat.lt_succ_self _)
        · rw [update_of_ne hc]
          exact hpast c
    · refine ⟨l, h.count (fun p => ⟨(hfields p).1, (hfields p).2.1⟩) hcounts ?_ ?_ ?_⟩
      · simp only [Cache.brelse_eq, if_neg hzero]
        exact hlisted
      · simpa only [Sys.Before, hzero, if_false] using h.order
      · simpa only [hzero, if_false] using hpast

/-- An unused buffer is given to a block that no buffer has. -/
theorem Inv.recycle {dev blockno : BitVec 32} (h : Inv s l)
    (hnone : ∀ c : BufIx, ¬ s.cache.Has dev blockno c) (hb : (s.cache b).refcnt = 0) :
    Inv { s with
      cache := update s.cache b { s.cache b with
        dev := dev, blockno := blockno, valid := false, refcnt := 1 }
      gets := update s.gets b (s.gets b + 1) } l := by
  have hother {c : BufIx} (hc : c ≠ b) : (some c : Ptr) ≠ some b :=
    fun heq => hc (Option.some.inj heq)
  obtain ⟨hnext, hprev⟩ := Cache.links_update (s := s.cache) (p := b)
    (x := { s.cache b with dev := dev, blockno := blockno, valid := false, refcnt := 1 }) rfl rfl
  refine ⟨⟨?_, h.listed.all⟩, fun c d hc hhas => ?_, fun c => ?_, h.order, h.past⟩
  · rw [hnext, hprev]
    exact h.listed.links
  · by_cases hcb : c = b
    · subst hcb
      by_contra hd
      simp only [Cache.Has, update_self, update_of_ne (hother hd)] at hhas
      exact hnone d hhas
    · by_cases hdb : d = b
      · subst hdb
        simp only [Cache.Has, update_self, update_of_ne (hother hcb)] at hhas
        exact absurd ⟨hhas.1.symm, hhas.2.symm⟩ (hnone c)
      · simp only [Cache.Has, update_of_ne (hother hcb), update_of_ne (hother hdb)] at hhas hc
        exact h.unique c d hc hhas
  · by_cases hcb : c = b
    · subst hcb
      have hsucc := h.refcnt_succ c
      rw [hb] at hsucc
      simpa [Nat.add_right_comm] using hsucc
    · simp only [update_of_ne (hother hcb), update_of_ne hcb]
      exact h.refcnt c

theorem Inv.bget {dev blockno : BitVec 32} (h : Inv s l)
    (hs : step s (.bget dev blockno) = some t) : Inv t l := by
  simp only [step] at hs
  split_ifs at hs
  rcases bget_cases h.listed dev blockno with ⟨b, hb, hget⟩ | ⟨hnone,
    ⟨l₁, b, l₂, -, hb, -, hget⟩ | ⟨-, hget⟩⟩
  · rw [hget] at hs
    cases hs
    refine h.recount rfl ?_ (fun c hc => ?_) rfl rfl
    · simpa [Nat.add_right_comm] using h.refcnt_succ b
    · simp [hc]
  · rw [hget] at hs
    cases hs
    exact h.recycle hnone hb
  · rw [hget] at hs
    cases hs

theorem Inv.next {a : Act} (h : Inv s l) (hs : step s a = some t) : ∃ l', Inv t l' := by
  cases a with
  | bget dev blockno => exact ⟨l, h.bget hs⟩
  | brelse b => exact h.brelse hs
  | bpin b => exact ⟨l, h.bpin hs⟩
  | bunpin b => exact ⟨l, h.bunpin hs⟩

theorem Inv.in_use (h : Inv s l) {a : Act} (hs : step s a = some t) (c : BufIx)
    (hc : (s.cache c).refcnt ≠ 0) :
    (t.cache c).dev = (s.cache c).dev ∧ (t.cache c).blockno = (s.cache c).blockno := by
  have hset (b : BufIx) (v : BitVec 32) : (s.cache.setRefcnt b v c).dev = (s.cache c).dev ∧
      (s.cache.setRefcnt b v c).blockno = (s.cache c).blockno :=
    ⟨(Cache.setRefcnt_fields s.cache b v c).1, (Cache.setRefcnt_fields s.cache b v c).2.1⟩
  cases a with
  | bget dev blockno =>
    simp only [step] at hs
    split_ifs at hs
    rcases bget_cases h.listed dev blockno with
      ⟨b, -, hget⟩ | ⟨-, ⟨l₁, b, l₂, -, hb, -, hget⟩ | ⟨-, hget⟩⟩
    · rw [hget] at hs
      cases hs
      exact hset b _
    · rw [hget] at hs
      cases hs
      have hne : (some c : Ptr) ≠ some b := fun heq => hc (heq ▸ hb)
      simp only [update_of_ne hne, and_self]
    · rw [hget] at hs
      cases hs
  | brelse b =>
    simp only [step] at hs
    split_ifs at hs
    all_goals
      cases hs
      exact ⟨(Cache.brelse_fields s.cache b c).1, (Cache.brelse_fields s.cache b c).2.1⟩
  | bpin b =>
    cases hs
    exact hset b _
  | bunpin b =>
    simp only [step] at hs
    split_ifs at hs
    cases hs
    exact hset b _

/-- The unused buffer nearest the tail was released before all others that are unused. -/
theorem Inv.least_recent {l₁ l₂ : List BufIx} (h : Inv s (l₁ ++ b :: l₂))
    (hafter : ∀ c ∈ l₂, (s.cache (some c)).refcnt ≠ 0) (c : BufIx) (hc : (s.cache c).refcnt = 0)
    (hne : c ≠ b) :
    s.Before b c := by
  have hmem := h.listed.mem c
  have horder := (pairwise_append.1 h.order).2.2
  rcases mem_append.1 hmem with hfront | hrest
  · exact horder c hfront b mem_cons_self
  · rcases mem_cons.1 hrest with heq | hback
    · exact absurd heq hne
    · exact absurd hc (hafter c hback)

end steps

theorem boot_inv (links : Ptr → Ptr × Ptr) : Inv (boot links) (finRange nbuf).reverse := by
  obtain ⟨hlinks, hdata⟩ := Cache.binit_links fun p => ⟨false, 0, 0, 0, (links p).1, (links p).2⟩
  have hzero (p : Ptr) : ((boot links).cache p).dev = 0 ∧ ((boot links).cache p).refcnt = 0 :=
    ⟨(Buf.eq_of_data (hdata p)).1, (Buf.eq_of_data (hdata p)).2.2⟩
  refine ⟨⟨?_, reverse_perm _⟩, fun b c hdev => absurd (hzero b).1 hdev, fun b => (hzero b).2,
    ?_, fun b => ?_⟩
  · rw [map_reverse]
    exact hlinks
  · exact pairwise_of_forall fun _ _ => .inr rfl
  · exact WithBot.bot_lt_coe 0

theorem exists_inv {links : Ptr → Ptr × Ptr} {acts : List Act} {s : Sys}
    (hrun : run step (boot links) acts = some s) : ∃ l, Inv s l :=
  run_invariant_all (I := fun s => ∃ l, Inv s l) (fun _ _ _ hI hs => hI.elim fun _ h => h.next hs)
    ⟨_, boot_inv links⟩ hrun

/-- In every run from `binit`: the links form one ring through the head with every buffer once, no
two buffers have the same block, a buffer in use keeps its block, the counts are those of the calls
not matched yet, modulo `2 ^ 32`, and a miss recycles the unused buffer nearest the tail, which was
released before all others that are unused. -/
theorem buffer_list (links : Ptr → Ptr × Ptr) {acts : List Act} {s : Sys}
    (hrun : run step (boot links) acts = some s) : ∃ l : List BufIx,
    Links s.cache.next s.cache.prev Cache.head (l.map some) ∧ l.Perm (finRange nbuf) ∧
      (∀ b c : BufIx, (s.cache b).dev ≠ 0 → (s.cache c).dev = (s.cache b).dev →
        (s.cache c).blockno = (s.cache b).blockno → c = b) ∧
      (∀ a t, step s a = some t → ∀ b : BufIx, (s.cache b).refcnt ≠ 0 →
        (t.cache b).dev = (s.cache b).dev ∧ (t.cache b).blockno = (s.cache b).blockno) ∧
      (∀ b : BufIx, (s.cache b).refcnt.toNat = (s.gets b + s.pins b) % 2 ^ 32) ∧
      ∀ dev blockno, (∀ b : BufIx, ¬ s.cache.Has dev blockno b) →
        (∃ (l₁ : List BufIx) (b : BufIx) (l₂ : List BufIx) (cache : Cache), l = l₁ ++ b :: l₂ ∧
          (s.cache b).refcnt = 0 ∧ (∀ c ∈ l₂, (s.cache (some c)).refcnt ≠ 0) ∧
          (∀ c : BufIx, (s.cache c).refcnt = 0 → c ≠ b → s.Before b c) ∧
          s.cache.bget dev blockno = .ok (b, cache) ∧ cache.Has dev blockno b) ∨
        (∀ b : BufIx, (s.cache b).refcnt ≠ 0) ∧ s.cache.bget dev blockno = .error .noBuffers := by
  obtain ⟨l, h⟩ := exists_inv hrun
  refine ⟨l, h.listed.links, h.listed.all,
    fun b c hdev hsame hsame' => h.unique b c hdev ⟨hsame, hsame'⟩,
    fun a t hs b hb => h.in_use hs b hb,
    fun b => by rw [h.refcnt, BitVec.toNat_ofNat], fun dev blockno hnone => ?_⟩
  rcases bget_cases h.listed dev blockno with ⟨b, hb, -⟩ | ⟨-,
    ⟨l₁, b, l₂, rfl, hb, hafter, hget⟩ | ⟨hall, hget⟩⟩
  · exact absurd hb (hnone b)
  · refine .inl ⟨l₁, b, l₂, _, rfl, hb, hafter, h.least_recent hafter, hget, ?_⟩
    simp [Cache.Has]
  · exact .inr ⟨hall, hget⟩

theorem buffer_list_twoBlocks : ∃ s, run step (boot fun p => (p, p))
    [.bget 1 1, .bget 1 2, .brelse 0, .brelse 1] = some s ∧ (s.cache (some 0)).refcnt = 0 ∧
    ∃ l : List BufIx, Links s.cache.next s.cache.prev Cache.head (l.map some) ∧
    l.Perm (finRange nbuf) := by
  have hrun : (run step (boot fun p => (p, p)) [.bget 1 1, .bget 1 2, .brelse 0, .brelse 1]).elim
      false (fun s => decide ((s.cache (some 0)).refcnt = 0)) = true := by decide +kernel
  obtain ⟨s, hs, hd⟩ := exists_of_elim hrun
  obtain ⟨l, hlinks, hall, -⟩ := buffer_list _ hs
  exact ⟨s, hs, of_decide_eq_true hd, l, hlinks, hall⟩

theorem run_bpin (s : Sys) (b : BufIx) (n : ℕ) :
    ∃ t, run step s (replicate n (.bpin b)) = some t ∧ t.gets = s.gets ∧
    t.pins b = s.pins b + n := by
  induction n generalizing s with
  | zero => exact ⟨s, rfl, rfl, rfl⟩
  | succ n ih =>
    obtain ⟨t, hrun, hgets, hpins⟩ :=
      ih { s with cache := s.cache.bpin b, pins := update s.pins b (s.pins b + 1) }
    refine ⟨t, ?_, hgets, ?_⟩
    · rw [replicate_succ, run]
      exact hrun
    · simp only [hpins, update_self]
      omega

/-- The count is a `uint`: after `2 ^ 32` calls of `bpin` it is 0 again. -/
theorem refcnt_wraps : ∃ acts s, run step (boot fun p => (p, p)) acts = some s ∧
    s.gets 0 + s.pins 0 = 2 ^ 32 ∧ (s.cache (some 0)).refcnt.toNat = 0 := by
  generalize hn : (2 ^ 32 : ℕ) = n
  obtain ⟨s, hrun, hgets, hpins⟩ := run_bpin (boot fun p => (p, p)) 0 n
  obtain ⟨l, h⟩ := exists_inv hrun
  have hcount : s.gets 0 + s.pins 0 = n := by
    rw [hgets, hpins]
    simp [boot]
  refine ⟨_, s, hrun, hcount, ?_⟩
  rw [h.refcnt, hcount, ← hn]
  rfl

end Xv6.BufList
