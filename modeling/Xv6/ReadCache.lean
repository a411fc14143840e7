import Xv6.Counting
import Xv6.Transition

/-!
# Readers in the buffer cache

Processes that read files: `fileread`, `readi` and `bmap` over `bget`, `bread` and `brelse` of
`kernel/bio.c`, with the descriptors of `virtio_disk_rw`. A step is a critical section of
`bcache.lock`, of a sleep-lock or of `vdisk_lock`, or an interrupt of the disk. The files are open,
so that `ilock` finds their inodes loaded, and every block of them is mapped.

A process is in possession of one buffer at most, from `bget` until the reference is dropped at the
end of `brelse`. This gives the exact number of processes that the cache can serve.
-/

namespace Xv6.ReadCache

open Transition Function List Finset

def nbuf : ℕ := 30

def nproc : ℕ := 64

def bsize : ℕ := 1024

def ndirect : ℕ := 12

def nindirect : ℕ := 256

/-- The descriptors of the virtio queue; a request takes three. -/
def num : ℕ := 8

def rootdev : ℕ := 1

abbrev BufIx := Fin nbuf

abbrev Slot := Fin nproc

structure Buf where
  dev : ℕ
  blockno : ℕ
  valid : Bool
  disk : Bool
  refcnt : ℕ
  lock : Option Slot

structure File where
  size : ℕ
  addrs : ℕ → ℕ
  indirect : ℕ → ℕ

inductive Job
  | indirect
  | data

/-- Where a process is with its buffer; `brelse` starts when the sleep-lock is released. -/
inductive Stage
  | acquiresleep
  | desc
  | disk
  | copy
  | brelse (ok : Bool)

/-- `n` is what is left to read at `off`. -/
inductive Phase
  | idle
  | ilock (ip off n : ℕ)
  | loop (ip off n : ℕ)
  | bget (ip off n : ℕ) (job : Job) (blockno : ℕ)
  | holds (ip off n : ℕ) (job : Job) (b : BufIx) (stage : Stage)

inductive Panic
  | bget
  | bmap
  deriving DecidableEq

structure Sys where
  buf : BufIx → Buf
  /-- From the most to the least recently used buffer. -/
  order : List BufIx
  free : ℕ
  ilock : ℕ → Option Slot
  phase : Slot → Phase
  panicked : Option Panic

inductive Act
  | fileread (p : Slot) (ip off n : ℕ)
  | run (p : Slot) (copyout : Bool)
  | intr (b : BufIx)

namespace Sys

variable (s : Sys)

def setBuf (b : BufIx) (x : Buf) : Sys := { s with buf := update s.buf b x }

def goto (p : Slot) (φ : Phase) : Sys := { s with phase := update s.phase p φ }

/-- `bget` until it releases `bcache.lock`; `none` is the panic. -/
def bget (blockno : ℕ) : Option (BufIx × Sys) :=
  match s.order.find? fun b => (s.buf b).dev = rootdev ∧ (s.buf b).blockno = blockno with
  | some b => some (b, s.setBuf b { s.buf b with refcnt := (s.buf b).refcnt + 1 })
  | none =>
    match s.order.reverse.find? fun b => (s.buf b).refcnt = 0 with
    | some b => some (b, s.setBuf b { s.buf b with
        dev := rootdev, blockno := blockno, valid := false, refcnt := 1 })
    | none => none

def brelse (b : BufIx) : Sys :=
  let t := s.setBuf b { s.buf b with refcnt := (s.buf b).refcnt - 1 }
  if (t.buf b).refcnt = 0 then { t with order := b :: s.order.erase b } else t

end Sys

section readi

variable (f : File) (ip off n : ℕ)

/-- The checks of `readi` on its unsigned arguments. -/
def readi : Phase :=
  if f.size < off ∨ (off + n) % 2 ^ 32 < off then .loop ip off 0
  else if f.size < off + n then .loop ip off (f.size - off)
  else .loop ip off n

/-- `bmap` has returned `addr`. -/
def bread (addr : ℕ) : Phase := if addr = 0 then .loop ip off 0 else .bget ip off n .data addr

/-- The loop of `readi` until the next `bget`; `none` is the panic of `bmap`. -/
def bmap : Option Phase :=
  if off / bsize < ndirect then some (bread ip off n (f.addrs (off / bsize)))
  else if off / bsize - ndirect < nindirect then some (.bget ip off n .indirect (f.addrs ndirect))
  else none

def released (ok : Bool) : Job → Phase
  | .indirect => bread ip off n (f.indirect (off / bsize - ndirect))
  | .data =>
    if ok then .loop ip (off + min n (bsize - off % bsize)) (n - min n (bsize - off % bsize))
    else .loop ip off 0

end readi

def useStep (f : File) (s : Sys) (p : Slot) (copyout : Bool) (ip off n : ℕ) (job : Job)
    (b : BufIx) : Stage → Option Sys
  | .acquiresleep =>
    if (s.buf b).lock = none then
      some ((s.setBuf b { s.buf b with lock := some p }).goto p
        (.holds ip off n job b (if (s.buf b).valid then .copy else .desc)))
    else none
  | .desc =>
    if 3 ≤ s.free then
      some ({ s.setBuf b { s.buf b with disk := true } with free := s.free - 3 }.goto p
        (.holds ip off n job b .disk))
    else none
  | .disk =>
    if (s.buf b).disk = false then
      some ({ s.setBuf b { s.buf b with valid := true } with free := s.free + 3 }.goto p
        (.holds ip off n job b .copy))
    else none
  | .copy =>
    some ((s.setBuf b { s.buf b with lock := none }).goto p
      (.holds ip off n job b (.brelse copyout)))
  | .brelse ok => some ((s.brelse b).goto p (released f ip off n ok job))

def procStep (files : ℕ → File) (s : Sys) (p : Slot) (copyout : Bool) : Option Sys :=
  match s.phase p with
  | .idle => none
  | .ilock ip off n =>
    if s.ilock ip = none then
      some ({ s with ilock := update s.ilock ip (some p) }.goto p (readi (files ip) ip off n))
    else none
  | .loop ip off n =>
    if n = 0 then some ({ s with ilock := update s.ilock ip none }.goto p .idle)
    else
      match bmap (files ip) ip off n with
      | some φ => some (s.goto p φ)
      | none => some { s with panicked := some .bmap }
  | .bget ip off n job blockno =>
    match s.bget blockno with
    | some (b, t) => some (t.goto p (.holds ip off n job b .acquiresleep))
    | none => some { s with panicked := some .bget }
  | .holds ip off n job b stage => useStep (files ip) s p copyout ip off n job b stage

def step (files : ℕ → File) (s : Sys) (a : Act) : Option Sys :=
  if s.panicked = none then
    match a with
    | .fileread p ip off n =>
      match s.phase p with
      | .idle => some (s.goto p (.ilock ip off n))
      | _ => none
    | .run p copyout => procStep files s p copyout
    | .intr b =>
      if (s.buf b).disk then some (s.setBuf b { s.buf b with disk := false }) else none
  else none

/-- After `binit`, which puts every buffer in front of the one before. -/
def boot : Sys where
  buf := fun _ => ⟨0, 0, false, false, 0, none⟩
  order := (List.finRange nbuf).reverse
  free := num
  ilock := fun _ => none
  phase := fun _ => .idle
  panicked := none

def Act.among (n : ℕ) : Act → Prop
  | .fileread p _ _ _ => p.val < n
  | .run p _ => p.val < n
  | .intr _ => True

instance (n : ℕ) : DecidablePred (Act.among n)
  | .fileread p _ _ _ => inferInstanceAs (Decidable (p.val < n))
  | .run p _ => inferInstanceAs (Decidable (p.val < n))
  | .intr _ => isTrue trivial

def Phase.held : Phase → Option BufIx
  | .holds _ _ _ _ b _ => some b
  | _ => none

section change

structure Change (s t : Sys) (p : Slot) : Prop where
  other : ∀ q, q ≠ p → t.phase q = s.phase q
  order : (∀ b, b ∈ s.order) → ∀ b, b ∈ t.order
  refcnt : ∀ b, (t.buf b).refcnt + (if (s.phase p).held = some b then 1 else 0) =
    (s.buf b).refcnt + if (t.phase p).held = some b then 1 else 0
  panicked : t.panicked = some .bget → (s.phase p).held = none ∧
    ((∀ b, b ∈ s.order) → ∀ b, 0 < (s.buf b).refcnt)

variable {s t : Sys} {p : Slot}

variable {φ : Phase} {b : BufIx}

theorem Change.plain (hbuf : t.buf = s.buf) (horder : t.order = s.order)
    (hphase : t.phase = update s.phase p φ) (hs : (s.phase p).held = none)
    (hφ : φ.held = none) (hpan : t.panicked ≠ some .bget) : Change s t p where
  other q hq := by rw [hphase, update_of_ne hq]
  order h b := by
    rw [horder]
    exact h b
  refcnt b := by simp [hbuf, hphase, hs, hφ]
  panicked h := absurd h hpan

theorem Change.keep {x : Buf} (hbuf : t.buf = update s.buf b x)
    (hx : x.refcnt = (s.buf b).refcnt) (horder : t.order = s.order)
    (hphase : t.phase = update s.phase p φ) (hs : (s.phase p).held = some b)
    (hφ : φ.held = some b) (hpan : t.panicked ≠ some .bget) : Change s t p where
  other q hq := by rw [hphase, update_of_ne hq]
  order h b := by
    rw [horder]
    exact h b
  refcnt b' := by
    rw [hbuf, hphase, update_self, hs, hφ, view_update Buf.refcnt b' hx]
  panicked h := absurd h hpan

theorem readi_held (f : File) (ip off n : ℕ) : (readi f ip off n).held = none := by
  unfold readi
  split_ifs <;> rfl

theorem bread_held (ip off n addr : ℕ) : (bread ip off n addr).held = none := by
  unfold bread
  split_ifs <;> rfl

theorem bmap_held {f : File} {ip off n : ℕ} (h : bmap f ip off n = some φ) : φ.held = none := by
  unfold bmap at h
  split_ifs at h
  · cases h
    exact bread_held _ _ _ _
  · cases h
    rfl

theorem released_held (f : File) (ip off n : ℕ) (ok : Bool) (job : Job) :
    (released f ip off n ok job).held = none := by
  cases job with
  | indirect => exact bread_held _ _ _ _
  | data =>
    unfold released
    split_ifs <;> rfl

theorem bget_some {blockno : ℕ} (h : s.bget blockno = some (b, t)) :
    ∃ x, t = s.setBuf b x ∧ x.refcnt = (s.buf b).refcnt + 1 := by
  unfold Sys.bget at h
  split at h
  · cases h
    exact ⟨_, rfl, rfl⟩
  · split at h
    · rename_i c hfree
      have hzero : (s.buf c).refcnt = 0 := by simpa using List.find?_some hfree
      cases h
      exact ⟨_, rfl, by rw [hzero]⟩
    · cases h

theorem bget_none {blockno : ℕ} (h : s.bget blockno = none) (hb : b ∈ s.order) :
    0 < (s.buf b).refcnt := by
  unfold Sys.bget at h
  split at h
  · cases h
  · split at h
    · cases h
    · rename_i hnone
      have hall := List.find?_eq_none.mp hnone b (mem_reverse.mpr hb)
      have hne : (s.buf b).refcnt ≠ 0 := by simpa using hall
      omega

theorem brelse_order (h : ∀ b, b ∈ s.order) (b' : BufIx) : b' ∈ (s.brelse b).order := by
  unfold Sys.brelse
  dsimp only
  split_ifs
  · by_cases hb : b' = b
    · exact hb ▸ mem_cons_self
    · exact mem_cons_of_mem _ ((mem_erase_of_ne hb).mpr (h b'))
  · exact h b'

theorem brelse_buf (s : Sys) (b : BufIx) : (s.brelse b).buf =
    update s.buf b { s.buf b with refcnt := (s.buf b).refcnt - 1 } := by
  unfold Sys.brelse
  dsimp only
  split_ifs <;> rfl

theorem useStep_change {f : File} {copyout : Bool} {ip off n : ℕ} {job : Job}
    {stage : Stage} (hphase : s.phase p = .holds ip off n job b stage) (hpan : s.panicked = none)
    (hpos : 0 < (s.buf b).refcnt) (h : useStep f s p copyout ip off n job b stage = some t) :
    Change s t p := by
  have hs : (s.phase p).held = some b := by rw [hphase]; rfl
  have hp : s.panicked ≠ some .bget := by rw [hpan]; exact (Option.some_ne_none _).symm
  unfold useStep at h
  cases stage with
  | acquiresleep =>
    dsimp only at h
    split_ifs at h <;> cases h <;> exact Change.keep rfl rfl rfl rfl hs rfl hp
  | desc =>
    dsimp only at h
    split_ifs at h
    cases h
    exact Change.keep rfl rfl rfl rfl hs rfl hp
  | disk =>
    dsimp only at h
    split_ifs at h
    cases h
    exact Change.keep rfl rfl rfl rfl hs rfl hp
  | copy =>
    cases h
    exact Change.keep rfl rfl rfl rfl hs rfl hp
  | brelse ok =>
    cases h
    refine ⟨fun q hq => ?_, fun horder => brelse_order horder, fun b' => ?_, ?_⟩
    · change update (s.brelse b).phase p _ q = _
      rw [update_of_ne hq]
      unfold Sys.brelse
      dsimp only
      split_ifs <;> rfl
    · simp only [Sys.goto, update_self, released_held, brelse_buf, hs]
      by_cases hb : b' = b
      · subst hb
        simp
        omega
      · simp [hb, Ne.symm hb]
    · intro hbget
      have hsame : (s.brelse b).panicked = s.panicked := by
        unfold Sys.brelse
        dsimp only
        split_ifs <;> rfl
      exact absurd (hsame.symm.trans hbget) hp

theorem procStep_change {files : ℕ → File} {copyout : Bool} (hpan : s.panicked = none)
    (hpos : ∀ b, (s.phase p).held = some b → 0 < (s.buf b).refcnt)
    (h : procStep files s p copyout = some t) : Change s t p := by
  have hp : s.panicked ≠ some .bget := by rw [hpan]; exact (Option.some_ne_none _).symm
  unfold procStep at h
  cases hphase : s.phase p with
  | idle => simp [hphase] at h
  | ilock ip off n =>
    simp only [hphase] at h
    split_ifs at h
    cases h
    exact Change.plain rfl rfl rfl (by rw [hphase]; rfl) (readi_held _ _ _ _) hp
  | loop ip off n =>
    simp only [hphase] at h
    split_ifs at h
    · cases h
      exact Change.plain rfl rfl rfl (by rw [hphase]; rfl) rfl hp
    · split at h
      · rename_i φ hφ
        cases h
        exact Change.plain rfl rfl rfl (by rw [hphase]; rfl) (bmap_held hφ) hp
      · cases h
        exact Change.plain rfl rfl (update_eq_self p s.phase).symm (by rw [hphase]; rfl)
          (by rw [hphase]; rfl) (fun hbget => nomatch hbget)
  | bget ip off n job blockno =>
    simp only [hphase] at h
    split at h
    · rename_i b u hb
      obtain ⟨x, rfl, hx⟩ := bget_some hb
      cases h
      refine ⟨fun q hq => update_of_ne hq _ _, fun horder => horder, fun b' => ?_,
        fun hbget => absurd hbget hp⟩
      simp only [Sys.goto, Sys.setBuf, update_self, hphase]
      by_cases hb' : b' = b
      · subst hb'
        simp [Phase.held, hx]
      · simp [Phase.held, hb', Ne.symm hb']
    · rename_i hnone
      cases h
      exact ⟨fun _ _ => rfl, fun horder => horder, fun b => rfl,
        fun _ => ⟨by rw [hphase]; rfl, fun horder b => bget_none hnone (horder b)⟩⟩
  | holds ip off n job b stage =>
    simp only [hphase] at h
    exact useStep_change hphase hpan (hpos b (by rw [hphase]; rfl)) h

end change

section safety

variable {s t : Sys} {n : ℕ}

structure Inv (n : ℕ) (s : Sys) : Prop where
  order : ∀ b, b ∈ s.order
  refcnt : ∀ b, (s.buf b).refcnt = (Finset.univ.filter fun p => (s.phase p).held = some b).card
  idle : ∀ p : Slot, n ≤ p.val → (s.phase p).held = none

theorem Inv.pos (h : Inv n s) {p : Slot} {b : BufIx} (hb : (s.phase p).held = some b) :
    0 < (s.buf b).refcnt := by
  rw [h.refcnt]
  exact Counting.card_filter_pos (mem_univ p) hb

theorem Inv.change (h : Inv n s) {p : Slot} (hp : p.val < n) (hc : Change s t p) : Inv n t where
  order := hc.order h.order
  refcnt b := by
    have hcard := Counting.card_filter_change (S := univ) (x := p)
      (A := fun p => (s.phase p).held = some b) (B := fun p => (t.phase p).held = some b)
      (mem_univ p) (fun q hq => by rw [hc.other q hq])
    have hrefcnt := hc.refcnt b
    rw [h.refcnt] at hrefcnt
    omega
  idle q hq := by
    have hne : q ≠ p := by
      rintro rfl
      omega
    rw [hc.other q hne]
    exact h.idle q hq

/-- If every buffer is in use and `p` has none, there are more processes than buffers. -/
theorem Inv.many (h : Inv n s) {p : Slot} (hp : p.val < n) (hnone : (s.phase p).held = none)
    (hall : ∀ b, 0 < (s.buf b).refcnt) : nbuf < n := by
  have hex (b : BufIx) : ∃ q, (s.phase q).held = some b := by
    have hpos := hall b
    rw [h.refcnt, card_pos] at hpos
    obtain ⟨q, hq⟩ := hpos
    exact ⟨q, (Finset.mem_filter.mp hq).2⟩
  choose owner howner using hex
  -- the owners are distinct, take part, and are not `p`
  have hmaps : ∀ b ∈ Finset.univ, (owner b).val ∈ (Finset.range n).erase p.val := by
    intro b _
    rw [Finset.mem_erase, Finset.mem_range]
    constructor
    · intro heq
      have hb := howner b
      rw [Fin.ext heq, hnone] at hb
      cases hb
    · by_contra hge
      have hb := howner b
      rw [h.idle (owner b) (by omega)] at hb
      cases hb
  have hinj : Set.InjOn (fun b => (owner b).val) (univ : Finset BufIx) := by
    intro b _ c _ heq
    have hb := howner b
    rw [Fin.ext heq, howner c] at hb
    exact (Option.some.inj hb).symm
  have hcard := card_le_card_of_injOn _ hmaps hinj
  rw [card_erase_of_mem (Finset.mem_range.mpr hp), card_range, card_univ,
    Fintype.card_fin] at hcard
  omega

/-- Steps of the processes that take part keep the invariant, and `bget` finds a buffer when there
are not more of them than buffers. -/
theorem Inv.next {files : ℕ → File} {a : Act} (h : Inv n s) (ha : a.among n)
    (hstep : step files s a = some t) : Inv n t ∧ (n ≤ nbuf → t.panicked ≠ some .bget) := by
  unfold step at hstep
  split_ifs at hstep with hpan
  have hp : s.panicked ≠ some .bget := by rw [hpan]; exact (Option.some_ne_none _).symm
  have hend {p : Slot} (hlt : p.val < n) (hc : Change s t p) :
      Inv n t ∧ (n ≤ nbuf → t.panicked ≠ some .bget) := by
    refine ⟨h.change hlt hc, fun hle hbget => ?_⟩
    obtain ⟨hnone, hall⟩ := hc.panicked hbget
    have hmany := h.many hlt hnone (hall h.order)
    omega
  cases a with
  | fileread p ip off m =>
    dsimp only at hstep
    split at hstep
    · rename_i hphase
      cases hstep
      exact hend ha (Change.plain rfl rfl rfl (by rw [hphase]; rfl) rfl hp)
    · cases hstep
  | run p copyout => exact hend ha (procStep_change hpan (fun _ hb => h.pos hb) hstep)
  | intr b =>
    dsimp only at hstep
    split_ifs at hstep
    cases hstep
    refine ⟨⟨h.order, fun c => ?_, h.idle⟩, fun _ => hp⟩
    have hsame : ((s.setBuf b { s.buf b with disk := false }).buf c).refcnt = (s.buf c).refcnt := by
      by_cases hc : c = b
      · subst hc
        simp [Sys.setBuf]
      · simp [Sys.setBuf, hc]
    exact hsame.trans (h.refcnt c)

theorem boot_inv (n : ℕ) : Inv n boot where
  order b := mem_reverse.mpr (mem_finRange b)
  refcnt b := by
    refine Eq.symm (Finset.card_eq_zero.mpr (Finset.filter_eq_empty_iff.mpr ?_))
    intro p _ hp
    cases hp
  idle _ _ := rfl

end safety

def smallFiles (ip : ℕ) : File := ⟨bsize, fun _ => 100 + ip, fun _ => 0⟩

def readOwn (p : Slot) : List Act :=
    [.fileread p p.val 0 bsize, .run p true, .run p true, .run p true]

def crowd : List Act := ((List.finRange nproc).take (nbuf + 1)).flatMap readOwn

theorem crowd_run : ∃ s, run (step smallFiles) boot crowd = some s ∧ s.panicked = some .bget := by
  have hrun : (run (step smallFiles) boot crowd).elim false
      (fun s => decide (s.panicked = some .bget)) = true := by decide +kernel
  obtain ⟨s, hs, hd⟩ := exists_of_elim hrun
  exact ⟨s, hs, of_decide_eq_true hd⟩

theorem crowd_among : ∀ a ∈ crowd, a.among (nbuf + 1) := by decide +kernel

theorem Act.among_mono {m n : ℕ} (hmn : m ≤ n) {a : Act} (h : a.among m) : a.among n := by
  cases a with
  | fileread p ip off k => exact lt_of_lt_of_le h hmn
  | run p copyout => exact lt_of_lt_of_le h hmn
  | intr b => trivial

/-- `n` processes never exhaust the cache, whatever they read, exactly if there are not more of them
than buffers. -/
theorem bget_finds_buffer_iff (n : ℕ) :
    (∀ files acts s, (∀ a ∈ acts, Act.among n a) → run (step files) boot acts = some s →
      s.panicked ≠ some .bget) ↔ n ≤ nbuf := by
  constructor
  · intro hsafe
    by_contra hlt
    obtain ⟨s, hrun, hpan⟩ := crowd_run
    exact hsafe smallFiles crowd s (fun a ha => Act.among_mono (by omega) (crowd_among a ha))
      hrun hpan
  · intro hle files acts s hacts hrun
    have hinv : Inv n s ∧ s.panicked ≠ some .bget :=
      run_invariant (I := fun s => Inv n s ∧ s.panicked ≠ some .bget) (fun s a t hI ha hstep =>
          have hnext := hI.1.next ha hstep
          ⟨hnext.1, hnext.2 hle⟩)
        ⟨boot_inv n, (Option.some_ne_none _).symm⟩ (along_of_forall hacts boot) hrun
    exact hinv.2

theorem bget_panics_with_readers : ∃ n ≤ nproc, ∃ files acts s, (∀ a ∈ acts, Act.among n a) ∧
    run (step files) boot acts = some s ∧ s.panicked = some .bget := by
  obtain ⟨s, hrun, hpan⟩ := crowd_run
  exact ⟨nbuf + 1, by decide, smallFiles, crowd, s, crowd_among, hrun, hpan⟩

end Xv6.ReadCache
