import Xv6.FileArray
import Xv6.UserCopy

/-!
# Writes whose source cannot be read

`writei` copies into the buffer of a block and passes the buffer to `log_write` after the copy. When
the copy fails with a part of its bytes copied, the buffer is released as it is: the cache has bytes
that the log and the disk do not have, in a block of the file that the call does not report as
written. Here the functions of `writei` are modelled with both sides, the buffers and what has been
logged, and their buffers are those of the model without the log.
-/

namespace Xv6.Vm

section readable

variable {kend root : ℕ} {p : Phys}

/-- The first `avail` bytes from the address on can be read, and the next one cannot. -/
structure Readable (p : Phys) (root src avail : ℕ) : Prop where
  usable : ∀ k < avail, Usable p root false (src + k)
  stop : ¬ Usable p root false (src + avail)

theorem exists_readable (p : Phys) (root src : ℕ) : ∃ avail, Readable p root src avail := by
  have hstop : ∃ k, ¬ Usable p root false (src + k) := ⟨maxva, fun h => by have := h.1; omega⟩
  classical
  exact ⟨Nat.find hstop, fun k hk => not_not.1 (Nat.find_min hstop hk), Nat.find_spec hstop⟩

/-- A copy out of the range stores what can be read of it, and succeeds if that is all. -/
theorem Readable.copyin {src avail tot dst m : ℕ} (h : Readable p root src avail)
    (htot : tot ≤ avail) (hs : Table kend p root)
    (hl : ∀ x < maxva, ∀ pte, p.lookup root x = some pte → pte2pa pte ≠ 0)
    (hbuf : Apart p root dst m) (hout : NotInTable p root dst m) :
    Runs (copyin root dst (src + tot) m) p fun r t => (r = true ↔ m ≤ avail - tot) ∧
      Stored p t (dst + ·) (fun i => p.byte (p.phys root (src + tot + i)))
      (min m (avail - tot)) := by
  refine (copyin_spec (src + tot) hs hl hbuf hout).mono ?_
  rintro r t ⟨done, hcopied⟩
  have hle := hcopied.le
  have hdone : done ≤ avail - tot := by
    by_contra hlt
    apply h.stop
    have husable := hcopied.usable (avail - tot) (by omega)
    rwa [show src + tot + (avail - tot) = src + avail by omega] at husable
  cases r with
  | true =>
    have hall := hcopied.all rfl
    subst hall
    rw [min_eq_left hdone]
    exact ⟨by simpa using hdone, hcopied.stored⟩
  | false =>
    obtain ⟨hlt, hbad⟩ := hcopied.bad rfl
    have hend : done = avail - tot := by
      by_contra hne
      apply hbad
      have husable := h.usable (tot + done) (by omega)
      rwa [← Nat.add_assoc] at husable
    subst hend
    rw [min_eq_right hle]
    exact ⟨by simpa using hlt, hcopied.stored⟩

end readable

end Xv6.Vm

namespace Xv6.Fs

open Function List

/-- The blocks as the buffers have them, and as they were when they were last passed to `log_write`
or read from the disk. The second is what the log writes, and what is read again when a buffer has
been recycled. -/
structure Buffers where
  cache : Disk
  logged : Disk

namespace Buffers

variable (sb : Super)

def logData (s : Buffers) (b : ℕ) : Buffers :=
    { s with logged := s.logged.setData b (s.cache.data b) }

def logBit (s : Buffers) (b : ℕ) : Buffers :=
  { s with logged := { s.logged with used := update s.logged.used b (s.cache.used b) } }

def logInode (s : Buffers) (inum : ℕ) : Buffers :=
  { s with logged := s.logged.iupdate inum (s.cache.dinode inum) }

def bzero (s : Buffers) (b : ℕ) : Buffers :=
  logData { s with cache := s.cache.setData b fun _ => 0 } b

def balloc (s : Buffers) : Buffers × ℕ :=
  match (range sb.size).find? fun b => ¬ s.cache.used b with
  | none => (s, 0)
  | some b =>
    let s := logBit { s with cache := { s.cache with used := update s.cache.used b true } } b
    (bzero s b, b)

def loadIndirect (s : Buffers) (ip : Dinode) : Buffers × Dinode :=
  if ip.addrs ndirect = 0 then
    let r := balloc sb s
    if r.2 = 0 then (r.1, ip) else (r.1, ip.setAddr ndirect r.2)
  else (s, ip)

def bmap (s : Buffers) (ip : Dinode) (bn : ℕ) : Except Panic (Buffers × Dinode × ℕ) :=
  if bn < ndirect then
    if ip.addrs bn = 0 then
      let r := balloc sb s
      if r.2 = 0 then .ok (r.1, ip, 0) else .ok (r.1, ip.setAddr bn r.2, r.2)
    else .ok (s, ip, ip.addrs bn)
  else if bn - ndirect < nindirect then
    let (s, ip) := loadIndirect sb s ip
    let ind := ip.addrs ndirect
    if ind = 0 then .ok (s, ip, 0)
    else if (s.cache.data ind).getWord (bn - ndirect) = 0 then
      let r := balloc sb s
      if r.2 = 0 then .ok (r.1, ip, 0)
      else
        let entry := (r.1.cache.data ind).setWord (bn - ndirect) r.2
        .ok (logData { r.1 with cache := r.1.cache.setData ind entry } ind, ip, r.2)
    else .ok (s, ip, (s.cache.data ind).getWord (bn - ndirect))
  else .error .bmapOutOfRange

/-- The loop of `writei` at offset `off`, with `src` still to be written and the first `avail` bytes
of it readable: what each copy does is that of `Readable.copyin`. -/
def writeLoop : ℕ → Buffers → Dinode → ℕ → List UInt8 → ℕ → Except Panic (Buffers × Dinode × ℕ)
  | 0, s, ip, off, _, _ => .ok (s, ip, off)
  | fuel + 1, s, ip, off, src, avail =>
    if src = [] then .ok (s, ip, off)
    else
      match bmap sb s ip (off / bsize) with
      | .error e => .error e
      | .ok (s, ip, addr) =>
        if addr = 0 then .ok (s, ip, off)
        else
          let m := min src.length (bsize - off % bsize)
          let block := (s.cache.data addr).write (off % bsize) (src.take (min m avail))
          let s := { s with cache := s.cache.setData addr block }
          -- `either_copyin` has failed: the buffer is released without `log_write`
          if avail < m then .ok (s, ip, off)
          else writeLoop fuel (logData s addr) ip (off + m) (src.drop m) (avail - m)

def writei (s : Buffers) (inum : ℕ) (ip : Dinode) (off : ℕ) (src : List UInt8) (avail : ℕ) :
    Except Panic (Buffers × Dinode × ℤ) :=
  if ip.size < off ∨ 2 ^ 32 ≤ off + src.length then .ok (s, ip, -1)
  else if maxfile * bsize < off + src.length then .ok (s, ip, -1)
  else
    match writeLoop sb src.length s ip off src avail with
    | .error e => .error e
    | .ok (s, ip, last) =>
      let ip := { ip with size := if ip.size < last then last else ip.size }
      .ok (logInode { s with cache := s.cache.iupdate inum ip } inum, ip, (last - off : ℕ))

def recycle (s : Buffers) (b : ℕ) : Buffers :=
    { s with cache := s.cache.setData b (s.logged.data b) }

variable {sb} {s s' t : Buffers} {ip ip' jp : Dinode} {inum off avail : ℕ} {src : List UInt8}

section turns

def store (s : Buffers) (b o : ℕ) (bytes : List UInt8) : Buffers :=
  { s with cache := s.cache.setData b ((s.cache.data b).write o bytes) }

theorem writeLoop_stop (fuel : ℕ) (hbmap : bmap sb s ip (off / bsize) = .ok (t, jp, 0))
    (hnil : src ≠ []) : writeLoop sb (fuel + 1) s ip off src avail = .ok (t, jp, off) := by
  rw [writeLoop, if_neg hnil, hbmap]
  rfl

theorem writeLoop_turn {addr m a : ℕ} (fuel : ℕ)
    (hbmap : bmap sb s ip (off / bsize) = .ok (t, jp, addr)) (hnil : src ≠ []) (haddr : addr ≠ 0)
    (hm : min src.length (bsize - off % bsize) = m) :
    writeLoop sb (fuel + 1) s ip off src a =
      if a < m then .ok (t.store addr (off % bsize) (src.take (min m a)), jp, off)
      else writeLoop sb fuel ((t.store addr (off % bsize) (src.take (min m a))).logData addr)
        jp (off + m) (src.drop m) (a - m) := by
  rw [writeLoop, if_neg hnil, hbmap]
  dsimp only
  rw [if_neg haddr, hm]
  rfl

theorem writei_refused (hrefuse : ip.size < off ∨ maxfile * bsize < off + src.length) :
    writei sb s inum ip off src avail = .ok (s, ip, -1) := by
  rw [writei]
  by_cases hfirst : ip.size < off ∨ 2 ^ 32 ≤ off + src.length
  · rw [if_pos hfirst]
  · rw [if_neg hfirst, if_pos (by omega)]

theorem writei_accepted (hoff : off ≤ ip.size) (hend : off + src.length ≤ maxfile * bsize) :
    writei sb s inum ip off src avail = (writeLoop sb src.length s ip off src avail).map fun x =>
      (logInode { x.1 with cache := x.1.cache.iupdate inum (x.2.1.grownTo x.2.2) } inum,
        x.2.1.grownTo x.2.2, ((x.2.2 - off : ℕ) : ℤ)) := by
  have hbound : maxfile * bsize < 2 ^ 32 := by norm_num [maxfile, ndirect, nindirect, bsize]
  rw [writei, if_neg (by omega), if_neg (by omega)]
  cases writeLoop sb src.length s ip off src avail with
  | error e => rfl
  | ok x => rfl

end turns

section cache

def onCache {α : Type} (r : Except Panic (Buffers × α)) : Except Panic (Disk × α) :=
  r.map fun x => (x.1.cache, x.2)

theorem cache_balloc : ((balloc sb s).1.cache, (balloc sb s).2) = Fs.balloc sb s.cache := by
  unfold balloc Fs.balloc
  cases (range sb.size).find? fun b => ¬ s.cache.used b with
  | none => rfl
  | some b => rfl

theorem cache_loadIndirect :
    ((loadIndirect sb s ip).1.cache, (loadIndirect sb s ip).2) = Fs.loadIndirect sb s.cache ip := by
  unfold loadIndirect Fs.loadIndirect
  rw [← cache_balloc]
  dsimp only
  split_ifs <;> rfl

theorem cache_bmap (bn : ℕ) : onCache (bmap sb s ip bn) = Fs.bmap sb s.cache ip bn := by
  unfold bmap Fs.bmap
  rw [← cache_loadIndirect, ← cache_balloc]
  generalize loadIndirect sb s ip = r
  obtain ⟨t, jp⟩ := r
  dsimp only
  rw [← cache_balloc]
  split_ifs <;> rfl

theorem cache_writeLoop (fuel off : ℕ) (src : List UInt8) (avail : ℕ) :
    onCache (writeLoop sb fuel s ip off src avail) =
    Fs.writeLoop sb fuel s.cache ip off src avail := by
  induction fuel generalizing s ip off src avail with
  | zero => rfl
  | succ fuel ih =>
    rw [writeLoop, Fs.writeLoop, ← cache_bmap]
    by_cases hnil : src = []
    · rw [if_pos hnil, if_pos hnil]
      rfl
    · rw [if_neg hnil, if_neg hnil]
      cases bmap sb s ip (off / bsize) with
      | error e => rfl
      | ok r =>
        obtain ⟨t, jp, addr⟩ := r
        dsimp only [onCache, Except.map]
        by_cases hzero : addr = 0
        · rw [if_pos hzero, if_pos hzero]
        · rw [if_neg hzero, if_neg hzero]
          by_cases hfault : avail < min src.length (bsize - off % bsize)
          · rw [if_pos hfault, if_pos hfault]
          · rw [if_neg hfault, if_neg hfault]
            exact ih _ _ _

/-- The buffers are those of `writei` on the plain map of blocks. -/
theorem cache_writei (inum off : ℕ) (src : List UInt8) (avail : ℕ) :
    onCache (writei sb s inum ip off src avail) = Fs.writei sb s.cache inum ip off src avail := by
  rw [writei, Fs.writei, ← cache_writeLoop]
  by_cases hfirst : ip.size < off ∨ 2 ^ 32 ≤ off + src.length
  · rw [if_pos hfirst, if_pos hfirst]
    rfl
  · rw [if_neg hfirst, if_neg hfirst]
    by_cases hmax : maxfile * bsize < off + src.length
    · rw [if_pos hmax, if_pos hmax]
      rfl
    · rw [if_neg hmax, if_neg hmax]
      cases writeLoop sb src.length s ip off src avail with
      | error e => rfl
      | ok r => rfl

end cache

section synced

def Synced (s : Buffers) : Prop := s.logged = s.cache

theorem Synced.logData (h : s.Synced) {b : ℕ} (x : Block) :
    (logData { s with cache := s.cache.setData b x } b).Synced := by
  unfold Synced at *
  simp only [Buffers.logData, h, Disk.setData, update_self]

theorem Synced.balloc (h : s.Synced) : (balloc sb s).1.Synced := by
  unfold Buffers.balloc
  cases (range sb.size).find? fun b => ¬ s.cache.used b with
  | none => exact h
  | some b =>
    apply Synced.logData
    unfold Synced at *
    simp only [logBit, h, update_self]

theorem Synced.loadIndirect (h : s.Synced) : (loadIndirect sb s ip).1.Synced := by
  unfold Buffers.loadIndirect
  dsimp only
  split_ifs
  · exact h.balloc
  · exact h.balloc
  · exact h

theorem Synced.bmap (h : s.Synced) {bn addr : ℕ} (hrun : bmap sb s ip bn = .ok (s', ip', addr)) :
    s'.Synced := by
  have hload : (Buffers.loadIndirect sb s ip).1.Synced := h.loadIndirect
  have hown : (Buffers.balloc sb s).1.Synced := h.balloc
  unfold Buffers.bmap at hrun
  generalize Buffers.loadIndirect sb s ip = r at hrun hload
  obtain ⟨t, jp⟩ := r
  have hentry : (Buffers.balloc sb t).1.Synced := hload.balloc
  dsimp only at hrun hload
  split_ifs at hrun <;> cases hrun
  · exact hown
  · exact hown
  · exact h
  · exact hload
  · exact hentry
  · exact hentry.logData _
  · exact hload

theorem write_nil (b : Block) (off : ℕ) : b.write off [] = b := by
  funext k
  simp [Block.write]

theorem setData_self (d : Disk) (b : ℕ) : d.setData b (d.data b) = d := by
  rw [Disk.setData, update_eq_self]

theorem Synced.writeLoop (h : s.Synced) (fuel : ℕ) {off last avail : ℕ} {src : List UInt8}
    (hwhole : WholeCopies off src.length avail)
    (hrun : writeLoop sb fuel s ip off src avail = .ok (s', ip', last)) : s'.Synced := by
  induction fuel generalizing s ip off src avail with
  | zero =>
    cases hrun
    exact h
  | succ fuel ih =>
    by_cases hnil : src = []
    · rw [Buffers.writeLoop, if_pos hnil] at hrun
      cases hrun
      exact h
    cases hbmap : Buffers.bmap sb s ip (off / bsize) with
    | error e =>
      rw [Buffers.writeLoop, if_neg hnil, hbmap] at hrun
      cases hrun
    | ok r =>
      obtain ⟨t, jp, addr⟩ := r
      have ht := h.bmap hbmap
      by_cases hzero : addr = 0
      · subst hzero
        rw [writeLoop_stop fuel hbmap hnil] at hrun
        cases hrun
        exact ht
      generalize hm : min src.length (bsize - off % bsize) = m
      rw [writeLoop_turn fuel hbmap hnil hzero hm] at hrun
      by_cases hfault : avail < m
      · -- the copy has failed at its first byte
        rw [if_pos hfault, hwhole.fault hm.symm hfault, Nat.min_zero, take_zero, store, write_nil,
          setData_self] at hrun
        cases hrun
        exact ht
      · rw [if_neg hfault] at hrun
        refine ih (ht.logData _) ?_ hrun
        rw [length_drop]
        exact hwhole.rest (not_lt.1 hfault)

theorem Synced.writei (h : s.Synced) {r : ℤ} (hoff : off ≤ ip.size)
    (hend : off + src.length ≤ maxfile * bsize) (hwhole : WholeCopies off src.length avail)
    (hrun : writei sb s inum ip off src avail = .ok (s', ip', r)) : s'.Synced := by
  rw [writei_accepted hoff hend] at hrun
  cases hloop : Buffers.writeLoop sb src.length s ip off src avail with
  | error e =>
    rw [hloop] at hrun
    cases hrun
  | ok x =>
    obtain ⟨t, jp, last⟩ := x
    have ht := h.writeLoop _ hwhole hloop
    rw [hloop] at hrun
    cases hrun
    unfold Synced at ht ⊢
    simp only [logInode, ht, Disk.iupdate, update_self]

theorem Synced.recycle (h : s.Synced) (b : ℕ) : s.recycle b = s := by
  obtain ⟨c, l⟩ := s
  cases h
  rw [Buffers.recycle, setData_self]

end synced

end Buffers

section fault

variable {sb : Super} {s s' t : Buffers} {ip ip' jp : Dinode} {off last avail : ℕ}
    {src : List UInt8}

theorem Buffers.le_of_writeLoop (fuel : ℕ)
    (hrun : writeLoop sb fuel s ip off src avail = .ok (s', ip', last)) : off ≤ last := by
  induction fuel generalizing s ip off src avail with
  | zero =>
    cases hrun
    exact le_rfl
  | succ fuel ih =>
    rw [Buffers.writeLoop] at hrun
    split at hrun
    · cases hrun
      exact le_rfl
    · split at hrun
      · cases hrun
      · dsimp only at hrun
        split_ifs at hrun
        · cases hrun
          exact le_rfl
        · cases hrun
          exact le_rfl
        · exact (Nat.le_add_right _ _).trans (ih hrun)

/-- A loop that finds no block for the first byte that cannot be read, or for one before it, does
not get to the copy that would fail. -/
theorem Buffers.writeLoop_of_no_block (fuel : ℕ)
    (hrun : writeLoop sb fuel s ip off src src.length = .ok (s', ip', last))
    (hlast : last ≤ (off + avail) / bsize * bsize) :
    writeLoop sb fuel s ip off src avail = .ok (s', ip', last) := by
  induction fuel generalizing s ip off src avail with
  | zero => exact hrun
  | succ fuel ih =>
    by_cases hnil : src = []
    · rw [writeLoop, if_pos hnil] at hrun ⊢
      exact hrun
    cases hbmap : bmap sb s ip (off / bsize) with
    | error e =>
      rw [writeLoop, if_neg hnil, hbmap] at hrun
      cases hrun
    | ok r =>
      obtain ⟨t, jp, addr⟩ := r
      by_cases hzero : addr = 0
      · subst hzero
        rw [writeLoop_stop fuel hbmap hnil] at hrun ⊢
        exact hrun
      generalize hm : min src.length (bsize - off % bsize) = m
      rw [writeLoop_turn fuel hbmap hnil hzero hm] at hrun ⊢
      rw [if_neg (by omega), min_eq_left (by omega)] at hrun
      have hle := le_of_writeLoop fuel hrun
      have hdiv : (off + avail) / bsize * bsize ≤ off + avail := Nat.div_mul_le_self _ _
      rw [if_neg (by omega), min_eq_left (by omega)]
      refine ih ?_ ?_
      · rw [length_drop]
        exact hrun
      · rwa [show off + m + (avail - m) = off + avail by omega]

theorem Buffers.Synced.store_unlogged (hs : s.Synced) {b o g : ℕ} (hg : 0 < g)
    (hsrc : g ≤ src.length) (hne : src.getD 0 0 ≠ s.cache.data b o) :
    (s.store b o (src.take g)).logged.data ≠ (s.store b o (src.take g)).cache.data := by
  intro heq
  have hat : s.logged.data b o = update s.cache.data b _ b o := congrFun (congrFun heq b) o
  rw [update_self, show s.logged = s.cache from hs, Block.write_apply, length_take,
    min_eq_left hsrc, if_pos ⟨le_rfl, by omega⟩, Nat.sub_self, getD_eq_getElem?_getD,
    getElem?_take_of_lt hg,
    ← getD_eq_getElem?_getD] at hat
  exact hne hat.symm

/-- If there are blocks up to that of the first byte that cannot be read, and the bytes before it in
its block are copied, then for some source the buffer of that block has bytes that are not
logged. -/
theorem Buffers.exists_unlogged (fuel more n : ℕ) (hs : s.Synced)
    (hrun : writeLoop sb fuel s ip off src (avail + 1) = .ok (t, jp, off + (avail + 1)))
    (hlen : src.length = avail + 1) (hpart : ¬ WholeCopies off n avail) :
    ∃ src' : List UInt8, src'.length = n ∧ ∃ s' ip' last,
      writeLoop sb (fuel + more) s ip off src' avail = .ok (s', ip', last) ∧
      s'.logged.data ≠ s'.cache.data := by
  induction fuel generalizing s ip off src avail n with
  | zero =>
    have hoff := congrArg (fun r => r.toOption.elim 0 fun x => x.2.2) hrun
    change off = off + (avail + 1) at hoff
    omega
  | succ fuel ih =>
    have hmore : fuel + 1 + more = fuel + more + 1 := by omega
    have hav : 0 < avail ∧ avail < n := by
      unfold WholeCopies at hpart
      omega
    have hnil : src ≠ [] := fun hnil => by simp [hnil] at hlen
    cases hbmap : bmap sb s ip (off / bsize) with
    | error e =>
      rw [writeLoop, if_neg hnil, hbmap] at hrun
      cases hrun
    | ok r =>
      obtain ⟨u, ip₁, addr⟩ := r
      have hu := hs.bmap hbmap
      by_cases hzero : addr = 0
      · subst hzero
        rw [writeLoop_stop fuel hbmap hnil, Except.ok.injEq, Prod.mk.injEq, Prod.mk.injEq] at hrun
        omega
      generalize hm : min n (bsize - off % bsize) = m
      have hturn (src' : List UInt8) (hsrc : src'.length = n) :=
        writeLoop_turn (a := avail) (fuel + more) hbmap (ne_nil_of_length_pos (by omega)) hzero
          (show min src'.length (bsize - off % bsize) = m by rw [hsrc, hm])
      rw [hmore]
      by_cases hfault : avail < m
      · -- the bytes are to differ from those that the block has
        refine ⟨replicate n (if u.cache.data addr (off % bsize) = 0 then 1 else 0),
          length_replicate, _, _, _, (hturn _ length_replicate).trans (if_pos hfault),
          hu.store_unlogged (by omega) (by rw [length_replicate]; omega) ?_⟩
        rw [getD_eq_getElem?_getD, getElem?_replicate, if_pos (by omega), Option.getD_some]
        split_ifs with hold
        · rw [hold]
          decide
        · exact fun h => hold h.symm
      · -- the turn is the same with all bytes readable
        rw [writeLoop_turn fuel hbmap hnil hzero
          (show min src.length (bsize - off % bsize) = m by omega)] at hrun
        rw [if_neg (by omega), min_eq_left (by omega)] at hrun
        have hpart' : ¬ WholeCopies (off + m) (n - m) (avail - m) := by
          unfold WholeCopies bsize at *
          omega
        rw [show avail + 1 - m = avail - m + 1 by omega,
          show off + (avail + 1) = off + m + (avail - m + 1) by omega] at hrun
        obtain ⟨rest, hrest, s', ip', last, hloop, hne⟩ :=
          ih _ (hu.logData _) hrun (by rw [length_drop]; omega) hpart'
        have htake : (src.take m).length = m := by
          rw [length_take]
          omega
        have hall : (src.take m ++ rest).length = n := by
          rw [length_append, htake]
          omega
        refine ⟨src.take m ++ rest, hall, s', ip', last, ?_, hne⟩
        rw [hturn _ hall, if_neg hfault, min_eq_left (by omega), take_left' htake, drop_left' htake]
        exact hloop

end fault

section reported

variable {sb : Super} {s s' : Buffers} {dn : ℕ → Dinode} {i : ℕ} {ip' : Dinode} {off n avail : ℕ}
  {src : List UInt8}

/-- The call has logged all that it has changed, and whatever buffers are recycled, later reads find
the reported part of the source at the offset and everything else as it was. -/
def Reported (sb : Super) (s : Buffers) (dn : ℕ → Dinode) (i off : ℕ) (src : List UInt8)
    (avail : ℕ) : Prop :=
  ∃ s' ip' r, Buffers.writei sb s i (dn i) off src avail = .ok (s', ip', r) ∧ s'.Synced ∧
    ∀ (bs : List ℕ) (off' n : ℕ), off' + n < 2 ^ 32 →
    readi sb (bs.foldl Buffers.recycle s').cache ip' off' n =
        .ok ((bs.foldl Buffers.recycle s').cache, ip',
          ((overwrite (contents s.cache.data (dn i)) off (src.take r.toNat)).drop off').take n)

theorem Buffers.Synced.recycles (h : s.Synced) (bs : List ℕ) : bs.foldl Buffers.recycle s = s := by
  induction bs with
  | nil => rfl
  | cons b bs ih => rw [foldl_cons, h.recycle, ih]

theorem Buffers.writei_of_cache {d' : Disk} {r : ℤ}
    (h : Fs.writei sb s.cache i (dn i) off src avail = .ok (d', ip', r)) :
    ∃ s', Buffers.writei sb s i (dn i) off src avail = .ok (s', ip', r) ∧ s'.cache = d' := by
  rw [← Buffers.cache_writei] at h
  cases hrun : Buffers.writei sb s i (dn i) off src avail with
  | error e =>
    rw [hrun] at h
    cases h
  | ok q =>
    obtain ⟨s', jp, r'⟩ := q
    rw [hrun] at h
    cases h
    exact ⟨s', rfl, rfl⟩

theorem reported_of_wholeCopies (hs : s.Synced) (h : Files sb s.cache dn)
    (hty : (dn i).type ≠ .none) (hoff : off ≤ (dn i).size)
    (hend : off + src.length ≤ maxfile * bsize)
    (hwhole : WholeCopies off src.length avail) : Reported sb s dn i off src avail := by
  obtain ⟨d', ip', tot, hrun, -, hwrote, -, -⟩ := h.writei hty hoff hend hwhole
  obtain ⟨s', hrun', rfl⟩ := Buffers.writei_of_cache hrun
  have hs' := hs.writei hoff hend hwhole hrun'
  have htype : (update dn i ip' i).type ≠ .none := by
    rw [update_self, hwrote.inode]
    exact hty
  refine ⟨s', ip', tot, hrun', hs', fun bs off' n hn => ?_⟩
  have hread := hwrote.files.readi htype hn
  rw [update_self, hwrote.contents] at hread
  rw [hs'.recycles, hread, Int.toNat_natCast]

theorem Room.mono {d : Disk} {ip : Dinode} {m : ℕ} (h : Room sb d ip m)
    (hle : ∀ bn, bn * bsize < n → bn * bsize < m) : Room sb d ip n := by
  refine le_trans (Finset.card_le_card fun pos hpos => ?_) h
  rw [missing, Finset.mem_filter] at hpos ⊢
  obtain ⟨hrange, hzero, bn, hbn, hlt, hneeds⟩ := hpos
  exact ⟨hrange, hzero, bn, hbn, hle bn hlt, hneeds⟩

/-- Without a block for the first byte that cannot be read the call is the one with all bytes
readable. -/
theorem reported_of_no_room (hs : s.Synced) (h : Files sb s.cache dn) (hty : (dn i).type ≠ .none)
    (hoff : off ≤ (dn i).size) (hend : off + src.length ≤ maxfile * bsize)
    (hroom : ¬ Room sb s.cache (dn i) (off + avail + 1)) : Reported sb s dn i off src avail := by
  have hwhole : WholeCopies off src.length src.length := .inl le_rfl
  suffices hsame : Buffers.writei sb s i (dn i) off src avail =
      Buffers.writei sb s i (dn i) off src src.length by
    have hreported := reported_of_wholeCopies hs h hty hoff hend hwhole
    unfold Reported at hreported ⊢
    rwa [hsame]
  obtain ⟨d', ip', tot, hrun, htot, hwrote, hfilled, -⟩ := h.writei hty hoff hend hwhole
  have hstop : off + tot ≤ (off + avail) / bsize * bsize := by
    by_contra hpast
    apply hroom
    refine (hwrote.room hfilled h hty le_rfl).mono fun bn hbn => ?_
    have hle : bn ≤ (off + avail) / bsize := (Nat.le_div_iff_mul_le (by decide)).2 (by omega)
    have hmul := Nat.mul_le_mul_right bsize hle
    have hsize : off + tot ≤ ip'.size := by
      rw [hwrote.inode, length_take, min_eq_left htot]
      exact le_max_right _ _
    omega
  obtain ⟨s', hrun', -⟩ := Buffers.writei_of_cache hrun
  rw [Buffers.writei_accepted hoff hend] at hrun' ⊢
  rw [Buffers.writei_accepted hoff hend]
  cases hloop : Buffers.writeLoop sb src.length s (dn i) off src src.length with
  | error e =>
    rw [hloop] at hrun'
    cases hrun'
  | ok x =>
    obtain ⟨t, jp, last⟩ := x
    rw [hloop] at hrun'
    have hlast : last - off = tot := by
      have := congrArg (fun r => r.toOption.elim 0 fun y => y.2.2) hrun'
      exact Int.ofNat.inj this
    have hle := Buffers.le_of_writeLoop _ hloop
    rw [Buffers.writeLoop_of_no_block _ hloop (by omega)]

/-- A call that finds blocks up to the first byte that cannot be read, and fails with a part of its
chunk copied, does not log it, for some source. -/
theorem not_reported (hs : s.Synced) (h : Files sb s.cache dn) (hty : (dn i).type ≠ .none)
    (hoff : off ≤ (dn i).size) (hend : off + n ≤ maxfile * bsize)
    (hroom : Room sb s.cache (dn i) (off + avail + 1)) (hpart : ¬ WholeCopies off n avail) :
    ∃ src : List UInt8, src.length = n ∧ ¬ Reported sb s dn i off src avail := by
  have hav : avail < n := by
    unfold WholeCopies at hpart
    omega
  have hlen : (replicate (avail + 1) (0 : UInt8)).length = avail + 1 := length_replicate
  have hend' : off + (replicate (avail + 1) (0 : UInt8)).length ≤ maxfile * bsize := by omega
  obtain ⟨d', ip', hrun, -⟩ := h.writei_of_room hty hoff
    (show off + (replicate (avail + 1) (0 : UInt8)).length ≤ off + avail + 1 by omega)
    (show off + avail + 1 ≤ maxfile * bsize by omega) hroom
  obtain ⟨s', hrun', -⟩ := Buffers.writei_of_cache hrun
  rw [Buffers.writei_accepted hoff hend', hlen] at hrun'
  cases hloop : Buffers.writeLoop sb (avail + 1) s (dn i) off (replicate (avail + 1) 0)
    (avail + 1) with
  | error e =>
    rw [hloop] at hrun'
    cases hrun'
  | ok x =>
    obtain ⟨t, jp, last⟩ := x
    rw [hloop] at hrun'
    have hlast : last - off = avail + 1 := by
      have := congrArg (fun r => r.toOption.elim 0 fun y => y.2.2) hrun'
      exact Int.ofNat.inj this
    obtain rfl : last = off + (avail + 1) := by omega
    obtain ⟨src, rfl, u, jp', last', hpartial, hne⟩ :=
      Buffers.exists_unlogged (avail + 1) (n - (avail + 1)) n hs hloop hlen hpart
    refine ⟨src, rfl, ?_⟩
    rintro ⟨v, jp'', r, hcall, hsynced, -⟩
    rw [Buffers.writei_accepted hoff hend,
      ← Nat.add_sub_cancel' (show avail + 1 ≤ src.length by omega), hpartial] at hcall
    cases hcall
    have hdata := congrArg Disk.data hsynced
    exact hne hdata

/-- The call is refused, or it finds no block for the first byte that cannot be read, or it copies
in whole chunks until that byte. -/
def Unharmed (sb : Super) (d : Disk) (ip : Dinode) (off n avail : ℕ) : Prop :=
  (ip.size < off ∨ maxfile * bsize < off + n) ∨ ¬ Room sb d ip (off + avail + 1) ∨
    WholeCopies off n avail

/-- These are the calls that log what they change and change what they report, whatever the source
has. -/
theorem writei_reported_iff (hs : s.Synced) (h : Files sb s.cache dn) (hty : (dn i).type ≠ .none)
    (off n avail : ℕ) : (∀ src : List UInt8, src.length = n → Reported sb s dn i off src avail) ↔
      Unharmed sb s.cache (dn i) off n avail := by
  by_cases hrefuse : (dn i).size < off ∨ maxfile * bsize < off + n
  · refine iff_of_true ?_ (.inl hrefuse)
    rintro src rfl
    refine ⟨s, dn i, -1, Buffers.writei_refused hrefuse, hs, fun bs off' n hn => ?_⟩
    have hnone : src.take (Int.toNat (-1)) = [] := take_zero
    rw [hs.recycles, h.readi hty hn, hnone, overwrite_nil]
  have hoff : off ≤ (dn i).size := by omega
  have hend : off + n ≤ maxfile * bsize := by omega
  constructor
  · intro hall
    refine .inr (Classical.or_iff_not_imp_left.2 fun hroom => ?_)
    by_contra hpart
    obtain ⟨src, hlen, hnot⟩ := not_reported hs h hty hoff hend (not_not.1 hroom) hpart
    exact hnot (hall src hlen)
  · rintro (hrefuse' | hroom | hwhole) src rfl
    · exact absurd hrefuse' hrefuse
    · exact reported_of_no_room hs h hty hoff hend hroom
    · exact reported_of_wholeCopies hs h hty hoff hend hwhole

theorem room_emptyFile : Room superblock emptyFile (emptyFile.dinode 2) 3 := by
  have hmissing : missing emptyFile (emptyFile.dinode 2) 3 ⊆ {0} := by
    intro pos hpos
    rw [missing, Finset.mem_filter] at hpos
    obtain ⟨-, -, bn, -, hbn, hneeds⟩ := hpos
    obtain rfl : bn = 0 := by
      unfold bsize at hbn
      omega
    rcases hneeds with rfl | ⟨-, hind⟩
    · decide
    · exact absurd hind (by decide)
  have hfree : 47 ∈ freeBlocksOf superblock emptyFile := by
    rw [freeBlocksOf, Finset.mem_filter, Finset.mem_range]
    decide +kernel
  exact (Finset.card_le_card hmissing).trans (Finset.card_pos.2 ⟨47, hfree⟩)

theorem writei_reported_iff_emptyFile :
    (Buffers.writei superblock ⟨emptyFile, emptyFile⟩ 2 (emptyFile.dinode 2) 0 [1, 2] 2).map
    (·.2.2) = .ok 2 ∧
    Reported superblock ⟨emptyFile, emptyFile⟩ emptyFile.dinode 2 0 [1, 2] 2 ∧
    ∃ src : List UInt8, src.length = 4 ∧
    ¬ Reported superblock ⟨emptyFile, emptyFile⟩ emptyFile.dinode 2 0 src 2 := by
  have hs : Buffers.Synced ⟨emptyFile, emptyFile⟩ := rfl
  have hiff := writei_reported_iff (i := 2) hs emptyFile_good.files (by decide) 0
  refine ⟨by decide +kernel, (hiff 2 2).2 (.inr (.inr (.inl le_rfl))) [1, 2] rfl, ?_⟩
  have hpart : ¬ Unharmed superblock emptyFile (emptyFile.dinode 2) 0 4 2 := by
    rintro (hrefuse | hroom | hwhole)
    · exact absurd hrefuse (by decide)
    · exact hroom room_emptyFile
    · unfold WholeCopies bsize at hwhole
      omega
  by_contra hall
  exact hpart ((hiff 4 2).1 fun src hlen => not_not.1 fun hnot => hall ⟨src, hlen, hnot⟩)

/-- A file of four bytes is overwritten from a source of which only two bytes can be read. The call
returns 0, two bytes of the file are new, and the old ones are back when the buffer has been
recycled. -/
theorem faulting_write_changes_file : ∃ s₁ ip₁ s₂ ip₂,
    s₁.Synced ∧ Files superblock s₁.cache (update emptyFile.dinode 2 ip₁) ∧
    Buffers.writei superblock ⟨emptyFile, emptyFile⟩ 2 (emptyFile.dinode 2) 0 [9, 9, 9, 9] 4 =
    .ok (s₁, ip₁, 4) ∧
    Buffers.writei superblock s₁ 2 ip₁ 0 [1, 2, 3, 4] 2 = .ok (s₂, ip₂, 0) ∧
    (readi superblock s₂.cache ip₂ 0 4).map (·.2.2) = .ok [1, 2, 9, 9] ∧
    (readi superblock (s₂.recycle 47).cache ip₂ 0 4).map (·.2.2) = .ok [9, 9, 9, 9] := by
  have hrun : (Buffers.writei superblock ⟨emptyFile, emptyFile⟩ 2 (emptyFile.dinode 2) 0
      [9, 9, 9, 9] 4).toOption.elim
      false (fun x => (Buffers.writei superblock x.1 2 x.2.1 0 [1, 2, 3, 4] 2).toOption.elim
        false fun y =>
        decide (x.2.2 = 4 ∧ y.2.2 = 0 ∧
          (readi superblock y.1.cache y.2.1 0 4).map (·.2.2) = .ok [1, 2, 9, 9] ∧
          (readi superblock (y.1.recycle 47).cache y.2.1 0 4).map (·.2.2) =
          .ok [9, 9, 9, 9])) = true := by
    decide +kernel
  have hs : Buffers.Synced ⟨emptyFile, emptyFile⟩ := rfl
  have hwhole : WholeCopies 0 [(9 : UInt8), 9, 9, 9].length 4 := .inl le_rfl
  have hty : (emptyFile.dinode 2).type ≠ .none := by decide
  obtain ⟨d₁, ip₁, tot, hcache, -, hwrote, -, -⟩ := emptyFile_good.files.writei hty
    (show 0 ≤ (emptyFile.dinode 2).size from Nat.zero_le _) (by decide) hwhole
  obtain ⟨s₁, hfirst, rfl⟩ := Buffers.writei_of_cache (s := ⟨emptyFile, emptyFile⟩) hcache
  rw [hfirst] at hrun
  dsimp only [Except.toOption, Option.elim_some] at hrun
  cases hsecond : Buffers.writei superblock s₁ 2 ip₁ 0 [1, 2, 3, 4] 2 with
  | error e =>
    rw [hsecond] at hrun
    cases hrun
  | ok q =>
    obtain ⟨s₂, ip₂, r₂⟩ := q
    rw [hsecond] at hrun
    obtain ⟨htot, rfl, hreads⟩ := of_decide_eq_true hrun
    rw [htot] at hfirst
    exact ⟨s₁, ip₁, s₂, ip₂, hs.writei (Nat.zero_le _) (by decide) hwhole hfirst, hwrote.files,
      hfirst, hsecond, hreads⟩

end reported

end Xv6.Fs
