import Xv6.Counting
import Xv6.FileArray
import Xv6.Transition

/-!
# Writers that share a file

`filewrite` cuts a request into chunks of at most `max` bytes and writes each in a transaction of
its own with the inode locked, at the offset that the `struct file` has then. The machine here has
any number of calls on one `struct file`; a step is one turn of the loop of one call. The chunks are
laid down in the order of the steps, each behind the one before.
-/

namespace Xv6.Fs

open Transition Function List Finset Prod

def maxopblocks : ℕ := 10

/-- `max` in `filewrite`. -/
def chunkMax : ℕ := (maxopblocks - 1 - 1 - 2) / 2 * bsize

/-- A call of `filewrite`: the bytes at its address, how many have been written, and what it has
returned. -/
structure Writer where
  src : List UInt8
  i : ℕ
  ret : Option ℤ

/-- The file of the calls `ι`, and the chunks in the order in which their writers had the inode
locked. A process that calls `filewrite` several times has a call for each. -/
structure Shared (ι : Type) where
  disk : Disk
  ip : Dinode
  off : ℕ
  calls : ι → Writer
  laid : List (ι × List UInt8)

variable {ι : Type} [DecidableEq ι]

/-- The body of the loop of `filewrite`, with copies that succeed. -/
def filewriteChunk (sb : Super) (inum : ℕ) (s : Shared ι) (c : ι) : Except Panic (Shared ι) :=
  let w := s.calls c
  let n1 := if chunkMax < w.src.length - w.i then chunkMax else w.src.length - w.i
  let chunk := (w.src.drop w.i).take n1
  match writei sb s.disk inum s.ip s.off chunk n1 with
  | .error e => .error e
  | .ok (d, ip, r) =>
    let off := if 0 < r then (s.off + r.toNat) % 2 ^ 32 else s.off
    let w := if r ≠ n1 then { w with ret := some (if w.i = w.src.length then w.src.length else -1) }
      else { w with i := w.i + r.toNat }
    .ok ⟨d, ip, off, update s.calls c w, s.laid ++ [(c, chunk)]⟩

def filewriteStep (sb : Super) (inum : ℕ) :
    Except Panic (Shared ι) → ι → Option (Except Panic (Shared ι))
  | .error _, _ => none
  | .ok s, c =>
    let w := s.calls c
    if w.ret ≠ none then none
    else if w.i < w.src.length then some (filewriteChunk sb inum s c)
    else
      let w := { w with ret := some (if w.i = w.src.length then (w.src.length : ℤ) else -1) }
      some (.ok { s with calls := update s.calls c w })

def Shared.bytes (s : Shared ι) : List UInt8 := s.laid.flatMap snd

def Shared.bytesOf (s : Shared ι) (c : ι) : List UInt8 := (s.laid.filter (·.1 = c)).flatMap snd

omit [DecidableEq ι] in
theorem Shared.bytes_concat (s : Shared ι) (d : Disk) (ip : Dinode) (off : ℕ)
    (calls : ι → Writer) (c : ι)
    (chunk : List UInt8) : (Shared.mk d ip off calls (s.laid ++ [(c, chunk)])).bytes =
    s.bytes ++ chunk := by
  simp [Shared.bytes]

theorem Shared.bytesOf_concat (s : Shared ι) (d : Disk) (ip : Dinode) (off : ℕ)
    (calls : ι → Writer) (c : ι) (chunk : List UInt8) (c' : ι) :
    (Shared.mk d ip off calls (s.laid ++ [(c, chunk)])).bytesOf c' =
      s.bytesOf c' ++ if c = c' then chunk else [] := by
  by_cases hc : c = c'
  · simp [Shared.bytesOf, hc]
  · simp [Shared.bytesOf, hc]

def Shared.start (d : Disk) (ip : Dinode) (off : ℕ) (src : ι → List UInt8) : Shared ι :=
  ⟨d, ip, off, fun c => ⟨src c, 0, none⟩, []⟩

section machine

variable {sb : Super} {d : Disk} {dn : ℕ → Dinode} {inum off : ℕ} {src : ι → List UInt8}

structure Writer.Ok (w : Writer) (src done : List UInt8) : Prop where
  source : w.src = src
  le : w.i ≤ src.length
  done : done = src.take w.i
  ret : ∀ r, w.ret = some r → r = src.length ∧ w.i = src.length

variable [Fintype ι]

structure SharedInv (sb : Super) (d : Disk) (dn : ℕ → Dinode) (inum off : ℕ) (src : ι → List UInt8)
    (s : Shared ι) : Prop where
  files : Files sb s.disk (update dn inum s.ip)
  type : s.ip.type ≠ .none
  contents : contents s.disk.data s.ip = overwrite (contents d.data (dn inum)) off s.bytes
  pos : s.off = off + s.bytes.length
  call : ∀ c, (s.calls c).Ok (src c) (s.bytesOf c)
  count : s.bytes.length = ∑ c, (s.calls c).i
  room : Room sb s.disk s.ip (off + ∑ c, (src c).length)

theorem start_inv (h : Files sb d dn) (hty : (dn inum).type ≠ .none)
    (hroom : Room sb d (dn inum) (off + ∑ c, (src c).length)) :
    SharedInv sb d dn inum off src (Shared.start d (dn inum) off src) where
  files := by rwa [Shared.start, update_eq_self]
  type := hty
  contents := overwrite_nil.symm
  pos := rfl
  call c := ⟨rfl, Nat.zero_le _, rfl, nofun⟩
  count := by simp [Shared.start, Shared.bytes]
  room := hroom

theorem SharedInv.off_le {s : Shared ι} (h : SharedInv sb d dn inum off src s)
    (hoff : off ≤ (dn inum).size) : s.off ≤ s.ip.size := by
  have hlen := congrArg List.length h.contents
  rw [length_contents, length_overwrite (by rwa [length_contents])] at hlen
  rw [h.pos, hlen]
  exact le_max_right _ _

theorem SharedInv.sum_add {s : Shared ι} (h : SharedInv sb d dn inum off src s) {c : ι} {n1 : ℕ}
    (hn1 : (s.calls c).i + n1 ≤ (src c).length) (w : Writer) (hw : w.i = (s.calls c).i + n1) :
    ∑ c', (update s.calls c w c').i = s.bytes.length + n1 ∧ s.bytes.length + n1 ≤ ∑ c',
    (src c').length := by
  have hchange := Counting.sum_change (mem_univ c)
    (e := fun c' => (update s.calls c w c').i) (f := fun c' => (s.calls c').i)
    fun c' hne => by rw [update_of_ne hne]
  rw [update_self, hw, ← h.count] at hchange
  have hle : ∑ c', (update s.calls c w c').i ≤ ∑ c', (src c').length := by
    refine sum_le_sum fun c' _ => ?_
    by_cases hc : c' = c
    · subst hc
      rwa [update_self, hw]
    · rw [update_of_ne hc]
      exact (h.call c').le
  omega

/-- A turn of the loop lays the next chunk of the call behind what is there. -/
theorem SharedInv.chunk {s : Shared ι} (h : SharedInv sb d dn inum off src s)
    (hoff : off ≤ (dn inum).size) (hmax : off + ∑ c, (src c).length ≤ maxfile * bsize) {c : ι}
    (hi : (s.calls c).i < (src c).length)
    (hret : (s.calls c).ret = none) :
    ∃ t, filewriteChunk sb inum s c = .ok t ∧ SharedInv sb d dn inum off src t ∧
    t.calls = update s.calls c
        ⟨src c, (s.calls c).i + min chunkMax ((src c).length - (s.calls c).i), none⟩ := by
  have hbound : maxfile * bsize < 2 ^ 32 := by norm_num [maxfile, ndirect, nindirect, bsize]
  have hpos : 0 < chunkMax := by decide
  have hsrc := (h.call c).source
  have hdone := (h.call c).done
  unfold filewriteChunk
  dsimp only
  rw [hsrc, hret]
  have hn1 : (if chunkMax < (src c).length - (s.calls c).i then chunkMax else (src c).length -
      (s.calls c).i) = min chunkMax ((src c).length - (s.calls c).i) := by
    split_ifs <;> omega
  rw [hn1]
  generalize hm : min chunkMax ((src c).length - (s.calls c).i) = n1
  have hlen : (((src c).drop (s.calls c).i).take n1).length = n1 := by
    rw [length_take, length_drop]
    omega
  generalize hchunk : ((src c).drop (s.calls c).i).take n1 = chunk at hlen
  obtain ⟨hsum, hle⟩ := h.sum_add (show (s.calls c).i + n1 ≤ (src c).length by omega)
    ⟨src c, (s.calls c).i + n1, none⟩ rfl
  have hfit : s.off + chunk.length ≤ off + ∑ c, (src c).length := by
    rw [h.pos, hlen]
    omega
  have hself : update dn inum s.ip inum = s.ip := update_self ..
  obtain ⟨d', ip', hrun, hwrote, hroom⟩ :=
    h.files.writei_of_room (i := inum) (by rw [hself]; exact h.type)
      (by rw [hself]; exact h.off_le hoff) hfit hmax (by rw [hself]; exact h.room)
  rw [hself, hlen] at hrun
  rw [hrun]
  have hnz : (0 : ℤ) < (n1 : ℕ) := by omega
  have hadd : (s.off + n1) % 2 ^ 32 = s.off + n1 := Nat.mod_eq_of_lt (by omega)
  dsimp only
  rw [if_pos hnz, Int.toNat_natCast, hadd, if_neg (not_not.2 rfl)]
  refine ⟨_, rfl, ⟨?_, ?_, ?_, ?_, ?_, ?_, ?_⟩, rfl⟩
  · have hfiles := hwrote.files
    rwa [update_idem] at hfiles
  · dsimp only
    rw [hwrote.inode, hself]
    exact h.type
  · have hcontents := hwrote.contents
    rw [hself, h.contents, h.pos, overwrite_append (by rwa [length_contents])] at hcontents
    rw [s.bytes_concat]
    exact hcontents
  · rw [s.bytes_concat, length_append, hlen, ← Nat.add_assoc, ← h.pos]
  · intro c'
    rw [s.bytesOf_concat]
    dsimp only
    by_cases hc : c = c'
    · subst hc
      rw [update_self, if_pos rfl, hdone, ← hchunk]
      refine ⟨rfl, by dsimp only; omega, ?_, fun _ hret => by cases hret⟩
      dsimp only
      rw [take_add]
    · rw [update_of_ne (Ne.symm hc), if_neg hc, append_nil]
      exact h.call c'
  · rw [s.bytes_concat, length_append, hlen]
    exact hsum.symm
  · exact hroom

def Writer.turns (w : Writer) : ℕ :=
  if w.ret ≠ none then 0 else (w.src.length - w.i + (chunkMax - 1)) / chunkMax + 1

theorem SharedInv.step {s : Shared ι} (h : SharedInv sb d dn inum off src s)
    (hoff : off ≤ (dn inum).size) (hmax : off + ∑ c, (src c).length ≤ maxfile * bsize) {c : ι}
    (hret : (s.calls c).ret = none) :
    ∃ t, filewriteStep sb inum (.ok s) c = some (.ok t) ∧ SharedInv sb d dn inum off src t ∧
      ∀ c', (t.calls c').turns + (if c = c' then 1 else 0) = (s.calls c').turns := by
  have hsrc := (h.call c).source
  have hpos : chunkMax = 3072 := by decide
  -- the steps of the call, when its record has become `w`
  have hturns : ∀ w : Writer, w.turns + 1 = (s.calls c).turns → ∀ c',
      (update s.calls c w c').turns + (if c = c' then 1 else 0) = (s.calls c').turns := by
    intro w hw c'
    by_cases hc : c = c'
    · subst hc
      rw [update_self, if_pos rfl, hw]
    · rw [update_of_ne (Ne.symm hc), if_neg hc, Nat.add_zero]
  rw [filewriteStep]
  dsimp only
  rw [if_neg (not_not.2 hret), hsrc]
  by_cases hi : (s.calls c).i < (src c).length
  · rw [if_pos hi]
    obtain ⟨t, hrun, ht, hcalls⟩ := h.chunk hoff hmax hi hret
    refine ⟨t, by rw [hrun], ht, fun c' => ?_⟩
    rw [hcalls]
    refine hturns _ ?_ c'
    rw [Writer.turns, Writer.turns, if_neg (not_not.2 rfl), if_neg (not_not.2 hret), hsrc, hpos]
    dsimp only
    omega
  · have hend : (s.calls c).i = (src c).length := le_antisymm (h.call c).le (not_lt.1 hi)
    rw [if_neg hi, if_pos hend]
    refine ⟨_, rfl, ⟨h.files, h.type, h.contents, h.pos, fun c' => ?_, ?_, h.room⟩,
      fun c' => hturns _ ?_ c'⟩
    · dsimp only
      by_cases hc : c' = c
      · subst hc
        have hok := h.call c'
        rw [update_self]
        exact ⟨rfl, hok.le, hok.done, fun r hr => ⟨(Option.some.inj hr).symm, hend⟩⟩
      · rw [update_of_ne hc]
        exact h.call c'
    · change s.bytes.length = _
      rw [h.count]
      refine sum_congr rfl fun c' _ => ?_
      dsimp only
      by_cases hc : c' = c
      · subst hc
        rw [update_self]
      · rw [update_of_ne hc]
    · rw [Writer.turns, Writer.turns, if_pos (by simp), if_neg (not_not.2 hret), hsrc,
        hend, Nat.sub_self]
      decide

theorem SharedInv.run {s : Shared ι} (h : SharedInv sb d dn inum off src s)
    (hoff : off ≤ (dn inum).size) (hmax : off + ∑ c, (src c).length ≤ maxfile * bsize) {cs : List ι}
    {r : Except Panic (Shared ι)}
    (hrun : run (filewriteStep sb inum) (.ok s) cs = some r) :
    ∃ t, r = .ok t ∧ SharedInv sb d dn inum off src t ∧ ∀ c,
    (t.calls c).turns + cs.count c = (s.calls c).turns := by
  induction cs generalizing s with
  | nil =>
    cases hrun
    exact ⟨s, rfl, h, fun c => rfl⟩
  | cons c cs ih =>
    obtain ⟨r', hstep, hrest⟩ := (run_cons_eq_some _ _ _ _ _).1 hrun
    have hret : (s.calls c).ret = none := by
      by_contra hne
      rw [filewriteStep] at hstep
      dsimp only at hstep
      rw [if_pos hne] at hstep
      cases hstep
    obtain ⟨u, hstep', hu, hturns⟩ := h.step hoff hmax hret
    cases hstep.symm.trans hstep'
    obtain ⟨t, hr, ht, hcount⟩ := ih hu hrest
    refine ⟨t, hr, ht, fun c' => ?_⟩
    have h₁ := hturns c'
    have h₂ := hcount c'
    by_cases hc : c = c'
    · subst hc
      rw [if_pos rfl] at h₁
      rw [count_cons_self]
      omega
    · rw [if_neg hc] at h₁
      rw [count_cons_of_ne hc]
      omega

omit [DecidableEq ι] [Fintype ι] in
theorem getElem?_laid {laid : List (ι × List UInt8)} {k j : ℕ} {c : ι} {chunk : List UInt8}
    (hk : laid[k]? = some (c, chunk)) (hj : j < chunk.length) :
    (laid.flatMap snd)[((laid.take k).flatMap snd).length + j]? = chunk[j]? := by
  obtain ⟨hlt, heq⟩ := List.getElem?_eq_some_iff.1 hk
  have hsplit : laid = laid.take k ++ (c, chunk) :: laid.drop (k + 1) := by
    rw [← heq, getElem_cons_drop, take_append_drop]
  have hflat : laid.flatMap snd =
      (laid.take k).flatMap snd ++ (chunk ++ (laid.drop (k + 1)).flatMap snd) := by
    conv_lhs => rw [hsplit]
    rw [flatMap_append, flatMap_cons]
  rw [hflat, List.getElem?_append_right (Nat.le_add_right _ _), Nat.add_sub_cancel_left,
    List.getElem?_append_left hj]

structure NothingLost (sb : Super) (d : Disk) (ip : Dinode) (inum off : ℕ) (src : ι → List UInt8)
    (cs : List ι) (t : Shared ι) : Prop where
  /-- The chunks lie back to back from the offset on. -/
  contents : contents t.disk.data t.ip = overwrite (Fs.contents d.data ip) off t.bytes
  /-- Each chunk is still there. -/
  kept : ∀ k c chunk, t.laid[k]? = some (c, chunk) → ∀ j < chunk.length,
    (Fs.contents t.disk.data t.ip)[off + ((t.laid.take k).flatMap snd).length + j]? = chunk[j]?
  /-- The chunks of a call are its bytes. -/
  call : ∀ c, t.bytesOf c = (src c).take (t.calls c).i
  pos : t.off = off + t.bytes.length
  returned : ∀ c r, (t.calls c).ret = some r → r = (src c).length ∧ t.bytesOf c = src c
  /-- A call that has not returned can go on, and returns after a turn for each of its chunks. -/
  enabled : ∀ c, (t.calls c).ret = none → ∃ u, filewriteStep sb inum (.ok t) c = some (.ok u)
  returns : ∀ c, ((src c).length + (chunkMax - 1)) / chunkMax + 1 ≤ cs.count c →
    (t.calls c).ret = some ((src c).length : ℤ)
  final : (∀ c, (t.calls c).ret ≠ none) → t.off = off + ∑ c, (src c).length
  /-- A call that is alone does what one `writei` does. -/
  alone : ∀ c, (∀ c', c' = c) → (t.calls c).ret ≠ none → ∃ d' ip',
    writei sb d inum ip off (src c) (src c).length = .ok (d', ip', ((src c).length : ℕ)) ∧
      Fs.contents d'.data ip' = Fs.contents t.disk.data t.ip ∧ ip'.size = t.ip.size

/-- Writes to a shared file lose nothing, in whatever order their chunks are written. -/
theorem shared_writes_lose_nothing (h : Files sb d dn) (hty : (dn inum).type ≠ .none)
    (hoff : off ≤ (dn inum).size) (hmax : off + ∑ c, (src c).length ≤ maxfile * bsize)
    (hroom : Room sb d (dn inum) (off + ∑ c, (src c).length)) {cs : List ι}
    {r : Except Panic (Shared ι)}
    (hrun : Transition.run (filewriteStep sb inum) (.ok (Shared.start d (dn inum) off src)) cs =
      some r) :
    ∃ t, r = .ok t ∧ NothingLost sb d (dn inum) inum off src cs t := by
  obtain ⟨t, rfl, ht, hcount⟩ := (start_inv h hty hroom).run hoff hmax hrun
  have hoff' : off ≤ (contents d.data (dn inum)).length := by rwa [length_contents]
  have hreturned : ∀ c r, (t.calls c).ret = some r → r = (src c).length ∧ t.bytesOf c = src c := by
    intro c r hr
    obtain ⟨hr', hi⟩ := (ht.call c).ret r hr
    rw [(ht.call c).done, hi, take_length]
    exact ⟨hr', rfl⟩
  refine ⟨t, rfl, ht.contents, fun k c chunk hk j hj => ?_, fun c => (ht.call c).done,
    ht.pos, hreturned,
    fun c hret => ?_, fun c hturns => ?_, fun hall => ?_, fun c halone hret => ?_⟩
  · have hplace : t.bytes[((t.laid.take k).flatMap snd).length + j]? = chunk[j]? :=
      getElem?_laid hk hj
    have hin : ((t.laid.take k).flatMap snd).length + j < t.bytes.length := by
      by_contra hout
      rw [List.getElem?_eq_none (not_lt.1 hout), eq_comm, List.getElem?_eq_none_iff] at hplace
      omega
    rw [ht.contents, getElem?_overwrite hoff', if_pos (by omega), ← hplace]
    congr 1
    omega
  · obtain ⟨u, hstep, -⟩ := ht.step hoff hmax hret
    exact ⟨u, hstep⟩
  · have hall : (t.calls c).turns + cs.count c = ((src c).length + (chunkMax - 1)) / chunkMax + 1 :=
      hcount c
    cases hret : (t.calls c).ret with
    | none =>
      have hmore : 0 < (t.calls c).turns := by
        rw [Writer.turns, if_neg (not_not.2 hret)]
        exact Nat.succ_pos _
      omega
    | some r => rw [(hreturned c r hret).1]
  · rw [ht.pos, ht.count]
    congr 1
    refine sum_congr rfl fun c _ => ?_
    obtain ⟨r, hr⟩ := Option.ne_none_iff_exists'.1 (hall c)
    exact ((ht.call c).ret r hr).2
  · obtain ⟨r, hr⟩ := Option.ne_none_iff_exists'.1 hret
    have hbytes : t.bytes = src c := by
      rw [← (hreturned c r hr).2, Shared.bytes, Shared.bytesOf, filter_eq_self.2]
      intro x _
      exact decide_eq_true (halone x.1)
    have hle : (src c).length ≤ ∑ c, (src c).length :=
      single_le_sum (f := fun c => (src c).length) (fun _ _ => Nat.zero_le _) (mem_univ c)
    obtain ⟨d', ip', hwrite, hwrote, -⟩ := h.writei_of_room hty hoff
      (show off + (src c).length ≤ _ from Nat.add_le_add_left hle off) hmax hroom
    have hcontents : contents d'.data ip' = contents t.disk.data t.ip := by
      rw [hwrote.contents, ht.contents, hbytes]
    have hsize := congrArg List.length hcontents
    rw [length_contents, length_contents] at hsize
    exact ⟨d', ip', hwrite, hcontents, hsize⟩

theorem shared_writes_lose_nothing_emptyFile : ∃ t : Shared Bool,
    Transition.run (filewriteStep superblock 2) (.ok (Shared.start emptyFile (emptyFile.dinode 2) 0
      fun c => if c then [1, 2] else [3, 4, 5])) [true, false, false, true] = some (.ok t) ∧
    NothingLost superblock emptyFile (emptyFile.dinode 2) 2 0
      (fun c => if c then [1, 2] else [3, 4, 5]) [true, false, false, true] t := by
  have hrun : (Transition.run (filewriteStep superblock 2)
      (.ok (Shared.start emptyFile (emptyFile.dinode 2) 0
      fun c => if c then [1, 2] else [3, 4, 5])) [true, false, false, true]).isSome = true := by
    decide +kernel
  obtain ⟨r, hr⟩ := Option.isSome_iff_exists.1 hrun
  have hroom : Room superblock emptyFile (emptyFile.dinode 2)
      (0 + ∑ c : Bool, (if c then [1, 2] else [3, 4, 5] : List UInt8).length) := by
    have hfree : maxfile + 1 ≤ (freeBlocksOf superblock emptyFile).card := by decide +kernel
    refine le_trans ?_ hfree
    exact (card_filter_le _ _).trans_eq (card_range _)
  obtain ⟨t, rfl, ht⟩ := shared_writes_lose_nothing emptyFile_good.files (by decide) (Nat.zero_le _)
    (by decide) hroom hr
  exact ⟨t, hr, ht⟩

end machine

end Xv6.Fs
