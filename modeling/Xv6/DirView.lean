import Xv6.FileData

/-!
# Directories as slots

A directory is a file of entries, and slot `k` is the entry at offset `deSize * k`. The functions of
the source that go through a directory are specified by its slots here: a lookup finds the first
slot with the name, a new entry goes to a slot that was free, and the entry that `sys_unlink`
overwrites with zeros is a free slot afterwards. A directory whose size is no multiple of an entry
makes the loops panic, which is one of the outcomes.
-/

namespace Xv6.Fs

open Function List Nat

variable {sb : Super} {d : Disk} {dn : ℕ → Dinode} {i : ℕ} {ip dp : Dinode} {data : ℕ → Block}

def slotBytes (data : ℕ → Block) (dp : Dinode) (k : ℕ) : List UInt8 :=
  (List.range deSize).map fun j => byteAt data dp (deSize * k + j)

/-- The entry in slot `k`; what lies behind the end of the directory is free. -/
def slot (data : ℕ → Block) (dp : Dinode) (k : ℕ) : Dirent :=
  if deSize * (k + 1) ≤ dp.size then Dirent.decode (slotBytes data dp k) else ⟨0, []⟩

theorem slot_of_gt {k : ℕ} (hk : dp.size < deSize * (k + 1)) : slot data dp k = ⟨0, []⟩ :=
  if_neg (by omega)

section encode

theorem takeWhile_name {name : Name} (hname : ∀ b ∈ name, b ≠ 0) (n : ℕ) :
    (name ++ List.replicate n 0).takeWhile (· ≠ 0) = name := by
  have htail : (List.replicate n (0 : UInt8)).takeWhile (· ≠ 0) = [] := by
    cases n with
    | zero => rfl
    | succ n => simp [replicate_succ]
  rw [takeWhile_append_of_pos (by simpa using hname), htail, append_nil]

structure Name.Ok (name : Name) : Prop where
  nonzero : ∀ b ∈ name, b ≠ 0
  length_le : name.length ≤ dirsiz

theorem decode_encode (inum : ℕ) {name : Name} (hname : name.Ok) :
    Dirent.decode (Dirent.encode ⟨inum, name⟩) = ⟨inum % 65536, name⟩ := by
  have hlow : inum % 256 + 256 * (inum / 256 % 256) = inum % 65536 := by omega
  simp only [Dirent.decode, Dirent.encode, drop_succ_cons, drop_zero,
    takeWhile_name hname.nonzero, getD_cons_zero, getD_cons_succ, UInt8.toNat_ofNat']
  simpa using hlow

theorem length_encode (inum : ℕ) {name : Name} (hname : name.length ≤ dirsiz) :
    (Dirent.encode ⟨inum, name⟩).length = deSize := by
  simp only [Dirent.encode, length_cons, length_append, length_replicate]
  simp only [deSize, dirsiz] at *
  omega

theorem decode_zeros : Dirent.decode (List.replicate deSize 0) = ⟨0, []⟩ := by
  decide

end encode

section read

/-- Reading the entry at a slot gives its bytes, or less than an entry at the end. -/
theorem readi_slot (sb : Super) (hmap : MappedTo d.data dp dp.size) {k : ℕ}
    (hk : deSize * k < dp.size) : (deSize * (k + 1) ≤ dp.size ∧
      readi sb d dp (deSize * k) deSize = .ok (d, dp, slotBytes d.data dp k)) ∨
    (dp.size < deSize * (k + 1) ∧ ∃ bytes : List UInt8, bytes.length ≠ deSize ∧
      readi sb d dp (deSize * k) deSize = .ok (d, dp, bytes)) := by
  have hsize := hmap.le_maxfile
  have hbound : maxfile * bsize + deSize < 2 ^ 32 := by
    norm_num [maxfile, ndirect, nindirect, bsize, deSize]
  have hread : readi sb d dp (deSize * k) deSize = _ := readi_spec hmap hk.le (by omega)
  by_cases hend : deSize * (k + 1) ≤ dp.size
  · have hmin : min deSize (dp.size - deSize * k) = deSize := by
      rw [mul_succ] at hend
      omega
    rw [hmin] at hread
    exact .inl ⟨hend, hread⟩
  · have hlt : dp.size - deSize * k < deSize := by
      rw [mul_succ] at hend
      omega
    refine .inr ⟨by omega, _, ?_, hread⟩
    simp only [length_map, length_range]
    omega

theorem length_slotBytes (k : ℕ) : (slotBytes data dp k).length = deSize := by
  simp [slotBytes]

theorem slots_spec (size off k : ℕ) : k < slots size off ↔ off + deSize * k < size := by
  simp only [slots, deSize]
  omega

theorem not_dvd_of_short {size k : ℕ} (hk : deSize * k < size) (hend : size < deSize * (k + 1)) :
    ¬ deSize ∣ size := by
  rintro ⟨m, rfl⟩
  have hlt : k < m := Nat.lt_of_mul_lt_mul_left hk
  have hgt : m < k + 1 := Nat.lt_of_mul_lt_mul_left hend
  omega

/-- A loop over the entries from slot `j` on, which stops at the first hit. Each such loop unfolds
to this by `rfl`; it fails at an entry that is cut off. -/
theorem scan_spec {α : Type} (loop : ℕ → Disk → Dinode → ℕ → Except Panic α) (err : Panic)
    (hit : Dirent → Prop) [DecidablePred hit] (found : Disk → Dinode → ℕ → Dirent → α)
    (done : Disk → Dinode → ℕ → α)
    (hzero : ∀ d dp off, loop 0 d dp off = .ok (done d dp off))
    (hsucc : ∀ n d dp off, loop (n + 1) d dp off =
      match readi sb d dp off deSize with
      | .error e => .error e
      | .ok (d, dp, bytes) =>
        if bytes.length ≠ deSize then .error err
        else if hit (Dirent.decode bytes) then .ok (found d dp off (Dirent.decode bytes))
        else loop n d dp (off + deSize))
    (hmap : MappedTo d.data dp dp.size) (n j : ℕ) (hn : deSize * (j + n) < dp.size + deSize) :
    (¬ deSize ∣ dp.size ∧ loop n d dp (deSize * j) = .error err) ∨
    (∃ k, loop n d dp (deSize * j) = .ok (found d dp (deSize * k) (slot d.data dp k)) ∧
      hit (slot d.data dp k) ∧ ∀ m, j ≤ m → m < k → ¬ hit (slot d.data dp m)) ∨
    (loop n d dp (deSize * j) = .ok (done d dp (deSize * (j + n))) ∧
      ∀ m, j ≤ m → m < j + n → ¬ hit (slot d.data dp m)) := by
  induction n generalizing j with
  | zero => exact .inr (.inr ⟨hzero _ _ _, fun m hm hlt => by omega⟩)
  | succ n ih =>
    have hj : deSize * j < dp.size := by
      simp only [deSize] at *
      omega
    have hrest : j + 1 + n = j + (n + 1) := by omega
    rw [hsucc]
    rcases readi_slot sb hmap hj with ⟨hend, hread⟩ | ⟨hend, bytes, hlen, hread⟩
    · have hslot : slot d.data dp j = Dirent.decode (slotBytes d.data dp j) := if_pos hend
      simp only [hread, length_slotBytes, ne_eq, not_true_eq_false, if_false, ← hslot]
      by_cases hhit : hit (slot d.data dp j)
      · rw [if_pos hhit]
        exact .inr (.inl ⟨j, rfl, hhit, fun m hm hlt => by omega⟩)
      · rw [if_neg hhit, ← mul_succ]
        have hfirst {m : ℕ} (hm : j ≤ m) (hlater : j + 1 ≤ m → ¬ hit (slot d.data dp m)) :
            ¬ hit (slot d.data dp m) := by
          by_cases hmj : m = j
          · rwa [hmj]
          · exact hlater (by omega)
        rcases ih (j + 1) (by rwa [hrest]) with herr | ⟨k, hrun, hk, hbefore⟩ | ⟨hrun, hnone⟩
        · exact .inl herr
        · exact .inr (.inl ⟨k, hrun, hk, fun m hm hlt => hfirst hm fun hle => hbefore m hle hlt⟩)
        · rw [hrest] at hrun hnone
          exact .inr (.inr ⟨hrun, fun m hm hlt => hfirst hm fun hle => hnone m hle hlt⟩)
    · simp only [hread, if_pos hlen]
      exact .inl ⟨not_dvd_of_short hj hend, trivial⟩

/-- `dirlookup` finds the first slot with the name, or none has it; it changes nothing. -/
theorem dirlookup_spec (sb : Super) (name : Name) (hty : dp.type = .dir)
    (hmap : MappedTo d.data dp dp.size) :
    (¬ deSize ∣ dp.size ∧ dirlookup sb d dp name = .error .dirlookupRead) ∨
    (∃ k inum, dirlookup sb d dp name = .ok (d, dp, some (deSize * k, inum)) ∧
      slot d.data dp k = ⟨inum, name⟩ ∧ inum ≠ 0) ∨ (dirlookup sb d dp name = .ok (d, dp, none) ∧
      ∀ k, (slot d.data dp k).inum ≠ 0 → (slot d.data dp k).name ≠ name) := by
  have hn : deSize * (0 + slots dp.size 0) < dp.size + deSize := by
    simp only [slots, deSize]
    omega
  have hrun : dirlookup sb d dp name = dirlookupLoop sb name (slots dp.size 0) d dp (deSize * 0) :=
    if_neg (not_not.2 hty)
  rw [hrun]
  rcases scan_spec (dirlookupLoop sb name) .dirlookupRead (fun e => e.inum ≠ 0 ∧ e.name = name)
      (fun d dp off e => (d, dp, some (off, e.inum))) (fun d dp _ => (d, dp, none))
      (fun _ _ _ => rfl)
      (fun _ _ _ _ => rfl) hmap _ 0 hn with herr | ⟨k, hloop, hhit, -⟩ | ⟨hloop, hnone⟩
  · exact .inl herr
  · refine .inr (.inl ⟨k, _, hloop, ?_, hhit.1⟩)
    rw [← hhit.2]
  · refine .inr (.inr ⟨hloop, fun k hlive hname => ?_⟩)
    refine hnone k (zero_le k) ?_ ⟨hlive, hname⟩
    rw [zero_add, slots_spec]
    by_contra hend
    rw [slot_of_gt (by simp only [deSize] at *; omega)] at hlive
    exact hlive rfl

/-- The search of `dirlink` stops at the first slot that is free. -/
theorem emptyLoop_spec (sb : Super) (hmap : MappedTo d.data dp dp.size) :
    (¬ deSize ∣ dp.size ∧ emptyLoop sb (slots dp.size 0) d dp 0 = .error .dirlinkRead) ∨
    ∃ k, emptyLoop sb (slots dp.size 0) d dp 0 = .ok (d, dp, deSize * k) ∧
      (slot d.data dp k).inum = 0 ∧ ∀ m < k, (slot d.data dp m).inum ≠ 0 := by
  have hend : dp.size ≤ deSize * (0 + slots dp.size 0) ∧
      deSize * (0 + slots dp.size 0) < dp.size + deSize := by
    simp only [slots, deSize]
    omega
  rcases scan_spec (emptyLoop sb) .dirlinkRead (fun e => e.inum = 0)
    (fun d dp off _ => (d, dp, off))
      (fun d dp off => (d, dp, off)) (fun _ _ _ => rfl) (fun _ _ _ _ => rfl) hmap _ 0 hend.2 with
    herr | ⟨k, hloop, hfree, hbefore⟩ | ⟨hloop, hnone⟩
  · exact .inl herr
  · exact .inr ⟨k, hloop, hfree, fun m => hbefore m (zero_le m)⟩
  · refine .inr ⟨_, hloop, ?_, fun m => hnone m (zero_le m)⟩
    rw [slot_of_gt (by simp only [deSize] at *; omega)]

theorem isdirempty_spec (sb : Super) (hmap : MappedTo d.data dp dp.size) :
    isdirempty sb d dp = .error .isdiremptyReadi ∨ isdirempty sb d dp = .ok (d, dp, false) ∨
    (isdirempty sb d dp = .ok (d, dp, true) ∧ ∀ k, 2 ≤ k → (slot d.data dp k).inum = 0) := by
  have hdef : isdirempty sb d dp =
      isdiremptyLoop sb (slots dp.size (2 * deSize)) d dp (deSize * 2) := rfl
  rw [hdef]
  by_cases hsize : 2 * deSize < dp.size
  · have hn : deSize * (2 + slots dp.size (2 * deSize)) < dp.size + deSize := by
      simp only [slots, deSize] at *
      omega
    rcases scan_spec (isdiremptyLoop sb) .isdiremptyReadi (fun e => e.inum ≠ 0)
      (fun d dp _ _ => (d, dp, false))
        (fun d dp _ => (d, dp, true)) (fun _ _ _ => rfl) (fun _ _ _ _ => rfl) hmap _ 2 hn with
      herr | ⟨k, hloop, -⟩ | ⟨hloop, hnone⟩
    · exact .inl herr.2
    · exact .inr (.inl hloop)
    · refine .inr (.inr ⟨hloop, fun k hk => ?_⟩)
      by_cases hlt : k < 2 + slots dp.size (2 * deSize)
      · exact not_not.1 (hnone k hk hlt)
      · rw [slot_of_gt]
        simp only [slots, deSize] at *
        omega
  · have hzero : slots dp.size (2 * deSize) = 0 := by
      simp only [slots, deSize] at *
      omega
    refine .inr (.inr ⟨by rw [hzero]; rfl, fun k hk => ?_⟩)
    rw [slot_of_gt]
    simp only [deSize] at *
    omega

end read

section good

/-- The bitmap is exact for the inodes on disk, and every inode is mapped up to its size. -/
structure Good (sb : Super) (d : Disk) : Prop where
  owned : Owned sb d d.dinode
  mapped : ∀ i, (d.dinode i).type ≠ .none → MappedTo d.data (d.dinode i) (d.dinode i).size

structure Touches (i : ℕ) (d d' : Disk) : Prop where
  dinode : ∀ j, j ≠ i → d'.dinode j = d.dinode j
  addrs : ∀ j, j ≠ i → (d.dinode j).type ≠ .none → ∀ pos,
    addrAt d'.data (d.dinode j) pos = addrAt d.data (d.dinode j) pos
  bytes : ∀ j, j ≠ i → (d.dinode j).type ≠ .none → ∀ o,
    addrAt d.data (d.dinode j) (position (o / bsize)) ≠ 0 →
    byteAt d'.data (d.dinode j) o = byteAt d.data (d.dinode j) o

variable {d' : Disk} {ip' : Dinode}

theorem Touches.refl : Touches i d d where
  dinode _ _ := rfl
  addrs _ _ _ _ := rfl
  bytes _ _ _ _ _ := rfl

theorem Good.owned_update (h : Good sb d) (i : ℕ) :
    Owned sb d (update d.dinode i (d.dinode i)) := by
  rw [update_eq_self]
  exact h.owned

theorem Owned.other_block (h : Owned sb d (update dn i ip)) (hty : ip.type ≠ .none)
    {j : ℕ} (hj : j ≠ i) (htyj : (dn j).type ≠ .none) {pos : ℕ}
    (hpos : addrAt d.data (dn j) pos ≠ 0) :
    d.used (addrAt d.data (dn j) pos) = true ∧ ∀ q,
    addrAt d.data ip q ≠ addrAt d.data (dn j) pos := by
  have hhold : holdings d.data (update dn i ip) (j, pos) = addrAt d.data (dn j) pos := by
    rw [holdings_update_of_ne hj, holdings, if_neg htyj]
  constructor
  · rw [← hhold]
    exact h.exact.used_of_hold (by rwa [hhold])
  · intro q heq
    have hkey :=
      h.exact.inj (j, pos) (i, q) (by rw [hhold, holdings_update_self hty, heq]) (by rwa [hhold])
    exact hj (congrArg Prod.fst hkey)

theorem Writes.addrAt_other (hw : Writes d ip d' ip') (h : Owned sb d (update dn i ip))
    (hty : ip.type ≠ .none) {j : ℕ} (hj : j ≠ i) (htyj : (dn j).type ≠ .none) (pos : ℕ) :
    addrAt d'.data (dn j) pos = addrAt d.data (dn j) pos := by
  by_cases hind : (dn j).addrs ndirect = 0
  · simp [addrAt, hind]
  · have hat : addrAt d.data (dn j) ndirect = (dn j).addrs ndirect := by
      simp [addrAt]
    have hne : addrAt d.data (dn j) ndirect ≠ 0 := by rwa [hat]
    have hblock := h.other_block hty hj htyj hne
    rw [hat] at hblock
    simp only [addrAt, hw.frame _ hblock.1 hblock.2]

theorem Writes.byteAt_other (hw : Writes d ip d' ip') (h : Owned sb d (update dn i ip))
    (hty : ip.type ≠ .none) {j : ℕ} (hj : j ≠ i) (htyj : (dn j).type ≠ .none) {o : ℕ}
    (ho : addrAt d.data (dn j) (position (o / bsize)) ≠ 0) :
    byteAt d'.data (dn j) o = byteAt d.data (dn j) o := by
  have hblock := h.other_block hty hj htyj ho
  rw [byteAt, hw.addrAt_other h hty hj htyj, hw.frame _ hblock.1 hblock.2, byteAt]

theorem Writes.touches (hw : Writes d ip d' ip') (h : Owned sb d (update d.dinode i ip))
    (hty : ip.type ≠ .none) (jp : Dinode) : Touches i d (d'.iupdate i jp) where
  dinode j hj := by simp [Disk.iupdate, hj, hw.dinode]
  addrs j hj htyj pos := hw.addrAt_other h hty hj htyj pos
  bytes j hj htyj o ho := hw.byteAt_other h hty hj htyj ho

theorem Touches.mapped (h : Touches i d d') {j : ℕ} (hj : j ≠ i)
    (hty : (d.dinode j).type ≠ .none) {n : ℕ} (hmap : MappedTo d.data (d.dinode j) n) :
    MappedTo d'.data (d'.dinode j) n := by
  intro bn hbn
  rw [h.dinode j hj, h.addrs j hj hty]
  exact hmap bn hbn

theorem Touches.slot (h : Touches i d d') {j : ℕ} (hj : j ≠ i) (hty : (d.dinode j).type ≠ .none)
    (hmap : MappedTo d.data (d.dinode j) (d.dinode j).size) (k : ℕ) :
    slot d'.data (d'.dinode j) k = slot d.data (d.dinode j) k := by
  rw [h.dinode j hj]
  simp only [Fs.slot]
  split_ifs with hk
  · congr 1
    apply map_congr_left
    intro m hm
    have hlt : m < deSize := mem_range.1 hm
    apply h.bytes j hj hty
    apply hmap
    apply div_mul_le_of_lt
    rw [mul_succ] at hk
    omega
  · rfl

theorem Good.of_touches (h : Good sb d) (ht : Touches i d d') (hown : Owned sb d' d'.dinode)
    (hmap : (d'.dinode i).type ≠ .none → MappedTo d'.data (d'.dinode i) (d'.dinode i).size) :
    Good sb d' := by
  refine ⟨hown, fun j hty => ?_⟩
  by_cases hj : j = i
  · subst hj
    exact hmap hty
  · have heq := ht.dinode j hj
    rw [heq] at hty
    have hmapped := ht.mapped hj hty (h.mapped j hty)
    rwa [heq] at hmapped ⊢

structure Stepped (sb : Super) (i : ℕ) (d d' : Disk) (ip' : Dinode) : Prop where
  good : Good sb d'
  touches : Touches i d d'
  stored : d'.dinode i = ip'
  same : ip' = { d.dinode i with size := ip'.size, addrs := ip'.addrs }

theorem Good.stepped_refl (h : Good sb d) (i : ℕ) : Stepped sb i d d (d.dinode i) :=
  ⟨h, Touches.refl, rfl, rfl⟩

theorem iupdate_dinode (hdn : d'.dinode = d.dinode) (i : ℕ) (jp : Dinode) :
    (d'.iupdate i jp).dinode = update d.dinode i jp := by
  rw [Disk.iupdate, hdn]

theorem Good.writei_cases (h : Good sb d) (hty : (d.dinode i).type ≠ .none) (off : ℕ)
    (src : List UInt8) (avail : ℕ) : writei sb d i (d.dinode i) off src avail =
    .ok (d, d.dinode i, -1) ∨
    ∃ d' ip' last, writei sb d i (d.dinode i) off src avail = .ok (d', ip', (last - off : ℕ)) ∧
      Stepped sb i d d' ip' ∧ off ≤ (d.dinode i).size ∧ ip'.size = max (d.dinode i).size last ∧
      Written sb d (d.dinode i) d' ip' off src avail last := by
  rcases writei_spec off src avail (h.owned_update i) hty (h.mapped i hty) with
    ⟨href, -⟩ | ⟨d', ip', last, hwrite, hoff, hown, hw, hwritten, hmap⟩
  · exact .inl href
  · right
    have hdn := iupdate_dinode hw.dinode i (ip'.grownTo last)
    have hstored : (d'.iupdate i (ip'.grownTo last)).dinode i = ip'.grownTo last := by
      simp [Disk.iupdate]
    have ht := hw.touches (h.owned_update i) hty (ip'.grownTo last)
    have hsize : ip'.size = (d.dinode i).size := by rw [hw.inode]
    refine ⟨_, _, last, hwrite, ⟨?_, ht, hstored, ?_⟩, hoff, ?_, ?_⟩
    · apply h.of_touches ht
      · rw [hdn]
        exact ⟨hown.exact, hown.reserved⟩
      · intro _
        rw [hstored]
        exact hmap
    · rw [hw.inode]
      rfl
    · simp only [Dinode.grownTo, hsize]
      split_ifs <;> omega
    · exact { hwritten with }

end good

section slots

variable {d' : Disk} {ip' : Dinode} {src : List UInt8}

/-- An entry is written at once or not at all: it lies in one block. -/
theorem Written.slot_last {avail k last : ℕ} (hlen : src.length = deSize)
    (h : Written sb d ip d' ip' (deSize * k) src avail last) : last = deSize * k ∨
    last = deSize * (k + 1) := by
  have hle := h.le
  have hlast := h.last_le
  have hstops := h.stops
  simp only [hlen, deSize, bsize] at *
  omega

theorem map_getD_range : (List.range src.length).map (fun j => src.getD j 0) = src := by
  apply ext_getElem
  · simp
  · intro j hj hj'
    simp [hj']

/-- After an entry has been written to a slot, that slot has it and the others are as before. -/
theorem Written.slot_of_full {avail k : ℕ} (hlen : src.length = deSize)
    (hmap : MappedTo d.data ip ip.size) (hk : deSize * k ≤ ip.size)
    (hsize : ip'.size = max ip.size (deSize * (k + 1)))
    (h : Written sb d ip d' ip' (deSize * k) src avail (deSize * (k + 1))) (m : ℕ) :
    slot d'.data ip' m = if m = k then Dirent.decode src else slot d.data ip m := by
  by_cases hm : m = k
  · subst hm
    rw [if_pos rfl, slot, if_pos (by omega)]
    congr 1
    rw [slotBytes, ← hlen]
    refine Eq.trans (map_congr_left fun j hj => ?_) map_getD_range
    have hj' : j < src.length := mem_range.1 hj
    rw [hlen] at hj'
    rw [hlen, h.inside _ (by omega) (by rw [Nat.mul_succ]; omega), Nat.add_sub_cancel_left]
  · rw [if_neg hm]
    have hcond : deSize * (m + 1) ≤ ip'.size ↔ deSize * (m + 1) ≤ ip.size := by
      rw [hsize]
      simp only [deSize] at *
      omega
    simp only [slot, hcond]
    split_ifs with hend
    · congr 1
      apply map_congr_left
      intro j hj
      have hj' : j < deSize := mem_range.1 hj
      apply h.outside
      · apply hmap
        apply div_mul_le_of_lt
        rw [mul_succ] at hend
        omega
      · rw [hlen]
        simp only [deSize] at *
        omega
    · rfl

/-- Nothing was written, because there was no block for the slot: all slots are as before. -/
theorem Written.slot_of_stop {k : ℕ} (hlen : src.length = deSize)
    (hmap : MappedTo d.data ip ip.size) (hk : deSize * k ≤ ip.size) (hsize : ip'.size = ip.size)
    (h : Written sb d ip d' ip' (deSize * k) src deSize (deSize * k)) (m : ℕ) :
    slot d'.data ip' m = slot d.data ip m := by
  -- a slot inside the directory is mapped, and would have been written
  have hend : ip.size < deSize * (k + 1) := by
    by_contra hin
    have hle : deSize * k + src.length ≤ ip.size := by
      rw [mul_add, mul_one] at hin
      omega
    have hfull := h.full (hmap.mono hle) (by rw [hlen])
    rw [hlen] at hfull
    simp only [deSize] at hfull
    omega
  simp only [slot, hsize]
  split_ifs with hm
  · congr 1
    apply map_congr_left
    intro j hj
    have hj' : j < deSize := mem_range.1 hj
    have hlt : deSize * m + j < deSize * k := by
      simp only [deSize] at *
      omega
    apply h.outside
    · apply hmap
      apply div_mul_le_of_lt
      omega
    · exact .inl hlt
  · rfl

theorem Good.writei_slot (h : Good sb d) (hty : (d.dinode i).type ≠ .none) (k : ℕ)
    (hlen : src.length = deSize) : ∃ d' ip' n, writei sb d i (d.dinode i) (deSize * k) src deSize =
    .ok (d', ip', n) ∧ Stepped sb i d d' ip' ∧
      ((n ≠ deSize ∧ (∀ m, slot d'.data ip' m = slot d.data (d.dinode i) m) ∧
        (d.dinode i).size < deSize * (k + 1)) ∨
        (n = deSize ∧ ∀ m, slot d'.data ip' m =
          if m = k then Dirent.decode src else slot d.data (d.dinode i) m)) := by
  rcases h.writei_cases hty (deSize * k) src deSize with
    href | ⟨d', ip', last, hwrite, hstep, hoff, hsize, hwritten⟩
  · refine ⟨d, _, -1, href, h.stepped_refl i, .inl ⟨by decide, fun _ => rfl, ?_⟩⟩
    -- a refused write is one behind the end
    by_contra hin
    have hmax := (h.mapped i hty).le_maxfile
    have hwrite := writei_spec (deSize * k) src deSize (h.owned_update i) hty (h.mapped i hty)
    rcases hwrite with ⟨-, hout⟩ | ⟨d', ip', last, hok, -⟩
    · rw [hlen] at hout
      simp only [deSize] at *
      omega
    · rw [href] at hok
      simp only [Except.ok.injEq, Prod.mk.injEq] at hok
      omega
  · refine ⟨d', ip', _, hwrite, hstep, ?_⟩
    rcases hwritten.slot_last hlen with rfl | rfl
    · have hsame : ip'.size = (d.dinode i).size := by omega
      refine .inl ⟨by simp [deSize], hwritten.slot_of_stop hlen (h.mapped i hty) hoff hsame, ?_⟩
      by_contra hin
      have hle : deSize * k + src.length ≤ (d.dinode i).size := by
        rw [mul_add, mul_one] at hin
        omega
      have hfull := hwritten.full ((h.mapped i hty).mono hle) (by rw [hlen])
      simp only [hlen, deSize] at hfull
      omega
    · refine .inr ⟨?_, hwritten.slot_of_full hlen (h.mapped i hty) hoff hsize⟩
      have hsub : deSize * (k + 1) - deSize * k = deSize := by
        rw [Nat.mul_add, Nat.mul_one, Nat.add_sub_cancel_left]
      rw [hsub]

/-- `dirlink` after its lookup: the entry is in a slot that was free, or nothing has changed. -/
theorem Good.writeEntry_cases (h : Good sb d) (hty : (d.dinode i).type ≠ .none) {name : Name}
    (hname : name.Ok) (inum : ℕ) :
    (¬ deSize ∣ (d.dinode i).size ∧
      writeEntry sb d i (d.dinode i) name inum = .error .dirlinkRead) ∨
    ∃ d' ip' done, writeEntry sb d i (d.dinode i) name inum = .ok (d', ip', done) ∧
    Stepped sb i d d' ip' ∧
      ((done = false ∧ ∀ m, slot d'.data ip' m = slot d.data (d.dinode i) m) ∨
        (done = true ∧ ∃ k, (slot d.data (d.dinode i) k).inum = 0 ∧
          (∀ m, m < k → (slot d.data (d.dinode i) m).inum ≠ 0) ∧ ∀ m, slot d'.data ip' m =
            if m = k then ⟨inum % 65536, name⟩ else slot d.data (d.dinode i) m)) := by
  rcases emptyLoop_spec sb (h.mapped i hty) with ⟨hdvd, herr⟩ | ⟨k, hloop, hfree, hbefore⟩
  · exact .inl ⟨hdvd, by simp only [writeEntry, herr]⟩
  · have hlen := length_encode inum hname.length_le
    obtain ⟨d', ip', n, hwrite, hstep, hslots⟩ := h.writei_slot hty k hlen
    refine .inr ⟨d', ip', decide (n = deSize), ?_, hstep, ?_⟩
    · simp only [writeEntry, hloop, hwrite]
    · rw [decode_encode inum hname] at hslots
      rcases hslots with ⟨hn, hsame, -⟩ | ⟨hn, hset⟩
      · exact .inl ⟨decide_eq_false hn, hsame⟩
      · exact .inr ⟨decide_eq_true hn, k, hfree, hbefore, hset⟩

theorem Good.eraseEntry (h : Good sb d) (hty : (d.dinode i).type ≠ .none) {k : ℕ}
    (hk : (slot d.data (d.dinode i) k).inum ≠ 0) :
    ∃ d' ip', writei sb d i (d.dinode i) (deSize * k) (List.replicate deSize 0) deSize =
        .ok (d', ip', deSize) ∧ Stepped sb i d d' ip' ∧
      ∀ m, slot d'.data ip' m = if m = k then ⟨0, []⟩ else slot d.data (d.dinode i) m := by
  obtain ⟨d', ip', n, hwrite, hstep, hslots⟩ :=
    h.writei_slot hty k (length_replicate (n := deSize) (a := (0 : UInt8)))
  rcases hslots with ⟨-, -, hend⟩ | ⟨rfl, hset⟩
  · rw [slot_of_gt hend] at hk
    exact absurd rfl hk
  · rw [decode_zeros] at hset
    exact ⟨d', ip', hwrite, hstep, hset⟩

end slots

section inodes

variable {d' : Disk} {ip' : Dinode}

theorem touches_iupdate (hdn : d'.dinode = d.dinode) (hdata : d'.data = d.data) (i : ℕ)
    (ip' : Dinode) : Touches i d (d'.iupdate i ip') := by
  constructor
  · intro j hj
    simp [Disk.iupdate, hj, hdn]
  · intro j _ _ pos
    simp only [Disk.iupdate, hdata]
  · intro j _ _ o _
    simp only [Disk.iupdate, hdata]

/-- An inode that is not allocated holds nothing, and neither does one without addresses. -/
theorem holdings_empty (ip jp : Dinode) (hip : ip.type = .none ∨ ∀ q, ip.addrs q = 0)
    (hjp : jp.type = .none ∨ ∀ q, jp.addrs q = 0) :
    holdings data (update dn i ip) = holdings data (update dn i jp) := by
  have hzero {kp : Dinode} (hkp : kp.type = .none ∨ ∀ q, kp.addrs q = 0) (q : ℕ) :
      holdings data (update dn i kp) (i, q) = 0 := by
    rcases hkp with hty | haddrs
    · simp [holdings, hty]
    · simp [holdings, addrAt, haddrs]
  funext h
  obtain ⟨j, q⟩ := h
  by_cases hj : j = i
  · subst hj
    rw [hzero hip, hzero hjp]
  · rw [holdings_update_of_ne hj, holdings_update_of_ne hj]

theorem Good.setFields (h : Good sb d) (hty : (d.dinode i).type ≠ .none)
    (hip : ip' = { d.dinode i with major := ip'.major, minor := ip'.minor, nlink := ip'.nlink }) :
    Good sb (d.iupdate i ip') ∧ Touches i d (d.iupdate i ip') ∧
      ∀ k, slot (d.iupdate i ip').data ip' k = slot d.data (d.dinode i) k := by
  have ht := touches_iupdate (d := d) rfl rfl i ip'
  have hstored : (d.iupdate i ip').dinode i = ip' := by simp [Disk.iupdate]
  have haddr (pos : ℕ) : addrAt d.data ip' pos = addrAt d.data (d.dinode i) pos := by
    rw [hip]
    rfl
  have hsize : ip'.size = (d.dinode i).size := by rw [hip]
  have hty' : ip'.type ≠ .none := by
    rw [hip]
    exact hty
  have hhold : holdings d.data (update d.dinode i ip') = holdings d.data d.dinode := by
    funext ⟨j, q⟩
    by_cases hj : j = i
    · subst hj
      rw [holdings_update_self hty', haddr, holdings, if_neg hty]
    · rw [holdings_update_of_ne hj]
  refine ⟨?_, ht, fun k => ?_⟩
  · apply h.of_touches ht
    · constructor
      · change Ownership.Exact (holdings d.data (update d.dinode i ip')) _ _ d.used
        rw [hhold]
        exact h.owned.exact
      · exact h.owned.reserved
    · intro _ bn hbn
      rw [hstored] at hbn ⊢
      change addrAt d.data ip' (position bn) ≠ 0
      rw [haddr]
      exact h.mapped i hty bn (by omega)
  · change slot d.data ip' k = slot d.data (d.dinode i) k
    rw [hip]
    rfl

/-- `itrunc` on a good disk, with the type that the inode is given afterwards: the one it has, or
none when `iput` frees it. -/
theorem Good.truncate (h : Good sb d) (hty : (d.dinode i).type ≠ .none) (type : IType) :
    ∃ d' : Disk, itrunc d i (d.dinode i) =
    .ok (d'.iupdate i (d.dinode i).truncated, (d.dinode i).truncated) ∧
      Good sb (d'.iupdate i { (d.dinode i).truncated with type := type }) ∧
      Touches i d (d'.iupdate i { (d.dinode i).truncated with type := type }) := by
  obtain ⟨d', htrunc, hdn, hdata, hown⟩ := itrunc_spec (h.owned_update i) hty
  have ht := touches_iupdate hdn hdata i { (d.dinode i).truncated with type := type }
  refine ⟨d', htrunc, ?_, ht⟩
  apply h.of_touches ht
  · constructor
    · rw [iupdate_dinode hdn, holdings_empty _ (d.dinode i).truncated (.inr fun _ => rfl)
        (.inr fun _ => rfl)]
      exact hown.exact
    · exact hown.reserved
  · intro _ bn hbn
    simp [Disk.iupdate, Dinode.truncated] at hbn

theorem Good.store_new (h : Good sb d) (hty : (d.dinode i).type = .none) (type : IType)
    (nlink : ℤ) : Good sb (d.iupdate i ⟨type, 0, 0, nlink, 0, fun _ => 0⟩) ∧
      Touches i d (d.iupdate i ⟨type, 0, 0, nlink, 0, fun _ => 0⟩) := by
  have ht := touches_iupdate (d := d) rfl rfl i ⟨type, 0, 0, nlink, 0, fun _ => 0⟩
  refine ⟨?_, ht⟩
  apply h.of_touches ht
  · constructor
    · change Ownership.Exact (holdings d.data (update d.dinode i _)) _ _ d.used
      rw [holdings_empty _ (d.dinode i) (.inr fun _ => rfl) (.inl hty), update_eq_self]
      exact h.owned.exact
    · exact h.owned.reserved
  · intro _ bn hbn
    simp [Disk.iupdate] at hbn

theorem Good.alloc (h : Good sb d) (hty : (d.dinode i).type = .none) (type : IType) :
    Good sb (d.iupdate i ⟨type, 0, 0, 0, 0, fun _ => 0⟩) ∧
    Touches i d (d.iupdate i ⟨type, 0, 0, 0, 0, fun _ => 0⟩) :=
  h.store_new hty type 0

theorem ialloc_cases (sb : Super) (d : Disk) (type : IType) : ialloc sb d type = none ∨
    ∃ inum, 0 < inum ∧ inum < sb.ninodes ∧ (d.dinode inum).type = .none ∧
      ialloc sb d type = some (d.iupdate inum ⟨type, 0, 0, 0, 0, fun _ => 0⟩, inum) := by
  unfold ialloc freeInode
  cases hf : ((List.range sb.ninodes).drop 1).find? fun i => (d.dinode i).type = .none with
  | none => exact .inl rfl
  | some inum =>
    have hfree : (d.dinode inum).type = .none := by simpa using List.find?_some hf
    obtain ⟨k, hk, hinum⟩ := mem_iff_getElem.1 (mem_of_find?_eq_some hf)
    simp only [length_drop, length_range] at hk
    simp only [getElem_drop, getElem_range] at hinum
    exact .inr ⟨inum, by omega, by omega, hfree, rfl⟩

end inodes

end Xv6.Fs
