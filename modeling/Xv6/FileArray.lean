import Xv6.DirView
import Xv6.FreshFs
import Xv6.Overwrite

/-!
# Files are arrays of bytes

`contents` is what the blocks of an inode hold up to its size. `readi` returns a part of it and
`writei` overwrites a part of it, in whole when the disk has blocks for it, and the contents of all
other inodes stay.
-/

namespace Xv6.Fs

open List Function

variable {sb : Super} {d : Disk} {dn : ℕ → Dinode} {i : ℕ} {ip : Dinode}

def contents (data : ℕ → Block) (ip : Dinode) : List UInt8 := (range ip.size).map (byteAt data ip)

/-- The blocks are owned as the bitmap says and the files have no holes. `dn` are the inodes as they
are in memory, or on the disk when they are not. -/
structure Files (sb : Super) (d : Disk) (dn : ℕ → Dinode) : Prop where
  owned : Owned sb d dn
  mapped : ∀ i, (dn i).type ≠ .none → MappedTo d.data (dn i) (dn i).size

theorem Good.files (h : Good sb d) : Files sb d d.dinode := ⟨h.owned, h.mapped⟩

section array

variable {data data' : ℕ → Block} {ip' : Dinode} {off n : ℕ} {src : List UInt8}

@[simp] theorem length_contents : (contents data ip).length = ip.size := by simp [contents]

theorem getElem?_contents {k : ℕ} (hk : k < ip.size) :
    (contents data ip)[k]? = some (byteAt data ip k) := by
  rw [contents, getElem?_map, getElem?_range hk, Option.map_some]

theorem contents_congr (hsize : ip'.size = ip.size)
    (h : ∀ o < ip.size, byteAt data' ip' o = byteAt data ip o) :
    contents data' ip' = contents data ip := by
  rw [contents, contents, hsize]
  apply map_congr_left
  intro o ho
  exact h o (mem_range.1 ho)

theorem Files.readi (h : Files sb d dn) (hty : (dn i).type ≠ .none) (hn : off + n < 2 ^ 32) :
    Fs.readi sb d (dn i) off n = .ok (d, dn i, ((contents d.data (dn i)).drop off).take n) := by
  by_cases hoff : off ≤ (dn i).size
  · rw [readi_spec (h.mapped i hty) hoff hn]
    congr 3
    apply ext_getElem?
    intro k
    rw [getElem?_map, getElem?_take, getElem?_drop]
    by_cases hk : k < min n ((dn i).size - off)
    · rw [getElem?_range hk, Option.map_some, if_pos (by omega), getElem?_contents (by omega)]
    · have hnone : (contents d.data (dn i))[off + k]? = none ∨ ¬ k < n := by
        rw [getElem?_eq_none_iff, length_contents]
        omega
      rw [getElem?_eq_none (by rw [length_range]; omega), Option.map_none]
      rcases hnone with hnone | hnone
      · rw [hnone, ite_self]
      · rw [if_neg hnone]
  · have hnil : (contents d.data (dn i)).drop off = [] := by
      apply drop_of_length_le
      rw [length_contents]
      omega
    rw [hnil, take_nil, Fs.readi, if_pos (by omega)]

/-- The inode `i` has the bytes at the offset, and nothing else has changed. -/
structure Wrote (sb : Super) (d : Disk) (dn : ℕ → Dinode) (i off : ℕ)
    (bytes : List UInt8) (d' : Disk) (ip' : Dinode) : Prop where
  files : Files sb d' (update dn i ip')
  contents : contents d'.data ip' = overwrite (contents d.data (dn i)) off bytes
  inode : ip' = { dn i with size := max (dn i).size (off + bytes.length), addrs := ip'.addrs }
  dinode : d'.dinode = update d.dinode i ip'
  addrs : ∀ j, j ≠ i → (dn j).type ≠ .none → ∀ pos,
    addrAt d'.data (dn j) pos = addrAt d.data (dn j) pos
  others : ∀ j, j ≠ i → (dn j).type ≠ .none → Fs.contents d'.data (dn j) = Fs.contents d.data (dn j)

structure Filled (d : Disk) (ip : Dinode) (d' : Disk) (ip' : Dinode) (n : ℕ) : Prop where
  keeps : ∀ pos, addrAt d.data ip pos ≠ 0 → addrAt d'.data ip' pos = addrAt d.data ip pos
  used : ∀ b, d.used b = true → d'.used b = true
  adds : ∀ pos, addrAt d'.data ip' pos = addrAt d.data ip pos ∨ ∃ bn, bn * bsize < n ∧ Needs bn pos

theorem grownTo_eq (h : ip' = { ip with addrs := ip'.addrs }) (last : ℕ) :
    ip'.grownTo last = { ip with size := max ip.size last, addrs := ip'.addrs } := by
  have hmax : (if ip.size < last then last else ip.size) = max ip.size last := by
    split_ifs <;> omega
  rw [h, Dinode.grownTo, ← hmax]

/-- `writei` overwrites a part of the contents, the whole of it unless it runs out of blocks or of
bytes that it can read. -/
theorem Files.writei {avail : ℕ} (h : Files sb d dn) (hty : (dn i).type ≠ .none)
    (hoff : off ≤ (dn i).size) (hend : off + src.length ≤ maxfile * bsize)
    (hwhole : WholeCopies off src.length avail) :
    ∃ d' ip' tot, Fs.writei sb d i (dn i) off src avail = .ok (d', ip', (tot : ℕ)) ∧
    tot ≤ src.length ∧
      Wrote sb d dn i off (src.take tot) d' ip' ∧ Filled d (dn i) d' ip' (off + src.length) ∧
      (src.length ≤ avail → tot < src.length →
        d'.Full sb ∧ addrAt d'.data ip' (position ((off + tot) / bsize)) = 0) := by
  have hown : Owned sb d (update dn i (dn i)) := by
    rw [update_eq_self]
    exact h.owned
  have hmap := h.mapped i hty
  obtain ⟨d', ip', last, hloop, hown', hw, hwritten⟩ :=
    writeLoop_spec src.length src avail le_rfl hown hty hend
  obtain ⟨tot, rfl⟩ := Nat.exists_eq_add_of_le hwritten.le
  have htot : tot ≤ src.length := by have := hwritten.last_le; omega
  have hgrows := grownTo_eq hw.inode (off + tot)
  have hsize : (ip'.grownTo (off + tot)).size = max (dn i).size (off + tot) :=
    congrArg Dinode.size hgrows
  refine ⟨d'.iupdate i (ip'.grownTo (off + tot)), ip'.grownTo (off + tot), tot, ?_, htot, ?_,
    ⟨hw.keeps, hw.used, hwritten.adds⟩, fun hav hshort => hwritten.short hav (by omega)⟩
  · rw [writei_of_loop hoff hend hloop, Nat.add_sub_cancel_left]
  · have hlen : (src.take tot).length = tot := by simp [htot]
    have hgrown := hown'.grownTo (off + tot)
    refine ⟨⟨⟨hgrown.exact, hgrown.reserved⟩, fun j htyj => ?_⟩, ?_, ?_, ?_,
      fun j hj htyj pos => hw.addrAt_other hown hty hj htyj pos, fun j hj htyj => ?_⟩
    · by_cases hj : j = i
      · subst hj
        rw [update_self]
        exact hwritten.mapped_grown hw hoff hmap
      · rw [update_of_ne hj] at htyj ⊢
        intro bn hbn
        have haddr := hw.addrAt_other hown hty hj htyj (position bn)
        exact haddr ▸ h.mapped j htyj bn hbn
    · apply ext_getElem?
      intro k
      rw [getElem?_overwrite (by rwa [length_contents]), hlen]
      by_cases hk : k < (ip'.grownTo (off + tot)).size
      · rw [getElem?_contents hk]
        change some (byteAt d'.data ip' k) = _
        by_cases hin : off ≤ k ∧ k < off + tot
        · rw [if_pos hin, hwritten.inside k hin.1 hin.2, getElem?_take_of_lt (by omega),
            getD_eq_getElem?_getD, getElem?_eq_getElem (by omega), Option.getD_some]
        · have hold : k < (dn i).size := by omega
          rw [if_neg hin, getElem?_contents hold,
            hwritten.whole hwhole k (hmap _ (div_mul_le_of_lt hold)) (by omega)]
      · rw [getElem?_eq_none (by rw [length_contents]; omega), if_neg (by omega),
          getElem?_eq_none (by rw [length_contents]; omega)]
    · rw [hlen]
      exact hgrows
    · rw [Disk.iupdate, hw.dinode]
    · apply contents_congr rfl
      intro o ho
      exact hw.byteAt_other hown hty hj htyj (h.mapped j htyj _ (div_mul_le_of_lt ho))

/-- Every file is an array of bytes, and `readi` and `writei` are its two operations. -/
theorem file_is_byte_array (h : Files sb d dn) (hty : (dn i).type ≠ .none) (off : ℕ) :
    (∀ n, off + n < 2 ^ 32 →
      Fs.readi sb d (dn i) off n = .ok (d, dn i, ((contents d.data (dn i)).drop off).take n)) ∧
    ∀ (src : List UInt8) (avail : ℕ), off + src.length < 2 ^ 32 → src.length ≤ avail →
      if (dn i).size < off ∨ maxfile * bsize < off + src.length then
        Fs.writei sb d i (dn i) off src avail = .ok (d, dn i, -1)
      else ∃ d' ip' tot, Fs.writei sb d i (dn i) off src avail = .ok (d', ip', (tot : ℕ)) ∧
        tot ≤ src.length ∧ (tot < src.length → d'.Full sb) ∧
        Wrote sb d dn i off (src.take tot) d' ip' := by
  refine ⟨fun n hn => h.readi hty hn, fun src avail hlt havail => ?_⟩
  by_cases hrefuse : (dn i).size < off ∨ maxfile * bsize < off + src.length
  · rw [if_pos hrefuse, Fs.writei]
    by_cases hoff : (dn i).size < off
    · rw [if_pos (.inl hoff)]
    · rw [if_neg (by omega), if_pos (hrefuse.resolve_left hoff)]
  · rw [if_neg hrefuse]
    obtain ⟨d', ip', tot, hrun, htot, hwrote, -, hshort⟩ :=
      h.writei hty (show off ≤ (dn i).size by omega) (show off + src.length ≤
        maxfile * bsize by omega) (show WholeCopies off src.length avail from .inl havail)
    exact ⟨d', ip', tot, hrun, htot, fun hlt => (hshort havail hlt).1, hwrote⟩

def emptyFile : Disk := image.iupdate 2 ⟨.file, 0, 0, 1, 0, fun _ => 0⟩

theorem emptyFile_good : Good superblock emptyFile := (image_good.store_new rfl .file 1).1

theorem file_is_byte_array_emptyFile : Fs.readi superblock emptyFile (emptyFile.dinode 2) 0 16 =
      .ok (emptyFile, emptyFile.dinode 2,
        ((contents emptyFile.data (emptyFile.dinode 2)).drop 0).take 16) ∧
    ∃ d' ip' tot, Fs.writei superblock emptyFile 2 (emptyFile.dinode 2) 0 [7, 8] 2 =
      .ok (d', ip', (tot : ℕ)) ∧ tot ≤ 2 ∧ (tot < 2 → d'.Full superblock) ∧
      Wrote superblock emptyFile emptyFile.dinode 2 0 ([7, 8].take tot) d' ip' := by
  have hty : (emptyFile.dinode 2).type ≠ .none := by decide
  refine ⟨(file_is_byte_array emptyFile_good.files hty 0).1 16 (by norm_num), ?_⟩
  have hfits :
      ¬ ((emptyFile.dinode 2).size < 0 ∨ maxfile * bsize < 0 + [(7 : UInt8), 8].length) := by decide
  have hwrite := (file_is_byte_array emptyFile_good.files hty 0).2 [7, 8] 2 (by norm_num) le_rfl
  rw [if_neg hfits] at hwrite
  exact hwrite

end array

section room

instance (bn pos : ℕ) : Decidable (Needs bn pos) := inferInstanceAs (Decidable (_ ∨ _ ∧ _))

/-- The positions without a block that the first `n` bytes of a file need. -/
def missing (d : Disk) (ip : Dinode) (n : ℕ) : Finset ℕ :=
  (Finset.range (maxfile + 1)).filter fun pos =>
    addrAt d.data ip pos = 0 ∧ ∃ bn < maxfile, bn * bsize < n ∧ Needs bn pos

def freeBlocksOf (sb : Super) (d : Disk) : Finset ℕ :=
    (Finset.range sb.size).filter fun b => d.used b = false

def Room (sb : Super) (d : Disk) (ip : Dinode) (n : ℕ) : Prop :=
  (missing d ip n).card ≤ (freeBlocksOf sb d).card

variable {d' : Disk} {ip' : Dinode} {n m off : ℕ} {src : List UInt8}

theorem needs_le {bn pos : ℕ} (h : Needs bn pos) (hbn : bn < maxfile) : pos ≤ maxfile := by
  rcases h with rfl | ⟨rfl, -⟩
  · unfold position
    split_ifs <;> omega
  · unfold maxfile
    omega

theorem mem_missing {pos : ℕ} (hn : n ≤ maxfile * bsize) :
    pos ∈ missing d ip n ↔ addrAt d.data ip pos = 0 ∧ ∃ bn, bn * bsize < n ∧ Needs bn pos := by
  rw [missing, Finset.mem_filter, Finset.mem_range]
  constructor
  · rintro ⟨-, hzero, bn, -, hneeds⟩
    exact ⟨hzero, bn, hneeds⟩
  · rintro ⟨hzero, bn, hlt, hneeds⟩
    have hbn : bn < maxfile := Nat.lt_of_mul_lt_mul_right (lt_of_lt_of_le hlt hn)
    exact ⟨Nat.lt_succ_of_le (needs_le hneeds hbn), hzero, bn, hbn, hlt, hneeds⟩

variable {bytes : List UInt8}

theorem Filled.taken (hf : Filled d (dn i) d' ip' m) (h : Files sb d dn) (hty : (dn i).type ≠ .none)
    (hw : Wrote sb d dn i off bytes d' ip') (hmn : m ≤ n) (hn : n ≤ maxfile * bsize) :
    (freeBlocksOf sb d \ freeBlocksOf sb d').card ≤
    (missing d (dn i) n \ missing d' ip' n).card := by
  refine Finset.card_le_card_of_surjOn (addrAt d'.data ip') ?_
  intro b hb
  rw [Finset.mem_coe, Finset.mem_sdiff, freeBlocksOf, freeBlocksOf, Finset.mem_filter,
    Finset.mem_filter, Finset.mem_range] at hb
  obtain ⟨⟨hlt, hfree⟩, htaken⟩ := hb
  have hused : d'.used b = true := by
    rw [← Bool.not_eq_false]
    exact fun heq => htaken ⟨hlt, heq⟩
  have hlo : sb.datastart ≤ b := by
    by_contra hlow
    rw [h.owned.reserved b (by omega)] at hfree
    exact Bool.noConfusion hfree
  have hpos := sb.datastart_pos
  have hty' : ip'.type ≠ .none := by rw [hw.inode]; exact hty
  -- no inode has held the block before
  have hnew : ∀ j pos, (dn j).type ≠ .none → addrAt d.data (dn j) pos ≠ b := by
    intro j pos htyj heq
    have hhold : holdings d.data dn (j, pos) = b := by rw [holdings, if_neg htyj, heq]
    exact h.owned.exact.hold_ne_of_unused hlo hfree (j, pos) hhold
  obtain ⟨⟨j, pos⟩, hk⟩ := (hw.files.owned.exact.marked b hlo hlt).1 hused
  by_cases hj : j = i
  · subst hj
    rw [holdings_update_self hty'] at hk
    have hzero : addrAt d.data (dn j) pos = 0 := by
      by_contra hne
      exact hnew j pos hty ((hf.keeps pos hne).symm.trans hk)
    have hneeds := (hf.adds pos).resolve_left fun hsame => hnew j pos hty (hsame.symm.trans hk)
    obtain ⟨bn, hbn, hneeds⟩ := hneeds
    refine ⟨pos, ?_, hk⟩
    rw [Finset.mem_coe, Finset.mem_sdiff, mem_missing hn, mem_missing hn]
    exact ⟨⟨hzero, bn, by omega, hneeds⟩, fun hmiss => by omega⟩
  · rw [holdings_update_of_ne hj, holdings] at hk
    by_cases htyj : (dn j).type = .none
    · rw [if_pos htyj] at hk
      omega
    · rw [if_neg htyj, hw.addrs j hj htyj] at hk
      exact absurd hk (hnew j pos htyj)

/-- A write takes no more blocks than it fills positions. -/
theorem Room.filled (hroom : Room sb d (dn i) n) (hf : Filled d (dn i) d' ip' m) (h : Files sb d dn)
    (hty : (dn i).type ≠ .none) (hw : Wrote sb d dn i off bytes d' ip') (hmn : m ≤ n)
    (hn : n ≤ maxfile * bsize) : Room sb d' ip' n := by
  have htaken := hf.taken h hty hw hmn hn
  have hfree : freeBlocksOf sb d' ⊆ freeBlocksOf sb d := by
    intro b hb
    rw [freeBlocksOf, Finset.mem_filter] at hb ⊢
    refine ⟨hb.1, ?_⟩
    rw [← Bool.not_eq_true]
    intro heq
    rw [hf.used b heq] at hb
    exact Bool.noConfusion hb.2
  have hmissing : missing d' ip' n ⊆ missing d (dn i) n := by
    intro pos hpos
    rw [mem_missing hn] at hpos ⊢
    refine ⟨?_, hpos.2⟩
    by_contra hne
    exact hne ((hf.keeps pos hne).symm.trans hpos.1)
  rw [Finset.card_sdiff_of_subset hfree, Finset.card_sdiff_of_subset hmissing] at htaken
  have hfree' := Finset.card_le_card hfree
  have hmissing' := Finset.card_le_card hmissing
  unfold Room at *
  omega

/-- A write that has mapped the first `n` bytes has found a free block for each missing position. -/
theorem Wrote.room (hw : Wrote sb d dn i off bytes d' ip') (hf : Filled d (dn i) d' ip' m)
    (h : Files sb d dn) (hty : (dn i).type ≠ .none) (hn : n ≤ ip'.size) : Room sb d (dn i) n := by
  have hty' : ip'.type ≠ .none := by rw [hw.inode]; exact hty
  have hmap : MappedTo d'.data ip' ip'.size := by
    have hmapped := hw.files.mapped i
    rw [update_self] at hmapped
    exact hmapped hty'
  have hexact := hw.files.owned.exact
  have hne {pos : ℕ} (hpos : pos ∈ missing d (dn i) n) : addrAt d'.data ip' pos ≠ 0 := by
    obtain ⟨-, bn, hbn, hneeds⟩ := (mem_missing (hn.trans hmap.le_maxfile)).1 hpos
    have hblock := hmap bn (lt_of_lt_of_le hbn hn)
    rcases hneeds with rfl | ⟨rfl, hind⟩
    · exact hblock
    · intro hzero
      rw [position_of_le (by omega)] at hblock
      exact hblock (addrAt_entry_of_zero (by simpa [addrAt] using hzero) _)
  have hkey (pos : ℕ) : holdings d'.data (update dn i ip') (i, pos) = addrAt d'.data ip' pos :=
    holdings_update_self hty' pos
  refine Finset.card_le_card_of_injOn (addrAt d'.data ip') (fun pos hpos => ?_)
    fun pos hpos q _ heq => ?_
  · have hrange := hexact.range (i, pos) (by rw [hkey]; exact hne hpos)
    rw [hkey] at hrange
    rw [Finset.mem_coe, freeBlocksOf, Finset.mem_filter, Finset.mem_range]
    refine ⟨hrange.2, ?_⟩
    rw [← Bool.not_eq_true]
    intro hused
    -- who held the block before holds it still, at another position
    obtain ⟨⟨j, q⟩, hhold⟩ := (h.owned.exact.marked _ hrange.1 hrange.2).1 hused
    have hstill : holdings d'.data (update dn i ip') (j, q) = addrAt d'.data ip' pos := by
      by_cases hj : j = i
      · subst hj
        rw [holdings, if_neg hty] at hhold
        rw [hkey, hf.keeps q (by rw [hhold]; exact hne hpos), hhold]
      · rw [holdings_update_of_ne hj, ← hhold]
        by_cases htyj : (dn j).type = .none
        · rw [holdings, holdings, if_pos htyj, if_pos htyj]
        · rw [holdings, holdings, if_neg htyj, if_neg htyj, hw.addrs j hj htyj]
    have hsame := hexact.inj (j, q) (i, pos) (by rw [hstill, hkey]) (by rw [hstill]; exact hne hpos)
    cases hsame
    rw [holdings, if_neg hty, ((mem_missing (hn.trans hmap.le_maxfile)).1 hpos).1] at hhold
    exact hne hpos hhold.symm
  · have hsame :=
      hexact.inj (i, pos) (i, q) (by rw [hkey, hkey]; exact heq) (by rw [hkey]; exact hne hpos)
    exact congrArg Prod.snd hsame

theorem Files.writei_of_room (h : Files sb d dn) (hty : (dn i).type ≠ .none)
    (hoff : off ≤ (dn i).size) (hend : off + src.length ≤ n) (hn : n ≤ maxfile * bsize)
    (hroom : Room sb d (dn i) n) :
    ∃ d' ip', Fs.writei sb d i (dn i) off src src.length = .ok (d', ip', (src.length : ℕ)) ∧
      Wrote sb d dn i off src d' ip' ∧ Room sb d' ip' n := by
  obtain ⟨d', ip', tot, hrun, htot, hwrote, hfilled, hshort⟩ := h.writei hty hoff (hend.trans hn)
    (show WholeCopies off src.length src.length from .inl le_rfl)
  have hroom' := hroom.filled hfilled h hty hwrote hend hn
  have hall : tot = src.length := by
    by_contra hne
    obtain ⟨hfull, hzero⟩ := hshort le_rfl (by omega)
    -- the disk is full, but the position at which the write stopped has no block
    have hnone : (freeBlocksOf sb d').card = 0 := by
      rw [Finset.card_eq_zero, freeBlocksOf, Finset.filter_eq_empty_iff]
      intro b hb heq
      rw [hfull b (Finset.mem_range.1 hb)] at heq
      exact Bool.noConfusion heq
    have hmem : position ((off + tot) / bsize) ∈ missing d' ip' n := by
      rw [mem_missing hn]
      exact ⟨hzero, _, div_mul_le_of_lt (by omega), .inl rfl⟩
    have hpos := Finset.card_pos.2 ⟨_, hmem⟩
    unfold Room at hroom'
    omega
  subst hall
  rw [take_length] at hwrote
  exact ⟨d', ip', hrun, hwrote, hroom'⟩

end room

end Xv6.Fs
