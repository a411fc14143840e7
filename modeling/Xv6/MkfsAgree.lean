import Xv6.MkfsFiles

/-!
# What the kernel finds on the image of `mkfs`

The image as the kernel reads it: its directory lookup finds every file, its `readi` returns the
file's bytes, and no two inodes share a block. The size of the root is rounded up behind the
entries, which adds a block that nobody has allocated when the entries fill their last block.
-/

namespace Xv6.Mkfs

open Fs Function List Nat

variable {s : Image} {fs : List Input} {d : Disk} {i pos : ℕ}

section kernel

theorem readi_mapped (sb : Super) {ip : Dinode} {off n : ℕ} (hmap : MappedTo d.data ip (off + n))
    (hsize : off + n ≤ ip.size) (hlt : off + n < 2 ^ 32) :
    readi sb d ip off n = .ok (d, ip, (List.range n).map fun k => byteAt d.data ip (off + k)) := by
  rw [readi, if_neg (by omega)]
  simp only [if_neg (show ¬ ip.size < off + n by omega)]
  rw [readLoop_spec n [] le_rfl hmap, nil_append]

/-- `dirlookup` stops at the first slot with the name; what follows it is not read. -/
theorem dirlookupLoop_finds (sb : Super) {dp : Dinode} {name : Name} {k inum : ℕ}
    (hmap : MappedTo d.data dp (deSize * (k + 1))) (hsize : deSize * (k + 1) ≤ dp.size)
    (hlt : deSize * (k + 1) < 2 ^ 32) (hslot : slot d.data dp k = ⟨inum, name⟩) (hinum : inum ≠ 0)
    (n : ℕ) {j : ℕ} (hj : j ≤ k) (hn : k < j + n)
    (hfirst : ∀ m, j ≤ m → m < k → (slot d.data dp m).name ≠ name) :
    dirlookupLoop sb name n d dp (deSize * j) = .ok (d, dp, some (deSize * k, inum)) := by
  induction n generalizing j with
  | zero => omega
  | succ n ih =>
    have hmul : deSize * (j + 1) ≤ deSize * (k + 1) := mul_le_mul_left _ (by omega)
    have hstep : deSize * j + deSize = deSize * (j + 1) := by ring
    have hread : readi sb d dp (deSize * j) deSize = .ok (d, dp, slotBytes d.data dp j) :=
      readi_mapped sb (hmap.mono (by omega)) (by omega) (by omega)
    have hentry : Dirent.decode (slotBytes d.data dp j) = slot d.data dp j :=
      (if_pos (hmul.trans hsize)).symm
    rw [dirlookupLoop, hread]
    simp only [length_slotBytes, ne_eq, not_true_eq_false, if_false, hentry]
    by_cases hjk : j = k
    · subst hjk
      rw [hslot, if_pos ⟨hinum, rfl⟩]
    · rw [if_neg fun h => hfirst j le_rfl (by omega) h.2, hstep]
      exact ih (by omega) (by omega) fun m hm hmk => hfirst m (by omega) hmk

theorem getD_entries {es : List Dirent} (hlen : ∀ e ∈ es, (Dirent.encode e).length = deSize) {k : ℕ}
    (hk : k < es.length) {j : ℕ} (hj : j < deSize) :
    (es.flatMap Dirent.encode).getD (deSize * k + j) 0 = (Dirent.encode es[k]).getD j 0 := by
  induction es generalizing k with
  | nil => simp at hk
  | cons e es ih =>
    have he := hlen e (by simp)
    cases k with
    | zero =>
      rw [flatMap_cons, mul_zero, zero_add, getD_append _ _ _ _ (by omega)]
      rfl
    | succ k =>
      have hmul : deSize * (k + 1) + j = deSize + (deSize * k + j) := by ring
      rw [flatMap_cons, hmul, getD_append_right _ _ _ _ (by omega), he,
        Nat.add_sub_cancel_left, ih (fun e he => hlen e (by simp [he])) (by simpa using hk)]
      rfl

end kernel

section made

theorem addrAt_congr {data data' : ℕ → Block} {ip ip' : Dinode} (haddrs : ip'.addrs = ip.addrs)
    (hdata : ip.addrs ndirect ≠ 0 → data' (ip.addrs ndirect) = data (ip.addrs ndirect)) (pos : ℕ) :
    addrAt data' ip' pos = addrAt data ip pos := by
  unfold addrAt
  rw [haddrs]
  split_ifs with h₁ h₂
  · rfl
  · rw [hdata h₂.2]
  · rfl

theorem rounded_addrs (ip : Dinode) : (rounded ip).addrs = ip.addrs ∧ (rounded ip).type = ip.type :=
  ⟨rfl, rfl⟩

theorem Made.addrs (h : Made s fs d) (i : ℕ) : (d.dinode i).addrs = ((view s).dinode i).addrs ∧
    (d.dinode i).type = ((view s).dinode i).type := by
  rw [h.dinode]
  exact ⟨view_update Dinode.addrs i (rounded_addrs _).1,
    view_update Dinode.type i (rounded_addrs _).2⟩

theorem Made.dinode_of_ne (h : Made s fs d) (hi : i ≠ rootino) :
    d.dinode i = (view s).dinode i := by
  rw [h.dinode, update_of_ne hi]

theorem Made.range (h : Made s fs d) (hty : ((view s).dinode i).type ≠ .none)
    (hpos : addrAt (view s).data ((view s).dinode i) pos ≠ 0) :
    nmeta ≤ addrAt (view s).data ((view s).dinode i) pos ∧
      addrAt (view s).data ((view s).dinode i) pos < s.freeblock := by
  have hrange := addrAt_range (h.holds.good.owned_update i) hty pos hpos
  exact ⟨hrange.1, hrange.2.2⟩

theorem Made.addrAt (h : Made s fs d) (hty : ((view s).dinode i).type ≠ .none) (pos : ℕ) :
    addrAt d.data (d.dinode i) pos = addrAt (view s).data ((view s).dinode i) pos := by
  refine addrAt_congr (h.addrs i).1 (fun hne => h.data _ ?_) pos
  have hat : Fs.addrAt (view s).data ((view s).dinode i) ndirect =
      ((view s).dinode i).addrs ndirect :=
    if_pos le_rfl
  rw [← hat] at hne ⊢
  exact (h.range hty hne).1

theorem Made.byteAt (h : Made s fs d) (hty : ((view s).dinode i).type ≠ .none) {o : ℕ}
    (hmap : Fs.addrAt (view s).data ((view s).dinode i) (position (o / bsize)) ≠ 0) :
    byteAt d.data (d.dinode i) o = byteAt (view s).data ((view s).dinode i) o := by
  unfold Fs.byteAt
  rw [h.addrAt hty, h.data _ (h.range hty hmap).1]

theorem Made.holdings (h : Made s fs d) (k : ℕ × ℕ) :
    holdings d.data d.dinode k = holdings (view s).data (view s).dinode k := by
  unfold Fs.holdings
  rw [(h.addrs k.1).2]
  split_ifs with hty
  · rfl
  · exact h.addrAt hty k.2

theorem Made.mappedTo (h : Made s fs d) (hty : ((view s).dinode i).type ≠ .none) {n : ℕ}
    (hmap : MappedTo (view s).data ((view s).dinode i) n) : MappedTo d.data (d.dinode i) n := by
  intro bn hbn
  rw [h.addrAt hty]
  exact hmap bn hbn

theorem Made.root (h : Made s fs d) : File (view s) rootino (contents fs rootino) :=
  h.holds.file rootino (by decide) (by simp [rootino])

theorem Made.root_size (h : Made s fs d) :
    (d.dinode rootino).size = (deSize * (fs.length + 2) / bsize + 1) * bsize := by
  rw [h.dinode, update_self, rounded, h.root.content.size]
  exact congrArg (fun n => (n / bsize + 1) * bsize) (length_root h.name)

theorem Made.le_root_size (h : Made s fs d) :
    deSize * (fs.length + 2) ≤ (d.dinode rootino).size := by
  rw [h.root_size]
  unfold bsize
  omega

theorem Made.readi (h : Made s fs d) (sb : Super) {k : ℕ} (hk : k < fs.length) {off n : ℕ}
    (hoff : off ≤ fs[k].content.length) (hn : off + n < 2 ^ 32) :
    (d.dinode (k + 2)).size = fs[k].content.length ∧ readi sb d (d.dinode (k + 2)) off n =
        .ok (d, d.dinode (k + 2), (fs[k].content.drop off).take n) := by
  have hfile := h.holds.file (k + 2) (by omega) (by omega)
  have hty := hfile.type_ne
  have hne : k + 2 ≠ rootino := by simp [rootino]
  have hc := hfile.content
  have hcontent : contents fs (k + 2) = fs[k].content := by simp [contents, hk]
  rw [hcontent] at hc
  have hmap := h.holds.good.mapped (k + 2) hty
  have hsize : (d.dinode (k + 2)).size = fs[k].content.length := by rw [h.dinode_of_ne hne, hc.size]
  refine ⟨hsize, ?_⟩
  have hmapd : MappedTo d.data (d.dinode (k + 2)) (d.dinode (k + 2)).size := by
    refine h.mappedTo hty ?_
    rw [hsize, ← hc.size]
    exact hmap
  rw [readi_spec hmapd (by rw [hsize]; exact hoff) hn, hsize]
  congr 3
  refine ext_getElem (by simp) fun j hj hj' => ?_
  simp only [length_map, length_range] at hj
  have hlt : off + j < fs[k].content.length := by omega
  have haddr := hmap _ (div_mul_le_of_lt (show off + j < _ by rw [hc.size]; exact hlt))
  rw [getElem_map, getElem_range, h.byteAt hty haddr, hc.bytes _ hlt, getElem_take,
    getElem_drop, getD_eq_getElem _ _ hlt]

theorem Made.root_slot (h : Made s fs d) (hok : ∀ f ∈ fs, f.name.Ok) (hle : fs.length + 2 ≤ ninodes)
    {k : ℕ} (hk : k < (rootEntries fs).length) :
    slot d.data (d.dinode rootino) k = (rootEntries fs)[k] := by
  have hty := h.root.type_ne
  have hc := h.root.content
  have hroot : contents fs rootino = (rootEntries fs).flatMap Dirent.encode := rfl
  have hlen : ∀ e ∈ rootEntries fs, (Dirent.encode e).length = deSize ∧
      Dirent.decode (Dirent.encode e) = e := by
    intro e he
    simp only [rootEntries, mem_cons, mem_mapIdx] at he
    obtain rfl | rfl | ⟨m, hm, rfl⟩ := he
    · decide
    · decide
    · have hname := hok _ (getElem_mem hm)
      refine ⟨length_encode _ hname.length_le, ?_⟩
      rw [decode_encode _ hname, mod_eq_of_lt (by unfold ninodes at hle; omega)]
  have htotal : (contents fs rootino).length = deSize * (rootEntries fs).length := by
    refine (length_root h.name).trans ?_
    simp [rootEntries]
  have hmul : deSize * (k + 1) ≤ deSize * (rootEntries fs).length := mul_le_mul_left _ hk
  rw [slot, if_pos ((htotal ▸ hmul).trans ((length_root h.name).le.trans h.le_root_size))]
  have hbytes : slotBytes d.data (d.dinode rootino) k = Dirent.encode (rootEntries fs)[k] := by
    have he := (hlen _ (getElem_mem hk)).1
    refine Eq.trans ?_ (@map_getD_range (Dirent.encode (rootEntries fs)[k]))
    rw [he, slotBytes]
    refine map_congr_left fun j hj => ?_
    have hj' : j < deSize := mem_range.mp hj
    have hlt : deSize * k + j < (contents fs rootino).length := by
      have hstep : deSize * (k + 1) = deSize * k + deSize := by ring
      omega
    have haddr := h.holds.good.mapped rootino hty _
      (div_mul_le_of_lt (show deSize * k + j < _ by rw [hc.size]; exact hlt))
    rw [h.byteAt hty haddr, hc.bytes _ hlt, hroot, getD_entries (fun e he => (hlen e he).1) hk hj']
  rw [hbytes, (hlen _ (getElem_mem hk)).2]

/-- The kernel finds every file of the command line in the root. -/
theorem Made.dirlookup (h : Made s fs d) (sb : Super) (hok : ∀ f ∈ fs, f.name.Ok)
    (hle : fs.length + 2 ≤ ninodes) (hdots : ∀ f ∈ fs, f.name ≠ dot ∧ f.name ≠ dotdot)
    (hnodup : (fs.map Input.name).Nodup) {k : ℕ} (hk : k < fs.length) :
    dirlookup sb d (d.dinode rootino) fs[k].name =
    .ok (d, d.dinode rootino, some (deSize * (k + 2), k + 2)) := by
  have hty := h.root.type_ne
  have hc := h.root.content
  have hentries : (rootEntries fs).length = fs.length + 2 := by simp [rootEntries]
  have hdir : (d.dinode rootino).type = .dir := by
    rw [(h.addrs rootino).2, h.root.type]
    rfl
  have hmul : deSize * (k + 2 + 1) ≤ deSize * (fs.length + 2) := mul_le_mul_left _ (by omega)
  have hsmall : deSize * (fs.length + 2) < 2 ^ 32 := by
    unfold deSize
    unfold ninodes at hle
    omega
  have hmap : MappedTo d.data (d.dinode rootino) (deSize * (k + 2 + 1)) := by
    refine h.mappedTo hty ((h.holds.good.mapped rootino hty).mono ?_)
    rw [hc.size]
    exact hmul.trans (length_root h.name).ge
  have hsize := h.le_root_size
  have hslot : slot d.data (d.dinode rootino) (k + 2) = ⟨k + 2, fs[k].name⟩ := by
    rw [h.root_slot hok hle (by omega)]
    simp [rootEntries]
  rw [Fs.dirlookup, if_neg (by rw [hdir]; exact fun hne => hne rfl), show 0 = deSize * 0 from rfl]
  refine dirlookupLoop_finds sb hmap (hmul.trans hsize) (by omega) hslot (by omega) _ (zero_le _)
    ?_ fun m _ hm => ?_
  · have hspec := (slots_spec (d.dinode rootino).size (deSize * 0) (k + 2)).mpr (by
      have hstep : deSize * (k + 2 + 1) = deSize * (k + 2) + deSize := by ring
      have hpos : 0 < deSize := by decide
      omega)
    omega
  · rw [h.root_slot hok hle (by omega)]
    obtain _ | _ | m := m
    · exact (hdots _ (getElem_mem hk)).1.symm
    · exact (hdots _ (getElem_mem hk)).2.symm
    · intro hname
      simp only [rootEntries, getElem_cons_succ, getElem_mapIdx] at hname
      have hinj := nodup_iff_injective_get.mp hnodup
      have heq := @hinj ⟨m, by simp; omega⟩ ⟨k, by simpa using hk⟩ (by simpa using hname)
      simp only [Fin.mk.injEq] at heq
      omega

end made

section agree

theorem Input.name_ok (f : Input) (hlen : f.name.length ≤ dirsiz) : f.name.Ok := by
  refine ⟨fun b hb => f.arg_ne_zero b ?_, hlen⟩
  have hshort : b ∈ shortname f.arg := by
    unfold Input.name skipUnderscore at hb
    split_ifs at hb
    · exact mem_of_mem_tail hb
    · exact hb
  unfold shortname at hshort
  split_ifs at hshort
  · exact mem_of_mem_drop hshort
  · exact hshort

theorem Input.slash_mem_name {f : Input} (h : 47 ∈ shortname f.arg) : 47 ∈ f.name := by
  unfold Input.name skipUnderscore
  split_ifs with hhead
  · cases hs : shortname f.arg with
    | nil => simp [hs] at hhead
    | cons b bs =>
      rw [hs] at h hhead
      obtain rfl : b = 95 := by simpa using hhead
      simpa using h
  · exact h

theorem sum_contents (fs : List Input) :
    ∑ k ∈ Finset.range fs.length, blocksFor (contents fs (k + 2)).length =
      (fs.map fun f => blocksFor f.content.length).sum := by
  induction fs with
  | nil => rfl
  | cons f fs ih =>
    rw [length_cons, Finset.sum_range_succ', map_cons, sum_cons, ← ih, add_comm]
    rfl

theorem total_contents (hname : ∀ f ∈ fs, f.name.length ≤ dirsiz) :
    total (contents fs) (fs.length + 2) =
      nmeta + blocksFor (deSize * (fs.length + 2)) +
      (fs.map fun f => blocksFor f.content.length).sum := by
  have hzero : blocksFor (contents fs 0).length = 0 := blocksFor_zero
  rw [total, Finset.sum_range_succ', Finset.sum_range_succ', hzero, add_zero, sum_contents,
    zero_add, length_root hname]
  omega

/-- The command line of `mkfs`, for files with the names and sizes of the kernel's limits. -/
theorem fits_of_names (hname : ∀ f ∈ fs, f.name.length ≤ dirsiz ∧ 47 ∉ f.name)
    (hsize : ∀ f ∈ fs, f.content.length ≤ maxfile * bsize)
    (hblocks : nmeta + blocksFor (deSize * (fs.length + 2)) +
      (fs.map fun f => blocksFor f.content.length).sum ≤ fssize) : Fits fs where
  slash f hf hmem := (hname f hf).2 (Input.slash_mem_name hmem)
  name f hf := (hname f hf).1
  size := hsize
  blocks := by rw [total_contents fun f hf => (hname f hf).1]; exact hblocks

theorem main_runs (hle : fs.length + 2 ≤ ninodes) (h : Fits fs) : Runs (main fs) blank fun _ img =>
    img.sectors 1 = superSector ∧ ∃ s, Made s fs (toDisk img.sectors) ∧
      img.freeblock = s.freeblock :=
  ((main_spec fs hle).mono (fun _ _ h => h) fun _ hnot => hnot h).runs

/-- `mkfs` accepts the files, and on its image the kernel finds each name in the root and reads from
that inode the bytes of the file; the blocks that inodes refer to are different ones between `nmeta`
and `freeblock`, and the bitmap has the bits below `freeblock`. -/
theorem kernel_reads_mkfs_image (fs : List Input)
    (hname : ∀ f ∈ fs, f.name ≠ [] ∧ f.name.length ≤ dirsiz ∧ 47 ∉ f.name ∧ f.name ≠ dot ∧
      f.name ≠ dotdot)
    (hdistinct : (fs.map Input.name).Nodup) (hcount : fs.length < ninodes - 1)
    (hsize : ∀ f ∈ fs, f.content.length ≤ maxfile * bsize)
    (hblocks : nmeta + blocksFor (deSize * (fs.length + 2)) +
      (fs.map fun f => blocksFor f.content.length).sum ≤ fssize) : Runs (main fs) blank fun _ img =>
      (∀ f ∈ fs, ∃ off inum, dirlookup superblock (toDisk img.sectors)
        ((toDisk img.sectors).dinode rootino) f.name =
          .ok (toDisk img.sectors, (toDisk img.sectors).dinode rootino, some (off, inum)) ∧
        ((toDisk img.sectors).dinode inum).type = .file ∧
        ((toDisk img.sectors).dinode inum).size = f.content.length ∧
        ∀ off n, off ≤ f.content.length → off + n < 2 ^ 32 →
          readi superblock (toDisk img.sectors) ((toDisk img.sectors).dinode inum) off n =
            .ok (toDisk img.sectors, (toDisk img.sectors).dinode inum,
              (f.content.drop off).take n)) ∧
      (∀ k l, holdings (toDisk img.sectors).data (toDisk img.sectors).dinode k ≠ 0 →
        nmeta ≤ holdings (toDisk img.sectors).data (toDisk img.sectors).dinode k ∧
        holdings (toDisk img.sectors).data (toDisk img.sectors).dinode k < img.freeblock ∧
        (holdings (toDisk img.sectors).data (toDisk img.sectors).dinode k =
          holdings (toDisk img.sectors).data (toDisk img.sectors).dinode l → k = l)) ∧
      (∀ b < fssize, (toDisk img.sectors).used b = true ↔ b < img.freeblock) ∧
      (img.sectors 1).getWord 0 = fsmagic ∧ (img.sectors 1).getWord 1 = superblock.size ∧
      (img.sectors 1).getWord 3 = superblock.ninodes := by
  have hle : fs.length + 2 ≤ ninodes := by
    unfold ninodes at hcount ⊢
    omega
  have hfits : Fits fs :=
    fits_of_names (fun f hf => ⟨(hname f hf).2.1, (hname f hf).2.2.1⟩) hsize hblocks
  refine (main_runs hle hfits).mono ?_
  rintro _ img ⟨hsuper, s, hmade, hfree⟩
  have hok (f : Input) (hf : f ∈ fs) : f.name.Ok := f.name_ok (hname f hf).2.1
  have hdots (f : Input) (hf : f ∈ fs) : f.name ≠ dot ∧ f.name ≠ dotdot := (hname f hf).2.2.2
  refine ⟨fun f hf => ?_, fun k l hne => ?_, fun b hb => ?_, ?_, ?_, ?_⟩
  · obtain ⟨k, hk, rfl⟩ := getElem_of_mem hf
    refine ⟨_, _, hmade.dirlookup superblock hok hle hdots hdistinct hk, ?_, ?_,
      fun off n hoff hn => ?_⟩
    · rw [(hmade.addrs _).2, (hmade.holds.file _ (by omega) (by omega)).type]
      simp [kind, rootino]
    · exact (hmade.readi superblock hk (zero_le _) (show 0 + 0 < 2 ^ 32 by norm_num)).1
    · exact (hmade.readi superblock hk hoff hn).2
  · have hexact := hmade.holds.good.owned.exact
    rw [hmade.holdings, hmade.holdings] at *
    have hused := hexact.used_of_hold hne
    exact ⟨(hexact.range k hne).1, hfree ▸ of_decide_eq_true hused,
      fun heq => hexact.inj k l heq hne⟩
  · rw [hmade.used b (hb.trans (by decide)), hfree, decide_eq_true_eq]
  · rw [hsuper, getWord_superSector rfl]
  · rw [hsuper, getWord_superSector rfl]
    rfl
  · rw [hsuper, getWord_superSector rfl]
    rfl

def smallFile : Input := ⟨[95, 97], by simp, [[1, 2], [3]], by decide⟩

theorem kernel_reads_mkfs_image_small : Runs (main [smallFile]) blank fun _ img =>
    ∃ off inum, dirlookup superblock (toDisk img.sectors)
      ((toDisk img.sectors).dinode rootino) [97] =
        .ok (toDisk img.sectors, (toDisk img.sectors).dinode rootino, some (off, inum)) ∧
      readi superblock (toDisk img.sectors) ((toDisk img.sectors).dinode inum) 0 10 =
        .ok (toDisk img.sectors, (toDisk img.sectors).dinode inum, [1, 2, 3]) := by
  have hspec :=
    kernel_reads_mkfs_image [smallFile] (by decide) (by decide) (by decide) (by decide) (by decide)
  refine hspec.mono fun _ img h => ?_
  obtain ⟨off, inum, hlookup, -, -, hread⟩ := h.1 smallFile (by simp)
  exact ⟨off, inum, hlookup, hread 0 10 (by decide) (by norm_num)⟩

end agree

section holes

/-- The root has its blocks up to the rounded size unless its entries end with a block. -/
theorem Made.root_mapped_iff (h : Made s fs d) (hle : fs.length + 2 ≤ ninodes) :
    MappedTo d.data (d.dinode rootino) (d.dinode rootino).size ↔ ¬ 64 ∣ fs.length + 2 := by
  have hty := h.root.type_ne
  have htight := h.root.tight
  rw [show (contents fs rootino).length =
    deSize * (fs.length + 2) from length_root h.name] at htight
  have hlast : deSize * (fs.length + 2) / bsize < maxfile := by
    unfold deSize bsize maxfile ndirect nindirect
    unfold ninodes at hle
    omega
  have hmapped (bn : ℕ) (hbn : bn < maxfile) :
      Fs.addrAt d.data (d.dinode rootino) (position bn) ≠ 0 ↔
        bn * bsize < deSize * (fs.length + 2) := by
    rw [h.addrAt hty]
    exact htight.mapped bn hbn
  rw [h.root_size]
  constructor
  · intro hmap hdvd
    have hend := (hmapped _ hlast).mp (hmap _ (by unfold bsize; omega))
    unfold deSize bsize at hend
    omega
  · intro hndvd bn hbn
    refine (hmapped bn ?_).mpr ?_
    · unfold bsize at hbn hlast
      omega
    · unfold deSize bsize at hbn ⊢
      omega

theorem Made.no_holes_iff (h : Made s fs d) (hle : fs.length + 2 ≤ ninodes) :
    (∀ i, (d.dinode i).type ≠ .none → MappedTo d.data (d.dinode i) (d.dinode i).size) ↔
    ¬ 64 ∣ fs.length + 2 := by
  rw [← h.root_mapped_iff hle]
  constructor
  · intro hall
    refine hall rootino ?_
    rw [(h.addrs rootino).2]
    exact h.root.type_ne
  · intro hroot i hty
    by_cases hi : i = rootino
    · rw [hi]
      exact hroot
    · rw [(h.addrs i).2] at hty
      refine h.mappedTo hty ?_
      rw [h.dinode_of_ne hi]
      exact h.holds.good.mapped i hty

/-- The images of `mkfs` have no holes exactly when the number of the root's entries is not a
multiple of those in a block, and then the kernel reads the root without allocating. -/
theorem mkfs_no_holes_iff (fs : List Input) (hinodes : fs.length + 2 ≤ ninodes) {img : Image}
    (hrun : main fs blank = .ok ((), img)) : ((∀ i, ((toDisk img.sectors).dinode i).type ≠ .none →
      MappedTo (toDisk img.sectors).data ((toDisk img.sectors).dinode i)
        ((toDisk img.sectors).dinode i).size) ↔ ¬ 64 ∣ fs.length + 2) ∧
        (¬ 64 ∣ fs.length + 2 → ∀ off n, ∃ bytes,
      readi superblock (toDisk img.sectors) ((toDisk img.sectors).dinode rootino) off n =
        .ok (toDisk img.sectors, (toDisk img.sectors).dinode rootino, bytes)) := by
  obtain ⟨-, s, hmade, -⟩ := (main_spec fs hinodes).of_ok hrun
  refine ⟨hmade.no_holes_iff hinodes, fun hndvd off n => ?_⟩
  have hmap := (hmade.root_mapped_iff hinodes).mpr hndvd
  by_cases hoff : ((toDisk img.sectors).dinode rootino).size < off ∨ 2 ^ 32 ≤ off + n
  · exact ⟨[], by rw [readi, if_pos hoff]⟩
  · exact ⟨_, readi_spec hmap (by omega) (by omega)⟩

def emptyFiles (n : ℕ) : List Input :=
  (List.range n).map fun k => ⟨[UInt8.ofNat (k % 63 + 128)], by
    intro b hb
    rw [mem_singleton.mp hb]
    have hlt : k % 63 < 63 := mod_lt _ (by norm_num)
    intro hzero
    have hnat := congrArg UInt8.toNat hzero
    simp only [UInt8.toNat_ofNat', UInt8.toNat_zero] at hnat
    omega, [], by simp⟩

theorem mkfs_no_holes_iff_few : ∃ img, main (emptyFiles 3) blank = .ok ((), img) ∧
    ∀ i, ((toDisk img.sectors).dinode i).type ≠ .none →
      MappedTo (toDisk img.sectors).data ((toDisk img.sectors).dinode i)
      ((toDisk img.sectors).dinode i).size := by
  have hfits : Fits (emptyFiles 3) := fits_of_names (by decide) (by decide) (by decide)
  obtain ⟨⟨⟩, img, hrun, -⟩ := main_runs (by decide) hfits
  exact ⟨img, hrun, (mkfs_no_holes_iff (emptyFiles 3) (by decide) hrun).1.mpr (by decide)⟩

theorem Made.balloc (h : Made s fs d) (hfree : s.freeblock < fssize) :
    Fs.balloc superblock d = (d.take s.freeblock, s.freeblock) := by
  have hused (b : ℕ) (hb : b < fssize) : d.used b = decide (b < s.freeblock) :=
    h.used b (hb.trans (by decide))
  have hfind : ((List.range superblock.size).find? fun b => ¬ d.used b) = some s.freeblock := by
    rw [List.find?_range_eq_some]
    refine ⟨by simp [hused _ hfree], mem_range.mpr hfree, fun j hj => ?_⟩
    simp [hused j (hj.trans hfree), hj]
  rw [Fs.balloc, hfind]
  rfl

/-- With 62 files the entries of the root fill a block; the kernel allocates another one when it
reads the root up to its size. -/
theorem mkfs_hole : ∃ img, main (emptyFiles 62) blank = .ok ((), img) ∧
    ((toDisk img.sectors).dinode rootino).size = 2048 ∧
    addrAt (toDisk img.sectors).data ((toDisk img.sectors).dinode rootino) (position 1) = 0 ∧
    (toDisk img.sectors).used 47 = false ∧
    ∃ d' ip' bytes, readi superblock (toDisk img.sectors)
    ((toDisk img.sectors).dinode rootino) 1024 16 =
        .ok (d', ip', bytes) ∧ d'.used 47 = true := by
  have hfits : Fits (emptyFiles 62) := fits_of_names (by decide) (by decide) (by decide)
  obtain ⟨⟨⟩, img, hrun, -, s, hmade, -⟩ := main_runs (by decide) hfits
  have hlen : (contents (emptyFiles 62) rootino).length = 1024 := length_root hmade.name
  have hfree : s.freeblock = 47 := by
    rw [hmade.holds.count]
    refine (total_contents hmade.name).trans ?_
    decide
  refine ⟨img, hrun, ?_⟩
  generalize toDisk img.sectors = d at hmade ⊢
  have hsize : (d.dinode rootino).size = 2048 := hmade.root_size
  have hhole : addrAt d.data (d.dinode rootino) (position 1) = 0 := by
    rw [hmade.addrAt hmade.root.type_ne]
    by_contra hne
    have hlt := (hmade.root.tight.mapped 1 (by decide)).mp hne
    rw [hlen] at hlt
    exact absurd hlt (by decide)
  have haddr : (d.dinode rootino).addrs 1 = 0 := hhole
  have hbmap : bmap superblock d (d.dinode rootino) 1 =
      .ok (d.take 47, (d.dinode rootino).setAddr 1 47, 47) := by
    rw [bmap, if_pos (by decide), if_pos haddr, hmade.balloc (by rw [hfree]; decide), hfree]
    rfl
  refine ⟨hsize, hhole, ?_, d.take 47, (d.dinode rootino).setAddr 1 47,
    ((d.take 47).data 47).read 0 16, ?_, ?_⟩
  · rw [hmade.used 47 (by decide), hfree]
    rfl
  · rw [readi, if_neg (by rw [hsize]; decide)]
    simp only [hsize]
    rw [if_neg (by decide), readLoop, if_neg (by decide), show 1024 / bsize = 1 from rfl, hbmap]
    rfl
  · simp [Disk.take, Disk.setData]

end holes

end Xv6.Mkfs
