import Mathlib.Algebra.BigOperators.Group.Finset.Basic
import Mathlib.Data.List.GetD
import Mathlib.Data.Nat.Bitwise
import Xv6.MkfsImage

/-!
# The files of the image

The image while it is made, as the files in it: inode `i` has the bytes `c i`, for the inodes that
have been allocated so far. `ialloc` adds an empty file and `iappend` makes one longer; the number
of blocks taken is the sum over the files. The whole run of `mkfs` follows.
-/

namespace Xv6.Mkfs

open Fs Function List Nat

structure Content (d : Disk) (i : ℕ) (bytes : List UInt8) : Prop where
  size : (d.dinode i).size = bytes.length
  bytes : ∀ o < bytes.length, byteAt d.data (d.dinode i) o = bytes.getD o 0

def kind (i : ℕ) : IType := if i = rootino then .dir else .file

structure File (d : Disk) (i : ℕ) (bytes : List UInt8) : Prop where
  type : (d.dinode i).type = kind i
  nlink : (d.dinode i).nlink = 1
  content : Content d i bytes
  tight : Tight d.data (d.dinode i) bytes.length

def total (c : ℕ → List UInt8) (n : ℕ) : ℕ := nmeta + ∑ i ∈ Finset.range n, blocksFor (c i).length

structure Holds (s : Image) (n : ℕ) (c : ℕ → List UInt8) : Prop where
  sane : Sane s
  good : Good superblock (view s)
  super : s.sectors 1 = superSector
  freeinode : s.freeinode = n
  le : n ≤ ninodes
  zero : c 0 = []
  free : ∀ i, i = 0 ∨ n ≤ i → ((view s).dinode i).type = .none
  file : ∀ i, 0 < i → i < n → File (view s) i (c i)
  count : s.freeblock = total c n

variable {s t : Image} {i n : ℕ} {c : ℕ → List UInt8} {src bytes : List UInt8} {d d' : Disk}

section steps

theorem File.type_ne (h : File d i bytes) : (d.dinode i).type ≠ .none := by
  rw [h.type, kind]
  split_ifs <;> decide

theorem File.touch (h : File d i bytes) {j : ℕ} (ht : Touches j d d') (hij : i ≠ j)
    (hgood : Good superblock d) :
    File d' i bytes := by
  have hsame := ht.dinode i hij
  have hc := h.content
  refine ⟨by rw [hsame, h.type], by rw [hsame, h.nlink],
    ⟨by rw [hsame, hc.size], fun o ho => ?_⟩, ?_⟩
  · have haddr := hgood.mapped i h.type_ne _ (div_mul_le_of_lt (by rwa [hc.size]))
    rw [hsame, ht.bytes i hij h.type_ne o haddr]
    exact hc.bytes o ho
  · rw [hsame]
    refine ⟨fun bn hbn => ?_, h.tight.indirect⟩
    rw [ht.addrs i hij h.type_ne, h.tight.mapped bn hbn]

/-- `iappend` adds the source to the end of its file and touches no other. -/
theorem Appended.content (ha : Appended s i src t) (hgood : Good superblock (view s))
    (hty : ((view s).dinode i).type ≠ .none) (hc : Content (view s) i bytes) :
    Stepped superblock i (view s) (view t) ((view t).dinode i) ∧
    Content (view t) i (bytes ++ src) := by
  have hcases := hgood.writei_cases hty ((view s).dinode i).size src src.length
  rw [ha.writes] at hcases
  obtain hfail | ⟨d', ip', last, hrun, hstep, -, hsize, hw⟩ := hcases
  · simp at hfail
  · obtain ⟨rfl, rfl, hlen⟩ : view t = d' ∧ (view t).dinode i = ip' ∧
        (src.length : ℤ) = (last - ((view s).dinode i).size : ℕ) := by simpa using hrun
    have hlast : last = bytes.length + src.length := by
      have hle := hw.le
      have hcs := hc.size
      omega
    refine ⟨hstep, ?_, fun o ho => ?_⟩
    · rw [hsize, hc.size, hlast, length_append]
      omega
    · rw [length_append] at ho
      by_cases hold : o < bytes.length
      · have haddr := hgood.mapped i hty _ (div_mul_le_of_lt (by rw [hc.size]; exact hold))
        rw [hw.outside o haddr (.inl (by rw [hc.size]; exact hold)), hc.bytes o hold,
          getD_append _ _ _ _ hold]
      · rw [hw.inside o (by rw [hc.size]; omega) (by omega), hc.size,
          getD_append_right _ _ _ _ (by omega)]

theorem total_update (src : List UInt8) {k : ℕ} (hk : k < n) :
    total (update c k (c k ++ src)) n + blocksFor (c k).length =
    total c n + blocksFor ((c k).length + src.length) := by
  have hmem := Finset.mem_range.mpr hk
  have hrest : ∑ j ∈ (Finset.range n).erase k, blocksFor (update c k (c k ++ src) j).length =
      ∑ j ∈ (Finset.range n).erase k, blocksFor (c j).length :=
    Finset.sum_congr rfl fun j hj => by rw [update_of_ne (Finset.ne_of_mem_erase hj)]
  have hnew := Finset.add_sum_erase (Finset.range n)
    (fun j => blocksFor (update c k (c k ++ src) j).length) hmem
  have hold := Finset.add_sum_erase (Finset.range n) (fun j => blocksFor (c j).length) hmem
  rw [hrest, update_self, length_append] at hnew
  unfold total
  omega

theorem Holds.iappend {P : Prop} (h : Holds s n c) (hi : 0 < i) (hin : i < n)
    (hfull : maxfile * bsize < (c i).length + src.length ∨
      fssize < total (update c i (c i ++ src)) n → P) :
    Yields (iappend i src) s (fun _ t => Holds t n (update c i (c i ++ src))) fun _ => P := by
  have hfile := h.file i hi hin
  have hty := hfile.type_ne
  have hc := hfile.content
  have htotal := total_update src hin (c := c)
  have hcount := h.count
  have hrun : Yields (Mkfs.iappend i src) s (fun _ t => Appended s i src t) fun _ => P := by
    refine iappend_spec h.sane h.good (hin.trans_le h.le) hty ?_ fun hbad => ?_
    · rw [hc.size]
      exact hfile.tight
    · rw [hc.size] at hbad
      exact hfull (hbad.imp_right fun hlt => by omega)
  refine hrun.mono (fun _ t ha => ?_) fun _ hP => hP
  obtain ⟨hstep, hci⟩ := ha.content h.good hty hc
  have hother (j : ℕ) (hj : j ≠ i) : update c i (c i ++ src) j = c j :=
    update_of_ne hj ..
  refine ⟨ha.frame.sane, hstep.good, ha.frame.super.trans h.super,
    ha.frame.freeinode.trans h.freeinode, h.le, ?_, fun j hj => ?_, fun j hj hjn => ?_, ?_⟩
  · rw [hother 0 (by omega), h.zero]
  · rw [hstep.touches.dinode j (by omega), h.free j hj]
  · by_cases hji : j = i
    · subst hji
      rw [update_self]
      refine ⟨by rw [hstep.same, ← hfile.type], by rw [hstep.same, ← hfile.nlink], hci, ?_⟩
      rw [length_append, ← hc.size]
      exact ha.tight
    · rw [hother j hji]
      exact (h.file j hj hjn).touch hstep.touches hji h.good
  · have htc := ha.count
    rw [hc.size] at htc
    omega

theorem tight_empty (data : ℕ → Block) (ip : Dinode) (h : ip.addrs = fun _ => 0) :
    Tight data ip 0 := by
  refine ⟨fun bn _ => ?_, ?_⟩
  · have hzero : addrAt data ip (position bn) = 0 := by simp [addrAt, h]
    simp [hzero]
  · simp [h]

theorem Holds.ialloc (h : Holds s n c) (hpos : 0 < n) (hn : n < ninodes) :
    Runs (ialloc (kind n)) s fun r t => r = n ∧ Holds t (n + 1) (update c n []) := by
  have hfree := h.free n (.inr le_rfl)
  have hview : view ({ s with freeinode := s.freeinode + 1 } : Image) = view s := rfl
  have hsane : Sane { s with freeinode := s.freeinode + 1 } :=
    ⟨h.sane.length, h.sane.nmeta_le, h.sane.le, h.sane.zero⟩
  have hnum := h.freeinode
  rw [hnum] at hview hsane
  refine Runs.reads (Runs.writes_bind ?_)
  rw [hnum]
  refine Runs.bind
    (Q := fun _ t => t = Image.store { s with freeinode := n + 1 } n (newInode (kind n)))
    ⟨(), _, winode_run hsane hn, rfl⟩ fun _ t ht => Runs.ret ⟨rfl, ?_⟩
  have hframe : Frame { s with freeinode := n + 1 }
      (Image.store { s with freeinode := n + 1 } n (newInode (kind n))) := hsane.store hn
  have hstore : view t = (view s).iupdate n ⟨kind n, 0, 0, 1, 0, fun _ => 0⟩ := by
    rw [ht, view_store hn, inode_newInode, hview]
  obtain ⟨hgood, htouch⟩ := h.good.store_new hfree (kind n) 1
  rw [← hstore] at hgood htouch
  have hself : (view t).dinode n = ⟨kind n, 0, 0, 1, 0, fun _ => 0⟩ := by
    rw [hstore]
    exact update_self ..
  have hother (j : ℕ) (hj : j ≠ n) : update c n [] j = c j := update_of_ne hj ..
  rw [← ht] at hframe
  refine ⟨hframe.sane, hgood, hframe.super.trans h.super, hframe.freeinode, hn, ?_, fun j hj => ?_,
    fun j hj hjn => ?_, ?_⟩
  · rw [hother 0 hpos.ne, h.zero]
  · rw [htouch.dinode j (by omega)]
    exact h.free j (by omega)
  · by_cases hne : j = n
    · subst hne
      rw [update_self]
      exact ⟨by rw [hself], by rw [hself], ⟨by rw [hself]; rfl, fun o ho => absurd ho (by simp)⟩,
        tight_empty _ _ (by rw [hself])⟩
    · rw [hother j hne]
      exact (h.file j hj (by omega)).touch htouch hne h.good
  · have hsum : ∑ j ∈ Finset.range n, blocksFor (update c n [] j).length =
        ∑ j ∈ Finset.range n, blocksFor (c j).length :=
      Finset.sum_congr rfl fun j hj => by
        rw [hother j (Finset.mem_range.mp hj).ne]
    have hcount := h.count
    rw [ht]
    change s.freeblock = _
    rw [hcount, total, total, Finset.sum_range_succ, hsum, update_self]
    simp [blocksFor_zero]

end steps

section files

def Input.name (f : Input) : Name := skipUnderscore (shortname f.arg)

def Input.content (f : Input) : List UInt8 := (f.reads.takeWhile (· ≠ [])).flatten

def rootEntries (fs : List Input) : List Dirent :=
  ⟨rootino, dot⟩ :: ⟨rootino, dotdot⟩ :: fs.mapIdx fun k f => ⟨k + 2, f.name⟩

def contents (fs : List Input) : ℕ → List UInt8
  | 0 => []
  | 1 => (rootEntries fs).flatMap Dirent.encode
  | k + 2 => (fs[k]?.map Input.content).getD []

structure Fits (fs : List Input) : Prop where
  slash : ∀ f ∈ fs, 47 ∉ shortname f.arg
  name : ∀ f ∈ fs, f.name.length ≤ dirsiz
  size : ∀ f ∈ fs, f.content.length ≤ maxfile * bsize
  blocks : total (contents fs) (fs.length + 2) ≤ fssize

variable {fs done rest : List Input} {f : Input}

theorem total_mono {c' : ℕ → List UInt8} {m : ℕ} (hnm : n ≤ m)
    (h : ∀ j < n, (c j).length ≤ (c' j).length) : total c n ≤ total c' m := by
  have hsum : ∑ j ∈ Finset.range n, blocksFor (c j).length ≤ ∑ j ∈ Finset.range n,
      blocksFor (c' j).length :=
    Finset.sum_le_sum fun j hj => blocksFor_mono (h j (Finset.mem_range.mp hj))
  have hsub : ∑ j ∈ Finset.range n, blocksFor (c' j).length ≤ ∑ j ∈ Finset.range m,
      blocksFor (c' j).length :=
    Finset.sum_le_sum_of_subset (Finset.range_subset_range.mpr hnm)
  unfold total
  omega

theorem Holds.congr {c' : ℕ → List UInt8} (h : Holds s n c) (hc : ∀ j < n, c j = c' j)
    (hpos : 0 < n) : Holds s n c' :=
  { h with
    zero := by rw [← hc 0 hpos, h.zero]
    file := fun j hj hjn => hc j hjn ▸ h.file j hj hjn
    count := by
      rw [h.count, total, total]
      exact congrArg _ (Finset.sum_congr rfl fun j hj => by rw [hc j (Finset.mem_range.mp hj)]) }

theorem contents_append_root (done : List Input) (f : Input) :
    contents (done ++ [f]) 1 = contents done 1 ++ Dirent.encode ⟨done.length + 2, f.name⟩ := by
  simp [contents, rootEntries, mapIdx_append]

theorem contents_append_new (done : List Input) (f : Input) :
    contents (done ++ [f]) (done.length + 2) = f.content := by
  simp [contents]

theorem contents_append_old (rest : List Input) {j : ℕ} (hj : j < done.length + 2) (hroot : j ≠ 1) :
    contents (done ++ rest) j = contents done j := by
  match j, hj, hroot with
  | 0, _, _ => rfl
  | k + 2, hj, _ => simp [contents, List.getElem?_append_left (show k < done.length by omega)]

theorem length_contents_le (done rest : List Input) {j : ℕ} (hj : j < done.length + 2) :
    (contents done j).length ≤ (contents (done ++ rest) j).length := by
  by_cases hroot : j = 1
  · subst hroot
    have hroot : contents (done ++ rest) 1 = contents done 1 ++
        (rest.mapIdx fun k f => (⟨k + done.length + 2, f.name⟩ : Dirent)).flatMap
        Dirent.encode := by
      simp [contents, rootEntries, mapIdx_append]
    rw [hroot, length_append]
    omega
  · rw [contents_append_old rest hj hroot]

theorem length_root (hname : ∀ f ∈ fs, f.name.length ≤ dirsiz) :
    (contents fs 1).length = deSize * (fs.length + 2) := by
  have hlen : ∀ e ∈ rootEntries fs, (Dirent.encode e).length = deSize := by
    intro e he
    simp only [rootEntries, mem_cons, mem_mapIdx] at he
    obtain rfl | rfl | ⟨k, hk, rfl⟩ := he
    · exact length_encode _ (by decide)
    · exact length_encode _ (by decide)
    · exact length_encode _ (hname _ (getElem_mem hk))
  have hsum : ((rootEntries fs).flatMap Dirent.encode).length =
      (rootEntries fs).length * deSize := by
    rw [length_flatMap, map_congr_left hlen]
    simp
  rw [contents, hsum, rootEntries]
  simp only [length_cons, length_mapIdx]
  ring

theorem Holds.copyFile {P : Prop} (reads : List (List UInt8)) (h : Holds s n c) (hi : 0 < i)
    (hin : i < n) (hfull : maxfile * bsize <
      (c i).length + (reads.takeWhile (· ≠ [])).flatten.length ∨
      fssize < total (update c i (c i ++ (reads.takeWhile (· ≠ [])).flatten)) n → P) :
    Yields (copyFile i reads) s
    (fun _ t => Holds t n (update c i (c i ++ (reads.takeWhile (· ≠ [])).flatten)))
      fun _ => P := by
  induction reads generalizing s c with
  | nil =>
    refine Yields.ret ?_
    simpa using h
  | cons buf reads ih =>
    rw [Mkfs.copyFile]
    by_cases hbuf : buf = []
    · rw [if_pos hbuf]
      refine Yields.ret ?_
      simpa [hbuf] using h
    · have htake : ((buf :: reads).takeWhile (· ≠ [])).flatten =
          buf ++ (reads.takeWhile (· ≠ [])).flatten := by simp [hbuf]
      rw [htake] at hfull ⊢
      rw [if_neg hbuf]
      have happend : Yields (Mkfs.iappend i buf) s (fun _ t => Holds t n (update c i (c i ++ buf)))
          fun _ => P := by
        refine h.iappend hi hin fun hbad => hfull ?_
        rw [length_append]
        refine hbad.imp (fun hlt => by omega)
          fun hlt => hlt.trans_le (total_mono le_rfl fun j _ => ?_)
        by_cases hj : j = i
        · subst hj
          simp
        · rw [update_of_ne hj, update_of_ne hj]
      refine happend.bind fun _ t ht => ?_
      have hself : update c i (c i ++ buf) i = c i ++ buf := update_self ..
      have hnext := ih ht
      rw [hself, update_idem, append_assoc, length_append] at hnext
      exact hnext fun hbad => hfull (hbad.imp_left fun hlt => by rw [length_append]; omega)

theorem Holds.addFile (f : Input) (rest : List Input)
    (h : Holds s (done.length + 2) (contents done)) (hname : ∀ g ∈ done, g.name.length ≤ dirsiz)
    (hle : done.length + 3 ≤ ninodes) : Yields (addFile rootino f) s
      (fun _ t => Holds t (done.length + 3) (contents (done ++ [f])) ∧ f.name.length ≤ dirsiz)
      fun _ => ¬ Fits (done ++ f :: rest) := by
  have hmem : f ∈ done ++ f :: rest := by simp
  have hwhole : done ++ f :: rest = done ++ [f] ++ rest := by simp
  rw [Mkfs.addFile]
  by_cases hslash : 47 ∈ shortname f.arg
  · rw [if_pos hslash]
    exact Yields.fail fun hfits => hfits.slash f hmem hslash
  rw [if_neg hslash]
  by_cases hlong : dirsiz < (skipUnderscore (shortname f.arg)).length
  · rw [if_pos hlong]
    exact Yields.fail fun hfits => absurd (hfits.name f hmem) (not_le.mpr hlong)
  rw [if_neg hlong]
  have hshort : f.name.length ≤ dirsiz := not_lt.mp hlong
  have hkind : IType.file = kind (done.length + 2) := by
    simp [kind, rootino]
  rw [hkind]
  refine (Yields.of_runs (h.ialloc (by omega) (by omega))).bind fun inum t ht => ?_
  obtain ⟨rfl, ht⟩ := ht
  -- the contents of the image after the entry has been added to the root, and after the file is
  -- copied
  generalize hc₁ : update (contents done) (done.length + 2) [] = c₁ at ht
  generalize hc₂ : update c₁ rootino (c₁ rootino ++ Dirent.encode ⟨done.length + 2, f.name⟩) = c₂
  have hroot₁ : c₁ rootino = contents done 1 := by
    rw [← hc₁]
    exact update_of_ne (by simp [rootino]) ..
  have hroot₂ : c₂ rootino = contents (done ++ [f]) 1 := by
    rw [← hc₂, update_self, hroot₁, contents_append_root]
  have hnew₂ : c₂ (done.length + 2) = [] := by
    rw [← hc₂, update_of_ne (by simp [rootino]), ← hc₁, update_self]
  have hold₂ (j : ℕ) (hj : j < done.length + 2) (hroot : j ≠ 1) :
      c₂ j = contents (done ++ [f]) j := by
    have hne : j ≠ rootino := hroot
    rw [← hc₂, update_of_ne hne, ← hc₁, update_of_ne hj.ne, contents_append_old [f] hj hroot]
  have hfinal (j : ℕ) (hj : j < done.length + 3) :
      update c₂ (done.length + 2) (c₂ (done.length + 2) ++ f.content) j =
        contents (done ++ [f]) j := by
    by_cases hlast : j = done.length + 2
    · subst hlast
      rw [update_self, hnew₂, contents_append_new, nil_append]
    · rw [update_of_ne hlast]
      by_cases hroot : j = 1
      · subst hroot
        exact hroot₂
      · exact hold₂ j (by omega) hroot
  have hlen (j : ℕ) (hj : j < done.length + 3) :
      (c₂ j).length ≤ (contents (done ++ [f]) j).length := by
    by_cases hlast : j = done.length + 2
    · subst hlast
      rw [hnew₂]
      exact zero_le _
    · rw [← hfinal j hj, update_of_ne hlast]
  have hblocks (hfits : Fits (done ++ f :: rest)) :
      total (contents (done ++ [f])) (done.length + 3) ≤ fssize := by
    refine le_trans ?_ hfits.blocks
    rw [hwhole]
    exact total_mono (by simp) fun j hj => length_contents_le _ _ (by simpa using hj)
  have happend : Yields (Mkfs.iappend rootino (Dirent.encode ⟨done.length + 2, f.name⟩)) t
      (fun _ u => Holds u (done.length + 3) c₂) fun _ => ¬ Fits (done ++ f :: rest) := by
    rw [← hc₂]
    refine ht.iappend (by decide) (by simp [rootino]) fun hbad hfits => ?_
    obtain hbad | hbad := hbad
    · rw [hroot₁, length_root hname, length_encode _ hshort] at hbad
      unfold deSize maxfile ndirect nindirect bsize at hbad
      unfold ninodes at hle
      omega
    · rw [hc₂] at hbad
      exact absurd hbad (not_lt.mpr ((total_mono le_rfl hlen).trans (hblocks hfits)))
  refine happend.bind fun _ u hu => ?_
  have hcopy := hu.copyFile (P := ¬ Fits (done ++ f :: rest)) f.reads
    (show 0 < done.length + 2 by omega) (by omega) fun hbad hfits => by
      obtain hbad | hbad := hbad
      · rw [hnew₂] at hbad
        have hsize : (f.reads.takeWhile (· ≠ [])).flatten.length ≤ maxfile * bsize :=
          hfits.size f hmem
        simp only [length_nil, zero_add] at hbad
        omega
      · have hmono :=
          total_mono (le_refl (done.length + 3)) fun j hj => (congrArg List.length (hfinal j hj)).le
        exact absurd hbad (not_lt.mpr (hmono.trans (hblocks hfits)))
  refine hcopy.mono (fun _ v hv => ⟨?_, hshort⟩) fun _ hP => hP
  exact hv.congr (fun j hj => hfinal j hj) (by omega)

theorem Holds.addFiles (rest : List Input) (h : Holds s (done.length + 2) (contents done))
    (hname : ∀ g ∈ done, g.name.length ≤ dirsiz) (hle : (done ++ rest).length + 2 ≤ ninodes) :
    Yields (rest.forM (Mkfs.addFile rootino)) s
      (fun _ t => Holds t ((done ++ rest).length + 2) (contents (done ++ rest)) ∧
        ∀ g ∈ done ++ rest, g.name.length ≤ dirsiz) fun _ => ¬ Fits (done ++ rest) := by
  induction rest generalizing s done with
  | nil =>
    refine Yields.ret ?_
    simpa using ⟨h, hname⟩
  | cons f rest ih =>
    rw [List.forM]
    rw [length_append, length_cons] at hle
    refine (h.addFile f rest hname (by omega)).bind fun _ t ht => ?_
    have hnext := @ih t (done ++ [f]) (by simpa using ht.1) (fun g hg => by
        rcases mem_append.mp hg with hg | hg
        · exact hname g hg
        · rw [mem_singleton.mp hg]
          exact ht.2)
      (by simp; omega)
    simpa using hnext

end files

section main

theorem wzeroes_spec (n : ℕ) (h : s.sectors = fun _ _ => 0) :
    Runs (wzeroes n) s fun _ t => t = { s with length := max s.length n } := by
  induction n with
  | zero => exact Runs.ret (by simp)
  | succ n ih =>
    rw [wzeroes, range_succ, forM_eq_forM, forM_append]
    refine ih.bind fun _ t ht => ⟨(), t.put n fun _ => 0, rfl, ?_⟩
    subst ht
    simp only [Image.put, h, update_eq_self]
    congr 1
    omega

def formatted : Image := ⟨update (fun _ _ => 0) 1 superSector, fssize, 1, nmeta⟩

theorem getDinode_zero (j : ℕ) : getDinode (fun _ => 0) j = freeDinode := by
  have hshort (m : ℕ) : Block.getShort (fun _ => 0) m = 0 := by
    unfold Block.getShort
    simp
  have htype : IType.ofShort 0 = .none := rfl
  simp only [getDinode, hshort, getWord_zero, htype, ite_self, freeDinode]

theorem formatted_sectors : formatted.sectors = update (fun _ _ => 0) 1 superSector := rfl

theorem view_formatted (i : ℕ) : (view formatted).dinode i = freeDinode := by
  change (if i < ninodes then readDinode inodestart formatted.sectors i else freeDinode) = _
  split_ifs
  · have hne : inodestart + i / ipb ≠ 1 := by
      rw [inodestart_eq]
      unfold ipb
      omega
    rw [readDinode, formatted_sectors, update_of_ne hne, getDinode_zero]
  · rfl

theorem formatted_good : Good superblock (view formatted) := by
  have hhold (k : ℕ × ℕ) : holdings (view formatted).data (view formatted).dinode k = 0 := by
    rw [holdings, view_formatted]
    exact if_pos rfl
  have hused (b : ℕ) : (view formatted).used b = decide (b < 46) := rfl
  refine ⟨⟨⟨by decide, fun k l _ hne => absurd (hhold k) hne, fun k hne => absurd (hhold k) hne,
    fun b hlo _ => ?_⟩, fun b hb => decide_eq_true hb⟩, fun i hty => ?_⟩
  · have hlo' : 46 ≤ b := hlo
    rw [hused]
    refine iff_of_false (by simpa using hlo') ?_
    rintro ⟨k, hk⟩
    rw [hhold] at hk
    omega
  · rw [view_formatted] at hty
    exact absurd rfl hty

theorem formatted_holds : Holds formatted 1 fun _ => [] where
  sane := ⟨rfl, le_rfl, by decide, fun b hb => by
    have hne : b ≠ 1 := by
      have hb' : 46 ≤ b := hb
      omega
    rw [formatted_sectors, update_of_ne hne]⟩
  good := formatted_good
  super := by rw [formatted_sectors, update_self]
  freeinode := rfl
  le := by decide
  zero := rfl
  free i _ := by rw [view_formatted]; rfl
  file i hi hin := by omega
  count := by decide

theorem Holds.rootEntry {P : Prop} (h : Holds s 2 c) (hlen : (c rootino).length ≤ deSize)
    (hsrc : src.length = deSize) :
    Yields (Mkfs.iappend rootino src) s (fun _ t => Holds t 2 (update c rootino (c rootino ++ src)))
    fun _ => P := by
  refine h.iappend (by decide) (by decide) fun hbad => ?_
  exfalso
  have hzero : update c rootino (c rootino ++ src) 0 = [] := by
    rw [update_of_ne (by decide), h.zero]
  have htotal : total (update c rootino (c rootino ++ src)) 2 =
      nmeta + blocksFor (c rootino ++ src).length := by
    rw [total, Finset.sum_range_succ, Finset.sum_range_one, hzero]
    change nmeta +
      (blocksFor 0 + blocksFor (update c rootino (c rootino ++ src) rootino).length) = _
    rw [update_self, blocksFor_zero, zero_add]
  rw [htotal, length_append, hsrc] at hbad
  have hmono := blocksFor_mono (show (c rootino).length + deSize ≤ 32 by unfold deSize at *; omega)
  have hblocks : blocksFor 32 = 1 := by decide
  rw [nmeta_eq] at hbad
  unfold fssize deSize maxfile ndirect nindirect bsize at *
  omega

def rounded (ip : Dinode) : Dinode := { ip with size := (ip.size / bsize + 1) * bsize }

/-- The disk `d` that the kernel sees is the image `s` with the size of the root fixed. -/
structure Made (s : Image) (fs : List Input) (d : Disk) : Prop where
  holds : Holds s (fs.length + 2) (contents fs)
  name : ∀ f ∈ fs, f.name.length ≤ dirsiz
  dinode : d.dinode = update (view s).dinode rootino (rounded ((view s).dinode rootino))
  used : ∀ b < bpb, d.used b = decide (b < s.freeblock)
  data : ∀ b, nmeta ≤ b → d.data b = (view s).data b

theorem bit_eq_testBit (buf : Block) (j : ℕ) : bit buf j = (buf (j / 8)).toNat.testBit (j % 8) := by
  rw [bit, one_shiftLeft, and_two_pow]
  cases (buf (j / 8)).toNat.testBit (j % 8) <;> simp

theorem bit_setBit (buf : Block) (i j : ℕ) :
    bit (setBit buf i) j = (decide (j = i) || bit buf j) := by
  rw [bit_eq_testBit, bit_eq_testBit, setBit]
  by_cases hbyte : j / 8 = i / 8
  · have hlt : j % 8 < 8 := mod_lt _ (by norm_num)
    have hiff : i % 8 = j % 8 ↔ j = i := by omega
    rw [hbyte, update_self, UInt8.toNat_ofNat', testBit_mod_two_pow, testBit_or,
      one_shiftLeft, testBit_two_pow]
    simp [hlt, hiff, Bool.or_comm]
  · have hne : j ≠ i := by
      rintro rfl
      exact hbyte rfl
    rw [update_of_ne hbyte]
    simp [hne]

theorem bit_foldl (used j : ℕ) : bit ((List.range used).foldl setBit fun _ => 0) j =
    decide (j < used) := by
  induction used with
  | zero => simp [bit]
  | succ used ih =>
    rw [range_succ, foldl_append, foldl_cons, foldl_nil, bit_setBit, ih, ← Bool.decide_or]
    exact decide_eq_decide.mpr (by omega)

theorem getWord_superSector {k v : ℕ}
    (h : [fsmagic, fssize, nblocks, ninodes, nlog, 2, inodestart, bmapstart][k]? = some v) :
    superSector.getWord k = v := by
  obtain ⟨hk, hv⟩ := List.getElem?_eq_some_iff.mp h
  have hword := Block.getWord_putWords (fun _ => 0)
    [fsmagic, fssize, nblocks, ninodes, nlog, 2, inodestart, bmapstart] (by decide) 0 k hk
  rw [zero_add, hv] at hword
  exact hword

theorem Holds.made (h : Holds s (fs.length + 2) (contents fs))
    (hname : ∀ f ∈ fs, f.name.length ≤ dirsiz) {din : Block} (hdin : inode din =
      rounded ((view s).dinode rootino)) :
      Made s fs
      (toDisk ((s.store rootino din).put bmapstart ((List.range s.freeblock).foldl setBit
        fun _ => 0)).sectors) ∧ ((s.store rootino din).put bmapstart
      ((List.range s.freeblock).foldl setBit fun _ => 0)).sectors 1 = superSector := by
  generalize hbuf : (List.range s.freeblock).foldl setBit (fun _ => 0) = buf
  have hroot : rootino < ninodes := by decide
  have hbmap : bmapstart = 45 := rfl
  have hone : ((s.store rootino din).put bmapstart buf).sectors 1 = superSector := by
    have hne : 1 ≠ bmapstart := by decide
    rw [put_sectors_of_ne hne, (h.sane.store hroot).super, h.super]
  refine ⟨⟨h, hname, ?_, fun b hb => ?_, fun b hb => ?_⟩, hone⟩
  · funext i
    have hview := congrFun (congrArg Disk.dinode (@view_store s rootino din hroot)) i
    simp only [toDisk, hone, getWord_superSector (k := 3) rfl, getWord_superSector (k := 6) rfl]
    rw [hdin] at hview
    refine Eq.trans ?_ hview
    change _ = if i < ninodes then _ else _
    split_ifs with hi
    · have hne : inodestart + i / ipb ≠ bmapstart := by
        rw [inodestart_eq, hbmap]
        unfold ipb
        unfold ninodes at hi
        omega
      rw [readDinode, put_sectors_of_ne hne]
      rfl
    · rfl
  · have hdiv : b / bpb = 0 := div_eq_of_lt hb
    have hmod : b % bpb = b := mod_eq_of_lt hb
    simp only [toDisk, hone, getWord_superSector (k := 7) rfl, hdiv, hmod, add_zero]
    rw [put_sectors_self, ← hbuf, bit_foldl]
  · have hne : b ≠ bmapstart := by
      rw [nmeta_eq] at hb
      omega
    have hne' : b ≠ inodestart + rootino / ipb := by
      have hlt := store_sector_lt hroot
      omega
    rw [view_data hb]
    exact (put_sectors_of_ne hne).trans (put_sectors_of_ne hne')

/-- A run of `mkfs` makes the image of its files, unless the command line is not acceptable. -/
theorem main_spec (fs : List Input) (hle : fs.length + 2 ≤ ninodes) : Yields (main fs) blank
      (fun _ img => img.sectors 1 = superSector ∧ ∃ s, Made s fs (toDisk img.sectors) ∧
        img.freeblock = s.freeblock)
      fun _ => ¬ Fits fs := by
  unfold main
  refine Yields.modifies ?_
  have hzero : Runs (wzeroes fssize) ⟨blank.sectors, 0, 1, nmeta⟩ _ := wzeroes_spec fssize rfl
  refine (Yields.of_runs hzero).bind fun _ s hs => ?_
  refine Yields.after wsect_run ?_
  have hformatted : s.put 1 superSector = formatted := by
    rw [hs]
    rfl
  rw [hformatted]
  have hkind : IType.dir = kind 1 := rfl
  rw [hkind]
  refine (Yields.of_runs (formatted_holds.ialloc one_pos (by decide))).bind fun r t ht => ?_
  obtain ⟨hr, ht⟩ := ht
  obtain rfl : r = rootino := hr
  rw [if_pos rfl]
  -- the root is empty, then it gets its two entries
  have hempty : Holds t 2 fun _ => [] :=
    ht.congr (fun j _ => by simp [update_apply]) (by decide)
  refine (hempty.rootEntry (zero_le _)
    (length_encode rootino (by decide : dot.length ≤ dirsiz))).bind fun _ u hu => ?_
  have hdot : (update (fun _ => ([] : List UInt8)) rootino
      ([] ++ Dirent.encode ⟨rootino, dot⟩) rootino).length = deSize := by
    rw [update_self, nil_append, length_encode _ (by decide)]
  refine (hu.rootEntry hdot.le (length_encode rootino (by decide : dotdot.length ≤ dirsiz))).bind
    fun _ v hv => ?_
  have hstart : Holds v (([] : List Input).length + 2) (contents []) := by
    refine hv.congr (fun j hj => ?_) (by decide)
    have hj' : j = 0 ∨ j = 1 := by omega
    obtain rfl | rfl := hj'
    · rfl
    · rfl
  refine (hstart.addFiles fs (by simp) (by simpa using hle)).bind fun _ w hw => ?_
  rw [nil_append] at hw
  obtain ⟨hw, hname⟩ := hw
  have hroot : rootino < ninodes := by decide
  obtain ⟨din, hrun, hdin⟩ := rinode_run hw.sane hroot
  have hsize : size din = ((view w).dinode rootino).size := by rw [size_eq, hdin]
  have hsizes := (hw.file rootino (by decide) (by simp [rootino])).content
  have hbound : (size din / bsize + 1) * bsize < 2 ^ 32 := by
    have hlen := length_root hname
    have hcs := hsizes.size
    rw [hsize, hcs]
    change ((contents fs 1).length / bsize + 1) * bsize < 2 ^ 32
    rw [hlen]
    unfold deSize bsize
    unfold ninodes at hle
    omega
  refine Yields.bind
    (Q := fun _ t => t = w.store rootino (setSize din ((size din / bsize + 1) * bsize)))
    (Yields.after hrun (Yields.of_runs ⟨(), _, winode_run hw.sane hroot, rfl⟩)) fun _ x hx => ?_
  subst hx
  refine Yields.reads ?_
  have hfree : w.freeblock < bpb := lt_of_le_of_lt hw.sane.le (by decide)
  have hinode : inode (setSize din ((size din / bsize + 1) * bsize)) =
      rounded ((view w).dinode rootino) := by
    rw [inode_setSize _ hbound, hsize, hdin, rounded]
  obtain ⟨hmade, hone⟩ := hw.made hname hinode
  change Yields (if w.freeblock < bpb then _ else _) _ _ _
  rw [if_pos hfree]
  exact Yields.of_runs ⟨(), _, rfl, hone, w, hmade, rfl⟩

end main

end Xv6.Mkfs
