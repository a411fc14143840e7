import Xv6.BlockRuns
import Xv6.FileArray
import Xv6.LinkBound
import Xv6.PathWalk

/-!
# A link count that wraps

The count of an inode is a `short` and `sys_link` puts no bound on it, while two directories have
room for more than 32768 entries. Two processes, each in a directory of its own, give one file a
name after the other until its count is negative. All calls of the run succeed; the lemmas here say
so for the sections of `sys_link` when no other process is in the middle of a call and the disk is
not full. -/

namespace Xv6.Fs

open Act Threads Function List Transition

section disk

variable {sb : Super} {d : Disk} {dn : ℕ → Dinode} {i : ℕ} {ip dp : Dinode}

/-- A directory without free slots grows by the entry. -/
theorem Good.writeEntry_of_room (h : Good sb d) (hty : (d.dinode i).type ≠ .none) {m : ℕ}
    (hroom : Room sb d (d.dinode i) (deSize * (m + 1))) (hsize : (d.dinode i).size = deSize * m)
    (hlive : ∀ k < m, (slot d.data (d.dinode i) k).inum ≠ 0)
    (hmax : deSize * (m + 1) ≤ maxfile * bsize) {name : Name} (hname : name.Ok) (inum : ℕ) :
    ∃ d' ip', writeEntry sb d i (d.dinode i) name inum = .ok (d', ip', true) ∧
      Stepped sb i d d' ip' ∧ ip'.size = deSize * (m + 1) ∧ ∀ k, slot d'.data ip' k =
        if k = m then ⟨inum % 65536, name⟩ else slot d.data (d.dinode i) k := by
  rcases emptyLoop_spec sb (h.mapped i hty) with ⟨hdvd, -⟩ | ⟨k, hloop, hfree, hbefore⟩
  · exact absurd ⟨m, hsize⟩ hdvd
  · have hkm : k = m := by
      by_contra hne
      rcases Nat.lt_or_gt_of_ne hne with hlt | hgt
      · exact hlive k hlt hfree
      · apply hbefore m hgt
        rw [slot_of_gt (by rw [hsize]; simp only [deSize]; omega)]
    subst hkm
    have hlen := length_encode inum hname.length_le
    obtain ⟨d', ip', n, hwrite, hstep, hslots⟩ := h.writei_slot hty k hlen
    obtain ⟨d₁, ip₁, hrun, hwrote, -⟩ := h.files.writei_of_room hty hsize.ge
      (show deSize * k + _ ≤ _ by rw [hlen, Nat.mul_succ]) hmax hroom
    rw [hlen, hwrite] at hrun
    cases hrun
    refine ⟨d', ip', by simp only [writeEntry, hloop, hwrite, decide_true], hstep, ?_, ?_⟩
    · rw [hwrote.inode, hlen, hsize]
      simp only [deSize]
      omega
    · rw [decode_encode inum hname] at hslots
      rcases hslots with ⟨hn, -⟩ | ⟨-, hset⟩
      · exact absurd rfl hn
      · exact hset

/-- A few inodes hold far fewer blocks than the disk has. -/
theorem Good.room (h : Good superblock d) (hfew : ∀ i, (d.dinode i).type ≠ .none → i < 5)
    (ip : Dinode) (n : ℕ) :
    Room superblock d ip n := by
  have hsub : (Finset.Ico 46 2000).filter (fun b => d.used b = true) ⊆
      (Finset.range 5 ×ˢ Finset.range (maxfile + 1)).image (holdings d.data d.dinode) := by
    intro b hb
    obtain ⟨hrange, hused⟩ := Finset.mem_filter.1 hb
    obtain ⟨hlo, hhi⟩ := Finset.mem_Ico.1 hrange
    obtain ⟨⟨i, q⟩, hkey⟩ := (h.owned.exact.marked b hlo hhi).1 hused
    have hty : (d.dinode i).type ≠ .none := by
      intro hnone
      simp only [holdings, if_pos hnone] at hkey
      omega
    refine Finset.mem_image.2 ⟨(i, q), Finset.mk_mem_product ?_ ?_, hkey⟩
    · exact Finset.mem_range.2 (hfew i hty)
    · rw [Finset.mem_range, Nat.lt_succ_iff]
      by_contra hq
      simp only [holdings, if_neg hty, addrAt_of_gt (show maxfile < q by omega)] at hkey
      omega
  have hused := (Finset.card_le_card hsub).trans Finset.card_image_le
  have hall :=
    Finset.card_filter_add_card_filter_not (s := Finset.Ico 46 2000) (fun b => d.used b = true)
  rw [Nat.card_Ico] at hall
  have hkeys : (Finset.range 5 ×ˢ Finset.range (maxfile + 1)).card = 1345 := by
    rw [Finset.card_product, Finset.card_range, Finset.card_range]
    rfl
  have hmissing : (missing d ip n).card ≤ 269 :=
    (Finset.card_filter_le _ _).trans (Finset.card_range _).le
  have hfree : (Finset.Ico 46 2000).filter (fun b => ¬ d.used b = true) ⊆
      freeBlocksOf superblock d := by
    intro b hb
    simp only [Finset.mem_filter, Finset.mem_Ico, Bool.not_eq_true] at hb
    exact Finset.mem_filter.2 ⟨Finset.mem_range.2 hb.1.2, hb.2⟩
  have hcard := Finset.card_le_card hfree
  unfold Room
  omega

end disk

section actions

variable {K : ℕ → Prop} {sb : Super} {p : ℕ} {d : Disk} {w : ℕ → Proc} {R : Multiset ℕ} {i : ℕ}

theorem lookupIn_eq_some (h : Sound sb d i) (hty : (d.dinode i).type = .dir) {name : Name} {j k : ℕ}
    (hpos : j ≠ 0) (hent : slot d.data (d.dinode i) k = ⟨j, name⟩)
    (honly : ∀ m, (slot d.data (d.dinode i) m).inum ≠ 0 →
      (slot d.data (d.dinode i) m).name = name → (slot d.data (d.dinode i) m).inum = j) :
    lookupIn sb d i name = some j := by
  rcases dirlookup_spec sb name hty (h.good.mapped i h.type) with
    ⟨hno, -⟩ | ⟨m, inum, hok, hslot, hlive⟩ | ⟨-, hnone⟩
  · exact absurd (h.size hty) hno
  · have hinum := honly m (by rw [hslot]; exact hlive) (by rw [hslot])
    rw [hslot] at hinum
    rw [lookupIn, hok, ← hinum]
  · exact absurd (by rw [hent]) (hnone k (by rw [hent]; exact hpos))

theorem lookupIn_eq_none (h : Sound sb d i) (hty : (d.dinode i).type = .dir) {name : Name}
    (hfresh : ∀ m, (slot d.data (d.dinode i) m).inum ≠ 0 →
      (slot d.data (d.dinode i) m).name ≠ name) : lookupIn sb d i name = none := by
  rcases dirlookup_spec sb name hty (h.good.mapped i h.type) with
    ⟨hno, -⟩ | ⟨m, inum, -, hslot, hlive⟩ | ⟨hok, -⟩
  · exact absurd (h.size hty) hno
  · exact absurd (by rw [hslot]) (hfresh m (by rw [hslot]; exact hlive))
  · rw [lookupIn, hok]

theorem total_linkCount (hmem : i ∈ R) (hty : (d.dinode i).type = .file) :
    Total (Scene K p d w R none) (linkCount p i) fun r s =>
      r = true ∧ Scene K p (d.iupdate i (d.dinode i).incLink) w R none s := by
  refine (total_ilock hmem (by rw [hty]; decide)).then ?_
  apply Total.reading
  intro s hs
  rw [if_neg (by rw [hs.ip_eq, hty]; decide)]
  exact ((total_modifyInode _).then (total_iunlock.then (.pure fun s hs => ⟨rfl, hs⟩))) s hs

theorem total_linkEntry (hmem : i ∈ R) (h : Sound sb d i) (hty : (d.dinode i).type = .dir)
    {name : Name} {inum : ℕ} (hfresh : lookupIn sb d i name = none) {d' : Disk} {ip' : Dinode}
    (hwrite : writeEntry sb d i (d.dinode i) name inum = .ok (d', ip', true))
    (hstep : Stepped sb i d d' ip') :
    Total (Scene K p d w R none) (linkEntry sb p i name inum)
    fun r s => r = true ∧ Scene K p d' w R none s := by
  refine (total_ilock hmem h.type).then ?_
  have hlink : Total (Scene K p d w R (some i)) (dirlink sb i name inum) fun r s =>
      r = true ∧ Scene K p d' w R (some i) s := by
    refine (total_lookup h hty (fun j hj => by rw [hfresh] at hj; cases hj)).bind ?_
    rintro r s ⟨hr, hs⟩
    rw [hfresh] at hr hs
    obtain rfl := Option.map_eq_none_iff.1 hr
    exact total_onInode hwrite hstep.touches.dinode hstep.stored s hs
  refine hlink.bind ?_
  rintro _ s ⟨rfl, hs⟩
  exact (total_iunlock.then (.pure fun s hs => ⟨rfl, hs⟩)) s hs

end actions

section scenario

def Lodge (i : ℕ) : Prop := i = 2 ∨ i = 3

def linkName (j : ℕ) : Name := [UInt8.ofNat (128 + j % 128), UInt8.ofNat (128 + j / 128)]

def lodgeEnt (i : ℕ) : ℕ → Dirent
  | 0 => ⟨i, dot⟩
  | 1 => ⟨rootino, dotdot⟩
  | 2 => ⟨4, [102]⟩
  | j + 3 => ⟨4, linkName j⟩

theorem toNat_linkName {j : ℕ} (hj : j < 16384) :
    (linkName j).map UInt8.toNat = [128 + j % 128, 128 + j / 128] := by
  have hlow : (128 + j % 128) % 256 = 128 + j % 128 := by omega
  have hhigh : (128 + j / 128) % 256 = 128 + j / 128 := by omega
  simp [linkName, hlow, hhigh]

theorem linkName_inj {j k : ℕ} (hj : j < 16384) (hk : k < 16384) (h : linkName j = linkName k) :
    j = k := by
  have heq := congrArg (List.map UInt8.toNat) h
  rw [toNat_linkName hj, toNat_linkName hk] at heq
  simp only [List.cons.injEq, and_true] at heq
  omega

theorem linkName_byte {j : ℕ} (hj : j < 16384) {b : UInt8} (hb : b ∈ linkName j) :
    128 ≤ b.toNat := by
  have hmem := mem_map_of_mem (f := UInt8.toNat) hb
  rw [toNat_linkName hj] at hmem
  simp only [mem_cons, not_mem_nil, or_false] at hmem
  omega

theorem linkName_ok {j : ℕ} (hj : j < 16384) : (linkName j).Ok := by
  refine ⟨fun b hb => ?_, by simp [linkName, dirsiz]⟩
  rintro rfl
  exact absurd (linkName_byte hj hb) (by decide)

theorem parse_linkName {j : ℕ} (hj : j < 16384) :
    Path.parse (linkName j) = ⟨false, [linkName j]⟩ := by
  have hbyte {b c : UInt8} (hb : b ∈ linkName j) (hc : c.toNat < 128) : b ≠ c := by
    rintro rfl
    have := linkName_byte hj hb
    omega
  have hzero {b : UInt8} (hb : b ∈ linkName j) : b ≠ 0 := hbyte hb (by decide)
  have hslash {b : UInt8} (hb : b ∈ linkName j) : b ≠ 47 := hbyte hb (by decide)
  unfold linkName at hzero hslash ⊢
  generalize UInt8.ofNat (128 + j % 128) = b at hzero hslash ⊢
  generalize UInt8.ofNat (128 + j / 128) = c at hzero hslash ⊢
  have hb0 : b ≠ 0 := hzero (by simp)
  have hc0 : c ≠ 0 := hzero (by simp)
  have hb : b ≠ 47 := hslash (by simp)
  have hc : c ≠ 47 := hslash (by simp)
  simp [Path.parse, elems, skipelem, hb0, hc0, hb, hc, dirsiz]

structure Ready (m : ℕ → ℕ) (x : ℤ) (d : Disk) : Prop where
  good : Good superblock d
  few : ∀ i, (d.dinode i).type ≠ .none → i < 5
  dir : ∀ i, Lodge i → (d.dinode i).type = .dir
  size : ∀ i, Lodge i → (d.dinode i).size = deSize * m i
  ent : ∀ i, Lodge i → ∀ k < m i, slot d.data (d.dinode i) k = lodgeEnt i k
  file : (d.dinode 4).type = .file
  nlink : (d.dinode 4).nlink = x

variable {w : ℕ → Proc} {m : ℕ → ℕ} {x : ℤ} {d : Disk} {i : ℕ}

theorem Ready.sound (h : Ready m x d) (hi : Lodge i) : Sound superblock d i where
  good := h.good
  type := by rw [h.dir i hi]; decide
  size _ := ⟨m i, h.size i hi⟩

theorem Ready.slot_cases (h : Ready m x d) (hi : Lodge i) (k : ℕ) :
    k < m i ∧ slot d.data (d.dinode i) k = lodgeEnt i k ∨ slot d.data (d.dinode i) k = ⟨0, []⟩ := by
  by_cases hk : k < m i
  · exact .inl ⟨hk, h.ent i hi k hk⟩
  · refine .inr (slot_of_gt ?_)
    rw [h.size i hi]
    simp only [deSize]
    omega

theorem lodgeEnt_live (hi : Lodge i) (k : ℕ) : (lodgeEnt i k).inum ≠ 0 := by
  rcases k with _ | _ | _ | j
  · rcases hi with rfl | rfl <;> decide
  all_goals simp [lodgeEnt, rootino]

theorem linkName_ne {j : ℕ} (hj : j < 16384) {b : UInt8} (hb : b.toNat < 128) (bs : Name) :
    linkName j ≠ b :: bs := by
  intro heq
  have hle := linkName_byte hj (b := b) (by rw [heq]; exact mem_cons_self)
  omega

theorem Lodge.ne_file (hi : Lodge i) : i ≠ 4 := by
  rcases hi with rfl | rfl <;> decide

theorem Lodge.mem (hi : Lodge i) : i ∈ ({2, 3} : Multiset ℕ) := by
  rcases hi with rfl | rfl <;> decide

theorem Ready.count (h : Ready m x d) :
    Ready m (incShort x) (d.iupdate 4 (d.dinode 4).incLink) := by
  have hty : (d.dinode 4).type ≠ .none := by rw [h.file]; decide
  obtain ⟨hgood, htouch, -⟩ := h.good.setFields hty (nlinkOnly incShort (d.dinode 4))
  have hself : (d.iupdate 4 (d.dinode 4).incLink).dinode 4 =
      (d.dinode 4).incLink := by simp [Disk.iupdate]
  have hdir {i : ℕ} (hi : Lodge i) := htouch.dinode i hi.ne_file
  refine ⟨hgood, fun i hi => ?_, fun i hi => ?_, fun i hi => ?_, fun i hi k hk => ?_, ?_, ?_⟩
  · by_cases hi4 : i = 4
    · omega
    · exact h.few i (htouch.dinode i hi4 ▸ hi)
  · exact hdir hi ▸ h.dir i hi
  · exact hdir hi ▸ h.size i hi
  · have htyi := (h.sound hi).type
    exact (htouch.slot hi.ne_file htyi (h.good.mapped i htyi) k).trans (h.ent i hi k hk)
  · exact hself ▸ h.file
  · exact (congrArg Dinode.nlink hself).trans (congrArg incShort h.nlink)

theorem Ready.writeEntry (h : Ready m x d) (hi : Lodge i) {j : ℕ} (hm : m i = j + 3)
    (hj : j < 16384) : ∃ d' ip', writeEntry superblock d i (d.dinode i) (linkName j) 4 =
    .ok (d', ip', true) ∧
      Stepped superblock i d d' ip' ∧ Ready (update m i (m i + 1)) x d' := by
  have hty := (h.sound hi).type
  have hmax : deSize * (m i + 1) ≤ maxfile * bsize := by
    rw [hm]
    simp only [deSize, maxfile, ndirect, nindirect, bsize]
    omega
  obtain ⟨d', ip', hwrite, hstep, hsize, hslots⟩ :=
    h.good.writeEntry_of_room hty (h.good.room h.few _ _) (h.size i hi)
      (fun k hk => by rw [h.ent i hi k hk]; exact lodgeEnt_live hi k) hmax (linkName_ok hj) 4
  have hother {l : ℕ} (hl : l ≠ i) := hstep.touches.dinode l hl
  have htype : (d'.dinode i).type = (d.dinode i).type := by rw [hstep.stored, hstep.same]
  refine ⟨d', ip', hwrite, hstep, hstep.good, fun l hl => ?_, fun l hl => ?_, fun l hl => ?_,
    fun l hl k hk => ?_, ?_, ?_⟩
  · by_cases hli : l = i
    · rw [hli]
      exact h.few i hty
    · exact h.few l (hother hli ▸ hl)
  · by_cases hli : l = i
    · rw [hli, htype, h.dir i hi]
    · rw [hother hli, h.dir l hl]
  · by_cases hli : l = i
    · rw [hli, hstep.stored, hsize, update_self]
    · rw [hother hli, update_of_ne hli]
      exact h.size l hl
  · by_cases hli : l = i
    · subst hli
      rw [update_self] at hk
      rw [hstep.stored, hslots]
      split_ifs with hlast
      · rw [hlast, hm]
        rfl
      · exact h.ent l hl k (by omega)
    · rw [update_of_ne hli] at hk
      have htyl := (h.sound hl).type
      exact (hstep.touches.slot hli htyl (h.good.mapped l htyl) k).trans (h.ent l hl k hk)
  · rw [hother hi.ne_file.symm, h.file]
  · rw [hother hi.ne_file.symm, h.nlink]

theorem Ready.fresh (h : Ready m x d) (hi : Lodge i) {j : ℕ} (hm : m i = j + 3) (hj : j < 16384)
    (k : ℕ) (hk : (slot d.data (d.dinode i) k).inum ≠ 0) :
    (slot d.data (d.dinode i) k).name ≠ linkName j := by
  rcases h.slot_cases hi k with ⟨hlt, heq⟩ | heq
  · rw [heq]
    rcases k with _ | _ | _ | l
    · exact (linkName_ne hj (b := 46) (by decide) []).symm
    · exact (linkName_ne hj (b := 46) (by decide) [46]).symm
    · exact (linkName_ne hj (b := 102) (by decide) []).symm
    · intro hname
      have := linkName_inj (by omega) hj hname
      omega
  · rw [heq] at hk
    exact absurd rfl hk

theorem Ready.only (h : Ready m x d) (hi : Lodge i) (k : ℕ)
    (hk : (slot d.data (d.dinode i) k).inum ≠ 0)
    (hname : (slot d.data (d.dinode i) k).name = [102]) :
    (slot d.data (d.dinode i) k).inum = 4 := by
  rcases h.slot_cases hi k with ⟨hlt, heq⟩ | heq
  · rw [heq] at hname ⊢
    rcases k with _ | _ | _ | l
    · exact absurd hname (by simp [lodgeEnt, dot])
    · exact absurd hname (by simp [lodgeEnt, dotdot])
    · rfl
    · rfl
  · rw [heq] at hk
    exact absurd rfl hk

/-- The only inodes are those of the image, of the two directories and of the file. -/
abbrev Lodged (p : ℕ) (d : Disk) (w : ℕ → Proc) (R : Multiset ℕ) :
    State → Prop := Scene (· < 5) p d w R none

variable {p : ℕ} {R : Multiset ℕ}

theorem total_enter (hcwd : (w p).cwd = some i) :
    Total (Lodged p d w R) (enter p) fun _ => Lodged p d w R := by
  intro s hs
  refine ⟨(), s, ?_, hs⟩
  rw [enter, get_bind, if_neg (by rw [hs.procs, hcwd]; simp)]
  rfl

theorem Ready.passable (h : Ready m x d) (hi : Lodge i) (hR : {2, 3} ≤ R) :
    Passable superblock (· < 5) d R i :=
  ⟨h.sound hi, h.few i (h.sound hi).type, .inr (Multiset.mem_of_le hR hi.mem)⟩

theorem Lodge.card_le (hi : Lodge i) (hR : ∀ j ∈ R, j < 5) : (i ::ₘ R).toFinset.card ≤ ninode := by
  have hsub : (i ::ₘ R).toFinset ⊆ Finset.range 5 := by
    intro j hj
    rcases Multiset.mem_cons.1 (Multiset.mem_toFinset.1 hj) with rfl | hj
    · rcases hi with rfl | rfl <;> decide
    · exact Finset.mem_range.2 (hR j hj)
  exact (Finset.card_le_card hsub).trans (by decide)

theorem Ready.namex (h : Ready m x d) (hi : Lodge i) (hcwd : (w p).cwd = some i) (hR : {2, 3} ≤ R)
    (hlt : ∀ j ∈ R, j < 5) {parent : Bool} {name : Name} {r : ℕ}
    (hwalk : Walkable superblock (· < 5) d R parent [name] i)
    (hresult : namexOn superblock d parent [name] i = some r) :
    Ends (Lodged p d w R) (namex superblock p parent ⟨false, [name]⟩) fun r' s =>
      r' = some r ∧ Lodged p d w (r ::ₘ R) s := by
  have hhere : Path.start ⟨false, [name]⟩ i = i := rfl
  refine (ends_namex hcwd (Multiset.mem_of_le hR hi.mem) hhere (h.passable hi hR) (hi.card_le hlt)
    hwalk).mono ?_
  rintro _ s ⟨rfl, hs⟩
  rw [show namexOn superblock d parent (Path.mk false [name]).names i = _ from hresult] at hs
  exact ⟨hresult, hs⟩

theorem Ready.namei (h : Ready m x d) (hi : Lodge i) (hm : 3 ≤ m i) (hx : x ≠ 0)
    (hcwd : (w p).cwd = some i) :
    Ends (Lodged p d w {2, 3}) (namei superblock p ⟨false, [[102]]⟩) fun r s =>
      r = some 4 ∧ Lodged p d w {4, 2, 3} s := by
  have hlookup :=
    lookupIn_eq_some (h.sound hi) (h.dir i hi) (by decide) (h.ent i hi 2 hm) (h.only hi)
  have hstep : walkOn superblock d false true i [102] = .next 4 := by
    simp [walkOn, h.dir i hi, hlookup]
  have hfile : Passable superblock (· < 5) d {2, 3} 4 :=
    ⟨⟨h.good, by rw [h.file]; decide, fun hdir => by rw [h.file] at hdir; cases hdir⟩, by decide,
      .inl (by rwa [h.nlink])⟩
  refine h.namex hi hcwd le_rfl (by decide) (fun j hj => ?_)
    (by simp only [namexOn, isEmpty_nil, hstep]; rfl)
  cases hstep.symm.trans hj
  refine ⟨hfile, ?_, trivial⟩
  rw [Multiset.cons_swap]
  exact hi.card_le (by decide)

theorem Ready.nameiparent (h : Ready m x d) (hi : Lodge i) (hcwd : (w p).cwd = some i)
    (name : Name) :
    Ends (Lodged p d w {4, 2, 3}) (nameiparent superblock p ⟨false, [name]⟩) fun r s =>
      r = some i ∧ Lodged p d w (i ::ₘ {4, 2, 3}) s := by
  have hstep : walkOn superblock d true true i name = .stop := by simp [walkOn, h.dir i hi]
  refine h.namex hi hcwd (by decide) (by decide) (fun j hj => ?_)
    (by simp only [namexOn, isEmpty_nil, hstep])
  cases hstep.symm.trans hj

theorem Ready.link (h : Ready m x d) (hi : Lodge i) {j : ℕ} (hm : m i = j + 3) (hj : j < 16384)
    (hx : x ≠ 0) (hx' : incShort x ≠ 0) (hcwd : (w p).cwd = some i) :
    ∃ d', Ready (update m i (m i + 1)) (incShort x) d' ∧
      Ends (Lodged p d w {2, 3}) (call superblock p (.link [102] (linkName j)))
      fun _ => Lodged p d' w {2, 3} := by
  have hc := h.count
  obtain ⟨d', ip', hwrite, hstep, hr⟩ := hc.writeEntry hi hm hj
  refine ⟨d', hr, (total_enter hcwd).ends.bind fun _ => ?_⟩
  have hlink : Ends (Lodged p d w {2, 3})
      (sysLink superblock p ⟨false, [[102]]⟩ ⟨false, [linkName j]⟩) fun _ =>
      Lodged p d' w {2, 3} := by
    refine (h.namei hi (by omega) hx hcwd).bind ?_
    rintro _ s ⟨rfl, hs⟩
    refine ((total_linkCount (Multiset.mem_cons_self 4 _) h.file).ends.bind ?_) s hs
    rintro _ s ⟨rfl, hs⟩
    refine ((hc.nameiparent hi hcwd (linkName j)).bind ?_) s hs
    rintro _ s ⟨rfl, hs⟩
    refine ((total_linkEntry (Multiset.mem_cons_self i _) (hc.sound hi) (hc.dir i hi)
      (lookupIn_eq_none (hc.sound hi) (hc.dir i hi) (hc.fresh hi hm hj)) hwrite
      hstep).ends.bind ?_) s hs
    rintro _ s ⟨rfl, hs⟩
    refine ((ends_put (.inr (Multiset.mem_cons_of_mem hi.mem))).bind fun _ => ?_) s hs
    exact (ends_put (.inl (by rwa [hr.nlink]))).bind fun _ => .pure fun s hs => hs
  have hsys : Ends (Lodged p d w {2, 3}) (syscall superblock p (.link [102] (linkName j))) fun _ =>
      Lodged p d' w {2, 3} := by
    have hold : Path.parse [102] = ⟨false, [[102]]⟩ := rfl
    simpa only [syscall, parse_linkName hj, hold] using hlink
  exact hsys.bind fun _ => .pure fun s hs => hs

theorem Lodged.anyone {q : ℕ} {s : State} (h : Lodged p d w R s) : Lodged q d w R s :=
  ⟨h.disk, h.procs, h.inside, h.ref, h.active, by simpa using h.lock, h.copy, h.valid⟩

theorem incShort_bmod (y : ℕ) : incShort (Int.bmod y 65536) = Int.bmod ((y + 1 : ℕ) : ℤ) 65536 := by
  rw [incShort, Int.bmod_add_bmod, Nat.cast_succ]

/-- Process `p` gives the file another `c` names in its directory. -/
theorem Ready.links (hi : Lodge i) (hcwd : (w p).cwd = some i)
    {code : ℕ → Code Unit} (hcode : code p = .ret ()) (c : ℕ) {m : ℕ → ℕ} {y : ℕ} {d : Disk}
    {s : State} (h : Ready m (Int.bmod y 65536) d) (hs : Lodged p d w {2, 3} s)
    (hm : 3 ≤ m i) (hroom : m i + c ≤ 16387) (hpos : 0 < y) (hy : y + c < 65536) :
    ∃ ms d' t, run (step (call superblock)) ⟨s, code, none⟩ ms = some ⟨t, code, none⟩ ∧
      Lodged p d' w {2, 3} t ∧
      Ready (update m i (m i + c)) (Int.bmod ((y + c : ℕ) : ℤ) 65536) d' := by
  induction c generalizing m y d s with
  | zero => exact ⟨[], d, s, rfl, hs, by simpa using h⟩
  | succ c ih =>
    have hx {y : ℕ} (hpos : 0 < y) (hy : y < 65536) : Int.bmod y 65536 ≠ 0 := by
      rw [Int.bmod_def]
      split_ifs <;> omega
    obtain ⟨d₁, h₁, hends⟩ := h.link hi (j := m i - 3) (by omega) (by omega) (hx hpos (by omega))
      (by rw [incShort_bmod]; exact hx (by omega) (by omega)) hcwd
    obtain ⟨_, s₁, n, hdo, hs₁⟩ := hends s hs
    have hself : update m i (m i + 1) i = m i + 1 := update_self ..
    rw [incShort_bmod] at h₁
    obtain ⟨ms, d', t, hrun, ht, hr⟩ := ih h₁ hs₁ (by omega) (by omega) (by omega) (by omega)
    refine ⟨Move.whole p (.link [102] (linkName (m i - 3))) n ++ ms, d', t, ?_, ht, ?_⟩
    · rw [run_append, hdo.run hcode]
      exact hrun
    · rw [hself, update_idem] at hr
      have hsum : m i + 1 + c = m i + (c + 1) := by omega
      have hsum' : y + 1 + c = y + (c + 1) := by omega
      rwa [hsum, hsum'] at hr

def moveIn : List (Move Call) :=
  Move.whole 0 (.mkdir [47, 97]) 7 ++ Move.whole 0 (.mkdir [47, 98]) 7 ++
    Move.whole 0 (.open [47, 97, 47, 102] 0x200) 8 ++ Move.whole 0 (.close 0) 3 ++
    Move.whole 0 (.link [47, 97, 47, 102] [47, 98, 47, 102]) 14 ++
    Move.whole 0 (.chdir [47, 97]) 8 ++ Move.whole 1 (.chdir [47, 98]) 8

def MovedIn (t : Pool State Panic) : Prop :=
  t.failed = none ∧ (t.code 0).ended = true ∧ (t.code 1).ended = true ∧
    (t.shared.procs 0).cwd = some 2 ∧ (t.shared.procs 1).cwd = some 3 ∧ t.shared.active = 2 ∧
    (∀ i < 5, (t.shared.itable i).ref = ({2, 3} : Multiset ℕ).count i ∧
      (t.shared.itable i).lock = none) ∧
    (∀ i < 200, (t.shared.disk.dinode i).type ≠ .none → i < 5) ∧
    (∀ i < 4, 2 ≤ i → (t.shared.disk.dinode i).type = .dir ∧ (t.shared.disk.dinode i).size = 48 ∧
      ∀ k < 3, slot t.shared.disk.data (t.shared.disk.dinode i) k = lodgeEnt i k) ∧
    (t.shared.disk.dinode 4).type = .file ∧ (t.shared.disk.dinode 4).nlink = 2

instance (t : Pool State Panic) : Decidable (MovedIn t) :=
  inferInstanceAs (Decidable (_ ∧ _ ∧ _ ∧ _ ∧ _ ∧ _ ∧ _ ∧ _ ∧ _ ∧ _ ∧ _))

theorem movedIn : ∃ t, run (step (call superblock)) (.quiet (boot image 2)) moveIn = some t ∧
    MovedIn t := by
  have hrun : (run (step (call superblock)) (.quiet (boot image 2)) moveIn).elim false
      (fun t => decide (MovedIn t)) = true := by decide +kernel
  obtain ⟨t, ht, hd⟩ := exists_of_elim hrun
  exact ⟨t, ht, of_decide_eq_true hd⟩

def Inside (sb : Super) (a : Sys) : Prop := ∀ i, a.view.type i ≠ .none → i < sb.ninodes

theorem insideRules (sb : Super) (n : ℕ) : Rules sb n (Inside sb) anyStep anyStep Freeing where
  step _ _ hin _ _ hstep _ := ⟨trivial, fun _ hi => hstep.inside hin hi⟩
  minor _ he := he.not_freeing
  noType _ _ _ _ _ hbad := by cases hbad
  noLink _ _ _ _ _ hbad := by cases hbad

theorem MovedIn.ready {t : Pool State Panic} (h : MovedIn t)
    (hrun : run (step (call superblock)) (.quiet (boot image 2)) moveIn = some t) :
    Ready (fun _ => 3) (Int.bmod (2 : ℕ) 65536) t.shared.disk ∧
      Lodged 0 t.shared.disk t.shared.procs {2, 3} t.shared := by
  obtain ⟨-, -, -, -, -, hactive, htab, hfew, hdirs, hfile, hlink⟩ := h
  obtain ⟨-, G, ⟨hbase, -, hin⟩, -⟩ :=
    (PoolInv.quiet ((boot_rest image 2).inv image_good image_fresh.inside)).run (fun _ => trivial)
      (insideRules superblock 2).safe_call
    (.mono (fun _ _ _ => fun _ _ => trivial) (along_true _ moveIn)) hrun
  have hdir {i : ℕ} (hi : Lodge i) := hdirs i (by rcases hi with rfl | rfl <;> decide)
    (by rcases hi with rfl | rfl <;> decide)
  constructor
  · refine ⟨hbase.good, fun i hi => hfew i (hin i hi) hi, fun i hi => (hdir hi).1,
      fun i hi => (hdir hi).2.1, fun i hi => (hdir hi).2.2, hfile, hlink⟩
  · refine ⟨rfl, rfl, by decide, fun i hi => (htab i hi).1, hactive, fun i hi => (htab i hi).2,
      fun i _ hpos hv => (hbase.coherent i (by omega) hv).1, fun i hi => by cases hi⟩

end scenario

end Xv6.Fs
