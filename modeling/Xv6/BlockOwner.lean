import Xv6.Inode
import Xv6.Ownership

/-!
# The blocks that inodes hold

An inode holds blocks at positions: its direct addresses, the indirect block at `ndirect`, and the
entries of the indirect block after that. `holdings` is the map from an inode and a position to the
block there, for the inodes that are allocated, and the bitmap is exact for it in the sense of
`Ownership.Exact`. The inode that a call works on is in memory, so the statements take the inodes
as `Function.update dn i ip` and reach the disk at `iupdate`.
-/

namespace Xv6.Fs

open Ownership Function

def addrAt (data : ℕ → Block) (ip : Dinode) (pos : ℕ) : ℕ :=
  if pos ≤ ndirect then ip.addrs pos
  else if pos ≤ maxfile ∧ ip.addrs ndirect ≠ 0 then
    (data (ip.addrs ndirect)).getWord (pos - (ndirect + 1))
  else 0

def position (bn : ℕ) : ℕ := if bn < ndirect then bn else bn + 1

def holdings (data : ℕ → Block) (dn : ℕ → Dinode) (k : ℕ × ℕ) : ℕ :=
  if (dn k.1).type = .none then 0 else addrAt data (dn k.1) k.2

structure Owned (sb : Super) (d : Disk) (dn : ℕ → Dinode) : Prop where
  exact : Exact (holdings d.data dn) sb.datastart sb.size d.used
  reserved : ∀ b < sb.datastart, d.used b = true

/-- What `bmap` may do to the disk and to the inode: it adds blocks that were free. -/
structure Grows (d : Disk) (ip : Dinode) (d' : Disk) (ip' : Dinode) : Prop where
  dinode : d'.dinode = d.dinode
  inode : ip' = { ip with addrs := ip'.addrs }
  keeps : ∀ pos, addrAt d.data ip pos ≠ 0 → addrAt d'.data ip' pos = addrAt d.data ip pos
  used : ∀ b, d.used b = true → d'.used b = true
  frame : ∀ b, d.used b = true → b ≠ ip.addrs ndirect → d'.data b = d.data b
  fresh : ∀ pos, addrAt d'.data ip' pos = addrAt d.data ip pos ∨
    d.used (addrAt d'.data ip' pos) = false

variable {sb : Super} {d : Disk} {dn : ℕ → Dinode} {i : ℕ} {ip : Dinode} {data : ℕ → Block}

theorem Grows.refl : Grows d ip d ip where
  dinode := rfl
  inode := rfl
  keeps _ _ := rfl
  used _ h := h
  frame _ _ _ := rfl
  fresh _ := .inl rfl

theorem Grows.trans {d₁ d₂ : Disk} {ip₁ ip₂ : Dinode} (h : Grows d ip d₁ ip₁)
    (h' : Grows d₁ ip₁ d₂ ip₂) : Grows d ip d₂ ip₂ where
  dinode := h'.dinode.trans h.dinode
  inode := by rw [h'.inode, h.inode]
  keeps pos hpos := by
    have hk := h.keeps pos hpos
    rw [h'.keeps pos (by rwa [hk]), hk]
  used b hb := h'.used b (h.used b hb)
  frame b hb hne := by
    have hne₁ : b ≠ ip₁.addrs ndirect := by
      intro heq
      have hfresh := h.fresh ndirect
      simp only [addrAt, le_refl, if_true, ← heq] at hfresh
      grind
    rw [h'.frame b (h.used b hb) hne₁, h.frame b hb hne]
  fresh pos := by
    have hfresh := h.fresh pos
    have hfresh' := h'.fresh pos
    have hused := h.used (addrAt d₂.data ip₂ pos)
    grind

section holdings

theorem holdings_update_self (hty : ip.type ≠ .none) (pos : ℕ) :
    holdings data (update dn i ip) (i, pos) = addrAt data ip pos := by
  simp [holdings, hty]

theorem holdings_update_of_ne {j : ℕ} (hj : j ≠ i) (pos : ℕ) :
    holdings data (update dn i ip) (j, pos) = holdings data dn (j, pos) := by
  simp [holdings, hj]

/-- The contents of a block that is no indirect block do not matter. -/
theorem holdings_setData {b : ℕ} (x : Block)
    (hb : ∀ j, (dn j).type ≠ .none → (dn j).addrs ndirect ≠ b) :
    holdings (update data b x) dn = holdings data dn := by
  funext k
  simp only [holdings]
  split_ifs with hty
  · rfl
  · simp only [addrAt, update_of_ne (hb k.1 hty)]

theorem holdings_setAddr (hty : ip.type ≠ .none) {pos : ℕ} (hpos : pos < ndirect) (a : ℕ) :
    holdings data (update dn i (ip.setAddr pos a)) =
    update (holdings data (update dn i ip)) (i, pos) a := by
  funext ⟨j, q⟩
  by_cases hj : j = i
  · subst hj
    have hty' : (ip.setAddr pos a).type ≠ .none := hty
    rw [holdings_update_self hty']
    by_cases hq : q = pos
    · subst hq
      simp [addrAt, Dinode.setAddr, hpos.le]
    · rw [update_of_ne (by simp [hq]), holdings_update_self hty]
      simp [addrAt, Dinode.setAddr, hq, hpos.ne']
  · rw [update_of_ne (by simp [hj]), holdings_update_of_ne hj, holdings_update_of_ne hj]

/-- A new indirect block is zeroed, so it adds itself and no entries. -/
theorem holdings_setIndirect (hty : ip.type ≠ .none) (hind : ip.addrs ndirect = 0) {a : ℕ}
    (hzero : ∀ j, (data a).getWord j = 0) :
    holdings data (update dn i (ip.setAddr ndirect a)) =
    update (holdings data (update dn i ip)) (i, ndirect) a := by
  funext ⟨j, q⟩
  by_cases hj : j = i
  · subst hj
    have hty' : (ip.setAddr ndirect a).type ≠ .none := hty
    rw [holdings_update_self hty']
    by_cases hq : q = ndirect
    · subst hq
      simp [addrAt, Dinode.setAddr]
    · rw [update_of_ne (by simp [hq]), holdings_update_self hty]
      simp [addrAt, Dinode.setAddr, hq, hind, hzero]
  · rw [update_of_ne (by simp [hj]), holdings_update_of_ne hj, holdings_update_of_ne hj]

/-- Storing an address in the indirect block of one inode adds that entry, when no other inode has
the same indirect block. -/
theorem holdings_setWord (hty : ip.type ≠ .none) (hind : ip.addrs ndirect ≠ 0)
    (hother : ∀ j, j ≠ i → (dn j).type ≠ .none → (dn j).addrs ndirect ≠ ip.addrs ndirect)
    {j a : ℕ} (hj : j < nindirect) (ha : a < 2 ^ 32) :
    holdings (update data (ip.addrs ndirect) ((data (ip.addrs ndirect)).setWord j a))
    (update dn i ip) =
      update (holdings data (update dn i ip)) (i, ndirect + 1 + j) a := by
  funext ⟨l, q⟩
  by_cases hl : l = i
  · subst hl
    rw [holdings_update_self hty]
    by_cases hq : q = ndirect + 1 + j
    · subst hq
      have hle : ndirect + 1 + j ≤ maxfile := by simp only [maxfile]; omega
      have hgt : ¬ ndirect + 1 + j ≤ ndirect := by omega
      have hsub : ndirect + 1 + j - (ndirect + 1) = j := by omega
      simp [addrAt, hgt, hle, hind, hsub, Block.getWord_setWord_self _ _ _ ha]
    · rw [update_of_ne (by simp [hq]), holdings_update_self hty]
      simp only [addrAt]
      split_ifs with hdirect hentry
      · rfl
      · have hne : q - (ndirect + 1) ≠ j := by omega
        rw [update_self, Block.getWord_setWord_of_ne _ _ hne]
      · rfl
  · rw [update_of_ne (by simp [hl]), holdings_update_of_ne hl, holdings_update_of_ne hl]
    simp only [holdings]
    split_ifs with htyl
    · rfl
    · simp only [addrAt, update_of_ne (hother l hl htyl)]

end holdings

section balloc

def Disk.take (d : Disk) (b : ℕ) : Disk :=
  ({ d with used := update d.used b true }).setData b fun _ => 0

/-- The bits of the blocks before the data area are set, so `balloc` finds a data block or none. -/
theorem balloc_cases (hres : ∀ b < sb.datastart, d.used b = true) : balloc sb d = (d, 0) ∨
      ∃ b, sb.datastart ≤ b ∧ b < sb.size ∧ d.used b = false ∧ balloc sb d = (d.take b, b) := by
  unfold balloc
  cases hf : (List.range sb.size).find? fun b => ¬ d.used b with
  | none => exact .inl rfl
  | some b =>
    have hlt : b < sb.size := List.mem_range.1 (List.mem_of_find?_eq_some hf)
    have hfree : d.used b = false := by simpa using List.find?_some hf
    have hlo : sb.datastart ≤ b := by
      by_contra hb
      rw [hres b (by omega)] at hfree
      exact Bool.noConfusion hfree
    exact .inr ⟨b, hlo, hlt, hfree, rfl⟩

theorem getWord_zero (j : ℕ) : Block.getWord (fun _ => 0) j = 0 := by
  simp [Block.getWord]

namespace Owned

theorem addrs_ne_of_unused (h : Owned sb d dn) {b : ℕ} (hlo : sb.datastart ≤ b)
    (hb : d.used b = false) {j : ℕ} (hty : (dn j).type ≠ .none) {pos : ℕ} (hpos : pos ≤ ndirect) :
    (dn j).addrs pos ≠ b := by
  have hne := h.exact.hold_ne_of_unused hlo hb (j, pos)
  simpa [holdings, hty, addrAt, hpos] using hne

theorem holdings_take (h : Owned sb d dn) {b : ℕ} (hlo : sb.datastart ≤ b)
    (hb : d.used b = false) : holdings (d.take b).data dn = holdings d.data dn :=
  holdings_setData _ fun _ hty => h.addrs_ne_of_unused hlo hb hty le_rfl

theorem reserved_take (h : Owned sb d dn) (b : ℕ) :
    ∀ c < sb.datastart, (d.take b).used c = true := by
  intro c hc
  have := h.reserved c hc
  simp only [Disk.take, Disk.setData, update_apply]
  split_ifs
  · rfl
  · exact this

/-- The block taken goes to a position that had none, whatever the change that records it. -/
theorem take (h : Owned sb d dn) {b : ℕ} (hlo : sb.datastart ≤ b) (hhi : b < sb.size)
    (hb : d.used b = false) {k : ℕ × ℕ} (hk : holdings d.data dn k = 0) {data : ℕ → Block}
    {dn' : ℕ → Dinode}
    (hhold : holdings data dn' = update (holdings d.data dn) k b) :
    Owned sb { d.take b with data := data } dn' := by
  constructor
  · have hacq := h.exact.acquire hk hlo hhi hb
    rw [← hhold] at hacq
    exact hacq
  · exact h.reserved_take b

end Owned

end balloc

section bmap

variable {b q : ℕ} {data' : ℕ → Block} {ip' : Dinode}

/-- The inode `i` takes block `b` at position `q`: what the three allocations of `bmap` share. -/
theorem Owned.grow (h : Owned sb d (update dn i ip)) (hty : ip.type ≠ .none)
    (hlo : sb.datastart ≤ b) (hhi : b < sb.size) (hb : d.used b = false)
    (hq : addrAt d.data ip q = 0) (hinode : ip' = { ip with addrs := ip'.addrs })
    (hhold : holdings data' (update dn i ip') = update (holdings d.data (update dn i ip)) (i, q) b)
    (hframe : ∀ c, d.used c = true → c ≠ ip.addrs ndirect → data' c = d.data c) :
    Owned sb { d.take b with data := data' } (update dn i ip') ∧
    Grows d ip { d.take b with data := data' } ip' ∧
      ∀ pos, addrAt data' ip' pos = if pos = q then b else addrAt d.data ip pos := by
  have hty' : ip'.type ≠ .none := by rw [hinode]; exact hty
  have haddr (pos : ℕ) : addrAt data' ip' pos = if pos = q then b else addrAt d.data ip pos := by
    have hpos := congrFun hhold (i, pos)
    rw [holdings_update_self hty', update_apply, holdings_update_self hty] at hpos
    simpa using hpos
  have hk : holdings d.data (update dn i ip) (i, q) = 0 := by
    rw [holdings_update_self hty, hq]
  refine ⟨h.take hlo hhi hb hk hhold, ?_, haddr⟩
  constructor
  · rfl
  · exact hinode
  · intro pos hpos
    have hne : pos ≠ q := by
      intro heq
      exact hpos (heq ▸ hq)
    exact (haddr pos).trans (if_neg hne)
  · intro c hc
    simp only [Disk.take, Disk.setData, update_apply]
    split_ifs
    · rfl
    · exact hc
  · exact hframe
  · intro pos
    by_cases hpos : pos = q
    · exact .inr (by simpa only [haddr, if_pos hpos] using hb)
    · exact .inl ((haddr pos).trans (if_neg hpos))

theorem take_data_of_used (hb : d.used b = false) {c : ℕ} (hc : d.used c = true) :
    (d.take b).data c = d.data c := by
  have hne : c ≠ b := by
    rintro rfl
    rw [hb] at hc
    exact Bool.noConfusion hc
  exact update_of_ne hne ..

def Disk.Full (sb : Super) (d : Disk) : Prop := ∀ b < sb.size, d.used b = true

theorem full_of_balloc (h : balloc sb d = (d, 0)) (hres : ∀ b < sb.datastart, d.used b = true) :
    d.Full sb := by
  intro b hb
  by_contra hused
  unfold balloc at h
  cases hf : (List.range sb.size).find? fun b => ¬ d.used b with
  | none => exact absurd (List.find?_eq_none.1 hf b (List.mem_range.2 hb)) (by simpa using hused)
  | some c =>
    have hpos := sb.datastart_pos
    have hfree : d.used c = false := by simpa using List.find?_some hf
    simp only [hf, Prod.mk.injEq] at h
    rw [h.2, hres 0 hpos] at hfree
    exact Bool.noConfusion hfree

theorem loadIndirect_spec (h : Owned sb d (update dn i ip)) (hty : ip.type ≠ .none) :
    Owned sb (loadIndirect sb d ip).1 (update dn i (loadIndirect sb d ip).2) ∧
      Grows d ip (loadIndirect sb d ip).1 (loadIndirect sb d ip).2 ∧ (∀ pos, pos ≠ ndirect →
        addrAt (loadIndirect sb d ip).1.data (loadIndirect sb d ip).2 pos = addrAt d.data ip pos) ∧
      ((loadIndirect sb d ip).2.addrs ndirect = 0 → (loadIndirect sb d ip).1.Full sb) := by
  unfold loadIndirect
  by_cases hind : ip.addrs ndirect = 0
  · rw [if_pos hind]
    obtain hfull | ⟨b, hlo, hhi, hb, htake⟩ := balloc_cases h.reserved
    · simp only [hfull, if_true]
      exact ⟨h, Grows.refl, by simp, fun _ => full_of_balloc hfull h.reserved⟩
    · have hpos : b ≠ 0 := by have := sb.datastart_pos; omega
      simp only [htake, if_neg hpos]
      have hzero (j : ℕ) : ((d.take b).data b).getWord j = 0 := by
        simp [Disk.take, Disk.setData, getWord_zero]
      have hhold : holdings (d.take b).data (update dn i (ip.setAddr ndirect b)) = _ :=
        holdings_setIndirect hty hind hzero
      rw [h.holdings_take hlo hb] at hhold
      obtain ⟨hown, hgrow, haddr⟩ := h.grow hty hlo hhi hb (by simp [addrAt, hind]) rfl hhold
        (fun c hc _ => take_data_of_used hb hc)
      refine ⟨hown, hgrow, fun pos hne => (haddr pos).trans (if_neg hne), fun heq => ?_⟩
      simp only [Dinode.setAddr, update_self] at heq
      exact absurd heq hpos
  · rw [if_neg hind]
    exact ⟨h, Grows.refl, fun _ _ => rfl, fun heq => absurd heq hind⟩

theorem Owned.indirect_ne (h : Owned sb d (update dn i ip)) (hty : ip.type ≠ .none)
    (hind : ip.addrs ndirect ≠ 0) {j : ℕ} (hj : j ≠ i) (htyj : (dn j).type ≠ .none) :
    (dn j).addrs ndirect ≠ ip.addrs ndirect := by
  intro heq
  have hi : holdings d.data (update dn i ip) (i, ndirect) = ip.addrs ndirect := by
    rw [holdings_update_self hty]
    simp [addrAt]
  have hj' : holdings d.data (update dn i ip) (j, ndirect) = ip.addrs ndirect := by
    rw [holdings_update_of_ne hj]
    simpa [holdings, htyj, addrAt] using heq
  have hkey := h.exact.inj (j, ndirect) (i, ndirect) (hj'.trans hi.symm) (by rwa [hj'])
  exact hj (congrArg Prod.fst hkey)

theorem addrAt_entry (hind : ip.addrs ndirect ≠ 0) {j : ℕ} (hj : j < nindirect) :
    addrAt data ip (ndirect + 1 + j) = (data (ip.addrs ndirect)).getWord j := by
  have hle : ndirect + 1 + j ≤ maxfile := by simp only [maxfile]; omega
  have hgt : ¬ ndirect + 1 + j ≤ ndirect := by omega
  have hsub : ndirect + 1 + j - (ndirect + 1) = j := by omega
  simp [addrAt, hgt, hle, hind, hsub]

theorem addrAt_entry_of_zero (hind : ip.addrs ndirect = 0) (j : ℕ) :
    addrAt data ip (ndirect + 1 + j) = 0 := by
  have hgt : ¬ ndirect + 1 + j ≤ ndirect := by omega
  simp [addrAt, hgt, hind]

theorem position_of_le {bn : ℕ} (hbn : ¬ bn < ndirect) :
    position bn = ndirect + 1 + (bn - ndirect) := by
  simp only [position, if_neg hbn]
  omega

/-- The positions that `bmap` may fill for a block index. -/
def Needs (bn pos : ℕ) : Prop := pos = position bn ∨ pos = ndirect ∧ ndirect ≤ bn

/-- `bmap` returns for every index of a file; it may add free blocks to the inode, at the positions
of the index, and returns the block at the index, which is 0 only when the disk is full. -/
theorem bmap_exact (h : Owned sb d (update dn i ip)) (hty : ip.type ≠ .none) {bn : ℕ}
    (hbn : bn < maxfile) : ∃ d' ip' addr, bmap sb d ip bn = .ok (d', ip', addr) ∧
    Owned sb d' (update dn i ip') ∧ Grows d ip d' ip' ∧
      addr = addrAt d'.data ip' (position bn) ∧
      (∀ pos, addrAt d'.data ip' pos = addrAt d.data ip pos ∨ Needs bn pos) ∧
      (addr = 0 → d'.Full sb) := by
  unfold bmap
  by_cases hdirect : bn < ndirect
  · have hat (x : ℕ → Block) (jp : Dinode) : addrAt x jp (position bn) = jp.addrs bn := by
      simp [position, hdirect, addrAt, hdirect.le]
    rw [if_pos hdirect]
    by_cases hzero : ip.addrs bn = 0
    · rw [if_pos hzero]
      obtain hfull | ⟨b, hlo, hhi, hb, htake⟩ := balloc_cases h.reserved
      · simp only [hfull, if_true]
        exact ⟨d, ip, 0, rfl, h, Grows.refl, by rw [hat, hzero], fun _ => .inl rfl,
          fun _ => full_of_balloc hfull h.reserved⟩
      · have hpos : b ≠ 0 := by have := sb.datastart_pos; omega
        simp only [htake, if_neg hpos]
        have hhold : holdings (d.take b).data (update dn i (ip.setAddr bn b)) = _ :=
          holdings_setAddr hty hdirect b
        rw [h.holdings_take hlo hb] at hhold
        obtain ⟨hown, hgrow, haddr⟩ :=
          h.grow hty hlo hhi hb (by simp [addrAt, hdirect.le, hzero]) rfl hhold
            (fun c hc _ => take_data_of_used hb hc)
        refine ⟨d.take b, ip.setAddr bn b, b, rfl, hown, hgrow, by rw [hat]; simp [Dinode.setAddr],
          fun pos => ?_, fun heq => absurd heq hpos⟩
        by_cases hq : pos = bn
        · exact .inr (.inl (by rw [hq, position, if_pos hdirect]))
        · exact .inl ((haddr pos).trans (if_neg hq))
    · rw [if_neg hzero]
      exact ⟨d, ip, _, rfl, h, Grows.refl, (hat _ _).symm, fun _ => .inl rfl,
        fun heq => absurd heq hzero⟩
  · have hj : bn - ndirect < nindirect := by simp only [maxfile] at hbn; omega
    rw [if_neg hdirect, if_pos hj, position_of_le hdirect]
    obtain ⟨h₁, hg₁, hadd₁, hfull₁⟩ := loadIndirect_spec h hty
    -- from here on the inode has its indirect block, or there was no free block for it
    generalize loadIndirect sb d ip = r at h₁ hg₁ hadd₁ hfull₁
    obtain ⟨d₁, ip₁⟩ := r
    simp only at h₁ hg₁ hadd₁ hfull₁ ⊢
    have hadds : ∀ pos, addrAt d₁.data ip₁ pos = addrAt d.data ip pos ∨ Needs bn pos := by
      intro pos
      by_cases hq : pos = ndirect
      · exact .inr (.inr ⟨hq, not_lt.1 hdirect⟩)
      · exact .inl (hadd₁ pos hq)
    have hty₁ : ip₁.type ≠ .none := by rw [hg₁.inode]; exact hty
    by_cases hind : ip₁.addrs ndirect = 0
    · rw [if_pos hind]
      exact ⟨d₁, ip₁, 0, rfl, h₁, hg₁, (addrAt_entry_of_zero hind _).symm, hadds,
        fun _ => hfull₁ hind⟩
    · rw [if_neg hind]
      have hentry : addrAt d₁.data ip₁ (ndirect + 1 + (bn - ndirect)) = _ := addrAt_entry hind hj
      by_cases hzero : (d₁.data (ip₁.addrs ndirect)).getWord (bn - ndirect) = 0
      · rw [if_pos hzero]
        obtain hfull | ⟨b, hlo, hhi, hb, htake⟩ := balloc_cases h₁.reserved
        · simp only [hfull, if_true]
          exact ⟨d₁, ip₁, 0, rfl, h₁, hg₁, by rw [hentry, hzero], hadds,
            fun _ => full_of_balloc hfull h₁.reserved⟩
        · have hpos : b ≠ 0 := by have := sb.datastart_pos; omega
          have hsize := sb.size_lt
          simp only [htake, if_neg hpos]
          have hhold : holdings (update (d₁.take b).data (ip₁.addrs ndirect)
              (((d₁.take b).data (ip₁.addrs ndirect)).setWord (bn - ndirect) b))
              (update dn i ip₁) = _ :=
            holdings_setWord hty₁ hind (fun l hl htyl => h₁.indirect_ne hty₁ hind hl htyl) hj
              (show b < 2 ^ 32 by omega)
          rw [h₁.holdings_take hlo hb] at hhold
          obtain ⟨hown, hgrow, haddr⟩ := h₁.grow hty₁ hlo hhi hb (hentry.trans hzero) rfl hhold
            (fun c hc hne => (update_of_ne hne ..).trans (take_data_of_used hb hc))
          refine ⟨_, ip₁, b, rfl, hown, hg₁.trans hgrow, ((haddr _).trans (if_pos rfl)).symm,
            fun pos => ?_, fun heq => absurd heq hpos⟩
          by_cases hq : pos = ndirect + 1 + (bn - ndirect)
          · exact .inr (.inl (by rw [hq, position_of_le hdirect]))
          · have hsame := (haddr pos).trans (if_neg hq)
            exact (hadds pos).imp_left hsame.trans
      · rw [if_neg hzero]
        exact ⟨d₁, ip₁, _, rfl, h₁, hg₁, hentry.symm, hadds, fun heq => absurd heq hzero⟩

theorem bmap_spec (h : Owned sb d (update dn i ip)) (hty : ip.type ≠ .none) {bn : ℕ}
    (hbn : bn < maxfile) : ∃ d' ip' addr, bmap sb d ip bn = .ok (d', ip', addr) ∧
    Owned sb d' (update dn i ip') ∧ Grows d ip d' ip' ∧
      addr = addrAt d'.data ip' (position bn) := by
  obtain ⟨d', ip', addr, hrun, hown, hgrow, haddr, -⟩ := bmap_exact h hty hbn
  exact ⟨d', ip', addr, hrun, hown, hgrow, haddr⟩

theorem bmap_of_mapped {bn : ℕ} (hbn : bn < maxfile) (hmap : addrAt d.data ip (position bn) ≠ 0) :
    bmap sb d ip bn = .ok (d, ip, addrAt d.data ip (position bn)) := by
  unfold bmap
  by_cases hdirect : bn < ndirect
  · have hat : addrAt d.data ip (position bn) = ip.addrs bn := by
      simp [position, hdirect, addrAt, hdirect.le]
    rw [hat] at hmap
    rw [if_pos hdirect, if_neg hmap, hat]
  · have hj : bn - ndirect < nindirect := by simp only [maxfile] at hbn; omega
    rw [position_of_le hdirect] at hmap ⊢
    have hind : ip.addrs ndirect ≠ 0 := by
      intro hzero
      exact hmap (addrAt_entry_of_zero hzero _)
    rw [addrAt_entry hind hj] at hmap ⊢
    rw [if_neg hdirect, if_pos hj]
    simp only [loadIndirect, if_neg hind, if_neg hmap]

end bmap

end Xv6.Fs
