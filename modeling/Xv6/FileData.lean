import Xv6.BlockOwner

/-!
# Truncating, reading and writing files

The specifications of `itrunc`, `readi` and `writei` over the blocks that an inode holds. Truncation
releases every position of the inode. A file is mapped when every block index below its size has a
block: reading it then changes nothing, and writing keeps it mapped on every exit of the loop, also
when the disk is full or the source cannot be read.
-/

namespace Xv6.Fs

open Ownership Function List

variable {sb : Super} {d : Disk} {dn : ℕ → Dinode} {i : ℕ} {ip : Dinode}

section truncate

variable {κ : Type*} [DecidableEq κ] {hold : κ → ℕ} {lo hi : ℕ}

/-- Freeing the blocks of distinct holders succeeds and takes exactly their blocks away. -/
theorem freeAll_spec (ks : List κ) (hks : ks.Nodup) (h : Exact hold lo hi d.used) :
    ∃ d', freeAll d (ks.map hold) = .ok d' ∧ d'.dinode = d.dinode ∧ d'.data = d.data ∧
      (∀ b < lo, d'.used b = d.used b) ∧
      Exact (fun k => if k ∈ ks then 0 else hold k) lo hi d'.used := by
  induction ks generalizing d hold with
  | nil => exact ⟨d, rfl, rfl, rfl, fun _ _ => rfl, by simpa using h⟩
  | cons k ks ih =>
    obtain ⟨hk, hks⟩ := nodup_cons.1 hks
    by_cases hzero : hold k = 0
    · obtain ⟨d', hfree, hdn, hdata, hlow, hexact⟩ := ih hks h
      have hmap : (fun l => if l ∈ k :: ks then 0 else hold l) =
          fun l => if l ∈ ks then 0 else hold l := by
        funext l
        by_cases hl : l = k
        · subst hl
          simp [hk, hzero]
        · simp [hl]
      refine ⟨d', ?_, hdn, hdata, hlow, hmap ▸ hexact⟩
      simpa only [map_cons, freeAll, if_pos hzero] using hfree
    · have hrel := h.release hzero
      obtain ⟨d', hfree, hdn, hdata, hlow, hexact⟩ :=
        ih (d := { d with used := update d.used (hold k) false }) hks hrel
      have hrest : ks.map (update hold k 0) = ks.map hold := by
        apply map_congr_left
        intro l hl
        have hne : l ≠ k := by
          rintro rfl
          exact hk hl
        exact update_of_ne hne ..
      have hmap : (fun l => if l ∈ k :: ks then 0 else hold l) =
          fun l => if l ∈ ks then 0 else update hold k 0 l := by
        funext l
        by_cases hl : l = k
        · subst hl
          simp
        · simp [hl]
      refine ⟨d', ?_, hdn, hdata, ?_, hmap ▸ hexact⟩
      · rw [hrest] at hfree
        simpa only [map_cons, freeAll, if_neg hzero, bfree, h.used_of_hold hzero,
          if_true] using hfree
      · intro b hb
        have hne : b ≠ hold k := by
          have := (h.range k hzero).1
          omega
        exact (hlow b hb).trans (update_of_ne hne ..)

end truncate

def truncKeys (i : ℕ) : List (ℕ × ℕ) :=
  (range ndirect).map (fun q => (i, q)) ++
    ((range nindirect).map (fun j => (i, ndirect + 1 + j)) ++ [(i, ndirect)])

theorem nodup_truncKeys (i : ℕ) : (truncKeys i).Nodup := by
  have hdirect : ((range ndirect).map fun q => (i, q)).Nodup :=
    nodup_range.map fun a b hab => by simpa using hab
  have hentries : ((range nindirect).map fun j => (i, ndirect + 1 + j)).Nodup :=
    nodup_range.map fun a b hab => by simpa using hab
  unfold truncKeys
  rw [nodup_append, nodup_append]
  refine ⟨hdirect, ⟨hentries, nodup_singleton _, ?_⟩, ?_⟩
  · simp only [mem_map, mem_singleton]
    rintro _ ⟨j, -, rfl⟩ _ rfl
    simp only [ne_eq, Prod.mk.injEq, true_and]
    omega
  · simp only [mem_map, mem_range, mem_append, mem_singleton]
    rintro _ ⟨q, hq, rfl⟩ _ (⟨j, -, rfl⟩ | rfl) <;>
      · simp only [ne_eq, Prod.mk.injEq, true_and]
        omega

theorem mem_truncKeys {q : ℕ} : (i, q) ∈ truncKeys i ↔ q ≤ maxfile := by
  simp only [truncKeys, mem_append, mem_map, mem_range, mem_singleton, Prod.mk.injEq,
    true_and, maxfile]
  constructor
  · rintro (⟨a, ha, rfl⟩ | ⟨j, hj, rfl⟩ | rfl) <;> simp only [ndirect, nindirect] at * <;> omega
  · intro hq
    by_cases hlt : q < ndirect
    · exact .inl ⟨q, hlt, rfl⟩
    · by_cases heq : q = ndirect
      · exact .inr (.inr heq)
      · exact .inr (.inl ⟨q - (ndirect + 1), by omega, by omega⟩)

def Dinode.truncated (ip : Dinode) : Dinode := { ip with addrs := fun _ => 0, size := 0 }

theorem addrAt_of_gt {data : ℕ → Block} {q : ℕ} (hq : maxfile < q) : addrAt data ip q = 0 := by
  have hgt : ¬ q ≤ ndirect := by simp only [maxfile] at hq; omega
  simp only [addrAt, if_neg hgt]
  exact if_neg fun hle => by omega

theorem holdings_truncated {data : ℕ → Block} (hty : ip.type ≠ .none) :
    holdings data (update dn i ip.truncated) =
      fun k => if k ∈ truncKeys i then 0 else holdings data (update dn i ip) k := by
  funext ⟨j, q⟩
  by_cases hj : j = i
  · subst hj
    have hzero : addrAt data ip.truncated q = 0 := by simp [addrAt, Dinode.truncated]
    have hty' : ip.truncated.type ≠ .none := hty
    rw [holdings_update_self hty', hzero, holdings_update_self hty]
    by_cases hq : q ≤ maxfile
    · rw [if_pos (mem_truncKeys.2 hq)]
    · rw [if_neg (fun hmem => hq (mem_truncKeys.1 hmem)), addrAt_of_gt (by omega)]
  · have hmem : (j, q) ∉ truncKeys i := by
      simp only [truncKeys, mem_append, mem_map, mem_singleton, Prod.mk.injEq]
      grind
    rw [if_neg hmem, holdings_update_of_ne hj, holdings_update_of_ne hj]

theorem map_truncKeys {data : ℕ → Block} (hty : ip.type ≠ .none) (hind : ip.addrs ndirect ≠ 0) :
    (truncKeys i).map (holdings data (update dn i ip)) = (range ndirect).map ip.addrs ++
        ((range nindirect).map (data (ip.addrs ndirect)).getWord ++ [ip.addrs ndirect]) := by
  simp only [truncKeys, map_append, map_map, map_cons, map_nil]
  congr 1
  · apply map_congr_left
    intro q hq
    have hle : q ≤ ndirect := (mem_range.1 hq).le
    simp only [Function.comp_apply, holdings_update_self hty, addrAt, if_pos hle]
  · congr 1
    · apply map_congr_left
      intro j hj
      simp only [Function.comp_apply, holdings_update_self hty]
      exact addrAt_entry hind (mem_range.1 hj)
    · simp [holdings_update_self hty, addrAt]

theorem freeAll_append (d : Disk) (xs ys : List ℕ) : freeAll d (xs ++ ys) =
      match freeAll d xs with
      | .error e => .error e
      | .ok d => freeAll d ys := by
  induction xs generalizing d with
  | nil => rfl
  | cons x xs ih =>
    simp only [cons_append, freeAll]
    split_ifs
    · exact ih d
    · cases bfree d x with
      | error e => rfl
      | ok d' => exact ih d'

theorem freeAll_data {bs : List ℕ} {d' : Disk} (h : freeAll d bs = .ok d') : d'.data = d.data := by
  induction bs generalizing d with
  | nil => cases h; rfl
  | cons b bs ih =>
    simp only [freeAll] at h
    by_cases hzero : b = 0
    · rw [if_pos hzero] at h
      exact ih h
    · rw [if_neg hzero] at h
      by_cases hused : d.used b = true
      · simp only [bfree, if_pos hused] at h
        have hrest := ih h
        exact hrest
      · simp [bfree, hused] at h

theorem freeAll_zeros {bs : List ℕ} (hbs : ∀ b ∈ bs, b = 0) : freeAll d bs = .ok d := by
  induction bs with
  | nil => rfl
  | cons b bs ih =>
    rw [freeAll, if_pos (hbs b (.head _))]
    exact ih fun c hc => hbs c (.tail _ hc)

/-- The two loops of `itrunc` free the blocks at all positions of the inode. -/
theorem freeBlocks_eq (hty : ip.type ≠ .none) : freeBlocks d ip =
      freeAll d ((truncKeys i).map (holdings d.data (update dn i ip))) := by
  by_cases hind : ip.addrs ndirect = 0
  · have hrest : ∀ b ∈ ((range nindirect).map (fun j => (i, ndirect + 1 + j)) ++
        [(i, ndirect)]).map (holdings d.data (update dn i ip)), b = 0 := by
      simp only [map_append, map_map, mem_append, mem_map, map_cons,
        map_nil, mem_singleton, Function.comp_apply, holdings_update_self hty]
      rintro b (⟨j, -, rfl⟩ | rfl)
      · exact addrAt_entry_of_zero hind j
      · simp [addrAt, hind]
    have hdirect : ((range ndirect).map fun q => (i, q)).map
        (holdings d.data (update dn i ip)) = (range ndirect).map ip.addrs := by
      rw [map_map]
      apply map_congr_left
      intro q hq
      have hle : q ≤ ndirect := (mem_range.1 hq).le
      simp only [Function.comp_apply, holdings_update_self hty, addrAt, if_pos hle]
    rw [truncKeys, map_append, freeAll_append, hdirect, freeBlocks]
    cases freeAll d ((range ndirect).map ip.addrs) with
    | error e => rfl
    | ok d₁ => simp only [if_pos hind, freeAll_zeros hrest]
  · rw [map_truncKeys hty hind, freeAll_append, freeBlocks]
    cases hfree : freeAll d ((range ndirect).map ip.addrs) with
    | error e => rfl
    | ok d₁ => simp only [if_neg hind, freeAll_data hfree]

/-- `itrunc` never frees a free block, and the inode holds nothing afterwards. -/
theorem freeBlocks_spec (h : Owned sb d (update dn i ip)) (hty : ip.type ≠ .none) :
    ∃ d', freeBlocks d ip = .ok d' ∧ d'.dinode = d.dinode ∧ d'.data = d.data ∧
      Owned sb d' (update dn i ip.truncated) := by
  obtain ⟨d', hfree, hdn, hdata, hlow, hexact⟩ :=
    freeAll_spec (truncKeys i) (nodup_truncKeys i) h.exact
  refine ⟨d', (freeBlocks_eq hty).trans hfree, hdn, hdata, ?_⟩
  constructor
  · rw [hdata, holdings_truncated hty]
    convert hexact
  · intro b hb
    rw [hlow b hb]
    exact h.reserved b hb

theorem itrunc_spec (h : Owned sb d (update dn i ip)) (hty : ip.type ≠ .none) :
    ∃ d', itrunc d i ip = .ok (d'.iupdate i ip.truncated, ip.truncated) ∧ d'.dinode = d.dinode ∧
    d'.data = d.data ∧
      Owned sb d' (update dn i ip.truncated) := by
  obtain ⟨d', hfree, hspec⟩ := freeBlocks_spec h hty
  refine ⟨d', ?_, hspec⟩
  simp only [itrunc, hfree, Dinode.truncated]

section contents

def byteAt (data : ℕ → Block) (ip : Dinode) (off : ℕ) : UInt8 :=
  data (addrAt data ip (position (off / bsize))) (off % bsize)

def MappedTo (data : ℕ → Block) (ip : Dinode) (n : ℕ) : Prop :=
  ∀ bn, bn * bsize < n → addrAt data ip (position bn) ≠ 0

variable {data : ℕ → Block} {n off : ℕ}

theorem MappedTo.lt_maxfile (h : MappedTo data ip n) {bn : ℕ} (hbn : bn * bsize < n) :
    bn < maxfile := by
  by_contra hge
  have hdirect : ¬ bn < ndirect := by simp only [maxfile] at hge; omega
  exact h bn hbn (addrAt_of_gt (by simp only [position, if_neg hdirect]; omega))

theorem MappedTo.le_maxfile (h : MappedTo data ip n) : n ≤ maxfile * bsize := by
  by_contra hlt
  have hlt' : maxfile * bsize < n := by omega
  exact absurd (h.lt_maxfile hlt') (lt_irrefl _)

theorem MappedTo.mono (h : MappedTo data ip n) {m : ℕ} (hm : m ≤ n) : MappedTo data ip m :=
  fun bn hbn => h bn (by omega)

theorem div_mul_le_of_lt (hoff : off < n) : off / bsize * bsize < n :=
  (Nat.div_mul_le_self off bsize).trans_lt hoff

theorem read_eq_bytes {m : ℕ} (hm : m ≤ bsize - off % bsize) :
    (data (addrAt data ip (position (off / bsize)))).read (off % bsize) m =
      (range m).map fun k => byteAt data ip (off + k) := by
  apply map_congr_left
  intro k hk
  have hk' : k < m := mem_range.1 hk
  have hdiv : (off + k) / bsize = off / bsize := by simp only [bsize] at *; omega
  have hmod : (off + k) % bsize = off % bsize + k := by simp only [bsize] at *; omega
  simp only [byteAt, hdiv, hmod]

theorem readLoop_spec (fuel : ℕ) (bytes : List UInt8) (hfuel : n ≤ fuel)
    (hmap : MappedTo d.data ip (off + n)) : readLoop sb fuel d ip off n bytes =
      .ok (d, ip, bytes ++ (range n).map fun k => byteAt d.data ip (off + k)) := by
  induction fuel generalizing off n bytes with
  | zero =>
    obtain rfl : n = 0 := by omega
    simp [readLoop]
  | succ fuel ih =>
    by_cases hn : n = 0
    · subst hn
      simp [readLoop]
    · have hidx : off / bsize * bsize < off + n := div_mul_le_of_lt (by omega)
      have haddr := hmap _ hidx
      have hpos : 0 < bsize - off % bsize := by simp only [bsize]; omega
      simp only [readLoop, if_neg hn, bmap_of_mapped (hmap.lt_maxfile hidx) haddr, if_neg haddr]
      generalize hm : min n (bsize - off % bsize) = m
      have hmn : m ≤ n := by omega
      have hmb : m ≤ bsize - off % bsize := by omega
      have hsum : off + m + (n - m) = off + n := by omega
      have hrest : MappedTo d.data ip (off + m + (n - m)) := by rwa [hsum]
      rw [ih _ (by omega) hrest, read_eq_bytes hmb]
      have hsplit : range n = range m ++ (range (n - m)).map (m + ·) := by
        rw [← range_add]
        congr 1
        omega
      rw [hsplit, map_append, map_map, append_assoc]
      simp only [Function.comp_def, Nat.add_assoc]

/-- Reading a mapped file returns its bytes up to the end and changes nothing. -/
theorem readi_spec (hmap : MappedTo d.data ip ip.size) (hoff : off ≤ ip.size)
    (hn : off + n < 2 ^ 32) : readi sb d ip off n =
      .ok (d, ip, (range (min n (ip.size - off))).map fun k => byteAt d.data ip (off + k)) := by
  have hok : ¬ (ip.size < off ∨ 2 ^ 32 ≤ off + n) := by omega
  simp only [readi, if_neg hok]
  by_cases hend : ip.size < off + n
  · have hmin : min n (ip.size - off) = ip.size - off := by omega
    rw [if_pos hend, hmin, readLoop_spec _ [] le_rfl (hmap.mono (by omega)), nil_append]
  · have hmin : min n (ip.size - off) = n := by omega
    rw [if_neg hend, hmin, readLoop_spec _ [] le_rfl (hmap.mono (by omega)), nil_append]

end contents

section write

/-- What writing to an inode may do: blocks in use that it does not hold keep their contents. -/
structure Writes (d : Disk) (ip : Dinode) (d' : Disk) (ip' : Dinode) : Prop where
  dinode : d'.dinode = d.dinode
  inode : ip' = { ip with addrs := ip'.addrs }
  keeps : ∀ pos, addrAt d.data ip pos ≠ 0 → addrAt d'.data ip' pos = addrAt d.data ip pos
  used : ∀ b, d.used b = true → d'.used b = true
  frame : ∀ b, d.used b = true → (∀ pos, addrAt d.data ip pos ≠ b) → d'.data b = d.data b
  fresh : ∀ pos, addrAt d'.data ip' pos = addrAt d.data ip pos ∨
    d.used (addrAt d'.data ip' pos) = false

variable {d₁ d₂ : Disk} {ip₁ ip₂ : Dinode} {off : ℕ}

theorem Grows.writes (h : Grows d ip d₁ ip₁) : Writes d ip d₁ ip₁ where
  dinode := h.dinode
  inode := h.inode
  keeps := h.keeps
  used := h.used
  frame b hb hne := by
    have hind := hne ndirect
    simp only [addrAt, le_refl, if_true] at hind
    exact h.frame b hb hind.symm
  fresh := h.fresh

theorem Writes.trans (h : Writes d ip d₁ ip₁) (h' : Writes d₁ ip₁ d₂ ip₂) : Writes d ip d₂ ip₂ where
  dinode := h'.dinode.trans h.dinode
  inode := by rw [h'.inode, h.inode]
  keeps pos hpos := by
    have hk := h.keeps pos hpos
    rw [h'.keeps pos (by rwa [hk]), hk]
  used b hb := h'.used b (h.used b hb)
  frame b hb hne := by
    have hne₁ (pos : ℕ) : addrAt d₁.data ip₁ pos ≠ b := by
      intro heq
      have hfresh := h.fresh pos
      have := hne pos
      grind
    rw [h'.frame b (h.used b hb) hne₁, h.frame b hb hne]
  fresh pos := by
    have hfresh := h.fresh pos
    have hfresh' := h'.fresh pos
    have hused := h.used (addrAt d₂.data ip₂ pos)
    grind

theorem position_ne_ndirect (bn : ℕ) : position bn ≠ ndirect := by
  unfold position
  split_ifs <;> omega

theorem position_inj {m n : ℕ} (h : position m = position n) : m = n := by
  unfold position at h
  split_ifs at h <;> omega

theorem Owned.addrAt_inj (h : Owned sb d (update dn i ip)) (hty : ip.type ≠ .none)
    {p q : ℕ} (heq : addrAt d.data ip p = addrAt d.data ip q) (hp : addrAt d.data ip p ≠ 0) :
    p = q := by
  have hkey := h.exact.inj (i, p) (i, q)
  rw [holdings_update_self hty, holdings_update_self hty] at hkey
  exact congrArg Prod.snd (hkey heq hp)

theorem Owned.used_addrAt (h : Owned sb d (update dn i ip)) (hty : ip.type ≠ .none)
    {p : ℕ} (hp : addrAt d.data ip p ≠ 0) : d.used (addrAt d.data ip p) = true := by
  have hused := h.exact.used_of_hold (k := (i, p))
  rw [holdings_update_self hty] at hused
  exact hused hp

theorem Owned.holdings_setData (h : Owned sb d (update dn i ip)) (hty : ip.type ≠ .none)
    {bn : ℕ} (hbn : addrAt d.data ip (position bn) ≠ 0) (x : Block) :
    holdings (d.setData (addrAt d.data ip (position bn)) x).data (update dn i ip) =
      holdings d.data (update dn i ip) := by
  apply Fs.holdings_setData
  intro j htyj heq
  have hj : holdings d.data (update dn i ip) (j, ndirect) = addrAt d.data ip (position bn) := by
    rw [holdings, if_neg htyj, ← heq]
    simp [addrAt]
  have hkey := h.exact.inj (j, ndirect) (i, position bn)
    (hj.trans (holdings_update_self hty _).symm) (by rwa [hj])
  exact position_ne_ndirect bn (congrArg Prod.snd hkey).symm

theorem Owned.setData (h : Owned sb d (update dn i ip)) (hty : ip.type ≠ .none)
    {bn : ℕ} (hbn : addrAt d.data ip (position bn) ≠ 0) (x : Block) :
    Owned sb (d.setData (addrAt d.data ip (position bn)) x) (update dn i ip) := by
  constructor
  · rw [h.holdings_setData hty hbn x]
    exact h.exact
  · exact h.reserved

theorem Owned.addrAt_setData (h : Owned sb d (update dn i ip)) (hty : ip.type ≠ .none)
    {bn : ℕ} (hbn : addrAt d.data ip (position bn) ≠ 0) (x : Block) (pos : ℕ) :
    addrAt (d.setData (addrAt d.data ip (position bn)) x).data ip pos = addrAt d.data ip pos := by
  have hpos := congrFun (h.holdings_setData hty hbn x) (i, pos)
  rwa [holdings_update_self hty, holdings_update_self hty] at hpos

theorem Owned.writes_setData (h : Owned sb d (update dn i ip)) (hty : ip.type ≠ .none)
    {bn : ℕ} (hbn : addrAt d.data ip (position bn) ≠ 0) (x : Block) :
    Writes d ip (d.setData (addrAt d.data ip (position bn)) x) ip where
  dinode := rfl
  inode := rfl
  keeps pos _ := h.addrAt_setData hty hbn x pos
  used _ hb := hb
  frame _ _ hne := update_of_ne (hne (position bn)).symm ..
  fresh pos := .inl (h.addrAt_setData hty hbn x pos)

/-- The bytes of other blocks of the file stay, those of this block are the ones stored. -/
theorem Owned.byteAt_setData (h : Owned sb d (update dn i ip)) (hty : ip.type ≠ .none)
    {bn : ℕ} (hbn : addrAt d.data ip (position bn) ≠ 0) (x : Block) (o : ℕ) :
    byteAt (d.setData (addrAt d.data ip (position bn)) x).data ip o =
      if o / bsize = bn then x (o % bsize) else byteAt d.data ip o := by
  simp only [byteAt, h.addrAt_setData hty hbn x]
  split_ifs with ho
  · subst ho
    simp [Disk.setData]
  · have hne : addrAt d.data ip (position (o / bsize)) ≠ addrAt d.data ip (position bn) := by
      intro heq
      exact ho (position_inj (h.addrAt_inj hty heq (by rwa [heq])))
    simp [Disk.setData, hne]

/-- Growing a file keeps the bytes that it has. -/
theorem Owned.byteAt_grows (h : Owned sb d (update dn i ip)) (hty : ip.type ≠ .none)
    (hg : Grows d ip d₁ ip₁) {o : ℕ} (ho : addrAt d.data ip (position (o / bsize)) ≠ 0) :
    byteAt d₁.data ip₁ o = byteAt d.data ip o := by
  have hne : addrAt d.data ip (position (o / bsize)) ≠ ip.addrs ndirect := by
    intro heq
    have hat : addrAt d.data ip ndirect = ip.addrs ndirect := by simp [addrAt]
    exact position_ne_ndirect _ (h.addrAt_inj hty (heq.trans hat.symm) ho)
  rw [byteAt, hg.keeps _ ho, hg.frame _ (h.used_addrAt hty ho) hne, byteAt]

theorem Block.write_apply (b : Block) (o : ℕ) (bytes : List UInt8) (k : ℕ) :
    b.write o bytes k = if o ≤ k ∧ k < o + bytes.length then bytes.getD (k - o) 0 else b k := by
  by_cases ho : o ≤ k
  · by_cases hk : k < o + bytes.length
    · have hlt : k - o < bytes.length := by omega
      simp [Block.write, ho, hk, hlt]
    · have hge : bytes.length ≤ k - o := by omega
      simp [Block.write, ho, hk, hge]
  · simp [Block.write, ho]

/-- No copy of `writei` fails after it has copied a part: the bytes that can be read end at the end
of a block of the file, or there are none, or they are enough. -/
def WholeCopies (off n avail : ℕ) : Prop := n ≤ avail ∨ avail = 0 ∨ (off + avail) % bsize = 0

theorem WholeCopies.rest {n m avail : ℕ} (h : WholeCopies off n avail) (hm : m ≤ avail) :
    WholeCopies (off + m) (n - m) (avail - m) := by
  unfold WholeCopies at *
  have hsum : off + m + (avail - m) = off + avail := by omega
  rw [hsum]
  omega

theorem WholeCopies.fault {n m avail : ℕ} (h : WholeCopies off n avail)
    (hm : m = min n (bsize - off % bsize)) (hfault : avail < m) : avail = 0 := by
  unfold WholeCopies bsize at *
  omega

/-- What the loop of `writei` has done when it stops at offset `last`. As long as no copy fails with
a part of its bytes copied, it has written nothing outside the bytes that are reported. -/
structure Written (sb : Super) (d : Disk) (ip : Dinode) (d' : Disk) (ip' : Dinode) (off : ℕ)
    (src : List UInt8) (avail last : ℕ) : Prop where
  le : off ≤ last
  last_le : last ≤ off + src.length
  mapped : MappedTo d.data ip off → MappedTo d'.data ip' last
  inside : ∀ o, off ≤ o → o < last → byteAt d'.data ip' o = src.getD (o - off) 0
  outside : ∀ o, addrAt d.data ip (position (o / bsize)) ≠ 0 → o < off ∨ off + src.length ≤ o →
    byteAt d'.data ip' o = byteAt d.data ip o
  whole : WholeCopies off src.length avail → ∀ o, addrAt d.data ip (position (o / bsize)) ≠ 0 →
    o < off ∨ last ≤ o → byteAt d'.data ip' o = byteAt d.data ip o
  adds : ∀ pos, addrAt d'.data ip' pos = addrAt d.data ip pos ∨
    ∃ bn, bn * bsize < off + src.length ∧ Needs bn pos
  short : src.length ≤ avail → last < off + src.length →
    d'.Full sb ∧ addrAt d'.data ip' (position (last / bsize)) = 0
  stops : last = off ∨ last = off + src.length ∨ last % bsize = 0
  full : MappedTo d.data ip (off + src.length) → src.length ≤ avail → last = off + src.length

variable {src : List UInt8} {d' : Disk} {ip' : Dinode}

theorem Written.refl (hnil : src.length = 0) (avail : ℕ) :
    Written sb d ip d ip off src avail off := by
  constructor
  case mapped => exact id
  case stops => exact .inl rfl
  case adds => exact fun _ => .inl rfl
  case outside => exact fun _ _ _ => rfl
  case whole => exact fun _ _ _ _ => rfl
  all_goals
    intros
    omega

/-- Nothing of the source has been stored: `bmap` or the copy failed at once. -/
theorem Written.stop {avail : ℕ} (hg : Writes d ip d₁ ip₁)
    (hbyte : ∀ o, addrAt d.data ip (position (o / bsize)) ≠ 0 →
      WholeCopies off src.length avail ∨ o < off ∨ off + src.length ≤ o →
      byteAt d₁.data ip₁ o = byteAt d.data ip o)
    (hadds : ∀ pos, addrAt d₁.data ip₁ pos = addrAt d.data ip pos ∨
      ∃ bn, bn * bsize < off + src.length ∧ Needs bn pos)
    (hshort : src.length ≤ avail → d₁.Full sb ∧ addrAt d₁.data ip₁ (position (off / bsize)) = 0)
    (hfull : MappedTo d.data ip (off + src.length) → avail < src.length) :
    Written sb d ip d₁ ip₁ off src avail off where
  le := le_rfl
  last_le := by omega
  mapped hmap bn hbn := by
    rw [hg.keeps _ (hmap bn hbn)]
    exact hmap bn hbn
  inside o ho hlt := by omega
  outside o ho hout := hbyte o ho (.inr hout)
  whole hwhole o ho _ := hbyte o ho (.inl hwhole)
  adds := hadds
  short hav _ := hshort hav
  stops := .inl rfl
  full hmap havail := absurd (hfull hmap) (by omega)

/-- The bytes of the file after one turn of the loop has stored `g` bytes of the source. -/
theorem Owned.byteAt_chunk (h : Owned sb d (update dn i ip)) (hty : ip.type ≠ .none)
    (haddr : addrAt d.data ip (position (off / bsize)) ≠ 0) {g : ℕ}
    (hg : g ≤ src.length) (hgb : g ≤ bsize - off % bsize) (o : ℕ) :
    byteAt (d.setData (addrAt d.data ip (position (off / bsize)))
        ((d.data (addrAt d.data ip (position (off / bsize)))).write (off % bsize)
          (src.take g))).data ip o =
      if off ≤ o ∧ o < off + g then src.getD (o - off) 0 else byteAt d.data ip o := by
  have hlen : (src.take g).length = g := by simp [hg]
  have ho := Nat.div_add_mod o bsize
  have hoff := Nat.div_add_mod off bsize
  have hmodlt : off % bsize < bsize := Nat.mod_lt _ (by norm_num [bsize])
  rw [h.byteAt_setData hty haddr]
  by_cases hdiv : o / bsize = off / bsize
  · rw [if_pos hdiv, Block.write_apply, hlen]
    rw [hdiv] at ho
    have hrange : off % bsize ≤ o % bsize ∧ o % bsize < off % bsize + g ↔ off ≤ o ∧
        o < off + g := by omega
    by_cases hin : off ≤ o ∧ o < off + g
    · have hsub : o % bsize - off % bsize = o - off := by omega
      have hlt : o - off < g := by omega
      rw [if_pos (hrange.2 hin), if_pos hin, hsub, getD_eq_getElem?_getD,
        getD_eq_getElem?_getD, getElem?_take_of_lt hlt]
    · rw [if_neg (fun hc => hin (hrange.1 hc)), if_neg hin, byteAt, hdiv]
  · have hout : ¬ (off ≤ o ∧ o < off + g) := by
      rintro ⟨hle, hlt⟩
      apply hdiv
      simp only [bsize] at *
      omega
    rw [if_neg hdiv, if_neg hout]

/-- The turns after the first one continue from where it stopped. -/
theorem Written.cons {avail m last : ℕ}
    (hw : Writes d ip d₁ ip₁) (hm : m ≤ src.length) (hmb : m = src.length ∨ (off + m) % bsize = 0)
    (hblock : off + m ≤ (off / bsize + 1) * bsize)
    (hnew : addrAt d₁.data ip₁ (position (off / bsize)) ≠ 0)
    (hbyte : ∀ o, addrAt d.data ip (position (o / bsize)) ≠ 0 →
      ¬ (off ≤ o ∧ o < off + m) → byteAt d₁.data ip₁ o = byteAt d.data ip o)
    (hchunk : ∀ o, off ≤ o → o < off + m → byteAt d₁.data ip₁ o = src.getD (o - off) 0)
    (hadds : ∀ pos, addrAt d₁.data ip₁ pos = addrAt d.data ip pos ∨
      ∃ bn, bn * bsize < off + src.length ∧ Needs bn pos)
    (h : Written sb d₁ ip₁ d' ip' (off + m) (src.drop m) (avail - m) last) (havail : m ≤ avail) :
    Written sb d ip d' ip' off src avail last := by
  have hle := h.le
  have hlast := h.last_le
  have hlen : off + m + (src.drop m).length = off + src.length := by
    rw [length_drop]
    omega
  rw [hlen] at hlast
  have hmap₁ {n : ℕ} (hmap : MappedTo d.data ip n) : MappedTo d₁.data ip₁ n := by
    intro bn hbn
    rw [hw.keeps _ (hmap bn hbn)]
    exact hmap bn hbn
  -- the chunk lies in one block, so the indices below its end are the old ones and this one
  have hmapm (hmap : MappedTo d.data ip off) : MappedTo d₁.data ip₁ (off + m) := by
    intro bn hbn
    by_cases hlt : bn * bsize < off
    · exact hmap₁ hmap bn hlt
    · have hbn' : bn = off / bsize := by
        simp only [bsize] at *
        omega
      rwa [hbn']
  constructor
  · omega
  · exact hlast
  · intro hmap
    exact h.mapped (hmapm hmap)
  · intro o ho holt
    by_cases hin : o < off + m
    · have hmapped : addrAt d₁.data ip₁ (position (o / bsize)) ≠ 0 := by
        have hdiv : o / bsize = off / bsize := by
          simp only [bsize] at *
          omega
        rwa [hdiv]
      rw [h.outside o hmapped (.inl hin), hchunk o ho hin]
    · rw [h.inside o (by omega) holt, getD_eq_getElem?_getD, getD_eq_getElem?_getD, getElem?_drop]
      congr 2
      omega
  · intro o hmapped hout
    have hmapped₁ : addrAt d₁.data ip₁ (position (o / bsize)) ≠ 0 := by
      rwa [hw.keeps _ hmapped]
    rw [h.outside o hmapped₁ (by omega), hbyte o hmapped (by omega)]
  · intro hwhole o hmapped hout
    have hmapped₁ : addrAt d₁.data ip₁ (position (o / bsize)) ≠ 0 := by
      rwa [hw.keeps _ hmapped]
    have hrest := hwhole.rest havail
    rw [← length_drop] at hrest
    rw [h.whole hrest o hmapped₁ (by omega), hbyte o hmapped (by omega)]
  · intro pos
    have hneed := h.adds pos
    rw [hlen] at hneed
    rcases hneed with hsame | hneed
    · rw [hsame]
      exact hadds pos
    · exact .inr hneed
  · intro hav hlt
    exact h.short (by rw [length_drop]; omega) (by omega)
  · have hstops := h.stops
    rw [hlen] at hstops
    rcases hstops with hstop | hstop | hstop
    · rcases hmb with hall | hbound
      · exact .inr (.inl (by omega))
      · exact .inr (.inr (by rwa [hstop]))
    · exact .inr (.inl hstop)
    · exact .inr (.inr hstop)
  · intro hmap hav
    have hfull := h.full (by rw [hlen]; exact hmap₁ hmap) (by rw [length_drop]; omega)
    rwa [hlen] at hfull

theorem writeLoop_spec (fuel : ℕ) (src : List UInt8) (avail : ℕ) (hfuel : src.length ≤ fuel)
    (h : Owned sb d (update dn i ip)) (hty : ip.type ≠ .none)
    (hmax : off + src.length ≤ maxfile * bsize) :
    ∃ d' ip' last, writeLoop sb fuel d ip off src avail = .ok (d', ip', last) ∧
      Owned sb d' (update dn i ip') ∧ Writes d ip d' ip' ∧
      Written sb d ip d' ip' off src avail last := by
  induction fuel generalizing d ip off src avail with
  | zero => exact ⟨d, ip, off, rfl, h, Grows.refl.writes, Written.refl (by omega) avail⟩
  | succ fuel ih =>
    by_cases hnil : src = []
    · exact ⟨d, ip, off, by simp [writeLoop, hnil], h, Grows.refl.writes,
        Written.refl (by simp [hnil]) avail⟩
    · have hpos : 0 < src.length := length_pos_iff.2 hnil
      have hidx : off / bsize * bsize < off + src.length := div_mul_le_of_lt (by omega)
      have hbn : off / bsize < maxfile := by
        apply Nat.lt_of_mul_lt_mul_right (a := bsize)
        omega
      obtain ⟨d₁, ip₁, addr, hbmap, h₁, hg₁, haddr, hneeds, hnone⟩ := bmap_exact h hty hbn
      have hty₁ : ip₁.type ≠ .none := by rw [hg₁.inode]; exact hty
      have hadds : ∀ pos, addrAt d₁.data ip₁ pos = addrAt d.data ip pos ∨
          ∃ bn, bn * bsize < off + src.length ∧ Needs bn pos := fun pos =>
        (hneeds pos).imp_right fun hneed => ⟨_, hidx, hneed⟩
      simp only [writeLoop, if_neg hnil, hbmap]
      by_cases hzero : addr = 0
      · rw [if_pos hzero]
        refine ⟨d₁, ip₁, off, rfl, h₁, hg₁.writes, Written.stop hg₁.writes
          (fun o ho _ => h.byteAt_grows hty hg₁ ho) hadds
          (fun _ => ⟨hnone hzero, haddr.symm.trans hzero⟩) fun hmap => ?_⟩
        have hold := hmap _ hidx
        rw [← hg₁.keeps _ hold, ← haddr] at hold
        exact absurd hzero hold
      · rw [if_neg hzero]
        subst haddr
        generalize hm : min src.length (bsize - off % bsize) = m
        have hmodlt : off % bsize < bsize := Nat.mod_lt _ (by norm_num [bsize])
        have hdivmod := Nat.div_add_mod off bsize
        have hms : m ≤ src.length := by omega
        have hmb : m ≤ bsize - off % bsize := by omega
        have hmpos : 0 < m := by omega
        have hgs : min m avail ≤ src.length := by omega
        have hchunk := h₁.byteAt_chunk hty₁ hzero hgs (by omega)
        have hset := h₁.addrAt_setData hty₁ hzero
          ((d₁.data (addrAt d₁.data ip₁ (position (off / bsize)))).write (off % bsize)
            (src.take (min m avail)))
        have hown := h₁.setData hty₁ hzero
          ((d₁.data (addrAt d₁.data ip₁ (position (off / bsize)))).write (off % bsize)
            (src.take (min m avail)))
        have hw := hg₁.writes.trans (h₁.writes_setData hty₁ hzero
          ((d₁.data (addrAt d₁.data ip₁ (position (off / bsize)))).write (off % bsize)
            (src.take (min m avail))))
        by_cases hfault : avail < m
        · rw [if_pos hfault]
          refine ⟨_, ip₁, off, rfl, hown, hw, Written.stop hw (fun o ho hout => ?_) (fun pos => ?_)
            (fun hav => by omega) fun _ => by omega⟩
          · have hout' : ¬ (off ≤ o ∧ o < off + min m avail) := by
              rcases hout with hwhole | hout
              · have := hwhole.fault hm.symm hfault
                omega
              · omega
            rw [hchunk o, if_neg hout', h.byteAt_grows hty hg₁ ho]
          · rw [hset pos]
            exact hadds pos
        · rw [if_neg hfault]
          have hg : min m avail = m := by omega
          rw [hg] at hchunk hown hw hset ⊢
          have hend : off + m + (src.drop m).length ≤ maxfile * bsize := by
            rw [length_drop]
            omega
          obtain ⟨d', ip', last, hloop, hown', hw', hwritten⟩ :=
            ih (src.drop m) (avail - m) (by rw [length_drop]; omega) hown hty₁ hend
          refine ⟨d', ip', last, hloop, hown', hw.trans hw', ?_⟩
          apply Written.cons hw hms ?_ ?_ ?_ ?_ ?_ ?_ hwritten (by omega)
          · simp only [bsize] at *
            omega
          · simp only [bsize] at *
            omega
          · rwa [hset]
          · intro o ho hout
            rw [hchunk o, if_neg hout, h.byteAt_grows hty hg₁ ho]
          · intro o ho holt
            rw [hchunk o, if_pos ⟨ho, holt⟩]
          · intro pos
            rw [hset pos]
            exact hadds pos

theorem holdings_size (data : ℕ → Block) (n : ℕ) :
    holdings data (update dn i { ip with size := n }) =
      holdings data (update dn i ip) := by
  funext ⟨j, q⟩
  by_cases hj : j = i
  · subst hj
    simp [holdings, addrAt]
  · rw [holdings_update_of_ne hj, holdings_update_of_ne hj]

def Dinode.grownTo (ip : Dinode) (last : ℕ) : Dinode :=
  { ip with size := if ip.size < last then last else ip.size }

theorem writei_of_loop {off last avail : ℕ}
    (hoff : off ≤ ip.size) (hend : off + src.length ≤ maxfile * bsize)
    (hloop : writeLoop sb src.length d ip off src avail = .ok (d', ip', last)) :
    writei sb d i ip off src avail =
    .ok (d'.iupdate i (ip'.grownTo last), ip'.grownTo last, (last - off : ℕ)) := by
  have hbound : maxfile * bsize < 2 ^ 32 := by norm_num [maxfile, ndirect, nindirect, bsize]
  have hfirst : ¬ (ip.size < off ∨ 2 ^ 32 ≤ off + src.length) := by omega
  have hmax : ¬ maxfile * bsize < off + src.length := by omega
  simp only [writei, if_neg hfirst, if_neg hmax, hloop, Dinode.grownTo]

theorem Written.mapped_grown {off last avail : ℕ}
    (h : Written sb d ip d' ip' off src avail last) (hw : Writes d ip d' ip') (hoff : off ≤ ip.size)
    (hmap : MappedTo d.data ip ip.size) :
    MappedTo d'.data (ip'.grownTo last) (ip'.grownTo last).size := by
  have hsize : ip'.size = ip.size := by rw [hw.inode]
  have hlast := h.mapped (hmap.mono hoff)
  intro bn hbn
  change addrAt d'.data ip' (position bn) ≠ 0
  simp only [Dinode.grownTo] at hbn
  split_ifs at hbn with hgrown
  · exact hlast bn hbn
  · rw [hsize] at hbn
    rw [hw.keeps _ (hmap bn hbn)]
    exact hmap bn hbn

theorem Owned.grownTo (h : Owned sb d (update dn i ip)) (last : ℕ) :
    Owned sb d (update dn i (ip.grownTo last)) := by
  constructor
  · rw [Dinode.grownTo, holdings_size]
    exact h.exact
  · exact h.reserved

/-- `writei` refuses and changes nothing, or it writes up to some offset and stores the inode. -/
theorem writei_spec (off : ℕ) (src : List UInt8) (avail : ℕ) (h : Owned sb d (update dn i ip))
    (hty : ip.type ≠ .none) (hmap : MappedTo d.data ip ip.size) :
    (writei sb d i ip off src avail = .ok (d, ip, -1) ∧
      (ip.size < off ∨ maxfile * bsize < off + src.length)) ∨
    ∃ d' ip' last, writei sb d i ip off src avail =
        .ok (d'.iupdate i (ip'.grownTo last), ip'.grownTo last, (last - off : ℕ)) ∧
      off ≤ ip.size ∧ Owned sb d' (update dn i (ip'.grownTo last)) ∧
      Writes d ip d' ip' ∧ Written sb d ip d' ip' off src avail last ∧
      MappedTo d'.data (ip'.grownTo last) (ip'.grownTo last).size := by
  by_cases hoff : ip.size < off
  · exact .inl ⟨by simp [writei, hoff], .inl hoff⟩
  · by_cases hmax : maxfile * bsize < off + src.length
    · exact .inl ⟨by simp [writei, hmax], .inr hmax⟩
    · right
      have hoff' : off ≤ ip.size := by omega
      have hend : off + src.length ≤ maxfile * bsize := by omega
      obtain ⟨d', ip', last, hloop, hown, hw, hwritten⟩ :=
        writeLoop_spec src.length src avail le_rfl h hty hend
      exact ⟨d', ip', last, writei_of_loop hoff' hend hloop, hoff', hown.grownTo last, hw, hwritten,
        hwritten.mapped_grown hw hoff' hmap⟩

end write

end Xv6.Fs
