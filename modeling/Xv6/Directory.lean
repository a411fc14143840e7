import Xv6.FileArray
import Xv6.SlotTable
import Xv6.Transition

/-!
# Directories as finite maps

`dirlookup`, `dirlink` and the write by which `sys_unlink` clears an entry, on a directory whose
names are bytes in memory: a name is a pointer, of which `strncmp` and `strncpy` look at no more
than `DIRSIZ` bytes, and an entry of exactly that many bytes has no NUL. The functions are shown to
be those of names that have been cut before, and the directory to be a finite map from such names to
inode numbers, after any number of entries have been made and cleared. What `dirlink` does with the
inode of a name that it finds is not part of the directory.
-/

namespace Xv6.Fs

open Function Transition List

section strings

/-- `strncmp`; a pointer is given by the bytes from it on. -/
def strncmp : ℕ → (ℕ → UInt8) → (ℕ → UInt8) → ℤ
  | 0, _, _ => 0
  | n + 1, p, q =>
    if p 0 ≠ 0 ∧ p 0 = q 0 then strncmp n (fun k => p (k + 1)) fun k => q (k + 1)
    else (p 0).toNat - (q 0).toNat

def strncpy : ℕ → (ℕ → UInt8) → List UInt8
  | 0, _ => []
  | n + 1, t => if t 0 = 0 then List.replicate (n + 1) 0 else t 0 :: strncpy n fun k => t (k + 1)

def namecmp (s t : ℕ → UInt8) : ℤ := strncmp dirsiz s t

/-- The first `n` bytes, or those before the first NUL. -/
def cut (n : ℕ) (p : ℕ → UInt8) : List UInt8 := ((List.range n).map p).takeWhile (· ≠ 0)

def key (name : ℕ → UInt8) : Name := cut dirsiz name

theorem cut_succ (n : ℕ) (p : ℕ → UInt8) :
    cut (n + 1) p = if p 0 = 0 then [] else p 0 :: cut n fun k => p (k + 1) := by
  rw [cut, range_succ_eq_map, map_cons, map_map, takeWhile_cons]
  by_cases hp : p 0 = 0
  · simp [hp]
  · simp only [hp, ne_eq, not_false_eq_true, decide_true, if_true, if_false]
    rfl

theorem strncmp_eq_zero_iff (n : ℕ) (p q : ℕ → UInt8) : strncmp n p q = 0 ↔ cut n p = cut n q := by
  induction n generalizing p q with
  | zero => simp [strncmp, cut]
  | succ n ih =>
    rw [strncmp, cut_succ, cut_succ]
    have hbyte : ((p 0).toNat : ℤ) - (q 0).toNat = 0 ↔ p 0 = q 0 := by
      rw [← UInt8.toNat_inj]
      omega
    by_cases hp : p 0 = 0
    · rw [if_neg (fun h => h.1 hp), hbyte, if_pos hp, hp]
      by_cases hq : q 0 = 0
      · rw [if_pos hq, hq]
        exact iff_of_true rfl rfl
      · rw [if_neg hq]
        exact iff_of_false (Ne.symm hq) (by simp)
    · by_cases heq : p 0 = q 0
      · rw [if_pos ⟨hp, heq⟩, ih, if_neg hp, if_neg (heq ▸ hp), heq, cons_inj_right]
      · rw [if_neg (fun h => heq h.2), hbyte, if_neg hp]
        split_ifs <;> simp [heq]

theorem length_cut (n : ℕ) (p : ℕ → UInt8) : (cut n p).length ≤ n := by
  refine (takeWhile_sublist _).length_le.trans ?_
  simp

theorem key_ok (name : ℕ → UInt8) : (key name).Ok where
  nonzero b hb := by simpa using mem_takeWhile_imp hb
  length_le := length_cut _ _

theorem strncpy_eq (n : ℕ) (t : ℕ → UInt8) :
    strncpy n t = cut n t ++ List.replicate (n - (cut n t).length) 0 := by
  induction n generalizing t with
  | zero => rfl
  | succ n ih =>
    rw [strncpy, cut_succ]
    by_cases ht : t 0 = 0
    · simp [ht]
    · simp [ht, ih]

end strings

/-- A free entry binds nothing. -/
def Dirent.binding (e : Dirent) : Option (Name × ℕ) :=
    if e.inum = 0 then none else some (e.name, e.inum)

structure Dir where
  disk : Disk
  dp : Dinode

namespace Dir

section code

variable (sb : Super) (dnum : ℕ)

/-- The loop of `dirlookup`; the name of an entry follows its number. -/
def lookupLoop (name : ℕ → UInt8) : ℕ → Dir → ℕ → Except Panic (Dir × Option (ℕ × ℕ))
  | 0, s, _ => .ok (s, none)
  | k + 1, s, off =>
    match readi sb s.disk s.dp off deSize with
    | .error e => .error e
    | .ok (d, dp, de) =>
      if de.length ≠ deSize then .error .dirlookupRead
      else
        let inum := (de.getD 0 0).toNat + 256 * (de.getD 1 0).toNat
        if inum ≠ 0 ∧ namecmp name (fun j => de.getD (2 + j) 0) =
          0 then .ok (⟨d, dp⟩, some (off, inum))
        else lookupLoop name k ⟨d, dp⟩ (off + deSize)

/-- `dirlookup` up to its `iget`. -/
def dirlookup (s : Dir) (name : ℕ → UInt8) : Except Panic (Dir × Option (ℕ × ℕ)) :=
  if s.dp.type ≠ .dir then .error .dirlookupNotDir
  else lookupLoop sb name (slots s.dp.size 0) s 0

def dirlink (s : Dir) (name : ℕ → UInt8) (inum : ℕ) : Except Panic (Dir × ℤ) :=
  match dirlookup sb s name with
  | .error e => .error e
  | .ok (s, some _) => .ok (s, -1)
  | .ok (s, none) =>
    match emptyLoop sb (slots s.dp.size 0) s.disk s.dp 0 with
    | .error e => .error e
    | .ok (d, dp, off) =>
      match writei sb d dnum dp off
        (UInt8.ofNat inum :: UInt8.ofNat (inum / 256) :: strncpy dirsiz name) deSize with
      | .error e => .error e
      | .ok (d, dp, n) => .ok (⟨d, dp⟩, if n = deSize then 0 else -1)

/-- The write of zeros at the offset that `sys_unlink` has from `dirlookup`. -/
def clear (s : Dir) (off : ℕ) : Except Panic Dir :=
  match writei sb s.disk dnum s.dp off (List.replicate deSize 0) deSize with
  | .error e => .error e
  | .ok (d, dp, n) => if n = deSize then .ok ⟨d, dp⟩ else .error .unlinkWritei

inductive Edit
  | dirlink (name : ℕ → UInt8) (inum : ℕ)
  | clear (name : ℕ → UInt8)

def step (s : Dir) : Edit → Option Dir
  | .dirlink name inum => (dirlink sb dnum s name inum).toOption.map Prod.fst
  | .clear name =>
    match dirlookup sb s name with
    | .ok (s, some (off, _)) => (clear sb dnum s off).toOption
    | _ => none

end code

section cutNames

variable {sb : Super} {dnum : ℕ} {s : Dir}

theorem key_entry {de : List UInt8} (hlen : de.length = deSize) :
    key (fun j => de.getD (2 + j) 0) = (Dirent.decode de).name := by
  have hdrop : (List.range dirsiz).map (fun j => de.getD (2 + j) 0) = de.drop 2 := by
    apply ext_getElem
    · simp [hlen, deSize, dirsiz]
    · intro j hj hj'
      simp only [length_drop] at hj'
      simp [getD_eq_getElem?_getD, List.getElem?_eq_getElem (show 2 + j < de.length by omega)]
  rw [key, cut, hdrop]
  rfl

theorem lookupLoop_eq (name : ℕ → UInt8) (k off : ℕ) : lookupLoop sb name k s off =
    (dirlookupLoop sb (key name) k s.disk s.dp off).map fun r => (⟨r.1, r.2.1⟩, r.2.2) := by
  induction k generalizing s off with
  | zero => rfl
  | succ k ih =>
    rw [lookupLoop, dirlookupLoop]
    cases readi sb s.disk s.dp off deSize with
    | error e => rfl
    | ok r =>
      obtain ⟨d, dp, de⟩ := r
      dsimp only
      by_cases hlen : de.length = deSize
      · have hname : namecmp name (fun j => de.getD (2 + j) 0) = 0 ↔
            (Dirent.decode de).name = key name := by
          rw [namecmp, strncmp_eq_zero_iff, ← key_entry hlen, eq_comm]
          rfl
        rw [if_neg (not_not.2 hlen), if_neg (not_not.2 hlen)]
        have hinum : (de.getD 0 0).toNat + 256 * (de.getD 1 0).toNat = (Dirent.decode de).inum :=
          rfl
        simp only [hname, hinum]
        split_ifs
        · rfl
        · exact ih _
      · rw [if_pos hlen, if_pos hlen]
        rfl

theorem dirlookup_eq (name : ℕ → UInt8) : dirlookup sb s name =
    (Fs.dirlookup sb s.disk s.dp (key name)).map fun r => (⟨r.1, r.2.1⟩, r.2.2) := by
  rw [dirlookup, Fs.dirlookup]
  split_ifs
  · rfl
  · exact lookupLoop_eq name _ 0

theorem encode_key (name : ℕ → UInt8) (inum : ℕ) :
    UInt8.ofNat inum :: UInt8.ofNat (inum / 256) :: strncpy dirsiz name =
    Dirent.encode ⟨inum, key name⟩ := by
  rw [strncpy_eq]
  rfl

end cutNames

section map

variable (sb : Super) (dnum : ℕ) (s : Dir)

def entry (k : ℕ) : Dirent := slot s.disk.data s.dp k

def nameAt (k : ℕ) : ℕ → UInt8 := fun j => (slotBytes s.disk.data s.dp k).getD (2 + j) 0

def table (k : ℕ) : Option (Name × ℕ) := (s.entry k).binding

/-- The map that the directory stands for. -/
def bindings : Set (Name × ℕ) := SlotTable.bindings s.table

def Bound (name : ℕ → UInt8) : Prop := ∃ inum, (key name, inum) ∈ s.bindings

/-- No slot is free, and the directory cannot grow by one: it has its maximum size, or there are
fewer free blocks than that takes. -/
def NoRoom : Prop :=
  (∀ k, deSize * (k + 1) ≤ s.dp.size → s.table k ≠ none) ∧
    (s.dp.size = maxfile * bsize ∨ ¬ Room sb s.disk s.dp (s.dp.size + deSize))

structure IsMap : Prop where
  size : deSize ∣ s.dp.size
  distinct : ∀ k m, s.table k ≠ none → s.table m ≠ none →
    namecmp (s.nameAt k) (s.nameAt m) = 0 → k = m
  finite : s.bindings.Finite
  eq_of_mem : ∀ name a b, (name, a) ∈ s.bindings → (name, b) ∈ s.bindings → a = b

/-- `dirlookup` returns what the name is bound to, if it is, and where the entry is. -/
def LooksUp (name : ℕ → UInt8) : Prop :=
  ∃ r, dirlookup sb s name = .ok (s, r) ∧
    (∀ inum, r.map Prod.snd = some inum ↔ (key name, inum) ∈ s.bindings) ∧
      ∀ off inum, r = some (off, inum) → ∃ k, off = deSize * k ∧ s.table k = some (key name, inum)

/-- `dirlink` fails and changes no binding if the name is bound or there is no room, and adds the
binding in the first free slot otherwise. -/
structure Links (name : ℕ → UInt8) (inum : ℕ) : Prop where
  refused : s.Bound name ∨ s.NoRoom sb → ∃ t, dirlink sb dnum s name inum = .ok (t, -1) ∧
    t.bindings = s.bindings
  added : ¬ s.Bound name → ¬ s.NoRoom sb →
    ∃ t k, dirlink sb dnum s name inum = .ok (t, 0) ∧
    t.bindings = insert (key name, inum) s.bindings ∧
      s.table k = none ∧ (∀ m < k, s.table m ≠ none) ∧
      t.table = update s.table k (some (key name, inum))

def Clears (name : ℕ → UInt8) : Prop :=
  ∀ off inum, dirlookup sb s name = .ok (s, some (off, inum)) →
    ∃ t, clear sb dnum s off = .ok t ∧ t.bindings = s.bindings \ {(key name, inum)}

structure Inv : Prop where
  good : Good sb s.disk
  stored : s.disk.dinode dnum = s.dp
  dir : s.dp.type = .dir
  size : deSize ∣ s.dp.size
  distinct : SlotTable.Distinct s.table

end map

section laws

variable {sb : Super} {dnum : ℕ} {s : Dir} {k : ℕ}

theorem table_of_gt (hk : s.dp.size < deSize * (k + 1)) : s.table k = none := by
  rw [table, entry, slot_of_gt hk]
  rfl

theorem entry_of_table {b : Name × ℕ} (hk : s.table k = some b) :
    s.entry k = ⟨b.2, b.1⟩ ∧ b.2 ≠ 0 := by
  rw [table, Dirent.binding] at hk
  split_ifs at hk with hfree
  cases hk
  exact ⟨rfl, hfree⟩

theorem table_eq_none : s.table k = none ↔ (s.entry k).inum = 0 := by
  rw [table, Dirent.binding]
  split_ifs with hfree <;> simp [hfree]

theorem table_of_slots {t : Dir} {x : Dirent}
    (h : ∀ m, slot t.disk.data t.dp m = if m = k then x else slot s.disk.data s.dp m) :
    t.table = update s.table k x.binding := by
  funext m
  rw [table, entry, h m, update_apply]
  split_ifs <;> rfl

theorem Inv.ty (h : s.Inv sb dnum) : (s.disk.dinode dnum).type ≠ .none := by
  rw [h.stored, h.dir]
  decide

theorem Inv.mapped (h : s.Inv sb dnum) : MappedTo s.disk.data s.dp s.dp.size := by
  have hmap := h.good.mapped dnum h.ty
  rwa [h.stored] at hmap

theorem Inv.after (h : s.Inv sb dnum) {d : Disk} {dp : Dinode} (hstep : Stepped sb dnum s.disk d dp)
    (hsize : deSize ∣ dp.size) (hdist : SlotTable.Distinct (Dir.mk d dp).table) :
    (Dir.mk d dp).Inv sb dnum where
  good := hstep.good
  stored := hstep.stored
  dir := by
    rw [hstep.same, h.stored]
    exact h.dir
  size := hsize
  distinct := hdist

theorem Inv.lookup (h : s.Inv sb dnum) (name : ℕ → UInt8) :
    (∃ k inum, dirlookup sb s name = .ok (s, some (deSize * k, inum)) ∧
      s.table k = some (key name, inum)) ∨
    dirlookup sb s name = .ok (s, none) ∧ ¬ s.Bound name := by
  rw [dirlookup_eq]
  rcases dirlookup_spec sb (key name) h.dir
    h.mapped with ⟨hdvd, -⟩ | ⟨k, inum, hrun, hslot, hinum⟩ | ⟨hrun, hnone⟩
  · exact absurd h.size hdvd
  · refine .inl ⟨k, inum, by rw [hrun]; rfl, ?_⟩
    rw [table, entry, hslot, Dirent.binding, if_neg hinum]
  · refine .inr ⟨by rw [hrun]; rfl, ?_⟩
    rintro ⟨inum, k, hk⟩
    obtain ⟨hentry, hinum⟩ := entry_of_table hk
    exact hnone k (by rw [← entry, hentry]; exact hinum) (by rw [← entry, hentry])

theorem Inv.looksUp (h : s.Inv sb dnum) (name : ℕ → UInt8) : s.LooksUp sb name := by
  rcases h.lookup name with ⟨k, inum, hrun, hk⟩ | ⟨hrun, hnone⟩
  · refine ⟨_, hrun, fun a => ⟨?_, fun ha => ?_⟩, ?_⟩
    · rintro ⟨⟩
      exact ⟨k, hk⟩
    · rw [h.distinct.eq_of_mem ha ⟨k, hk⟩]
      rfl
    · rintro off a ⟨⟩
      exact ⟨k, rfl, hk⟩
  · refine ⟨_, hrun, fun a => ⟨nofun, fun ha => absurd ⟨a, ha⟩ hnone⟩, nofun⟩

theorem Inv.isMap (h : s.Inv sb dnum) : s.IsMap where
  size := h.size
  distinct k m hk hm heq := by
    obtain ⟨a, ha⟩ := Option.ne_none_iff_exists'.1 hk
    obtain ⟨b, hb⟩ := Option.ne_none_iff_exists'.1 hm
    refine h.distinct k m a b ha hb ?_
    have hname {j : ℕ} {x : Name × ℕ} (hj : s.table j = some x) : key (s.nameAt j) = x.1 := by
      have hin : deSize * (j + 1) ≤ s.dp.size := by
        by_contra hgt
        rw [table_of_gt (by omega)] at hj
        cases hj
      have hentry := (entry_of_table hj).1
      rw [entry, slot, if_pos hin] at hentry
      exact (key_entry (length_slotBytes j)).trans (congrArg Dirent.name hentry)
    rw [← hname ha, ← hname hb]
    exact (strncmp_eq_zero_iff dirsiz _ _).1 heq
  finite := by
    refine SlotTable.finite_bindings (n := s.dp.size) fun k hk => table_of_gt ?_
    simp only [deSize]
    omega
  eq_of_mem _ _ _ := h.distinct.eq_of_mem

/-- The directory grows by whole entries. -/
theorem Inv.writei_size (h : s.Inv sb dnum) {src : List UInt8} (hlen : src.length = deSize)
    {d : Disk} {dp : Dinode} {n : ℤ}
    (hrun : Fs.writei sb s.disk dnum s.dp (deSize * k) src deSize = .ok (d, dp, n)) :
    deSize ∣ dp.size ∧ (n = deSize → deSize * (k + 1) ≤ dp.size) := by
  obtain ⟨q, hq⟩ := h.size
  have hcases := h.good.writei_cases h.ty (deSize * k) src deSize
  rw [h.stored, hrun] at hcases
  rcases hcases with href | ⟨d₁, dp₁, last, hrun₁, -, -, hsize, hwritten⟩
  · cases href
    exact ⟨h.size, fun heq => absurd heq (by decide)⟩
  · cases hrun₁
    rw [hsize]
    rcases hwritten.slot_last hlen with rfl | rfl
    · rw [hq, Nat.mul_max_mul_left]
      exact ⟨Nat.dvd_mul_right .., by simp [deSize]⟩
    · refine ⟨?_, fun _ => le_max_right ..⟩
      rw [hq, Nat.mul_max_mul_left]
      exact Nat.dvd_mul_right ..

/-- An entry that is written to a slot inside the directory or right behind it is there, or the
directory cannot grow. -/
theorem Inv.writei (h : s.Inv sb dnum) (hk : deSize * k ≤ s.dp.size) {src : List UInt8}
    (hlen : src.length = deSize) : ∃ d dp n, writei sb s.disk dnum s.dp (deSize * k) src deSize =
    .ok (d, dp, n) ∧
      Stepped sb dnum s.disk d dp ∧ deSize ∣ dp.size ∧
      ((n ≠ deSize ∧ (Dir.mk d dp).table = s.table ∧ s.dp.size = deSize * k ∧
          (s.dp.size = maxfile * bsize ∨ ¬ Room sb s.disk s.dp (s.dp.size + deSize))) ∨
        (n = deSize ∧ (Dir.mk d dp).table = update s.table k (Dirent.decode src).binding ∧
          (s.dp.size = deSize * k → s.dp.size ≠ maxfile * bsize ∧
            Room sb s.disk s.dp (s.dp.size + deSize)))) := by
  obtain ⟨q, hq⟩ := h.size
  obtain ⟨d, dp, n, hrun, hstep, hslots⟩ := h.good.writei_slot h.ty k hlen
  rw [h.stored] at hrun hslots
  obtain ⟨hdvd, hgrown⟩ := h.writei_size hlen hrun
  have hmax : maxfile * bsize = deSize * 17152 := by decide
  have hle := h.mapped.le_maxfile
  have hfiles := h.good.files
  refine ⟨d, dp, n, hrun, hstep, hdvd, ?_⟩
  rcases hslots with ⟨hn, hsame, hgt⟩ | ⟨hn, hset⟩
  · have hsize : s.dp.size = deSize * k := by
      simp only [deSize] at *
      omega
    refine .inl ⟨hn, funext fun m => by rw [table, entry, hsame m]; rfl, hsize, ?_⟩
    by_contra hroom
    rw [not_or, not_not] at hroom
    have hend : deSize * k + src.length ≤ s.dp.size + deSize := by omega
    have hfits : s.dp.size + deSize ≤ maxfile * bsize := by
      have hlt := lt_of_le_of_ne hle hroom.1
      simp only [deSize] at *
      omega
    have hwrite := hfiles.writei_of_room (i := dnum) h.ty (by rw [h.stored]; exact hk) hend hfits
    rw [h.stored, hlen] at hwrite
    obtain ⟨d₁, dp₁, hrun₁, -⟩ := hwrite hroom.2
    rw [hrun] at hrun₁
    cases hrun₁
    exact hn rfl
  · refine .inr ⟨hn, table_of_slots hset, fun hsize => ?_⟩
    have hmapped :=
      (hstep.good.mapped dnum (by rw [hstep.stored, hstep.same]; exact h.ty)).le_maxfile
    rw [hstep.stored] at hmapped
    have hgrown := hgrown hn
    have hnext : deSize * (k + 1) = deSize * k + deSize := Nat.mul_succ ..
    refine ⟨by simp only [deSize] at *; omega, ?_⟩
    have hwrite := hfiles.writei h.ty (by rw [h.stored]; exact hk)
      (show deSize * k + src.length ≤ maxfile * bsize by omega) (.inl hlen.le)
    rw [h.stored, hrun] at hwrite
    obtain ⟨d₁, dp₁, tot, hrun₁, -, hwrote, hfilled, -⟩ := hwrite
    cases hrun₁
    rw [← h.stored] at hfilled
    have hroom := hwrote.room hfilled hfiles h.ty (n := s.dp.size + deSize) (by omega)
    rwa [h.stored] at hroom

/-- What `dirlink` does with any number, of which an entry keeps the lower 16 bits. -/
theorem Inv.dirlink (h : s.Inv sb dnum) (name : ℕ → UInt8) (inum : ℕ) : ∃ t : Dir, t.Inv sb dnum ∧
      ((dirlink sb dnum s name inum = .ok (t, -1) ∧ t.table = s.table ∧
        (s.Bound name ∨ s.NoRoom sb)) ∨ ¬ s.Bound name ∧ ¬ s.NoRoom sb ∧ ∃ k,
        dirlink sb dnum s name inum = .ok (t, 0) ∧ s.table k = none ∧
          (∀ m < k, s.table m ≠ none) ∧
          t.table = update s.table k (Dirent.binding ⟨inum % 65536, key name⟩)) := by
  rcases h.lookup name with ⟨k, a, hrun, hk⟩ | ⟨hrun, hnone⟩
  · exact ⟨s, h, .inl ⟨by simp only [Dir.dirlink, hrun], rfl, .inl ⟨a, k, hk⟩⟩⟩
  · obtain ⟨q, hq⟩ := h.size
    rcases emptyLoop_spec sb h.mapped with ⟨hdvd, -⟩ | ⟨k, hloop, hfree, hbefore⟩
    · exact absurd h.size hdvd
    · have hfirst (m : ℕ) (hm : m < k) : s.table m ≠ none := by
        rw [Ne, table_eq_none]
        exact hbefore m hm
      have hkq : k ≤ q := by
        by_contra hgt
        refine hfirst q (by omega) (table_of_gt ?_)
        rw [hq]
        simp only [deSize]
        omega
      have hle : deSize * k ≤ s.dp.size := hq ▸ Nat.mul_le_mul_left deSize hkq
      obtain ⟨d, dp, n, hwrite, hstep, hdvd, hcases⟩ :=
        h.writei hle (length_encode inum (key_ok name).length_le)
      rw [decode_encode inum (key_ok name)] at hcases
      have hlink : Dir.dirlink sb dnum s name inum =
          .ok (⟨d, dp⟩, if n = deSize then 0 else -1) := by
        simp only [Dir.dirlink, hrun, hloop, encode_key, hwrite]
      refine ⟨⟨d, dp⟩, h.after hstep hdvd ?_, ?_⟩
      · rcases hcases with ⟨-, hsame, -⟩ | ⟨-, hset, -⟩
        · rw [hsame]
          exact h.distinct
        · rw [hset, Dirent.binding]
          split_ifs
          · exact h.distinct.erase
          · exact h.distinct.insert fun v hv => hnone ⟨v, hv⟩
      · rcases hcases with ⟨hn, hsame, hsize, hroom⟩ | ⟨hn, hset, hroom⟩
        · rw [if_neg hn] at hlink
          refine .inl ⟨hlink, hsame, .inr ⟨fun m hm => hfirst m ?_, hroom⟩⟩
          rw [hsize] at hm
          exact Nat.lt_of_mul_lt_mul_left (lt_of_lt_of_le (by simp [deSize]) hm)
        · rw [if_pos hn] at hlink
          refine .inr ⟨hnone, ?_, k, hlink, table_eq_none.2 hfree, hfirst, hset⟩
          rintro ⟨hfull, hstuck⟩
          have hlast : s.dp.size = deSize * k := by
            by_contra hne
            refine hfull k ?_ (table_eq_none.2 hfree)
            simp only [deSize] at *
            omega
          obtain ⟨hmax, hroom⟩ := hroom hlast
          exact hstuck.elim hmax (absurd hroom)

theorem Inv.links (h : s.Inv sb dnum) (name : ℕ → UInt8) {inum : ℕ} (hpos : 1 ≤ inum)
    (hle : inum ≤ 65535) : s.Links sb dnum name inum := by
  have hbinding : Dirent.binding ⟨inum % 65536, key name⟩ = some (key name, inum) := by
    rw [Nat.mod_eq_of_lt (by omega), Dirent.binding, if_neg (by simp only; omega)]
  obtain ⟨t, -, ⟨hrun, htable, hcause⟩ | ⟨hnew, hroom, k, hrun, hfree, hfirst, htable⟩⟩ :=
    h.dirlink name inum
  · refine ⟨fun _ => ⟨t, hrun, ?_⟩, fun hnew hroom => absurd hcause (not_or.2 ⟨hnew, hroom⟩)⟩
    rw [bindings, htable]
    rfl
  · refine ⟨fun hcause => absurd hcause (not_or.2 ⟨hnew, hroom⟩), fun _ _ => ?_⟩
    rw [hbinding] at htable
    refine ⟨t, k, hrun, ?_, hfree, hfirst, htable⟩
    rw [bindings, htable]
    exact SlotTable.bindings_insert hfree

theorem Inv.clear (h : s.Inv sb dnum) {b : Name × ℕ} (hk : s.table k = some b) :
    ∃ t : Dir, clear sb dnum s (deSize * k) = .ok t ∧ t.Inv sb dnum ∧
    t.table = update s.table k none := by
  have hin : deSize * (k + 1) ≤ s.dp.size := by
    by_contra hgt
    rw [table_of_gt (by omega)] at hk
    cases hk
  obtain ⟨d, dp, n, hwrite, hstep, hdvd, ⟨-, -, hsize, -⟩ | ⟨hn, hset, -⟩⟩ :=
    h.writei (k := k) (by rw [Nat.mul_succ] at hin; omega) (length_replicate ..)
  · simp only [deSize] at *
    omega
  · rw [decode_zeros] at hset
    have hset : (Dir.mk d dp).table = update s.table k none := hset
    refine ⟨⟨d, dp⟩, by simp only [Dir.clear, hwrite, if_pos hn], h.after hstep hdvd ?_, hset⟩
    rw [hset]
    exact h.distinct.erase

theorem Inv.clears (h : s.Inv sb dnum) (name : ℕ → UInt8) : s.Clears sb dnum name := by
  intro off inum hrun
  obtain ⟨r, hrun', -, hfound⟩ := h.looksUp name
  rw [hrun] at hrun'
  cases hrun'
  obtain ⟨k, rfl, hk⟩ := hfound off inum rfl
  obtain ⟨t, hclear, -, htable⟩ := h.clear hk
  refine ⟨t, hclear, ?_⟩
  rw [bindings, htable]
  exact SlotTable.bindings_erase h.distinct hk

theorem inv_step (s : Dir) (a : Edit) (t : Dir) (h : s.Inv sb dnum)
    (hs : step sb dnum s a = some t) : t.Inv sb dnum := by
  cases a with
  | dirlink name inum =>
    obtain ⟨t', ht, ⟨hrun, -⟩ | ⟨-, -, k, hrun, -⟩⟩ := h.dirlink name inum
    · rw [step, hrun] at hs
      cases hs
      exact ht
    · rw [step, hrun] at hs
      cases hs
      exact ht
  | clear name =>
    rcases h.lookup name with ⟨k, inum, hrun, hk⟩ | ⟨hrun, -⟩
    · obtain ⟨t', hclear, ht, -⟩ := h.clear hk
      simp only [step, hrun, hclear] at hs
      cases hs
      exact ht
    · simp only [step, hrun] at hs
      cases hs

theorem inv_empty {d : Disk} (hgood : Good sb d) (hdir : (d.dinode dnum).type = .dir)
    (hempty : (d.dinode dnum).size = 0) : (Dir.mk d (d.dinode dnum)).Inv sb dnum where
  good := hgood
  stored := rfl
  dir := hdir
  size := by rw [hempty]; exact Nat.dvd_zero _
  distinct k _ _ _ hk := by
    rw [table_of_gt (by rw [hempty]; simp [deSize])] at hk
    cases hk

/-- From an empty directory on, whatever entries are made and cleared, the directory is a map and
its functions are those of a map. -/
theorem directory_is_finite_map {d : Disk} (hgood : Good sb d) (hdir : (d.dinode dnum).type = .dir)
    (hempty : (d.dinode dnum).size = 0) {as : List Edit}
    (hrun : run (step sb dnum) ⟨d, d.dinode dnum⟩ as = some s) :
    s.IsMap ∧ (∀ name, s.LooksUp sb name) ∧
    (∀ name inum, 1 ≤ inum → inum ≤ 65535 → s.Links sb dnum name inum) ∧
        ∀ name, s.Clears sb dnum name := by
  have h := run_invariant_all inv_step (inv_empty hgood hdir hempty) hrun
  exact ⟨h.isMap, h.looksUp, fun name inum hpos hle => h.links name hpos hle, h.clears⟩

end laws

section oneBlock

def oneBlock : Super where
  size := 2
  ninodes := 2
  datastart := 1
  size_lt := by norm_num
  datastart_pos := by norm_num
  ninodes_le := by norm_num

def emptyDir : Disk where
  dinode i := if i = rootino then ⟨.dir, 0, 0, 1, 0, fun _ => 0⟩ else freeDinode
  used b := b = 0
  data _ _ := 0

theorem emptyDir_good : Good oneBlock emptyDir := by
  have hhold (k : ℕ × ℕ) : holdings emptyDir.data emptyDir.dinode k = 0 := by
    by_cases hk : k.1 = rootino
    · simp [holdings, emptyDir, hk, addrAt]
    · simp [holdings, emptyDir, hk, freeDinode]
  refine ⟨⟨⟨by decide, ?_, ?_, ?_⟩, ?_⟩, ?_⟩
  · exact fun k l _ hne => absurd (hhold k) hne
  · exact fun k hne => absurd (hhold k) hne
  · intro b hlo _
    have hpos : 1 ≤ b := hlo
    constructor
    · intro hused
      have hzero : b = 0 := of_decide_eq_true hused
      omega
    · rintro ⟨k, hk⟩
      rw [hhold] at hk
      omega
  · intro b hb
    have hlt : b < 1 := hb
    exact decide_eq_true (by omega)
  · intro i _ bn hbn
    have hsize : (emptyDir.dinode i).size = 0 := by
      simp only [emptyDir]
      split_ifs <;> rfl
    omega

def cstring (bytes : List UInt8) : ℕ → UInt8 := fun k => bytes.getD k 0

theorem directory_is_finite_map_emptyDir :
    ∃ s : Dir, run (step oneBlock rootino) ⟨emptyDir, emptyDir.dinode rootino⟩
        [.dirlink (cstring [97]) 1, .dirlink (cstring [98]) 1, .clear (cstring [97])] = some s ∧
      s.IsMap ∧ s.LooksUp oneBlock (cstring [98]) ∧ s.Clears oneBlock rootino (cstring [98]) := by
  obtain ⟨s, hs, -⟩ :=
    exists_of_elim (show (run (step oneBlock rootino) ⟨emptyDir, emptyDir.dinode rootino⟩
      [.dirlink (cstring [97]) 1, .dirlink (cstring [98]) 1, .clear (cstring [97])]).elim false
      (fun _ => true) = true
    by decide +kernel)
  have h := directory_is_finite_map emptyDir_good rfl rfl hs
  exact ⟨s, hs, h.1, h.2.1 _, h.2.2.2 _⟩

/-- A free slot is used even when no block is free. -/
theorem dirlink_on_full_disk :
    ∃ s : Dir, run (step oneBlock rootino) ⟨emptyDir, emptyDir.dinode rootino⟩
        [.dirlink (cstring [97]) 1, .clear (cstring [97])] = some s ∧ s.disk.Full oneBlock ∧
      ∃ t, dirlink oneBlock rootino s (cstring [98]) 1 = .ok (t, 0) := by
  obtain ⟨s, hs, hend⟩ := exists_of_elim (f := fun s : Dir => (s.disk.used 0 && s.disk.used 1) &&
    match dirlink oneBlock rootino s (cstring [98]) 1 with
    | .ok (_, r) => r = 0
    | .error _ => false) (show (run (step oneBlock rootino) ⟨emptyDir, emptyDir.dinode rootino⟩
      [.dirlink (cstring [97]) 1, .clear (cstring [97])]).elim false _ = true by decide +kernel)
  rw [Bool.and_eq_true, Bool.and_eq_true] at hend
  refine ⟨s, hs, fun b hb => ?_, ?_⟩
  · have hlt : b < 2 := hb
    interval_cases b
    · exact hend.1.1
    · exact hend.1.2
  · cases hlink : dirlink oneBlock rootino s (cstring [98]) 1 with
    | error e => simp [hlink] at hend
    | ok r =>
      obtain ⟨t, r⟩ := r
      have hr : r = 0 := by simpa [hlink] using hend.2
      exact ⟨t, by rw [hr]⟩

end oneBlock

end Dir

end Xv6.Fs
