import Xv6.ExecCall

/-!
# The image of a program

What the process finds in its memory after a successful `exec`. The segments are read off the file
as an ELF reader would, at the offsets that the headers give. `loadseg` gets the offset of a segment
as a `uint`, so that a segment at an offset of 2^32 or more is loaded from another place of the
file, and `exec` succeeds; for all others the image is right.
-/

namespace Xv6.Exec

open Xv6.Vm List Nat

def File.segments (f : File) : List Proghdr :=
  ((range f.elf.phnum).map fun i =>
    Proghdr.parse fun k => f.bytes (f.elf.phoff + i * proghdrSize + k)).filter
      (·.type = elfProgLoad)

def File.IsElf (f : File) : Prop := f.elf.phnum = 0 ∨
    f.elf.phoff + f.elf.phnum * proghdrSize ≤ f.size

def Proghdr.pageEnd (ph : Proghdr) : ℕ := npages (ph.vaddr + ph.memsz) * pgsize

structure Ascending (phs : List Proghdr) : Prop where
  aligned : ∀ ph ∈ phs, ph.vaddr % pgsize = 0
  order : phs.Pairwise fun a b => a.pageEnd ≤ b.vaddr

section headers

variable {f : File}

theorem headers_eq (n off : ℕ) (h : n = 0 ∨ off + n * proghdrSize ≤ f.size) :
    headers f n off = ((range n).map fun i =>
      Proghdr.parse fun k => f.bytes (off + i * proghdrSize + k)).filter
        (·.type = elfProgLoad) := by
  induction n generalizing off with
  | zero => rfl
  | succ n ih =>
    have hsize := f.size_lt
    have hph : proghdrSize = 56 := rfl
    have hle : off + (n + 1) * proghdrSize ≤ f.size := h.resolve_left (succ_ne_zero n)
    rw [add_mul, one_mul] at hle
    have hnext : (off + proghdrSize) % 2 ^ 32 = off + proghdrSize := mod_eq_of_lt (by omega)
    rw [headers, hnext, ih _ (.inr (by omega)), range_succ_eq_map, map_cons, map_map,
      zero_mul, add_zero]
    have hshift : ((fun i => Proghdr.parse fun k => f.bytes (off + i * proghdrSize + k)) ∘ succ) =
        fun i => Proghdr.parse fun k => f.bytes (off + proghdrSize + i * proghdrSize + k) := by
      funext i
      simp only [Function.comp_apply, succ_eq_add_one, add_mul, one_mul]
      congr 1
      funext k
      congr 1
      omega
    rw [hshift]
    split
    next hload => rw [filter_cons_of_pos (by simpa using hload), singleton_append]
    next hload => rw [filter_cons_of_neg (by simpa using hload), nil_append]

theorem headers_segments (h : f.IsElf) :
    headers f f.elf.phnum (f.elf.phoff % 2 ^ 32) = f.segments := by
  rcases h with h | h
  · rw [File.segments, h]
    rfl
  · have hsize := f.size_lt
    rw [mod_eq_of_lt (by omega), headers_eq _ _ (.inr h)]
    rfl

end headers

section loads

variable {f : File} {phs : List Proghdr} {ms ms' : List Leaf}

structure Agree (ms ms' : List Leaf) (n : ℕ) : Prop where
  perm : ∀ j < n, (ms'[j]?).map Leaf.perm = (ms[j]?).map Leaf.perm
  byte : ∀ x < n * pgsize, imageByte ms' x = imageByte ms x

theorem Agree.refl (ms : List Leaf) (n : ℕ) : Agree ms ms n := ⟨fun _ _ => rfl, fun _ _ => rfl⟩

theorem Agree.trans {ms'' : List Leaf} {n : ℕ} (h : Agree ms ms' n) (h' : Agree ms' ms'' n) :
    Agree ms ms'' n :=
  ⟨fun j hj => (h'.perm j hj).trans (h.perm j hj), fun x hx => (h'.byte x hx).trans (h.byte x hx)⟩

theorem Agree.mono {m n : ℕ} (h : Agree ms ms' n) (hmn : m ≤ n) : Agree ms ms' m :=
  ⟨fun j hj => h.perm j (by omega),
    fun x hx => h.byte x (lt_of_lt_of_le hx (mul_le_mul_right _ hmn))⟩

theorem Agree.append (ms ds : List Leaf) : Agree ms (ms ++ ds) ms.length := by
  refine ⟨fun j hj => ?_, fun x hx => imageByte_append hx⟩
  rw [getElem?_append_left hj]

theorem Agree.store {a n k : ℕ} {g : ℕ → UInt8} (hk : k ≤ ms.length) (ha : k * pgsize ≤ a) :
    Agree ms (store ms a n g) k := by
  refine ⟨fun j _ => ?_, fun x hx => ?_⟩
  · rw [getElem?_store, Option.map_map]
    rfl
  · rw [imageByte_store (lt_of_lt_of_le hx (mul_le_mul_right _ hk)), if_neg (by omega)]

structure SegImage (f : File) (ph : Proghdr) (ms : List Leaf) : Prop where
  bound : ph.pageEnd ≤ ms.length * pgsize
  size : ph.filesz ≤ ph.memsz
  inFile : ph.filesz = 0 ∨ ph.off % 2 ^ 32 + ph.filesz ≤ f.size
  perm : ∀ j, ph.vaddr ≤ j * pgsize → j * pgsize < ph.pageEnd →
    (ms[j]?).map Leaf.perm = some (pteR ||| pteU ||| flags2perm ph.flags)
  byte : ∀ i, ph.vaddr + i < ph.pageEnd →
    imageByte ms (ph.vaddr + i) = if i < ph.filesz then f.bytes (ph.off % 2 ^ 32 + i) else 0

theorem SegImage.agree {ph : Proghdr} (h : SegImage f ph ms) (hlen : ms.length ≤ ms'.length)
    (hagree : Agree ms ms' ms.length) : SegImage f ph ms' where
  bound := h.bound.trans (mul_le_mul_right _ hlen)
  size := h.size
  inFile := h.inFile
  perm j hlow hhigh := by
    have hj : j < ms.length := Nat.lt_of_mul_lt_mul_right (lt_of_lt_of_le hhigh h.bound)
    rw [hagree.perm j hj, h.perm j hlow hhigh]
  byte i hi := by rw [hagree.byte _ (lt_of_lt_of_le hi h.bound), h.byte i hi]

theorem Proghdr.end_le (ph : Proghdr) : ph.vaddr + ph.memsz ≤ ph.pageEnd := by
  unfold Proghdr.pageEnd npages pgsize
  omega

theorem segImage_load {ph : Proghdr} {ds : List ℕ} (hlow : ms.length * pgsize ≤ ph.vaddr)
    (hsize : ph.filesz ≤ ph.memsz) (hfile : ph.filesz = 0 ∨ ph.off % 2 ^ 32 + ph.filesz ≤ f.size)
    (hds : ms.length + ds.length = max ms.length (npages (ph.vaddr + ph.memsz))) :
    let ms' := store (ms ++ ds.map (heapLeaf (flags2perm ph.flags))) ph.vaddr ph.filesz
      fun k => f.bytes (ph.off % 2 ^ 32 + k)
    ms'.length * pgsize = ph.pageEnd ∧ ms.length ≤ ms'.length ∧ Agree ms ms' ms.length ∧
      SegImage f ph ms' := by
  have hend := ph.end_le
  have hle : ms.length ≤ npages (ph.vaddr + ph.memsz) := by
    refine le_of_mul_le_mul_right (hlow.trans ?_) (by decide : 0 < pgsize)
    exact (le_add_right _ _).trans hend
  have hlen : (ms ++ ds.map (heapLeaf (flags2perm ph.flags))).length =
      npages (ph.vaddr + ph.memsz) := by
    rw [length_append, length_map, hds, max_eq_right hle]
  have hpage : ∀ x, ms.length * pgsize ≤ x → x < ph.pageEnd → ∃ d,
      (ms ++ ds.map (heapLeaf (flags2perm ph.flags)))[x / pgsize]? =
      some (heapLeaf (flags2perm ph.flags) d) := by
    intro x hx hlt
    have hj : ms.length ≤ x / pgsize := (le_div_iff_mul_le (by decide)).2 hx
    have hlt' : x / pgsize < npages (ph.vaddr + ph.memsz) := (div_lt_iff_lt_mul (by decide)).2 hlt
    have hds' : x / pgsize - ms.length < ds.length := by omega
    refine ⟨ds[x / pgsize - ms.length], ?_⟩
    rw [getElem?_append_right hj, getElem?_map, getElem?_eq_getElem hds', Option.map_some]
  refine ⟨?_, ?_, ?_, ?_, hsize, hfile, ?_, ?_⟩
  · rw [length_store, hlen]
    rfl
  · rw [length_store, hlen]
    exact hle
  · exact (Agree.append _ _).trans (.store (by simp) hlow)
  · rw [length_store, hlen]
    rfl
  · intro j hj hhigh
    obtain ⟨d, hd⟩ := hpage (j * pgsize) (hlow.trans hj) hhigh
    rw [Nat.mul_div_cancel _ (by decide)] at hd
    rw [getElem?_store, hd]
    rfl
  · intro i hi
    rw [imageByte_store (by rwa [hlen])]
    by_cases hif : i < ph.filesz
    · rw [if_pos (by omega), if_pos hif, Nat.add_sub_cancel_left]
    · obtain ⟨d, hd⟩ := hpage (ph.vaddr + i) (by omega) hi
      rw [if_neg (by omega), if_neg hif, imageByte, hd]
      rfl

theorem Loads.agree (h : Loads f phs ms ms') (hlow : ∀ ph ∈ phs, ms.length * pgsize ≤ ph.vaddr)
    (hasc : Ascending phs) : ms.length ≤ ms'.length ∧ Agree ms ms' ms.length ∧ ∀ ph ∈ phs,
    SegImage f ph ms' := by
  induction phs generalizing ms with
  | nil =>
    obtain rfl := h
    exact ⟨le_rfl, .refl _ _, by simp⟩
  | cons ph phs ih =>
    obtain ⟨hsize, -, hfile, ds, hlen, hrest⟩ := h
    obtain ⟨hend, hle, hagree, hseg⟩ := segImage_load (hlow ph mem_cons_self) hsize hfile hlen
    have hnext := pairwise_cons.1 hasc.order
    obtain ⟨hle', hagree', hsegs⟩ := ih hrest (fun b hb => by rw [hend]; exact hnext.1 b hb)
      ⟨fun b hb => hasc.aligned b (mem_cons_of_mem _ hb), hnext.2⟩
    refine ⟨hle.trans hle', hagree.trans (hagree'.mono hle), ?_⟩
    intro b hb
    rcases mem_cons.1 hb with rfl | hb
    · exact hseg.agree hle' hagree'
    · exact hsegs b hb

end loads

section pushes

variable {s : Phys} {argv us us' : List ℕ} {ms ms' : List Leaf} {base sp sp' : ℕ}

def Apart (r r' : ℕ × ℕ) : Prop := r.1 + r.2 ≤ r'.1 ∨ r'.1 + r'.2 ≤ r.1

def CopyOf (s : Phys) (byte : ℕ → UInt8) (a : ℕ) (r : ℕ × ℕ) : Prop :=
  ∃ len, IsString s a len ∧ r.2 = len + 1 ∧ ∀ k ≤ len, byte (r.1 + k) = s.byte (a + k)

structure Pushed (s : Phys) (argv us us' : List ℕ) (ms ms' : List Leaf) (base sp sp' : ℕ)
    (rs : List (ℕ × ℕ)) : Prop where
  addresses : us' = us ++ rs.map Prod.fst
  copies : List.Forall₂ (CopyOf s (imageByte ms')) argv rs
  order : rs.Pairwise fun r r' => r'.1 + r'.2 ≤ r.1
  inside : ∀ r ∈ rs, sp' ≤ r.1 ∧ r.1 + r.2 ≤ sp
  base_le : base ≤ sp'
  sp_le : sp' ≤ sp
  length : ms'.length = ms.length
  perm : ∀ j : ℕ, (ms'[j]?).map Leaf.perm = (ms[j]?).map Leaf.perm
  byte : ∀ x < ms.length * pgsize, x < sp' ∨ sp ≤ x → imageByte ms' x = imageByte ms x

theorem Pushes.pushed (h : Pushes s base argv sp us ms sp' us' ms') (hbase : base ≤ sp)
    (hsp : sp ≤ ms.length * pgsize) : ∃ rs, Pushed s argv us us' ms ms' base sp sp' rs := by
  induction argv generalizing sp us ms with
  | nil =>
    obtain ⟨rfl, rfl, rfl⟩ := h
    exact ⟨[], by simp, .nil, .nil, by simp, hbase, le_rfl, rfl, fun _ => rfl, fun _ _ _ => rfl⟩
  | cons a argv ih =>
    obtain ⟨len, p, hstr, hlen, hp, hbasep, hrest⟩ := h
    have hpsp : p + (len + 1) ≤ sp := by omega
    obtain ⟨rs, hrs⟩ := ih hrest hbasep (by rw [length_store]; omega)
    have hlow := hrs.sp_le
    refine ⟨(p, len + 1) :: rs, ?_, ?_, ?_, ?_, hrs.base_le, by omega, ?_, ?_, ?_⟩
    · rw [hrs.addresses, map_cons, append_assoc, singleton_append]
    · refine .cons ⟨len, hstr, rfl, fun k hk => ?_⟩ hrs.copies
      dsimp only
      rw [hrs.byte (p + k) (by rw [length_store]; omega) (.inr (by omega)),
        imageByte_store (by omega), if_pos (by omega), Nat.add_sub_cancel_left]
    · exact .cons (fun r hr => (hrs.inside r hr).2) hrs.order
    · intro r hr
      rcases mem_cons.1 hr with rfl | hr
      · exact ⟨hlow, hpsp⟩
      · have hin := hrs.inside r hr
        omega
    · rw [hrs.length, length_store]
    · intro j
      rw [hrs.perm, getElem?_store, Option.map_map]
      rfl
    · intro x hx hout
      rw [hrs.byte x (by rwa [length_store]) (by omega), imageByte_store hx, if_neg (by omega)]

end pushes

/-- The array of the addresses of the arguments at `sp`, and the arguments. -/
structure RightArgs (s : Phys) (argv : List ℕ) (byte : ℕ → UInt8) (base sz sp : ℕ)
    (rs : List (ℕ × ℕ)) : Prop where
  copies : List.Forall₂ (CopyOf s byte) argv rs
  words : ∀ i r, rs[i]? = some r → field byte (sp + i * 8) 8 = r.1
  last : field byte (sp + argv.length * 8) 8 = 0
  apart : ((sp, (argv.length + 1) * 8) :: rs).Pairwise Apart
  inside : ∀ r ∈ (sp, (argv.length + 1) * 8) :: rs, base ≤ r.1 ∧ r.1 + r.2 ≤ sz

section pushed

variable {s : Phys} {argv us : List ℕ} {ms ms₁ : List Leaf} {sp : ℕ}

theorem copies_congr {byte byte' : ℕ → UInt8} {rs : List (ℕ × ℕ)}
    (h : List.Forall₂ (CopyOf s byte) argv rs)
    (heq : ∀ r ∈ rs, ∀ x, r.1 ≤ x → x < r.1 + r.2 → byte' x = byte x) :
    List.Forall₂ (CopyOf s byte') argv rs := by
  induction h with
  | nil => exact .nil
  | cons hcopy _ ih =>
    obtain ⟨len, hstr, hlen, hbytes⟩ := hcopy
    refine .cons ⟨len, hstr, hlen, fun k hk => ?_⟩ (ih fun r hr => heq r (mem_cons_of_mem _ hr))
    rw [heq _ mem_cons_self _ (by omega) (by omega), hbytes k hk]

theorem arrayByte_word (us : List ℕ) {i j : ℕ} (hj : j < 8) :
    arrayByte us (i * 8 + j) = wordByte ((us ++ [0]).getD i 0) j := by
  rw [arrayByte, show (i * 8 + j) / 8 = i by omega, show (i * 8 + j) % 8 = j by omega]

theorem Stacks.right (h : Stacks s argv ms₁ ms sp) (hmax : ms.length * pgsize ≤ maxva) :
    ms.length = ms₁.length + 1 + userstack ∧ Agree ms₁ ms ms₁.length ∧
      (ms[ms₁.length]?).map Leaf.perm = some (clearU (pteR ||| pteU ||| pteW)) ∧ sp % 16 = 0 ∧
      ∃ rs, RightArgs s argv (imageByte ms) ((ms₁.length + 1) * pgsize)
      (ms.length * pgsize) sp rs := by
  obtain ⟨guard, ds, sp', us, ms₃, hds, hus, hpush, hroom, hsp, hbase, rfl⟩ := h.pushed
  have hlen : (ms₁ ++ stackLeaves guard ds).length = ms₁.length + 1 + userstack := by
    rw [length_append, stackLeaves, length_cons, length_map, hds]
    omega
  obtain ⟨rs, hrs⟩ := hpush.pushed (mul_le_mul_right _ (le_add_right _ _)) (by rw [hlen])
  have hlen₃ := hrs.length.trans hlen
  rw [length_store, hlen₃] at hmax ⊢
  have hbase' : ms₁.length * pgsize ≤ sp := le_trans (mul_le_mul_right _ (le_succ _)) hbase
  have hpush_le := hrs.sp_le
  have hfit : sp + (argv.length + 1) * 8 ≤ sp' := by omega
  have hold : Agree ms₁ ms₃ ms₁.length := by
    refine (Agree.append ms₁ _).trans
      ⟨fun j _ => hrs.perm j, fun x hx => hrs.byte x ?_ (.inl (by omega))⟩
    exact lt_of_lt_of_le hx (mul_le_mul_right _ (by rw [hlen]; omega))
  have hrslen : rs.length = argv.length := hrs.copies.length_eq.symm
  have hword : ∀ i, i ≤ argv.length →
      field (imageByte (store ms₃ sp ((argv.length + 1) * 8) (arrayByte us)))
      (sp + i * 8) 8 = (us ++ [0]).getD i 0 % 2 ^ 64 := by
    intro i hi
    refine field_of_bytes fun j hj => ?_
    rw [imageByte_store (by rw [hlen₃]; omega), if_pos (by omega), Nat.add_assoc,
      Nat.add_sub_cancel_left, arrayByte_word us hj]
  refine ⟨rfl, hold.trans (.store (by omega) hbase'), ?_, by omega, rs, ?_, ?_, ?_, ?_, ?_⟩
  · rw [getElem?_store, Option.map_map]
    change (ms₃[ms₁.length]?).map Leaf.perm = _
    rw [hrs.perm, getElem?_append_right le_rfl, Nat.sub_self]
    rfl
  · -- the array is below all strings
    refine copies_congr hrs.copies fun r hr x hlow hhigh => ?_
    have hin := hrs.inside r hr
    rw [imageByte_store (by rw [hlen₃]; omega), if_neg (by omega)]
  · intro i r hr
    have hi : i < rs.length := (List.getElem?_eq_some_iff.1 hr).1
    have hin := (hrs.inside r (mem_of_getElem? hr)).2
    have hget : (us ++ [0]).getD i 0 = r.1 := by
      rw [getD_eq_getElem?_getD, getElem?_append_left (by omega), hrs.addresses, nil_append,
        getElem?_map, hr]
      rfl
    rw [hword i (by omega), hget, mod_eq_of_lt]
    unfold maxva at hmax
    omega
  · rw [hword _ le_rfl, getD_eq_getElem?_getD, getElem?_append_right hus.le, hus, Nat.sub_self]
    rfl
  · refine .cons (fun r hr => .inl ?_) (hrs.order.imp fun h => .inr h)
    exact hfit.trans (hrs.inside r hr).1
  · intro r hr
    rcases mem_cons.1 hr with rfl | hr
    · exact ⟨hbase, by dsimp only; omega⟩
    · have hin := hrs.inside r hr
      exact ⟨by omega, hin.2⟩

end pushed

def userByte (s : Phys) (pt va : ℕ) : UInt8 := s.byte (s.phys pt va)

structure RightSegment (f : File) (t : Phys) (pt : ℕ) (ph : Proghdr) : Prop where
  loaded : ∀ i < ph.filesz, ph.off + i < f.size ∧
    userByte t pt (ph.vaddr + i) = f.bytes (ph.off + i)
  zero : ∀ i, ph.filesz ≤ i → i < ph.memsz → userByte t pt (ph.vaddr + i) = 0
  perm : ∀ x, ph.vaddr ≤ x → x < ph.pageEnd → ∃ pte, t.lookup pt x = some pte ∧
    pteFlags pte = pteR ||| pteU ||| ((if ph.flags &&& 1 ≠ 0 then pteX else 0) |||
      (if ph.flags &&& 2 ≠ 0 then pteW else 0)) ||| pteV

/-- The memory of a process that has just been given the program `f` and the arguments `argv`, which
were strings in the memory `s` of the kernel. -/
structure RightImage (f : File) (s : Phys) (argv : List ℕ) (t : Phys) (pt sz sp : ℕ) : Prop where
  segments : ∀ ph ∈ f.segments, RightSegment f t pt ph
  guard : ∀ x, sz - (userstack + 1) * pgsize ≤ x → x < sz - userstack * pgsize →
    ∃ pte, t.lookup pt x = some pte ∧ pte &&& pteU = 0
  aligned : sp % 16 = 0
  args : ∃ rs, RightArgs s argv (userByte t pt) (sz - userstack * pgsize) sz sp rs

section image

variable {f : File} {s t : Phys} {argv : List ℕ} {ms ms₁ : List Leaf} {pt sp : ℕ}

theorem HasImage.userByte (h : HasImage t pt ms) {x : ℕ} (hx : x < ms.length * pgsize) :
    userByte t pt x = imageByte ms x := by
  obtain ⟨m, hm, hlook, hpa, hbytes⟩ := h x hx
  have hal := pte2pa_mod m.pte
  rw [hpa] at hal
  rw [Exec.userByte, Phys.phys, hlook, Option.getD_some, hpa,
    byte_page hal (mod_lt _ (by decide)), hbytes, imageByte, hm, Option.elim_some]

theorem HasImage.flags (h : HasImage t pt ms) {x perm : ℕ} (hx : x < ms.length * pgsize)
    (hperm : (ms[x / pgsize]?).map Leaf.perm = some perm) (hlt : perm < 1024) :
    ∃ pte, t.lookup pt x = some pte ∧ pteFlags pte = perm ||| pteV := by
  obtain ⟨m, hm, hlook, -, -⟩ := h x hx
  rw [hm, Option.map_some, Option.some.injEq] at hperm
  subst hperm
  exact ⟨_, hlook, pteFlags_leafPte _ hlt⟩

theorem SegImage.right {ph : Proghdr} (h : SegImage f ph ms) (hal : ph.vaddr % pgsize = 0)
    (him : HasImage t pt ms) (hoff : 0 < ph.filesz → ph.off < 2 ^ 32) : RightSegment f t pt ph where
  loaded i hi := by
    have hmod := mod_eq_of_lt (hoff (by omega))
    have hend := ph.end_le
    have hsize := h.size
    have hbyte := h.byte i (by omega)
    have hin := h.inFile.resolve_left (by omega)
    rw [if_pos hi, hmod] at hbyte
    rw [hmod] at hin
    exact ⟨by omega, by rw [him.userByte (lt_of_lt_of_le (by omega) h.bound), hbyte]⟩
  zero i hlow hhigh := by
    have hend := ph.end_le
    rw [him.userByte (lt_of_lt_of_le (by omega) h.bound), h.byte i (by omega), if_neg (by omega)]
  perm x hlow hhigh := by
    have hpage : ph.vaddr ≤ x / pgsize * pgsize ∧ x / pgsize * pgsize < ph.pageEnd := by
      unfold pgsize at *
      omega
    exact him.flags (lt_of_lt_of_le hhigh h.bound) (h.perm _ hpage.1 hpage.2)
      (flags2perm_ok ph.flags).1

theorem RightArgs.congr {byte byte' : ℕ → UInt8} {base sz : ℕ} {rs : List (ℕ × ℕ)}
    (h : RightArgs s argv byte base sz sp rs) (heq : ∀ x < sz, byte' x = byte x) :
    RightArgs s argv byte' base sz sp rs := by
  have harray := (h.inside _ mem_cons_self).2
  dsimp only at harray
  refine ⟨copies_congr h.copies fun r hr x _ hx => heq x ?_, fun i r hr => ?_, ?_,
    h.apart, h.inside⟩
  · exact lt_of_lt_of_le hx (h.inside r (mem_cons_of_mem _ hr)).2
  · have hi : i < argv.length := by
      rw [h.copies.length_eq]
      exact (List.getElem?_eq_some_iff.1 hr).1
    rw [field_congr fun j hj => heq (sp + i * 8 + j) (by omega), h.words i r hr]
  · rw [field_congr fun j hj => heq (sp + argv.length * 8 + j) (by omega), h.last]

theorem Loaded.segImage (h : Loaded f ms₁) (helf : f.IsElf) (hasc : Ascending f.segments)
    (hstacks : Stacks s argv ms₁ ms sp) (hmax : ms.length * pgsize ≤ maxva) :
    ∀ ph ∈ f.segments, SegImage f ph ms := by
  have hloads := h.loads
  rw [headers_segments helf] at hloads
  obtain ⟨-, -, hsegs⟩ := hloads.agree (fun ph _ => by simp) hasc
  obtain ⟨hlen, hagree, -⟩ := hstacks.right hmax
  exact fun ph hph => (hsegs ph hph).agree (by omega) hagree

/-- The image is right if no offset in the file is too large for `loadseg`. -/
theorem rightImage (hloaded : Loaded f ms₁) (helf : f.IsElf) (hasc : Ascending f.segments)
    (hstacks : Stacks s argv ms₁ ms sp) (him : HasImage t pt ms) (hmax : ms.length * pgsize ≤ maxva)
    (hoff : ∀ ph ∈ f.segments, 0 < ph.filesz → ph.off < 2 ^ 32) :
    RightImage f s argv t pt ((ms₁.length + 1 + userstack) * pgsize) sp := by
  have hsegs := hloaded.segImage helf hasc hstacks hmax
  obtain ⟨hlen, -, hguard, hsp, rs, hargs⟩ := hstacks.right hmax
  have hbase : (ms₁.length + 1 + userstack) * pgsize - userstack * pgsize =
      (ms₁.length + 1) * pgsize := by
    rw [← Nat.sub_mul, Nat.add_sub_cancel]
  have hguardbase : (ms₁.length + 1 + userstack) * pgsize - (userstack + 1) * pgsize =
      ms₁.length * pgsize := by
    rw [← Nat.sub_mul, Nat.add_assoc, Nat.add_comm 1 userstack, Nat.add_sub_cancel]
  refine ⟨fun ph hph => ?_, fun x hlow hhigh => ?_, hsp, rs, ?_⟩
  · exact (hsegs ph hph).right (hasc.aligned ph hph) him (hoff ph hph)
  · rw [hguardbase] at hlow
    rw [hbase] at hhigh
    rw [← Nat.div_eq_of_lt_le hlow hhigh] at hguard
    have hx : x < ms.length * pgsize := lt_of_lt_of_le hhigh (mul_le_mul_right _ (by omega))
    obtain ⟨pte, hlook, hflags⟩ := him.flags hx hguard (by decide)
    have hmask : pte &&& pteU = pteFlags pte &&& pteU := by
      rw [pteFlags, Nat.and_assoc]
      rfl
    refine ⟨pte, hlook, ?_⟩
    rw [hmask, hflags]
    decide
  · rw [hbase, ← hlen]
    exact hargs.congr fun x hx => him.userByte hx

end image

section exec

variable {env : Env} {s : Kernel} {argv : List ℕ}

theorem Committed.max_le {t : Kernel} {pt sz sp entry : ℕ} {path : List UInt8} {ms : List Leaf}
    (hc : Committed env s t pt sz sp entry path ms) (hkend : kernbase ≤ env.kend) :
    ms.length * pgsize ≤ maxva := by
  have hle := hc.space.mem.npages_le hkend
  rw [hc.pages] at hle
  unfold pgsize maxva
  omega

/-- After a successful `exec` of an ELF file the memory, the stack pointer and the arguments of
`main` are right if and only if all bytes of its segments are at offsets below 2^32. -/
theorem exec_image_iff (hr : Ready env s argv) (path : List UInt8) {ip : ℕ}
    (hip : env.lookup path = some ip) (helf : (env.file ip).IsElf)
    (hasc : Ascending (env.file ip).segments) :
    Runs (exec env path argv) s fun r t => ∀ argc, r = some argc → argc = argv.length ∧
      word t.phys (t.proc.trapframe + 120) = word t.phys (t.proc.trapframe + 48) ∧
      (RightImage (env.file ip) s.phys argv t.phys t.proc.pagetable t.proc.sz
        (word t.phys (t.proc.trapframe + 48)) ↔
        ∀ ph ∈ (env.file ip).segments, 0 < ph.filesz → ph.off < 2 ^ 32) := by
  refine (exec_spec hr path).mono ?_
  rintro r t (⟨rfl, -⟩ | ⟨rfl, ip', pt, ms₁, ms, sp, hip', hloaded, hstacks, hc⟩) argc hargc
  · cases hargc
  · obtain rfl := Option.some.inj (hip.symm.trans hip')
    have hmax := hc.max_le hr.ground.kend_le
    rw [hc.proc]
    dsimp only
    rw [hc.a1, hc.sp]
    refine ⟨(Option.some.inj hargc).symm, rfl, fun h ph hph hpos => ?_, fun hoff => ?_⟩
    · have hin := ((h.segments ph hph).loaded 0 hpos).1
      have hsize := (env.file ip).size_lt
      omega
    · exact rightImage hloaded helf hasc hstacks hc.image hmax hoff

theorem prepare_none {path : List UInt8} {t : Kernel} (h : exec env path argv s = .ok (none, t)) :
    prepare env path argv s = .ok (none, t) := by
  have hcommit : ∀ b u, Yields (commit env b path) u (fun r _ => r = some b.argc)
      fun _ => True := fun b u =>
    Yields.any.bind fun _ _ _ => Yields.any.bind fun _ _ _ => Yields.any.bind fun _ _ _ =>
      Yields.any.bind fun _ _ _ => Yields.any.bind
        fun _ _ _ => Yields.any.bind fun _ _ _ => Yields.ret rfl
  cases hprep : prepare env path argv s with
  | error e =>
    rw [exec, Fails.bind hprep] at h
    cases h
  | ok r =>
    obtain ⟨r, u⟩ := r
    rw [exec, bind_of_ok hprep] at h
    cases r with
    | none =>
      cases h
      rfl
    | some b => exact absurd ((hcommit b u).1 _ _ h) nofun

/-- Whether `prepare` builds a new image, from the demo state. -/
def demoPrepares (f : File) (argv : List ℕ) : Bool :=
  (procPagetable (kernbase + 4096) 3 kernbase (kernbase + 17 * 4096) demoPhys).toOption.elim false
    fun r => r.1.elim false
    fun pt => ((prepare (demoEnv f) [] argv (demoKernel pt r.2)).toOption.bind Prod.fst).isSome

theorem exec_ne_none {f : File} {pt : ℕ} {p : Phys} {r : Option ℕ} {t : Kernel}
    (hpt : procPagetable (kernbase + 4096) 3 kernbase (kernbase + 17 * 4096) demoPhys =
      .ok (some pt, p))
    (hprep : demoPrepares f argv = true)
    (hrun : exec (demoEnv f) [] argv (demoKernel pt p) = .ok (r, t)) : r ≠ none := by
  rintro rfl
  rw [demoPrepares, hpt] at hprep
  dsimp only [Except.toOption, Option.elim_some] at hprep
  rw [prepare_none hrun] at hprep
  cases hprep

theorem exec_image_iff_demo : ∃ s t, Ready (demoEnv (elfFile ⟨1, 5, 0, 0, 4, 4⟩)) s [demoArg] ∧
    (elfFile ⟨1, 5, 0, 0, 4, 4⟩).segments = [⟨1, 5, 0, 0, 4, 4⟩] ∧
    exec (demoEnv (elfFile ⟨1, 5, 0, 0, 4, 4⟩)) [] [demoArg] s = .ok (some 1, t) ∧
    RightImage (elfFile ⟨1, 5, 0, 0, 4, 4⟩) s.phys [demoArg] t.phys t.proc.pagetable t.proc.sz
      (word t.phys (t.proc.trapframe + 48)) := by
  obtain ⟨pt, p, hpt, -, -, hr⟩ := exists_demo (elfFile ⟨1, 5, 0, 0, 4, 4⟩)
  have hsegs : (elfFile ⟨1, 5, 0, 0, 4, 4⟩).segments = [⟨1, 5, 0, 0, 4, 4⟩] := by decide +kernel
  have helf : (elfFile ⟨1, 5, 0, 0, 4, 4⟩).IsElf := .inr (by decide +kernel)
  have hasc : Ascending (elfFile ⟨1, 5, 0, 0, 4, 4⟩).segments := by
    rw [hsegs]
    exact ⟨by simp, by simp⟩
  have hprep : demoPrepares (elfFile ⟨1, 5, 0, 0, 4, 4⟩) [demoArg] = true := by decide +kernel
  obtain ⟨r, t, hrun, h⟩ := exec_image_iff hr [] rfl helf hasc
  obtain ⟨argc, rfl⟩ := Option.ne_none_iff_exists'.1 (exec_ne_none hpt hprep hrun)
  obtain ⟨rfl, -, himage⟩ := h argc rfl
  refine ⟨_, t, hr, hsegs, hrun, himage.2 fun ph hph _ => ?_⟩
  change ph ∈ (elfFile ⟨1, 5, 0, 0, 4, 4⟩).segments at hph
  rw [hsegs, mem_singleton] at hph
  rw [hph]
  norm_num

/-- The segment's four bytes are at the offset 2^32. The file has no bytes there, and `exec` gives
the process the first four bytes of the file. -/
theorem exec_loads_other_bytes : ∃ s t, Ready (demoEnv (elfFile ⟨1, 5, 2 ^ 32, 0, 4, 4⟩)) s [] ∧
    (elfFile ⟨1, 5, 2 ^ 32, 0, 4, 4⟩).IsElf ∧
    (elfFile ⟨1, 5, 2 ^ 32, 0, 4, 4⟩).segments = [⟨1, 5, 2 ^ 32, 0, 4, 4⟩] ∧
    exec (demoEnv (elfFile ⟨1, 5, 2 ^ 32, 0, 4, 4⟩)) [] [] s = .ok (some 0, t) ∧
    userByte t.phys t.proc.pagetable 0 = 0x7f ∧
    (elfFile ⟨1, 5, 2 ^ 32, 0, 4, 4⟩).bytes (2 ^ 32) = 0 := by
  obtain ⟨pt, p, hpt, -, hr, -⟩ := exists_demo (elfFile ⟨1, 5, 2 ^ 32, 0, 4, 4⟩)
  have hsegs : (elfFile ⟨1, 5, 2 ^ 32, 0, 4, 4⟩).segments =
      [⟨1, 5, 2 ^ 32, 0, 4, 4⟩] := by decide +kernel
  have helf : (elfFile ⟨1, 5, 2 ^ 32, 0, 4, 4⟩).IsElf := .inr (by decide +kernel)
  have hasc : Ascending (elfFile ⟨1, 5, 2 ^ 32, 0, 4, 4⟩).segments := by
    rw [hsegs]
    exact ⟨by simp, by simp⟩
  have hbytes : (elfFile ⟨1, 5, 2 ^ 32, 0, 4, 4⟩).bytes (2 ^ 32 % 2 ^ 32 + 0) =
      0x7f := by decide +kernel
  have hbeyond : (elfFile ⟨1, 5, 2 ^ 32, 0, 4, 4⟩).bytes (2 ^ 32) = 0 := by decide +kernel
  have hprep : demoPrepares (elfFile ⟨1, 5, 2 ^ 32, 0, 4, 4⟩) [] = true := by decide +kernel
  obtain ⟨r, t, hrun, h⟩ := exec_spec hr []
  refine ⟨_, t, hr, helf, hsegs, ?_⟩
  rcases h with ⟨rfl, -⟩ | ⟨rfl, ip, pt', ms₁, ms, sp, -, hloaded, hstacks, hc⟩
  · exact absurd rfl (exec_ne_none hpt hprep hrun)
  · have hmax := hc.max_le hr.ground.kend_le
    have hseg :=
      Loaded.segImage (f := elfFile ⟨1, 5, 2 ^ 32, 0, 4, 4⟩) hloaded helf hasc hstacks hmax
        _ (by rw [hsegs]; exact mem_singleton_self _)
    have hbyte := hseg.byte 0 (by decide)
    refine ⟨hrun, ?_, hbeyond⟩
    rw [hc.proc, hc.image.userByte (lt_of_lt_of_le (by decide : 0 < 1 * pgsize) hseg.bound)]
    exact hbyte.trans hbytes

end exec

end Xv6.Exec
