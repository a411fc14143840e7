import Xv6.InodeTable
import Xv6.Transition

/-!
# The life of an inode in memory

`ialloc`, `iget`, `idup`, `ilock`, `iunlock` and `iput` of `kernel/fs.c` by any number of processes,
in steps that hold `itable.lock` or the lock of an inode. Directories are seen from the inode:
`entries` counts the entries that name it. A process that has an inode locked may change its links,
with the entries, and its blocks, and writes it back.

`iput` gives up `itable.lock` while it frees an inode. In that time the inode may be allocated
again, and the same entry of the table is found for it. `gen` numbers the allocations of an inode,
`refs` has the references that each process owes.
-/

namespace Xv6.InodeLife

open Transition InodeTable Function Finset

structure Dinode where
  type : ℕ
  nlink : ℕ
  blocks : ℕ
  gen : ℕ
  deriving DecidableEq

/-- Where a process is inside a call; the last five are the end of an `iput` that frees. -/
inductive Pc
  | idle
  | ialloc (k : ℕ × ℕ)
  | load (e : ℕ)
  | itrunc (e : ℕ)
  | iupdate (e : ℕ)
  | invalid (e : ℕ)
  | releasesleep (e : ℕ)
  | drop (e : ℕ)
  deriving DecidableEq

inductive Panic
  | iget
  | ilock
  | iunlock
  | schedLocks
  deriving DecidableEq

structure Sys (n : ℕ) where
  disk : ℕ × ℕ → Dinode
  entries : ℕ × ℕ → ℕ
  table : Table
  lock : ℕ → Option (Fin n)
  cache : ℕ → Dinode
  refs : Fin n → ℕ → ℕ
  pc : Fin n → Pc
  panicked : Option Panic

inductive Act (n : ℕ)
  | ialloc (p : Fin n) (k : ℕ × ℕ) (type : ℕ)
  | iget (p : Fin n) (k : ℕ × ℕ)
  | idup (p : Fin n) (e : ℕ)
  | ilock (p : Fin n) (e : ℕ)
  | update (p : Fin n) (e nlink blocks : ℕ)
  | iunlock (p : Fin n) (e : ℕ)
  | iput (p : Fin n) (e : ℕ)
  | run (p : Fin n)

variable {n : ℕ}

namespace Sys

variable (s : Sys n) (p : Fin n) (e : ℕ)

def goto (pc : Pc) : Sys n := { s with pc := update s.pc p pc }

def setLock (o : Option (Fin n)) : Sys n := { s with lock := update s.lock e o }

def setRefs (r : ℕ) : Sys n :=
  { s with refs := update s.refs p (update (s.refs p) e r) }

def setValid (b : Bool) : Sys n :=
  { s with table := s.table.setValid e b }

def iupdate (x : Dinode) : Sys n :=
  { s with
    cache := update s.cache e x
    disk := update s.disk (s.table e).key x }

/-- `iget`, after which `p` owes one reference more. -/
def iget (k : ℕ × ℕ) : Sys n :=
  match s.table.iget k.1 k.2 with
  | some (e, t) => { s.setRefs p e (s.refs p e + 1) with table := t }
  | none => { s with panicked := some .iget }

/-- The end of `iput`. -/
def drop : Sys n := { s.setRefs p e (s.refs p e - 1) with table := s.table.drop e }

/-- The test of `iput`. -/
def last : Prop := (s.table e).ref = 1 ∧ (s.table e).valid = true ∧ (s.cache e).nlink = 0

instance : Decidable (s.last e) := inferInstanceAs (Decidable (_ ∧ _))

end Sys

def runStep (s : Sys n) (p : Fin n) : Pc → Option (Sys n)
  | .idle => none
  | .ialloc k => some ((s.iget p k).goto p .idle)
  | .load e =>
    let x := s.disk (s.table e).key
    let t := ({ s with cache := update s.cache e x }.setValid e true).goto p .idle
    if x.type = 0 then some { t with panicked := some .ilock } else some t
  | .itrunc e => some ((s.iupdate e { s.cache e with blocks := 0 }).goto p (.iupdate e))
  | .iupdate e => some ((s.iupdate e { s.cache e with type := 0 }).goto p (.invalid e))
  | .invalid e => some ((s.setValid e false).goto p (.releasesleep e))
  | .releasesleep e => some ((s.setLock e none).goto p (.drop e))
  | .drop e => some ((s.drop p e).goto p .idle)

def callStep (s : Sys n) : Act n → Option (Sys n)
  | .ialloc p k type =>
    if (s.disk k).type = 0 ∧ type ≠ 0 then
      some ({ s with
        disk := update s.disk k ⟨type, 0, 0, (s.disk k).gen + 1⟩ }.goto p (.ialloc k))
    else none
  | .iget p k => if 0 < s.entries k then some (s.iget p k) else none
  | .idup p e =>
    if 0 < s.refs p e then
      some { s.setRefs p e (s.refs p e + 1) with table := s.table.idup e }
    else none
  | .ilock p e =>
    if 0 < s.refs p e then
      if (s.table e).ref < 1 then some { s with panicked := some .ilock }
      else if s.lock e = none then
        let t := s.setLock e (some p)
        some (if (s.table e).valid then t else t.goto p (.load e))
      else none
    else none
  | .update p e nlink blocks =>
    if s.lock e = some p then
      some { s.iupdate e { s.cache e with nlink := nlink, blocks := blocks } with
        entries := update s.entries (s.table e).key nlink }
    else none
  | .iunlock p e =>
    if s.lock e = some p then
      if (s.table e).ref < 1 then some { s with panicked := some .iunlock }
      else some (s.setLock e none)
    else none
  | .iput p e =>
    if 0 < s.refs p e ∧ s.lock e ≠ some p then
      if s.last e then
        -- `acquiresleep` with `itable.lock` held
        if s.lock e = none then some ((s.setLock e (some p)).goto p (.itrunc e))
        else some { s with panicked := some .schedLocks }
      else some (s.drop p e)
    else none
  | .run _ => none

def Act.proc : Act n → Fin n
  | .ialloc p _ _ => p
  | .iget p _ => p
  | .idup p _ => p
  | .ilock p _ => p
  | .update p _ _ _ => p
  | .iunlock p _ => p
  | .iput p _ => p
  | .run p => p

def step (s : Sys n) (a : Act n) : Option (Sys n) :=
  if s.panicked = none then
    match a with
    | .run p => runStep s p (s.pc p)
    | a => if s.pc a.proc = .idle then callStep s a else none
  else none

def boot (n : ℕ) (disk : ℕ × ℕ → Dinode) : Sys n where
  disk := disk
  entries k := if (disk k).type = 0 then 0 else (disk k).nlink
  table _ := ⟨0, 0, 0, false⟩
  lock _ := none
  cache _ := ⟨0, 0, 0, 0⟩
  refs _ _ := 0
  pc _ := .idle
  panicked := none

namespace Pc

/-- The entry that the process has locked for the call itself. -/
def locks : Pc → Option ℕ
  | .load e | .itrunc e | .iupdate e | .invalid e | .releasesleep e => some e
  | _ => none

/-- The entry whose inode is being freed and still has its type. -/
def frees : Pc → Option ℕ
  | .itrunc e | .iupdate e => some e
  | _ => none

def freed : Pc → Option ℕ
  | .invalid e | .releasesleep e | .drop e => some e
  | _ => none

attribute [grind] locks freed frees

end Pc

structure Inv (s : Sys n) : Prop where
  wf : s.table.Wf
  count : ∀ e, (s.table e).ref = ∑ p, s.refs p e
  exact : ∀ k, s.entries k = if (s.disk k).type = 0 then 0 else (s.disk k).nlink
  holder : ∀ e p, s.lock e = some p → 0 < s.refs p e
  locked : ∀ p e, (s.pc p).locks = some e → s.lock e = some p
  /-- A reference other than that of the `iput` that has freed the inode is to an allocated one. -/
  alive : ∀ p e, 0 < s.refs p e → (s.pc p).freed ≠ some e → (s.disk (s.table e).key).type ≠ 0
  freed : ∀ p e, (s.pc p).freed = some e → s.refs p e = 1
  frees : ∀ p e, (s.pc p).frees = some e → (s.table e).ref = 1 ∧ (s.table e).valid = true ∧
    (s.disk (s.table e).key).nlink = 0
  cached : ∀ e, 0 < (s.table e).ref → (s.table e).valid = true → (∀ p, s.pc p ≠ .invalid e) →
    s.cache e = s.disk (s.table e).key ∧ (s.cache e).type ≠ 0
  loading : ∀ p e, s.pc p = .load e → (s.table e).valid = false
  ready : ∀ e p, s.lock e = some p → (s.pc p).locks ≠ some e → (s.table e).valid = true
  /-- Between the two halves of `ialloc` only the `iput` that has freed the inode refers to it. -/
  fresh : ∀ p k, s.pc p = .ialloc k → (s.disk k).type ≠ 0 ∧ (s.disk k).nlink = 0 ∧
    ∀ q e, 0 < s.refs q e → (s.table e).key = k → (s.pc q).freed = some e
  only : ∀ p q k, s.pc p = .ialloc k → s.pc q = .ialloc k → p = q
  left : ∀ p e, s.pc p = .drop e → s.lock e ≠ some p
  safe : s.panicked = none ∨ s.panicked = some .iget

section references

variable {s : Sys n} {p q : Fin n} {e : ℕ}

theorem Inv.le_ref (h : Inv s) (p : Fin n) (e : ℕ) : s.refs p e ≤ (s.table e).ref := by
  rw [h.count]
  exact single_le_sum (f := fun q => s.refs q e) (fun _ _ => Nat.zero_le _) (mem_univ p)

theorem Inv.two_refs (h : Inv s) (hne : p ≠ q) (e : ℕ) :
    s.refs p e + s.refs q e ≤ (s.table e).ref := by
  rw [h.count, ← sum_pair (f := fun r => s.refs r e) hne]
  exact sum_le_sum_of_subset (subset_univ _)

theorem Inv.none_of_free (h : Inv s) (hfree : (s.table e).ref = 0) (p : Fin n) :
    s.refs p e = 0 := by
  have hle := h.le_ref p e
  omega

theorem Inv.ref_pos (h : Inv s) (p : Fin n) (e : ℕ) (hpos : 0 < s.refs p e) : 0 < (s.table e).ref :=
  lt_of_lt_of_le hpos (h.le_ref p e)

theorem Pc.locks_of_frees {c : Pc} (h : c.frees = some e) : c.locks = some e := by
  cases c <;> first | exact h | cases h

theorem Pc.freed_of_frees {c : Pc} (h : c.frees = some e) : c.freed = none := by
  cases c <;> first | rfl | cases h

theorem Inv.frees_only (h : Inv s) (hpos : 0 < s.refs p e) (hp : (s.pc p).frees ≠ some e)
    (q : Fin n) : (s.pc q).frees ≠ some e := by
  intro hq
  have hne : p ≠ q := by
    rintro rfl
    exact hp hq
  have htwo := h.two_refs hne e
  have hone := (h.frees q e hq).1
  have hqpos := h.holder e q (h.locked q e (Pc.locks_of_frees hq))
  omega

theorem count_setRefs (h : Inv s) {u : Table} {r : ℕ}
    (he : (u e).ref + s.refs p e = (s.table e).ref + r)
    (hother : ∀ e', e' ≠ e → (u e').ref = (s.table e').ref) (e' : ℕ) :
    (u e').ref = ∑ q, update s.refs p (update (s.refs p) e r) q e' := by
  by_cases hne : e' = e
  · subst hne
    have hsum := Counting.sum_change (S := univ) (p := p) (f := fun q => s.refs q e')
      (e := fun q => update s.refs p (update (s.refs p) e' r) q e')
      (mem_univ p) (fun q hq => by rw [update_of_ne hq])
    have hcount := h.count e'
    simp only [update_self] at hsum
    omega
  · rw [hother e' hne, h.count]
    refine sum_congr rfl fun q _ => ?_
    by_cases hq : q = p
    · subst hq
      rw [update_self, update_of_ne hne]
    · rw [update_of_ne hq]

theorem Inv.take (h : Inv s) {u : Table} {k : ℕ × ℕ} (hwf : u.Wf) (hkey : (u e).key = k)
    (href : (u e).ref = (s.table e).ref + 1) (hother : ∀ e', e' ≠ e → u e' = s.table e')
    (hold : 0 < (s.table e).ref → (u e).key = (s.table e).key ∧ (u e).valid = (s.table e).valid)
    (hnew : (s.table e).ref = 0 → (u e).valid = false)
    (hpc : s.pc p = .idle ∨ s.pc p = .ialloc k) (hone : ∀ q, s.pc q = .ialloc k → q = p)
    (htype : (s.disk k).type ≠ 0) (hfrees : ∀ q, (s.pc q).frees ≠ some e) :
    Inv ({ s.setRefs p e (s.refs p e + 1) with table := u }.goto p .idle) := by
  have hcount := count_setRefs (p := p) (e := e) h (u := u) (r := s.refs p e + 1) (by omega)
    (fun e' hne => by rw [hother e' hne])
  have hfree := h.none_of_free (e := e)
  have hle := h.le_ref
  have htwo (a b : Fin n) (hab : a ≠ b) := h.two_refs hab
  cases h
  constructor
  case wf | count | exact | safe => assumption
  case holder | locked | alive | freed | frees | cached | loading | ready | fresh | only | left =>
    simp only [Sys.goto, Sys.setRefs, update_apply]
    grind

/-- A process drops a reference that it may drop, or the one that it has freed the inode with. -/
theorem Inv.leave (h : Inv s) (hpos : 0 < s.refs p e) (hlock : s.lock e ≠ some p)
    (hpc : s.pc p = .idle ∨ s.pc p = .drop e) : Inv ((s.drop p e).goto p .idle) := by
  have hle := h.le_ref
  have htwo (a b : Fin n) (hab : a ≠ b) := h.two_refs hab
  have hu := s.table.drop_apply e
  have hcount := count_setRefs (p := p) (e := e) h (u := s.table.drop e) (r := s.refs p e - 1) (by
      have hself := (hu e).2.2
      have hlep := hle p e
      rw [if_pos rfl] at hself
      omega)
    (fun e' hne => by rw [(hu e').2.2, if_neg hne])
  have hwf := h.wf.drop (e := e)
  have hfrees :=
    h.frees_only hpos (by rcases hpc with hpc | hpc <;> rw [hpc] <;> exact fun hf => nomatch hf)
  cases h
  constructor
  case wf | count | exact | safe => assumption
  case holder | locked | alive | freed | frees | cached | loading | ready | fresh | only | left =>
    simp only [Sys.goto, Sys.drop, Sys.setRefs, update_apply, hu]
    grind

end references

section steps

variable {s : Sys n} {p : Fin n} {e : ℕ}

theorem Inv.ialloc (h : Inv s) {k : ℕ × ℕ} {type : ℕ} (hpc : s.pc p = .idle)
    (hfree : (s.disk k).type = 0) (htype : type ≠ 0) :
    Inv ({ s with
      disk := update s.disk k ⟨type, 0, 0, (s.disk k).gen + 1⟩ }.goto p (.ialloc k)) := by
  have hle : ∀ e, 0 < (s.table e).ref → ∃ q, 0 < s.refs q e := by
    intro e hpos
    by_contra hno
    push Not at hno
    have hzero : ∑ q, s.refs q e = 0 := sum_eq_zero fun q _ => Nat.le_zero.mp (hno q)
    have hcount := h.count e
    omega
  cases h
  constructor
  case wf | count | holder | safe => assumption
  case exact | locked | alive | freed | frees | cached | loading | ready | fresh | only | left =>
    simp only [Sys.goto, update_apply]
    grind

theorem Inv.lockEntry (h : Inv s) (hpc : s.pc p = .idle) (hpos : 0 < s.refs p e)
    (hlock : s.lock e = none) :
    Inv (if (s.table e).valid then s.setLock e (some p) else (s.setLock e (some p)).goto p
      (.load e)) := by
  have htable := h.le_ref p e
  cases h
  split_ifs with hvalid
  · constructor
    case wf | count | exact | alive | freed | frees | cached | loading | fresh | only | safe =>
      assumption
    case holder | locked | ready | left =>
      simp only [Sys.setLock, update_apply]
      grind
  · constructor
    case wf | count | exact | safe => assumption
    case holder | locked | alive | freed | frees | cached | loading | ready | fresh | only | left =>
      simp only [Sys.setLock, Sys.goto, update_apply]
      grind

theorem Inv.load (h : Inv s) (hpc : s.pc p = .load e) :
    (s.disk (s.table e).key).type ≠ 0 ∧ Inv (({ s with
      cache := update s.cache e (s.disk (s.table e).key) }.setValid e true).goto p .idle) := by
  have hlock := h.locked p e (by rw [hpc]; rfl)
  have hpos := h.holder e p hlock
  have htype := h.alive p e hpos (by rw [hpc]; exact fun hf => nomatch hf)
  refine ⟨htype, ?_⟩
  have hu := s.table.setValid_apply e true
  have hwf := h.wf.setValid (e := e) true
  have hcount := fun e' => (hu e').2.1.trans (h.count e')
  cases h
  constructor
  case wf | count | exact | holder | safe => assumption
  case locked | alive | freed | frees | cached | loading | ready | fresh | only | left =>
    simp only [Sys.goto, Sys.setValid, update_apply, hu]
    grind

theorem Inv.itrunc (h : Inv s) (hpc : s.pc p = .itrunc e) :
    Inv ((s.iupdate e { s.cache e with blocks := 0 }).goto p (.iupdate e)) := by
  have hlock := h.locked p e (by rw [hpc]; rfl)
  have hpos := h.holder e p hlock
  have hle := h.le_ref p e
  have hunique := h.wf.unique
  have href := h.ref_pos
  cases h
  constructor
  case wf | count | holder | safe => assumption
  case exact | locked | alive | freed | frees | cached | loading | ready | fresh | only | left =>
    simp only [Sys.goto, Sys.iupdate, update_apply]
    grind

theorem Inv.clear (h : Inv s) (hpc : s.pc p = .iupdate e) :
    Inv ((s.iupdate e { s.cache e with type := 0 }).goto p (.invalid e)) := by
  have hlock := h.locked p e (by rw [hpc]; rfl)
  have hpos := h.holder e p hlock
  have hle := h.le_ref p e
  have hunique := h.wf.unique
  have htwo (q : Fin n) (hq : q ≠ p) := h.two_refs hq e
  have href := h.ref_pos
  cases h
  constructor
  case wf | count | holder | safe => assumption
  case exact | locked | alive | freed | frees | cached | loading | ready | fresh | only | left =>
    simp only [Sys.goto, Sys.iupdate, update_apply]
    grind

theorem Inv.invalidate (h : Inv s) (hpc : s.pc p = .invalid e) :
    Inv ((s.setValid e false).goto p (.releasesleep e)) := by
  have hlock := h.locked p e (by rw [hpc]; rfl)
  have hfrees := h.frees_only (h.holder e p hlock) (by rw [hpc]; exact fun hf => nomatch hf)
  have hu := s.table.setValid_apply e false
  have hwf := h.wf.setValid (e := e) false
  have hcount := fun e' => (hu e').2.1.trans (h.count e')
  cases h
  constructor
  case wf | count | exact | holder | safe => assumption
  case locked | alive | freed | frees | cached | loading | ready | fresh | only | left =>
    simp only [Sys.goto, Sys.setValid, update_apply, hu]
    grind

theorem Inv.releasesleep (h : Inv s) (hpc : s.pc p = .releasesleep e) :
    Inv ((s.setLock e none).goto p (.drop e)) := by
  have hlock := h.locked p e (by rw [hpc]; rfl)
  cases h
  constructor
  case wf | count | exact | safe => assumption
  case holder | locked | alive | freed | frees | cached | loading | ready | fresh | only | left =>
    simp only [Sys.goto, Sys.setLock, update_apply]
    grind

theorem Inv.iunlock (h : Inv s) (hpc : s.pc p = .idle) (hlock : s.lock e = some p) :
    Inv (s.setLock e none) := by
  cases h
  constructor
  case wf | count | exact | alive | freed | frees | cached | loading | fresh | only | safe =>
    assumption
  case holder | locked | ready | left =>
    simp only [Sys.setLock, update_apply]
    grind

theorem Inv.update (h : Inv s) (hpc : s.pc p = .idle) (hlock : s.lock e = some p)
    (nlink blocks : ℕ) : Inv { s.iupdate e { s.cache e with nlink := nlink, blocks := blocks } with
      entries := update s.entries (s.table e).key nlink } := by
  have hpos := h.holder e p hlock
  have hfrees := h.frees_only hpos (by rw [hpc]; exact fun hf => nomatch hf)
  have hunique := h.wf.unique
  have href := h.ref_pos
  cases h
  constructor
  case wf | count | holder | locked | freed | loading | ready | only | left | safe => assumption
  case exact | alive | frees | cached | fresh =>
    simp only [Sys.iupdate, update_apply]
    grind

/-- Nobody else has locked an inode that nobody else refers to. -/
theorem Inv.lock_none (h : Inv s) (hpos : 0 < s.refs p e) (hlock : s.lock e ≠ some p)
    (hone : (s.table e).ref = 1) : s.lock e = none := by
  by_contra hheld
  obtain ⟨q, hq⟩ := Option.ne_none_iff_exists'.mp hheld
  have hne : q ≠ p := by
    rintro rfl
    exact hlock hq
  have hqpos := h.holder e q hq
  have htwo := h.two_refs hne e
  omega

theorem Inv.free (h : Inv s) (hpc : s.pc p = .idle) (hpos : 0 < s.refs p e)
    (hlock : s.lock e = none) (hlast : s.last e) :
    Inv ((s.setLock e (some p)).goto p (.itrunc e)) := by
  have hle := h.le_ref p e
  obtain ⟨hone, hvalid, hnlink⟩ := hlast
  have htwo (q : Fin n) (hq : q ≠ p) := h.two_refs hq e
  cases h
  constructor
  case wf | count | exact | safe => assumption
  case holder | locked | alive | freed | frees | cached | loading | ready | fresh | only | left =>
    simp only [Sys.setLock, Sys.goto, update_apply]
    grind

end steps

section runs

variable {s t : Sys n} {p : Fin n} {e : ℕ}

theorem goto_idle (hpc : s.pc p = .idle) : s.goto p .idle = s := by
  unfold Sys.goto
  rw [← hpc, update_eq_self]

theorem Inv.no_entry (h : Inv s) {k : ℕ × ℕ} (hpc : s.pc p = .idle ∨ s.pc p = .ialloc k) :
    Inv ({ s with panicked := some .iget }.goto p .idle) := by
  cases h
  constructor
  case wf | count | exact | holder => assumption
  case safe => exact .inr rfl
  case locked | alive | freed | frees | cached | loading | ready | fresh | only | left =>
    simp only [Sys.goto, update_apply]
    grind

theorem Inv.iget (h : Inv s) {k : ℕ × ℕ} (hpc : s.pc p = .idle ∨ s.pc p = .ialloc k)
    (hone : ∀ q, s.pc q = .ialloc k → q = p) (htype : (s.disk k).type ≠ 0)
    (hfrees : ∀ q e, (s.table e).key = k → (s.pc q).frees ≠ some e) :
    Inv ((s.iget p k).goto p .idle) := by
  unfold Sys.iget
  cases hget : s.table.iget k.1 k.2 with
  | none => exact h.no_entry hpc
  | some x =>
    obtain ⟨e, u⟩ := x
    obtain ⟨hkey, href, hother, hkeys⟩ := Table.iget_change hget
    obtain ⟨-, hcases⟩ := Table.iget_some hget
    refine h.take (h.wf.iget hget) hkey href hother (fun hpos => ⟨hkeys e hpos, ?_⟩)
      (fun hzero => ?_) hpc hone htype fun q hq => ?_
    · rcases hcases with ⟨-, -, rfl⟩ | ⟨hzero, -⟩
      · simp [Table.idup]
      · omega
    · rcases hcases with ⟨hpos, -⟩ | ⟨-, -, rfl⟩
      · omega
      · simp
    · have hpos : 0 < (s.table e).ref := by
        rw [(h.frees q e hq).1]
        exact Nat.one_pos
      exact hfrees q e ((hkeys e hpos).symm.trans hkey) hq

theorem Inv.iget_entry (h : Inv s) {k : ℕ × ℕ} (hpc : s.pc p = .idle) (hentry : 0 < s.entries k) :
    Inv (s.iget p k) := by
  have hexact := h.exact k
  have htype : (s.disk k).type ≠ 0 := by
    intro hzero
    rw [if_pos hzero] at hexact
    omega
  rw [if_neg htype] at hexact
  have higet := h.iget (p := p) (k := k) (.inl hpc) ?_ htype ?_
  · have hp : (s.iget p k).pc p = .idle := by
      unfold Sys.iget
      split <;> exact hpc
    rwa [goto_idle hp] at higet
  · intro q hq
    have hfresh := (h.fresh q k hq).2.1
    omega
  · rintro q e rfl hq
    have hfrees := (h.frees q e hq).2.2
    omega

theorem Inv.iget_ialloc (h : Inv s) {k : ℕ × ℕ} (hpc : s.pc p = .ialloc k) :
    Inv ((s.iget p k).goto p .idle) := by
  obtain ⟨htype, -, hstale⟩ := h.fresh p k hpc
  refine h.iget (.inr hpc) (fun q hq => h.only q p k hq hpc) htype ?_
  intro q e hk hq
  have hfreed := hstale q e (h.holder e q (h.locked q e (Pc.locks_of_frees hq))) hk
  rw [Pc.freed_of_frees hq] at hfreed
  cases hfreed

theorem Inv.idup (h : Inv s) (hpc : s.pc p = .idle) (hpos : 0 < s.refs p e) :
    Inv { s.setRefs p e (s.refs p e + 1) with table := s.table.idup e } := by
  have href := h.ref_pos p e hpos
  have hidle (c : Option ℕ) (hc : c = none) : c ≠ some e := by
    rw [hc]
    exact (Option.some_ne_none e).symm
  have hkey : (s.table.idup e e).key = (s.table e).key := by simp [Table.idup, Entry.key]
  have htake := h.take (p := p) (e := e) (u := s.table.idup e) (k := (s.table e).key)
    (h.wf.idup href) hkey (by simp [Table.idup]) (fun e' hne => by simp [Table.idup, hne])
    (fun _ => ⟨hkey, by simp [Table.idup]⟩) (fun hzero => absurd hzero (by omega)) (.inl hpc)
    (fun q hq => by
      have hfreed := (h.fresh q _ hq).2.2 p e hpos rfl
      rw [hpc] at hfreed
      cases hfreed)
    (h.alive p e hpos (hidle _ (by rw [hpc]; rfl)))
    (h.frees_only hpos (hidle _ (by rw [hpc]; rfl)))
  rwa [goto_idle (by exact hpc)] at htake

theorem runStep_inv (h : Inv s) (hstep : runStep s p (s.pc p) = some t) : Inv t := by
  generalize hpc : s.pc p = pc at hstep
  cases pc with
  | idle => cases hstep
  | ialloc k =>
    cases hstep
    exact h.iget_ialloc hpc
  | load e =>
    obtain ⟨htype, hinv⟩ := h.load hpc
    simp only [runStep, if_neg htype] at hstep
    cases hstep
    exact hinv
  | itrunc e =>
    cases hstep
    exact h.itrunc hpc
  | iupdate e =>
    cases hstep
    exact h.clear hpc
  | invalid e =>
    cases hstep
    exact h.invalidate hpc
  | releasesleep e =>
    cases hstep
    exact h.releasesleep hpc
  | drop e =>
    cases hstep
    have hone := h.freed p e (by rw [hpc]; rfl)
    exact h.leave (by omega) (h.left p e hpc) (.inr hpc)

theorem callStep_inv (h : Inv s) {a : Act n} (hpc : s.pc a.proc = .idle)
    (hstep : callStep s a = some t) : Inv t := by
  cases a <;> simp only [callStep, reduceCtorEq] at hstep
  case ialloc p k type =>
    split_ifs at hstep with hfree
    cases hstep
    exact h.ialloc hpc hfree.1 hfree.2
  case iget p k =>
    split_ifs at hstep with hentry
    cases hstep
    exact h.iget_entry hpc hentry
  case idup p e =>
    split_ifs at hstep with hpos
    cases hstep
    exact h.idup hpc hpos
  case ilock p e =>
    split_ifs at hstep with hpos href hlock hvalid
    · have hle := h.le_ref p e
      omega
    · cases hstep
      have hend := h.lockEntry hpc hpos hlock
      rwa [if_pos hvalid] at hend
    · cases hstep
      have hend := h.lockEntry hpc hpos hlock
      rwa [if_neg hvalid] at hend
  case update p e nlink blocks =>
    split_ifs at hstep with hlock
    cases hstep
    exact h.update hpc hlock nlink blocks
  case iunlock p e =>
    split_ifs at hstep with hlock href
    · have hle := h.le_ref p e
      have hpos := h.holder e p hlock
      omega
    · cases hstep
      exact h.iunlock hpc hlock
  case iput p e =>
    split_ifs at hstep with hcond hlast hfree
    · cases hstep
      exact h.free hpc hcond.1 hfree hlast
    · exact absurd (h.lock_none hcond.1 hcond.2 hlast.1) hfree
    · cases hstep
      have hleave := h.leave hcond.1 hcond.2 (.inl hpc)
      rwa [goto_idle (s := s.drop p e) (p := p) hpc] at hleave

theorem step_inv (h : Inv s) {a : Act n} (hstep : step s a = some t) : Inv t := by
  unfold step at hstep
  split_ifs at hstep
  split at hstep
  · exact runStep_inv h hstep
  · split_ifs at hstep with hpc
    exact callStep_inv h hpc hstep

theorem boot_inv (n : ℕ) (disk : ℕ × ℕ → Dinode) : Inv (boot n disk) := by
  constructor
  case wf => exact ⟨fun _ _ he => absurd he (lt_irrefl 0), fun _ he => absurd he (lt_irrefl 0)⟩
  case count => exact fun _ => Finset.sum_const_zero.symm
  case exact => exact fun _ => rfl
  all_goals simp [boot, Pc.locks, Pc.freed, Pc.frees]

/-- The copy of an inode in use is that on the disk, except at the end of an `iput` that frees. -/
theorem Inv.copy (h : Inv s) (hlock : s.lock e = some p) (hvalid : (s.table e).valid = true)
    (hpc : s.pc p ≠ .invalid e) : s.cache e = s.disk (s.table e).key ∧ (s.cache e).type ≠ 0 := by
  refine h.cached e (h.ref_pos p e (h.holder e p hlock)) hvalid fun q hq => ?_
  have hlockq := h.locked q e (by rw [hq]; rfl)
  rw [hlock] at hlockq
  exact hpc (Option.some.inj hlockq ▸ hq)

theorem type_update {d : ℕ × ℕ → Dinode} {k k' : ℕ × ℕ} {x : Dinode} (hx : x.type ≠ 0)
    (htype : (d k).type ≠ 0) : (update d k' x k).type ≠ 0 := by
  by_cases hk : k = k'
  · rw [hk, update_self]
    exact hx
  · rwa [update_of_ne hk]

theorem iget_disk (s : Sys n) (p : Fin n) (k : ℕ × ℕ) : (s.iget p k).disk = s.disk := by
  unfold Sys.iget
  split <;> rfl

theorem runStep_clears {k : ℕ × ℕ} (h : Inv s) (hstep : runStep s p (s.pc p) = some t)
    (htype : (s.disk k).type ≠ 0) (hclear : (t.disk k).type = 0) : ∃ e, s.pc p = .iupdate e ∧
    (s.table e).key = k := by
  have hsame (hdisk : t.disk = s.disk) : False := htype (by rw [← hdisk]; exact hclear)
  generalize hpc : s.pc p = pc at hstep
  cases pc with
  | idle => cases hstep
  | ialloc k' =>
    cases hstep
    exact (hsame (iget_disk s p k')).elim
  | load e =>
    simp only [runStep] at hstep
    split_ifs at hstep <;> cases hstep <;> exact (hsame rfl).elim
  | itrunc e =>
    cases hstep
    have hcopy := h.copy (h.locked p e (by rw [hpc]; rfl)) (h.frees p e (by rw [hpc]; rfl)).2.1
      (by rw [hpc]; exact fun heq => nomatch heq)
    exact absurd hclear (type_update hcopy.2 htype)
  | iupdate e =>
    cases hstep
    refine ⟨e, rfl, ?_⟩
    by_contra hk
    exact htype (by simpa [Sys.goto, Sys.iupdate, Ne.symm hk] using hclear)
  | invalid | releasesleep | drop =>
    cases hstep
    exact (hsame rfl).elim

theorem callStep_keeps {a : Act n} {k : ℕ × ℕ} (h : Inv s) (hpc : s.pc a.proc = .idle)
    (hstep : callStep s a = some t) (htype : (s.disk k).type ≠ 0) : (t.disk k).type ≠ 0 := by
  cases a <;> simp only [callStep, reduceCtorEq] at hstep
  case ialloc p k' type =>
    split_ifs at hstep with hfree
    cases hstep
    exact type_update hfree.2 htype
  case iget p k' =>
    split_ifs at hstep
    cases hstep
    rwa [iget_disk]
  case update p e nlink blocks =>
    split_ifs at hstep with hlock
    cases hstep
    have hidle : s.pc p = .idle := hpc
    have hcopy := h.copy hlock (h.ready e p hlock (by rw [hidle]; exact fun heq => nomatch heq))
      (by rw [hidle]; exact fun heq => nomatch heq)
    exact type_update hcopy.2 htype
  case idup | ilock | iunlock | iput => split_ifs at hstep <;> cases hstep <;> exact htype

theorem step_clears {a : Act n} {k : ℕ × ℕ} (h : Inv s) (hstep : step s a = some t)
    (htype : (s.disk k).type ≠ 0) (hclear : (t.disk k).type = 0) :
    ∃ p e, a = .run p ∧ s.pc p = .iupdate e ∧ (s.table e).key = k := by
  unfold step at hstep
  split_ifs at hstep
  split at hstep
  · obtain ⟨e, he⟩ := runStep_clears h hstep htype hclear
    exact ⟨_, e, rfl, he⟩
  · split_ifs at hstep with hpc
    exact absurd hclear (callStep_keeps h hpc hstep htype)

/-- In every run, (1) an inode has one entry of the table at most, with as many references as are
owed; (2) the lock that `iput` takes with `itable.lock` held is free; (3) blocks and type are given
up by a process that has the only reference to an inode without links; (4) who has locked an inode
sees what is on the disk, of the allocation that is on the disk. -/
theorem inode_life_cycle {disk : ℕ × ℕ → Dinode} {acts : List (Act n)}
    (hrun : run step (boot n disk) acts = some s) :
    ((∀ e e', 0 < (s.table e).ref → 0 < (s.table e').ref →
      (s.table e).key = (s.table e').key → e = e') ∧ ∀ e, (s.table e).ref = ∑ p, s.refs p e) ∧
    ((∀ p e, 0 < s.refs p e → s.lock e ≠ some p → s.last e → s.lock e = none) ∧
      s.panicked ≠ some .schedLocks) ∧
    ((∀ p e, s.pc p = .itrunc e ∨ s.pc p = .iupdate e → (s.table e).ref = 1 ∧ s.refs p e = 1 ∧
      (s.disk (s.table e).key).nlink = 0) ∧ ∀ a t k, step s a = some t → (s.disk k).type ≠ 0 →
      (t.disk k).type = 0 →
        ∃ p e, a = .run p ∧ s.pc p = .iupdate e ∧ (s.table e).key = k) ∧
    ((∀ p e, s.lock e = some p → (s.pc p).locks ≠ some e → (s.table e).valid = true ∧
      s.cache e = s.disk (s.table e).key ∧ (s.cache e).type ≠ 0) ∧ s.panicked ≠ some .ilock) := by
  have h : Inv s := run_invariant_all (fun _ _ _ h hstep => step_inv h hstep) (boot_inv n disk) hrun
  have hsafe (e : Panic) (he : e ≠ .iget) : s.panicked ≠ some e := by
    rcases h.safe with hnone | higet
    · rw [hnone]
      exact (Option.some_ne_none e).symm
    · rw [higet]
      exact fun hsome => he (Option.some.inj hsome).symm
  refine ⟨⟨h.wf.unique, h.count⟩,
    ⟨fun p e hpos hlock hlast => h.lock_none hpos hlock hlast.1, hsafe _ (by decide)⟩,
    ⟨fun p e hpc => ?_, fun a t k => step_clears h⟩, ⟨fun p e hlock hpc => ?_, hsafe _ (by decide)⟩⟩
  · have hfrees : (s.pc p).frees = some e := by rcases hpc with hpc | hpc <;> rw [hpc] <;> rfl
    have hpos := h.holder e p (h.locked p e (Pc.locks_of_frees hfrees))
    have hle := h.le_ref p e
    obtain ⟨hone, -, hnlink⟩ := h.frees p e hfrees
    exact ⟨hone, by omega, hnlink⟩
  · have hvalid := h.ready e p hlock hpc
    exact ⟨hvalid, h.copy hlock hvalid fun heq => hpc (by rw [heq]; rfl)⟩

/-- The first process makes an inode and unlinks it, and while it frees the inode the second one
allocates it again and locks it. -/
def reuse : List (Act 2) :=
  [.ialloc 0 (1, 1) 2, .run 0, .ilock 0 0, .run 0, .update 0 0 1 3, .iunlock 0 0,
    .ilock 0 0, .update 0 0 0 3, .iunlock 0 0, .iput 0 0, .run 0, .run 0,
    .ialloc 1 (1, 1) 2, .run 1, .run 0, .run 0, .ilock 1 0, .run 1]

theorem inode_life_cycle_reuse : ∃ s, run step (boot 2 fun _ => ⟨0, 0, 0, 0⟩) reuse = some s ∧
    s.pc 0 = .drop 0 ∧ s.lock 0 = some 1 ∧ (s.table 0).ref = 2 ∧ (s.cache 0).gen = 2 ∧
    s.cache 0 = s.disk (s.table 0).key := by
  have hrun : (run step (boot 2 fun _ => ⟨0, 0, 0, 0⟩) reuse).elim false (fun s => decide
      (s.pc 0 = .drop 0 ∧ s.lock 0 = some 1 ∧ (s.table 0).ref = 2 ∧ (s.cache 0).gen = 2 ∧
        s.pc 1 = .idle)) = true := by decide +kernel
  obtain ⟨s, hs, hd⟩ := exists_of_elim hrun
  obtain ⟨hpc, hlock, href, hgen, hidle⟩ := of_decide_eq_true hd
  obtain ⟨-, -, -, hlocked, -⟩ := inode_life_cycle hs
  have hcopy := hlocked 1 0 hlock (by rw [hidle]; exact fun heq => nomatch heq)
  exact ⟨s, hs, hpc, hlock, href, hgen, hcopy.2.1⟩

end runs

end Xv6.InodeLife
