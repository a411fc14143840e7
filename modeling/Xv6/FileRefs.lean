import Xv6.Counting
import Xv6.FileTable

/-!
# References to open files

`Ok s H` says that every file has one reference for each descriptor that points to it, up to `H`:
the references that a call holds in local variables, minus those of descriptors that it has already
set or not yet cleared. `Bodies` is about the files themselves: half-built files have no type, every
pipe end belongs to one file, and a file that is gone has been ended once. The functions of `file.c`
have one lemma each, and the calls are put together from them; between calls `H` is zero.
-/

namespace Xv6.FileTable

open Function

@[irreducible] def State.slots (s : State) (f : FileIx) : ℕ :=
  (Finset.univ.filter fun x : Slot × Fd => (s.proc x.1).ofile x.2 = some f).card

def Pipe.isOpen (x : Pipe) (writable : Bool) : Bool := if writable then x.writeopen else x.readopen

def File.inode (x : File) : Option ℕ :=
    if x.type = .inode ∨ x.type = .device then some x.ip else none

structure Bodies (s : State) : Prop where
  fresh : ∀ f, (s.file f).ref = 0 → (s.file f).type = .none
  instLt : ∀ f, 0 < (s.file f).ref → (s.file f).inst < s.ninst
  instInj : ∀ f f', 0 < (s.file f).ref → 0 < (s.file f').ref →
    (s.file f).inst = (s.file f').inst → f = f'
  openedIff : ∀ f, 0 < (s.file f).ref → (s.opened (s.file f).inst = true ↔ (s.file f).type ≠ .none)
  openedLt : ∀ g, s.opened g = true → g < s.ninst
  endedOne : ∀ g, s.opened g = true → (∀ f, 0 < (s.file f).ref → (s.file f).inst ≠ g) →
    s.ended g = 1
  endedZero : ∀ g, (s.opened g = false ∨ ∃ f, 0 < (s.file f).ref ∧ (s.file f).inst = g) →
    s.ended g = 0
  pipeOpen : ∀ f, (s.file f).type = .pipe → (s.file f).pipe < s.npipe ∧
    (s.pipe (s.file f).pipe).isOpen (s.file f).writable = true
  pipeInj : ∀ f f', (s.file f).type = .pipe → (s.file f').type = .pipe →
    (s.file f).pipe = (s.file f').pipe → (s.file f).writable = (s.file f').writable → f = f'
  pipeHeld : ∀ k w, k < s.npipe → (s.pipe k).isOpen w = true →
    ∃ f, (s.file f).type = .pipe ∧ (s.file f).pipe = k ∧ (s.file f).writable = w
  freed : ∀ k, k < s.npipe → (s.pipe k).freed =
    if (s.pipe k).readopen = false ∧ (s.pipe k).writeopen = false then 1 else 0

structure Ok (s : State) (H : FileIx → ℤ) : Prop where
  bodies : Bodies s
  count : ∀ f, ((s.file f).ref : ℤ) = s.slots f + H f

def one (f : FileIx) : FileIx → ℤ := Pi.single f 1

section slots

variable {s : State} {p : Slot} {fd : Fd} {f : FileIx} {H : FileIx → ℤ}

theorem slots_setOfile (s : State) (p : Slot) (fd : Fd) (v : Option FileIx) (f : FileIx) :
    (s.setOfile p fd v).slots f + (if (s.proc p).ofile fd = some f then 1 else 0) =
      s.slots f + if v = some f then 1 else 0 := by
  have hcard := Counting.card_filter_change (S := Finset.univ) (x := (p, fd))
    (A := fun x : Slot × Fd => (s.proc x.1).ofile x.2 = some f)
    (B := fun x => ((s.setOfile p fd v).proc x.1).ofile x.2 = some f) (Finset.mem_univ _) (by
      rintro ⟨q, e⟩ hne
      by_cases hq : q = p
      · subst hq
        have he : e ≠ fd := fun h => hne (by rw [h])
        simp [State.setOfile, State.setProc, he]
      · simp [State.setOfile, State.setProc, hq])
  have hself : ((s.setOfile p fd v).proc p).ofile fd = v := by
    simp [State.setOfile, State.setProc]
  simp only [hself] at hcard
  unfold State.slots
  exact hcard

theorem slots_pos (h : (s.proc p).ofile fd = some f) : 0 < s.slots f := by
  have hcard := Counting.card_filter_pos (S := Finset.univ) (x := (p, fd))
    (A := fun x : Slot × Fd => (s.proc x.1).ofile x.2 = some f) (Finset.mem_univ _) h
  unfold State.slots
  exact hcard

theorem Bodies.of_procs (h : Bodies s) (g : Slot → Proc) : Bodies { s with proc := g } :=
  ⟨h.fresh, h.instLt, h.instInj, h.openedIff, h.openedLt, h.endedOne, h.endedZero, h.pipeOpen,
    h.pipeInj, h.pipeHeld, h.freed⟩

theorem Ok.setFd (h : Ok s H) (hfree : (s.proc p).ofile fd = none) (f : FileIx) :
    Ok (s.setOfile p fd (some f)) (H - one f) := by
  refine ⟨h.bodies.of_procs _, fun f' => ?_⟩
  have hslots := slots_setOfile s p fd (some f) f'
  have hcount := h.count f'
  rw [hfree] at hslots
  change ((s.file f').ref : ℤ) = _
  by_cases hf : f' = f
  · subst hf
    simp [one] at hslots ⊢
    omega
  · have hne : f ≠ f' := Ne.symm hf
    simp [one, hf, hne] at hslots ⊢
    omega

theorem Ok.clearFd (h : Ok s H) (hset : (s.proc p).ofile fd = some f) :
    Ok (s.setOfile p fd none) (H + one f) := by
  refine ⟨h.bodies.of_procs _, fun f' => ?_⟩
  have hslots := slots_setOfile s p fd none f'
  have hcount := h.count f'
  rw [hset] at hslots
  change ((s.file f').ref : ℤ) = _
  by_cases hf : f' = f
  · subst hf
    simp [one] at hslots ⊢
    omega
  · have hne : f ≠ f' := Ne.symm hf
    simp [one, hf, hne] at hslots ⊢
    omega

end slots

section files

variable {s : State} {f : FileIx} {H : FileIx → ℤ}

theorem Bodies.setRef (h : Bodies s) (hpos : 0 < (s.file f).ref) {r : ℕ} (hr : 0 < r) :
    Bodies (s.setFile f { s.file f with ref := r }) := by
  cases h
  constructor <;> simp only [State.setFile, update_apply] <;> grind

theorem Bodies.alloc (h : Bodies s) (hfree : (s.file f).ref = 0) :
    Bodies { s.setFile f { s.file f with ref := 1, inst := s.ninst } with
      ninst := s.ninst + 1 } := by
  have hnone := h.fresh f hfree
  cases h
  constructor <;> simp only [State.setFile, update_apply] <;> grind

theorem Bodies.setInode (h : Bodies s) (hpos : 0 < (s.file f).ref)
    (hnone : (s.file f).type = .none) {x : File} (hx : x.ref = (s.file f).ref ∧
      x.inst = (s.file f).inst ∧ x.type ≠ .none ∧ x.type ≠ .pipe) :
    Bodies { s.setFile f x with
      opened := update s.opened (s.file f).inst true } := by
  cases h
  constructor <;> simp only [State.setFile, update_apply] <;> grind

theorem Bodies.setPipe {f' : FileIx} (h : Bodies s) (hne : f ≠ f') (hpos : 0 < (s.file f).ref)
    (hpos' : 0 < (s.file f').ref) (hnone : (s.file f).type = .none)
    (hnone' : (s.file f').type = .none) {x y : File}
    (hx : x.ref = (s.file f).ref ∧ x.inst = (s.file f).inst ∧ x.type = .pipe ∧ x.writable = false ∧
      x.pipe = s.npipe)
    (hy : y.ref = (s.file f').ref ∧ y.inst = (s.file f').inst ∧ y.type = .pipe ∧ y.writable = true ∧
      y.pipe = s.npipe) :
    Bodies { (s.setFile f x).setFile f' y with
      pipe := update s.pipe s.npipe ⟨true, true, 0⟩
      npipe := s.npipe + 1
      opened := update (update s.opened (s.file f).inst true) (s.file f').inst true } := by
  cases h
  constructor <;> simp only [State.setFile, update_apply] <;> grind [Pipe.isOpen]

theorem Bodies.closeNone (h : Bodies s) (hpos : 0 < (s.file f).ref)
    (hnone : (s.file f).type = .none) :
    Bodies (s.setFile f { s.file f with ref := 0, type := .none }) := by
  cases h
  constructor <;> simp only [State.setFile, update_apply] <;> grind

theorem Bodies.closeInode (h : Bodies s) (hpos : 0 < (s.file f).ref)
    (hsome : (s.file f).type ≠ .none) (hpipe : (s.file f).type ≠ .pipe) :
    Bodies ((s.setFile f { s.file f with ref := 0, type := .none }).iput (s.file f)) := by
  have hzero : s.ended (s.file f).inst = 0 := h.endedZero _ (.inr ⟨f, hpos, rfl⟩)
  cases h
  constructor <;> simp only [State.setFile, State.iput, update_apply] <;> grind

theorem pipeclose_isOpen (s : State) (ff : File) (k : ℕ) (w : Bool) :
    ((s.pipeclose ff).pipe k).isOpen w =
      if k = ff.pipe ∧ w = ff.writable then false else (s.pipe k).isOpen w := by
  by_cases hk : k = ff.pipe
  · subst hk
    cases w <;> cases hw : ff.writable <;> simp [State.pipeclose, Pipe.isOpen, hw] <;>
      split_ifs <;> simp
  · simp [State.pipeclose, hk]

theorem pipeclose_freed (s : State) (ff : File) (hopen : (s.pipe ff.pipe).isOpen ff.writable = true)
    (k : ℕ) (hfreed : (s.pipe k).freed =
      if (s.pipe k).readopen = false ∧ (s.pipe k).writeopen = false then 1 else 0) :
    ((s.pipeclose ff).pipe k).freed = if ((s.pipeclose ff).pipe k).readopen = false ∧
      ((s.pipeclose ff).pipe k).writeopen = false then 1 else 0 := by
  by_cases hk : k = ff.pipe
  · subst hk
    cases hw : ff.writable <;> simp only [hw, Pipe.isOpen] at hopen <;>
      simp [State.pipeclose, hw] <;> split_ifs <;> simp_all
  · simpa [State.pipeclose, hk] using hfreed

theorem Bodies.closePipe (h : Bodies s) (hpos : 0 < (s.file f).ref)
    (hpipe : (s.file f).type = .pipe) :
    Bodies ((s.setFile f { s.file f with ref := 0, type := .none }).pipeclose (s.file f)) := by
  let t := s.setFile f { s.file f with ref := 0, type := .none }
  have hother {f' : FileIx} (hne : f' ≠ f) : t.file f' = s.file f' := by
    simp [t, State.setFile, hne]
  have hne {f' : FileIx} (ht : (t.file f').type = .pipe) : f' ≠ f := by
    rintro rfl
    simp [t, State.setFile] at ht
  have hzero : s.ended (s.file f).inst = 0 := h.endedZero _ (.inr ⟨f, hpos, rfl⟩)
  obtain ⟨hlt, hopen⟩ := h.pipeOpen f hpipe
  have hrest := h
  cases hrest
  constructor
  case pipeOpen =>
      intro f' ht
      have hf := hne ht
      change (t.file f').pipe < s.npipe ∧ ((t.pipeclose (s.file f)).pipe (t.file f').pipe).isOpen
        (t.file f').writable = true
      have ht' : (s.file f').type = .pipe := by
        rw [← hother hf]
        exact ht
      rw [pipeclose_isOpen, hother hf, if_neg]
      · exact h.pipeOpen f' ht'
      · rintro ⟨hp, hw⟩
        exact hf (h.pipeInj f' f ht' hpipe hp hw)
  case pipeHeld =>
      intro k w hk ho
      change ((t.pipeclose (s.file f)).pipe k).isOpen w = true at ho
      rw [pipeclose_isOpen] at ho
      split_ifs at ho with hend
      obtain ⟨f', ht, hp, hw⟩ := h.pipeHeld k w hk ho
      have hf : f' ≠ f := by
        rintro rfl
        exact hend ⟨hp.symm, hw.symm⟩
      refine ⟨f', ?_⟩
      change (t.file f').type = .pipe ∧ (t.file f').pipe = k ∧ (t.file f').writable = w
      rw [hother hf]
      exact ⟨ht, hp, hw⟩
  case freed =>
      intro k hk
      exact pipeclose_freed t (s.file f) hopen k (h.freed k hk)
  all_goals
    simp only [State.setFile, State.pipeclose, update_apply]
    grind

end files

section functions

variable {s : State} {f : FileIx} {H : FileIx → ℤ}

theorem slots_congr {t : State} (h : ∀ p, (t.proc p).ofile = (s.proc p).ofile) (f : FileIx) :
    t.slots f = s.slots f := by
  unfold State.slots
  simp only [h]

theorem Ok.ref_pos (h : Ok s H) (hpos : 0 < s.slots f + H f) : 0 < (s.file f).ref := by
  have hcount := h.count f
  omega

theorem held_pos (s : State) (hH : 0 ≤ H f) : 0 < s.slots f + (H + one f) f := by
  simp only [one, Pi.add_apply, Pi.single_eq_same]
  omega

theorem Ok.change (h : Ok s H) {t : State} (hb : Bodies t) (hproc : t.proc = s.proc) {d : ℤ}
    (hf : ((t.file f).ref : ℤ) = (s.file f).ref + d)
    (hother : ∀ f', f' ≠ f → (t.file f').ref = (s.file f').ref) :
    Ok t (H + d • one f) := by
  refine ⟨hb, fun f' => ?_⟩
  have hcount := h.count f'
  rw [slots_congr (s := s) fun p => by rw [hproc]]
  by_cases hne : f' = f
  · subst hne
    simp only [one, Pi.add_apply, Pi.smul_apply, Pi.single_eq_same, smul_eq_mul]
    omega
  · simp only [one, Pi.add_apply, Pi.smul_apply, Pi.single_eq_of_ne hne, smul_zero, add_zero]
    rw [hother f' hne]
    exact hcount

theorem Ok.retype (h : Ok s H) {t : State} (hb : Bodies t)
    (hofile : ∀ p, (t.proc p).ofile = (s.proc p).ofile)
    (href : ∀ f, (t.file f).ref = (s.file f).ref) : Ok t H := by
  refine ⟨hb, fun f => ?_⟩
  rw [href, slots_congr hofile]
  exact h.count f

theorem filealloc_runs (h : Ok s H) : Runs filealloc s fun r t => match r with
    | none => t = s
    | some f => Ok t (H + one f) ∧ t.proc = s.proc ∧ (s.file f).ref = 0 ∧ (t.file f).ref = 1 ∧
        (t.file f).type = .none ∧ ∀ f', f' ≠ f → t.file f' = s.file f' := by
  unfold filealloc
  refine Runs.reads ?_
  split
  · exact Runs.ret rfl
  · rename_i f hf
    have hfree : (s.file f).ref = 0 := by simpa using List.find?_some hf
    refine Runs.writes_bind (Runs.ret ⟨?_, rfl, hfree, ?_, ?_, fun f' hne => ?_⟩)
    · have hok := h.change (f := f) (d := 1) (h.bodies.alloc hfree) rfl
        (by simp [State.setFile, hfree]) (fun f' hne => by simp [State.setFile, hne])
      rwa [one_smul] at hok
    · simp [State.setFile]
    · simpa [State.setFile] using h.bodies.fresh f hfree
    · simp [State.setFile, hne]

theorem filedup_runs (h : Ok s H) (hpos : 0 < s.slots f + H f) :
    Runs (filedup f) s fun _ t => Ok t (H + one f) ∧ t.proc = s.proc ∧ ∀ f',
    (t.file f').inode = (s.file f').inode := by
  have href := h.ref_pos hpos
  unfold filedup
  refine Runs.reads ?_
  rw [if_neg (by omega)]
  refine Runs.writes ⟨?_, rfl, fun f' => ?_⟩
  · have hok := h.change (f := f) (d := 1) (h.bodies.setRef href (Nat.succ_pos (s.file f).ref)) rfl
      (by simp [State.setFile]) (fun f' hne => by simp [State.setFile, hne])
    rwa [one_smul] at hok
  · by_cases hne : f' = f
    · subst hne
      simp [State.setFile, File.inode]
    · simp [State.setFile, hne]

/-- What `fileclose` does to the other files and, with the last reference, to the inode of `f`. -/
def Closed (f : FileIx) (s t : State) : Prop :=
  (∀ f', f' ≠ f → t.file f' = s.file f') ∧
    (t.file f).inode = if (s.file f).ref = 1 then none else (s.file f).inode

theorem fileclose_runs (h : Ok s H) (hpos : 0 < s.slots f + H f) :
    Runs (fileclose f) s fun _ t => Ok t (H - one f) ∧ t.proc = s.proc ∧ Closed f s t := by
  have href := h.ref_pos hpos
  unfold fileclose
  refine Runs.reads ?_
  rw [if_neg (by omega)]
  have hset {t : State} {x : File} (hb : Bodies t) (hproc : t.proc = s.proc)
      (hfile : t.file = update s.file f x) (hx : x.ref + 1 = (s.file f).ref)
      (hinode : x.inode = if (s.file f).ref = 1 then none else (s.file f).inode) :
      Ok t (H - one f) ∧ t.proc = s.proc ∧ Closed f s t := by
    have hother (f' : FileIx) (hne : f' ≠ f) : t.file f' = s.file f' := by
      rw [hfile, update_of_ne hne]
    have hself : t.file f = x := by rw [hfile, update_self]
    have hok := h.change (f := f) (d := -1) hb hproc (by rw [hself]; omega)
      (fun f' hne => by rw [hother f' hne])
    rw [neg_smul, one_smul, ← sub_eq_add_neg] at hok
    exact ⟨hok, hproc, hother, by rw [hself, hinode]⟩
  by_cases hlast : 0 < (s.file f).ref - 1
  · rw [if_pos hlast]
    refine Runs.writes (hset (h.bodies.setRef href hlast) rfl rfl (by dsimp only; omega) ?_)
    rw [if_neg (by omega)]
    rfl
  · rw [if_neg hlast]
    have hone : (s.file f).ref = 1 := by omega
    have hgone {x : File} (hx : x.type = .none) :
        x.inode = if (s.file f).ref = 1 then none else (s.file f).inode := by
      simp [File.inode, hx, hone]
    cases htype : (s.file f).type
    case none =>
      exact Runs.writes (hset (h.bodies.closeNone href htype) rfl rfl (by simp [hone]) (hgone rfl))
    case pipe =>
      exact Runs.writes (hset (h.bodies.closePipe href htype) rfl rfl (by simp [hone]) (hgone rfl))
    case inode =>
      exact Runs.writes (hset (h.bodies.closeInode href (by simp [htype]) (by simp [htype])) rfl rfl
        (by simp [hone]) (hgone rfl))
    case device =>
      exact Runs.writes (hset (h.bodies.closeInode href (by simp [htype]) (by simp [htype])) rfl rfl
        (by simp [hone]) (hgone rfl))

theorem fdalloc_runs (p : Slot) (h : Ok s H) : Runs (fdalloc p f) s fun r t => match r with
    | none => t = s
    | some fd => (s.proc p).ofile fd = none ∧ t = s.setOfile p fd (some f) ∧ Ok t (H - one f) := by
  unfold fdalloc
  refine Runs.reads ?_
  split
  · exact Runs.ret rfl
  · rename_i fd hfd
    have hfree : (s.proc p).ofile fd = none := by simpa using List.find?_some hfd
    exact Runs.writes_bind (Runs.ret ⟨hfree, rfl, h.setFd hfree f⟩)

end functions

end Xv6.FileTable
