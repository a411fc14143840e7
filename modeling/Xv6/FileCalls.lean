import Xv6.FileRefs

/-!
# Calls on open files

Every call keeps the reference counts exact, does not panic, and leaves the descriptor tables as
they were when it returns `-1`. The loops of `fork` and `exit` are inductions over the descriptors.
-/

namespace Xv6.FileTable

open Transition Function List

structure Inv (s : State) : Prop where
  ok : Ok s 0
  idle : ∀ p, (s.proc p).state ≠ .live → ∀ fd, (s.proc p).ofile fd = none

def After (s : State) (r : ℤ) (t : State) : Prop :=
  Inv t ∧ (r = -1 → ∀ q, (t.proc q).ofile = (s.proc q).ofile)

section descriptors

variable {s t : State} {p : Slot} {fd : Fd} {f : FileIx} {H : FileIx → ℤ}

theorem Inv.of_proc (h : Inv s) (hok : Ok t 0) (hproc : t.proc = s.proc) : Inv t := by
  refine ⟨hok, fun p hp => ?_⟩
  rw [hproc] at hp ⊢
  exact h.idle p hp

theorem After.of_proc (h : Inv s) (hok : Ok t 0) (hproc : t.proc = s.proc) (r : ℤ) :
    After s r t := ⟨h.of_proc hok hproc, fun _ q => by rw [hproc]⟩

theorem After.unchanged (h : Inv s) (r : ℤ) : After s r s := After.of_proc h h.ok rfl r

theorem Inv.of_live (h : Inv s) (hok : Ok t 0) (hlive : (s.proc p).state = .live)
    (hstate : (t.proc p).state = (s.proc p).state) (hother : ∀ q, q ≠ p → t.proc q = s.proc q) :
    Inv t := by
  refine ⟨hok, fun q hq => ?_⟩
  by_cases hqp : q = p
  · subst hqp
    exact absurd (hstate.trans hlive) hq
  · rw [hother q hqp] at hq ⊢
    exact h.idle q hq

theorem setOfile_other (s : State) (fd : Fd) (v : Option FileIx) {q : Slot} (hq : q ≠ p) :
    (s.setOfile p fd v).proc q = s.proc q := by simp [State.setOfile, State.setProc, hq]

theorem setOfile_state (s : State) (p : Slot) (fd : Fd) (v : Option FileIx) (q : Slot) :
    ((s.setOfile p fd v).proc q).state = (s.proc q).state := view_update Proc.state q

theorem setOfile_ofile (s : State) (p : Slot) (fd : Fd) (v : Option FileIx) (fd' : Fd) :
    ((s.setOfile p fd v).proc p).ofile fd' = if fd' = fd then v else (s.proc p).ofile fd' := by
  simp [State.setOfile, State.setProc, update_apply]

theorem setOfile_clear (hfree : (s.proc p).ofile fd = none) (ht : t.proc = s.proc)
    (v : Option FileIx) : ((t.setOfile p fd v).setOfile p fd none).proc = s.proc := by
  funext q
  by_cases hq : q = p
  · subst hq
    have hself : update (s.proc q).ofile fd none = (s.proc q).ofile := by
      rw [← hfree, update_eq_self]
    simp [State.setOfile, State.setProc, ht, hself]
  · rw [setOfile_other _ fd none hq, setOfile_other _ fd v hq, ht]

theorem setOfile_clear_two {fd' : Fd} (hfree : (s.proc p).ofile fd = none)
    (hfree' : (s.proc p).ofile fd' = none) (ht : t.proc = s.proc) (v w : Option FileIx) :
    ((((t.setOfile p fd v).setOfile p fd' w).setOfile p fd none).setOfile p fd' none).proc =
    s.proc := by
  funext q
  by_cases hq : q = p
  · subst hq
    have hself : update (update (update (update (s.proc q).ofile fd v) fd' w) fd none) fd' none =
        (s.proc q).ofile := by
      funext e
      simp only [update_apply]
      grind
    simp [State.setOfile, State.setProc, ht, hself]
  · rw [setOfile_other _ _ _ hq, setOfile_other _ _ _ hq, setOfile_other _ _ _ hq,
      setOfile_other _ _ _ hq, ht]

theorem setState_ofile (s : State) (p : Slot) (x : PState) (q : Slot) :
    ((s.setProc p { s.proc p with state := x }).proc q).ofile = (s.proc q).ofile :=
    view_update Proc.ofile q

theorem Ok.setState (h : Ok s H) (p : Slot) (x : PState) :
    Ok (s.setProc p { s.proc p with state := x }) H :=
  h.retype (h.bodies.of_procs _) (setState_ofile s p x) fun _ => rfl

theorem Inv.setState (h : Inv s) (hok : Ok t 0) (hother : ∀ q, q ≠ p → t.proc q = s.proc q)
    {x : PState}
    (hx : x ≠ .live → ∀ fd, (t.proc p).ofile fd = none) :
    Inv (t.setProc p { t.proc p with state := x }) := by
  refine ⟨hok.setState p x, fun q hq => ?_⟩
  rw [setState_ofile]
  by_cases hqp : q = p
  · subst hqp
    exact hx (by simpa [State.setProc] using hq)
  · simp only [State.setProc, update_of_ne hqp, hother q hqp] at hq
    rw [hother q hqp]
    exact h.idle q hq

theorem Inv.setOfile (h : Inv s) (hlive : (s.proc p).state = .live) (hok : Ok t 0)
    {v : Option FileIx} (hproc : t.proc = (s.setOfile p fd v).proc) : Inv t :=
  h.of_live hok hlive (by rw [hproc, setOfile_state])
    fun q hq => by rw [hproc, setOfile_other _ _ _ hq]

theorem held_slot (hfd : (s.proc p).ofile fd = some f) :
    0 < (s.slots f : ℤ) + (0 : FileIx → ℤ) f := by
  have hslots := slots_pos hfd
  rw [Pi.zero_apply]
  omega

/-- The process has no more of the descriptors `fds`, and nothing else has changed. -/
structure Emptied (p : Slot) (fds : List Fd) (s t : State) : Prop where
  other : ∀ q, q ≠ p → t.proc q = s.proc q
  state : (t.proc p).state = (s.proc p).state
  empty : ∀ fd, (fd ∈ fds ∨ (s.proc p).ofile fd = none) → (t.proc p).ofile fd = none

theorem Emptied.refl : Emptied p [] s s :=
    ⟨fun _ _ => rfl, rfl, fun _ hfd => hfd.resolve_left not_mem_nil⟩

theorem Emptied.skip {fds : List Fd} (h : Emptied p fds s t) (hfd : (s.proc p).ofile fd = none) :
    Emptied p (fd :: fds) s t := by
  refine ⟨h.other, h.state, fun fd' hfd' => h.empty fd' ?_⟩
  rcases hfd' with hmem | hnone
  · rcases mem_cons.mp hmem with rfl | hmem
    · exact .inr hfd
    · exact .inl hmem
  · exact .inr hnone

theorem Emptied.cons {fds : List Fd} {u : State} (h : Emptied p fds (t.setOfile p fd none) u)
    (hproc : t.proc = s.proc) : Emptied p (fd :: fds) s u := by
  refine ⟨fun q hq => ?_, ?_, fun fd' hfd' => h.empty fd' ?_⟩
  · rw [h.other q hq, setOfile_other _ _ _ hq, hproc]
  · rw [h.state, setOfile_state, hproc]
  · rw [setOfile_ofile, hproc]
    by_cases he : fd' = fd
    · exact .inr (if_pos he)
    · rw [if_neg he]
      exact hfd'.imp_left fun hmem => (mem_cons.mp hmem).resolve_left he

theorem argfd_eq {x : Fd × FileIx} {n : ℤ} (h : argfd p n s = some x) :
    (s.proc p).ofile x.1 = some x.2 := by
  unfold argfd at h
  split at h
  · obtain ⟨f, hf, rfl⟩ := Option.map_eq_some_iff.mp h
    exact hf
  · exact absurd h (Option.some_ne_none x).symm

end descriptors

section calls

variable {s : State} {p : Slot}

theorem sysDup_runs (h : Inv s) (hlive : (s.proc p).state = .live) (n : ℤ) :
    Runs (sysDup p n) s (After s) := by
  unfold sysDup
  refine Runs.reads ?_
  split
  · exact Runs.ret (After.unchanged h _)
  · rename_i f harg
    have hfd : (s.proc p).ofile _ = some f := argfd_eq harg
    refine Runs.bind (fdalloc_runs p h.ok) ?_
    rintro (_ | fd') t ht
    · subst ht
      exact Runs.ret (After.unchanged h _)
    · obtain ⟨hfree, rfl, hok⟩ := ht
      have hpos : 0 < ((s.setOfile p fd' (some f)).slots f : ℤ) + (0 - one f) f := by
        have hslots := slots_setOfile s p fd' (some f) f
        have hold := slots_pos hfd
        rw [hfree] at hslots
        simp [one] at hslots ⊢
        omega
      refine Runs.bind (filedup_runs hok hpos) ?_
      rintro _ t ⟨hok', hproc, -⟩
      exact Runs.ret ⟨h.setOfile hlive (by simpa using hok') hproc, fun hr => by omega⟩

theorem sysClose_runs (h : Inv s) (hlive : (s.proc p).state = .live) (n : ℤ) :
    Runs (sysClose p n) s (After s) := by
  unfold sysClose
  refine Runs.reads ?_
  split
  · exact Runs.ret (After.unchanged h _)
  · rename_i fd f harg
    have hfd := argfd_eq harg
    refine Runs.modifies ?_
    refine Runs.bind (fileclose_runs (h.ok.clearFd hfd) (held_pos _ le_rfl)) ?_
    rintro _ t ⟨hok, hproc, -⟩
    exact Runs.ret ⟨h.setOfile hlive (by simpa using hok) hproc, fun hr => by omega⟩

def Opened (ip : ℕ) (s : State) (r : ℤ) (t : State) : Prop :=
  if r = -1 then t.proc = s.proc ∧ ∀ f, (t.file f).inode = (s.file f).inode
  else (∀ q, (t.proc q).state = (s.proc q).state) ∧ ∃ f, (s.file f).inode = none ∧
    (t.file f).inode = some ip ∧ ∀ f', f' ≠ f → (t.file f').inode = (s.file f').inode

theorem sysOpen_opened (h : Inv s) (hlive : (s.proc p).state = .live) (ip : ℕ)
    (device readable writable : Bool) :
    Runs (sysOpen p (some (ip, device)) readable writable) s
    fun r t => After s r t ∧ Opened ip s r t := by
  have hnone {f : FileIx} (hfree : (s.file f).ref = 0) : (s.file f).inode = none := by
    simp [File.inode, h.ok.bodies.fresh f hfree]
  unfold sysOpen
  refine Runs.bind (filealloc_runs h.ok) ?_
  rintro (_ | f) t ht
  · subst ht
    exact Runs.ret ⟨After.unchanged h _, rfl, fun _ => rfl⟩
  obtain ⟨hok, hproc, hfree, href, htype, hother⟩ := ht
  refine Runs.bind (fdalloc_runs p hok) ?_
  rintro (_ | fd) u hu
  · -- no descriptor is left
    subst hu
    refine Runs.bind (fileclose_runs hok (held_pos _ le_rfl)) ?_
    rintro _ v ⟨hok', hproc', hother', hgone⟩
    refine Runs.ret ⟨After.of_proc h (by simpa using hok') (hproc'.trans hproc) _,
      hproc'.trans hproc, fun f' => ?_⟩
    by_cases hne : f' = f
    · subst hne
      rw [hgone, if_pos href, hnone hfree]
    · rw [hother' f' hne, hother f' hne]
  · obtain ⟨-, rfl, hok'⟩ := hu
    refine Runs.modifies ?_
    have hb := hok'.bodies.setInode (f := f) (x :=
      { (t.file f) with
        type := if device then .device else .inode
        ip := ip, readable := readable, writable := writable })
      (by change 0 < (t.file f).ref; omega) htype
      ⟨rfl, rfl, by cases device <;> simp, by cases device <;> simp⟩
    rw [add_sub_cancel_right] at hok'
    have hok'' := hok'.retype hb (fun _ => rfl) fun f' => by
      by_cases hne : f' = f
      · subst hne
        simp [State.setFile, State.setOfile, State.setProc]
      · simp [State.setFile, hne]
    have hprocs : (t.setOfile p fd (some f)).proc = (s.setOfile p fd (some f)).proc := by
      simp only [State.setOfile, State.setProc, hproc]
    refine Runs.ret ⟨⟨h.setOfile hlive hok'' hprocs, fun hr => by omega⟩, ?_⟩
    · rw [Opened, if_neg (by omega)]
      refine ⟨fun q => ?_, f, hnone hfree, ?_, fun f' hne => ?_⟩
      · exact (congrArg (fun procs => (procs q).state) hprocs).trans (setOfile_state _ _ _ _ q)
      · cases device <;> simp [State.setFile, File.inode]
      · simp only [State.setFile, update_of_ne hne]
        change (t.file f').inode = _
        rw [hother f' hne]

theorem sysOpen_runs (h : Inv s) (hlive : (s.proc p).state = .live) (ip : Option (ℕ × Bool))
    (readable writable : Bool) : Runs (sysOpen p ip readable writable) s (After s) := by
  rcases ip with _ | ⟨ip, device⟩
  · exact Runs.ret (After.unchanged h _)
  · exact (sysOpen_opened h hlive ip device readable writable).mono fun _ _ ht => ht.1

/-- The tail of the failing exits of `pipealloc` and `sys_pipe`. -/
theorem closeBoth_runs {α : Type} {r : α} {Q : α → State → Prop} {rf wf : FileIx}
    (h : Ok s (0 + one rf + one wf)) (hQ : ∀ t, Ok t 0 → t.proc = s.proc → Q r t) :
    Runs (do fileclose rf; fileclose wf; return r) s Q := by
  have hnn : 0 ≤ one wf := Pi.single_nonneg.mpr zero_le_one
  have hpos := held_pos s (H := one wf) (f := rf) (hnn rf)
  rw [zero_add, add_comm] at h
  refine Runs.bind (fileclose_runs h hpos) ?_
  rintro _ t ⟨ht, htproc, -⟩
  rw [add_sub_cancel_right, ← zero_add (one wf)] at ht
  refine Runs.bind (fileclose_runs ht (held_pos _ le_rfl)) ?_
  rintro _ u ⟨hu, huproc, -⟩
  rw [add_sub_cancel_right] at hu
  exact Runs.ret (hQ u hu (huproc.trans htproc))

theorem pipealloc_runs (h : Inv s) (page : Bool) :
    Runs (pipealloc page) s fun r t => t.proc = s.proc ∧
    match r with
    | none => Ok t 0
    | some (rf, wf) => Ok t (0 + one rf + one wf) := by
  unfold pipealloc
  refine Runs.bind (filealloc_runs h.ok) ?_
  rintro (_ | f0) t ht
  · subst ht
    exact Runs.ret ⟨rfl, h.ok⟩
  obtain ⟨hok, hproc, -, href, hnone, -⟩ := ht
  refine Runs.bind (filealloc_runs hok) ?_
  rintro (_ | f1) u hu
  · subst hu
    refine Runs.bind (fileclose_runs hok (held_pos _ le_rfl)) ?_
    rintro _ v ⟨hok', hproc', -⟩
    exact Runs.ret ⟨hproc'.trans hproc, by simpa using hok'⟩
  obtain ⟨hok', hproc', hfree, href', hnone', hother⟩ := hu
  have hne : f0 ≠ f1 := by
    rintro rfl
    omega
  have hkeep := hother f0 hne
  cases page
  · -- no page for the pipe
    refine closeBoth_runs hok' fun v hv hvproc => ⟨?_, hv⟩
    rw [hvproc, hproc', hproc]
  · refine Runs.modifies (Runs.ret ⟨hproc'.trans hproc, ?_⟩)
    have hb :=
      hok'.bodies.setPipe hne (by rw [hkeep]; omega) (by omega) (by rw [hkeep]; exact hnone) hnone'
        (x := { u.file f0 with
        type := .pipe, readable := true, writable := false, pipe := u.npipe })
      (y := { u.file f1 with
        type := .pipe, readable := false, writable := true, pipe := u.npipe })
      ⟨rfl, rfl, rfl, rfl, rfl⟩ ⟨rfl, rfl, rfl, rfl, rfl⟩
    refine hok'.retype hb (fun _ => rfl) fun f => ?_
    by_cases h1 : f = f1
    · subst h1
      simp [State.setFile]
    · by_cases h0 : f = f0
      · subst h0
        simp [State.setFile, h1]
      · simp [State.setFile, h0, h1]

theorem sysPipe_runs (h : Inv s) (hlive : (s.proc p).state = .live) (page copyout : Bool) :
    Runs (sysPipe p page copyout) s (After s) := by
  unfold sysPipe
  refine Runs.bind (pipealloc_runs h page) ?_
  rintro (_ | ⟨rf, wf⟩) t ⟨hproc, hok⟩
  · exact Runs.ret (After.of_proc h hok hproc _)
  refine Runs.bind (fdalloc_runs p hok) ?_
  rintro (_ | fd0) u hu
  · subst hu
    exact closeBoth_runs hok fun v hv hvproc => After.of_proc h hv (hvproc.trans hproc) _
  obtain ⟨hfree, rfl, hok'⟩ := hu
  rw [hproc] at hfree
  have hset : ((t.setOfile p fd0 (some rf)).proc p).ofile fd0 = some rf := by
    rw [setOfile_ofile, if_pos rfl]
  refine Runs.bind (fdalloc_runs p hok') ?_
  rintro (_ | fd1) u hu
  · subst hu
    have hclear := hok'.clearFd hset
    rw [sub_add_cancel] at hclear
    exact Runs.modifies (closeBoth_runs hclear fun v hv hvproc =>
      After.of_proc h hv (hvproc.trans (setOfile_clear hfree hproc _)) _)
  obtain ⟨hfree1, rfl, hok''⟩ := hu
  have hne : fd0 ≠ fd1 := by
    rintro rfl
    rw [hset] at hfree1
    exact Option.some_ne_none _ hfree1
  cases copyout
  · have hset0 : (((t.setOfile p fd0 (some rf)).setOfile p fd1 (some wf)).proc p).ofile fd0 =
        some rf := by rw [setOfile_ofile, if_neg hne, hset]
    have hset1 : ((((t.setOfile p fd0 (some rf)).setOfile p fd1 (some wf)).setOfile p fd0
        none).proc p).ofile fd1 = some wf := by
      rw [setOfile_ofile, if_neg hne.symm, setOfile_ofile, if_pos rfl]
    have hclear := (hok''.clearFd hset0).clearFd hset1
    have hH : 0 + one rf + one wf - one rf - one wf + one rf + one wf = 0 + one rf + one wf := by
      abel
    rw [hH] at hclear
    rw [setOfile_ofile, if_neg hne.symm, hproc] at hfree1
    exact Runs.modifies (closeBoth_runs hclear fun v hv hvproc =>
      After.of_proc h hv (hvproc.trans (setOfile_clear_two hfree hfree1 hproc _ _)) _)
  · rw [sub_sub, add_assoc, zero_add, sub_self] at hok''
    refine Runs.ret ⟨h.of_live hok'' hlive ?_ fun q hq => ?_, fun hr => ?_⟩
    · rw [setOfile_state, setOfile_state, hproc]
    · rw [setOfile_other _ _ _ hq, setOfile_other _ _ _ hq, hproc]
    · omega

end calls

section loops

variable {s : State} {p : Slot}

theorem dupAll_runs {np : Slot} (fds : List Fd) (hnodup : fds.Nodup) (h : Ok s 0)
    (hclear : ∀ fd ∈ fds, (s.proc np).ofile fd = none) :
    Runs (dupAll p np fds) s fun _ t => Ok t 0 ∧ (∀ q, q ≠ np → t.proc q = s.proc q) ∧
      (t.proc np).state = (s.proc np).state ∧ ∀ f, (t.file f).inode = (s.file f).inode := by
  induction fds generalizing s with
  | nil => exact Runs.ret ⟨h, fun _ _ => rfl, rfl, fun _ => rfl⟩
  | cons fd fds ih =>
    rw [nodup_cons] at hnodup
    refine Runs.reads ?_
    cases hfd : (s.proc p).ofile fd with
    | none =>
      simp only
      exact ih hnodup.2 h fun fd' hmem => hclear fd' (mem_cons_of_mem _ hmem)
    | some f =>
      simp only
      refine Runs.bind (filedup_runs h (held_slot hfd)) ?_
      rintro _ t ⟨hok, hproc, hinode⟩
      have hfree : (t.proc np).ofile fd = none := by
        rw [hproc]
        exact hclear fd mem_cons_self
      have hset := hok.setFd hfree f
      rw [add_sub_cancel_right] at hset
      refine Runs.modifies ((ih hnodup.2 hset ?_).mono ?_)
      · intro fd' hmem
        have hfd' : fd' ≠ fd := fun he => hnodup.1 (he ▸ hmem)
        rw [setOfile_ofile, if_neg hfd', hproc]
        exact hclear fd' (mem_cons_of_mem _ hmem)
      · rintro _ u ⟨hu, hother, hstate, hsame⟩
        refine ⟨hu, fun q hq => ?_, ?_, fun f' => (hsame f').trans (hinode f')⟩
        · rw [hother q hq, setOfile_other _ _ _ hq, hproc]
        · rw [hstate, setOfile_state, hproc]

theorem closeAll_runs (fds : List Fd) (h : Ok s 0) :
    Runs (closeAll p fds) s fun _ t => Ok t 0 ∧ Emptied p fds s t := by
  induction fds generalizing s with
  | nil => exact Runs.ret ⟨h, .refl⟩
  | cons fd fds ih =>
    refine Runs.reads ?_
    cases hfd : (s.proc p).ofile fd with
    | none => exact (ih h).mono fun _ _ ht => ⟨ht.1, ht.2.skip hfd⟩
    | some f =>
      refine Runs.bind (fileclose_runs h (held_slot hfd)) ?_
      rintro _ t ⟨hok, hproc, -⟩
      have hclear := hok.clearFd (by rw [hproc, hfd] : (t.proc p).ofile fd = some f)
      rw [sub_add_cancel] at hclear
      exact Runs.modifies ((ih hclear).mono fun _ _ hu => ⟨hu.1, hu.2.cons hproc⟩)

end loops

section runs

variable {s : State} {p : Slot}

theorem fork_runs (h : Inv s) (ok : Bool) : Runs (fork p ok) s (After s) := by
  unfold fork
  refine Runs.reads ?_
  split
  · exact Runs.ret (After.unchanged h _)
  rename_i np hnp
  have hunused : (s.proc np).state = .unused := by simpa using List.find?_some hnp
  cases ok
  · exact Runs.ret (After.unchanged h _)
  refine Runs.bind (dupAll_runs _ (nodup_finRange _) h.ok fun fd _ =>
    h.idle np (by rw [hunused]; decide) fd) ?_
  rintro _ t ⟨ht, hother, -⟩
  exact Runs.modifies (Runs.ret ⟨h.setState ht hother fun hx => absurd rfl hx, fun hr => by omega⟩)

theorem exit_runs (h : Inv s) : Runs (exit p) s (After s) := by
  unfold exit
  refine Runs.bind (closeAll_runs (p := p) _ h.ok) ?_
  rintro _ t ⟨ht, hclosed⟩
  exact Runs.modifies
    (Runs.ret ⟨h.setState ht hclosed.other fun _ fd => hclosed.empty fd (.inl (mem_finRange fd)),
      fun hr => by omega⟩)

theorem wait_runs (h : Inv s) {q : Slot} (hzombie : (s.proc q).state = .zombie) :
    Runs (wait q) s (After s) := by
  exact Runs.modifies
    (Runs.ret ⟨h.setState h.ok (fun _ _ => rfl) fun _ => h.idle q (by rw [hzombie]; decide),
      fun hr => by omega⟩)

theorem code_runs (h : Inv s) {c : Call} (hen : c.enabled s p = true) :
    Runs (c.code p) s (After s) := by
  cases c with
  | dup fd => exact sysDup_runs h (of_decide_eq_true hen) fd
  | close fd => exact sysClose_runs h (of_decide_eq_true hen) fd
  | «open» ip readable writable => exact sysOpen_runs h (of_decide_eq_true hen) ip readable writable
  | pipe page copyout => exact sysPipe_runs h (of_decide_eq_true hen) page copyout
  | fork ok => exact fork_runs h ok
  | exit => exact exit_runs h
  | wait q => exact wait_runs h (of_decide_eq_true hen).2

theorem step_after {x y : Sys} {a : Slot × Call} (h : Inv x.state)
    (hstep : step x a = some y) : y.panicked = none ∧ After x.state y.ret y.state := by
  unfold step at hstep
  split_ifs at hstep with hen
  obtain ⟨r, t, hrun, hafter⟩ := code_runs h hen.2
  rw [hrun] at hstep
  cases hstep
  exact ⟨rfl, hafter⟩

theorem boot_inv : Inv boot.state := by
  refine ⟨⟨⟨?_, ?_, ?_, ?_, ?_, ?_, ?_, ?_, ?_, ?_, ?_⟩, fun f => ?_⟩, fun _ _ _ => rfl⟩
  case refine_12 =>
    unfold State.slots
    simp [boot]
  all_goals simp [boot]

theorem reaches {acts : List (Slot × Call)} {x : Sys} (hrun : run step boot acts = some x) :
    x.panicked = none ∧ Inv x.state :=
  run_invariant_all (I := fun x => x.panicked = none ∧ Inv x.state) (fun _ _ _ h hstep =>
      have hafter := step_after h.2 hstep
      ⟨hafter.1, hafter.2.1⟩)
    ⟨rfl, boot_inv⟩ hrun

/-- After any calls the kernel has not panicked, every file has one reference for each descriptor
that points to it, a file that has been opened and has no reference left has been ended once, and
the page of a pipe has been freed exactly if no file is one of its ends. A call that fails leaves
the descriptors alone. -/
theorem file_references {acts : List (Slot × Call)} {x : Sys} (hrun : run step boot acts = some x) :
    x.panicked = none ∧ (∀ f, (x.state.file f).ref = x.state.slots f) ∧
    (∀ g, x.state.ended g = if x.state.opened g = true ∧
      ∀ f, 0 < (x.state.file f).ref → (x.state.file f).inst ≠ g then 1 else 0) ∧
      (∀ k < x.state.npipe,
      (∀ w, (x.state.pipe k).isOpen w = true ↔ ∃ f, 0 < (x.state.file f).ref ∧
        (x.state.file f).type = .pipe ∧ (x.state.file f).pipe = k ∧ (x.state.file f).writable = w) ∧
      (x.state.pipe k).freed = if ∀ w, (x.state.pipe k).isOpen w = false then 1 else 0) ∧
    ∀ a y, step x a = some y → y.panicked = none ∧
      (y.ret = -1 → ∀ p, (y.state.proc p).ofile = (x.state.proc p).ofile) := by
  obtain ⟨hpan, hinv⟩ := reaches hrun
  have hb := hinv.ok.bodies
  refine ⟨hpan, fun f => ?_, fun g => ?_, fun k hk => ⟨fun w => ⟨fun ho => ?_, ?_⟩, ?_⟩, ?_⟩
  · have hcount := hinv.ok.count f
    rw [Pi.zero_apply] at hcount
    omega
  · split_ifs with hg
    · exact hb.endedOne g hg.1 hg.2
    · refine hb.endedZero g ?_
      by_contra hno
      push Not at hno
      exact hg ⟨by simpa using hno.1, hno.2⟩
  · obtain ⟨f, ht, hf⟩ := hb.pipeHeld k w hk ho
    have href : (x.state.file f).ref ≠ 0 := fun h0 => by
      rw [hb.fresh f h0] at ht
      cases ht
    exact ⟨f, by omega, ht, hf⟩
  · rintro ⟨f, -, ht, rfl, rfl⟩
    exact (hb.pipeOpen f ht).2
  · rw [hb.freed k hk]
    refine if_congr ?_ rfl rfl
    simp [Pipe.isOpen]
  · intro a y hstep
    have hafter := step_after hinv hstep
    exact ⟨hafter.1, hafter.2.2⟩

def shareAndClose : List (Slot × Call) :=
  let parent : Slot := ⟨0, nproc_pos⟩
  let child : Slot := ⟨1, one_lt_nproc⟩
  [(parent, .open (some (2, false)) true true), (parent, .dup 0), (parent, .pipe true true),
    (parent, .fork true), (child, .close 3), (parent, .close 2), (parent, .close 3),
    (child, .exit), (parent, .pipe true false)]

theorem file_references_shareAndClose : ∃ x, run step boot shareAndClose = some x ∧ x.ret = -1 ∧
    x.panicked = none ∧ (∀ f, (x.state.file f).ref = x.state.slots f) ∧
    (x.state.pipe 0).freed = 1 ∧ (x.state.pipe 1).freed = 1 ∧
    (x.state.file ⟨0, by decide⟩).ref = 2 := by
  have hrun : (run step boot shareAndClose).elim false (fun x => decide (x.ret = -1 ∧
      (x.state.pipe 0).freed = 1 ∧ (x.state.pipe 1).freed = 1 ∧
      (x.state.file ⟨0, by decide⟩).ref = 2)) = true := by decide +kernel
  obtain ⟨x, hx, hd⟩ := exists_of_elim hrun
  obtain ⟨hret, hfirst, hsecond, hfile⟩ := of_decide_eq_true hd
  obtain ⟨hpan, href, -⟩ := file_references hx
  exact ⟨x, hx, hret, hpan, href, hfirst, hsecond, hfile⟩

end runs

end Xv6.FileTable
