import Mathlib.Data.List.TakeWhile
import Xv6.LinkMachine

/-!
# The calls refine the machine of links

`Sim` says of a section that it keeps the base invariant and makes a step of the machine of links,
or stops with a panic that the machine accounts for. With it every call is safe for every property
that the steps of the machine keep: `Rules` collects what has to be shown of such a property, once
and for all calls.
-/

namespace Xv6.Fs

open Act Threads Function List Finset Multiset

def sysOf (s : State) (G : ℕ → Ghost) : Sys := ⟨s.disk.view, G, s.procs⟩

/-- The panics that the view explains: an inode without a type is locked, or one without links is
found in a directory. -/
def Excused (v : View) (g : Ghost) (e : Panic) : Prop :=
  e.Minor ∨ (e = .ilockNoType ∧ ∃ i ∈ g.refs, v.type i = .none) ∨
    (e = .unlinkNlink ∧ ∃ d k i, g.phase = .found d k i ∧ v.nlink i < 1)

def Sim {α : Type} (sb : Super) (n p : ℕ) (x : Act α) (g : Ghost) (Q : α → Ghost → Prop) : Prop :=
  ∀ s G, Base sb n s G → (sysOf s G).Ok → G p = g →
    Outcome (Excused s.disk.view g) (fun r t => ∃ g' proc',
      Base sb n t (update G p g') ∧ t.procs = update s.procs p proc' ∧
      Step sb (sysOf s G) p t.disk.view g' proc' ∧ Q r g') (x s)

/-- A property of the machine that its steps keep, under the condition `C` on the steps and with
the property `P` of each, and that rules out the panics of `Bad`. -/
structure Rules (sb : Super) (n : ℕ) (L : Sys → Prop) (C P : State → State → Prop)
    (Bad : Panic → Prop) : Prop where
  step : ∀ {s t : State} {G : ℕ → Ghost} {p : ℕ} {g' : Ghost} {proc' : Proc}, Base sb n s G →
    (sysOf s G).Ok → L (sysOf s G) → Base sb n t (update G p g') →
    t.procs = update s.procs p proc' → Step sb (sysOf s G) p t.disk.view g' proc' →
    C s t → P s t ∧ L (sysOf t (update G p g'))
  minor : ∀ e, e.Minor → ¬ Bad e
  noType : ∀ {s : State} {G : ℕ → Ghost} {p i : ℕ}, Base sb n s G → (sysOf s G).Ok →
    L (sysOf s G) → i ∈ (G p).refs → s.disk.view.type i = .none → ¬ Bad .ilockNoType
  noLink : ∀ {s : State} {G : ℕ → Ghost} {p d k i : ℕ}, Base sb n s G → (sysOf s G).Ok →
    L (sysOf s G) → (G p).phase = .found d k i → s.disk.view.nlink i < 1 → ¬ Bad .unlinkNlink

def Inv (sb : Super) (n : ℕ) (L : Sys → Prop) (s : State) (G : ℕ → Ghost) : Prop :=
  Base sb n s G ∧ (sysOf s G).Ok ∧ L (sysOf s G)

variable {sb : Super} {n p : ℕ} {L : Sys → Prop} {C P : State → State → Prop}
  {Bad : Panic → Prop} {g : Ghost}

theorem sysOf_after {s t : State} {G : ℕ → Ghost} {g' : Ghost} {proc' : Proc}
    (hprocs : t.procs = update s.procs p proc') :
    sysOf t (update G p g') = (sysOf s G).after p t.disk.view g' proc' := by
  simp only [sysOf, Sys.after, hprocs]

theorem Rules.safe {α : Type} (R : Rules sb n L C P Bad) {x : Act α} {Q : α → Ghost → Prop}
    (h : Sim sb n p x g Q) : Safe (Inv sb n L) C P Bad p (atom x) g Q := by
  intro s G hI hg
  obtain ⟨hb, hok, hL⟩ := hI
  have hout := h s G hb hok hg
  refine ⟨fun e he => ?_, fun r t hr hC => ?_⟩
  · rw [he] at hout
    rcases hout with hminor | ⟨rfl, i, hi, hty⟩ | ⟨rfl, d, k, i, hph, hlink⟩
    · exact R.minor e hminor
    · exact R.noType hb hok hL (by rwa [hg]) hty
    · exact R.noLink hb hok hL (by rwa [hg]) hlink
  · rw [hr] at hout
    obtain ⟨g', proc', hb', hprocs, hstep, hQ⟩ := hout
    obtain ⟨hP, hL'⟩ := R.step hb hok hL hb' hprocs hstep hC
    refine ⟨hP, g', ⟨hb', ?_, hL'⟩, hQ⟩
    rw [sysOf_after hprocs]
    exact hstep.ok hok

section sections

theorem Base.at {s : State} {G : ℕ → Ghost} (h : Base sb n s G) (hg : G p = g) :
    At sb n G p g s.disk.view s.procs s := by
  refine ⟨?_, rfl, rfl⟩
  rwa [← hg, update_eq_self]

theorem Sim.of {α : Type} {x : Act α} {Q : α → Ghost → Prop} (h : ∀ a : Sys, a.Ok → a.ghost p = g →
      Triple (At sb n a.ghost p g a.view a.procs) x (Excused a.view g) fun r t =>
        ∃ v' g' proc', At sb n a.ghost p g' v' (update a.procs p proc') t ∧
          Step sb a p v' g' proc' ∧ Q r g') :
    Sim sb n p x g Q := by
  intro s G hb hok hg
  have hout := h (sysOf s G) hok hg s (hb.at hg)
  generalize (x s : Option (Except Panic (α × State))) = r at hout
  rcases r with _ | e | ⟨a, t⟩
  · exact trivial
  · exact hout
  · obtain ⟨v', g', proc', hat', hstep, hQ⟩ := hout
    refine ⟨g', proc', hat'.1, hat'.2.2, ?_, hQ⟩
    rw [hat'.2.1]
    exact hstep

theorem Sim.of_triple {α : Type} {x : Act α} {Q : α → Ghost → Prop} {E : View → Panic → Prop}
    {B : (ℕ → Ghost) → View → (ℕ → Proc) → α → State → Prop}
    (h : ∀ {G v w}, Triple (At sb n G p g v w) x (E v) (B G v w))
    (hE : ∀ {v e}, E v e → Excused v g e)
    (hB : ∀ a : Sys, a.Ok → a.ghost p = g → ∀ r t, B a.ghost a.view a.procs r t →
      ∃ v' g' proc', At sb n a.ghost p g' v' (update a.procs p proc') t ∧
      Step sb a p v' g' proc' ∧ Q r g') :
    Sim sb n p x g Q :=
  Sim.of fun a hok hg => h.conseq (fun _ => hE) (hB a hok hg)

variable {G : ℕ → Ghost} {g' : Ghost} {v : View} {w : ℕ → Proc} {s : State} {i : ℕ}

theorem At.same (h : At sb n G p g v w s) : At sb n G p g v (update w p (w p)) s := by
  rwa [update_eq_self]

theorem At.phase (h : At sb n G p g v w s) (hp : p < n) (ph : Phase) :
    At sb n G p { g with phase := ph } v w s := by
  have hb := h.1
  exact ⟨hb.change hp hb.good hb.coherent (fun _ _ => rfl) (fun _ => le_rfl)
    (fun j => hb.lock_update j { g with phase := ph } rfl) hb.held_self hb.held_other, h.2⟩

theorem NoType.excused (hi : i ∈ g.refs) {e : Panic} (h : NoType v i e) : Excused v g e := by
  rcases h with hminor | ⟨rfl, hty⟩
  · exact .inl hminor
  · exact .inr (.inl ⟨rfl, i, hi, hty⟩)

def Phase.Calm (ph : Phase) : Prop := ph.locks = ∅ ∧ ph.gone = ∅

theorem Phase.Calm.of_none {ph : Phase} (h : ph = .none) : ph.Calm := h ▸ ⟨rfl, rfl⟩

theorem Ghost.Keeps.calm (hph : g.phase.Calm) (hphase : g'.phase = g.phase)
    (hrefs : ∀ i ∈ g.phase.refs, i ∈ g'.refs) : g.Keeps g' := by
  refine ⟨hphase, fun i hi => ?_, hrefs, fun i hi => ?_⟩
  · rw [hph.1] at hi
    exact absurd hi (notMem_empty i)
  · rw [hph.2] at hi
    exact absurd hi (notMem_empty i)

theorem Ghost.Keeps.same (hphase : g'.phase = g.phase) (hlocks : ∀ i ∈ g.phase.locks, i ∈ g'.locks)
    (hrefs : g'.refs = g.refs) (hmem : ∀ i ∈ g.phase.refs, i ∈ g.refs) : g.Keeps g' := by
  refine ⟨hphase, hlocks, ?_, fun i _ => by rw [hrefs]⟩
  rwa [hrefs]

theorem sim_enter : Sim sb n p (enter p) g fun _ g' => g' = g ∧ p < n := by
  apply Sim.of
  intro a hok hg
  refine triple_enter.conseq (fun _ he => .inl he) ?_
  rintro - t ⟨hat, hp⟩
  have hkeep : (a.ghost p).Keeps (a.ghost p) :=
    Ghost.Keeps.same rfl (hok p).mem_locks rfl (hok p).mem_refs
  refine ⟨a.view, g, a.procs p, hat.same, ?_, rfl, hp⟩
  rw [← hg]
  exact .quiet hkeep fun i hi => .inl hi

variable {a : Sys}

theorem Sys.holds_of_mem {i : ℕ} (hph : (a.ghost p).phase.Calm) (hi : i ∈ (a.ghost p).refs) :
    a.Holds p i := by
  refine .inl ⟨hi, ?_⟩
  rw [hph.2]
  exact notMem_empty i

theorem Step.addRef (hok : a.Ok) (hph : (a.ghost p).phase.Calm) {i : ℕ} (hi : a.Reach p i) :
    Step sb a p a.view ((a.ghost p).addRef i) (a.procs p) := by
  refine .quiet (.calm hph rfl fun j hj => ?_) fun j hj => ?_
  · exact mem_cons_of_mem ((hok p).mem_refs j hj)
  · rcases hj with ⟨hmem, hgone⟩ | huses
    · rcases Multiset.mem_cons.1 hmem with rfl | hmem
      · exact hi
      · exact .inl (.inl ⟨hmem, hgone⟩)
    · exact .inl (.inr huses)

theorem Step.locks (hok : a.Ok) (hph : (a.ghost p).phase.Calm) (l : Finset ℕ) :
    Step sb a p a.view { a.ghost p with locks := l } (a.procs p) :=
  .quiet (.calm hph rfl (hok p).mem_refs) fun _ hj => .inl hj

theorem Step.move (hph : (a.ghost p).phase = .none) {g' : Ghost} {proc' : Proc}
    (hph' : g'.phase = .none) (hrefs : ∀ j, j ∈ g'.refs → j ∈ (a.ghost p).refs ∨
      0 < (a.procs p).uses j)
    (huses : ∀ j, 0 < proc'.uses j → j ∈ (a.ghost p).refs ∨ 0 < (a.procs p).uses j) :
    Step sb a p a.view g' proc' := by
  have hcalm := Phase.Calm.of_none hph
  have hmem {j : ℕ} (hj : j ∈ (a.ghost p).refs ∨ 0 < (a.procs p).uses j) : a.Reach p j := by
    rcases hj with hj | hj
    · exact .inl (Sys.holds_of_mem hcalm hj)
    · exact .inl (.inr hj)
  refine .quiet (.calm hcalm (hph'.trans hph.symm) fun j hj => ?_) fun j hj => ?_
  · rw [hph] at hj
    exact absurd hj (notMem_empty j)
  · rcases hj with ⟨hj, -⟩ | hj
    · exact hmem (hrefs j hj)
    · exact hmem (huses j hj)

theorem Proc.uses_pos_of_setFd {proc : Proc} {fd j : ℕ} (hfd : fd < nofile) {x : Option ℕ}
    (h : 0 < ({ proc with ofile := update proc.ofile fd x } : Proc).uses j) :
    0 < proc.uses j ∨ x = some j := by
  have hcount := proc.uses_setFd hfd x j
  by_cases hx : x = some j
  · exact .inr hx
  · rw [if_neg hx] at hcount
    exact .inl (by omega)

theorem Proc.uses_pos_of_setCwd {proc : Proc} {j : ℕ} {x : Option ℕ}
    (h : 0 < ({ proc with cwd := x } : Proc).uses j) : 0 < proc.uses j ∨ x = some j := by
  have hcount := proc.uses_setCwd x j
  by_cases hx : x = some j
  · exact .inr hx
  · rw [if_neg hx] at hcount
    exact .inl (by omega)

theorem NoLink.excused {d k : ℕ} (hph : g.phase = .found d k i) (hi : i ∈ g.refs) {e : Panic}
    (h : NoLink v i e) : Excused v g e := by
  rcases h with hno | ⟨rfl, hlink⟩
  · exact hno.excused hi
  · exact .inr (.inr ⟨rfl, d, k, i, hph, hlink⟩)

variable (hp : p < n)
include hp

theorem sim_namexStart (hph : g.phase.Calm) (path : Path) :
    Sim sb n p (namexStart p path) g fun i g' => g' = g.addRef i := by
  refine Sim.of_triple (triple_namexStart hp path) Or.inl ?_
  rintro a hok rfl i t ⟨hat, hstart⟩
  refine ⟨_, _, _, hat.same, Step.addRef hok hph ?_, rfl⟩
  rcases hstart with rfl | hcwd
  · exact .inr (.inl rfl)
  · refine .inl (.inr ?_)
    simp only [Proc.uses, hcwd, if_true]
    omega

def Ghost.afterWalk (g : Ghost) : Walk → Ghost
  | .next inum => g.addRef inum
  | _ => g

theorem sim_walk (hph : g.phase.Calm) (hi : i ∈ g.refs) (parent last : Bool) (name : Name) :
    Sim sb n p (walk sb p parent last i name) g fun r g' => g' = g.afterWalk r := by
  refine Sim.of_triple (triple_walk hp hi parent last name) (·.excused hi) ?_
  rintro a hok rfl r t ⟨g', hwalked, hat⟩
  cases r with
  | fail =>
    obtain rfl := hwalked
    exact ⟨_, _, _, hat.same, Step.locks hok hph _, rfl⟩
  | stop =>
    obtain ⟨rfl, -⟩ := hwalked
    exact ⟨_, _, _, hat.same, Step.locks hok hph _, rfl⟩
  | next inum =>
    obtain ⟨rfl, hdir, k, hent, hlive⟩ := hwalked
    refine ⟨_, _, _, hat.same, Step.addRef hok hph (.inr (.inr ⟨i, k, ?_, hdir, ?_, hlive⟩)), rfl⟩
    · exact Sys.holds_of_mem hph hi
    · rw [hent]

/-- `iput` up to its last lines. The process goes on with what its phase needs. -/
theorem sim_iput (hi : i ∈ g.refs) (hl : i ∉ g.locks)
    (hkeep : ∀ j ∈ ((g.dropRef i).settle i).phase.refs, j ∈ (g.dropRef i).refs) :
    Sim sb n p (iput i) g fun r g' =>
      g' = if r = true then (g.free i).settle i else (g.dropRef i).settle i := by
  refine Sim.of_triple (triple_iput hp hi hl) Or.inl ?_
  rintro a hok rfl r t ⟨v', g', hput, hat⟩
  cases r with
  | false =>
    obtain ⟨rfl, rfl⟩ := hput
    exact ⟨_, _, _, (hat.phase hp _).same, .drop hkeep, rfl⟩
  | true =>
    obtain ⟨rfl, rfl, hnlink, hty, hone, huses, hothers⟩ := hput
    have hmine : a.Mine p i := by
      intro q hq hlock
      have hheld := hat.1.held q i
      rw [update_of_ne hq] at hheld
      exact (hothers q hq).1 (hheld hlock).1
    exact ⟨_, _, _, (hat.phase hp _).same, .free hnlink hty hone huses hl hothers hmine hkeep, rfl⟩

theorem sim_dropDead (hi : i ∈ g.dead) :
    Sim sb n p (dropRef i) g fun _ g' => g' = g.dropDead i := by
  refine Sim.of_triple (triple_dropDead hp hi) Or.inl ?_
  rintro a hok rfl _ t hat
  have hkeep : (a.ghost p).Keeps ((a.ghost p).dropDead i) :=
    Ghost.Keeps.same rfl (hok p).mem_locks rfl (hok p).mem_refs
  exact ⟨_, _, _, hat.same, .quiet hkeep fun j hj => .inl hj, rfl⟩

theorem sim_unlock (hph : g.phase.Calm) (i : ℕ) :
    Sim sb n p (iunlock p i) g fun _ g' => g' = g.dropLock i := by
  refine Sim.of_triple (triple_iunlock hp) Or.inl ?_
  rintro a hok rfl _ t hat
  exact ⟨_, _, _, hat.same, Step.locks hok hph _, rfl⟩

theorem sim_createFound (hph : g.phase.Calm) (hi : i ∈ g.refs) (type : IType) :
    Sim sb n p (createFound p type i) g fun r g' => i ∉ g.locks ∧
    g' = if r = true then g.addLock i else g := by
  refine Sim.of_triple (triple_createFound hp hi type) (·.excused hi) ?_
  rintro a hok rfl r t ⟨hnot, hat⟩
  refine ⟨_, _, _, hat.same, ?_, hnot, rfl⟩
  split_ifs <;> exact Step.locks hok hph _

theorem sim_openFound (hph : g.phase.Calm) (hi : i ∈ g.refs) (omode : ℕ) :
    Sim sb n p (openFound p omode i) g fun r g' => i ∉ g.locks ∧
    g' = if r = true then g.addLock i else g := by
  refine Sim.of_triple (triple_openFound hp hi omode) (·.excused hi) ?_
  rintro a hok rfl r t ⟨hnot, hat⟩
  refine ⟨_, _, _, hat.same, ?_, hnot, rfl⟩
  split_ifs <;> exact Step.locks hok hph _

theorem sim_chdirCheck (hph : g.phase.Calm) (hi : i ∈ g.refs) :
    Sim sb n p (chdirCheck p i) g fun _ g' => g' = g := by
  refine Sim.of_triple (triple_chdirCheck hp hi) (·.excused hi) ?_
  rintro a hok rfl _ t hat
  exact ⟨_, _, _, hat.same, Step.locks hok hph _, rfl⟩

theorem sim_openInode (hph : g.phase = .none) (hi : i ∈ g.refs) (hl : i ∈ g.locks)
    (hdrop : ∀ j ∈ (g.dropLock i).locks, j ∈ (g.dropRef i).refs) (omode : ℕ) :
    Sim sb n p (openInode p omode i) g fun r g' =>
      g' = if r = none then g.dropLock i else (g.dropRef i).dropLock i := by
  refine Sim.of_triple (triple_openInode hp hl hi hdrop omode) Or.inl ?_
  rintro a hok rfl r t (⟨rfl, hat⟩ | ⟨fd, rfl, hfd, hfree, hat⟩)
  · exact ⟨_, _, _, hat.same, Step.move hph hph (fun _ => .inl) (fun _ => .inr), rfl⟩
  · refine ⟨_, _, _, hat, Step.move hph hph (fun j hj => .inl ?_) (fun j hj => ?_), rfl⟩
    · exact mem_of_mem_erase hj
    · rcases Proc.uses_pos_of_setFd hfd hj with hold | hnew
      · exact .inr hold
      · cases hnew
        exact .inl hi

theorem sim_closeFd (hph : g.phase = .none) (fd : ℕ) :
    Sim sb n p (closeFd p fd) g fun r g' => g' = r.elim g g.addRef := by
  refine Sim.of_triple (triple_closeFd hp fd) Or.inl ?_
  rintro a hok rfl r t (⟨rfl, hat⟩ | ⟨i, rfl, hfd, hopen, hat⟩)
  · exact ⟨_, _, _, hat.same, Step.move hph hph (fun _ => .inl) (fun _ => .inr), rfl⟩
  · have hused : 0 < (a.procs p).uses i := by
      have hcount := (a.procs p).uses_setFd hfd none i
      rw [hopen, if_pos rfl, if_neg (by simp)] at hcount
      omega
    refine ⟨_, _, _, hat, Step.move hph hph (fun j hj => ?_) (fun j hj => ?_), rfl⟩
    · rcases Multiset.mem_cons.1 hj with rfl | hj
      · exact .inr hused
      · exact .inl hj
    · rcases Proc.uses_pos_of_setFd hfd hj with hold | hnew
      · exact .inr hold
      · cases hnew

theorem sim_takeCwd (hph : g.phase = .none) :
    Sim sb n p (takeCwd p) g fun c g' => g' = g.addRef c := by
  refine Sim.of_triple (triple_takeCwd hp) Or.inl ?_
  rintro a hok rfl c t ⟨hcwd, hat⟩
  have hused : 0 < (a.procs p).uses c := by
    simp only [Proc.uses, hcwd, if_true]
    omega
  refine ⟨_, _, _, hat, Step.move hph hph (fun j hj => ?_) (fun j hj => ?_), rfl⟩
  · rcases Multiset.mem_cons.1 hj with rfl | hj
    · exact .inr hused
    · exact .inl hj
  · rcases Proc.uses_pos_of_setCwd hj with hold | hnew
    · exact .inr hold
    · cases hnew

theorem sim_setCwd (hph : g.phase = .none) (hi : i ∈ g.refs) (hl : g.locks = ∅) :
    Sim sb n p (setProc p fun proc => { proc with cwd := some i }) g fun _ g' =>
      g' = g.dropRef i := by
  refine Sim.of_triple (triple_setCwd hp hi hl) Or.inl ?_
  rintro a hok rfl _ t hat
  refine ⟨_, _, _, hat, Step.move hph hph (fun j hj => .inl ?_) (fun j hj => ?_), rfl⟩
  · exact mem_of_mem_erase hj
  · rcases Proc.uses_pos_of_setCwd hj with hold | hnew
    · exact .inr hold
    · cases hnew
      exact .inl hi

theorem sim_linkCount (hph : g.phase = .none) (hi : i ∈ g.refs) :
    Sim sb n p (linkCount p i) g fun r g' =>
      g' = if r = true then { g with phase := .linking i } else g := by
  refine Sim.of_triple (triple_linkCount hp hi) (·.excused hi) ?_
  rintro a hok rfl r t ⟨v', hcounted, hat⟩
  cases r with
  | false =>
    obtain rfl := hcounted
    exact ⟨_, _, _, hat.same, Step.move hph hph (fun _ => .inl) (fun _ => .inr), rfl⟩
  | true =>
    obtain ⟨hdir, hty, rfl⟩ := hcounted
    exact ⟨_, _, _, (hat.phase hp _).same, .linkCount hph hi hdir hty, rfl⟩

theorem sim_linkEntry (hph : g.phase = .linking i) {dnum : ℕ} (hd : dnum ∈ g.refs)
    {name : Name} (hname : name.Ok) : Sim sb n p (linkEntry sb p dnum name i) g fun r g' =>
      g' = if r = true then { g with phase := .none } else g := by
  refine Sim.of_triple (triple_linkEntry hp hd hname i) (·.excused hd) ?_
  rintro a hok rfl r t ⟨v', hlinked, hmine, hat⟩
  have hcalm : (a.ghost p).phase.Calm := hph ▸ ⟨rfl, rfl⟩
  rcases hlinked with ⟨rfl, rfl⟩ | ⟨rfl, hfresh, hdir, k, hfree, hbefore, rfl⟩
  · exact ⟨_, _, _, hat.same, Step.locks hok hcalm _, rfl⟩
  · exact ⟨_, _, _, (hat.phase hp _).same, .linkEntry hph hd hmine ⟨hdir, hfresh, hfree, hbefore⟩,
      rfl⟩

theorem sim_linkUndo (hph : g.phase = .linking i) (hi : i ∈ g.refs) :
    Sim sb n p (linkUndo p i) g fun _ g' => g' = { g with phase := .none } := by
  refine Sim.of_triple (triple_linkUndo hp hi) (·.excused hi) ?_
  rintro a hok rfl _ t hat
  exact ⟨_, _, _, (hat.phase hp _).same, .linkUndo hph, rfl⟩

def Ghost.afterFind (g : Ghost) (dnum : ℕ) (off : ℕ) (i : ℕ) (g' : Ghost) : Prop :=
  ∃ k, off = deSize * k ∧ dnum ∉ g.locks ∧
    g' = { (g.addLock dnum).addRef i with phase := .found dnum k i }

theorem sim_unlinkFind (hph : g.phase = .none) {dnum : ℕ} (hd : dnum ∈ g.refs) (name : Name) :
    Sim sb n p (unlinkFind sb p dnum name) g fun r g' =>
      match r with
      | none => g' = g
      | some (off, i) => g.afterFind dnum off i g' := by
  refine Sim.of_triple (triple_unlinkFind hp hd name) (·.excused hd) ?_
  rintro a hok rfl r t ⟨g', hfound, hat⟩
  cases r with
  | none =>
    obtain rfl := hfound
    exact ⟨_, _, _, hat.same, Step.move hph hph (fun _ => .inl) (fun _ => .inr), rfl⟩
  | some r =>
    obtain ⟨off, i⟩ := r
    obtain ⟨rfl, hnot, hdot, hdotdot, hdir, k, hoff, hent, hlive⟩ := hfound
    exact ⟨_, _, _, (hat.phase hp _).same, .found hph hd hdir hent hlive hdot hdotdot, k,
      hoff, hnot, rfl⟩

theorem sim_unlinkErase {dnum k : ℕ} (hph : g.phase = .found dnum k i)
    (hd : dnum ∈ g.locks) (hi : i ∈ g.refs) :
    Sim sb n p (unlinkErase sb p dnum (deSize * k) i) g fun r g' => i ∉ g.locks ∧
      g' = if r = true then { (g.addLock i).dropLock dnum with phase := .erased i }
        else { g with phase := .none } := by
  apply Sim.of
  intro a hok hg
  subst hg
  have hvalid := hok p
  rw [hph] at hvalid
  obtain ⟨-, -, hdir, name, hent, hlive, -⟩ := hvalid
  have hk : (a.view.ent dnum k).inum ≠ 0 := by
    rw [hent]
    exact hlive
  intro s hs
  have hmine : a.Mine p dnum := fun q hq => hs.mine hd hq
  refine (triple_unlinkErase hp hd hi hk).conseq (fun _ he => he.excused hph hi) ?_ s hs
  rintro r t ⟨v', g', herased, hat⟩
  cases r with
  | false =>
    obtain ⟨rfl, rfl, hnot⟩ := herased
    exact ⟨_, _, _, (hat.phase hp _).same, .refuse hph, hnot, rfl⟩
  | true =>
    obtain ⟨rfl, hnot, hone, hty, hempty, rfl⟩ := herased
    exact ⟨_, _, _, (hat.phase hp _).same, .erase hph hmine hnot hone hty hempty, hnot, rfl⟩

theorem sim_unlinkCount (hph : g.phase = .erased i) (hl : i ∈ g.locks) :
    Sim sb n p (unlinkCount p i) g fun _ g' => g' = { g.dropLock i with phase := .dropping i } := by
  refine Sim.of_triple (triple_unlinkCount hp hl) Or.inl ?_
  rintro a hok rfl _ t hat
  exact ⟨_, _, _, (hat.phase hp _).same, .count hph, rfl⟩

def Ghost.afterCreate (g : Ghost) (dnum : ℕ) : Created → Ghost → Prop
  | .found inum, g' => g' = g.addRef inum
  | .noInode, g' => g' = g
  | .created inum, g' => dnum ≠ inum ∧ g' = (g.addRef inum).addLock inum
  | .failed inum, g' => dnum ≠ inum ∧ dnum ∉ g.locks ∧
      g' = { (g.addLock dnum).addRef inum with phase := .dropping inum }

theorem sim_createIn (hph : g.phase = .none) {dnum : ℕ} (hd : dnum ∈ g.refs)
    {name : Name} (hname : name.Ok) {type : IType} (htype : type ≠ .none) (major minor : ℤ) :
    Sim sb n p (createIn sb p dnum name type major minor) g
    fun r g' => g.afterCreate dnum r g' := by
  refine Sim.of_triple (triple_createIn hp hd hname htype major minor) (·.excused hd) ?_
  rintro a hok rfl r t ⟨v', g', hcreated, hmine, hat⟩
  have hcalm := Phase.Calm.of_none hph
  cases r with
  | found inum =>
    obtain ⟨rfl, rfl, hdir, k, hent, hlive⟩ := hcreated
    refine ⟨_, _, _, hat.same, Step.addRef hok hcalm (.inr (.inr ⟨dnum, k, ?_, hdir, ?_, hlive⟩)),
      rfl⟩
    · exact Sys.holds_of_mem hcalm hd
    · rw [hent]
  | noInode =>
    obtain ⟨rfl, rfl⟩ := hcreated
    exact ⟨_, _, _, hat.same, Step.locks hok hcalm _, rfl⟩
  | created inum =>
    obtain ⟨hpos, hlt, hfree, hne, hdir, hfresh, rfl, k, hslot, hbefore, rfl⟩ := hcreated
    exact ⟨_, _, _, hat.same, .created hph hd hmine ⟨hdir, hfresh, hslot, hbefore⟩ hpos hlt hfree
      htype, hne, rfl⟩
  | failed inum =>
    obtain ⟨hpos, hlt, hfree, hne, hnot, rfl, m, hm, rfl⟩ := hcreated
    exact ⟨_, _, _, (hat.phase hp _).same, .failed hph hd hpos hlt hfree htype hm, hne, hnot, rfl⟩

end sections

section calls

variable (R : Rules sb n L C P Bad) {i : ℕ}

/-- A process runs the program safely, in a machine that keeps the rules. -/
abbrev Rules.Run {α : Type} (_ : Rules sb n L C P Bad) (p : ℕ) (x : Prog State Panic α) (g : Ghost)
    (Q : α → Ghost → Prop) : Prop := Safe (Inv sb n L) C P Bad p x g Q

/-- A process between two sections, without locks: what its phase needs it has. -/
structure Ghost.Steady (g : Ghost) : Prop where
  calm : g.phase.Calm
  refs : ∀ j ∈ g.phase.refs, j ∈ g.refs
  locks : g.locks = ∅

theorem Ghost.Steady.of_none (hph : g.phase = .none) (hl : g.locks = ∅) : g.Steady := by
  refine ⟨.of_none hph, ?_, hl⟩
  rw [hph]
  exact fun j hj => absurd hj (notMem_empty j)

theorem Ghost.Steady.addRef (h : g.Steady) (i : ℕ) : (g.addRef i).Steady :=
  ⟨h.calm, fun j hj => mem_cons_of_mem (h.refs j hj), h.locks⟩

theorem Ghost.settle_of_calm (h : g.phase.Calm) (i : ℕ) : g.settle i = g := by
  unfold Ghost.settle
  rw [if_neg]
  intro heq
  have hgone := h.2
  rw [heq] at hgone
  exact singleton_ne_empty i hgone

theorem Ghost.addRef_swap (g : Ghost) (i j : ℕ) :
    (g.addRef i).addRef j = (g.addRef j).addRef i := by
  simp only [Ghost.addRef]
  rw [Multiset.cons_swap]

theorem Ghost.mem_addRef (g : Ghost) (i : ℕ) : i ∈ (g.addRef i).refs := mem_cons_self i _

include R

theorem Rules.safe_put (hp : p < n) (hi : i ∈ g.refs) (hl : i ∉ g.locks)
    (hkeep : ∀ j ∈ ((g.dropRef i).settle i).phase.refs, j ∈ (g.dropRef i).refs) :
    R.Run p (put i) g fun _ g' => g' = (g.dropRef i).settle i := by
  apply Safe.bind (R.safe (sim_iput hp hi hl hkeep))
  rintro r _ rfl
  cases r with
  | true =>
    apply (R.safe (sim_dropDead hp (Multiset.mem_cons_self i _))).mono
    rintro _ _ rfl
    simp only [Ghost.dropDead, Ghost.settle, Ghost.free, Ghost.dropRef,
      Multiset.erase_cons_head, if_true]
    rfl
  | false => exact rfl

theorem Rules.safe_putTop (hp : p < n) (hs : g.Steady) (i : ℕ) :
    R.Run p (put i) (g.addRef i) fun _ g' => g' = g := by
  have hback := g.dropRef_addRef i
  have hsettle := Ghost.settle_of_calm hs.calm i
  apply (R.safe_put hp (g.mem_addRef i) ?_ ?_).mono
  · rintro _ _ rfl
    rw [hback, hsettle]
  · change i ∉ g.locks
    rw [hs.locks]
    exact notMem_empty i
  · rw [hback, hsettle]
    exact hs.refs

theorem Rules.safe_putEnd {β : Type} {r : β} {Q : β → Ghost → Prop} (hp : p < n)
    (hs : g.Steady) (i : ℕ) (hQ : Q r g) : R.Run p (put i >>= fun _ => pure r) (g.addRef i) Q := by
  apply Safe.bind (R.safe_putTop hp hs i)
  rintro _ _ rfl
  exact hQ

def Ghost.afterNamex (g : Ghost) (r : Option ℕ) : Ghost := r.elim g g.addRef

theorem Rules.safe_namexLoop (hp : p < n) (hs : g.Steady) (parent : Bool)
    (names : List Name) (i : ℕ) :
    R.Run p (namexLoop sb p parent names i) (g.addRef i) fun r g' => g' = g.afterNamex r := by
  induction names generalizing i with
  | nil =>
    unfold namexLoop
    split_ifs
    · exact R.safe_putEnd hp hs i rfl
    · exact rfl
  | cons name rest ih =>
    apply Safe.bind
      (R.safe (sim_walk hp (hs.addRef i).calm (g.mem_addRef i) parent rest.isEmpty name))
    rintro r _ rfl
    cases r with
    | fail =>
      exact R.safe_putEnd hp hs i rfl
    | stop => exact rfl
    | next inum =>
      simp only [Ghost.afterWalk, g.addRef_swap i inum]
      apply Safe.bind (R.safe_putTop hp (hs.addRef inum) i)
      rintro _ _ rfl
      exact ih inum

theorem Rules.safe_namex (hp : p < n) (hs : g.Steady) (parent : Bool) (path : Path) :
    R.Run p (namex sb p parent path) g fun r g' => g' = g.afterNamex r := by
  apply Safe.bind (R.safe (sim_namexStart hp hs.calm path))
  rintro i _ rfl
  exact R.safe_namexLoop hp hs parent path.names i

/-- Locks that a process holds from one section to the next. -/
theorem Rules.safe_putBeside (hp : p < n) (hph : g.phase = .none) {d : ℕ} (hd : d ∈ g.refs)
    (hl : d ∉ g.locks) : R.Run p (put d) g fun _ g' => g' = g.dropRef d := by
  have hsettle := Ghost.settle_of_calm (g := g.dropRef d) (.of_none hph) d
  apply (R.safe_put hp hd hl ?_).mono
  · rintro _ _ rfl
    exact hsettle
  · rw [hsettle]
    change ∀ j ∈ g.phase.refs, _
    rw [hph]
    exact fun j hj => absurd hj (notMem_empty j)

theorem Rules.safe_putDropping (hp : p < n) (hph : g.phase = .none) (hl : i ∉ g.locks) :
    R.Run p (put i) { g.addRef i with phase := .dropping i } fun _ g' =>
      g' = g := by
  have hback : ((({ g.addRef i with phase := .dropping i } : Ghost).dropRef i).settle i) = g := by
    simp only [Ghost.settle, Ghost.dropRef, Ghost.addRef, Multiset.erase_cons_head, if_true]
    rw [← hph]
  apply (R.safe_put (g := { g.addRef i with phase := .dropping i }) hp (g.mem_addRef i) hl ?_).mono
  · rintro _ _ rfl
    exact hback
  · rw [hback, hph]
    exact fun j hj => absurd hj (notMem_empty j)

def Ghost.afterNew (g : Ghost) (r : Option ℕ) : Ghost :=
  r.elim g fun i => (g.addRef i).addLock i

section

variable (hp : p < n) (hph : g.phase = .none) (hl : g.locks = ∅)
include hp hph hl

theorem Rules.safe_create {path : Path}
    (hname : path.name.Ok) {type : IType} (htype : type ≠ .none) (major minor : ℤ) :
    R.Run p (create sb p path type major minor) g fun r g' => g' = g.afterNew r := by
  have hs := Ghost.Steady.of_none hph hl
  apply Safe.bind (R.safe_namex hp hs true path)
  rintro r _ rfl
  cases r with
  | none => exact rfl
  | some dnum =>
    apply Safe.bind (R.safe
      (sim_createIn (g := g.addRef dnum) hp hph (g.mem_addRef dnum) hname htype major minor))
    rintro r g' hr
    cases r with
    | found inum =>
      obtain rfl := hr
      rw [g.addRef_swap dnum inum]
      apply Safe.bind (R.safe_putTop hp (hs.addRef inum) dnum)
      rintro _ _ rfl
      apply Safe.bind (R.safe (sim_createFound hp (hs.addRef inum).calm (g.mem_addRef inum) type))
      rintro found _ ⟨-, rfl⟩
      cases found with
      | true => exact rfl
      | false =>
        exact R.safe_putEnd hp hs inum rfl
    | noInode =>
      obtain rfl := hr
      exact R.safe_putEnd hp hs dnum rfl
    | created inum =>
      obtain ⟨hne, rfl⟩ := hr
      rw [g.addRef_swap dnum inum]
      have hnot : dnum ∉ (((g.addRef inum).addRef dnum).addLock inum).locks := by
        simp [Ghost.addLock, Ghost.addRef, hl, hne]
      apply Safe.bind (R.safe_putBeside (g := ((g.addRef inum).addRef dnum).addLock inum) hp hph
        ((g.addRef inum).mem_addRef dnum) hnot)
      rintro _ _ rfl
      change (((g.addRef inum).addRef dnum).dropRef dnum).addLock inum = _
      rw [Ghost.dropRef_addRef]
      rfl
    | failed inum =>
      obtain ⟨hne, hnot, rfl⟩ := hr
      have hin : inum ∉ ((g.addRef dnum).addLock dnum).locks := by
        simp [Ghost.addLock, Ghost.addRef, hl, hne.symm]
      apply Safe.bind (R.safe_putDropping (g := (g.addRef dnum).addLock dnum) hp hph hin)
      rintro _ _ rfl
      apply Safe.bind (R.safe (sim_unlock (g := (g.addRef dnum).addLock dnum) hp hs.calm dnum))
      rintro _ _ rfl
      rw [Ghost.dropLock_addLock hnot]
      exact R.safe_putEnd hp hs dnum rfl

theorem Rules.safe_linkBad :
    R.Run p (linkBad p i) { g.addRef i with phase := .linking i } fun _ g' =>
      g' = g := by
  apply Safe.bind
    (R.safe (sim_linkUndo (g := { g.addRef i with phase := .linking i }) hp rfl (g.mem_addRef i)))
  rintro _ _ rfl
  have hback : ({ g.addRef i with phase := .none } : Ghost) = g.addRef i := by
    simp only [Ghost.addRef, hph]
  change Safe _ _ _ _ _ _ { g.addRef i with phase := .none } _
  rw [hback]
  exact R.safe_putEnd hp (.of_none hph hl) i rfl

theorem Rules.safe_sysLink
    (old : Path) {new : Path} (hname : new.name.Ok) :
    R.Run p (sysLink sb p old new) g fun _ g' => g' = g := by
  have hs := Ghost.Steady.of_none hph hl
  apply Safe.bind (R.safe_namex hp hs false old)
  rintro r _ rfl
  cases r with
  | none => exact rfl
  | some i =>
    apply Safe.bind (R.safe (sim_linkCount (g := g.addRef i) hp hph (g.mem_addRef i)))
    rintro counted _ rfl
    cases counted with
    | false =>
      exact R.safe_putEnd hp hs i rfl
    | true =>
      let gl : Ghost := { g.addRef i with phase := .linking i }
      have hsl : gl.Steady := by
        refine ⟨⟨rfl, rfl⟩, fun j hj => ?_, hl⟩
        obtain rfl := Finset.mem_singleton.1 hj
        exact g.mem_addRef j
      apply Safe.bind (R.safe_namex (g := gl) hp hsl true new)
      rintro r _ rfl
      cases r with
      | none => exact R.safe_linkBad hp hph hl
      | some dnum =>
        apply Safe.bind
          (R.safe (sim_linkEntry (g := gl.addRef dnum) hp rfl (gl.mem_addRef dnum) hname))
        rintro linked _ rfl
        cases linked with
        | false =>
          apply Safe.bind (R.safe_putTop hp hsl dnum)
          rintro _ _ rfl
          exact R.safe_linkBad hp hph hl
        | true =>
          have hback : ({ gl.addRef dnum with phase := .none } : Ghost) =
            (g.addRef i).addRef dnum := by
            simp only [gl, Ghost.addRef, hph]
          change Safe _ _ _ _ _ _ { gl.addRef dnum with phase := .none } _
          rw [hback]
          apply Safe.bind (R.safe_putTop hp (hs.addRef i) dnum)
          rintro _ _ rfl
          exact R.safe_putEnd hp hs i rfl

theorem Rules.safe_sysUnlink
    (path : Path) : R.Run p (sysUnlink sb p path) g fun _ g' => g' = g := by
  have hs := Ghost.Steady.of_none hph hl
  apply Safe.bind (R.safe_namex hp hs true path)
  rintro r _ rfl
  cases r with
  | none => exact rfl
  | some dnum =>
    apply Safe.bind
      (R.safe (sim_unlinkFind (g := g.addRef dnum) hp hph (g.mem_addRef dnum) path.name))
    rintro r g' hr
    cases r with
    | none =>
      obtain rfl := hr
      exact R.safe_putEnd hp hs dnum rfl
    | some r =>
      obtain ⟨off, i⟩ := r
      obtain ⟨k, rfl, hnot, rfl⟩ := hr
      let gf : Ghost := { ((g.addRef dnum).addLock dnum).addRef i with phase := .found dnum k i }
      have hdl : dnum ∈ gf.locks := mem_insert_self dnum _
      have hir : i ∈ gf.refs := mem_cons_self i _
      apply Safe.bind (R.safe (sim_unlinkErase (g := gf) hp rfl hdl hir))
      rintro done _ ⟨hin, rfl⟩
      have hne : i ≠ dnum := by
        rintro rfl
        exact hin hdl
      cases done with
      | true =>
        let ge : Ghost := { (gf.addLock i).dropLock dnum with phase := .erased i }
        let gi : Ghost := { (g.addRef i).addLock i with phase := .erased i }
        have hput : (ge.dropRef dnum).settle dnum = gi := by
          have hrefs : (i ::ₘ dnum ::ₘ g.refs).erase dnum = i ::ₘ g.refs := by
            rw [Multiset.erase_cons_tail _ hne, Multiset.erase_cons_head]
          have hlocks : (insert i (insert dnum g.locks)).erase dnum = insert i g.locks := by
            rw [hl, erase_insert_of_ne hne, erase_insert (by simp)]
          simp only [ge, gi, gf, Ghost.settle, Ghost.dropRef, Ghost.dropLock, Ghost.addLock,
            Ghost.addRef, hrefs, hlocks]
          rfl
        apply Safe.bind (R.safe_put (g := ge) hp ?_ ?_ ?_)
        · rintro _ _ rfl
          rw [hput]
          apply Safe.bind (R.safe (sim_unlinkCount (g := gi) hp rfl ((g.addRef i).mem_addLock i)))
          rintro _ _ rfl
          have hcount : ({ gi.dropLock i with phase := .dropping i } : Ghost) =
              { g.addRef i with phase := .dropping i } := by
            simp [gi, Ghost.dropLock, Ghost.addLock, Ghost.addRef, hl]
          change Safe _ _ _ _ _ _ { gi.dropLock i with phase := .dropping i } _
          rw [hcount]
          apply Safe.bind (R.safe_putDropping hp hph (by rw [hl]; exact notMem_empty i))
          rintro _ _ rfl
          exact rfl
        · exact mem_cons_of_mem (g.mem_addRef dnum)
        · exact notMem_erase dnum _
        · rw [hput]
          intro j hj
          obtain rfl := Finset.mem_singleton.1 hj
          exact (Multiset.mem_erase_of_ne hne).2 hir
      | false =>
        have hback : ({ gf with phase := .none } : Ghost) =
          ((g.addRef dnum).addLock dnum).addRef i := by
          simp only [gf, Ghost.addRef, Ghost.addLock, hph]
        change Safe _ _ _ _ _ _ { gf with phase := .none } _
        rw [hback]
        apply Safe.bind
          (R.safe_putBeside (g := ((g.addRef dnum).addLock dnum).addRef i) hp hph hir hin)
        rintro _ _ rfl
        rw [Ghost.dropRef_addRef]
        apply Safe.bind (R.safe (sim_unlock (g := (g.addRef dnum).addLock dnum) hp hs.calm dnum))
        rintro _ _ rfl
        rw [Ghost.dropLock_addLock hnot]
        exact R.safe_putEnd hp hs dnum rfl

theorem Rules.safe_openLocked (omode i : ℕ) :
    R.Run p (openLocked p omode i) ((g.addRef i).addLock i) fun _ g' => g' = g := by
  have hback : ((g.addRef i).addLock i).dropLock i = g.addRef i :=
    Ghost.dropLock_addLock (g := g.addRef i) (by
      change i ∉ g.locks
      rw [hl]
      exact notMem_empty i)
  have hmove : (((g.addRef i).addLock i).dropRef i).dropLock i = g := by
    change ((((g.addRef i).addLock i).dropLock i).dropRef i) = g
    rw [hback, Ghost.dropRef_addRef]
  apply Safe.bind (R.safe (sim_openInode (g := (g.addRef i).addLock i) hp hph (g.mem_addRef i)
    ((g.addRef i).mem_addLock i) ?_ omode))
  · rintro r _ rfl
    cases r with
    | none =>
      simp only [if_true, hback]
      exact R.safe_putEnd hp (.of_none hph hl) i rfl
    | some fd => exact hmove
  · rw [hback]
    change ∀ j ∈ g.locks, _
    rw [hl]
    exact fun j hj => absurd hj (notMem_empty j)

theorem Rules.safe_sysOpen {path : Path}
    (hname : path.name.Ok) (omode : ℕ) :
    R.Run p (sysOpen sb p path omode) g fun _ g' => g' = g := by
  have hs := Ghost.Steady.of_none hph hl
  unfold sysOpen
  split_ifs
  · apply Safe.bind (R.safe_create hp hph hl hname (by decide : IType.file ≠ .none) 0 0)
    rintro r _ rfl
    cases r with
    | none => exact rfl
    | some i => exact R.safe_openLocked hp hph hl omode i
  · apply Safe.bind (R.safe_namex hp hs false path)
    rintro r _ rfl
    cases r with
    | none => exact rfl
    | some i =>
      apply Safe.bind (R.safe (sim_openFound (g := g.addRef i) hp hs.calm (g.mem_addRef i) omode))
      rintro found _ ⟨-, rfl⟩
      cases found with
      | true => exact R.safe_openLocked hp hph hl omode i
      | false =>
        exact R.safe_putEnd hp hs i rfl

theorem Rules.safe_sysMake {path : Path}
    (hname : path.name.Ok) {type : IType} (htype : type ≠ .none) (major minor : ℤ) :
    R.Run p (sysMake sb p path type major minor) g fun _ g' => g' = g := by
  have hs := Ghost.Steady.of_none hph hl
  apply Safe.bind (R.safe_create hp hph hl hname htype major minor)
  rintro r _ rfl
  cases r with
  | none => exact rfl
  | some i =>
    apply Safe.bind (R.safe (sim_unlock (g := (g.addRef i).addLock i) hp hs.calm i))
    rintro _ _ rfl
    have hnot : i ∉ (g.addRef i).locks := by
      change i ∉ g.locks
      rw [hl]
      exact notMem_empty i
    rw [Ghost.dropLock_addLock hnot]
    exact R.safe_putEnd hp hs i rfl

theorem Rules.safe_sysChdir
    (path : Path) : R.Run p (sysChdir sb p path) g fun _ g' => g' = g := by
  have hs := Ghost.Steady.of_none hph hl
  apply Safe.bind (R.safe_namex hp hs false path)
  rintro r _ rfl
  cases r with
  | none => exact rfl
  | some i =>
    apply Safe.bind (R.safe (sim_chdirCheck (g := g.addRef i) hp hs.calm (g.mem_addRef i)))
    rintro dir _ rfl
    cases dir with
    | true =>
      apply Safe.bind (R.safe (sim_takeCwd (g := g.addRef i) hp hph))
      rintro c _ rfl
      apply Safe.bind (R.safe_putTop hp (hs.addRef i) c)
      rintro _ _ rfl
      apply Safe.bind (R.safe (sim_setCwd (g := g.addRef i) hp hph (g.mem_addRef i) hl))
      rintro _ _ rfl
      exact g.dropRef_addRef i
    | false =>
      exact R.safe_putEnd hp hs i rfl

theorem Rules.safe_sysClose (fd : ℕ) :
    R.Run p (sysClose p fd) g fun _ g' => g' = g := by
  apply Safe.bind (R.safe (sim_closeFd hp hph fd))
  rintro r _ rfl
  cases r with
  | none => exact rfl
  | some i =>
    exact R.safe_putEnd hp (.of_none hph hl) i rfl

theorem Rules.safe_closeAll (m fd : ℕ) :
    R.Run p (closeAll p m fd) g fun _ g' => g' = g := by
  induction m generalizing fd with
  | zero => exact rfl
  | succ m ih =>
    apply Safe.bind (R.safe_sysClose hp hph hl fd)
    rintro _ _ rfl
    exact ih (fd + 1)

theorem Rules.safe_sysExit :
    R.Run p (sysExit p) g fun _ g' => g' = g := by
  apply Safe.bind (R.safe_closeAll hp hph hl nofile 0)
  rintro _ _ rfl
  apply Safe.bind (R.safe (sim_takeCwd hp hph))
  rintro c _ rfl
  exact R.safe_putEnd hp (.of_none hph hl) c rfl

end

omit R

theorem elems_ok {path : List UInt8} (hpath : ∀ b ∈ path, b ≠ 0) (fuel : ℕ) :
    ∀ name ∈ elems fuel path, name.Ok := by
  induction fuel generalizing path with
  | zero => exact fun name hname => absurd hname not_mem_nil
  | succ fuel ih =>
    intro name hname
    unfold elems skipelem at hname
    by_cases hnil : path.dropWhile (· = 47) = []
    · simp only [if_pos hnil] at hname
      exact absurd hname not_mem_nil
    · simp only [if_neg hnil] at hname
      have hsub : ∀ b ∈ path.dropWhile (· = 47), b ≠ 0 := fun b hb =>
        hpath b ((dropWhile_sublist _).subset hb)
      rcases mem_cons.1 hname with rfl | hrest
      · refine ⟨fun b hb => hsub b ?_, length_take_le _ _⟩
        exact (takeWhile_sublist _).subset ((take_sublist _ _).subset hb)
      · refine ih (fun b hb => hsub b ?_) name hrest
        exact (dropWhile_sublist _).subset ((dropWhile_sublist _).subset hb)

/-- The names that `namex` looks up are C strings of at most `DIRSIZ` bytes. -/
theorem Path.parse_name_ok (bytes : List UInt8) : (Path.parse bytes).name.Ok := by
  have hnames : ∀ name ∈ (Path.parse bytes).names, name.Ok := by
    apply elems_ok
    intro b hb
    simpa using mem_takeWhile_imp hb
  unfold Path.name
  cases hlast : (Path.parse bytes).names.getLast? with
  | none => exact ⟨fun b hb => absurd hb not_mem_nil, Nat.zero_le _⟩
  | some name => exact hnames name (mem_of_getLast? hlast)

include R

theorem Rules.safe_syscall (hp : p < n) (c : Call) :
    R.Run p (syscall sb p c) Ghost.idle fun _ g' => g' = Ghost.idle := by
  cases c with
  | «open» path omode => exact R.safe_sysOpen hp rfl rfl (Path.parse_name_ok path) omode
  | mkdir path => exact R.safe_sysMake hp rfl rfl (Path.parse_name_ok path) (by decide) 0 0
  | mknod path major minor =>
    exact R.safe_sysMake hp rfl rfl (Path.parse_name_ok path) (by decide) _ _
  | link old new => exact R.safe_sysLink hp rfl rfl _ (Path.parse_name_ok new)
  | unlink path => exact R.safe_sysUnlink hp rfl rfl _
  | chdir path => exact R.safe_sysChdir hp rfl rfl _
  | close fd => exact R.safe_sysClose hp rfl rfl fd
  | exit => exact R.safe_sysExit hp rfl rfl

theorem Rules.safe_call (p : ℕ) (c : Call) :
    R.Run p (call sb p c) Ghost.idle fun _ g' => g' = Ghost.idle := by
  apply Safe.bind (R.safe (sim_enter (g := Ghost.idle)))
  rintro _ _ ⟨rfl, hp⟩
  apply Safe.bind (R.safe_syscall hp c)
  rintro _ _ rfl
  exact rfl

end calls

/-- The inode table between calls: the copies of inodes in use are those on disk, no inode is
locked, and every directory and open file of the `n` processes has its reference. -/
structure Rest (n : ℕ) (s : State) : Prop where
  coherent : ∀ i, 0 < (s.itable i).ref → (s.itable i).valid = true →
    (s.itable i).copy = s.disk.dinode i ∧ (s.disk.dinode i).type ≠ .none
  refs : ∀ i, ∑ p ∈ range n, (s.procs p).uses i ≤ (s.itable i).ref
  unlocked : ∀ i, (s.itable i).lock = none
  outside : ∀ p, n ≤ p → s.procs p = .exited

theorem Rest.base {sb : Super} {n : ℕ} {s : State} (h : Rest n s) (hgood : Good sb s.disk) :
    Base sb n s fun _ => Ghost.idle where
  good := hgood
  coherent := h.coherent
  refs i := by
    have hheld (p : ℕ) : heldBy s Ghost.idle p i = (s.procs p).uses i := by
      simp [heldBy, Ghost.idle]
    simp only [hheld]
    exact h.refs i
  lock i p := by
    rw [h.unlocked i]
    simp [Ghost.idle]
  held p i hi := absurd hi (notMem_empty i)
  outside p hp := ⟨h.outside p hp, rfl⟩

theorem Rest.inv {sb : Super} {n : ℕ} {s : State} (h : Rest n s) (hgood : Good sb s.disk)
    {L : Sys → Prop} (hL : L (sysOf s fun _ => Ghost.idle)) : Inv sb n L s fun _ => Ghost.idle :=
  ⟨h.base hgood, fun _ => trivial, hL⟩

end Xv6.Fs
