import Xv6.FsActions

/-!
# The machine of links

The abstract machine that the calls implement: its state is the view of the disk with what each
process holds, and a step is one of a dozen changes, most of which only move references. The
sections of the calls refine it (`Sim`), so a property of links is proved here by cases on the steps
and never by going back to the code. What a process has found out in one section and uses in a later
one is still true then: the entry that `sys_unlink` has found, the emptiness of the directory that
it removes, the type of the inode that `sys_link` counts.
-/

namespace Xv6.Fs

open Function Finset

structure Sys where
  view : View
  ghost : ℕ → Ghost
  procs : ℕ → Proc

namespace Phase

def gone : Phase → Finset ℕ
  | erased i | dropping i => {i}
  | _ => ∅

def locks : Phase → Finset ℕ
  | found d _ _ => {d}
  | erased i => {i}
  | _ => ∅

def refs : Phase → Finset ℕ
  | linking i | found _ _ i | erased i | dropping i => {i}
  | none => ∅

end Phase

namespace Ghost

def settle (g : Ghost) (i : ℕ) : Ghost :=
  { g with phase := if g.phase = .dropping i then .none else g.phase }

/-- The process goes on in the same phase and keeps what it needs there. -/
structure Keeps (g g' : Ghost) : Prop where
  phase : g'.phase = g.phase
  locks : ∀ i ∈ g.phase.locks, i ∈ g'.locks
  refs : ∀ i ∈ g.phase.refs, i ∈ g'.refs
  gone : ∀ i ∈ g.phase.gone, g'.refs.count i ≤ g.refs.count i

/-- What a process may use: it does not go on with an inode that it is about to drop. -/
def Holds (g : Ghost) (proc : Proc) (i : ℕ) : Prop :=
  (i ∈ g.refs ∧ i ∉ g.phase.gone) ∨ 0 < proc.uses i

end Ghost

namespace Sys

variable (a : Sys)

def Holds (p i : ℕ) : Prop := (a.ghost p).Holds (a.procs p) i

/-- What process `p` may get a reference to: the root, what it holds, and the entries there. -/
def Reach (p i : ℕ) : Prop :=
  a.Holds p i ∨ i = rootino ∨ ∃ d k, a.Holds p d ∧ a.view.type d = .dir ∧
    (a.view.ent d k).inum = i ∧ i ≠ 0

def Mine (p i : ℕ) : Prop := ∀ q, q ≠ p → i ∉ (a.ghost q).locks

end Sys

def View.erase (v : View) (d k i : ℕ) : View :=
  if v.type i = .dir then (v.setEnt d k ⟨0, []⟩).setNlink d (decShort (v.nlink d))
  else v.setEnt d k ⟨0, []⟩

/-- Slot `k` is the first free one of directory `d`, and the name is not in use there. -/
structure View.Vacant (v : View) (d k : ℕ) (name : Name) : Prop where
  dir : v.type d = .dir
  fresh : ∀ m, (v.ent d m).inum ≠ 0 → (v.ent d m).name ≠ name
  free : (v.ent d k).inum = 0
  before : ∀ m, m < k → (v.ent d m).inum ≠ 0

/-- A step of process `p`: the view, its own ghost value and its own entry after it. -/
inductive Step (sb : Super) (a : Sys) (p : ℕ) : View → Ghost → Proc → Prop
  | quiet {g' : Ghost} {proc' : Proc} (keeps : (a.ghost p).Keeps g')
      (reach : ∀ i, g'.Holds proc' i → a.Reach p i) : Step sb a p a.view g' proc'
  | drop {i : ℕ} (keeps : ∀ j ∈ (((a.ghost p).dropRef i).settle i).phase.refs,
      j ∈ ((a.ghost p).dropRef i).refs) :
      Step sb a p a.view (((a.ghost p).dropRef i).settle i) (a.procs p)
  | free {i : ℕ} (nlink : a.view.nlink i = 0) (type : a.view.type i ≠ .none)
      (one : (a.ghost p).refs.count i = 1) (uses : (a.procs p).uses i = 0)
      (unlocked : i ∉ (a.ghost p).locks)
      (others : ∀ q, q ≠ p → i ∉ (a.ghost q).refs ∧ (a.procs q).uses i = 0) (mine : a.Mine p i)
      (keeps : ∀ j ∈ (((a.ghost p).free i).settle i).phase.refs, j ∈ ((a.ghost p).free i).refs) :
      Step sb a p (a.view.free i) (((a.ghost p).free i).settle i) (a.procs p)
  | found {d k i : ℕ} {name : Name} (phase : (a.ghost p).phase = .none)
      (ref : d ∈ (a.ghost p).refs) (dir : a.view.type d = .dir)
      (ent : a.view.ent d k = ⟨i, name⟩) (live : i ≠ 0) (dot : name ≠ dot)
      (dotdot : name ≠ dotdot) :
      Step sb a p a.view { ((a.ghost p).addLock d).addRef i with phase := .found d k i } (a.procs p)
  | refuse {d k i : ℕ} (phase : (a.ghost p).phase = .found d k i) :
      Step sb a p a.view { a.ghost p with phase := .none } (a.procs p)
  | erase {d k i : ℕ} (phase : (a.ghost p).phase = .found d k i) (mine : a.Mine p d)
      (unlocked : i ∉ (a.ghost p).locks) (nlink : 1 ≤ a.view.nlink i)
      (type : a.view.type i ≠ .none)
      (empty : a.view.type i = .dir → ∀ m, 2 ≤ m → (a.view.ent i m).inum = 0) :
      Step sb a p (a.view.erase d k i) { ((a.ghost p).addLock i).dropLock d with
        phase := .erased i } (a.procs p)
  | count {i : ℕ} (phase : (a.ghost p).phase = .erased i) :
    Step sb a p (a.view.setNlink i (decShort (a.view.nlink i)))
        { (a.ghost p).dropLock i with phase := .dropping i } (a.procs p)
  | linkCount {i : ℕ} (phase : (a.ghost p).phase = .none) (ref : i ∈ (a.ghost p).refs)
      (dir : a.view.type i ≠ .dir) (type : a.view.type i ≠ .none) :
      Step sb a p (a.view.setNlink i (incShort (a.view.nlink i)))
      { a.ghost p with phase := .linking i } (a.procs p)
  | linkEntry {d k i : ℕ} {name : Name} (phase : (a.ghost p).phase = .linking i)
      (ref : d ∈ (a.ghost p).refs) (mine : a.Mine p d) (vacant : a.view.Vacant d k name) :
      Step sb a p (a.view.setEnt d k ⟨i % 65536, name⟩) { a.ghost p with phase := .none }
      (a.procs p)
  | linkUndo {i : ℕ} (phase : (a.ghost p).phase = .linking i) :
      Step sb a p (a.view.setNlink i (decShort (a.view.nlink i))) { a.ghost p with phase := .none }
      (a.procs p)
  | created {d k inum : ℕ} {name : Name} {type : IType} (phase : (a.ghost p).phase = .none)
      (ref : d ∈ (a.ghost p).refs) (mine : a.Mine p d) (vacant : a.view.Vacant d k name)
      (pos : 0 < inum) (lt : inum < sb.ninodes) (free : a.view.type inum = .none)
      (some : type ≠ .none) :
      Step sb a p (a.view.made d inum k name type) (((a.ghost p).addRef inum).addLock inum)
      (a.procs p)
  | failed {d m inum : ℕ} {type : IType} (phase : (a.ghost p).phase = .none)
      (ref : d ∈ (a.ghost p).refs) (pos : 0 < inum) (lt : inum < sb.ninodes)
      (free : a.view.type inum = .none) (some : type ≠ .none) (file : type ≠ .dir → m = 0) :
      Step sb a p ((a.view.alloc inum type).dots inum d m)
        { ((a.ghost p).addLock d).addRef inum with phase := .dropping inum } (a.procs p)

def Sys.after (a : Sys) (p : ℕ) (v : View) (g : Ghost) (proc : Proc) : Sys :=
  ⟨v, update a.ghost p g, update a.procs p proc⟩

def Phase.Valid (v : View) (g : Ghost) : Phase → Prop
  | none => True
  | linking i => i ∈ g.refs ∧ v.type i ≠ .dir ∧ v.type i ≠ .none
  | found d k i => d ∈ g.locks ∧ i ∈ g.refs ∧ v.type d = .dir ∧
      ∃ name, v.ent d k = ⟨i, name⟩ ∧ i ≠ 0 ∧ name ≠ dot ∧ name ≠ dotdot
  | erased i => i ∈ g.locks ∧ i ∈ g.refs ∧ v.type i ≠ .none ∧
    (v.type i = .dir → ∀ m, 2 ≤ m → (v.ent i m).inum = 0)
  | dropping i => i ∈ g.refs

def Sys.Ok (a : Sys) : Prop := ∀ p, (a.ghost p).phase.Valid a.view (a.ghost p)

section Ok

variable {sb : Super} {a : Sys} {p : ℕ} {v v' : View} {g g' : Ghost} {proc' : Proc} {ph : Phase}

/-- What a step leaves to the others: the types of what they refer to, and the entries of what they
have locked. -/
structure Spares (v v' : View) (g : Ghost) : Prop where
  refs : ∀ j ∈ g.refs, v.type j ≠ .none → v'.type j = v.type j
  locks : ∀ j ∈ g.locks, v.type j ≠ .none → v'.type j = v.type j ∧ v'.ent j = v.ent j

theorem Spares.refl (v : View) (g : Ghost) : Spares v v g :=
  ⟨fun _ _ _ => rfl, fun _ _ _ => ⟨rfl, rfl⟩⟩

theorem Phase.Valid.spared (h : ph.Valid v g) (hs : Spares v v' g) : ph.Valid v' g := by
  cases ph with
  | none => exact trivial
  | linking i =>
    obtain ⟨hmem, hdir, hty⟩ := h
    have heq := hs.refs i hmem hty
    exact ⟨hmem, by rwa [heq], by rwa [heq]⟩
  | found d k i =>
    obtain ⟨hlock, hmem, hdir, hent⟩ := h
    have heq := hs.locks d hlock (by rw [hdir]; decide)
    refine ⟨hlock, hmem, by rwa [heq.1], ?_⟩
    rwa [heq.2]
  | erased i =>
    obtain ⟨hlock, hmem, hty, hempty⟩ := h
    have heq := hs.locks i hlock hty
    refine ⟨hlock, hmem, by rwa [heq.1], ?_⟩
    rwa [heq.1, heq.2]
  | dropping i => exact h

theorem Phase.Valid.keep (h : ph.Valid v g) (hlocks : ∀ i ∈ ph.locks, i ∈ g'.locks)
    (hrefs : ∀ i ∈ ph.refs, i ∈ g'.refs) : ph.Valid v g' := by
  cases ph with
  | none => exact trivial
  | linking i => exact ⟨hrefs i (mem_singleton_self i), h.2⟩
  | found d k i =>
    exact ⟨hlocks d (mem_singleton_self d), hrefs i (mem_singleton_self i), h.2.2⟩
  | erased i =>
    exact ⟨hlocks i (mem_singleton_self i), hrefs i (mem_singleton_self i), h.2.2⟩
  | dropping i => exact hrefs i (mem_singleton_self i)

theorem Phase.Valid.mem_locks (h : ph.Valid v g) : ∀ i ∈ ph.locks, i ∈ g.locks := by
  intro i hi
  cases ph with
  | none | linking | dropping => exact absurd hi (notMem_empty i)
  | found d k j =>
    obtain rfl := Finset.mem_singleton.1 hi
    exact h.1
  | erased j =>
    obtain rfl := Finset.mem_singleton.1 hi
    exact h.1

theorem Phase.Valid.mem_refs (h : ph.Valid v g) : ∀ i ∈ ph.refs, i ∈ g.refs := by
  intro i hi
  cases ph with
  | none => exact absurd hi (notMem_empty i)
  | linking j =>
    obtain rfl := Finset.mem_singleton.1 hi
    exact h.1
  | found d k j | erased j =>
    obtain rfl := Finset.mem_singleton.1 hi
    exact h.2.1
  | dropping j =>
    obtain rfl := Finset.mem_singleton.1 hi
    exact h

theorem Spares.setEnt {d : ℕ} (hd : d ∉ g.locks) (k : ℕ) (e : Dirent) :
    Spares v (v.setEnt d k e) g := by
  refine ⟨fun _ _ _ => rfl, fun j hj _ => ⟨rfl, ?_⟩⟩
  have hne : j ≠ d := by
    rintro rfl
    exact hd hj
  simp [View.setEnt, hne]

theorem Spares.setNlink (h : Spares v v' g) (i : ℕ) (n : ℤ) : Spares v (v'.setNlink i n) g :=
  ⟨h.refs, h.locks⟩

/-- A free inode is taken and filled; the others know of no such inode. -/
theorem Spares.alloc {inum : ℕ} (hfree : v.type inum = .none)
    (hother : ∀ j, j ≠ inum → v'.type j = v.type j ∧ v'.ent j = v.ent j) : Spares v v' g := by
  have hne {j : ℕ} (hj : v.type j ≠ .none) : j ≠ inum := by
    rintro rfl
    exact hj hfree
  exact ⟨fun j _ hty => (hother j (hne hty)).1, fun j _ hty => hother j (hne hty)⟩

theorem View.alloc_dots_of_ne {inum j : ℕ} (hj : j ≠ inum) (type : IType) (d m : ℕ) :
    ((v.alloc inum type).dots inum d m).type j = v.type j ∧
    ((v.alloc inum type).dots inum d m).ent j = v.ent j := by
  rw [View.dots_type, View.dots_of_ne hj]
  simp [View.alloc, hj]

theorem Spares.free {i : ℕ} (hrefs : i ∉ g.refs) (hlocks : i ∉ g.locks) :
    Spares v (v.free i) g := by
  constructor
  · intro j hj _
    have hne : j ≠ i := by
      rintro rfl
      exact hrefs hj
    simp [View.free, hne]
  · intro j hj _
    have hne : j ≠ i := by
      rintro rfl
      exact hlocks hj
    simp [View.free, hne]

theorem Spares.trans {v'' : View} (h : Spares v v' g) (h' : Spares v' v'' g) : Spares v v'' g := by
  constructor
  · intro j hj hty
    have heq := h.refs j hj hty
    rw [h'.refs j hj (by rwa [heq]), heq]
  · intro j hj hty
    have heq := h.locks j hj hty
    have heq' := h'.locks j hj (by rwa [heq.1])
    exact ⟨heq'.1.trans heq.1, heq'.2.trans heq.2⟩

theorem Spares.made {d inum : ℕ} (hfree : v.type inum = .none) (hd : d ∉ g.locks) (k : ℕ)
    (name : Name) (type : IType) : Spares v (v.made d inum k name type) g := by
  have hnew (m : ℕ) : Spares v (((v.alloc inum type).setNlink inum 1).dots inum d m) g := by
    apply Spares.alloc hfree
    intro j hj
    rw [View.dots_type, View.dots_of_ne hj]
    simp [View.alloc, View.setNlink, hj]
  unfold View.made
  split_ifs
  · exact ((hnew 2).trans (Spares.setEnt hd k _)).setNlink _ _
  · exact (hnew 0).trans (Spares.setEnt hd k _)

theorem Step.spares (h : Step sb a p v' g' proc') {q : ℕ} (hq : q ≠ p) :
    Spares a.view v' (a.ghost q) := by
  cases h with
  | quiet | drop | found | refuse => exact .refl _ _
  | free _ _ _ _ _ others mine => exact .free (others q hq).1 (mine q hq)
  | erase _ mine =>
    unfold View.erase
    split_ifs
    · exact (Spares.setEnt (mine q hq) _ _).setNlink _ _
    · exact Spares.setEnt (mine q hq) _ _
  | count | linkCount | linkUndo => exact (Spares.refl _ _).setNlink _ _
  | linkEntry _ _ mine => exact Spares.setEnt (mine q hq) _ _
  | created _ _ mine _ _ _ free => exact Spares.made free (mine q hq) _ _ _
  | failed _ _ _ _ free => exact .alloc free fun j hj => View.alloc_dots_of_ne hj _ _ _

theorem Phase.Valid.settle {i : ℕ} (h : (a.ghost p).phase.Valid v (a.ghost p))
    (hlocks : g.locks = (a.ghost p).locks) (hphase : g.phase = (a.ghost p).phase)
    (hrefs : ∀ j ∈ (g.settle i).phase.refs, j ∈ g.refs) :
    (g.settle i).phase.Valid v (g.settle i) := by
  have hmem := h.mem_locks
  unfold Ghost.settle at hrefs ⊢
  split_ifs with hdrop
  · exact trivial
  · rw [if_neg hdrop] at hrefs
    rw [← hphase] at h hmem
    refine h.keep (fun j hj => ?_) hrefs
    rw [hlocks]
    exact hmem j hj

theorem Step.valid (h : Step sb a p v' g' proc') (hok : a.Ok) : g'.phase.Valid v' g' := by
  have hp := hok p
  cases h with
  | quiet keeps =>
    rw [keeps.phase]
    exact hp.keep keeps.locks keeps.refs
  | drop keeps => exact hp.settle rfl rfl keeps
  | @free i _ _ one _ unlocked _ _ keeps =>
    have hgone : i ∉ ((a.ghost p).free i).refs := by
      rw [← Multiset.count_eq_zero]
      simp [Ghost.free, one]
    exact (hp.settle (g := (a.ghost p).free i) rfl rfl keeps).spared (.free hgone unlocked)
  | found _ _ dir ent live hdot hdotdot =>
    exact ⟨mem_insert_self _ _, Multiset.mem_cons_self _ _, dir, _, ent, live, hdot, hdotdot⟩
  | refuse => exact trivial
  | @erase d k i phase _ unlocked _ type empty =>
    rw [phase] at hp
    have hne : i ≠ d := by
      rintro rfl
      exact unlocked hp.1
    refine ⟨Finset.mem_erase.2 ⟨hne, mem_insert_self i _⟩, hp.2.1, ?_⟩
    unfold View.erase
    split_ifs with hdir
    · refine ⟨type, fun _ => ?_⟩
      simpa [View.setEnt, View.setNlink, hne] using empty hdir
    · exact ⟨type, fun h => absurd h hdir⟩
  | count phase =>
    rw [phase] at hp
    exact hp.2.1
  | linkCount _ ref dir type => exact ⟨ref, dir, type⟩
  | linkEntry | linkUndo => exact trivial
  | created phase =>
    simp only [Ghost.addRef, Ghost.addLock, phase]
    exact trivial
  | failed => exact Multiset.mem_cons_self _ _

theorem Step.ok (h : Step sb a p v' g' proc') (hok : a.Ok) : (a.after p v' g' proc').Ok := by
  intro q
  by_cases hq : q = p
  · subst hq
    simp only [Sys.after, update_self]
    exact h.valid hok
  · simp only [Sys.after, update_of_ne hq]
    exact (hok q).spared (h.spares hq)

end Ok

end Xv6.Fs
