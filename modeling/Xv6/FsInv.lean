import Xv6.Counting
import Xv6.DirView
import Xv6.Sysfile

/-!
# The invariant of the inode table and what the actions do

`View` is what the later properties are about: the types, the link counts and the directory slots of
the disk. A ghost value records what a process holds: references, locks, and what it knows about
links in the middle of a call. The base invariant ties the table to the disk and to the ghosts. Each
primitive of the calls has one specification against it, a triple that also says how the view and
the ghost of the process change; the sections of the calls are put together from these.
-/

namespace Xv6.Fs

open Function Finset

@[ext] structure View where
  type : ℕ → IType
  nlink : ℕ → ℤ
  ent : ℕ → ℕ → Dirent

namespace View

variable (v : View)

def setNlink (i : ℕ) (n : ℤ) : View := { v with nlink := update v.nlink i n }

def setEnt (i k : ℕ) (e : Dirent) : View :=
  { v with ent := update v.ent i (update (v.ent i) k e) }

def alloc (i : ℕ) (type : IType) : View :=
  { v with type := update v.type i type, nlink := update v.nlink i 0 }

def free (i : ℕ) : View :=
  { v with
    type := update v.type i .none
    ent := update v.ent i fun _ => ⟨0, []⟩ }

end View

def Disk.view (d : Disk) : View where
  type i := (d.dinode i).type
  nlink i := (d.dinode i).nlink
  ent i k := if (d.dinode i).type = .dir then slot d.data (d.dinode i) k else ⟨0, []⟩

inductive Phase
  | none
  /-- `sys_link` has raised the count of the inode and not made the entry. -/
  | linking (i : ℕ)
  /-- `sys_unlink` has found the inode in a slot of a directory, which it keeps locked. -/
  | found (d k i : ℕ)
  /-- `sys_unlink` has erased the entry and not lowered the count of the inode. -/
  | erased (i : ℕ)
  /-- The process has an inode without an entry, which it is about to drop. -/
  | dropping (i : ℕ)
  deriving DecidableEq

@[ext] structure Ghost where
  refs : Multiset ℕ
  /-- References to inodes that the process has freed and not dropped yet. -/
  dead : Multiset ℕ
  locks : Finset ℕ
  phase : Phase

namespace Ghost

def idle : Ghost := ⟨0, 0, ∅, .none⟩

variable (g : Ghost) (i : ℕ)

def addRef : Ghost := { g with refs := i ::ₘ g.refs }

def dropRef : Ghost := { g with refs := g.refs.erase i }

def addLock : Ghost := { g with locks := insert i g.locks }

def dropLock : Ghost := { g with locks := g.locks.erase i }

/-- The ghost when the process has freed inode `i` and not dropped its reference. -/
def free : Ghost := { g with refs := g.refs.erase i, dead := i ::ₘ g.dead }

def dropDead : Ghost := { g with dead := g.dead.erase i }

theorem dropRef_addRef : (g.addRef i).dropRef i = g := by simp [addRef, dropRef]

variable (j : ℕ)

theorem count_addRef : (g.addRef i).refs.count j + (g.addRef i).dead.count j =
    g.refs.count j + g.dead.count j + if i = j then 1 else 0 := by
  simp only [addRef, Multiset.count_cons, eq_comm]
  omega

variable {g i}

theorem count_dropRef (hi : i ∈ g.refs) :
    (g.dropRef i).refs.count j + (g.dropRef i).dead.count j + (if i = j then 1 else 0) =
      g.refs.count j + g.dead.count j := by
  rw [← count_addRef]
  simp only [addRef, dropRef, Multiset.cons_erase hi]

theorem count_dropDead (hi : i ∈ g.dead) :
    (g.dropDead i).refs.count j + (g.dropDead i).dead.count j + (if i = j then 1 else 0) =
      g.refs.count j + g.dead.count j := by
  rw [add_assoc, ← Multiset.cons_erase hi, Multiset.count_cons]
  simp only [dropDead, eq_comm]

end Ghost

def Proc.uses (proc : Proc) (i : ℕ) : ℕ :=
  (if proc.cwd = some i then 1 else 0) +
    ((range nofile).filter fun fd => proc.ofile fd = some i).card

def Proc.exited : Proc := ⟨none, fun _ => none⟩

theorem Proc.uses_exited (i : ℕ) : Proc.exited.uses i = 0 := by
  simp [Proc.uses, Proc.exited]

/-- The references to inode `i` that are due to process `p`. -/
def heldBy (s : State) (g : Ghost) (p i : ℕ) : ℕ :=
  g.refs.count i + g.dead.count i + (s.procs p).uses i

structure Base (sb : Super) (n : ℕ) (s : State) (G : ℕ → Ghost) : Prop where
  good : Good sb s.disk
  coherent : ∀ i, 0 < (s.itable i).ref → (s.itable i).valid = true →
    (s.itable i).copy = s.disk.dinode i ∧ (s.disk.dinode i).type ≠ .none
  refs : ∀ i, ∑ p ∈ range n, heldBy s (G p) p i ≤ (s.itable i).ref
  lock : ∀ i p, (s.itable i).lock = some p ↔ i ∈ (G p).locks
  held : ∀ p, ∀ i ∈ (G p).locks, i ∈ (G p).refs ∧ (s.itable i).valid = true
  outside : ∀ p, n ≤ p → s.procs p = .exited ∧ G p = Ghost.idle

/-- The panics that no property here is about. -/
def Panic.Minor : Panic → Prop
  | .freeingFreeBlock | .ilockNoType | .unlinkNlink => False
  | _ => True

namespace Act

variable {α β : Type}

/-- A panic is one of `E`, and a result satisfies `B`; waiting is always fine. -/
abbrev Outcome (E : Panic → Prop) (B : α → State → Prop) : Option (Except Panic (α × State)) → Prop
  | none => True
  | some (.error e) => E e
  | some (.ok (a, t)) => B a t

/-- From a state with `A` the action has such an outcome. -/
def Triple (A : State → Prop) (x : Act α) (E : Panic → Prop) (B : α → State → Prop) : Prop :=
  ∀ s, A s → Outcome E B (x s)

variable {A : State → Prop} {E : Panic → Prop}

theorem Triple.bind {x : Act α} {B : α → State → Prop} {f : α → Act β}
    {D : β → State → Prop} (hx : Triple A x E B) (hf : ∀ a, Triple (B a) (f a) E D) :
    Triple A (x >>= f) E D := by
  intro s hs
  have hout := hx s hs
  rw [bind_apply]
  generalize (x s : Option (Except Panic (α × State))) = r at hout
  rcases r with _ | e | ⟨a, u⟩
  · exact trivial
  · exact hout
  · exact hf a u hout

theorem Triple.pure {a : α} {B : α → State → Prop} (h : ∀ s, A s → B a s) :
    Triple A (pure a) E B := h

theorem Triple.get {B : State → State → Prop} (h : ∀ s, A s → B s s) :
    Triple A (get : Act State) E B := h

theorem Triple.conseq {E' : Panic → Prop} {x : Act α} {B B' : α → State → Prop} (h : Triple A x E B)
    (hE : ∀ e, E e → E' e) (hB : ∀ a s, B a s → B' a s) : Triple A x E' B' := by
  intro s hs
  have hout := h s hs
  generalize (x s : Option (Except Panic (α × State))) = r at hout
  rcases r with _ | e | ⟨a, u⟩
  · exact trivial
  · exact hE e hout
  · exact hB a u hout

theorem Triple.assume {C : State → Prop} {c : Prop} {x : Act α} {B : α → State → Prop}
    (hC : ∀ s, C s → A s ∧ c) (h : c → Triple A x E B) : Triple C x E B :=
  fun s hs => h (hC s hs).2 s (hC s hs).1

end Act

section view

variable {sb : Super} {d d' : Disk} {i : ℕ} {ip' : Dinode}

theorem Touches.view_of_ne (ht : Touches i d d') (hg : Good sb d) {j : ℕ} (hj : j ≠ i) :
    d'.view.type j = d.view.type j ∧ d'.view.nlink j = d.view.nlink j ∧
    d'.view.ent j = d.view.ent j := by
  have hdn := ht.dinode j hj
  refine ⟨by simp [Disk.view, hdn], by simp [Disk.view, hdn], ?_⟩
  funext k
  simp only [Disk.view, hdn]
  split_ifs with hty
  · have hne : (d.dinode j).type ≠ .none := by rw [hty]; decide
    have hslot := ht.slot hj hne (hg.mapped j hne) k
    rwa [hdn] at hslot
  · rfl

theorem Touches.view_eq (ht : Touches i d d') (hg : Good sb d)
    (hstored : d'.dinode i = ip') {w : View} (htype : w.type = update d.view.type i ip'.type)
    (hnlink : w.nlink = update d.view.nlink i ip'.nlink)
    (hent : w.ent = update d.view.ent i fun k =>
      if ip'.type = .dir then Fs.slot d'.data ip' k else ⟨0, []⟩) :
    d'.view = w := by
  subst hstored
  have hother {j : ℕ} (hj : j ≠ i) := ht.view_of_ne hg hj
  apply View.ext
  · exact (eq_update_iff.2 ⟨rfl, fun j hj => (hother hj).1⟩).trans htype.symm
  · exact (eq_update_iff.2 ⟨rfl, fun j hj => (hother hj).2.1⟩).trans hnlink.symm
  · exact (eq_update_iff.2 ⟨rfl, fun j hj => (hother hj).2.2⟩).trans hent.symm

theorem Stepped.view_eq (h : Stepped sb i d d' ip') (hg : Good sb d) {e : ℕ → Dirent}
    (hent : ∀ k, (if (d.dinode i).type = .dir then slot d'.data ip' k else ⟨0, []⟩) = e k) :
    d'.view = { d.view with ent := update d.view.ent i e } := by
  have htype : ip'.type = (d.dinode i).type := by rw [h.same]
  have hnlink : ip'.nlink = (d.dinode i).nlink := by rw [h.same]
  apply h.touches.view_eq hg h.stored
  · rw [htype]
    exact (update_eq_self i d.view.type).symm
  · rw [hnlink]
    exact (update_eq_self i d.view.nlink).symm
  · rw [htype]
    exact congrArg (update _ i) (funext fun k => (hent k).symm)

theorem Stepped.view_same (h : Stepped sb i d d' ip') (hg : Good sb d)
    (hslot : ∀ k, slot d'.data ip' k = slot d.data (d.dinode i) k) : d'.view = d.view := by
  rw [h.view_eq hg (e := d.view.ent i) fun k => by rw [hslot]; rfl, update_eq_self]

theorem Stepped.view_setEnt (h : Stepped sb i d d' ip') (hg : Good sb d)
    (hty : (d.dinode i).type = .dir) {k : ℕ} {e : Dirent}
    (hslot : ∀ m, slot d'.data ip' m = if m = k then e else slot d.data (d.dinode i) m) :
    d'.view = d.view.setEnt i k e := by
  apply h.view_eq hg
  intro m
  rw [if_pos hty, hslot, update_apply]
  simp only [Disk.view, if_pos hty]

end view

section base

variable {sb : Super} {n : ℕ} {s t : State} {G : ℕ → Ghost} {p i : ℕ} {g g' : Ghost} {v : View}
  {w : ℕ → Proc}

def At (sb : Super) (n : ℕ) (G : ℕ → Ghost) (p : ℕ) (g : Ghost) (v : View) (w : ℕ → Proc)
    (s : State) : Prop :=
  Base sb n s (update G p g) ∧ s.disk.view = v ∧ s.procs = w

theorem Base.held_self (h : Base sb n s (update G p g)) :
    ∀ j ∈ g.locks, j ∈ g.refs ∧ (s.itable j).valid = true := by
  have hheld := h.held p
  rwa [update_self] at hheld

theorem Base.held_other (h : Base sb n s (update G p g)) :
    ∀ q, q ≠ p → ∀ j ∈ (G q).locks, (s.itable j).valid = true := by
  intro q hq j hj
  have hheld := h.held q j
  rw [update_of_ne hq] at hheld
  exact (hheld hj).2

theorem Base.ref_pos (h : Base sb n s G) {q : ℕ} (hq : 0 < heldBy s (G q) q i) (hqn : q < n) :
    0 < (s.itable i).ref := by
  have hle := h.refs i
  have hone : heldBy s (G q) q i ≤ ∑ r ∈ range n, heldBy s (G r) r i :=
    single_le_sum (f := fun r => heldBy s (G r) r i) (fun _ _ => Nat.zero_le _)
      (Finset.mem_range.2 hqn)
  omega

theorem Base.lt_of_lock (h : Base sb n s G) {q : ℕ} (hi : i ∈ (G q).locks) : q < n := by
  by_contra hq
  rw [(h.outside q (by omega)).2] at hi
  simp [Ghost.idle] at hi

theorem Base.ref_pos_of_lock (h : Base sb n s G) {q : ℕ} (hi : i ∈ (G q).locks) :
    0 < (s.itable i).ref := by
  have hmem := (h.held q i hi).1
  have hcount : 0 < (G q).refs.count i := Multiset.count_pos.2 hmem
  exact h.ref_pos (q := q) (by simp only [heldBy]; omega) (h.lt_of_lock hi)

theorem At.ip_eq (h : At sb n G p g v w s) (hi : i ∈ g.locks) :
    s.ip i = s.disk.dinode i ∧ (s.disk.dinode i).type ≠ .none := by
  have hmem : i ∈ (update G p g p).locks := by rwa [update_self]
  exact h.1.coherent i (h.1.ref_pos_of_lock hmem) (h.1.held p i hmem).2

theorem At.type (h : At sb n G p g v w s) (i : ℕ) : (s.disk.dinode i).type = v.type i :=
  congrFun (congrArg View.type h.2.1) i

theorem Base.lock_update (h : Base sb n s (update G p g)) (i : ℕ) (g' : Ghost)
    (hlocks : g'.locks = g.locks) (q : ℕ) :
    (s.itable i).lock = some q ↔ i ∈ (update G p g' q).locks := by
  rw [h.lock i q]
  by_cases hq : q = p
  · subst hq
    simp only [update_self, hlocks]
  · simp only [update_of_ne hq]

theorem Base.valid_of_lock (h : Base sb n s G) (hlock : (s.itable i).lock ≠ none) :
    (s.itable i).valid = true := by
  obtain ⟨q, hq⟩ := Option.ne_none_iff_exists'.1 hlock
  exact (h.held q i ((h.lock i q).1 hq)).2

theorem Base.mem_refs (h : Base sb n s (update G p g)) : ∀ j ∈ g.locks, j ∈ g.refs :=
  fun j hj => (h.held_self j hj).1

open Act

def NoType (v : View) (i : ℕ) (e : Panic) : Prop :=
  e.Minor ∨ e = .ilockNoType ∧ v.type i = .none

abbrev Returns {α : Type} (sb : Super) (i : ℕ) (d : Disk) (B : α → View → Prop) :
    Except Panic (Disk × Dinode × α) → Prop
  | .error e => e.Minor
  | .ok (d', ip', a) =>
    Good sb d' ∧ Touches i d d' ∧ d'.dinode i = ip' ∧ ip'.type ≠ .none ∧ B a d'.view

def Looked (v : View) (i : ℕ) (name : Name) : Option (ℕ × ℕ) → Prop
  | none => v.type i = .dir ∧ ∀ k, (v.ent i k).inum ≠ 0 → (v.ent i k).name ≠ name
  | some (off, inum) => v.type i = .dir ∧ ∃ k, off = deSize * k ∧
    v.ent i k = ⟨inum, name⟩ ∧ inum ≠ 0

def Ghost.afterLookup (g : Ghost) : Option (ℕ × ℕ) → Ghost
  | none => g
  | some (_, inum) => g.addRef inum

def Linked (v : View) (i : ℕ) (name : Name) (inum : ℕ) (done : Bool) (v' : View) : Prop :=
  (done = false ∧ v' = v) ∨
  (done = true ∧ (∀ k, (v.ent i k).inum ≠ 0 → (v.ent i k).name ≠ name) ∧ v.type i = .dir ∧
    ∃ k, (v.ent i k).inum = 0 ∧ (∀ m, m < k → (v.ent i m).inum ≠ 0) ∧
    v' = v.setEnt i k ⟨inum % 65536, name⟩)

def Alloced (sb : Super) (v : View) (type : IType) (g : Ghost) : Option ℕ → View → Ghost → Prop
  | none, v', g' => v' = v ∧ g' = g
  | some inum, v', g' => 0 < inum ∧ inum < sb.ninodes ∧ v.type inum = .none ∧
      v' = v.alloc inum type ∧ g' = g.addRef inum

/-- What `iput` does: it frees an inode that has no links and no other reference, or it drops the
reference. -/
def Put (G : ℕ → Ghost) (p i : ℕ) (g : Ghost) (v : View) (w : ℕ → Proc) : Bool → View → Ghost → Prop
  | true, v', g' => v' = v.free i ∧ g' = g.free i ∧ v.nlink i = 0 ∧ v.type i ≠ .none ∧
      g.refs.count i = 1 ∧ (w p).uses i = 0 ∧
      ∀ q, q ≠ p → i ∉ (G q).refs ∧ (w q).uses i = 0
  | false, v', g' => v' = v ∧ g' = g.dropRef i

def Rewritten (v : View) (i : ℕ) (v' : View) : Prop :=
  (∃ e, v' = { v with ent := update v.ent i e }) ∧ (v.type i ≠ .dir → v' = v)

theorem Stepped.type_ne {d d' : Disk} {ip' : Dinode} (h : Stepped sb i d d' ip')
    (hty : (d.dinode i).type ≠ .none) : ip'.type ≠ .none := by
  rw [h.same]
  exact hty

variable (hp : p < n)

include hp

/-- One process changes its ghost, its own entry and the table; the rest has to agree with it. -/
theorem Base.change (h : Base sb n s (update G p g)) (hgood : Good sb t.disk)
    (hco : ∀ j, 0 < (t.itable j).ref → (t.itable j).valid = true →
      (t.itable j).copy = t.disk.dinode j ∧ (t.disk.dinode j).type ≠ .none)
    (hprocs : ∀ q, q ≠ p → t.procs q = s.procs q)
    (href : ∀ j, heldBy t g' p j + (s.itable j).ref ≤ heldBy s g p j + (t.itable j).ref)
    (hlock : ∀ j q, (t.itable j).lock = some q ↔ j ∈ (update G p g' q).locks)
    (hheld : ∀ j ∈ g'.locks, j ∈ g'.refs ∧ (t.itable j).valid = true)
    (hother : ∀ q, q ≠ p → ∀ j ∈ (G q).locks, (t.itable j).valid = true) :
    Base sb n t (update G p g') := by
  constructor
  · exact hgood
  · exact hco
  · intro j
    have hsum := Counting.sum_change (S := range n) (f := fun q => heldBy s (update G p g q) q j)
      (e := fun q => heldBy t (update G p g' q) q j) (Finset.mem_range.2 hp) (by
        intro q hq
        simp only [update_of_ne hq, heldBy, hprocs q hq])
    have hle := h.refs j
    have hj := href j
    simp only [update_self] at hsum
    omega
  · exact hlock
  · intro q j hj
    by_cases hq : q = p
    · subst hq
      rw [update_self] at hj ⊢
      exact hheld j hj
    · have hold := h.held q j
      rw [update_of_ne hq] at hj hold ⊢
      exact ⟨(hold hj).1, hother q hq j hj⟩
  · intro q hq
    have hne : q ≠ p := by omega
    have hout := h.outside q hq
    rw [update_of_ne hne] at hout ⊢
    rwa [hprocs q hne]

/-- One process changes an entry of the table, its own ghost and the inode on disk. -/
theorem At.set (h : At sb n G p g v w s) {d : Disk} {v' : View} {e : Inode} {a : ℕ}
    (hgood : Good sb d) (hview : d.view = v') (hd : ∀ j, j ≠ i → d.dinode j = s.disk.dinode j)
    (hco : 0 < e.ref → e.valid = true → e.copy = d.dinode i ∧ (d.dinode i).type ≠ .none)
    (hother : ∀ j, j ≠ i → g'.refs.count j + g'.dead.count j = g.refs.count j + g.dead.count j)
    (href : g'.refs.count i + g'.dead.count i + (s.itable i).ref ≤
      g.refs.count i + g.dead.count i + e.ref)
    (hlocks : ∀ j, j ≠ i → (j ∈ g'.locks ↔ j ∈ g.locks)) (hrefs : ∀ j ∈ g'.locks, j ∈ g'.refs)
    (hlock : ∀ q, e.lock = some q ↔ i ∈ (update G p g' q).locks)
    (hvalid : e.lock ≠ none → e.valid = true) :
    At sb n G p g' v' w { s with disk := d, itable := update s.itable i e, active := a } := by
  have hb := h.1
  have hmine {q : ℕ} (hq : i ∈ (update G p g' q).locks) : e.valid = true :=
    hvalid (by rw [(hlock q).2 hq]; exact Option.some_ne_none q)
  refine ⟨hb.change hp hgood ?_ (fun _ _ => rfl) ?_ ?_ ?_ fun q hq => ?_, hview, h.2.2⟩
  · refine (forall_update_iff _ fun j (e : Inode) => 0 < e.ref → e.valid = true →
      e.copy = d.dinode j ∧ (d.dinode j).type ≠ .none).2 ⟨hco, fun j hj => ?_⟩
    rw [hd j hj]
    exact hb.coherent j
  · refine (forall_update_iff _ fun j (e : Inode) =>
      g'.refs.count j + g'.dead.count j + (s.procs p).uses j + (s.itable j).ref ≤
        heldBy s g p j + e.ref).2 ⟨?_, fun j hj => ?_⟩
    · simp only [heldBy]
      omega
    · rw [hother j hj, heldBy]
  · refine (forall_update_iff _ fun j (e : Inode) =>
      ∀ q, e.lock = some q ↔ j ∈ (update G p g' q).locks).2 ⟨hlock, fun j hj q => ?_⟩
    rw [hb.lock j q]
    rcases eq_or_ne q p with rfl | hq
    · simp only [update_self, hlocks j hj]
    · simp only [update_of_ne hq]
  · exact (forall_update_iff _ fun j (e : Inode) => j ∈ g'.locks → j ∈ g'.refs ∧ e.valid = true).2
      ⟨fun hj => ⟨hrefs i hj, hmine (q := p) (by rwa [update_self])⟩,
        fun j hji hj => ⟨hrefs j hj, (hb.held_self j ((hlocks j hji).1 hj)).2⟩⟩
  · exact (forall_update_iff _ fun j (e : Inode) => j ∈ (G q).locks → e.valid = true).2
      ⟨fun hj => hmine (q := q) (by rwa [update_of_ne hq]), fun j _ => hb.held_other q hq j⟩

theorem At.incRef (h : At sb n G p g v w s) {a : ℕ} {e : Inode}
    (he : 0 < (s.itable i).ref ∧ e = { s.itable i with ref := (s.itable i).ref + 1 } ∨
      (s.itable i).ref = 0 ∧ e = { s.itable i with ref := 1, valid := false }) :
    At sb n G p (g.addRef i) v w { s.setInode i e with active := a } := by
  have hb := h.1
  have hlock := hb.lock_update i (g.addRef i) rfl
  have hrefs : ∀ j ∈ g.locks, j ∈ (g.addRef i).refs := fun j hj =>
    Multiset.mem_cons_of_mem (hb.mem_refs j hj)
  have hcount := g.count_addRef i
  have hother (j : ℕ) (hj : j ≠ i) := (hcount j).trans (by rw [if_neg hj.symm])
  have hself := (hcount i).trans (by rw [if_pos rfl])
  rcases he with ⟨hpos, rfl⟩ | ⟨hzero, rfl⟩
  · exact h.set hp hb.good h.2.1 (fun _ _ => rfl) (fun _ => hb.coherent i hpos) hother
      (by simp only; omega) (fun _ _ => Iff.rfl) hrefs hlock hb.valid_of_lock
  · refine h.set hp hb.good h.2.1 (fun _ _ => rfl) (fun _ hv => Bool.noConfusion hv) hother
      (by simp only; omega) (fun _ _ => Iff.rfl) hrefs hlock fun hne => ?_
    -- an entry without references is not locked
    obtain ⟨q, hq⟩ := Option.ne_none_iff_exists'.1 hne
    have hpos := hb.ref_pos_of_lock ((hb.lock i q).1 hq)
    omega

theorem At.decRef (h : At sb n G p g v w s) (hcount : ∀ j, g'.refs.count j + g'.dead.count j +
      (if i = j then 1 else 0) = g.refs.count j + g.dead.count j) (hlocks : g'.locks = g.locks)
    (hrefs : ∀ j ∈ g.locks, j ∈ g'.refs) : At sb n G p g' v w (s.decRef i) := by
  have hb := h.1
  have hself := hcount i
  rw [if_pos rfl] at hself
  have hpos : 0 < (s.itable i).ref := by
    apply hb.ref_pos (q := p) _ hp
    simp only [update_self, heldBy]
    omega
  refine h.set hp hb.good h.2.1 (fun _ _ => rfl) (fun _ => hb.coherent i hpos) (fun j hj => ?_) ?_
    (fun _ _ => by rw [hlocks]) (hlocks ▸ hrefs) (hb.lock_update i g' hlocks) hb.valid_of_lock
  · rw [← hcount j, if_neg hj.symm, add_zero]
  · simp only
    omega

theorem At.store (h : At sb n G p g v w s) {d : Disk} {ip : Dinode} (hgood : Good sb d)
    (ht : Touches i s.disk d)
    (hstored : d.dinode i = ip) (hty : ip.type ≠ .none) :
    At sb n G p g d.view w (s.store i d ip) := by
  subst hstored
  exact h.set hp hgood rfl ht.dinode (fun _ _ => ⟨rfl, hty⟩) (fun _ _ => rfl) le_rfl
    (fun _ _ => Iff.rfl) h.1.mem_refs (h.1.lock i) h.1.valid_of_lock

theorem triple_iget (i : ℕ) :
    Triple (At sb n G p g v w) (iget i) Panic.Minor fun _ => At sb n G p (g.addRef i) v w := by
  intro s h
  unfold iget
  split_ifs with hpos
  · exact h.incRef (a := s.active) hp (.inl ⟨hpos, rfl⟩)
  · exact trivial
  · exact h.incRef hp (.inr ⟨by omega, rfl⟩)

theorem triple_idup (hi : 0 < (w p).uses i) :
    Triple (At sb n G p g v w) (idup i) Panic.Minor fun _ => At sb n G p (g.addRef i) v w := by
  intro s h
  have hheld : 0 < heldBy s (update G p g p) p i := by
    rw [← h.2.2] at hi
    simp only [heldBy]
    omega
  exact h.incRef (a := s.active) hp (.inl ⟨h.1.ref_pos hheld hp, rfl⟩)

theorem triple_ilock (hi : i ∈ g.refs) :
    Triple (At sb n G p g v w) (ilock p i) (NoType v i) fun _ s =>
      At sb n G p (g.addLock i) v w s ∧ i ∉ g.locks ∧ v.type i ≠ .none := by
  intro s h
  have hb := h.1
  rw [← h.type]
  -- the inode is locked with a copy of what is on disk
  have hset {e : Inode} (hnone : (s.itable i).lock = none)
      (he : e.lock = some p ∧ e.ref = (s.itable i).ref ∧ e.valid = true)
      (hco : e.copy = s.disk.dinode i ∧ (s.disk.dinode i).type ≠ .none) :
      At sb n G p (g.addLock i) v w { s.setInode i e with active := s.active } ∧ i ∉ g.locks ∧
        (s.disk.dinode i).type ≠ .none := by
    have hfree (q : ℕ) : i ∉ (update G p g q).locks := by
      intro hmem
      rw [(hb.lock i q).2 hmem] at hnone
      cases hnone
    refine ⟨h.set hp hb.good h.2.1 (fun _ _ => rfl) (fun _ _ => hco) (fun _ _ => rfl) ?_ ?_
      ?_ (fun q => ?_) (fun _ => he.2.2), ?_, hco.2⟩
    · simp only [Ghost.addLock, he.2.1]
      exact le_rfl
    · intro j hj
      simp [Ghost.addLock, hj]
    · intro j hj
      rcases Finset.mem_insert.1 hj with rfl | hmem
      · exact hi
      · exact hb.mem_refs j hmem
    · rw [he.1]
      have hq' := hfree q
      rcases eq_or_ne q p with rfl | hq
      · simp [Ghost.addLock]
      · rw [update_of_ne hq] at hq' ⊢
        simp [hq', hq.symm]
    · have hp' := hfree p
      rwa [update_self] at hp'
  unfold ilock
  split_ifs with href hlocked hvalid hty
  · exact .inl trivial
  · exact trivial
  · exact hset (not_not.1 hlocked) ⟨rfl, rfl, hvalid⟩ (hb.coherent i (by omega) hvalid)
  · exact .inr ⟨rfl, (h.type i).symm.trans hty⟩
  · exact hset (not_not.1 hlocked) ⟨rfl, rfl, rfl⟩ ⟨rfl, hty⟩

theorem triple_iunlock : Triple (At sb n G p g v w)
    (iunlock p i) Panic.Minor fun _ => At sb n G p (g.dropLock i) v w := by
  intro s h
  have hb := h.1
  unfold iunlock
  split_ifs with hbad
  · exact trivial
  · have hmine : (s.itable i).lock = some p := by
      by_contra hne
      exact hbad (.inl hne)
    refine h.set (a := s.active) hp hb.good h.2.1 (fun _ _ => rfl) (hb.coherent i) (fun _ _ => rfl)
      le_rfl ?_ ?_ ?_ (fun hne => absurd rfl hne)
    · intro j hj
      simp [Ghost.dropLock, hj]
    · intro j hj
      exact hb.mem_refs j (mem_of_mem_erase hj)
    · intro q
      rcases eq_or_ne q p with rfl | hq
      · simp [Ghost.dropLock]
      · -- the lock was this process's, so no other one has it
        have hother := hb.lock i q
        rw [hmine, update_of_ne hq] at hother
        rw [update_of_ne hq]
        simp only [reduceCtorEq, false_iff]
        intro hmem
        exact hq (Option.some.inj (hother.2 hmem)).symm

/-- A call of the lower layer on a locked inode, by its specification on good disks. -/
theorem triple_onInode {α : Type} (hi : i ∈ g.locks)
    {f : Disk → Dinode → Except Panic (Disk × Dinode × α)} {B : α → View → Prop}
    (hf : ∀ d, Good sb d → d.view = v → (d.dinode i).type ≠ .none →
      Returns sb i d B (f d (d.dinode i))) :
    Triple (At sb n G p g v w) (onInode i f) Panic.Minor
    fun a s => ∃ v', B a v' ∧ At sb n G p g v' w s := by
  intro s h
  obtain ⟨hip, hty⟩ := h.ip_eq hi
  have hret := hf s.disk h.1.good h.2.1 hty
  simp only [onInode, hip]
  generalize f s.disk (s.disk.dinode i) = r at hret
  rcases r with e | ⟨d', ip', a⟩
  · exact hret
  · obtain ⟨hgood, ht, hstored, hty', hB⟩ := hret
    exact ⟨d'.view, hB, h.store hp hgood ht hstored hty'⟩

theorem triple_modifyInode (hi : i ∈ g.locks) {f : Dinode → Dinode} (hf : ∀ ip, f ip = { ip with
      major := (f ip).major, minor := (f ip).minor, nlink := (f ip).nlink }) :
    Triple (At sb n G p g v w) (modifyInode i f) Panic.Minor fun _ s =>
      ∃ ip : Dinode, ip.type = v.type i ∧ ip.nlink = v.nlink i ∧
        At sb n G p g (v.setNlink i (f ip).nlink) w s := by
  rintro s h
  obtain ⟨hip, hty⟩ := h.ip_eq hi
  obtain ⟨hgood, ht, hslot⟩ := h.1.good.setFields hty (hf (s.disk.dinode i))
  simp only [modifyInode, hip]
  have hty' : (f (s.disk.dinode i)).type = (s.disk.dinode i).type := by rw [hf]
  have hat := h.store hp hgood ht (update_self ..) (by rwa [hty'])
  obtain rfl := h.2.1
  have hview : (s.disk.iupdate i (f (s.disk.dinode i))).view =
      s.disk.view.setNlink i (f (s.disk.dinode i)).nlink := by
    refine ht.view_eq h.1.good (update_self ..) ?_ rfl ?_
    · rw [hty']
      exact (update_eq_self i s.disk.view.type).symm
    · simp only [hty', hslot]
      exact (update_eq_self i s.disk.view.ent).symm
  rw [hview] at hat
  exact ⟨s.disk.dinode i, rfl, rfl, hat⟩

theorem triple_lookup (hi : i ∈ g.locks) (name : Name) :
    Triple (At sb n G p g v w) (lookup sb i name) Panic.Minor fun r s =>
      Looked v i name r ∧ At sb n G p (g.afterLookup r) v w s := by
  have hread : Triple (At sb n G p g v w) (onInode i fun d dp => dirlookup sb d dp name)
      Panic.Minor fun r s =>
      ∃ v', (v' = v ∧ Looked v i name r) ∧ At sb n G p g v' w s := by
    apply triple_onInode hp hi
    rintro d hgood rfl hty
    by_cases hdir : (d.dinode i).type = .dir
    · have hent (k : ℕ) : d.view.ent i k = slot d.data (d.dinode i) k := if_pos hdir
      rcases dirlookup_spec sb name hdir (hgood.mapped i hty) with
        ⟨-, herr⟩ | ⟨k, inum, hfound, hslot, hlive⟩ | ⟨hnone, hall⟩
      · rw [herr]
        exact trivial
      · rw [hfound]
        exact ⟨hgood, Touches.refl, rfl, hty, rfl, hdir, k, rfl, (hent k).trans hslot, hlive⟩
      · rw [hnone]
        refine ⟨hgood, Touches.refl, rfl, hty, rfl, hdir, fun k hk => ?_⟩
        rw [hent k] at hk ⊢
        exact hall k hk
    · have herr : dirlookup sb d (d.dinode i) name = .error .dirlookupNotDir := by
        simp [dirlookup, hdir]
      rw [herr]
      exact trivial
  apply Triple.bind hread
  rintro (_ | ⟨off, inum⟩) s ⟨v', ⟨rfl, hlook⟩, hat⟩
  · exact ⟨hlook, hat⟩
  · exact Triple.bind (triple_iget hp inum) (fun _ => Triple.pure fun t ht => ⟨hlook, ht⟩) s hat

theorem triple_dropRef (hi : i ∈ g.refs) (hlock : i ∈ g.locks → 2 ≤ g.refs.count i) :
    Triple (At sb n G p g v w) (dropRef i) Panic.Minor fun _ => At sb n G p (g.dropRef i) v w := by
  intro s h
  refine h.decRef hp (Ghost.count_dropRef · hi) rfl fun j hj => ?_
  rcases eq_or_ne j i with rfl | hji
  · have htwo := hlock hj
    apply Multiset.count_pos.1
    simp only [Ghost.dropRef, Multiset.count_erase_self]
    omega
  · exact (Multiset.mem_erase_of_ne hji).2 (h.1.mem_refs j hj)

theorem triple_dirlink (hi : i ∈ g.locks) {name : Name} (hname : name.Ok) (inum : ℕ) :
    Triple (At sb n G p g v w) (dirlink sb i name inum) Panic.Minor fun done s =>
      ∃ v', Linked v i name inum done v' ∧ At sb n G p g v' w s := by
  intro s h
  -- a lock comes with a reference of its own, so dropping the one of the lookup leaves one
  have hsub := h.1.mem_refs
  refine Triple.bind (triple_lookup hp hi name) (fun r => ?_) s h
  rcases r with _ | ⟨off, found⟩
  · rintro t ⟨⟨hdir, hall⟩, hat⟩
    refine triple_onInode hp hi (B := fun done v' => Linked v i name inum done v') ?_ t hat
    rintro d hgood rfl hty
    have hent (k : ℕ) : d.view.ent i k = slot d.data (d.dinode i) k := if_pos hdir
    rcases hgood.writeEntry_cases hty hname inum with
      ⟨-, herr⟩ | ⟨d', ip', done, hok, hstep, hslots⟩
    · rw [herr]
      exact trivial
    · rw [hok]
      refine ⟨hstep.good, hstep.touches, hstep.stored, hstep.type_ne hty, ?_⟩
      rcases hslots with ⟨rfl, hsame⟩ | ⟨rfl, k, hfree, hbefore, hset⟩
      · exact .inl ⟨rfl, hstep.view_same hgood hsame⟩
      · simp only [← hent] at hfree hbefore
        exact .inr ⟨rfl, hall, hdir, k, hfree, hbefore, hstep.view_setEnt hgood hdir hset⟩
  · intro t ht
    refine Triple.bind (triple_dropRef hp (Multiset.mem_cons_self found g.refs) fun hl => ?_)
      (fun _ => Triple.pure fun u hu => ?_) t ht.2
    · have hcount : 0 < g.refs.count found := Multiset.count_pos.2 (hsub found hl)
      simp only [Ghost.afterLookup, Ghost.addRef, Multiset.count_cons_self]
      omega
    · simp only [Ghost.afterLookup, Ghost.dropRef_addRef] at hu
      exact ⟨v, .inl ⟨rfl, rfl⟩, hu⟩

theorem triple_allocInode (type : IType) :
    Triple (At sb n G p g v w) (allocInode sb type) Panic.Minor fun r s =>
      ∃ v' g', Alloced sb v type g r v' g' ∧ At sb n G p g' v' w s := by
  intro s h
  have hb := h.1
  unfold allocInode
  rcases ialloc_cases sb s.disk type with hnone | ⟨inum, hpos, hlt, hfree, hsome⟩
  · rw [hnone]
    exact ⟨v, g, ⟨rfl, rfl⟩, h⟩
  · rw [hsome]
    obtain ⟨hgood, ht⟩ := hb.good.alloc hfree type
    have hview : (s.disk.iupdate inum ⟨type, 0, 0, 0, 0, fun _ => 0⟩).view = v.alloc inum type := by
      rw [← h.2.1]
      refine ht.view_eq hb.good (update_self ..) rfl rfl (.symm ?_)
      refine (congrArg (update _ inum) (funext fun k => ?_)).trans
        (update_eq_self inum s.disk.view.ent)
      simp only [Disk.view, hfree, reduceCtorEq, if_false]
      split_ifs
      · exact slot_of_gt (by simp [deSize])
      · rfl
    -- a free inode is not valid in the table, so no copy is out of date
    have hat := h.set (e := s.itable inum) (a := s.active) hp hgood hview ht.dinode
      (fun hpos hv => absurd hfree (hb.coherent inum hpos hv).2) (fun _ _ => rfl) le_rfl
      (fun _ _ => Iff.rfl) hb.mem_refs (hb.lock inum) hb.valid_of_lock
    rw [update_eq_self] at hat
    exact Triple.bind (triple_iget hp inum) (fun _ => Triple.pure fun t ht' =>
      ⟨v.alloc inum type, g.addRef inum, ⟨hpos, hlt, (h.type inum).symm.trans hfree, rfl, rfl⟩,
        ht'⟩) _ hat

theorem At.sole (h : At sb n G p g v w s) (hi : i ∈ g.refs) (hone : (s.itable i).ref = 1) :
    g.refs.count i = 1 ∧ (w p).uses i = 0 ∧ ∀ q, q ≠ p → i ∉ (G q).refs ∧ (w q).uses i = 0 := by
  rw [← h.2.2]
  have hle := h.1.refs i
  rw [hone] at hle
  have hcount : 0 < g.refs.count i := Multiset.count_pos.2 hi
  have hsplit :=
    add_sum_erase (range n) (fun q => heldBy s (update G p g q) q i) (Finset.mem_range.2 hp)
  simp only [update_self] at hsplit
  have hself : heldBy s g p i = g.refs.count i + g.dead.count i + (s.procs p).uses i := rfl
  refine ⟨by omega, by omega, fun q hqp => ?_⟩
  rcases le_or_gt n q with hq | hq
  · obtain ⟨hproc, hidle⟩ := h.1.outside q hq
    rw [update_of_ne hqp] at hidle
    rw [hproc, hidle]
    exact ⟨Multiset.notMem_zero i, Proc.uses_exited i⟩
  · have hterm :=
      single_le_sum (f := fun r => heldBy s (update G p g r) r i) (fun _ _ => Nat.zero_le _)
        (Finset.mem_erase.2 ⟨hqp, Finset.mem_range.2 hq⟩)
    have hother : heldBy s (G q) q i =
        (G q).refs.count i + (G q).dead.count i + (s.procs q).uses i := rfl
    simp only [update_of_ne hqp] at hterm
    exact ⟨Multiset.count_eq_zero.1 (by omega), by omega⟩

theorem triple_iput (hi : i ∈ g.refs) (hnl : i ∉ g.locks) :
    Triple (At sb n G p g v w) (iput i) Panic.Minor fun r s =>
      ∃ v' g', Put G p i g v w r v' g' ∧ At sb n G p g' v' w s := by
  intro s h
  have hb := h.1
  unfold iput
  split_ifs with hfree hlocked
  · exact trivial
  · obtain ⟨href, hval, hnlink⟩ := hfree
    obtain ⟨hip, hty⟩ := hb.coherent i (by omega) hval
    obtain ⟨d', htrunc, hgood, ht⟩ := hb.good.truncate hty .none
    obtain ⟨hone, huses, hothers⟩ := h.sole hp hi href
    change (s.itable i).copy.nlink = 0 at hnlink
    simp only [State.ip, hip, htrunc] at hnlink ⊢
    -- the inode on disk is stored twice, by `itrunc` and with its type cleared
    have hdisk : ((d'.iupdate i (s.disk.dinode i).truncated).iupdate i
        { (s.disk.dinode i).truncated with type := .none }) =
        d'.iupdate i { (s.disk.dinode i).truncated with type := .none } := by
      simp [Disk.iupdate]
    simp only [State.store, State.setInode, update_idem, update_self, hdisk]
    obtain rfl := h.2.1
    refine ⟨s.disk.view.free i, g.free i, ⟨rfl, rfl, hnlink, hty, hone, huses, hothers⟩, ?_⟩
    refine h.set (a := s.active) hp hgood ?_ ht.dinode (fun _ hv => Bool.noConfusion hv)
      (fun j hj => ?_) ?_ (fun _ _ => Iff.rfl) (fun j hj => ?_) (hb.lock_update i (g.free i) rfl)
      fun hne => absurd hne hlocked
    · refine ht.view_eq hb.good (update_self ..) rfl (update_eq_self i s.disk.view.nlink).symm ?_
      simp only [reduceCtorEq, if_false]
      rfl
    · simp only [Ghost.free, Multiset.count_erase_of_ne hj, Multiset.count_cons_of_ne hj]
    · simp only [Ghost.free, Multiset.count_erase_self, Multiset.count_cons_self]
      omega
    · exact (Multiset.mem_erase_of_ne (ne_of_mem_of_not_mem hj hnl)).2 (hb.mem_refs j hj)
  · exact ⟨v, g.dropRef i, ⟨rfl, rfl⟩, triple_dropRef hp hi (fun hl => absurd hl hnl) s h⟩

theorem triple_dropDead (hi : i ∈ g.dead) :
    Triple (At sb n G p g v w) (dropRef i) Panic.Minor fun _ => At sb n G p (g.dropDead i) v w :=
  fun _ h => h.decRef hp (Ghost.count_dropDead · hi) rfl h.1.mem_refs

theorem triple_writei (hi : i ∈ g.locks) (off : ℕ) (src : List UInt8) (avail : ℕ) :
    Triple (At sb n G p g v w) (onInode i fun d ip => writei sb d i ip off src avail)
      Panic.Minor fun _ s => ∃ v', Rewritten v i v' ∧ At sb n G p g v' w s := by
  apply triple_onInode hp hi (B := fun _ v' => Rewritten v i v')
  rintro d hgood rfl hty
  rcases hgood.writei_cases hty off src avail with href | ⟨d', ip', last, hok, hstep, -⟩
  · rw [href]
    refine ⟨hgood, Touches.refl, rfl, hty, ⟨d.view.ent i, ?_⟩, fun _ => rfl⟩
    rw [update_eq_self]
  · rw [hok]
    refine ⟨hstep.good, hstep.touches, hstep.stored, hstep.type_ne hty,
      ⟨_, hstep.view_eq hgood fun k => rfl⟩, fun hdir => ?_⟩
    have hdir' : (d.dinode i).type ≠ .dir := hdir
    rw [hstep.view_eq hgood (e := d.view.ent i) (fun k => by simp [Disk.view, hdir']),
      update_eq_self]

theorem triple_erase (hi : i ∈ g.locks) {k : ℕ} (hk : (v.ent i k).inum ≠ 0) :
    Triple (At sb n G p g v w)
      (onInode i fun d dp => writei sb d i dp (deSize * k) (List.replicate deSize 0) deSize)
      Panic.Minor fun r s => ∃ v', (r = deSize ∧ v' = v.setEnt i k ⟨0, []⟩) ∧
      At sb n G p g v' w s := by
  apply triple_onInode hp hi (B := fun (r : ℤ) v' => r = deSize ∧ v' = v.setEnt i k ⟨0, []⟩)
  rintro d hgood rfl hty
  have hdir : (d.dinode i).type = .dir := by
    by_contra hne
    simp [Disk.view, hne] at hk
  simp only [Disk.view, if_pos hdir] at hk
  obtain ⟨d', ip', hok, hstep, hset⟩ := hgood.eraseEntry hty hk
  rw [hok]
  exact ⟨hstep.good, hstep.touches, hstep.stored, hstep.type_ne hty, rfl,
    hstep.view_setEnt hgood hdir hset⟩

theorem triple_truncate (hi : i ∈ g.locks) :
    Triple (At sb n G p g v w) (truncate i) Panic.Minor fun _ s =>
      ∃ v', Rewritten v i v' ∧ At sb n G p g v' w s := by
  apply triple_onInode hp hi (B := fun _ v' => Rewritten v i v')
  rintro d hgood rfl hty
  obtain ⟨d', htrunc, hgood', ht⟩ := hgood.truncate hty (d.dinode i).type
  rw [htrunc]
  have hview :=
    ht.view_eq hgood (update_self ..) (w := { d.view with ent := update d.view.ent i _ })
      (update_eq_self i d.view.type).symm (update_eq_self i d.view.nlink).symm rfl
  refine ⟨hgood', ht, update_self .., hty, ⟨_, hview⟩, fun hdir => hview.trans ?_⟩
  have hrow :
      (fun k => if (d.dinode i).truncated.type = .dir then slot d'.data (d.dinode i).truncated k
      else ⟨0, []⟩) = d.view.ent i := funext fun k => (if_neg hdir).trans (if_neg hdir).symm
  exact (congrArg (fun e => { d.view with ent := update d.view.ent i e }) hrow).trans
    (by rw [update_eq_self])

/-- `isdirempty` on a locked directory: yes means that no slot after the first two is in use. -/
theorem triple_isdirempty (hi : i ∈ g.locks) (hdir : v.type i = .dir) :
    Triple (At sb n G p g v w) (onInode i fun d ip => isdirempty sb d ip) Panic.Minor fun r s =>
      ∃ v', (v' = v ∧ (r = true → ∀ k, 2 ≤ k → (v.ent i k).inum = 0)) ∧ At sb n G p g v' w s := by
  apply triple_onInode hp hi
    (B := fun r v' => v' = v ∧ (r = true → ∀ k, 2 ≤ k → (v.ent i k).inum = 0))
  rintro d hgood rfl hty
  rcases isdirempty_spec sb (hgood.mapped i hty) with herr | hfull | ⟨hempty, hall⟩
  · rw [herr]
    exact trivial
  · rw [hfull]
    exact ⟨hgood, Touches.refl, rfl, hty, rfl, fun h => Bool.noConfusion h⟩
  · rw [hempty]
    refine ⟨hgood, Touches.refl, rfl, hty, rfl, fun _ k hk => ?_⟩
    have hent : d.view.ent i k = slot d.data (d.dinode i) k := if_pos hdir
    rw [hent]
    exact hall k hk

end base

end Xv6.Fs
