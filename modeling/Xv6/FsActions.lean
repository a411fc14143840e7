import Xv6.FsInv

/-!
# What the sections of the calls do

One triple for each action of `Sysfile`, put together from those of its primitives. Each says what
the process holds afterwards and how the view of the disk has changed; most sections only read. The
invariants of the later modules use these and never unfold an action.
-/

namespace Xv6.Fs

open Act Function Multiset

variable {sb : Super} {n : ℕ} {G : ℕ → Ghost} {p i : ℕ} {g : Ghost} {v : View} {w : ℕ → Proc}

variable {α : Type} {E : Panic → Prop}

theorem Act.Triple.noType {A : State → Prop} {x : Act α} {B : α → State → Prop}
    (h : Triple A x Panic.Minor B) (v : View) (i : ℕ) : Triple A x (NoType v i) B :=
  h.conseq (fun _ he => .inl he) fun _ _ hs => hs

theorem minor_le : Panic.Minor ≤ NoType v i := fun _ => .inl

theorem get_bind (f : State → Act α) (s : State) : (get >>= f) s = f s s := rfl

theorem Ghost.dropLock_addLock (hi : i ∉ g.locks) : (g.addLock i).dropLock i = g := by
  simp [Ghost.addLock, Ghost.dropLock, hi]

theorem Ghost.dropLock_addRef (hi : i ∉ g.locks) (j : ℕ) :
    ((g.addLock i).addRef j).dropLock i = g.addRef j := by
  simp [Ghost.addLock, Ghost.addRef, Ghost.dropLock, hi]

theorem Ghost.mem_addLock (g : Ghost) (i : ℕ) : i ∈ (g.addLock i).locks :=
  Finset.mem_insert_self i g.locks

theorem At.mine {s : State} (h : At sb n G p g v w s) (hi : i ∈ g.locks) {q : ℕ} (hq : q ≠ p) :
    i ∉ (G q).locks := by
  intro hmem
  have hlock := (h.1.lock i p).2 (by rwa [update_self])
  have hother := (h.1.lock i q).2 (by rwa [update_of_ne hq])
  rw [hlock] at hother
  exact hq (Option.some.inj hother).symm

theorem triple_locked (hp : p < n) (hi : i ∈ g.refs) (hE : NoType v i ≤ E) {x : Act α}
    {B : α → State → Prop}
    (h : i ∉ g.locks → v.type i ≠ .none → (∀ q, q ≠ p → i ∉ (G q).locks) →
      Triple (At sb n G p (g.addLock i) v w) x E B) :
    Triple (At sb n G p g v w) (do ilock p i; x) E B := by
  refine Triple.bind ((triple_ilock hp hi).conseq hE fun _ _ hs => hs) ?_
  rintro _ s ⟨hat, hnot, hty⟩
  exact h hnot hty (fun q hq => hat.mine (g.mem_addLock i) hq) s hat

/-- The fields that a section reads of a locked inode are those of the view. -/
theorem triple_reading (hi : i ∈ g.locks) {f : State → Act α} {B : α → State → Prop}
    (h : ∀ s₀ : State, (s₀.ip i).type = v.type i → (s₀.ip i).nlink = v.nlink i →
      s₀.procs = w → Triple (At sb n G p g v w) (f s₀) E B) :
      Triple (At sb n G p g v w) (get >>= f) E B := by
  intro s hs
  obtain ⟨hip, -⟩ := hs.ip_eq hi
  refine h s ?_ ?_ hs.2.2 s hs
  · rw [hip, hs.type]
  · rw [hip, ← hs.2.1]
    rfl

theorem triple_unlockWith (hp : p < n) {a : α} {g' : Ghost} (hg : g.dropLock i = g')
    (hE : Panic.Minor ≤ E) {B : α → State → Prop} (hB : ∀ s, At sb n G p g' v w s → B a s) :
    Triple (At sb n G p g v w) (do iunlock p i; return a) E B := by
  subst hg
  refine Triple.bind ((triple_iunlock hp).conseq hE fun _ _ hs => hs) ?_
  exact fun _ => Triple.pure hB

section namex

theorem triple_enter : Triple (At sb n G p g v w)
    (enter p) Panic.Minor fun _ s => At sb n G p g v w s ∧ p < n := by
  intro s h
  rw [enter, get_bind]
  split_ifs with hcwd
  · exact trivial
  · refine ⟨h, ?_⟩
    by_contra hp
    rw [(h.1.outside p (by omega)).1] at hcwd
    exact hcwd rfl

theorem triple_namexStart (hp : p < n) (path : Path) :
    Triple (At sb n G p g v w) (namexStart p path) Panic.Minor fun i s =>
      At sb n G p (g.addRef i) v w s ∧ (i = rootino ∨ (w p).cwd = some i) := by
  unfold namexStart
  split_ifs
  · exact Triple.bind (triple_iget hp rootino) fun _ => Triple.pure fun _ hs => ⟨hs, .inl rfl⟩
  · have hget : Triple (At sb n G p g v w) (get : Act State) Panic.Minor fun s₀ s =>
        At sb n G p g v w s ∧ s₀.procs = w := Triple.get fun s h => ⟨h, h.2.2⟩
    refine Triple.bind hget fun s₀ => Triple.assume (fun _ hs => hs) fun hw => ?_
    rw [hw]
    cases hcwd : (w p).cwd with
    | none => exact fun _ _ => trivial
    | some c =>
      have huses : 0 < (w p).uses c := by
        simp only [Proc.uses, hcwd, if_true]
        omega
      exact Triple.bind (triple_idup hp huses) fun _ => Triple.pure fun _ hs => ⟨hs, .inr rfl⟩

def Walked (v : View) (i : ℕ) (name : Name) (g : Ghost) : Walk → Ghost → Prop
  | .fail, g' => g' = g
  | .stop, g' => g' = g ∧ v.type i = .dir
  | .next inum, g' => g' = g.addRef inum ∧ v.type i = .dir ∧ ∃ k,
    v.ent i k = ⟨inum, name⟩ ∧ inum ≠ 0

theorem triple_walk (hp : p < n) (hi : i ∈ g.refs) (parent last : Bool) (name : Name) :
    Triple (At sb n G p g v w) (walk sb p parent last i name) (NoType v i) fun r s =>
      ∃ g', Walked v i name g r g' ∧ At sb n G p g' v w s := by
  refine triple_locked hp hi le_rfl fun hnot _ _ => ?_
  have hmem := g.mem_addLock i
  have hback := Ghost.dropLock_addLock hnot
  refine triple_reading hmem fun s₀ htype _ _ => ?_
  rw [htype]
  split_ifs with hdir hstop
  · exact triple_unlockWith hp hback minor_le fun _ hs => ⟨g, rfl, hs⟩
  · exact triple_unlockWith hp hback minor_le fun _ hs => ⟨g, ⟨rfl, not_not.1 hdir⟩, hs⟩
  · refine Triple.bind ((triple_lookup hp hmem name).noType v i) fun r =>
      Triple.assume (fun _ hs => hs.symm) fun hlook => ?_
    rcases r with _ | ⟨off, inum⟩
    · exact triple_unlockWith hp hback minor_le fun _ hs => ⟨g, rfl, hs⟩
    · obtain ⟨hdir, k, -, hent, hlive⟩ := hlook
      exact triple_unlockWith hp (Ghost.dropLock_addRef hnot inum) minor_le
        fun _ hs => ⟨_, ⟨rfl, hdir, k, hent, hlive⟩, hs⟩

end namex

section link

theorem nlinkOnly (f : ℤ → ℤ) (ip : Dinode) : ({ ip with nlink := f ip.nlink } : Dinode) = { ip with
      major := ({ ip with nlink := f ip.nlink } : Dinode).major
      minor := ({ ip with nlink := f ip.nlink } : Dinode).minor
      nlink := ({ ip with nlink := f ip.nlink } : Dinode).nlink } := rfl

theorem triple_count (hp : p < n) (hi : i ∈ g.locks) (f : ℤ → ℤ) :
    Triple (At sb n G p g v w) (modifyInode i fun ip => { ip with nlink := f ip.nlink })
      Panic.Minor fun _ => At sb n G p g (v.setNlink i (f (v.nlink i))) w := by
  refine (triple_modifyInode hp hi (nlinkOnly f)).conseq (fun _ he => he) ?_
  rintro _ s ⟨ip, -, hnlink, hs⟩
  rwa [← hnlink]

def Counted (v : View) (i : ℕ) : Bool → View → Prop
  | false, v' => v' = v
  | true, v' => v.type i ≠ .dir ∧ v.type i ≠ .none ∧ v' = v.setNlink i (incShort (v.nlink i))

theorem triple_linkCount (hp : p < n) (hi : i ∈ g.refs) :
    Triple (At sb n G p g v w) (linkCount p i) (NoType v i) fun r s =>
      ∃ v', Counted v i r v' ∧ At sb n G p g v' w s := by
  refine triple_locked hp hi le_rfl fun hnot hty _ => ?_
  have hmem := g.mem_addLock i
  have hback := Ghost.dropLock_addLock hnot
  refine triple_reading hmem fun s₀ htype _ _ => ?_
  rw [htype]
  split_ifs with hdir
  · exact triple_unlockWith hp hback minor_le fun _ hs => ⟨v, rfl, hs⟩
  · exact Triple.bind ((triple_count hp hmem incShort).noType v i) fun _ =>
      triple_unlockWith hp hback minor_le fun _ hs => ⟨_, ⟨hdir, hty, rfl⟩, hs⟩

theorem triple_linkEntry (hp : p < n) {dnum : ℕ} (hd : dnum ∈ g.refs) {name : Name}
    (hname : name.Ok) (i : ℕ) :
    Triple (At sb n G p g v w) (linkEntry sb p dnum name i) (NoType v dnum) fun r s =>
      ∃ v', Linked v dnum name i r v' ∧ (∀ q, q ≠ p → dnum ∉ (G q).locks) ∧
        At sb n G p g v' w s := by
  refine triple_locked hp hd le_rfl fun hnot _ hmine => ?_
  apply Triple.bind ((triple_dirlink hp (g.mem_addLock dnum) hname i).noType v dnum)
  rintro done s ⟨v', hlinked, hat⟩
  exact triple_unlockWith hp (Ghost.dropLock_addLock hnot) minor_le
    (fun _ ht => ⟨v', hlinked, hmine, ht⟩) s hat

theorem triple_linkUndo (hp : p < n) (hi : i ∈ g.refs) :
    Triple (At sb n G p g v w) (linkUndo p i) (NoType v i) fun _ =>
      At sb n G p g (v.setNlink i (decShort (v.nlink i))) w := by
  refine triple_locked hp hi le_rfl fun hnot _ _ => ?_
  refine Triple.bind ((triple_count hp (g.mem_addLock i) decShort).noType v i) fun _ =>
    (triple_iunlock hp).conseq (fun _ he => .inl he) fun _ s hs => ?_
  rwa [Ghost.dropLock_addLock hnot] at hs

end link

section unlink

def Found (v : View) (dnum : ℕ) (name : Name) (g : Ghost) : Option (ℕ × ℕ) → Ghost → Prop
  | none, g' => g' = g
  | some (off, inum), g' => g' = (g.addLock dnum).addRef inum ∧ dnum ∉ g.locks ∧
      name ≠ dot ∧ name ≠ dotdot ∧ v.type dnum = .dir ∧
      ∃ k, off = deSize * k ∧ v.ent dnum k = ⟨inum, name⟩ ∧ inum ≠ 0

theorem triple_unlinkFind (hp : p < n) {dnum : ℕ} (hd : dnum ∈ g.refs) (name : Name) :
    Triple (At sb n G p g v w) (unlinkFind sb p dnum name) (NoType v dnum) fun r s =>
      ∃ g', Found v dnum name g r g' ∧ At sb n G p g' v w s := by
  refine triple_locked hp hd le_rfl fun hnot _ _ => ?_
  have hmem := g.mem_addLock dnum
  have hback := Ghost.dropLock_addLock hnot
  split_ifs with hdots
  · exact triple_unlockWith hp hback minor_le fun _ hs => ⟨g, rfl, hs⟩
  · refine Triple.bind ((triple_lookup hp hmem name).noType v dnum) fun r =>
      Triple.assume (fun _ hs => hs.symm) fun hlook => ?_
    rcases r with _ | ⟨off, inum⟩
    · exact triple_unlockWith hp hback minor_le fun _ hs => ⟨g, rfl, hs⟩
    · obtain ⟨hdir, k, hoff, hent, hlive⟩ := hlook
      exact Triple.pure fun s hs =>
        ⟨_, ⟨rfl, hnot, fun h => hdots (.inl h), fun h => hdots (.inr h), hdir, k, hoff,
          hent, hlive⟩, hs⟩

/-- What the second section of `sys_unlink` does: the entry in slot `k` is erased, with the count
that the directory had for a subdirectory, or the inode is a directory in use. -/
def Erased (v : View) (dnum k i : ℕ) (g : Ghost) : Bool → View → Ghost → Prop
  | false, v', g' => v' = v ∧ g' = g ∧ i ∉ g.locks
  | true, v', g' => g' = (g.addLock i).dropLock dnum ∧ i ∉ g.locks ∧ 1 ≤ v.nlink i ∧
      v.type i ≠ .none ∧ (v.type i = .dir → ∀ m, 2 ≤ m → (v.ent i m).inum = 0) ∧
      v' = if v.type i = .dir
        then (v.setEnt dnum k ⟨0, []⟩).setNlink dnum (decShort (v.nlink dnum))
        else v.setEnt dnum k ⟨0, []⟩

def NoLink (v : View) (i : ℕ) (e : Panic) : Prop :=
  NoType v i e ∨ e = .unlinkNlink ∧ v.nlink i < 1

theorem Act.Triple.noLink {α : Type} {A : State → Prop} {x : Act α} {B : α → State → Prop}
    (h : Triple A x Panic.Minor B) (v : View) (i : ℕ) : Triple A x (NoLink v i) B :=
  h.conseq (fun _ he => .inl (.inl he)) fun _ _ hs => hs

theorem triple_eraseEntry (hp : p < n) {dnum k : ℕ} (hd : dnum ∈ g.locks)
    (hk : (v.ent dnum k).inum ≠ 0) (isDir : Bool) :
    Triple (At sb n G p g v w) (eraseEntry sb isDir dnum (deSize * k)) Panic.Minor
    fun _ => At sb n G p g (if isDir
        then (v.setEnt dnum k ⟨0, []⟩).setNlink dnum (decShort (v.nlink dnum)) else v.setEnt dnum k
          ⟨0, []⟩) w := by
  apply Triple.bind (triple_erase hp hd hk)
  rintro r s ⟨v', ⟨hr, rfl⟩, hat⟩
  rw [if_pos hr]
  cases isDir with
  | true => exact triple_count hp hd decShort s hat
  | false => exact hat

theorem triple_checkEmpty (hp : p < n) (hi : i ∈ g.locks) :
    Triple (At sb n G p g v w) (checkEmpty sb (decide (v.type i = .dir)) i) Panic.Minor
    fun r s => At sb n G p g v w s ∧
        (r = true → v.type i = .dir → ∀ k, 2 ≤ k → (v.ent i k).inum = 0) := by
  unfold checkEmpty
  split_ifs with hdir
  · refine (triple_isdirempty hp hi (of_decide_eq_true hdir)).conseq (fun _ he => he) ?_
    rintro r s ⟨v', ⟨rfl, hempty⟩, hs⟩
    exact ⟨hs, fun hr _ => hempty hr⟩
  · exact Triple.pure fun _ hs => ⟨hs, fun _ h => absurd (decide_eq_true h) hdir⟩

theorem triple_unlinkErase (hp : p < n) {dnum k : ℕ} (hd : dnum ∈ g.locks) (hi : i ∈ g.refs)
    (hk : (v.ent dnum k).inum ≠ 0) :
    Triple (At sb n G p g v w) (unlinkErase sb p dnum (deSize * k) i) (NoLink v i) fun r s =>
      ∃ v' g', Erased v dnum k i g r v' g' ∧ At sb n G p g' v' w s := by
  refine triple_locked hp hi (fun _ => .inl) fun hnot hty _ => ?_
  have hmem := g.mem_addLock i
  have hdmem : dnum ∈ (g.addLock i).locks := Finset.mem_insert_of_mem hd
  refine triple_reading hmem fun s₀ htype hnlink _ => ?_
  rw [htype, hnlink]
  split_ifs with hlink
  · exact fun _ _ => .inr ⟨rfl, hlink⟩
  · refine Triple.bind ((triple_checkEmpty hp hmem).noLink v i) fun empty =>
      Triple.assume (fun _ hs => hs) fun hempty => ?_
    cases empty with
    | true =>
      refine Triple.bind ((triple_eraseEntry hp hdmem hk _).noLink v i) fun _ =>
        triple_unlockWith hp rfl (fun _ he => .inl (.inl he)) fun _ hs => ?_
      refine ⟨_, _, ⟨rfl, hnot, by omega, hty, hempty rfl, rfl⟩, ?_⟩
      simpa only [decide_eq_true_eq] using hs
    | false =>
      exact triple_unlockWith hp (Ghost.dropLock_addLock hnot) (fun _ he => .inl (.inl he))
        fun _ hs => ⟨v, g, ⟨rfl, rfl, hnot⟩, hs⟩

theorem triple_unlinkCount (hp : p < n) (hi : i ∈ g.locks) :
    Triple (At sb n G p g v w) (unlinkCount p i) Panic.Minor fun _ =>
      At sb n G p (g.dropLock i) (v.setNlink i (decShort (v.nlink i))) w :=
  Triple.bind (triple_count hp hi decShort) fun _ => triple_iunlock hp

end unlink

section create

theorem dot_ok : Name.Ok dot := ⟨by simp [dot], by decide⟩

theorem dotdot_ok : Name.Ok dotdot := ⟨by simp [dotdot], by decide⟩

/-- The view after the first `m` of the entries "." and ".." of a new directory. -/
def View.dots (v : View) (inum dnum : ℕ) : ℕ → View
  | 0 => v
  | 1 => v.setEnt inum 0 ⟨inum % 65536, dot⟩
  | _ => (v.setEnt inum 0 ⟨inum % 65536, dot⟩).setEnt inum 1 ⟨dnum % 65536, dotdot⟩

theorem View.dots_of_ne {inum d : ℕ} (hd : d ≠ inum) (dnum m : ℕ) :
    (v.dots inum dnum m).ent d = v.ent d := by
  unfold View.dots
  split <;> simp [View.setEnt, hd]

theorem View.dots_type (inum dnum m : ℕ) : (v.dots inum dnum m).type = v.type := by
  unfold View.dots
  split <;> rfl

theorem View.dots_nlink (inum dnum m : ℕ) : (v.dots inum dnum m).nlink = v.nlink := by
  unfold View.dots
  split <;> rfl

theorem triple_linkDots (hp : p < n) {inum dnum : ℕ} (hi : inum ∈ g.locks)
    (hlive : inum % 65536 ≠ 0) (hnew : ∀ k, (v.ent inum k).inum = 0) :
    Triple (At sb n G p g v w) (linkDots sb inum dnum) Panic.Minor fun r s =>
      ∃ m, (r = true → m = 2) ∧ At sb n G p g (v.dots inum dnum m) w s := by
  apply Triple.bind (triple_dirlink hp hi dot_ok inum)
  rintro done s ⟨v', ⟨rfl, rfl⟩ | ⟨rfl, -, -, k, -, hbefore, rfl⟩, hat⟩
  · exact ⟨0, fun h => Bool.noConfusion h, hat⟩
  have hk : k = 0 := by
    by_contra hne
    exact hbefore 0 (by omega) (hnew 0)
  subst hk
  refine (triple_dirlink hp hi dotdot_ok dnum).conseq (fun _ he => he) ?_ s hat
  rintro done t ⟨v'', ⟨rfl, rfl⟩ | ⟨rfl, -, -, k, hfree, hbefore, rfl⟩, hat'⟩
  · exact ⟨1, fun h => Bool.noConfusion h, hat'⟩
  · have hk : k = 1 := by
      by_contra hne
      by_cases hk0 : k = 0
      · subst hk0
        simp [View.setEnt, hlive] at hfree
      · apply hbefore 1 (by omega)
        simp [View.setEnt, hnew]
    subst hk
    exact ⟨2, fun _ => rfl, hat'⟩

def Named (v : View) (dnum inum : ℕ) (name : Name) (type : IType) : Bool → View → Prop
  | true, v' => v.type dnum = .dir ∧ (∀ k, (v.ent dnum k).inum ≠ 0 → (v.ent dnum k).name ≠ name) ∧
      ∃ k, (v.ent dnum k).inum = 0 ∧ (∀ m, m < k → (v.ent dnum m).inum ≠ 0) ∧
        v' = (v.dots inum dnum (if type = .dir then 2 else 0)).setEnt dnum k ⟨inum % 65536, name⟩
  | false, v' => ∃ m, (type ≠ .dir → m = 0) ∧ v' = v.dots inum dnum m

variable {name : Name} {type : IType}

theorem Linked.named {dnum inum m : ℕ} (hne : dnum ≠ inum)
    (hm : m = if type = .dir then 2 else 0) {done : Bool} {v' : View}
    (h : Linked (v.dots inum dnum m) dnum name inum done v') :
    Named v dnum inum name type done v' := by
  rcases h with ⟨rfl, rfl⟩ | ⟨rfl, hall, hdir, k, hfree, hbefore, rfl⟩
  · exact ⟨m, fun hty => by rw [hm, if_neg hty], rfl⟩
  · rw [View.dots_type] at hdir
    simp only [View.dots_of_ne hne] at hall hfree hbefore
    exact ⟨hdir, hall, k, hfree, hbefore, by rw [hm]⟩

theorem triple_linkNew (hp : p < n) {inum dnum : ℕ} (hi : inum ∈ g.locks) (hd : dnum ∈ g.locks)
    (hne : dnum ≠ inum) (hlive : inum % 65536 ≠ 0) (hnew : ∀ k, (v.ent inum k).inum = 0)
    (hname : name.Ok)
    (type : IType) :
    Triple (At sb n G p g v w) (linkNew sb dnum name type inum) Panic.Minor fun r s =>
      ∃ v', Named v dnum inum name type r v' ∧ At sb n G p g v' w s := by
  have hlink {m : ℕ} (hm : m = if type = .dir then 2 else 0) :
      Triple (At sb n G p g (v.dots inum dnum m) w) (dirlink sb dnum name inum)
      Panic.Minor fun r s =>
        ∃ v', Named v dnum inum name type r v' ∧ At sb n G p g v' w s := by
    refine (triple_dirlink hp hd hname inum).conseq (fun _ he => he) ?_
    rintro done t ⟨v', hlinked, hat⟩
    exact ⟨v', hlinked.named hne hm, hat⟩
  unfold linkNew
  split_ifs with hty
  · apply Triple.bind (triple_linkDots hp hi hlive hnew)
    rintro r s ⟨m, hm, hat⟩
    cases r with
    | false => exact ⟨_, ⟨m, fun h => absurd hty h, rfl⟩, hat⟩
    | true => exact hlink (by rw [hm rfl, if_pos hty]) s hat
  · exact hlink (m := 0) (by rw [if_neg hty])

def View.made (v : View) (dnum inum k : ℕ) (name : Name) (type : IType) : View :=
  let new := (v.alloc inum type).setNlink inum 1
  if type = .dir then
    ((new.dots inum dnum 2).setEnt dnum k ⟨inum % 65536, name⟩).setNlink dnum
      (incShort (v.nlink dnum))
  else new.setEnt dnum k ⟨inum % 65536, name⟩

def CreatedAs (sb : Super) (v : View) (dnum : ℕ) (name : Name) (type : IType) (g : Ghost) :
    Created → View → Ghost → Prop
  | .found inum, v', g' => v' = v ∧ g' = g.addRef inum ∧ v.type dnum = .dir ∧
      ∃ k, v.ent dnum k = ⟨inum, name⟩ ∧ inum ≠ 0
  | .noInode, v', g' => v' = v ∧ g' = g
  | .created inum, v', g' => 0 < inum ∧ inum < sb.ninodes ∧ v.type inum = .none ∧ dnum ≠ inum ∧
    v.type dnum = .dir ∧
      (∀ k, (v.ent dnum k).inum ≠ 0 → (v.ent dnum k).name ≠ name) ∧
      g' = (g.addRef inum).addLock inum ∧
      ∃ k, (v.ent dnum k).inum = 0 ∧ (∀ m, m < k → (v.ent dnum m).inum ≠ 0) ∧
      v' = v.made dnum inum k name type
  | .failed inum, v', g' => 0 < inum ∧ inum < sb.ninodes ∧ v.type inum = .none ∧
      dnum ≠ inum ∧ dnum ∉ g.locks ∧ g' = (g.addLock dnum).addRef inum ∧
      ∃ m, (type ≠ .dir → m = 0) ∧ v' = (v.alloc inum type).dots inum dnum m

theorem View.failed_eq (dnum inum m : ℕ) (type : IType) :
    ((((v.alloc inum type).setNlink inum 1).dots inum dnum m).setNlink inum 0) =
      (v.alloc inum type).dots inum dnum m := by
  unfold View.dots
  split <;> simp [View.setEnt, View.setNlink, View.alloc]

theorem triple_countParent (hp : p < n) {dnum : ℕ} (hd : dnum ∈ g.locks) (type : IType) :
    Triple (At sb n G p g v w) (countParent dnum type) Panic.Minor fun _ =>
      At sb n G p g (if type = .dir then v.setNlink dnum (incShort (v.nlink dnum)) else v) w := by
  unfold countParent
  split_ifs
  · exact triple_count hp hd incShort
  · exact Triple.pure fun _ hs => hs

/-- The entries of the new inode are made and counted, or its count is taken back. -/
theorem triple_fillInode (hp : p < n) {inum dnum : ℕ} (hi : inum ∈ g.refs) (hd : dnum ∈ g.locks)
    (hne : dnum ≠ inum) (hlive : inum % 65536 ≠ 0) (htype : type ≠ .none)
    (hnew : ∀ k, (v.ent inum k).inum = 0) (hname : name.Ok) (major minor : ℤ) :
    Triple (At sb n G p g (v.alloc inum type) w) (fillInode sb p dnum name type major minor inum)
    Panic.Minor fun r s =>
      ∃ v' g', At sb n G p g' v' w s ∧ inum ∉ g.locks ∧
        ((r = .created inum ∧ g' = (g.addLock inum).dropLock dnum ∧ v.type dnum = .dir ∧
          (∀ k, (v.ent dnum k).inum ≠ 0 → (v.ent dnum k).name ≠ name) ∧
          ∃ k, (v.ent dnum k).inum = 0 ∧ (∀ m, m < k → (v.ent dnum m).inum ≠ 0) ∧
          v' = v.made dnum inum k name type) ∨
        (r = .failed inum ∧ g' = g ∧ ∃ m, (type ≠ .dir → m = 0) ∧
          v' = (v.alloc inum type).dots inum dnum m)) := by
  have hE : NoType (v.alloc inum type) inum ≤ Panic.Minor := by
    rintro e (hminor | ⟨-, hnone⟩)
    · exact hminor
    · simp [View.alloc, htype] at hnone
  refine triple_locked hp hi hE fun hnot _ _ => ?_
  have hmem := g.mem_addLock inum
  have hdmem : dnum ∈ (g.addLock inum).locks := Finset.mem_insert_of_mem hd
  apply Triple.bind (triple_modifyInode hp hmem fun ip => rfl)
  rintro - s ⟨ip, -, -, hat⟩
  refine Triple.bind (triple_linkNew (v := (v.alloc inum type).setNlink inum 1) hp hmem hdmem hne
    hlive hnew hname type) ?_ s hat
  rintro done t ⟨v', hnamed, hat'⟩
  cases done with
  | true =>
    obtain ⟨hdir, hall, k, hfree, hbefore, rfl⟩ := hnamed
    have hdir' : v.type dnum = .dir := by simpa [View.setNlink, View.alloc, hne] using hdir
    refine Triple.bind (triple_countParent hp hdmem type) (fun _ => ?_) t hat'
    refine triple_unlockWith hp rfl le_rfl fun u hu => ?_
    refine ⟨_, _, hu, hnot, .inl ⟨rfl, rfl, hdir', hall, k, hfree, hbefore, ?_⟩⟩
    unfold View.made
    split_ifs with hty
    · congr 2
      simp [View.setEnt, View.dots_nlink, View.setNlink, View.alloc, hne]
    · rfl
  | false =>
    obtain ⟨m, hm, rfl⟩ := hnamed
    refine Triple.bind (triple_modifyInode hp hmem fun ip => rfl) ?_ t hat'
    rintro - u ⟨ip', -, -, hat''⟩
    refine triple_unlockWith hp (Ghost.dropLock_addLock hnot) le_rfl (fun u' hu' => ?_) u hat''
    rw [View.failed_eq] at hu'
    exact ⟨_, _, hu', hnot, .inr ⟨rfl, rfl, m, hm, rfl⟩⟩

theorem At.ent_of_not_dir {s : State} (h : At sb n G p g v w s) (hi : v.type i ≠ .dir) (k : ℕ) :
    (v.ent i k).inum = 0 := by
  rw [← h.2.1] at hi ⊢
  have hne : (s.disk.dinode i).type ≠ .dir := hi
  simp only [Disk.view, if_neg hne]

theorem triple_createIn (hp : p < n) {dnum : ℕ} (hd : dnum ∈ g.refs)
    (hname : name.Ok) (htype : type ≠ .none) (major minor : ℤ) :
    Triple (At sb n G p g v w) (createIn sb p dnum name type major minor) (NoType v dnum)
      fun r s => ∃ v' g', CreatedAs sb v dnum name type g r v' g' ∧
        (∀ q, q ≠ p → dnum ∉ (G q).locks) ∧ At sb n G p g' v' w s := by
  intro s hs
  have hdead {i : ℕ} (hi : v.type i = .none) := hs.ent_of_not_dir (i := i) (by rw [hi]; decide)
  refine triple_locked hp hd le_rfl (fun hnot hdty hmine => ?_) s hs
  have hmem := g.mem_addLock dnum
  refine Triple.bind ((triple_lookup hp hmem name).noType v dnum) fun r =>
    Triple.assume (fun _ hs => hs.symm) fun hlook => ?_
  cases r with
  | some found =>
    obtain ⟨off, inum⟩ := found
    obtain ⟨hdir, k, -, hent, hlive⟩ := hlook
    exact triple_unlockWith hp (Ghost.dropLock_addRef hnot inum) minor_le
      fun _ hs => ⟨_, _, ⟨rfl, rfl, hdir, k, hent, hlive⟩, hmine, hs⟩
  | none =>
    apply Triple.bind ((triple_allocInode hp type).noType v dnum)
    rintro r t ⟨v', g', halloc, hat⟩
    cases r with
    | none =>
      obtain ⟨rfl, rfl⟩ := halloc
      exact triple_unlockWith hp (Ghost.dropLock_addLock hnot) minor_le
        (fun _ hs => ⟨v', g, ⟨rfl, rfl⟩, hmine, hs⟩) t hat
    | some inum =>
      obtain ⟨hpos, hlt, hfree, rfl, rfl⟩ := halloc
      have hne : dnum ≠ inum := by
        rintro rfl
        exact hdty hfree
      have hlive : inum % 65536 ≠ 0 := by
        have hle := sb.ninodes_le
        omega
      refine ((triple_fillInode (g := (g.addLock dnum).addRef inum) hp
        (mem_cons_self inum _) hmem hne hlive htype (hdead hfree) hname major
        minor).noType v dnum).conseq (fun _ he => he) ?_ t hat
      rintro r u ⟨v', g', hat', -,
        ⟨rfl, rfl, hdir, hall, k, hslot, hbefore, rfl⟩ | ⟨rfl, rfl, m, hm, rfl⟩⟩
      · refine ⟨_, _, ⟨hpos, hlt, hfree, hne, hdir, hall, ?_, k, hslot, hbefore, rfl⟩, hmine, hat'⟩
        simp [Ghost.addLock, Ghost.addRef, Ghost.dropLock, Finset.erase_insert_of_ne hne.symm, hnot]
      · exact ⟨_, _, ⟨hpos, hlt, hfree, hne, hnot, rfl, m, hm, rfl⟩, hmine, hat'⟩

theorem triple_createFound (hp : p < n) (hi : i ∈ g.refs) (type : IType) :
    Triple (At sb n G p g v w) (createFound p type i) (NoType v i) fun r s =>
      i ∉ g.locks ∧ At sb n G p (if r = true then g.addLock i else g) v w s := by
  refine triple_locked hp hi le_rfl fun hnot _ _ => ?_
  refine triple_reading (g.mem_addLock i) fun s₀ _ _ _ => ?_
  split_ifs with hfile
  · exact Triple.pure fun _ hs => ⟨hnot, hs⟩
  · exact triple_unlockWith hp (Ghost.dropLock_addLock hnot) minor_le fun _ hs => ⟨hnot, hs⟩

end create

section files

theorem triple_openFound (hp : p < n) (hi : i ∈ g.refs) (omode : ℕ) :
    Triple (At sb n G p g v w) (openFound p omode i) (NoType v i) fun r s =>
      i ∉ g.locks ∧ At sb n G p (if r = true then g.addLock i else g) v w s := by
  refine triple_locked hp hi le_rfl fun hnot _ _ => ?_
  refine triple_reading (g.mem_addLock i) fun s₀ _ _ _ => ?_
  split_ifs with hdir
  · exact triple_unlockWith hp (Ghost.dropLock_addLock hnot) minor_le fun _ hs => ⟨hnot, hs⟩
  · exact Triple.pure fun _ hs => ⟨hnot, hs⟩

theorem triple_chdirCheck (hp : p < n) (hi : i ∈ g.refs) :
    Triple (At sb n G p g v w) (chdirCheck p i) (NoType v i) fun _ => At sb n G p g v w := by
  refine triple_locked hp hi le_rfl fun hnot _ _ => ?_
  refine triple_reading (g.mem_addLock i) fun s₀ _ _ _ => ?_
  exact triple_unlockWith hp (Ghost.dropLock_addLock hnot) minor_le fun _ hs => hs

theorem Proc.uses_setFd (proc : Proc) {fd : ℕ} (hfd : fd < nofile) (x : Option ℕ) (j : ℕ) :
    ({ proc with ofile := update proc.ofile fd x } : Proc).uses
    j + (if proc.ofile fd = some j then 1 else 0) =
      proc.uses j + (if x = some j then 1 else 0) := by
  have hcard := Counting.card_filter_change (A := fun m => proc.ofile m = some j)
    (B := fun m => update proc.ofile fd x m = some j) (Finset.mem_range.2 hfd)
    fun m hm => by rw [update_of_ne hm]
  rw [update_self] at hcard
  simp only [Proc.uses]
  omega

theorem At.setProc {s : State} (h : At sb n G p g v w s) (hp : p < n) (proc : Proc)
    (g' : Ghost) (a : ℕ) (huses : ∀ j, g'.refs.count j + g'.dead.count j + proc.uses j ≤
      g.refs.count j + g.dead.count j + (w p).uses j)
    (hlocks : g'.locks = g.locks) (hrefs : ∀ j ∈ g.locks, j ∈ g'.refs) :
    At sb n G p g' v (update w p proc) { s with procs := update s.procs p proc, files := a } := by
  have hb := h.1
  refine ⟨hb.change hp hb.good hb.coherent ?_ ?_ ?_ ?_ ?_, h.2.1, by simp only [h.2.2]⟩
  · intro q hq
    simp only [update_of_ne hq]
  · intro j
    have hj := huses j
    simp only [heldBy, update_self, h.2.2]
    omega
  · intro j q
    exact hb.lock_update j g' hlocks q
  · intro j hj
    rw [hlocks] at hj
    exact ⟨hrefs j hj, (hb.held_self j hj).2⟩
  · exact hb.held_other

theorem freeFd_eq_some {proc : Proc} {fd : ℕ} (h : freeFd proc = some fd) :
    fd < nofile ∧ proc.ofile fd = none := by
  unfold freeFd at h
  have hfree := List.find?_some h
  have hmem := List.mem_of_find?_eq_some h
  exact ⟨List.mem_range.1 hmem, by simpa using hfree⟩

theorem triple_truncFile (hp : p < n) (hi : i ∈ g.locks) (omode : ℕ) :
    Triple (At sb n G p g v w) (truncFile omode (v.type i) i) Panic.Minor
    fun _ => At sb n G p g v w := by
  unfold truncFile
  split_ifs with htrunc
  · refine (triple_truncate hp hi).conseq (fun _ he => he) ?_
    rintro _ s ⟨v', ⟨-, hsame⟩, hat⟩
    rwa [hsame (by rw [htrunc.2]; decide)] at hat
  · exact Triple.pure fun _ hs => hs

/-- The last lines of `sys_open` move the reference of the process to the file, or unlock. -/
theorem triple_openInode (hp : p < n) (hi : i ∈ g.locks) (hrefs : i ∈ g.refs)
    (hdrop : ∀ j ∈ (g.dropLock i).locks, j ∈ (g.dropRef i).refs) (omode : ℕ) :
    Triple (At sb n G p g v w) (openInode p omode i) Panic.Minor fun r s =>
      (r = none ∧ At sb n G p (g.dropLock i) v w s) ∨
      ∃ fd, r = some fd ∧ fd < nofile ∧ (w p).ofile fd = none ∧
      At sb n G p ((g.dropRef i).dropLock i) v (update w p
          { w p with ofile := update (w p).ofile fd (some i) }) s := by
  refine triple_reading hi fun s₀ htype _ hprocs => ?_
  split_ifs with hdev
  · exact triple_unlockWith hp rfl le_rfl fun _ hs => .inl ⟨rfl, hs⟩
  · cases halloc : allocFd p s₀ with
    | none => exact triple_unlockWith hp rfl le_rfl fun _ hs => .inl ⟨rfl, hs⟩
    | some fd =>
      have hfree : fd < nofile ∧ (w p).ofile fd = none := by
        unfold allocFd at halloc
        split_ifs at halloc
        rw [← hprocs]
        exact freeFd_eq_some halloc
      simp only [htype]
      apply Triple.bind (triple_truncFile hp hi omode)
      intro _
      apply Triple.bind (triple_iunlock hp)
      intro _ s hs
      refine .inr ⟨fd, rfl, hfree.1, hfree.2, ?_⟩
      have hset := hs.setProc hp { w p with ofile := update (w p).ofile fd (some i) }
        ((g.dropRef i).dropLock i) (s.files + 1) ?_ rfl hdrop
      · rwa [← hs.2.2] at hset ⊢
      · intro j
        have huses := (w p).uses_setFd hfree.1 (some i) j
        have hcount := Ghost.count_dropRef j hrefs
        simp only [hfree.2, Option.some.injEq, reduceCtorEq, if_false] at huses
        simp only [Ghost.dropLock]
        omega

theorem triple_closeFd (hp : p < n) (fd : ℕ) :
    Triple (At sb n G p g v w) (closeFd p fd) Panic.Minor fun r s =>
      (r = none ∧ At sb n G p g v w s) ∨
      ∃ i, r = some i ∧ fd < nofile ∧ (w p).ofile fd = some i ∧
      At sb n G p (g.addRef i) v (update w p
          { w p with ofile := update (w p).ofile fd none }) s := by
  intro s hs
  have hprocs := hs.2.2
  rw [closeFd, get_bind]
  by_cases hfd : fd < nofile
  · rw [if_pos hfd, hprocs]
    cases hof : (w p).ofile fd with
    | none => exact .inl ⟨rfl, hs⟩
    | some i =>
      refine .inr ⟨i, rfl, hfd, rfl, ?_⟩
      have hset := hs.setProc hp { w p with ofile := update (w p).ofile fd none }
        (g.addRef i) (s.files - 1) ?_ rfl fun j hj =>
          mem_cons_of_mem (hs.1.mem_refs j hj)
      · rwa [← hprocs] at hset ⊢
      · intro j
        have huses := (w p).uses_setFd hfd none j
        have hcount := g.count_addRef i j
        simp only [hof, Option.some.injEq, reduceCtorEq, if_false] at huses ⊢
        omega
  · rw [if_neg hfd]
    exact .inl ⟨rfl, hs⟩

theorem Proc.uses_setCwd (proc : Proc) (x : Option ℕ) (j : ℕ) :
    ({ proc with cwd := x } : Proc).uses j + (if proc.cwd = some j then 1 else 0) =
      proc.uses j + (if x = some j then 1 else 0) := by
  simp only [Proc.uses]
  omega

theorem triple_takeCwd (hp : p < n) :
    Triple (At sb n G p g v w) (takeCwd p) Panic.Minor fun c s => (w p).cwd = some c ∧
      At sb n G p (g.addRef c) v (update w p { w p with cwd := none }) s := by
  intro s hs
  have hprocs := hs.2.2
  rw [takeCwd, get_bind, hprocs]
  cases hcwd : (w p).cwd with
  | none => exact trivial
  | some c =>
    refine ⟨rfl, ?_⟩
    have hset := hs.setProc hp { w p with cwd := none } (g.addRef c) s.files ?_ rfl fun j hj =>
      mem_cons_of_mem (hs.1.mem_refs j hj)
    · rwa [← hprocs] at hset ⊢
    · intro j
      have huses := (w p).uses_setCwd none j
      have hcount := g.count_addRef c j
      simp only [hcwd, Option.some.injEq, reduceCtorEq, if_false] at huses ⊢
      omega

theorem triple_setCwd (hp : p < n) (hi : i ∈ g.refs) (hlocks : g.locks = ∅) :
    Triple (At sb n G p g v w) (setProc p fun proc => { proc with cwd := some i }) Panic.Minor
      fun _ => At sb n G p (g.dropRef i) v (update w p { w p with cwd := some i }) := by
  intro s hs
  have hprocs := hs.2.2
  have hset := hs.setProc hp { w p with cwd := some i } (g.dropRef i) s.files ?_ rfl (by
    rw [hlocks]
    exact fun j hj => absurd hj (Finset.notMem_empty j))
  · rw [← hprocs] at hset ⊢
    exact hset
  · intro j
    have huses := (w p).uses_setCwd (some i) j
    have hcount := Ghost.count_dropRef j hi
    simp only [Option.some.injEq] at huses ⊢
    omega

end files

end Xv6.Fs
