import Xv6.FileCalls
import Xv6.InodeTable

/-!
# Demand on the table of inodes

The calls that take references to inodes, over the file table and the table of inodes: `open`,
`close`, `chdir`, `fork` and `exit`, with `namex` and its temporary references. A path is given by
the inodes that its lookups find. The references in the table are those of open files and of current
directories, and during a lookup one for the directory where it is; so the demand of a call can be
told before it. -/

namespace Xv6.OpenInodes

open Transition FileTable InodeTable Function List Finset

def rootdev : ℕ := 1

def rootino : ℕ := 1

structure State where
  files : FileTable.State
  itable : Table
  cwd : Slot → ℕ

inductive Panic
  | file (e : FileTable.Panic)
  | iget
  deriving DecidableEq

abbrev M := StateT State (Except Panic)

def onFiles {α : Type} (m : FileTable.M α) : M α := fun s =>
  match m s.files with
  | .ok (a, t) => .ok (a, { s with files := t })
  | .error e => .error (.file e)

section inodes

def iget (dev inum : ℕ) : M ℕ := do
  let s ← get
  match s.itable.iget dev inum with
  | some (e, t) =>
    set { s with itable := t }
    return e
  | none => throw .iget

def idup (e : ℕ) : M Unit := modify fun s => { s with itable := s.itable.idup e }

def iput (e : ℕ) : M Unit := modify fun s => { s with itable := s.itable.drop e }

/-- The inodes that the elements of a path lead to, from the root or the current directory. -/
structure Path where
  absolute : Bool
  inums : List ℕ

/-- The loop of `namex`: `dirlookup` gets the next inode while `ip` is held. -/
def walk (ip : ℕ) : List ℕ → M ℕ
  | [] => return ip
  | inum :: inums => do
    let s ← get
    let next ← iget (s.itable ip).dev inum
    iput ip
    walk next inums

def namex (p : Slot) (path : Path) : M ℕ := do
  let s ← get
  if path.absolute then
    let ip ← iget rootdev rootino
    walk ip path.inums
  else
    idup (s.cwd p)
    walk (s.cwd p) path.inums

end inodes

section calls

def fileclose (f : FileIx) : M Unit := do
  let s ← get
  onFiles (FileTable.fileclose f)
  match (s.files.file f).inode with
  | some ip => if (s.files.file f).ref = 1 then iput ip else return ()
  | none => return ()

/-- `sys_open`; `ok` says whether the last lookup succeeds and the inode may be opened. -/
def sysOpen (p : Slot) (path : Path) (ok device readable writable : Bool) : M ℤ := do
  let ip ← namex p path
  if ok then
    let r ← onFiles (FileTable.sysOpen p (some (ip, device)) readable writable)
    if r = -1 then
      iput ip
      return -1
    else return r
  else
    iput ip
    return -1

def sysClose (p : Slot) (fd : ℤ) : M ℤ := do
  let s ← get
  match argfd p fd s.files with
  | none => return -1
  | some (fd, f) =>
    modify fun s => { s with files := s.files.setOfile p fd none }
    fileclose f
    return 0

/-- `sys_chdir`; `ok` says whether the path leads to a directory. -/
def sysChdir (p : Slot) (path : Path) (ok : Bool) : M ℤ := do
  let ip ← namex p path
  if ok then
    let s ← get
    iput (s.cwd p)
    modify fun s => { s with cwd := update s.cwd p ip }
    return 0
  else
    iput ip
    return -1

def fork (p : Slot) (ok : Bool) : M ℤ := do
  let s ← get
  match (List.finRange nproc).find? fun q => (s.files.proc q).state = .unused with
  | none => return -1
  | some np =>
    if ok then
      onFiles (dupAll p np (List.finRange nofile))
      idup (s.cwd p)
      modify fun s =>
        { s with
          cwd := update s.cwd np (s.cwd p)
          files := s.files.setProc np { s.files.proc np with state := .live } }
      return np.val
    else return -1

def closeAll (p : Slot) : List Fd → M Unit
  | [] => return ()
  | fd :: fds => do
    let s ← get
    match (s.files.proc p).ofile fd with
    | none => closeAll p fds
    | some f =>
      fileclose f
      modify fun s => { s with files := s.files.setOfile p fd none }
      closeAll p fds

def exit (p : Slot) : M ℤ := do
  closeAll p (List.finRange nofile)
  let s ← get
  iput (s.cwd p)
  modify fun s => { s with files := s.files.setProc p { s.files.proc p with state := .zombie } }
  return 0

def wait (q : Slot) : M ℤ := onFiles (FileTable.wait q)

end calls

inductive Call
  | open (path : Path) (ok device readable writable : Bool)
  | close (fd : ℤ)
  | chdir (path : Path) (ok : Bool)
  | fork (ok : Bool)
  | exit
  | wait (q : Slot)

def Call.code (p : Slot) : Call → M ℤ
  | .open path ok device readable writable => sysOpen p path ok device readable writable
  | .close fd => sysClose p fd
  | .chdir path ok => sysChdir p path ok
  | .fork ok => OpenInodes.fork p ok
  | .exit => OpenInodes.exit p
  | .wait q => OpenInodes.wait q

def Call.enabled (s : State) (p : Slot) : Call → Bool
  | .wait q => (s.files.proc p).state = .live ∧ (s.files.proc q).state = .zombie
  | _ => (s.files.proc p).state = .live

structure Sys where
  state : State
  panicked : Option Panic

def step (x : Sys) (a : Slot × Call) : Option Sys :=
  if x.panicked = none ∧ a.2.enabled x.state a.1 = true then
    match a.2.code a.1 x.state with
    | .error e => some { x with panicked := some e }
    | .ok (_, t) => some ⟨t, none⟩
  else none

def boot : Sys where
  state :=
    { files := FileTable.boot.state
      itable := fun e => if e = 0 then ⟨rootdev, rootino, 1, false⟩ else ⟨0, 0, 0, false⟩
      cwd := fun _ => 0 }
  panicked := none

section room

def State.held (s : State) : Finset (ℕ × ℕ) :=
  ((Finset.univ.filter fun f => (s.files.file f).inode ≠ none).image fun f =>
    (s.itable (s.files.file f).ip).key) ∪
  ((Finset.univ.filter fun p => (s.files.proc p).state = .live).image fun p =>
    (s.itable (s.cwd p)).key)

/-- Every lookup of a walk from `x` finds room for the directory where it is and the next inode. -/
def Fits (D : Finset (ℕ × ℕ)) (x : ℕ × ℕ) : List ℕ → Prop
  | [] => True
  | inum :: inums => (insert (x.1, inum) (insert x D)).card ≤ ninode ∧ Fits D (x.1, inum) inums

def Path.Fits (s : State) (p : Slot) (path : Path) : Prop :=
  if path.absolute then
    (insert (rootdev, rootino) s.held).card ≤ ninode ∧
      OpenInodes.Fits s.held (rootdev, rootino) path.inums
  else OpenInodes.Fits s.held (s.itable (s.cwd p)).key path.inums

/-- A call has room for its lookups beside what is held before it. -/
def Room (x : Sys) (a : Slot × Call) : Prop :=
  match a.2 with
  | .open path _ _ _ _ => path.Fits x.state a.1
  | .chdir path _ => path.Fits x.state a.1
  | _ => True

end room

section references

/-- The open files and the current directories that refer to the entry `e`. -/
@[irreducible] def State.users (s : State) (e : ℕ) : ℕ :=
  (Finset.univ.filter fun f => (s.files.file f).inode = some e).card +
    (Finset.univ.filter fun p => (s.files.proc p).state = .live ∧ s.cwd p = e).card

/-- The table has exactly these references, and `K`, those of the running call. -/
structure Refs (s : State) (K : ℕ → ℤ) : Prop where
  wf : s.itable.Wf
  count : ∀ e, ((s.itable e).ref : ℤ) = s.users e + K e

def oneRef (e : ℕ) : ℕ → ℤ := Pi.single e 1

theorem oneRef_apply (x e : ℕ) : oneRef x e = if x = e then 1 else 0 := by
  simp only [oneRef, Pi.single_apply, eq_comm]

theorem oneRef_nonneg (x e : ℕ) : 0 ≤ oneRef x e := by
  rw [oneRef_apply]
  split_ifs <;> decide

variable {s t : State} {K : ℕ → ℤ} {e x : ℕ}

theorem users_congr (hfiles : ∀ f, (t.files.file f).inode = (s.files.file f).inode)
    (hstate : ∀ p, (t.files.proc p).state = (s.files.proc p).state) (hcwd : t.cwd = s.cwd) (e : ℕ) :
    t.users e = s.users e := by
  unfold State.users
  simp only [hfiles, hstate, hcwd]

theorem users_file {f : FileIx}
    (hother : ∀ f', f' ≠ f → (t.files.file f').inode = (s.files.file f').inode)
    (hstate : ∀ p, (t.files.proc p).state = (s.files.proc p).state) (hcwd : t.cwd = s.cwd) (e : ℕ) :
    t.users e + (if (s.files.file f).inode = some e then 1 else 0) =
      s.users e + if (t.files.file f).inode = some e then 1 else 0 := by
  have hcard := Counting.card_filter_change (S := univ) (x := f)
    (A := fun f => (s.files.file f).inode = some e) (B := fun f => (t.files.file f).inode = some e)
    (mem_univ f) (fun f' hf' => by rw [hother f' hf'])
  unfold State.users
  simp only [hstate, hcwd]
  omega

theorem users_proc {p : Slot} (hfiles : ∀ f, (t.files.file f).inode = (s.files.file f).inode)
    (hother : ∀ q, q ≠ p → (t.files.proc q).state = (s.files.proc q).state ∧ t.cwd q = s.cwd q)
    (e : ℕ) :
    t.users e + (if (s.files.proc p).state = .live ∧ s.cwd p = e then 1 else 0) =
      s.users e + if (t.files.proc p).state = .live ∧ t.cwd p = e then 1 else 0 := by
  have hcard := Counting.card_filter_change (S := univ) (x := p)
    (A := fun p => (s.files.proc p).state = .live ∧ s.cwd p = e)
    (B := fun p => (t.files.proc p).state = .live ∧ t.cwd p = e)
    (mem_univ p) (fun q hq => by rw [(hother q hq).1, (hother q hq).2])
  unfold State.users
  simp only [hfiles]
  omega

theorem users_pos_iff : 0 < s.users e ↔ (∃ f, (s.files.file f).inode = some e) ∨
    ∃ p, (s.files.proc p).state = .live ∧ s.cwd p = e := by
  simp only [State.users, Nat.add_pos_iff_pos_or_pos, Finset.card_pos, filter_nonempty_iff,
    Finset.mem_univ, true_and]

theorem users_cwd_pos {p : Slot} (hlive : (s.files.proc p).state = .live) : 0 < s.users (s.cwd p) :=
  users_pos_iff.2 (.inr ⟨p, hlive, rfl⟩)

theorem File.inode_eq {y : File} {e : ℕ} (h : y.inode = some e) : y.ip = e := by
  unfold File.inode at h
  split_ifs at h
  exact Option.some.inj h

theorem mem_held {k : ℕ × ℕ} : k ∈ s.held ↔ ∃ e, 0 < s.users e ∧ (s.itable e).key = k := by
  simp only [State.held, Finset.mem_union, Finset.mem_image, Finset.mem_filter, Finset.mem_univ,
    true_and, users_pos_iff]
  constructor
  · rintro (⟨f, hf, hk⟩ | ⟨p, hp, hk⟩)
    · obtain ⟨e, he⟩ := Option.ne_none_iff_exists'.mp hf
      rw [File.inode_eq he] at hk
      exact ⟨e, .inl ⟨f, he⟩, hk⟩
    · exact ⟨s.cwd p, .inr ⟨p, hp, rfl⟩, hk⟩
  · rintro ⟨e, ⟨f, hf⟩ | ⟨p, hp, rfl⟩, hk⟩
    · refine .inl ⟨f, by rw [hf]; exact Option.some_ne_none e, ?_⟩
      rw [File.inode_eq hf]
      exact hk
    · exact .inr ⟨p, hp, hk⟩

theorem held_congr (husers : ∀ e, t.users e = s.users e)
    (hkey : ∀ e, 0 < s.users e → (t.itable e).key = (s.itable e).key) : t.held = s.held := by
  ext k
  rw [mem_held, mem_held]
  constructor
  · rintro ⟨e, hpos, hk⟩
    rw [husers] at hpos
    exact ⟨e, hpos, (hkey e hpos).symm.trans hk⟩
  · rintro ⟨e, hpos, hk⟩
    exact ⟨e, by rwa [husers], (hkey e hpos).trans hk⟩

theorem Refs.keys_idle (h : Refs s 0) : s.itable.keys = s.held := by
  ext k
  rw [Table.mem_keys h.wf, mem_held]
  refine exists_congr fun e => and_congr_left fun _ => ?_
  have hcount := h.count e
  rw [Pi.zero_apply] at hcount
  omega

theorem Refs.keys_walk (h : Refs s (oneRef x)) :
    s.itable.keys = insert (s.itable x).key s.held := by
  ext k
  rw [Table.mem_keys h.wf, mem_insert, mem_held]
  constructor
  · rintro ⟨e, hpos, rfl⟩
    by_cases he : e = x
    · exact .inl (by rw [he])
    · have hcount := h.count e
      simp only [oneRef, Pi.single_eq_of_ne he] at hcount
      exact .inr ⟨e, by omega, rfl⟩
  · rintro (rfl | ⟨e, hpos, hk⟩)
    · have hcount := h.count x
      simp only [oneRef, Pi.single_eq_same] at hcount
      exact ⟨x, by omega, rfl⟩
    · have hcount := h.count e
      have hnn := oneRef_nonneg x e
      exact ⟨e, by omega, hk⟩

theorem Refs.change (h : Refs s K) {u : Table} (hwf : u.Wf) {d : ℤ}
    (he : ((u e).ref : ℤ) = (s.itable e).ref + d)
    (hother : ∀ e', e' ≠ e → (u e').ref = (s.itable e').ref) :
    Refs { s with itable := u } (K + d • oneRef e) := by
  refine ⟨hwf, fun e' => ?_⟩
  have hcount := h.count e'
  have husers : ({ s with itable := u } : State).users e' = s.users e' :=
    users_congr (t := { s with itable := u }) (s := s) (fun _ => rfl) (fun _ => rfl) rfl e'
  rw [husers, Pi.add_apply, Pi.smul_apply, oneRef_apply, smul_eq_mul]
  rcases eq_or_ne e e' with rfl | hne
  · rw [if_pos rfl, he, hcount]
    omega
  · rw [if_neg hne, hother e' hne.symm, hcount]
    omega

theorem Refs.idup (h : Refs s K) (hpos : 0 < s.users e + K e) :
    Refs { s with itable := s.itable.idup e } (K + oneRef e) := by
  have hcount := h.count e
  have hchange := h.change (e := e) (d := 1) (h.wf.idup (e := e) (by omega))
    (by simp [Table.idup]) (fun e' hne => by simp [Table.idup, hne])
  rwa [one_smul] at hchange

theorem Refs.drop (h : Refs s K) (hpos : 0 < s.users e + K e) :
    Refs { s with itable := s.itable.drop e } (K - oneRef e) := by
  have hcount := h.count e
  have hchange := h.change (e := e) (d := -1) (h.wf.drop (e := e))
    (by simp [Table.drop]; omega) (fun e' hne => by simp [Table.drop, hne])
  rwa [neg_smul, one_smul, ← sub_eq_add_neg] at hchange

end references

section lookups

variable {s : State} {K : ℕ → ℤ}

structure Lookup (s t : State) : Prop where
  files : t.files = s.files
  cwd : t.cwd = s.cwd
  held : t.held = s.held

theorem Lookup.trans {t u : State} (h : Lookup s t) (h' : Lookup t u) : Lookup s u :=
  ⟨h'.files.trans h.files, h'.cwd.trans h.cwd, h'.held.trans h.held⟩

theorem Lookup.of_key {u : Table} (h : ∀ e, 0 < s.users e → (u e).key = (s.itable e).key) :
    Lookup s { s with itable := u } :=
  ⟨rfl, rfl, held_congr (users_congr (fun _ => rfl) (fun _ => rfl) rfl) h⟩

theorem iget_spec (h : Refs s K) (hK : ∀ e, 0 ≤ K e) (dev inum : ℕ) :
    Decides ((insert (dev, inum) s.itable.keys).card ≤ ninode) (iget dev inum) s .iget fun e t =>
      Refs t (K + oneRef e) ∧ Lookup s t ∧ (t.itable e).key = (dev, inum) := by
  have hiff := h.wf.iget_none_iff_card dev inum
  refine .reads ⟨fun hroom => ?_, fun hfull => ?_⟩
  · cases hget : s.itable.iget dev inum with
    | none =>
      rw [hget] at hiff
      exact absurd (hiff.mp rfl) (by omega)
    | some x =>
      obtain ⟨e, u⟩ := x
      obtain ⟨hkey, href, hother, hkeys⟩ := Table.iget_change hget
      have hchange := h.change (e := e) (d := 1) (h.wf.iget hget) (by rw [href]; omega)
        (fun e' hne => by rw [hother e' hne])
      rw [one_smul] at hchange
      refine Runs.writes_bind (Runs.ret ⟨hchange, .of_key fun e' hpos => hkeys e' ?_, hkey⟩)
      have hcount := h.count e'
      have hKe := hK e'
      omega
  · rw [hiff.mpr (by omega)]
    rfl

theorem walk_spec (inums : List ℕ) {x : ℕ} (h : Refs s (oneRef x)) :
    Decides (Fits s.held (s.itable x).key inums) (walk x inums) s .iget fun ip t =>
      Refs t (oneRef ip) ∧ Lookup s t := by
  induction inums generalizing s x with
  | nil => exact .of_runs (Runs.ret ⟨h, rfl, rfl, rfl⟩)
  | cons inum inums ih =>
    have hget := iget_spec h (oneRef_nonneg x) (s.itable x).dev inum
    rw [h.keys_walk] at hget
    refine .reads (hget.bind (T := Fits s.held ((s.itable x).dev, inum) inums) ?_)
    -- the next inode is found and the directory is put
    rintro ip t ⟨hrefs, hlook, hkey⟩
    have hdrop := hrefs.drop (e := x) (by
      have hip := oneRef_nonneg ip x
      have hx : oneRef x x = 1 := Pi.single_eq_same x 1
      rw [Pi.add_apply]
      omega)
    rw [add_sub_cancel_left] at hdrop
    have hsame (e : ℕ) : (t.itable.drop x e).key = (t.itable e).key := (t.itable.drop_apply x e).1
    have hput := hlook.trans (.of_key fun e _ => hsame e)
    have hwalk := ih hdrop
    rw [hput.held, show (t.itable.drop x ip).key = _ from (hsame ip).trans hkey] at hwalk
    exact .modifies (hwalk.mono fun _ _ hu => ⟨hu.1, hput.trans hu.2⟩)

theorem namex_spec {p : Slot} (h : Refs s 0) (hlive : (s.files.proc p).state = .live)
    (path : Path) :
    Decides (path.Fits s p) (namex p path) s .iget fun ip t => Refs t (oneRef ip) ∧ Lookup s t := by
  obtain ⟨absolute, inums⟩ := path
  cases absolute
  · -- from the current directory
    have hdup := h.idup (e := s.cwd p) (by
      have husers := users_cwd_pos hlive
      rw [Pi.zero_apply]
      omega)
    rw [zero_add] at hdup
    have hsame (e : ℕ) : (s.itable.idup (s.cwd p) e).key = (s.itable e).key :=
      view_update Entry.key e
    have hlook : Lookup s { s with itable := s.itable.idup (s.cwd p) } := .of_key fun e _ => hsame e
    have hwalk := walk_spec inums hdup
    rw [hlook.held] at hwalk
    simp only [hsame] at hwalk
    exact .reads (.modifies (hwalk.mono fun _ _ ht => ⟨ht.1, hlook.trans ht.2⟩))
  · have hget := iget_spec h (fun _ => le_rfl) rootdev rootino
    simp only [h.keys_idle, zero_add] at hget
    refine .reads (hget.bind (T := Fits s.held (rootdev, rootino) inums) ?_)
    rintro e t ⟨ht, hlook, hkey⟩
    have hwalk := walk_spec inums ht
    rw [hkey, hlook.held] at hwalk
    exact hwalk.mono fun _ _ hu => ⟨hu.1, hlook.trans hu.2⟩

end lookups

section calls

structure Inv (s : State) : Prop where
  files : FileTable.Inv s.files
  refs : Refs s 0

variable {s : State} {p : Slot} {H : FileIx → ℤ} {K : ℕ → ℤ}

theorem onFiles_runs {α : Type} {m : FileTable.M α} {Q : α → FileTable.State → Prop}
    (h : Runs m s.files Q) :
    Runs (onFiles m) s fun a t => Q a t.files ∧ t.itable = s.itable ∧ t.cwd = s.cwd := by
  obtain ⟨a, t, hm, hQ⟩ := h
  refine ⟨a, { s with files := t }, ?_, hQ, rfl, rfl⟩
  unfold onFiles
  rw [hm]

theorem Refs.of_users (h : Refs s K) {t : State} (htable : t.itable = s.itable)
    (husers : ∀ e, t.users e = s.users e) : Refs t K := by
  refine ⟨htable ▸ h.wf, fun e => ?_⟩
  rw [htable, husers]
  exact h.count e

def State.fileRef (s : State) (f : FileIx) : ℕ → ℤ := (s.files.file f).inode.elim 0 oneRef

theorem Refs.moveFile (h : Refs s K) {t : State} (f : FileIx) (htable : t.itable = s.itable)
    (hother : ∀ f', f' ≠ f → (t.files.file f').inode = (s.files.file f').inode)
    (hstate : ∀ p, (t.files.proc p).state = (s.files.proc p).state) (hcwd : t.cwd = s.cwd) :
    Refs t (K + s.fileRef f - t.fileRef f) := by
  refine ⟨htable ▸ h.wf, fun e => ?_⟩
  have hcount := h.count e
  have husers := users_file hother hstate hcwd e
  have hone (u : State) : u.fileRef f e =
      ((if (u.files.file f).inode = some e then 1 else 0 : ℕ) : ℤ) := by
    unfold State.fileRef
    cases (u.files.file f).inode with
    | none => rfl
    | some x => simp [oneRef_apply]
  rw [htable, Pi.sub_apply, Pi.add_apply, hone, hone]
  omega

/-- `fileclose` takes the reference of the inode away with the last one of the file. -/
theorem fileclose_spec {f : FileIx} (hok : FileTable.Ok s.files H) (h : Refs s K)
    (hK : ∀ e, 0 ≤ K e) (hpos : 0 < s.files.slots f + H f) : Runs (fileclose f) s fun _ t =>
      FileTable.Ok t.files (H - FileTable.one f) ∧ Refs t K ∧ t.files.proc = s.files.proc ∧
        t.cwd = s.cwd := by
  refine Runs.reads (Runs.bind (onFiles_runs (fileclose_runs hok hpos)) ?_)
  rintro _ ⟨files, itable, cwd⟩ ⟨⟨hok', hproc, hother, hgone⟩, rfl, rfl⟩
  have hrefs :=
    h.moveFile (t := ⟨files, s.itable, s.cwd⟩) f rfl (fun f' hne => by rw [hother f' hne])
      (fun q => by rw [hproc]) rfl
  simp only [State.fileRef] at hrefs
  by_cases hlast : (s.files.file f).ref = 1
  · rw [if_pos hlast] at hgone
    rw [hgone, Option.elim_none, sub_zero] at hrefs
    cases hinode : (s.files.file f).inode with
    | none =>
      rw [hinode, Option.elim_none, add_zero] at hrefs
      exact Runs.ret ⟨hok', hrefs, hproc, rfl⟩
    | some ip =>
      simp only [if_pos hlast]
      rw [hinode, Option.elim_some] at hrefs
      have hdrop := hrefs.drop (e := ip) (by
        have hip := hK ip
        have hself : oneRef ip ip = 1 := Pi.single_eq_same ip 1
        rw [Pi.add_apply]
        omega)
      rw [add_sub_cancel_right] at hdrop
      exact Runs.modifies (k := pure) (Runs.ret ⟨hok', hdrop, hproc, rfl⟩)
  · rw [if_neg hlast] at hgone
    rw [hgone, add_sub_cancel_right] at hrefs
    cases hinode : (s.files.file f).inode with
    | none => exact Runs.ret ⟨hok', hrefs, hproc, rfl⟩
    | some ip =>
      simp only [if_neg hlast]
      exact Runs.ret ⟨hok', hrefs, hproc, rfl⟩

def State.cwdRef (s : State) (p : Slot) : ℕ → ℤ :=
  if (s.files.proc p).state = .live then oneRef (s.cwd p) else 0

theorem Refs.move (h : Refs s K) {t : State} (p : Slot) (htable : t.itable = s.itable)
    (hfiles : ∀ f, (t.files.file f).inode = (s.files.file f).inode)
    (hother : ∀ q, q ≠ p → (t.files.proc q).state = (s.files.proc q).state ∧ t.cwd q = s.cwd q) :
    Refs t (K + s.cwdRef p - t.cwdRef p) := by
  refine ⟨htable ▸ h.wf, fun e => ?_⟩
  have hcount := h.count e
  have husers := users_proc hfiles hother e
  have hone (u : State) : u.cwdRef p e =
      ((if (u.files.proc p).state = .live ∧ u.cwd p = e then 1 else 0 : ℕ) : ℤ) := by
    unfold State.cwdRef
    by_cases hlive : (u.files.proc p).state = .live
    · simp [hlive, oneRef_apply]
    · simp [hlive]
  rw [htable, Pi.sub_apply, Pi.add_apply, hone, hone]
  omega

theorem Refs.put (h : Refs s (oneRef e)) :
    Runs (iput e) s fun _ t => Refs t 0 ∧ t.files = s.files ∧ t.cwd = s.cwd := by
  have hdrop := h.drop (e := e) (by
    have hself : oneRef e e = 1 := Pi.single_eq_same e 1
    omega)
  rw [sub_self] at hdrop
  exact Runs.modifies (k := pure) (Runs.ret ⟨hdrop, rfl, rfl⟩)

theorem Refs.setOfile (h : Refs s K) (p : Slot) (fd : Fd) (x : Option FileIx) :
    Refs { s with files := s.files.setOfile p fd x } K :=
  h.of_users rfl (users_congr (fun _ => rfl) (fun q => setOfile_state _ _ _ _ q) rfl)

theorem sysOpen_spec (h : Inv s) (hlive : (s.files.proc p).state = .live) (path : Path)
    (ok device readable writable : Bool) :
    Decides (path.Fits s p) (sysOpen p path ok device readable writable) s .iget
    fun _ t => Inv t := by
  refine (namex_spec h.refs hlive path).runs ?_
  rintro ip t ⟨hrefs, hlook⟩
  rw [← hlook.files] at hlive
  have hfiles : FileTable.Inv t.files := hlook.files ▸ h.files
  -- the failing exits put the inode
  have hput {u : State} (hu : Refs u (oneRef ip)) (hufiles : FileTable.Inv u.files) :
      Runs (do iput ip; return (-1 : ℤ)) u fun _ t => Inv t := by
    refine Runs.bind hu.put ?_
    rintro _ v ⟨hv, hvfiles, -⟩
    exact Runs.ret ⟨hvfiles ▸ hufiles, hv⟩
  cases ok
  · exact hput hrefs hfiles
  refine Runs.bind (onFiles_runs (sysOpen_opened hfiles hlive ip device readable writable)) ?_
  rintro r u ⟨⟨⟨hinv, -⟩, hopened⟩, htable, hcwd⟩
  unfold Opened at hopened
  by_cases hr : r = -1
  · rw [if_pos hr] at hopened
    simp only [if_pos hr]
    exact hput (hrefs.of_users htable (users_congr hopened.2 (fun q => by rw [hopened.1]) hcwd))
      hinv
  · rw [if_neg hr] at hopened
    simp only [if_neg hr]
    obtain ⟨hstate, f, hnone, hsome, hother⟩ := hopened
    have hend := hrefs.moveFile f htable hother hstate hcwd
    simp only [State.fileRef, hnone, hsome, Option.elim_none, Option.elim_some, add_zero,
      sub_self] at hend
    exact Runs.ret ⟨hinv, hend⟩

theorem sysChdir_spec (h : Inv s) (hlive : (s.files.proc p).state = .live) (path : Path)
    (ok : Bool) : Decides (path.Fits s p) (sysChdir p path ok) s .iget fun _ t => Inv t := by
  refine (namex_spec h.refs hlive path).runs ?_
  rintro ip t ⟨hrefs, hlook⟩
  rw [← hlook.files] at hlive
  have hfiles : FileTable.Inv t.files := hlook.files ▸ h.files
  cases ok
  · refine Runs.bind hrefs.put ?_
    rintro _ u ⟨hu, hufiles, -⟩
    exact Runs.ret ⟨hufiles ▸ hfiles, hu⟩
  refine Runs.reads (Runs.modifies (Runs.modifies (Runs.ret ⟨hfiles, ?_⟩)))
  have hpos : 0 < (t.users (t.cwd p) : ℤ) + oneRef ip (t.cwd p) := by
    have husers := users_cwd_pos hlive
    have hnn := oneRef_nonneg ip (t.cwd p)
    omega
  have hdrop := hrefs.drop hpos
  have hend := hdrop.move (t := { t with
    itable := t.itable.drop (t.cwd p)
    cwd := update t.cwd p ip }) p rfl (fun _ => rfl)
    (fun q hq => ⟨rfl, update_of_ne hq _ _⟩)
  simp only [State.cwdRef, hlive, if_true, update_self, sub_add_cancel, sub_self] at hend
  exact hend

theorem sysClose_spec (h : Inv s) (hlive : (s.files.proc p).state = .live) (fd : ℤ) :
    Runs (sysClose p fd) s fun _ t => Inv t := by
  refine Runs.reads ?_
  split
  · exact Runs.ret h
  · rename_i fd f harg
    have hfd : (s.files.proc p).ofile fd = some f := argfd_eq harg
    refine Runs.modifies ?_
    refine Runs.bind (fileclose_spec (h.files.ok.clearFd hfd) (h.refs.setOfile p fd none)
      (fun _ => le_rfl) (held_pos _ le_rfl)) ?_
    rintro _ t ⟨hok, ht, hproc, -⟩
    exact Runs.ret ⟨h.files.setOfile hlive (by simpa using hok) hproc, ht⟩

theorem fork_spec (h : Inv s) (hlive : (s.files.proc p).state = .live) (ok : Bool) :
    Runs (fork p ok) s fun _ t => Inv t := by
  refine Runs.reads ?_
  split
  · exact Runs.ret h
  rename_i np hnp
  have hunused : (s.files.proc np).state = .unused := by simpa using List.find?_some hnp
  have hne : p ≠ np := by
    rintro rfl
    rw [hlive] at hunused
    cases hunused
  cases ok
  · exact Runs.ret h
  refine Runs.bind (onFiles_runs (dupAll_runs (p := p) _ (nodup_finRange _) h.files.ok
    fun fd _ => h.files.idle np (by rw [hunused]; decide) fd)) ?_
  rintro _ t ⟨⟨hok, hother, hstate, hinode⟩, htable, hcwd⟩
  refine Runs.modifies
    (Runs.modifies (Runs.ret ⟨h.files.setState hok hother fun hx => absurd rfl hx, ?_⟩))
  · have hstates (q : Slot) : (t.files.proc q).state = (s.files.proc q).state := by
      by_cases hqn : q = np
      · rw [hqn, hstate]
      · rw [hother q hqn]
    have hrefs : Refs t 0 := h.refs.of_users htable (users_congr hinode hstates hcwd)
    have hdup := hrefs.idup (e := t.cwd p) (by
      have husers := users_cwd_pos ((hstates p).trans hlive)
      rw [Pi.zero_apply]
      omega)
    have hend := hdup.move (t := { t with
      itable := t.itable.idup (t.cwd p)
      cwd := update t.cwd np (t.cwd p)
      files := t.files.setProc np { t.files.proc np with state := .live } }) np rfl (fun _ => rfl)
      (fun q hq => ⟨by simp [State.setProc, hq], update_of_ne hq _ _⟩)
    simp only [State.cwdRef, hstate, hunused, State.setProc, update_self, reduceCtorEq,
      if_false, if_true, add_zero, zero_add, sub_self] at hend
    rw [← hcwd]
    exact hend

theorem closeAll_spec (fds : List Fd) (hok : FileTable.Ok s.files 0) (h : Refs s 0) :
    Runs (closeAll p fds) s fun _ t => FileTable.Ok t.files 0 ∧ Refs t 0 ∧
    Emptied p fds s.files t.files := by
  induction fds generalizing s with
  | nil => exact Runs.ret ⟨hok, h, .refl⟩
  | cons fd fds ih =>
    refine Runs.reads ?_
    cases hfd : (s.files.proc p).ofile fd with
    | none => exact (ih hok h).mono fun _ _ ht => ⟨ht.1, ht.2.1, ht.2.2.skip hfd⟩
    | some f =>
      refine Runs.bind (fileclose_spec hok h (fun _ => le_rfl) (held_slot hfd)) ?_
      rintro _ t ⟨ht, hrefs, hproc, -⟩
      have hclear := ht.clearFd (by rw [hproc, hfd] : (t.files.proc p).ofile fd = some f)
      rw [sub_add_cancel] at hclear
      exact Runs.modifies ((ih hclear (hrefs.setOfile p fd none)).mono fun _ _ hu =>
        ⟨hu.1, hu.2.1, hu.2.2.cons hproc⟩)

theorem exit_spec (h : Inv s) (hlive : (s.files.proc p).state = .live) :
    Runs (exit p) s fun _ t => Inv t := by
  refine Runs.bind (closeAll_spec (p := p) _ h.files.ok h.refs) ?_
  rintro _ t ⟨hok, hrefs, hclosed⟩
  refine Runs.reads (Runs.modifies (Runs.modifies (Runs.ret ⟨h.files.setState hok hclosed.other
    fun _ fd => hclosed.empty fd (.inl (mem_finRange fd)), ?_⟩)))
  · rw [← hclosed.state] at hlive
    have hdrop := hrefs.drop (e := t.cwd p) (by
      have husers := users_cwd_pos hlive
      rw [Pi.zero_apply]
      omega)
    have hend := hdrop.move (t := { t with
      itable := t.itable.drop (t.cwd p)
      files := t.files.setProc p { t.files.proc p with state := .zombie } }) p rfl (fun _ => rfl)
      (fun q hq => ⟨by simp [State.setProc, hq], rfl⟩)
    simp only [State.cwdRef, hlive, State.setProc, update_self, reduceCtorEq,
      if_false, if_true, zero_sub, neg_add_cancel, sub_zero] at hend
    exact hend

theorem wait_spec (h : Inv s) {q : Slot} (hzombie : (s.files.proc q).state = .zombie) :
    Runs (wait q) s fun _ t => Inv t := by
  obtain ⟨r, t, hrun, hinv, -⟩ := wait_runs h.files hzombie
  have ht : t = s.files.setProc q { s.files.proc q with state := .unused } := by
    cases hrun
    rfl
  have hboth : Runs (FileTable.wait q) s.files fun _ u => FileTable.Inv u ∧
      u = s.files.setProc q { s.files.proc q with state := .unused } := ⟨r, t, hrun, hinv, ht⟩
  refine (onFiles_runs hboth).mono ?_
  rintro _ u ⟨⟨hinv, hfiles⟩, htable, hcwd⟩
  refine ⟨hinv, ?_⟩
  have hend := h.refs.move (t := u) q htable (fun f => by rw [hfiles]; rfl)
    (fun q' hq => ⟨by rw [hfiles]; simp [State.setProc, hq], by rw [hcwd]⟩)
  simpa [State.cwdRef, hfiles, State.setProc, hzombie] using hend

theorem code_spec (h : Inv s) {c : Call} (hen : c.enabled s p = true) (o : Option Panic) :
    Decides (Room ⟨s, o⟩ (p, c)) (c.code p) s .iget fun _ t => Inv t := by
  cases c with
  | «open» path ok device readable writable =>
    exact sysOpen_spec h (of_decide_eq_true hen) path ok device readable writable
  | close fd => exact .of_runs (sysClose_spec h (of_decide_eq_true hen) fd)
  | chdir path ok => exact sysChdir_spec h (of_decide_eq_true hen) path ok
  | fork ok => exact .of_runs (fork_spec h (of_decide_eq_true hen) ok)
  | exit => exact .of_runs (exit_spec h (of_decide_eq_true hen))
  | wait q => exact .of_runs (wait_spec h (of_decide_eq_true hen).2)

end calls

section runs

variable {x y : Sys}

theorem boot_inv : Inv boot.state where
  files := FileTable.boot_inv
  refs := by
    have husers (e : ℕ) : boot.state.users e = if e = 0 then 1 else 0 := by
      unfold State.users
      have hfiles : (Finset.univ.filter fun f : FileIx =>
          (boot.state.files.file f).inode = some e) = ∅ :=
        Finset.filter_eq_empty_iff.mpr fun f _ hf => by cases hf
      rw [hfiles, card_empty, zero_add]
      by_cases he : e = 0
      · subst he
        rw [if_pos rfl, card_eq_one]
        refine ⟨⟨0, by decide⟩, ?_⟩
        ext p
        simp [boot, FileTable.boot, Fin.ext_iff]
      · rw [if_neg he, card_eq_zero, filter_eq_empty_iff]
        rintro p - ⟨-, hp⟩
        exact he hp.symm
    refine ⟨⟨fun e e' he he' _ => ?_, fun e he => ?_⟩, fun e => ?_⟩
    · simp only [boot] at he he'
      split_ifs at he he' with h0 h0'
      · rw [h0, h0']
      · exact absurd he' (lt_irrefl 0)
      · exact absurd he (lt_irrefl 0)
      · exact absurd he (lt_irrefl 0)
    · simp only [boot] at he
      split_ifs at he with h0
      · rw [h0]
        decide
      · exact absurd he (lt_irrefl 0)
    · rw [husers]
      by_cases he : e = 0
      · simp [boot, he]
      · simp [boot, he]

theorem step_spec {a : Slot × Call} (h : Inv x.state) (hstep : step x a = some y) :
    (Room x a → y.panicked = none ∧ Inv y.state) ∧ (¬ Room x a → y.panicked = some .iget) := by
  unfold step at hstep
  split_ifs at hstep with hen
  have hspec := code_spec h hen.2 x.panicked
  refine ⟨fun hroom => ?_, fun hno => ?_⟩
  · obtain ⟨r, t, hrun, hinv⟩ := hspec.1 hroom
    rw [hrun] at hstep
    cases hstep
    exact ⟨rfl, hinv⟩
  · rw [show a.2.code a.1 x.state = .error .iget from hspec.2 hno] at hstep
    cases hstep
    rfl

theorem run_panicked {acts : List (Slot × Call)} (hpan : x.panicked ≠ none)
    (hrun : run step x acts = some y) : y = x := by
  cases acts with
  | nil => exact (Option.some.inj hrun).symm
  | cons a acts =>
    obtain ⟨z, hz, -⟩ := (run_cons_eq_some step x y a acts).1 hrun
    unfold step at hz
    rw [if_neg fun h => hpan h.1] at hz
    cases hz

theorem run_spec {acts : List (Slot × Call)} (hpan : x.panicked = none) (h : Inv x.state)
    (hrun : run step x acts = some y) : y.panicked = none ↔ Along step Room x acts := by
  induction acts generalizing x with
  | nil =>
    rw [← Option.some.inj hrun]
    exact ⟨fun _ => trivial, fun _ => hpan⟩
  | cons a acts ih =>
    obtain ⟨z, hz, hrest⟩ := (run_cons_eq_some step x y a acts).1 hrun
    have hspec := step_spec h hz
    by_cases hroom : Room x a
    · obtain ⟨hzpan, hinv⟩ := hspec.1 hroom
      rw [ih hzpan hinv hrest]
      exact ⟨fun halong => ⟨hroom, by rwa [hz]⟩, fun halong => halong.tail hz⟩
    · have hzpan := hspec.2 hroom
      rw [run_panicked (by rw [hzpan]; exact Option.some_ne_none _) hrest, hzpan]
      exact ⟨fun hno => absurd hno (Option.some_ne_none _), fun halong => absurd halong.1 hroom⟩

/-- A sequence of calls gets through exactly if each call had room in the table for its lookups
beside the inodes of open files and current directories. -/
theorem iget_finds_entry_iff {acts : List (Slot × Call)} (hrun : run step boot acts = some x) :
    x.panicked = none ↔ Along step Room boot acts :=
  run_spec rfl boot_inv hrun

end runs

section examples

def opens (p : Slot) (m : ℕ) : List (Slot × Call) :=
  (List.range m).map fun k => (p, .open ⟨true, [2 + nofile * p.val + k]⟩ true false true false)

def forkAndOpen : List (Slot × Call) :=
  let parent : Slot := ⟨0, nproc_pos⟩
  let child : Slot := ⟨1, one_lt_nproc⟩
  [(parent, .open ⟨true, [2, 3]⟩ true false true true), (parent, .fork true),
    (child, .chdir ⟨false, [2]⟩ true), (child, .open ⟨false, [4]⟩ true false true false),
    (parent, .close 0), (child, .exit), (parent, .wait child)]

theorem iget_finds_entry_iff_forkAndOpen : ∃ x, run step boot forkAndOpen = some x ∧
    x.panicked = none ∧ Along step Room boot forkAndOpen := by
  have hrun : (run step boot forkAndOpen).elim false (fun x => decide (x.panicked = none)) =
      true := by
    decide +kernel
  obtain ⟨x, hx, hd⟩ := exists_of_elim hrun
  have hpan : x.panicked = none := of_decide_eq_true hd
  exact ⟨x, hx, hpan, (iget_finds_entry_iff hx).1 hpan⟩

def openMany : List (Slot × Call) :=
  List.replicate 3 (⟨0, nproc_pos⟩, .fork true) ++
    opens ⟨0, nproc_pos⟩ nofile ++ opens ⟨1, one_lt_nproc⟩ nofile ++ opens ⟨2, by decide⟩ nofile ++
    opens ⟨3, by decide⟩ 2

/-- With half of the files in use, and a descriptor left, an open panics. -/
theorem iget_panics_before_filealloc_fails :
    ∃ acts x, run step boot acts = some x ∧ x.panicked = some .iget ∧
    (Finset.univ.filter fun f => 0 < (x.state.files.file f).ref).card = ninode - 1 ∧
    ninode - 1 < nfile ∧
    acts.getLast? = some (⟨3, by decide⟩, .open ⟨true, [51]⟩ true false true false) ∧
    ∃ fd, (x.state.files.proc ⟨3, by decide⟩).ofile fd = none := by
  have hrun : (run step boot openMany).elim false (fun x => decide (x.panicked = some .iget ∧
      (Finset.univ.filter fun f => 0 < (x.state.files.file f).ref).card = ninode - 1 ∧
      (x.state.files.proc ⟨3, by decide⟩).ofile ⟨1, by decide⟩ = none)) = true := by
    decide +kernel
  obtain ⟨x, hx, hd⟩ := exists_of_elim hrun
  obtain ⟨hpan, hcard, hfd⟩ := of_decide_eq_true hd
  exact ⟨openMany, x, hx, hpan, hcard, by decide, rfl, _, hfd⟩

end examples

end Xv6.OpenInodes
