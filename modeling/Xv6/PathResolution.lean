import Xv6.FreshFs
import Xv6.PathWalk

/-!
# Path resolution

`namex` as the source has it, with a pointer into the path that `skipelem` moves, is `namex` of the
elements of the path. In a file system without dangling entries `namei` and `nameiparent` return
where the elements lead, and the table of inodes has one reference more than before, to the inode
returned. They panic only when the table has no entry for an inode on the way.
-/

namespace Xv6.Fs

open Act Threads Function List

section elements

/-- The non-empty parts between the slashes, cut to `DIRSIZ` bytes. -/
def components (path : List UInt8) : List Name :=
  ((path.splitOn 47).filter (· ≠ [])).map (List.take dirsiz)

theorem components_slash (path : List UInt8) : components (47 :: path) = components path := by
  simp [components, splitOn_cons_eq_if_modifyHead]

theorem components_dropWhile (path : List UInt8) :
    components (path.dropWhile (· = 47)) = components path := by
  induction path with
  | nil => rfl
  | cons b path ih =>
    by_cases hb : b = 47
    · rw [hb, components_slash, dropWhile_cons_of_pos (by simp), ih]
    · rw [dropWhile_cons_of_neg (by simpa using hb)]

variable {path : List UInt8}

theorem head_of_dropWhile {f : UInt8 → Bool} {rest : List UInt8} {b : UInt8}
    (h : path.dropWhile f = b :: rest) : f b = false := by
  have hhead := List.head?_dropWhile_not f path
  rwa [h] at hhead

theorem components_word {b : UInt8} (hb : b ≠ 47) (path : List UInt8) : components (b :: path) =
      ((b :: path).takeWhile (· ≠ 47)).take
      dirsiz :: components ((b :: path).dropWhile (· ≠ 47)) := by
  have hword : (47 : UInt8) ∉ (b :: path).takeWhile (· ≠ 47) := fun hmem => by
    simpa using mem_takeWhile_imp hmem
  have hpos : (b :: path).takeWhile (· ≠ 47) ≠ [] := by simp [hb]
  have happend := takeWhile_append_dropWhile (p := (· ≠ (47 : UInt8))) (l := b :: path)
  generalize (b :: path).takeWhile (· ≠ 47) = word at hword hpos happend ⊢
  cases hrest : (b :: path).dropWhile (· ≠ 47) with
  | nil =>
    rw [hrest, append_nil] at happend
    rw [← happend]
    simp [components, splitOn_eq_singleton hword, hpos]
  | cons c rest =>
    have hc : c = 47 := by simpa using head_of_dropWhile hrest
    rw [hrest, hc] at happend
    rw [hc, components_slash, ← happend]
    simp [components, splitOn_append_cons_self_of_not_mem hword, hpos]

theorem skipelem_none (h : skipelem path = none) : components path = [] := by
  rw [← components_dropWhile]
  simp only [skipelem] at h
  split_ifs at h with hnil
  rw [hnil]
  rfl

theorem skipelem_some {name : Name} {rest : List UInt8} (h : skipelem path = some (name, rest)) :
    components path = name :: components rest ∧ rest.length < path.length ∧
      (components rest).isEmpty = decide (rest = []) := by
  rw [← components_dropWhile path]
  have hlen := (dropWhile_sublist (l := path) (· = (47 : UInt8))).length_le
  simp only [skipelem] at h
  split_ifs at h with hnil
  cases hpath : path.dropWhile (· = 47) with
  | nil => exact absurd hpath hnil
  | cons b word =>
    have hb : b ≠ 47 := by simpa using head_of_dropWhile hpath
    rw [hpath] at h hlen
    cases h
    refine ⟨by rw [components_word hb, components_dropWhile], ?_, ?_⟩
    · have hrest :=
        (dropWhile_sublist (l := (b :: word).dropWhile (· ≠ (47 : UInt8))) (· = 47)).length_le
      rw [dropWhile_cons_of_pos (by simpa using hb)] at hrest ⊢
      have hword := (dropWhile_sublist (l := word) (· ≠ (47 : UInt8))).length_le
      rw [length_cons] at hlen
      omega
    · cases hrest : ((b :: word).dropWhile (· ≠ 47)).dropWhile (· = 47) with
      | nil => rfl
      | cons c rest =>
        rw [components_word (by simpa using head_of_dropWhile hrest)]
        rfl

/-- Repeated `skipelem` gives the components, and comes to an end. -/
theorem elems_eq {fuel : ℕ} (hfuel : path.length ≤ fuel) : elems fuel path = components path := by
  induction fuel generalizing path with
  | zero =>
    rw [length_eq_zero_iff.1 (Nat.le_zero.1 hfuel)]
    rfl
  | succ fuel ih =>
    rw [elems]
    cases hskip : skipelem path with
    | none => exact (skipelem_none hskip).symm
    | some r =>
      obtain ⟨hcons, hlt, -⟩ := skipelem_some hskip
      rw [hcons]
      exact congrArg _ (ih (by omega))

end elements

section loop

variable (sb : Super) (p : ℕ)

/-- The loop of `namex`, with what is in the buffer `name`. -/
def pathLoop (parent : Bool) (path : List UInt8) (name : Name) (i : ℕ) : Code (Option (ℕ × Name)) :=
  match _hskip : skipelem path with
  | none =>
    if parent then do
      put i
      return none
    else return some (i, name)
  | some (elem, rest) => do
    match ← atom (walk sb p parent (rest = []) i elem) with
    | .fail =>
      put i
      return none
    | .stop => return some (i, elem)
    | .next inum =>
      put i
      pathLoop parent rest elem inum
termination_by path.length
decreasing_by exact (skipelem_some _hskip).2.1

/-- `namex`, with what is in the buffer `name` before and after. -/
def namexPath (parent : Bool) (path : List UInt8) (name : Name) : Code (Option (ℕ × Name)) := do
  let i ← atom (namexStart p ⟨path.head? = some 47, []⟩)
  pathLoop sb p parent path name i

variable {sb p} {K : ℕ → Prop} {d : Disk} {w : ℕ → Proc} {R : Multiset ℕ} {i : ℕ}

theorem last_of_stop {parent last : Bool} {name : Name}
    (h : walkOn sb d parent last i name = .stop) : last = true := by
  unfold walkOn at h
  split_ifs at h with hty hstop
  · exact (Bool.and_eq_true_iff.1 hstop).2
  · split at h <;> cases h

/-- The loop goes through the components, and leaves the last one in the buffer. -/
theorem ends_pathLoop {parent : Bool} {path : List UInt8} {name : Name} (hi : Passable sb K d R i)
    (hwalk : Walkable sb K d R parent (components path) i) :
    Ends (Scene K p d w (i ::ₘ R) none) (pathLoop sb p parent path name i) fun r s =>
      r = (namexOn sb d parent (components path) i).map (·, (components path).getLastD name) ∧
        Scene K p d w ((namexOn sb d parent (components path) i).elim R (· ::ₘ R)) none s := by
  induction hn : path.length using Nat.strong_induction_on generalizing path name i with
  | _ n ih =>
    subst hn
    rw [pathLoop]
    split
    next hskip =>
      rw [skipelem_none hskip]
      cases parent with
      | true => exact (ends_put hi.keep).bind fun _ => .pure fun s hs => ⟨rfl, hs⟩
      | false => exact .pure fun s hs => ⟨rfl, hs⟩
    next elem rest hskip =>
      obtain ⟨hcons, hlt, hlast⟩ := skipelem_some hskip
      rw [hcons] at hwalk ⊢
      rw [Walkable, hlast] at hwalk
      rw [namexOn, hlast, getLastD_cons]
      refine (total_walk (Multiset.mem_cons_self i R) hi.sound fun j hj =>
        ⟨(hwalk j hj).1.known, (hwalk j hj).2.1⟩).ends.bind ?_
      rintro r s ⟨rfl, hs⟩
      cases hw : walkOn sb d parent (decide (rest = [])) i elem with
      | fail =>
        rw [hw] at hs
        exact ((ends_put hi.keep).bind fun _ => .pure fun s hs => ⟨rfl, hs⟩) s hs
      | stop =>
        rw [hw] at hs
        have hend : components rest = [] := by
          rw [← List.isEmpty_iff, hlast]
          exact last_of_stop hw
        rw [hend]
        exact ⟨_, s, 0, .ret _ s, rfl, hs⟩
      | next j =>
        obtain ⟨hj, -, hrest⟩ := hwalk j hw
        rw [hw, Walk.refs, Multiset.cons_swap] at hs
        exact ((ends_put (hi.keep.imp_right Multiset.mem_cons_of_mem)).bind
          fun _ => ih _ hlt hj hrest rfl) s hs

end loop

section result

variable {sb : Super} {p : ℕ} {d : Disk} {w : ℕ → Proc} {R : Multiset ℕ} {i : ℕ} {names : List Name}
    {parent : Bool}

/-- Where the names lead by `dirlookup`. -/
def follow (sb : Super) (d : Disk) : List Name → ℕ → Option ℕ
  | [], i => some i
  | name :: rest, i =>
    if (d.dinode i).type = .dir then (lookupIn sb d i name).bind (follow sb d rest) else none

/-- The directory that all names but the last lead to. -/
def parentOf (sb : Super) (d : Disk) (names : List Name) (i : ℕ) : Option ℕ :=
  if names = [] then none else (follow sb d names.dropLast i).filter fun j =>
    (d.dinode j).type = .dir

theorem namexOn_false : namexOn sb d false names i = follow sb d names i := by
  induction names generalizing i with
  | nil => rfl
  | cons name rest ih =>
    rw [namexOn, follow, walkOn]
    by_cases hty : (d.dinode i).type = .dir
    · cases hlook : lookupIn sb d i name with
      | none => simp [hty]
      | some j => simp [hty, ih]
    · simp [hty]

theorem namexOn_true : namexOn sb d true names i = parentOf sb d names i := by
  induction names generalizing i with
  | nil => rfl
  | cons name rest ih =>
    rw [namexOn, parentOf, if_neg (cons_ne_nil _ _), walkOn]
    by_cases hty : (d.dinode i).type = .dir
    · cases rest with
      | nil => simp [hty, follow, Option.filter]
      | cons next rest =>
        rw [dropLast_cons_cons, follow, if_pos hty]
        cases hlook : lookupIn sb d i name with
        | none => simp [hty]
        | some j =>
          simp only [hty, ih, parentOf]
          simp
    · cases rest with
      | nil => simp [hty, follow, Option.filter]
      | cons next rest => simp [hty, follow]

/-- A component is missing, or what comes before it leads to no directory. -/
theorem follow_eq_none_iff : follow sb d names i = none ↔
    ∃ front name rest j, names = front ++ name :: rest ∧ follow sb d front i = some j ∧
      ((d.dinode j).type ≠ .dir ∨ lookupIn sb d j name = none) := by
  induction names generalizing i with
  | nil => simp [follow]
  | cons name rest ih =>
    rw [follow]
    constructor
    · intro hnone
      by_cases hty : (d.dinode i).type = .dir
      · rw [if_pos hty] at hnone
        cases hlook : lookupIn sb d i name with
        | none => exact ⟨[], name, rest, i, rfl, rfl, .inr hlook⟩
        | some k =>
          rw [hlook] at hnone
          obtain ⟨front, name', rest', j, rfl, hfront, hend⟩ := ih.1 hnone
          exact ⟨name :: front, name', rest', j,
            rfl, by rw [follow, if_pos hty, hlook]; exact hfront, hend⟩
      · exact ⟨[], name, rest, i, rfl, rfl, .inl hty⟩
    · rintro ⟨front, name', rest', j, hnames, hfront, hend⟩
      cases front with
      | nil =>
        cases hnames
        cases hfront
        rcases hend with hty | hlook
        · rw [if_neg hty]
        · rw [hlook]
          exact ite_self _
      | cons name front =>
        cases hnames
        rw [follow] at hfront
        split_ifs at hfront ⊢ with hty
        cases hlook : lookupIn sb d i name with
        | none => rfl
        | some k =>
          rw [hlook] at hfront
          exact ih.2 ⟨front, name', rest', j, rfl, hfront, hend⟩

/-- What paths can come to: the root, what is held, and what the entries there name. -/
inductive Reachable (d : Disk) (R : Multiset ℕ) : ℕ → Prop
  | root : Reachable d R rootino
  | held {i : ℕ} (mem : i ∈ R) : Reachable d R i
  | entry {i k : ℕ} (dir : Reachable d R i) (type : (d.dinode i).type = .dir)
      (live : (slot d.data (d.dinode i) k).inum ≠ 0) :
      Reachable d R (slot d.data (d.dinode i) k).inum

/-- Every entry of a directory that paths can come to names an inode in use, and one that is not
freed while a process passes it. So do the root and the references that there are. -/
structure NoDangling (sb : Super) (d : Disk) (R : Multiset ℕ) : Prop where
  good : Good sb d
  size : ∀ i, Reachable d R i → (d.dinode i).type = .dir → deSize ∣ (d.dinode i).size
  held : ∀ i ∈ R, (d.dinode i).type ≠ .none
  root : (d.dinode rootino).type ≠ .none ∧ ((d.dinode rootino).nlink ≠ 0 ∨ rootino ∈ R)
  entry : ∀ i k, Reachable d R i → (d.dinode i).type = .dir →
    (slot d.data (d.dinode i) k).inum ≠ 0 →
    (d.dinode (slot d.data (d.dinode i) k).inum).type ≠ .none ∧
      ((d.dinode (slot d.data (d.dinode i) k).inum).nlink ≠ 0 ∨
        (slot d.data (d.dinode i) k).inum ∈ R)

/-- The table has room for the inodes on the way, two at a time: each `iget` finds the inode or a
free entry. -/
def HasRoom (sb : Super) (d : Disk) (R : Multiset ℕ) (parent : Bool) : List Name → ℕ → Prop
  | [], i => (i ::ₘ R).toFinset.card ≤ ninode
  | name :: rest, i => (i ::ₘ R).toFinset.card ≤ ninode ∧ ∀ j,
    walkOn sb d parent rest.isEmpty i name = .next j →
      (j ::ₘ i ::ₘ R).toFinset.card ≤ ninode ∧ HasRoom sb d R parent rest j

structure Balanced (s t : State) (r : Option ℕ) : Prop where
  disk : t.disk = s.disk
  ref : ∀ j, (t.itable j).ref = (s.itable j).ref + if r = some j then 1 else 0
  lock : ∀ j, (t.itable j).lock = none

abbrev AnyInode (_ : ℕ) : Prop := True

theorem Scene.balanced {s t : State} {r : Option ℕ} (hs : Scene AnyInode p d w R none s)
    (ht : Scene AnyInode p d w (r.elim R (· ::ₘ R)) none t) : Balanced s t r where
  disk := by rw [ht.disk, hs.disk]
  ref j := by
    rw [ht.ref j trivial, hs.ref j trivial]
    cases r with
    | none => simp
    | some i =>
      rw [Option.elim_some, Multiset.count_cons]
      simp [eq_comm]
  lock j := by simpa using ht.lock j trivial

theorem NoDangling.passable_entry (h : NoDangling sb d R) {name : Name} {j : ℕ}
    (hi : Reachable d R i) (hty : (d.dinode i).type = .dir) (hj : lookupIn sb d i name = some j) :
    Reachable d R j ∧ Passable sb AnyInode d R j := by
  have hmap := h.good.mapped i (by rw [hty]; decide)
  rcases dirlookup_spec sb name hty hmap with ⟨-, herr⟩ | ⟨k, inum, hok, hslot, hlive⟩ | ⟨hok, -⟩
  · rw [lookupIn, herr] at hj
    cases hj
  · rw [lookupIn, hok] at hj
    cases hj
    have hlive' : (slot d.data (d.dinode i) k).inum ≠ 0 := by
      rw [hslot]
      exact hlive
    have hentry := h.entry i k hi hty hlive'
    have hreach := hi.entry hty hlive'
    rw [hslot] at hentry hreach
    exact ⟨hreach, ⟨h.good, hentry.1, h.size j hreach⟩, trivial, hentry.2⟩
  · rw [lookupIn, hok] at hj
    cases hj

theorem NoDangling.walkable (h : NoDangling sb d R) (hi : Reachable d R i)
    (hroom : HasRoom sb d R parent names i) : Walkable sb AnyInode d R parent names i := by
  induction names generalizing i with
  | nil => trivial
  | cons name rest ih =>
    intro j hj
    obtain ⟨hcard, hrest⟩ := hroom.2 j hj
    unfold walkOn at hj
    split_ifs at hj with hty hstop
    split at hj
    · cases hj
    · next hlook =>
        cases hj
        obtain ⟨hreach, hpass⟩ := h.passable_entry hi (not_not.1 hty) hlook
        exact ⟨hpass, hcard, ih hreach hrest⟩

theorem HasRoom.start (h : HasRoom sb d R parent names i) : (i ::ₘ R).toFinset.card ≤ ninode := by
  cases names with
  | nil => exact h
  | cons name rest => exact h.1

theorem NoDangling.namexPath (h : NoDangling sb d R) {s : State}
    (hs : Scene AnyInode p d w R none s) {cwd : ℕ} (hcwd : (w p).cwd = some cwd) (hmem : cwd ∈ R)
    {path : List UInt8} (name : Name)
    (hi : (if path.head? = some 47 then rootino else cwd) = i)
    (hroom : HasRoom sb d R parent (components path) i) :
    ∃ t n, Does (namexPath sb p parent path name) s
        ((namexOn sb d parent (components path) i).map (·, (components path).getLastD name)) t n ∧
      Balanced s t (namexOn sb d parent (components path) i) := by
  have hreach : Reachable d R i := by
    split_ifs at hi
    · exact hi ▸ .root
    · exact hi ▸ .held hmem
  have hpass : Passable sb AnyInode d R i := by
    refine ⟨⟨h.good, ?_, h.size i hreach⟩, trivial, ?_⟩
    · split_ifs at hi
      · exact hi ▸ h.root.1
      · exact hi ▸ h.held _ hmem
    · split_ifs at hi
      · exact hi ▸ h.root.2
      · exact hi ▸ .inr hmem
  have hstart : Path.start ⟨path.head? = some 47, []⟩ cwd = i := by
    simpa only [Path.start, decide_eq_true_eq] using hi
  have hends : Ends (Scene AnyInode p d w R none) (Fs.namexPath sb p parent path name) fun r s =>
      r = (namexOn sb d parent (components path) i).map (·, (components path).getLastD name) ∧
        Scene AnyInode p d w ((namexOn sb d parent (components path) i).elim R (· ::ₘ R))
        none s := by
    refine (ends_start hcwd hmem hstart trivial hroom.start).bind ?_
    rintro _ s ⟨rfl, hs⟩
    exact ends_pathLoop hpass (h.walkable hreach hroom) s hs
  obtain ⟨_, t, n, hdo, rfl, ht⟩ := hends s hs
  exact ⟨t, n, hdo, hs.balanced ht⟩

/-- The components of every path are found, `namei` and `nameiparent` return what they lead to, or
0, and only the inode returned has another reference afterwards. -/
theorem path_resolution (h : NoDangling sb d R) {s : State}
    (hs : Scene AnyInode p d w R none s) {cwd : ℕ} (hcwd : (w p).cwd = some cwd) (hmem : cwd ∈ R)
    (path : List UInt8) (name : Name) {i : ℕ}
    (hi : (if path.head? = some 47 then rootino else cwd) = i) :
    elems path.length path = components path ∧
    (HasRoom sb d R false (components path) i → ∃ t n, Does (namexPath sb p false path name) s
        ((follow sb d (components path) i).map (·, (components path).getLastD name)) t n ∧
      Balanced s t (follow sb d (components path) i)) ∧ (follow sb d (components path) i = none ↔
      ∃ front elem rest j, components path = front ++ elem :: rest ∧ follow sb d front i = some j ∧
        ((d.dinode j).type ≠ .dir ∨ lookupIn sb d j elem = none)) ∧
    (HasRoom sb d R true (components path) i → ∃ t n, Does (namexPath sb p true path name) s
        ((parentOf sb d (components path) i).map (·, (components path).getLastD name)) t n ∧
      Balanced s t (parentOf sb d (components path) i)) ∧
    (parentOf sb d (components path) i = none ↔ components path = [] ∨
        ∀ j, follow sb d (components path).dropLast i = some j → (d.dinode j).type ≠ .dir) := by
  refine ⟨elems_eq le_rfl, fun hroom => ?_, follow_eq_none_iff, fun hroom => ?_, ?_⟩
  · rw [← namexOn_false]
    exact h.namexPath hs hcwd hmem name hi hroom
  · rw [← namexOn_true]
    exact h.namexPath hs hcwd hmem name hi hroom
  · unfold parentOf
    split_ifs with hnil
    · simp [hnil]
    · simp [hnil, Option.filter_eq_none_iff]

end result

section images

theorem image_noDangling : NoDangling superblock image {rootino} := by
  have hroot {i : ℕ} (hty : (image.dinode i).type ≠ .none) : i = rootino := image_type hty
  refine ⟨image_good, fun i _ hty => ?_, fun i hi => ?_, by decide, fun i k _ hty hlive => ?_⟩
  · obtain rfl := hroot (by rw [hty]; decide)
    decide
  · rw [Multiset.mem_singleton.1 hi]
    decide
  · obtain rfl := hroot (by rw [hty]; decide)
    have hent : slot image.data (image.dinode rootino) k = image.view.ent rootino k := by
      simp only [Disk.view, if_pos hty]
    have hk : k < 2 := by
      by_contra hge
      rw [hent, image_ent (by omega)] at hlive
      exact hlive rfl
    have hname : (slot image.data (image.dinode rootino) k).inum = rootino := by
      rw [hent]
      interval_cases k
      · rw [image_fresh.dot]
      · rw [image_fresh.dotdot]
    rw [hname]
    decide

theorem boot_scene (d : Disk) : Scene AnyInode 0 d (boot d 1).procs {rootino} none (boot d 1) where
  disk := rfl
  procs := rfl
  inside _ _ := trivial
  ref i _ := by
    change (if i = rootino then 1 else 0) = _
    rw [Multiset.count_singleton]
  active := rfl
  lock i _ := by simp [boot]
  copy i _ _ hv := Bool.noConfusion hv
  valid i hi := by cases hi

theorem path_resolution_dotdot :
    ∃ t n, Does (namexPath superblock 0 false [47, 46, 46] []) (boot image 1)
    (some (rootino, dotdot)) t n ∧
      Balanced (boot image 1) t (some rootino) := by
  have hcomp : components [47, 46, 46] = [dotdot] := by decide +kernel
  have hfollow : follow superblock image [dotdot] rootino = some rootino := by decide +kernel
  have hres := (path_resolution (i := rootino) image_noDangling (boot_scene image) rfl
    (Multiset.mem_singleton_self _) [47, 46, 46] [] rfl).2.1
  rw [hcomp, hfollow] at hres
  have hsmall (R : Multiset ℕ) (hR : R.card ≤ 3) : R.toFinset.card ≤ ninode :=
    R.toFinset_card_le.trans (hR.trans (by decide))
  exact hres ⟨hsmall _ (by decide), fun j _ => ⟨hsmall _ le_rfl, hsmall _ (by simp)⟩⟩

/-- Fifty empty files besides the root, with the names "A" to "r". -/
def crowded : Disk where
  dinode i := if 2 ≤ i ∧ i < 52 then ⟨.file, 0, 0, 1, 0, fun _ => 0⟩ else image.dinode i
  used := image.used
  data b := if b = 46 then (List.range 50).foldl (fun buf k =>
    Block.write buf (deSize * (k + 2)) (Dirent.encode ⟨k + 2, [UInt8.ofNat (k + 65)]⟩))
      rootBlock else fun _ => 0

/-- Of 49 processes in the root directory each has a file open, and "r" is not open. -/
def fullTable : State where
  disk := crowded
  itable i := ⟨if i = rootino then 49 else if 2 ≤ i ∧ i < 51 then 1 else 0, false, none, freeDinode⟩
  active := 50
  procs p :=
    if p < 49 then ⟨some rootino, fun fd => if fd = 0 then some (p + 2) else none⟩ else .exited
  files := 49

def crowdedRefs : Multiset ℕ := Multiset.replicate 49 rootino + (Finset.Ico 2 51).val

theorem crowded_dir {i : ℕ} (hty : (crowded.dinode i).type = .dir) : i = rootino := by
  by_cases hi : 2 ≤ i ∧ i < 52
  · simp [crowded, hi] at hty
  · apply image_type
    simp only [crowded, if_neg hi] at hty
    change (image.dinode i).type ≠ .none
    rw [hty]
    decide

theorem crowded_slot {k : ℕ} (hk : 52 ≤ k) :
    (slot crowded.data (crowded.dinode rootino) k).inum = 0 := by
  have hslots : ∀ l < 64, 52 ≤ l →
      (slot crowded.data (crowded.dinode rootino) l).inum = 0 := by decide +kernel
  by_cases hlt : k < 64
  · exact hslots k hlt hk
  · have hsize : (crowded.dinode rootino).size = 1024 := rfl
    rw [slot_of_gt (by rw [hsize]; unfold deSize; omega)]

theorem crowded_rootOnly : RootOnly crowded where
  root := rfl
  other i hi := by
    by_cases hfile : 2 ≤ i ∧ i < 52
    · simp [crowded, hfile]
    · simp only [crowded, if_neg hfile]
      exact image_rootOnly.other i hi
  used _ := rfl

theorem crowded_noDangling : NoDangling superblock crowded crowdedRefs := by
  have hslots : ∀ k < 52, (slot crowded.data (crowded.dinode rootino) k).inum <
      52 := by decide +kernel
  have hused : ∀ i < 52, i ≠ 0 → (crowded.dinode i).type ≠ .none ∧
      (crowded.dinode i).nlink ≠ 0 := by decide +kernel
  refine ⟨crowded_rootOnly.good, fun i _ hty => ?_, fun i hi => ?_, by decide,
    fun i k _ hty hlive => ?_⟩
  · rw [crowded_dir hty]
    decide
  · rw [crowdedRefs, Multiset.mem_add, Multiset.mem_replicate, Finset.mem_val, Finset.mem_Ico] at hi
    rcases hi with ⟨-, rfl⟩ | hi
    · decide
    · exact (hused i (by omega) (by omega)).1
  · obtain rfl := crowded_dir hty
    have hk : k < 52 := by
      by_contra hge
      exact hlive (crowded_slot (by omega))
    exact (hused _ (hslots k hk) hlive).imp_right .inl

theorem fullTable_scene : Scene AnyInode 0 crowded fullTable.procs crowdedRefs none fullTable where
  disk := rfl
  procs := rfl
  inside _ _ := trivial
  ref i _ := by
    rw [crowdedRefs, Multiset.count_add, Multiset.count_replicate,
      Multiset.count_eq_of_nodup (Finset.nodup _)]
    by_cases hi : i = rootino
    · simp [fullTable, hi, rootino]
    · simp [fullTable, hi, Ne.symm hi]
  active := by decide +kernel
  lock i _ := by simp [fullTable]
  copy i _ _ hv := Bool.noConfusion hv
  valid i hi := by cases hi

/-- Every reference is held by a process. -/
theorem fullTable_held (i : ℕ) : (fullTable.itable i).ref = ∑ p ∈ Finset.range 49,
    (fullTable.procs p).uses i := by
  have huses : ∀ p ∈ Finset.range 49, (fullTable.procs p).uses i =
      (if i = rootino then 1 else 0) + if p + 2 = i then 1 else 0 := by
    intro p hp
    have hproc : fullTable.procs p =
        ⟨some rootino, fun fd => if fd = 0 then some (p + 2) else none⟩ :=
      if_pos (Finset.mem_range.1 hp)
    have hfiles : ((Finset.range nofile).filter
        fun fd => (if fd = 0 then some (p + 2) else none) = some i).card =
        if p + 2 = i then 1 else 0 := by
      by_cases hi : p + 2 = i
      · rw [if_pos hi, Finset.card_eq_one]
        exact ⟨0, by ext fd; by_cases hfd : fd = 0 <;> simp [hfd, hi, nofile]⟩
      · rw [if_neg hi, Finset.card_eq_zero]
        exact Finset.filter_eq_empty_iff.2 fun fd _ => by by_cases hfd : fd = 0 <;> simp [hfd, hi]
    rw [hproc, Proc.uses, hfiles]
    simp [eq_comm]
  rw [Finset.sum_congr rfl huses, Finset.sum_add_distrib]
  by_cases hi : i = rootino
  · have hnone : ∑ p ∈ Finset.range 49, (if p + 2 = i then 1 else 0) = 0 :=
      Finset.sum_eq_zero fun p _ => if_neg (by rw [hi]; unfold rootino; omega)
    rw [hnone]
    simp [fullTable, hi]
  · by_cases hrange : 2 ≤ i ∧ i < 51
    · have hone : ∑ p ∈ Finset.range 49, (if p + 2 = i then 1 else 0) = 1 := by
        rw [Finset.sum_eq_single (i - 2)]
        · exact if_pos (by omega)
        · exact fun p _ hne => if_neg (by omega)
        · exact fun hnot => absurd (Finset.mem_range.2 (by omega)) hnot
      rw [hone]
      simp [fullTable, hi, hrange]
    · have hnone : ∑ p ∈ Finset.range 49, (if p + 2 = i then 1 else 0) = 0 :=
        Finset.sum_eq_zero fun p hp => if_neg (by have hlt := Finset.mem_range.1 hp; omega)
      rw [hnone]
      simp [fullTable, hi, hrange]

/-- The state after `iget` of the root. -/
def rootTaken : State :=
    { fullTable with itable := update fullTable.itable rootino ⟨50, false, none, freeDinode⟩ }

/-- With the root and 49 open files in the table another file cannot be looked up. -/
theorem namei_panics_on_full_table :
    ∃ (d : Disk) (w : ℕ → Proc) (R : Multiset ℕ) (s t : State) (cwd : ℕ),
      NoDangling superblock d R ∧ Scene AnyInode 0 d w R none s ∧ (w 0).cwd = some cwd ∧ cwd ∈ R ∧
        (∀ i, (s.itable i).ref = ∑ p ∈ Finset.range 49, (w p).uses i) ∧
        namexStart 0 ⟨true, []⟩ s = some (.ok (rootino, t)) ∧
        walk superblock 0 false true rootino [114] t = some (.error .igetNoInodes) ∧
          ∀ r u n, ¬ Does (namexPath superblock 0 false [47, 114] []) s r u n := by
  have hstart : namexStart 0 ⟨true, []⟩ fullTable = some (.ok (rootino, rootTaken)) := rfl
  have hpanic : walk superblock 0 false true rootino [114] rootTaken =
      some (.error .igetNoInodes) := by rfl
  refine ⟨crowded, fullTable.procs, crowdedRefs, fullTable, rootTaken, rootino, crowded_noDangling,
    fullTable_scene, rfl, by decide, fullTable_held, hstart, hpanic, fun r u n hdo => ?_⟩
  cases hdo with
  | act first rest =>
    have hfirst : namexStart 0 ⟨true, []⟩ fullTable = _ := first
    rw [hstart] at hfirst
    cases hfirst
    have hloop : Does (pathLoop superblock 0 false [47, 114] [] rootino) rootTaken r u _ := rest
    have hskip : skipelem [47, 114] = some ([114], []) := by decide
    rw [pathLoop] at hloop
    split at hloop
    · next hnone =>
        rw [hskip] at hnone
        cases hnone
    · next hsome =>
        rw [hskip] at hsome
        cases hsome
        cases hloop with
        | act second _ =>
          have hsecond : walk superblock 0 false true rootino [114] rootTaken = _ := second
          rw [hpanic] at hsecond
          cases hsecond

end images

end Xv6.Fs
